import Tidb.Unistore.MvccCommit
import Tidb.Unistore.SnapshotIsolation

/-!
# What locks protect and reads see

Requests of all kinds, optimistic and pessimistic, in any order.  A key that is locked stays as it is under the
requests of other transactions, what is committed is read back from then on, and a read finds the same again.
-/

namespace Unistore

open GoLang Tidb Store

variable {encodeFromOldRow : Bytes → Except Err Bytes} {s : Store} {r : Request} {rs : List Request}
  {batch : List Entry} {reply : Reply} {l : Lock} {key : Bytes} {version : ℕ} {resolved committed : List ℕ}

/-! ## Locked keys -/

/-- A prewrite of the key does not only check the constraint: then it would not look for a lock. -/
def Request.LooksForLock (key : Bytes) : Request → Prop
  | .prewrite req _ => req.forUpdateTs ≠ 0 → ∀ m ∈ req.mutations, m.key = key → m.action ≠ .doConstraintCheck
  | _ => True

theorem Passes.owns {req : PrewriteRequest} {pd : Except KvError ℕ} {m : Mutation} (h : Passes s req m)
    (hm : m ∈ req.mutations) (hlook : Request.LooksForLock m.key (.prewrite req pd))
    (hget : s.getLock m.key = some l) : l.startTS = req.startVersion := by
  unfold Passes at h
  by_cases hopt : req.forUpdateTs = 0
  · rw [if_pos hopt, hget] at h
    cases h.1
  · rw [if_neg hopt] at h
    cases hact : m.action with
    | doPessimisticCheck =>
      rw [hact, hget] at h
      obtain ⟨l', hl', hts, -⟩ := h
      rwa [Option.some.inj hl']
    | doConstraintCheck => exact absurd hact (hlook hopt m hm rfl)
    | skipPessimisticCheck =>
      rw [hact, hget] at h
      cases h

/-- The batch has neither a lock nor a version of the key, and does not unlock it. -/
def Untouched (key : Bytes) (batch : List Entry) : Prop :=
  (∀ l, Entry.lock key l ∉ batch) ∧ Entry.unlock key ∉ batch ∧ ∀ c v, Entry.version key c v ∉ batch

theorem untouched_lockAll {ls : List (Bytes × Lock)} (h : ∀ l, (key, l) ∉ ls) : Untouched key (lockAll ls) :=
  ⟨fun l hmem => h l (lock_mem_lockAll.mp hmem), unlock_notMem_lockAll, fun _ _ => version_notMem_lockAll⟩

theorem untouched_commitAll {ls : List (Bytes × Lock)} {startTS commitTS : ℕ} (h : ∀ l, (key, l) ∉ ls) :
    Untouched key (commitAll startTS commitTS ls) := by
  refine ⟨fun l => lock_notMem_commitAll, fun hmem => ?_, fun c v hmem => ?_⟩
  · obtain ⟨l, hl⟩ := unlock_mem_commitAll.mp hmem
    exact h l hl
  · obtain ⟨-, l, hl, -⟩ := version_mem_commitAll hmem
    exact h l hl

theorem Does.untouched (h : Does s r batch) (hget : s.getLock key = some l) (hother : r.startTS ≠ l.startTS)
    (hlook : r.LooksForLock key) : Untouched key batch := by
  have hnot : ¬ s.Owns r.startTS key := fun ⟨l', hl', hts⟩ =>
    hother (hts.symm.trans (congrArg Lock.startTS (Option.some.inj (hl'.symm.trans hget))))
  cases h with
  | nothing r => simp [Untouched]
  | prewrite hpass hls =>
    refine untouched_lockAll fun l' hmem => ?_
    obtain ⟨-, m, hm, -, rfl, -⟩ := hls _ hmem
    exact hother ((hpass m hm).owns hm hlook hget).symm
  | onePC hpass hc hls honce =>
    refine untouched_commitAll fun l' hmem => ?_
    obtain ⟨-, m, hm, -, rfl, -⟩ := hls _ hmem
    exact hother ((hpass m hm).owns hm hlook hget).symm
  | pessimisticLock hpass hls =>
    refine untouched_lockAll fun l' hmem => ?_
    obtain ⟨-, -, m, hm, rfl⟩ := hls _ hmem
    exact hother ((hpass m hm).1 l hget).1.symm
  | relock hget' hts hts' hop =>
    refine untouched_lockAll fun l' hmem => ?_
    obtain ⟨rfl, -⟩ := Prod.mk.inj (List.mem_singleton.mp hmem)
    exact hnot ⟨_, hget', hts⟩
  | commit hc hls => exact untouched_commitAll fun l' hmem => hnot ⟨l', hls _ hmem⟩
  | rollback hks =>
    refine ⟨fun l' => lock_notMem_rollbackAll, fun hmem => ?_, fun c v => version_notMem_rollbackAll⟩
    rcases hks _ (unlock_mem_rollbackAll.mp hmem) with ⟨-, hown⟩ | ⟨hd, -⟩ | ⟨hd, -⟩
    · exact hnot hown
    · cases hd
    · cases hd
  | unlock hkeys =>
    refine ⟨fun l' => lock_notMem_unlockAll, fun hmem => ?_, fun c v => version_notMem_unlockAll⟩
    obtain ⟨k, hk, heq⟩ := List.mem_map.mp hmem
    cases heq
    exact hnot (hkeys _ hk)

theorem Untouched.getLock_write (h : Untouched key batch) : (s.write batch).getLock key = s.getLock key := by
  rcases @get_write _ (·.getLock key) _ getLock_put s batch with ⟨e, he, hset⟩ | ⟨heq, -⟩
  · rcases setsLock_eq_some hset with ⟨l', rfl, -⟩ | ⟨rfl, -⟩
    · exact absurd he (h.1 l')
    · exact absurd he h.2.1
  · exact heq

/-- Over any requests of other transactions a locked key keeps its lock and its versions. -/
theorem locked_key_is_frozen (hget : s.getLock key = some l)
    (hrs : ∀ r ∈ rs, r.startTS ≠ l.startTS ∧ r.LooksForLock key) :
    (run encodeFromOldRow s rs).getLock key = some l ∧
      ∀ c, ((run encodeFromOldRow s rs).versions key).find c = (s.versions key).find c := by
  induction rs generalizing s with
  | nil => exact ⟨hget, fun c => rfl⟩
  | cons r rs ih =>
    obtain ⟨⟨hother, hlook⟩, hrs⟩ := List.forall_mem_cons.mp hrs
    obtain ⟨batch, heq, hdoes⟩ := exec_does encodeFromOldRow s r
    have hun := hdoes.untouched hget hother hlook
    obtain ⟨hlock, hfind⟩ := @ih (s.write batch) (hun.getLock_write.trans hget) hrs
    rw [run, List.foldl_cons, heq]
    exact ⟨hlock, fun c => (hfind c).trans (find_version_write_of_notMem (hun.2.2 c))⟩

/-- A prewrite, a pessimistic lock and a rollback of transaction 30 on the key that transaction 10 has locked. -/
theorem locked_key_is_frozen_of_put :
    let put := fun ts => Request.prewrite (prewriteOf ts [116, 97] [putOf [116, 97] [1]]) (.ok 0)
    let s := exec newRows .empty (put 10)
    let rs := [put 30, pessimisticLockOf 30 30 [116, 97] [putOf [116, 97] []], .rollback [[116, 97]] 30]
    ∃ l, s.getLock [116, 97] = some l ∧ (run newRows s rs).getLock [116, 97] = some l := by
  intro put s rs
  have hrs : ∀ r ∈ rs, r.startTS ≠ 10 ∧ r.LooksForLock [116, 97] := by
    simp [rs, put, Request.startTS, Request.LooksForLock, prewriteOf, pessimisticLockOf]
  exact ⟨_, rfl, (locked_key_is_frozen rfl hrs).1⟩

/-! ## Reads -/

theorem Store.ValueAt.eq {s' : Store} {ts : ℕ} {a b : Option Bytes} (h : s.ValueAt key ts a) (h' : s'.ValueAt key ts b)
    (hfind : ∀ c ≤ ts, (s'.versions key).find c = (s.versions key).find c) : a = b := by
  cases a with
  | none =>
    cases b with
    | none => rfl
    | some value =>
      obtain ⟨c, v, hc, hv, -⟩ := h'
      rw [hfind c hc, h c hc] at hv
      cases hv
  | some value =>
    obtain ⟨c, v, hc, hv, rfl, hmax⟩ := h
    cases b with
    | none =>
      rw [← hfind c hc, h' c hc] at hv
      cases hv
    | some value' =>
      obtain ⟨c', v', hc', hv', rfl, hmax'⟩ := h'
      rw [← hfind c hc] at hv
      rw [le_antisymm (hmax' c v hv hc) (hmax c' v' (hfind c' hc' ▸ hv') hc'), hv'] at hv
      cases hv
      rfl

/-- Requests that write above a timestamp keep the versions up to it. -/
theorem find_run (hrs : ∀ r ∈ rs, ∀ c, r.writesAt = some c → version < c) :
    ∀ c ≤ version, ((run encodeFromOldRow s rs).versions key).find c = (s.versions key).find c := by
  intro c hc
  induction rs generalizing s with
  | nil => rfl
  | cons r rs ih =>
    obtain ⟨hr, hrs⟩ := List.forall_mem_cons.mp hrs
    obtain ⟨batch, heq, hdoes⟩ := exec_does encodeFromOldRow s r
    rw [run, List.foldl_cons, heq]
    refine (ih hrs).trans (find_version_write_of_notMem fun v hmem => ?_)
    exact absurd hc (not_le.mpr (hr c (hdoes.version_startTS hmem).2))

/-! ## Repeated reads -/

def Request.Prewrites (key : Bytes) : Request → Prop
  | .prewrite req _ => ∃ m ∈ req.mutations, m.key = key
  | _ => False

def WritesAbove (rs : List Request) (version startTS : ℕ) : Prop :=
  ∀ r ∈ rs, r.startTS = startTS → ∀ c, r.writesAt = some c → version < c

/-- Timestamps are handed out in order: a transaction that prewrites the key after the read commits above it, and the
transaction that has locked the key commits above its own start. -/
structure InOrder (s : Store) (key : Bytes) (version : ℕ) (rs : List Request) : Prop where
  later : ∀ r ∈ rs, r.Prewrites key → WritesAbove rs version r.startTS
  held : ∀ l, s.getLock key = some l → WritesAbove rs l.startTS l.startTS

/-- What is locked for a write is written above the timestamp. -/
def LockedAbove (s : Store) (key : Bytes) (version : ℕ) (rs : List Request) : Prop :=
  ∀ l, s.getLock key = some l → l.op = .put ∨ l.op = .del → WritesAbove rs version l.startTS

theorem Does.above (h : Does s r batch) (hr : r ∈ rs) (hlater : r.Prewrites key → WritesAbove rs version r.startTS)
    (hlock : LockedAbove s key version rs) :
    (∀ c v, Entry.version key c v ∈ batch → version < c) ∧
      ∀ l, Entry.lock key l ∈ batch → l.op = .put ∨ l.op = .del → WritesAbove rs version l.startTS := by
  cases h with
  | nothing r => simp
  | prewrite hpass hls =>
    refine ⟨fun c v hmem => absurd hmem version_notMem_lockAll, fun l hmem _ => ?_⟩
    obtain ⟨hts, m, hm, -, hkey, -⟩ := hls _ (lock_mem_lockAll.mp hmem)
    rw [hts]
    exact hlater ⟨m, hm, hkey.symm⟩
  | onePC hpass hc hls honce =>
    refine ⟨fun c v hmem => ?_, fun l hmem => absurd hmem lock_notMem_commitAll⟩
    obtain ⟨rfl, l, hl, -⟩ := version_mem_commitAll hmem
    obtain ⟨-, m, hm, -, hkey, -⟩ := hls _ hl
    exact hlater ⟨m, hm, hkey.symm⟩ _ hr rfl _ (if_pos honce)
  | pessimisticLock hpass hls =>
    refine ⟨fun c v hmem => absurd hmem version_notMem_lockAll, fun l hmem hop => ?_⟩
    rw [(hls _ (lock_mem_lockAll.mp hmem)).2.1] at hop
    rcases hop with hop | hop <;> cases hop
  | relock hget hts hts' hop =>
    refine ⟨fun c v hmem => absurd hmem version_notMem_lockAll, fun l hmem hop' => ?_⟩
    obtain ⟨rfl, rfl⟩ := Prod.mk.inj (List.mem_singleton.mp (lock_mem_lockAll.mp hmem))
    rw [hop] at hop'
    rw [hts']
    exact hlock _ hget hop'
  | commit hc hls =>
    refine ⟨fun c v hmem => ?_, fun l hmem => absurd hmem lock_notMem_commitAll⟩
    obtain ⟨rfl, l, hl, -, hop⟩ := version_mem_commitAll hmem
    obtain ⟨hget, hts⟩ := hls _ hl
    exact hlock l hget hop r hr hts.symm _ (Request.writesAt_of_commitTS hc)
  | rollback hks =>
    exact ⟨fun c v hmem => absurd hmem version_notMem_rollbackAll, fun l hmem => absurd hmem lock_notMem_rollbackAll⟩
  | unlock hkeys =>
    exact ⟨fun c v hmem => absurd hmem version_notMem_unlockAll, fun l hmem => absurd hmem lock_notMem_unlockAll⟩

theorem find_run_of_lockedAbove {all : List Request} (hrs : rs ⊆ all)
    (hlater : ∀ r ∈ all, r.Prewrites key → WritesAbove all version r.startTS) (hlock : LockedAbove s key version all) :
    ∀ c ≤ version, ((run encodeFromOldRow s rs).versions key).find c = (s.versions key).find c := by
  induction rs generalizing s with
  | nil => exact fun c _ => rfl
  | cons r rs ih =>
    obtain ⟨hr, hrs⟩ := List.cons_subset.mp hrs
    obtain ⟨batch, heq, hdoes⟩ := exec_does encodeFromOldRow s r
    obtain ⟨hversion, hnew⟩ := hdoes.above hr (hlater r hr) hlock
    have hlock' : LockedAbove (s.write batch) key version all := by
      intro l hl hop
      rcases getLock_write hl with hmem | ⟨hold, -⟩
      · exact hnew l hmem hop
      · exact hlock l hold hop
    intro c hc
    rw [run, List.foldl_cons, heq]
    refine (ih hrs hlock' c hc).trans (find_version_write_of_notMem fun v hmem => ?_)
    exact absurd hc (not_le.mpr (hversion c v hmem))

/-- A read that has succeeded finds a lock or the same again, whatever requests come in between: it fails on the lock
of a transaction that may still commit below it. -/
theorem get_repeatable (hrs : InOrder s key version rs) (hversion : version < maxSystemTS)
    (hlists : ∀ l, s.getLock key = some l → l.startTS ∉ resolved ∧ l.startTS ∉ committed)
    (hlists' : ∀ l, (run encodeFromOldRow s rs).getLock key = some l → l.startTS ∉ resolved ∧ l.startTS ∉ committed)
    {value : Option Bytes} (h : get s key version resolved committed = .ok value) :
    (∃ l, get (run encodeFromOldRow s rs) key version resolved committed = .error (.locked key l)) ∨
      get (run encodeFromOldRow s rs) key version resolved committed = .ok value := by
  rcases get_spec hversion hlists with ⟨l, herr⟩ | ⟨value₀, hok, hat, habove⟩
  · rw [herr] at h
    cases h
  obtain rfl : value₀ = value := by
    rw [hok] at h
    exact Outcome.ok.inj h
  -- a write lock that lets the read pass belongs to a transaction that started after it
  have hlock : LockedAbove s key version rs := fun l hl hop r hr hts c hc =>
    (habove l hl hop).trans (hrs.held l hl r hr hts c hc)
  refine (get_spec hversion hlists').imp_right ?_
  rintro ⟨value', hok', hat', -⟩
  rwa [hat.eq hat' (find_run_of_lockedAbove (List.Subset.refl rs) hrs.later hlock)]

/-- Transaction 30 has locked the key when it is read at 25, and commits; transaction 10 commits another key at 20,
below the read. -/
theorem get_repeatable_of_put :
    let put := fun ts key value => Request.prewrite (prewriteOf ts key [putOf key value]) (.ok 0)
    let s := run newRows .empty [put 5 [116, 97] [1], .commit [[116, 97]] 5 8, put 10 [116, 98] [7],
      put 30 [116, 97] [2]]
    let s' := run newRows s [.commit [[116, 98]] 10 20, .commit [[116, 97]] 30 40]
    (∃ l, get s' [116, 97] 25 [] [] = .error (.locked [116, 97] l)) ∨ get s' [116, 97] 25 [] [] = .ok (some [1]) := by
  intro put s s'
  have hread : get s [116, 97] 25 [] [] = .ok (some [1]) := by decide
  refine get_repeatable ⟨?_, ?_⟩ (by decide) (by simp) (by simp) hread
  · intro r hr hprewrites
    rcases List.mem_pair.mp hr with rfl | rfl <;> cases hprewrites
  · intro l hl r hr hts c hc
    have hlock : (s.getLock [116, 97]).map Lock.startTS = some 30 := by decide
    rw [hl, Option.map_some, Option.some.injEq] at hlock
    rw [hlock] at hts ⊢
    rcases List.mem_pair.mp hr with rfl | rfl
    · cases hts
    · cases hc
      decide

/-- From its commit on, the value that was locked is what a read finds that is not stopped by a lock, until there is a
newer version at the timestamp of the read. -/
theorem commit_is_read {keys : List Bytes} {commitTS : ℕ} {s' : Store} (hget : s.getLock key = some l)
    (hop : l.op = .put ∨ l.op = .del) (hnewer : ∀ c v, (s.versions key).find c = some v → c < commitTS)
    (hok : handle encodeFromOldRow s (.commit keys l.startTS commitTS) = .ok (batch, reply)) (hkey : key ∈ keys)
    (hs' : s' = run encodeFromOldRow (exec encodeFromOldRow s (.commit keys l.startTS commitTS)) rs)
    (hrs : ∀ r ∈ rs, ∀ c, r.writesAt = some c → version < c) (hle : commitTS ≤ version)
    (hversion : version < maxSystemTS)
    (hlists : ∀ l', s'.getLock key = some l' → l'.startTS ∉ resolved ∧ l'.startTS ∉ committed) :
    (∃ l', get s' key version resolved committed = .error (.locked key l')) ∨
      get s' key version resolved committed = .ok (some l.value) := by
  refine (get_spec hversion hlists).imp_right ?_
  rintro ⟨value, hget', hat, -⟩
  rw [hs', exec_of_ok hok] at hat
  obtain ⟨b, hb, hrest⟩ := Outcome.bind_eq_ok.mp hok
  cases hrest
  obtain ⟨ls, rfl, hls, hall⟩ := commitKeys_ok hb
  have hlock : ∀ {l'}, (key, l') ∈ ls → l' = l := fun hl' => Option.some.inj ((hls _ hl').1.symm.trans hget)
  obtain ⟨l', hmem⟩ := hall key (mem_sortKeys.mpr hkey) ⟨l, hget, rfl⟩
  rw [hlock hmem] at hmem
  -- the version that the commit has written is the newest one
  have hentry : Entry.version key commitTS ⟨l.startTS, l.value⟩ ∈ commitAll l.startTS commitTS ls := by
    refine List.mem_flatMap.mpr ⟨(key, l), hmem, ?_⟩
    rcases hop with hop | hop <;> simp [commitEntries, hop]
  obtain ⟨v, hv, hfind⟩ := find_version_write_of_mem hentry
  obtain ⟨-, l₁, hl₁, rfl, -⟩ := version_mem_commitAll hv
  rw [hlock hl₁] at hfind
  have hwritten : (s.write (commitAll l.startTS commitTS ls)).ValueAt key version (some l.value) := by
    refine ⟨commitTS, _, hle, hfind, rfl, fun c v hc _ => ?_⟩
    rcases find_version_write hc with hnew | ⟨hold, -⟩
    · exact (version_mem_commitAll hnew).1.le
    · exact (hnewer c v hold).le
  rw [hget', hwritten.eq hat (find_run hrs)]

theorem commit_is_read_of_put :
    let s := exec newRows .empty (.prewrite (prewriteOf 10 [116, 97] [putOf [116, 97] [1]]) (.ok 0))
    let other := Request.prewrite (prewriteOf 30 [116, 97] [putOf [116, 97] [2]]) (.ok 0)
    let s' := run newRows (exec newRows s (.commit [[116, 97]] 10 20)) [other, .commit [[116, 97]] 30 40]
    (∃ l, get s' [116, 97] 25 [] [] = .error (.locked [116, 97] l)) ∨ get s' [116, 97] 25 [] [] = .ok (some [1]) := by
  intro s other s'
  have hok : handle newRows s (.commit [[116, 97]] 10 20) =
    .ok ([.version [116, 97] 20 ⟨10, [1]⟩, .unlock [116, 97]], .done) := by decide
  exact @commit_is_read newRows s [other, .commit [[116, 97]] 30 40] _ _ _ [116, 97] 25 [] [] [[116, 97]] 20 s' rfl
    (.inl rfl) (fun c v hv => by cases hv) hok (by decide) rfl (by decide) (by decide) (by decide) (by simp)

end Unistore
