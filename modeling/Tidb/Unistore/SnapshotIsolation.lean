import Tidb.Unistore.MvccStep

/-!
# Snapshot isolation

Transactions that prewrite optimistically, with timestamps from one oracle, and their reads.  `Allowed` says what the
requests carry; `Orderly` is what the store needs in addition, since a prewrite that comes late is not always refused.
-/

namespace Unistore

open GoLang Tidb List Store

/-! ## Worlds and events -/

structure World where
  store : Store
  now : ℕ
  starts : List ℕ
  /-- Start timestamps with the commit timestamps that were handed out for them. -/
  commits : List (ℕ × ℕ)
  reads : List (Bytes × ℕ)

def World.empty : World := ⟨.empty, 0, [], [], []⟩

inductive Event where
  /-- A timestamp to start a transaction with, or to read at. -/
  | timestamp (ts : ℕ)
  | commitTimestamp (startTS commitTS : ℕ)
  /-- `last` is true where the transaction takes the timestamp of async commit from this reply. -/
  | prewrite (req : PrewriteRequest) (pd : Except KvError ℕ) (last : Bool)
  | request (r : Request)
  | get (key : Bytes) (version : ℕ) (resolved committed : List ℕ)

/-- The commit timestamps in the reply of a prewrite: the transaction has committed in one phase, or may commit
at the timestamp of async commit. -/
def grants (startTS : ℕ) (last : Bool) : Result → List (ℕ × ℕ)
  | .ok (_, .prewritten async once) =>
    (if once = 0 then [] else [(startTS, once)]) ++ if last ∧ async ≠ 0 then [(startTS, async)] else []
  | _ => []

namespace World

variable (encodeFromOldRow : Bytes → Except Err Bytes)

def clockAfter (w : World) (req : PrewriteRequest) : Except KvError ℕ → ℕ
  | .ok ts => if req.useAsyncCommit ∨ req.tryOnePc then ts else w.now
  | .error _ => w.now

def step (w : World) : Event → World
  | .timestamp ts => { w with now := ts, starts := ts :: w.starts }
  | .commitTimestamp startTS commitTS => { w with now := commitTS, commits := (startTS, commitTS) :: w.commits }
  | .prewrite req pd last => { w with
      store := exec encodeFromOldRow w.store (.prewrite req pd)
      now := w.clockAfter req pd
      commits := grants req.startVersion last (handle encodeFromOldRow w.store (.prewrite req pd)) ++ w.commits }
  | .request r => { w with store := exec encodeFromOldRow w.store r }
  | .get key version resolved committed =>
    match get w.store key version resolved committed with
    | .ok _ => { w with reads := (key, version) :: w.reads }
    | .error _ => w
    | .fault => w

def run (w : World) (es : List Event) : World := es.foldl (step encodeFromOldRow) w

/-- The oracle hands out increasing timestamps, and requests carry those that were handed out. -/
def Allowed (w : World) : Event → Prop
  | .timestamp ts => w.now < ts ∧ ts < maxSystemTS
  | .commitTimestamp startTS commitTS => startTS ∈ w.starts ∧ w.now < commitTS ∧ commitTS < maxSystemTS
  | .prewrite req pd _ => req.forUpdateTs = 0 ∧ req.startVersion ∈ w.starts ∧
      ∀ ts, Asked req pd ts → w.now < ts ∧ ts < maxSystemTS
  | .request (.commit _ startTS commitTS) => (startTS, commitTS) ∈ w.commits
  | .request (.resolveLock _ _ _ startTS commitTS) => commitTS = 0 ∨ (startTS, commitTS) ∈ w.commits
  | .request (.rollback _ _) => True
  | .request (.cleanup _ _ _) => True
  | .request (.checkTxnStatus _) => True
  | .request _ => False
  | .get _ version _ _ => version ≤ w.now

/-- The prewrite does not pass at the mutation: its key is locked by the transaction, has a newer version, or is the
primary and has a status of the transaction. -/
def Refused (s : Store) (req : PrewriteRequest) (m : Mutation) : Prop :=
  s.Owns req.startVersion m.key ∨ (∃ c v, (s.versions m.key).find c = some v ∧ req.startVersion < c) ∨
    m.key = req.primaryLock ∧ (s.status m.key req.startVersion).isSome

/-- Prewrites of a transaction do not pass after its commit timestamp was handed out, and a read does not name the
transaction that has locked its key as resolved or committed. -/
def Orderly (w : World) : Event → Prop
  | .prewrite req _ _ => (∃ c, (req.startVersion, c) ∈ w.commits) → ∃ m ∈ req.mutations, Refused w.store req m
  | .get key _ resolved committed => ∀ l, w.store.getLock key = some l → l.startTS ∉ resolved ∧ l.startTS ∉ committed
  | _ => True

/-! ## The invariant -/

structure Isolated (w : World) : Prop where
  now_lt : w.now < maxSystemTS
  starts_le : ∀ t ∈ w.starts, t ≤ w.now
  commits : ∀ t c, (t, c) ∈ w.commits → t ∈ w.starts ∧ t < c ∧ c ≤ w.now
  distinct : ∀ t ∈ w.starts, ∀ t' c, (t', c) ∈ w.commits → c ≠ t
  versions : ∀ key c v, (w.store.versions key).find c = some v → (v.startTS, c) ∈ w.commits
  locks : ∀ key l, w.store.getLock key = some l → l.startTS ∈ w.starts ∧ w.store.Fresh l.startTS key
  pairs : ∀ key c₁ v₁ c₂ v₂, (w.store.versions key).find c₁ = some v₁ → (w.store.versions key).find c₂ = some v₂ →
    v₁.startTS ≠ v₂.startTS → c₁ < v₂.startTS ∨ c₂ < v₁.startTS
  reads : ∀ key v, (key, v) ∈ w.reads → v ≤ w.now ∧
    ∀ l, w.store.getLock key = some l → l.op = .put ∨ l.op = .del → ∀ c, (l.startTS, c) ∈ w.commits → v < c

variable {encodeFromOldRow} {w : World} {batch : List Entry}

theorem isolated_empty : World.empty.Isolated where
  now_lt := by decide
  starts_le t h := by cases h
  commits t c h := by cases h
  distinct t h := by cases h
  versions key c v h := by cases h
  locks key l h := by cases h
  pairs key c₁ v₁ c₂ v₂ h := by cases h
  reads key v h := by cases h

theorem Isolated.grant (h : w.Isolated) {now : ℕ} {new : List (ℕ × ℕ)} (hnow : w.now ≤ now) (hlt : now < maxSystemTS)
    (hnew : ∀ t c, (t, c) ∈ new → t ∈ w.starts ∧ w.now < c ∧ c ≤ now) :
    Isolated { w with now := now, commits := new ++ w.commits } where
  now_lt := hlt
  starts_le t ht := (h.starts_le t ht).trans hnow
  commits t c hc := by
    rcases mem_append.mp hc with hc | hc
    · obtain ⟨ht, hgt, hle⟩ := hnew t c hc
      exact ⟨ht, (h.starts_le t ht).trans_lt hgt, hle⟩
    · obtain ⟨ht, hgt, hle⟩ := h.commits t c hc
      exact ⟨ht, hgt, hle.trans hnow⟩
  distinct t ht t' c hc := by
    rcases mem_append.mp hc with hc | hc
    · have hle := h.starts_le t ht
      obtain ⟨-, hgt, -⟩ := hnew t' c hc
      omega
    · exact h.distinct t ht t' c hc
  versions key c v hv := mem_append_right new (h.versions key c v hv)
  locks := h.locks
  pairs := h.pairs
  reads key v hv := by
    obtain ⟨hle, hlock⟩ := h.reads key v hv
    refine ⟨hle.trans hnow, fun l hl hop c hc => ?_⟩
    rcases mem_append.mp hc with hc | hc
    · exact hle.trans_lt (hnew _ c hc).2.1
    · exact hlock l hl hop c hc

theorem Isolated.write_locks (h : w.Isolated) (hversion : ∀ key c v, Entry.version key c v ∉ batch)
    (hlock : ∀ key l, Entry.lock key l ∈ batch → l.startTS ∈ w.starts ∧ w.store.Fresh l.startTS key ∧
      (l.op = .put ∨ l.op = .del → ∀ v c, (key, v) ∈ w.reads → (l.startTS, c) ∈ w.commits → v < c)) :
    Isolated { w with store := w.store.write batch } := by
  have hfind : ∀ key c, ((w.store.write batch).versions key).find c = (w.store.versions key).find c :=
    fun key c => find_version_write_of_notMem (hversion key c)
  constructor
  · exact h.now_lt
  · exact h.starts_le
  · exact h.commits
  · exact h.distinct
  · intro key c v hv
    rw [hfind] at hv
    exact h.versions key c v hv
  · intro key l hl
    rcases getLock_write hl with hmem | ⟨hold, -⟩
    · obtain ⟨hstart, hfresh, -⟩ := hlock key l hmem
      exact ⟨hstart, fun c v hv => hfresh c v (by rw [← hfind]; exact hv)⟩
    · obtain ⟨hstart, hfresh⟩ := h.locks key l hold
      exact ⟨hstart, fun c v hv => hfresh c v (by rw [← hfind]; exact hv)⟩
  · intro key c₁ v₁ c₂ v₂ h₁ h₂
    rw [hfind] at h₁ h₂
    exact h.pairs key c₁ v₁ c₂ v₂ h₁ h₂
  · intro key v hv
    refine ⟨(h.reads key v hv).1, fun l hl hop c hc => ?_⟩
    rcases getLock_write hl with hmem | ⟨hold, -⟩
    · exact (hlock key l hmem).2.2 hop v c hv hc
    · exact (h.reads key v hv).2 l hold hop c hc

theorem Isolated.write_commits (h : w.Isolated) {startTS commitTS : ℕ} {ls : List (Bytes × Lock)}
    (hcommit : (startTS, commitTS) ∈ w.commits) (hls : ∀ p ∈ ls, w.store.Fresh startTS p.1) :
    Isolated { w with store := w.store.write (commitAll startTS commitTS ls) } := by
  obtain ⟨hstart, hlt, -⟩ := h.commits _ _ hcommit
  -- an older version on the key of a new one ends before the transaction starts
  have hbefore : ∀ {key c v l}, (w.store.versions key).find c = some v → (key, l) ∈ ls → c < startTS := by
    intro key c v l hv hl
    have hle := hls _ hl c v hv
    have hne := h.distinct startTS hstart _ _ (h.versions key c v hv)
    omega
  have hkeep : ∀ {key l}, (w.store.write (commitAll startTS commitTS ls)).getLock key = some l →
      w.store.getLock key = some l ∧ ∀ l', (key, l') ∉ ls := by
    intro key l hl
    rcases getLock_write hl with hmem | ⟨hold, hun, -⟩
    · exact absurd hmem lock_notMem_commitAll
    · exact ⟨hold, fun l' hl' => hun (unlock_mem_commitAll.mpr ⟨l', hl'⟩)⟩
  constructor
  · exact h.now_lt
  · exact h.starts_le
  · exact h.commits
  · exact h.distinct
  · intro key c v hv
    rcases find_version_write hv with hmem | ⟨hold, -⟩
    · obtain ⟨rfl, l, -, rfl, -⟩ := version_mem_commitAll hmem
      exact hcommit
    · exact h.versions key c v hold
  · intro key l hl
    obtain ⟨hold, hkey⟩ := hkeep hl
    refine ⟨(h.locks key l hold).1, fun c v hv => ?_⟩
    rcases find_version_write hv with hmem | ⟨hv, -⟩
    · obtain ⟨-, l', hl', -⟩ := version_mem_commitAll hmem
      exact absurd hl' (hkey l')
    · exact (h.locks key l hold).2 c v hv
  · intro key c₁ v₁ c₂ v₂ h₁ h₂ hne
    rcases find_version_write h₁ with hmem₁ | ⟨hold₁, -⟩
    · obtain ⟨rfl, l₁, hl₁, rfl, -⟩ := version_mem_commitAll hmem₁
      rcases find_version_write h₂ with hmem₂ | ⟨hold₂, -⟩
      · obtain ⟨rfl, l₂, -, rfl, -⟩ := version_mem_commitAll hmem₂
        exact absurd rfl hne
      · exact .inr (hbefore hold₂ hl₁)
    · rcases find_version_write h₂ with hmem₂ | ⟨hold₂, -⟩
      · obtain ⟨rfl, l₂, hl₂, rfl, -⟩ := version_mem_commitAll hmem₂
        exact .inl (hbefore hold₁ hl₂)
      · exact h.pairs key c₁ v₁ c₂ v₂ hold₁ hold₂ hne
  · intro key v hv
    refine ⟨(h.reads key v hv).1, fun l hl => ?_⟩
    exact (h.reads key v hv).2 l (hkeep hl).1

/-! ## Steps -/

/-- What a later world has kept of the reads and of the versions that they could see. -/
def Keeps (w w' : World) : Prop :=
  ∀ key v, (key, v) ∈ w.reads → (key, v) ∈ w'.reads ∧
    ∀ c ≤ v, (w'.store.versions key).find c = (w.store.versions key).find c

theorem keeps_of_batch (hbatch : ∀ key v c ver, (key, v) ∈ w.reads → Entry.version key c ver ∈ batch → v < c)
    (now : ℕ) (commits : List (ℕ × ℕ)) :
    w.Keeps { w with store := w.store.write batch, now := now, commits := commits } := by
  intro key v hv
  refine ⟨hv, fun c hc => find_version_write_of_notMem fun ver hmem => ?_⟩
  have hlt := hbatch key v c ver hv hmem
  omega

theorem step_request {r : Request} (hw : w.Isolated) (ha : w.Allowed (.request r)) :
    (w.step encodeFromOldRow (.request r)).Isolated ∧ w.Keeps (w.step encodeFromOldRow (.request r)) := by
  obtain ⟨batch, heq, hdoes⟩ := exec_does encodeFromOldRow w.store r
  have hstep : w.step encodeFromOldRow (.request r) = { w with store := w.store.write batch } := by rw [step, heq]
  rw [hstep]
  have hcommit : ∀ {c}, r.commitTS = some c → (r.startTS, c) ∈ w.commits := by
    intro c hc
    cases r with
    | commit keys startTS commitTS =>
      cases hc
      exact ha
    | resolveLock rawStart rawEnd lockKeys startTS commitTS =>
      change (if 0 < commitTS then some commitTS else none) = some c at hc
      by_cases hpos : 0 < commitTS
      · rw [if_pos hpos] at hc
        cases hc
        exact ha.resolve_left hpos.ne'
      · rw [if_neg hpos] at hc
        cases hc
    | _ => cases hc
  -- a batch without versions keeps what was read
  have hnone : (∀ key c v, Entry.version key c v ∉ batch) → w.Keeps { w with store := w.store.write batch } :=
    fun hversion => keeps_of_batch (fun key v c ver _ hmem => absurd hmem (hversion key c ver)) w.now w.commits
  cases hdoes with
  | nothing r => exact ⟨hw, hnone fun _ _ _ => by simp⟩
  | @relock r k l₀ l' hget hts hts' hop =>
    refine ⟨hw.write_locks (fun _ _ _ => version_notMem_lockAll) ?_, hnone fun _ _ _ => version_notMem_lockAll⟩
    intro key l hl
    obtain ⟨rfl, rfl⟩ := Prod.mk.inj (mem_singleton.mp (lock_mem_lockAll.mp hl))
    obtain ⟨hstart, hfresh⟩ := hw.locks key l₀ hget
    rw [hts', hop]
    exact ⟨hstart, hfresh, fun hop v c hv hc => (hw.reads key v hv).2 l₀ hget hop c hc⟩
  | @commit r c ls hc hls =>
    refine ⟨hw.write_commits (hcommit hc) fun p hp => ?_, ?_⟩
    · obtain ⟨hget, hts⟩ := hls p hp
      rw [← hts]
      exact (hw.locks p.1 p.2 hget).2
    · refine keeps_of_batch (fun key v c' ver hv hmem => ?_) w.now w.commits
      obtain ⟨rfl, l, hl, -, hop⟩ := version_mem_commitAll hmem
      obtain ⟨hget, hts⟩ := hls _ hl
      refine (hw.reads key v hv).2 l hget hop c' ?_
      rw [show l.startTS = r.startTS from hts]
      exact hcommit hc
  | rollback hks =>
    refine ⟨hw.write_locks (fun _ _ _ => version_notMem_rollbackAll) ?_, hnone fun _ _ _ => version_notMem_rollbackAll⟩
    exact fun key l hl => absurd hl lock_notMem_rollbackAll
  | unlock hkeys =>
    refine ⟨hw.write_locks (fun _ _ _ => version_notMem_unlockAll) ?_, hnone fun _ _ _ => version_notMem_unlockAll⟩
    exact fun key l hl => absurd hl lock_notMem_unlockAll
  | _ => exact ha.elim

theorem not_refused_of_passes {s : Store} {req : PrewriteRequest} {m : Mutation} (hopt : req.forUpdateTs = 0)
    (hpass : Passes s req m) : ¬ Refused s req m := by
  rw [Passes, if_pos hopt] at hpass
  obtain ⟨hget, hstatus, hfresh⟩ := hpass
  rintro (⟨l, hl, -⟩ | ⟨c, v, hv, hlt⟩ | ⟨hprim, hsome⟩)
  · rw [hget] at hl
    cases hl
  · exact absurd (hfresh c v hv) (not_le.mpr hlt)
  · rw [hstatus hprim] at hsome
    cases hsome

theorem le_clockAfter {req : PrewriteRequest} {pd : Except KvError ℕ}
    (hasked : ∀ ts, Asked req pd ts → w.now < ts ∧ ts < maxSystemTS) (hlt : w.now < maxSystemTS) :
    w.now ≤ w.clockAfter req pd ∧ w.clockAfter req pd < maxSystemTS ∧ ∀ ts, Asked req pd ts →
      w.clockAfter req pd = ts := by
  cases pd with
  | error e => exact ⟨le_refl _, hlt, fun ts hts => by cases hts.1⟩
  | ok ts =>
    unfold clockAfter
    dsimp only
    by_cases hask : req.useAsyncCommit = true ∨ req.tryOnePc = true
    · rw [if_pos hask]
      obtain ⟨hgt, hmax⟩ := hasked ts ⟨rfl, hask⟩
      exact ⟨hgt.le, hmax, fun ts' hts' => Except.ok.inj hts'.1⟩
    · rw [if_neg hask]
      exact ⟨le_refl _, hlt, fun ts' hts' => absurd hts'.2 hask⟩

/-- A prewrite that places locks comes before a commit timestamp of its transaction, and one that commits at
once does so above all that was read. -/
theorem step_prewrite {req : PrewriteRequest} {pd : Except KvError ℕ} {last : Bool} (hw : w.Isolated)
    (ha : w.Allowed (.prewrite req pd last)) (ho : w.Orderly (.prewrite req pd last)) :
    (w.step encodeFromOldRow (.prewrite req pd last)).Isolated ∧
      w.Keeps (w.step encodeFromOldRow (.prewrite req pd last)) := by
  obtain ⟨hopt, hstart, hasked⟩ := ha
  obtain ⟨hnow, hmax, hclock⟩ := le_clockAfter hasked hw.now_lt
  -- the clock may have moved although the request has failed
  have hgrant : Isolated { w with now := w.clockAfter req pd, commits := [] ++ w.commits } :=
    hw.grant hnow hmax (by simp)
  have hfail : Isolated { w with now := w.clockAfter req pd } ∧ w.Keeps { w with now := w.clockAfter req pd } :=
    ⟨hgrant, fun key v hv => ⟨hv, fun c _ => rfl⟩⟩
  cases hres : handle encodeFromOldRow w.store (.prewrite req pd) with
  | ok res =>
    obtain ⟨batch, reply⟩ := res
    obtain ⟨async, once, rfl, hasync, honce, hbatch⟩ := prewrite_cases hres
    have hstep : w.step encodeFromOldRow (.prewrite req pd last) = { w with
          store := w.store.write batch
          now := w.clockAfter req pd
          commits := grants req.startVersion last (.ok (batch, .prewritten async once)) ++ w.commits } := by
      simp only [step, exec, hres]
    rw [hstep]
    have hnew : ∀ t c, (t, c) ∈ grants req.startVersion last (.ok (batch, .prewritten async once)) →
        t ∈ w.starts ∧ w.now < c ∧ c ≤ w.clockAfter req pd := by
      intro t c hc
      have hboth : t = req.startVersion ∧ Asked req pd c := by
        rcases mem_append.mp hc with hc | hc
        · split at hc
          · cases hc
          · rename_i hne
            obtain ⟨rfl, rfl⟩ := Prod.mk.inj (mem_singleton.mp hc)
            exact ⟨rfl, honce hne⟩
        · split at hc
          · rename_i hne
            obtain ⟨rfl, rfl⟩ := Prod.mk.inj (mem_singleton.mp hc)
            exact ⟨rfl, hasync hne.2⟩
          · cases hc
      obtain ⟨rfl, hask⟩ := hboth
      exact ⟨hstart, (hasked c hask).1, (hclock c hask).ge⟩
    have hw' := hw.grant hnow hmax hnew
    rcases hbatch with rfl | ⟨hpass, ls, hls, hbatch⟩
    · exact ⟨hw', fun key v hv => ⟨hv, fun c _ => rfl⟩⟩
    -- it has passed, so no commit timestamp of the transaction was handed out before
    have hearly : ∀ c, (req.startVersion, c) ∉ w.commits := by
      intro c hc
      obtain ⟨m, hm, href⟩ := ho ⟨c, hc⟩
      exact not_refused_of_passes hopt (hpass m hm) href
    have hfresh : ∀ m ∈ req.mutations, w.store.Fresh req.startVersion m.key := by
      intro m hm
      have h := hpass m hm
      rw [Passes, if_pos hopt] at h
      exact h.2.2
    rcases hbatch with rfl | ⟨rfl, -, hask, -⟩
    · constructor
      · refine hw'.write_locks (fun _ _ _ => version_notMem_lockAll) fun key l hl => ?_
        obtain ⟨hts, m, hm, -, hkey, -⟩ := hls _ (lock_mem_lockAll.mp hl)
        rw [show l.startTS = req.startVersion from hts, show key = m.key from hkey]
        refine ⟨hstart, hfresh m hm, fun _ v c hv hc => ?_⟩
        rcases mem_append.mp hc with hc | hc
        · exact (hw.reads _ v hv).1.trans_lt (hnew _ c hc).2.1
        · exact absurd hc (hearly c)
      · exact keeps_of_batch (fun key v c ver _ hmem => absurd hmem version_notMem_lockAll) _ _
    · have hpos : once ≠ 0 := by
        have hgt := (hasked once hask).1
        omega
      constructor
      · refine hw'.write_commits ?_ fun p hp => ?_
        · apply mem_append_left
          apply mem_append_left
          rw [if_neg hpos]
          exact mem_singleton_self _
        · obtain ⟨-, m, hm, -, hkey, -⟩ := hls p hp
          rw [hkey]
          exact hfresh m hm
      · refine keeps_of_batch (fun key v c ver hv hmem => ?_) _ _
        obtain ⟨rfl, -⟩ := version_mem_commitAll hmem
        exact (hw.reads key v hv).1.trans_lt (hasked c hask).1
  | _ =>
    have hstep : w.step encodeFromOldRow (.prewrite req pd last) = { w with now := w.clockAfter req pd } := by
      simp only [step, exec, hres, grants, nil_append]
    rw [hstep]
    exact hfail

end World

/-! ## Reads -/

/-- The value of the newest version that was committed at the timestamp or before, nothing if there is none. -/
def Store.ValueAt (s : Store) (key : Bytes) (ts : ℕ) : Option Bytes → Prop
  | none => ∀ c ≤ ts, (s.versions key).find c = none
  | some value => ∃ c v, c ≤ ts ∧ (s.versions key).find c = some v ∧ v.value = value ∧
      ∀ c' v', (s.versions key).find c' = some v' → c' ≤ ts → c' ≤ c

theorem Store.valueAt_newestAt (s : Store) (key : Bytes) (ts : ℕ) :
    s.ValueAt key ts ((s.newestAt key ts).map fun e => e.2.value) := by
  cases hnew : s.newestAt key ts with
  | none =>
    intro c hc
    apply Option.eq_none_iff_forall_ne_some.mpr
    intro v hv
    exact SortedMap.lastAtMost_eq_none hnew hv (Nat.isLE_compare.mpr hc)
  | some e =>
    obtain ⟨hfind, hle, hmax⟩ := SortedMap.lastAtMost_eq_some hnew
    refine ⟨e.1, e.2, Nat.isLE_compare.mp hle, hfind, rfl, fun c' v' hv' hc' => ?_⟩
    exact Nat.isLE_compare.mp (hmax c' v' hv' (Nat.isLE_compare.mpr hc'))

/-- A read that does not name the transaction of the lock fails on a write lock that it can see, and else
returns what was committed. -/
theorem get_spec {s : Store} {key : Bytes} {version : ℕ} {resolved committed : List ℕ}
    (hversion : version < maxSystemTS)
    (hlists : ∀ l, s.getLock key = some l → l.startTS ∉ resolved ∧ l.startTS ∉ committed) :
    (∃ l, get s key version resolved committed = .error (.locked key l)) ∨
      ∃ value, get s key version resolved committed = .ok value ∧ s.ValueAt key version value ∧
        ∀ l, s.getLock key = some l → l.op = .put ∨ l.op = .del → version < l.startTS := by
  unfold get checkKeyLock
  cases hget : s.getLock key with
  | none => exact .inr ⟨_, rfl, s.valueAt_newestAt key version, fun l hl => by cases hl⟩
  | some l =>
    obtain ⟨hresolved, hcommitted⟩ := hlists l hget
    dsimp only
    rw [checkLock, if_neg hresolved]
    by_cases hsee : l.startTS ≤ version ∧ (l.op = .put ∨ l.op = .del) ∧
        ¬ (version = maxSystemTS ∧ l.primary = key ∧ (!l.useAsyncCommit) = true)
    · rw [if_pos hsee, if_neg hcommitted]
      exact .inl ⟨l, rfl⟩
    · rw [if_neg hsee]
      refine .inr ⟨_, rfl, s.valueAt_newestAt key version, fun l' hl' hop => ?_⟩
      cases hl'
      by_contra hle
      exact hsee ⟨not_lt.mp hle, hop, fun hprim => absurd hprim.1 hversion.ne⟩

namespace World

variable {encodeFromOldRow : Bytes → Except Err Bytes} {w : World}

theorem step_get {key : Bytes} {version : ℕ} {resolved committed : List ℕ} (hw : w.Isolated)
    (ha : w.Allowed (.get key version resolved committed)) (ho : w.Orderly (.get key version resolved committed)) :
    (w.step encodeFromOldRow (.get key version resolved committed)).Isolated ∧
      w.Keeps (w.step encodeFromOldRow (.get key version resolved committed)) := by
  have hle : version ≤ w.now := ha
  rcases get_spec (hle.trans_lt hw.now_lt) ho with ⟨l, herr⟩ | ⟨value, hok, -, habove⟩
  · rw [step, herr]
    exact ⟨hw, fun key v hv => ⟨hv, fun c _ => rfl⟩⟩
  · rw [step, hok]
    refine ⟨{ hw with reads := ?_ }, fun key v hv => ⟨mem_cons_of_mem _ hv, fun c _ => rfl⟩⟩
    intro k v hv
    rcases mem_cons.mp hv with heq | hv
    · obtain ⟨rfl, rfl⟩ := Prod.mk.inj heq
      refine ⟨hle, fun l hl hop c hc => ?_⟩
      -- the lock is of a later transaction, which commits later still
      exact (habove l hl hop).trans (hw.commits _ c hc).2.1
    · exact hw.reads k v hv

theorem step_isolated {e : Event} (hw : w.Isolated) (ha : w.Allowed e) (ho : w.Orderly e) :
    (w.step encodeFromOldRow e).Isolated ∧ w.Keeps (w.step encodeFromOldRow e) := by
  cases e with
  | timestamp ts =>
    obtain ⟨hlt, hmax⟩ := ha
    refine ⟨⟨hmax, ?_, ?_, ?_, hw.versions, ?_, hw.pairs, ?_⟩, fun key v hv => ⟨hv, fun c _ => rfl⟩⟩
    · intro t ht
      rcases mem_cons.mp ht with rfl | ht
      · exact le_refl t
      · exact (hw.starts_le t ht).trans hlt.le
    · intro t c hc
      obtain ⟨hstart, hgt, hle⟩ := hw.commits t c hc
      exact ⟨mem_cons_of_mem ts hstart, hgt, hle.trans hlt.le⟩
    · intro t ht t' c hc
      rcases mem_cons.mp ht with rfl | ht
      · exact ((hw.commits t' c hc).2.2.trans_lt hlt).ne
      · exact hw.distinct t ht t' c hc
    · intro key l hl
      exact ⟨mem_cons_of_mem ts (hw.locks key l hl).1, (hw.locks key l hl).2⟩
    · intro key v hv
      exact ⟨(hw.reads key v hv).1.trans hlt.le, (hw.reads key v hv).2⟩
  | commitTimestamp startTS commitTS =>
    obtain ⟨hstart, hlt, hmax⟩ := ha
    have hgrant : Isolated { w with now := commitTS, commits := [(startTS, commitTS)] ++ w.commits } := by
      apply hw.grant hlt.le hmax
      intro t c hc
      obtain ⟨rfl, rfl⟩ := Prod.mk.inj (mem_singleton.mp hc)
      exact ⟨hstart, hlt, le_refl c⟩
    exact ⟨hgrant, fun key v hv => ⟨hv, fun c _ => rfl⟩⟩
  | prewrite req pd last => exact step_prewrite hw ha ho
  | request r => exact step_request hw ha
  | get key version resolved committed => exact step_get hw ha ho

theorem Keeps.trans {w₁ w₂ w₃ : World} (h₁ : w₁.Keeps w₂) (h₂ : w₂.Keeps w₃) : w₁.Keeps w₃ := by
  intro key v hv
  obtain ⟨hv₂, hsame₁⟩ := h₁ key v hv
  obtain ⟨hv₃, hsame₂⟩ := h₂ key v hv₂
  exact ⟨hv₃, fun c hc => (hsame₂ c hc).trans (hsame₁ c hc)⟩

def OrderlyRun (encodeFromOldRow : Bytes → Except Err Bytes) : World → List Event → Prop
  | _, [] => True
  | w, e :: es => w.Allowed e ∧ w.Orderly e ∧ OrderlyRun encodeFromOldRow (w.step encodeFromOldRow e) es

theorem run_isolated {es : List Event} (hw : w.Isolated) (h : OrderlyRun encodeFromOldRow w es) :
    (w.run encodeFromOldRow es).Isolated ∧ w.Keeps (w.run encodeFromOldRow es) := by
  induction es generalizing w with
  | nil => exact ⟨hw, fun key v hv => ⟨hv, fun c _ => rfl⟩⟩
  | cons e es ih =>
    obtain ⟨ha, ho, hes⟩ := h
    obtain ⟨hstep, hkeep⟩ := step_isolated hw ha ho
    obtain ⟨hrun, hkeeps⟩ := ih hstep hes
    exact ⟨hrun, hkeep.trans hkeeps⟩

/-- In every orderly run: transactions that have written one key do not overlap; a read fails on a lock or returns the
newest version at its timestamp; and what it could see does not change after it. -/
theorem run_snapshot_isolation (es : List Event) (h : OrderlyRun encodeFromOldRow .empty es) :
    (∀ key c₁ v₁ c₂ v₂, ((empty.run encodeFromOldRow es).store.versions key).find c₁ = some v₁ →
        ((empty.run encodeFromOldRow es).store.versions key).find c₂ = some v₂ → v₁.startTS ≠ v₂.startTS →
        c₁ < v₂.startTS ∨ c₂ < v₁.startTS) ∧
      ∀ key version resolved committed, (empty.run encodeFromOldRow es).Allowed (.get key version resolved committed) →
        (empty.run encodeFromOldRow es).Orderly (.get key version resolved committed) →
        (∃ l, get (empty.run encodeFromOldRow es).store key version resolved committed = .error (.locked key l)) ∨
          ∃ value, get (empty.run encodeFromOldRow es).store key version resolved committed = .ok value ∧
            (empty.run encodeFromOldRow es).store.ValueAt key version value ∧ ∀ later, OrderlyRun encodeFromOldRow
                ((empty.run encodeFromOldRow es).step encodeFromOldRow (.get key version resolved committed)) later →
              ∀ c ≤ version, ((((empty.run encodeFromOldRow es).step encodeFromOldRow
                  (.get key version resolved committed)).run encodeFromOldRow later).store.versions key).find c =
                ((empty.run encodeFromOldRow es).store.versions key).find c := by
  obtain ⟨hw, -⟩ := run_isolated isolated_empty h
  refine ⟨hw.pairs, fun key version resolved committed ha ho => ?_⟩
  have hle := ha
  rcases get_spec (hle.trans_lt hw.now_lt) ho with herr | ⟨value, hok, hvalue, -⟩
  · exact .inl herr
  · refine .inr ⟨value, hok, hvalue, fun later hlater c hc => ?_⟩
    have hstep : ((empty.run encodeFromOldRow es).step encodeFromOldRow
        (.get key version resolved committed)).Isolated := (step_isolated hw ha ho).1
    obtain ⟨-, hkeep⟩ := run_isolated hstep hlater
    have hstore : (empty.run encodeFromOldRow es).step encodeFromOldRow (.get key version resolved committed) =
        { empty.run encodeFromOldRow es with reads := (key, version) :: (empty.run encodeFromOldRow es).reads } := by
      rw [step, hok]
    rw [hstore] at hkeep ⊢
    exact (hkeep key version mem_cons_self).2 c hc

def AllowedRun (encodeFromOldRow : Bytes → Except Err Bytes) : World → List Event → Prop
  | _, [] => True
  | w, e :: es => w.Allowed e ∧ AllowedRun encodeFromOldRow (w.step encodeFromOldRow e) es

/-- Transaction 10 prewrites "ta", then "ta" and "tb", taken for a duplicated command; it gets the commit timestamp 20,
and "tb" is read at 30. A late prewrite of "tb" then locks the key and is committed at 20. -/
theorem commit_below_read :
    let ta : Bytes := [116, 97]
    let tb : Bytes := [116, 98]
    let before : List Event := [.timestamp 10, .prewrite (prewriteOf 10 ta [putOf ta [1]]) (.ok 0) false,
      .prewrite (prewriteOf 10 ta [putOf ta [1], putOf tb [2]]) (.ok 0) false, .commitTimestamp 10 20, .timestamp 30]
    let after : List Event := [.prewrite (prewriteOf 10 ta [putOf tb [2]]) (.ok 0) false, .request (.commit [tb] 10 20)]
    let w := empty.run newRows before
    AllowedRun newRows .empty (before ++ .get tb 30 [] [] :: after) ∧
      handle newRows (empty.run newRows (before.take 2)).store
        (.prewrite (prewriteOf 10 ta [putOf ta [1], putOf tb [2]]) (.ok 0)) = .ok ([], .prewritten 0 0) ∧
      get w.store tb 30 [] [] = .ok none ∧
      (((w.step newRows (.get tb 30 [] [])).run newRows after).store.versions tb).find 20 = some ⟨10, [2]⟩ := by
  intro ta tb before after w
  have hasked : ∀ (w : World) (ms : List Mutation) (ts : ℕ), Asked (prewriteOf 10 ta ms) (.ok 0) ts →
      w.now < ts ∧ ts < maxSystemTS := by
    rintro w ms ts ⟨-, hask | hask⟩
    · cases hask
    · cases hask
  refine ⟨?_, by decide, by decide, by decide⟩
  refine ⟨⟨by decide, by decide⟩, ⟨rfl, by decide, hasked _ _⟩, ⟨rfl, by decide, hasked _ _⟩,
    ⟨by decide, by decide, by decide⟩, ⟨by decide, by decide⟩, ?_, ⟨rfl, by decide, hasked _ _⟩, ?_, trivial⟩
  · exact le_refl 30
  · show (10, 20) ∈ [(10, 20)]
    decide

/-- Both keys are locked before the commit timestamp is handed out, and "tb" is read below it after the commit. -/
theorem run_snapshot_isolation_of_two_keys :
    let ta : Bytes := [116, 97]
    let tb : Bytes := [116, 98]
    let es : List Event := [.timestamp 10, .prewrite (prewriteOf 10 ta [putOf ta [1], putOf tb [2]]) (.ok 0) false,
      .commitTimestamp 10 20, .request (.commit [ta, tb] 10 20)]
    OrderlyRun newRows .empty es ∧
      ((∃ l, get (empty.run newRows es).store tb 15 [] [] = .error (.locked tb l)) ∨
        ∃ value, get (empty.run newRows es).store tb 15 [] [] = .ok value ∧
          (empty.run newRows es).store.ValueAt tb 15 value) := by
  intro ta tb es
  have hrun : OrderlyRun newRows .empty es := by
    refine ⟨⟨by decide, by decide⟩, trivial, ⟨rfl, by decide, ?_⟩, ?_, ⟨by decide, by decide, by decide⟩, trivial, ?_,
      trivial, trivial⟩
    · rintro ts ⟨-, hask | hask⟩
      · cases hask
      · cases hask
    · rintro ⟨c, hc⟩
      cases hc
    · show (10, 20) ∈ [(10, 20)]
      decide
  have hnone : (empty.run newRows es).store.getLock tb = none := by decide
  have hget := (run_snapshot_isolation es hrun).2 tb 15 [] [] (by decide : 15 ≤ 20) fun l hl => by cases hl
  refine ⟨hrun, ?_⟩
  rcases hget with herr | ⟨value, hok, hvalue, -⟩
  · exact .inl herr
  · exact .inr ⟨value, hok, hvalue⟩

end World

end Unistore
