import Tidb.Unistore.MvccPrewrite

/-!
# What a request can do

`handle_does` says once what the batch of a request is, and what has been looked at before it is
written: a request of a transaction places its locks, or commits them, rolls back or removes them.
The invariants of the store are derived from `Does`, not from the code of the requests.
-/

namespace Unistore

open GoLang Tidb List Outcome

/-! ## Pessimistic locks -/

section Pessimistic

variable {s : Store} {req : PessimisticLockRequest} {m : Mutation} {ms ms' : List Mutation}
  {ls : List (Bytes × Lock)} {batch : List Entry} {reply : Reply}

def PessimisticPasses (s : Store) (req : PessimisticLockRequest) (m : Mutation) : Prop :=
  (∀ l, s.getLock m.key = some l → l.startTS = req.startVersion ∧ l.op = .pessimisticLock) ∧
    (m.key = req.primaryLock → s.status m.key req.startVersion = none)

theorem pessimisticConflicts_ok (h : pessimisticConflicts s req ms = .ok false) :
    ∀ m ∈ ms, PessimisticPasses s req m := by
  induction ms with
  | nil => simp
  | cons m ms ih =>
    obtain ⟨lock, hlock, h⟩ := bind_eq_ok.mp h
    obtain ⟨dup, hdup, h⟩ := bind_eq_ok.mp h
    obtain ⟨hget, hown⟩ := checkConflictInLockStore_ok hlock
    have hop : ∀ l, s.getLock m.key = some l →
        l.startTS = req.startVersion ∧ l.op = .pessimisticLock := by
      intro l hl
      rw [hl] at hget
      subst hget
      refine ⟨hown l rfl, ?_⟩
      by_contra hne
      rw [checkPessimisticDup, if_pos hne] at hdup
      cases hdup
    split at h
    · cases h
    rw [forall_mem_cons]
    by_cases hprim : m.key = req.primaryLock
    · rw [if_pos hprim] at h
      dsimp only at h
      split at h
      · cases h
      rename_i hroll
      split at h
      · cases h
      rename_i hcommitted
      have hnone := Store.status_eq_none (eq_false_of_ne_true hroll)
        (eq_false_of_ne_true hcommitted)
      exact ⟨⟨hop, fun _ => hnone⟩, ih h⟩
    · rw [if_neg hprim] at h
      exact ⟨⟨hop, fun heq => absurd heq hprim⟩, ih h⟩

def PessimisticLocks (req : PessimisticLockRequest) (ms : List Mutation)
    (ls : List (Bytes × Lock)) : Prop :=
  ∀ p ∈ ls, p.2.startTS = req.startVersion ∧ p.2.op = .pessimisticLock ∧ ∃ m ∈ ms, p.1 = m.key

theorem PessimisticLocks.mono (h : PessimisticLocks req ms ls) (hsub : ms ⊆ ms') :
    PessimisticLocks req ms' ls := by
  intro p hp
  obtain ⟨hts, hop, m, hm, hkey⟩ := h p hp
  exact ⟨hts, hop, m, hsub hm, hkey⟩

theorem buildPessimisticLocks_ok (h : buildPessimisticLocks s req ms = .ok batch) :
    ∃ ls, batch = lockAll ls ∧ PessimisticLocks req ms ls := by
  induction ms generalizing batch with
  | nil =>
    cases h
    exact ⟨[], rfl, by simp [PessimisticLocks]⟩
  | cons m ms ih =>
    obtain ⟨lock, hlock, h⟩ := bind_eq_ok.mp h
    obtain ⟨rest, hrest, h⟩ := bind_eq_ok.mp h
    cases h
    obtain ⟨ls, rfl, hls⟩ := ih hrest
    replace hls := hls.mono (subset_cons_self m ms)
    obtain ⟨⟨⟩, -, hlock⟩ := bind_eq_ok.mp hlock
    split at hlock
    · cases hlock
      exact ⟨(m.key, _) :: ls, rfl, forall_mem_cons.mpr ⟨⟨rfl, rfl, m, mem_cons_self, rfl⟩, hls⟩⟩
    · cases hlock
      exact ⟨ls, rfl, hls⟩

theorem pessimisticLock_ok (h : pessimisticLock s req = .ok (batch, reply)) :
    batch = [] ∨ (∀ m ∈ req.mutations, PessimisticPasses s req m) ∧
      ∃ ls, batch = lockAll ls ∧ PessimisticLocks req req.mutations ls := by
  unfold pessimisticLock at h
  dsimp only at h
  split at h
  · cases h
  obtain ⟨dup, hdup, h⟩ := bind_eq_ok.mp h
  cases dup with
  | true =>
    cases h
    exact .inl rfl
  | false =>
    obtain ⟨batch', hbatch, h⟩ := bind_eq_ok.mp h
    cases h
    have hmem : ∀ m, m ∈ (if req.returnValues then req.mutations else sortMutations req.mutations) ↔
        m ∈ req.mutations := by
      intro m
      split
      · rfl
      · exact mem_sortMutations
    obtain ⟨ls, hls, hall⟩ := buildPessimisticLocks_ok hbatch
    exact .inr ⟨fun m hm => pessimisticConflicts_ok hdup m ((hmem m).mpr hm), ls, hls,
      hall.mono fun m => (hmem m).mp⟩

end Pessimistic

/-! ## Commit and rollback -/

section Rollback

variable {s : Store} {keys : List Bytes} {key : Bytes} {startTS commitTS currentTs : ℕ}
  {l : Lock} {batch : List Entry} {reply : Reply}

namespace Store

def Behind (s : Store) (ts : ℕ) (key : Bytes) : Prop := ∀ l, s.getLock key = some l → ts < l.startTS

/-- The store has the locks, and they are those of the transaction. -/
def Held (s : Store) (ts : ℕ) (ls : List (Bytes × Lock)) : Prop :=
  ∀ p ∈ ls, s.getLock p.1 = some p.2 ∧ p.2.startTS = ts

theorem not_owns_of_none (h : s.getLock key = none) : ¬ s.Owns startTS key := by
  rintro ⟨l, hl, -⟩
  cases h.symm.trans hl

theorem not_owns_of_ne (h : s.getLock key = some l) (hts : l.startTS ≠ startTS) :
    ¬ s.Owns startTS key := by
  rintro ⟨l', hl', hts'⟩
  cases h.symm.trans hl'
  exact hts hts'

theorem Behind.not_owns (h : s.Behind startTS key) : ¬ s.Owns startTS key := by
  rintro ⟨l, hl, hts⟩
  have hlt := h l hl
  omega

theorem Older.not_owns (h : s.Older startTS key) : ¬ s.Owns startTS key := by
  obtain ⟨l, hl, hlt⟩ := h
  exact not_owns_of_ne hl hlt.ne

theorem Older.not_behind (h : s.Older startTS key) : ¬ s.Behind startTS key := by
  intro hb
  obtain ⟨l, hl, hlt⟩ := h
  have hgt := hb l hl
  omega

end Store

theorem mem_sortKeys : key ∈ sortKeys keys ↔ key ∈ keys := (perm_insertionSort _ _).mem_iff

theorem commitKeys_cons_of_not_owns (hnot : ¬ s.Owns startTS key) (commitTS : ℕ)
    (keys : List Bytes) :
    ∃ e, commitKeys s startTS commitTS (key :: keys) =
      if handleLockNotFound s key startTS commitTS then commitKeys s startTS commitTS keys
      else .error e := by
  rw [commitKeys]
  cases hget : s.getLock key with
  | none => exact ⟨_, rfl⟩
  | some l =>
    have hts : l.startTS ≠ startTS := fun hts => hnot ⟨l, hget, hts⟩
    exact ⟨_, if_pos hts⟩

theorem commitKeys_ok (h : commitKeys s startTS commitTS keys = .ok batch) :
    ∃ ls, batch = commitAll startTS commitTS ls ∧ s.Held startTS ls ∧
      ∀ k ∈ keys, s.Owns startTS k → ∃ l, (k, l) ∈ ls := by
  induction keys generalizing batch with
  | nil =>
    cases h
    exact ⟨[], rfl, by simp [Store.Held], by simp⟩
  | cons key keys ih =>
    by_cases hown : s.Owns startTS key
    · obtain ⟨l, hget, hts⟩ := hown
      rw [commitKeys, hget] at h
      dsimp only at h
      rw [if_neg (not_not.mpr hts)] at h
      split at h
      · cases h
      obtain ⟨rest, hrest, h⟩ := bind_eq_ok.mp h
      cases h
      obtain ⟨ls, rfl, hls, hall⟩ := ih hrest
      refine ⟨(key, l) :: ls, rfl, forall_mem_cons.mpr ⟨⟨hget, hts⟩, hls⟩, ?_⟩
      refine forall_mem_cons.mpr ⟨fun _ => ⟨l, mem_cons_self⟩, fun k hk hown => ?_⟩
      obtain ⟨l', hl'⟩ := hall k hk hown
      exact ⟨l', mem_cons_of_mem _ hl'⟩
    · obtain ⟨e, heq⟩ := commitKeys_cons_of_not_owns hown commitTS keys
      rw [heq] at h
      split at h
      · obtain ⟨ls, hbatch, hls, hall⟩ := ih h
        exact ⟨ls, hbatch, hls, forall_mem_cons.mpr ⟨fun h => absurd h hown, hall⟩⟩
      · cases h

theorem resolveKeys_commit (hc : 0 < commitTS) (keys : List Bytes) :
    ∃ ls, keys.flatMap (resolveKey s startTS commitTS) = commitAll startTS commitTS ls ∧
      s.Held startTS ls := by
  induction keys with
  | nil => exact ⟨[], rfl, by simp [Store.Held]⟩
  | cons key keys ih =>
    obtain ⟨ls, heq, hls⟩ := ih
    rw [flatMap_cons, heq, resolveKey]
    cases hget : s.getLock key with
    | none => exact ⟨ls, rfl, hls⟩
    | some l =>
      dsimp only
      by_cases hts : l.startTS = startTS
      · rw [if_neg (not_not.mpr hts), if_pos hc]
        exact ⟨(key, l) :: ls, rfl, forall_mem_cons.mpr ⟨⟨hget, hts⟩, hls⟩⟩
      · rw [if_pos hts]
        exact ⟨ls, rfl, hls⟩

theorem resolveKeys_rollback (keys : List Bytes) :
    ∃ ks, keys.flatMap (resolveKey s startTS 0) = rollbackAll startTS ks ∧
      ∀ p ∈ ks, p.2 = true ∧ s.Owns startTS p.1 := by
  induction keys with
  | nil => exact ⟨[], rfl, by simp⟩
  | cons key keys ih =>
    obtain ⟨ks, heq, hks⟩ := ih
    rw [flatMap_cons, heq, resolveKey]
    cases hget : s.getLock key with
    | none => exact ⟨ks, rfl, hks⟩
    | some l =>
      dsimp only
      by_cases hts : l.startTS = startTS
      · rw [if_neg (not_not.mpr hts)]
        exact ⟨(key, true) :: ks, rfl, forall_mem_cons.mpr ⟨⟨rfl, l, hget, hts⟩, hks⟩⟩
      · rw [if_pos hts]
        exact ⟨ks, rfl, hks⟩

/-- The look at the lock: a rollback over an older lock or over the own one, or the look at the
database is left to do. -/
theorem rollbackKeyReadLock_ok {status : RollbackStatus}
    (h : rollbackKeyReadLock s key startTS currentTs = .ok (batch, status)) :
    (status = .done ∧ batch = rollbackEntries startTS key false ∧ s.Older startTS key) ∨
      (status = .done ∧ batch = rollbackEntries startTS key true ∧ s.Owns startTS key) ∨
      (status ≠ .done ∧ batch = [] ∧ s.Behind startTS key) := by
  unfold rollbackKeyReadLock at h
  cases hget : s.getLock key with
  | none =>
    rw [hget] at h
    cases h
    exact .inr (.inr ⟨by decide, rfl, fun l hl => by rw [hget] at hl; cases hl⟩)
  | some l =>
    rw [hget] at h
    dsimp only at h
    split at h
    · rename_i hlt
      cases h
      exact .inl ⟨rfl, rfl, l, hget, hlt⟩
    split at h
    · rename_i heq
      split at h
      · cases h
      · cases h
        exact .inr (.inl ⟨rfl, rfl, l, hget, heq⟩)
    · cases h
      refine .inr (.inr ⟨by decide, rfl, fun l' hl' => ?_⟩)
      rw [hget] at hl'
      cases hl'
      omega

theorem rollbackKeyReadLock_total (s : Store) (key : Bytes) (startTS : ℕ) :
    ∃ batch status, rollbackKeyReadLock s key startTS 0 = .ok (batch, status) := by
  unfold rollbackKeyReadLock
  cases s.getLock key with
  | none => exact ⟨_, _, rfl⟩
  | some l =>
    dsimp only
    split
    · exact ⟨_, _, rfl⟩
    split
    · exact ⟨_, _, rfl⟩
    · exact ⟨_, _, rfl⟩

theorem rollbackReadLocks_spec (s : Store) (startTS : ℕ) (keys : List Bytes) :
    ∃ ks toRead, rollbackReadLocks s startTS keys = .ok (rollbackAll startTS ks, toRead) ∧
      (∀ p ∈ ks, p.1 ∈ keys ∧
        (p.2 = false ∧ s.Older startTS p.1 ∨ p.2 = true ∧ s.Owns startTS p.1)) ∧
      ∀ k, k ∈ toRead ↔ k ∈ keys ∧ s.Behind startTS k := by
  induction keys with
  | nil => exact ⟨[], [], rfl, by simp, by simp⟩
  | cons key keys ih =>
    obtain ⟨ks, toRead, heq, hks, hread⟩ := ih
    obtain ⟨batch, status, hlook⟩ := rollbackKeyReadLock_total s key startTS
    have hks : ∀ p ∈ ks, p.1 ∈ key :: keys ∧ _ :=
      fun p hp => ⟨mem_cons_of_mem key (hks p hp).1, (hks p hp).2⟩
    rw [rollbackReadLocks, hlook, heq]
    -- the key needs no look at the database
    have hskip : ¬ s.Behind startTS key →
        ∀ k, k ∈ toRead ↔ k ∈ key :: keys ∧ s.Behind startTS k := by
      intro hnot k
      rw [hread, mem_cons]
      constructor
      · exact fun h => ⟨.inr h.1, h.2⟩
      · rintro ⟨rfl | hk, hb⟩
        · exact absurd hb hnot
        · exact ⟨hk, hb⟩
    rcases rollbackKeyReadLock_ok hlook with
      ⟨rfl, rfl, hold⟩ | ⟨rfl, rfl, hown⟩ | ⟨hdone, rfl, hbehind⟩
    · exact ⟨(key, false) :: ks, toRead, rfl,
        forall_mem_cons.mpr ⟨⟨mem_cons_self, .inl ⟨rfl, hold⟩⟩, hks⟩, hskip hold.not_behind⟩
    · exact ⟨(key, true) :: ks, toRead, rfl,
        forall_mem_cons.mpr ⟨⟨mem_cons_self, .inr ⟨rfl, hown⟩⟩, hks⟩,
        hskip fun hb => hb.not_owns hown⟩
    · refine ⟨ks, key :: toRead, by simp [hdone], hks, fun k => ?_⟩
      rw [mem_cons, mem_cons, hread]
      constructor
      · rintro (rfl | ⟨hk, hb⟩)
        · exact ⟨.inl rfl, hbehind⟩
        · exact ⟨.inr hk, hb⟩
      · rintro ⟨rfl | hk, hb⟩
        · exact .inl rfl
        · exact .inr ⟨hk, hb⟩

theorem rollbackKeyReadDB_spec (s : Store) (key : Bytes) (startTS : ℕ) :
    (rollbackKeyReadDB s key startTS = .ok (rollbackEntries startTS key false) ∧
        ¬ s.Wrote startTS key) ∨
      (∃ c, rollbackKeyReadDB s key startTS = .error (.alreadyCommitted c)) ∧
        s.Wrote startTS key := by
  unfold rollbackKeyReadDB
  by_cases hc : s.checkCommitted key startTS = 0
  · rw [if_neg (not_not.mpr hc)]
    refine .inl ⟨rfl, fun hw => ?_⟩
    have hpos := Store.checkCommitted_pos.mpr hw
    omega
  · rw [if_pos hc]
    exact .inr ⟨⟨_, rfl⟩, Store.checkCommitted_pos.mp (Nat.pos_of_ne_zero hc)⟩

theorem rollbackReadDBs_spec (s : Store) (startTS : ℕ) (keys : List Bytes) :
    (rollbackReadDBs s startTS keys =
          .ok (rollbackAll startTS (keys.map fun k => (k, false))) ∧
        ∀ k ∈ keys, ¬ s.Wrote startTS k) ∨
      (∃ c, rollbackReadDBs s startTS keys = .error (.alreadyCommitted c)) ∧
        ∃ k ∈ keys, s.Wrote startTS k := by
  induction keys with
  | nil => exact .inl ⟨rfl, by simp⟩
  | cons key keys ih =>
    rw [rollbackReadDBs]
    rcases rollbackKeyReadDB_spec s key startTS with ⟨hkey, hnot⟩ | ⟨⟨c, hkey⟩, hw⟩
    · rw [hkey]
      rcases ih with ⟨hkeys, hall⟩ | ⟨⟨c, hkeys⟩, k, hk, hw⟩
      · rw [hkeys]
        exact .inl ⟨rfl, forall_mem_cons.mpr ⟨hnot, hall⟩⟩
      · rw [hkeys]
        exact .inr ⟨⟨c, rfl⟩, k, mem_cons_of_mem key hk, hw⟩
    · rw [hkey]
      exact .inr ⟨⟨c, rfl⟩, key, mem_cons_self, hw⟩

theorem rollback_spec (s : Store) (keys : List Bytes) (startTS : ℕ) :
    (∃ ks, rollback s keys startTS = .ok (rollbackAll startTS ks, .done) ∧
        (∀ p ∈ ks, p.1 ∈ keys ∧
          (p.2 = false ∧ s.Older startTS p.1 ∨ p.2 = true ∧ s.Owns startTS p.1 ∨
            p.2 = false ∧ s.Behind startTS p.1 ∧ ¬ s.Wrote startTS p.1)) ∧
        ∀ k ∈ keys, s.Behind startTS k → ¬ s.Wrote startTS k) ∨
      (∃ c, rollback s keys startTS = .error (.alreadyCommitted c)) ∧
        ∃ k ∈ keys, s.Behind startTS k ∧ s.Wrote startTS k := by
  obtain ⟨ks, toRead, hlocks, hks, hread⟩ := rollbackReadLocks_spec s startTS (sortKeys keys)
  have hread : ∀ k, k ∈ toRead ↔ k ∈ keys ∧ s.Behind startTS k := by
    intro k
    rw [hread, mem_sortKeys]
  unfold rollback
  rw [hlocks]
  rcases rollbackReadDBs_spec s startTS toRead with ⟨hdb, hall⟩ | ⟨⟨c, hdb⟩, k, hk, hw⟩
  · refine .inl ⟨ks ++ toRead.map fun k => (k, false), ?_, ?_, ?_⟩
    · rw [ok_bind]
      dsimp only
      rw [hdb, ok_bind]
      simp only [rollbackAll, flatMap_append]
    · intro p hp
      rcases mem_append.mp hp with hp | hp
      · obtain ⟨hkey, hcase⟩ := hks p hp
        refine ⟨mem_sortKeys.mp hkey, ?_⟩
        rcases hcase with hold | hown
        · exact .inl hold
        · exact .inr (.inl hown)
      · obtain ⟨k, hk, rfl⟩ := mem_map.mp hp
        exact ⟨((hread k).mp hk).1, .inr (.inr ⟨rfl, ((hread k).mp hk).2, hall k hk⟩)⟩
    · exact fun k hk hb => hall k ((hread k).mpr ⟨hk, hb⟩)
  · refine .inr ⟨⟨c, ?_⟩, k, ((hread k).mp hk).1, ((hread k).mp hk).2, hw⟩
    rw [ok_bind]
    dsimp only
    rw [hdb]
    rfl

end Rollback

/-! ## The step -/

namespace Request

def startTS : Request → ℕ
  | .prewrite req _ => req.startVersion
  | .pessimisticLock req => req.startVersion
  | .pessimisticRollback _ startTS _ => startTS
  | .txnHeartBeat _ startVersion _ => startVersion
  | .checkTxnStatus req => req.lockTs
  | .checkSecondaryLocks _ startTS => startTS
  | .commit _ startTS _ => startTS
  | .rollback _ startTS => startTS
  | .cleanup _ startTS _ => startTS
  | .resolveLock _ _ _ startTS _ => startTS

def commitTS : Request → Option ℕ
  | .commit _ _ commitTS => some commitTS
  | .resolveLock _ _ _ _ commitTS => if 0 < commitTS then some commitTS else none
  | _ => none

/-- The keys on which a rollback does not look for a commit where it finds an older lock. -/
def rollsBack : Request → List Bytes
  | .rollback keys _ => keys
  | .cleanup key _ _ => [key]
  | _ => []

end Request

/-- The request may roll the key back, and delete its lock if `deleteLock` is set. -/
def Store.MayRollBack (s : Store) (r : Request) (key : Bytes) (deleteLock : Bool) : Prop :=
  deleteLock = true ∧ s.Owns r.startTS key ∨
    deleteLock = false ∧ s.Older r.startTS key ∧ key ∈ r.rollsBack ∨
    deleteLock = false ∧ ¬ s.Owns r.startTS key ∧ ¬ s.Wrote r.startTS key

/-- What the batch of a request can be, and what has been looked at before. -/
inductive Does (s : Store) : Request → List Entry → Prop
  | nothing (r : Request) : Does s r []
  | prewrite {req : PrewriteRequest} {pd : Except KvError ℕ} {ls : List (Bytes × Lock)}
      (hpass : ∀ m ∈ req.mutations, Passes s req m) (hls : LocksOf req ls) :
      Does s (.prewrite req pd) (lockAll ls)
  | onePC {req : PrewriteRequest} {c : ℕ} {ls : List (Bytes × Lock)}
      (hpass : ∀ m ∈ req.mutations, Passes s req m) (hc : req.startVersion ≤ c)
      (hls : LocksOf req ls) (honce : req.tryOnePc = true) :
      Does s (.prewrite req (.ok c)) (commitAll req.startVersion c ls)
  | pessimisticLock {req : PessimisticLockRequest} {ls : List (Bytes × Lock)}
      (hpass : ∀ m ∈ req.mutations, PessimisticPasses s req m)
      (hls : PessimisticLocks req req.mutations ls) :
      Does s (.pessimisticLock req) (lockAll ls)
  | relock {r : Request} {key : Bytes} {l l' : Lock} (hget : s.getLock key = some l)
      (hts : l.startTS = r.startTS) (hts' : l'.startTS = l.startTS) (hop : l'.op = l.op) :
      Does s r (lockAll [(key, l')])
  | commit {r : Request} {c : ℕ} {ls : List (Bytes × Lock)} (hc : r.commitTS = some c)
      (hls : s.Held r.startTS ls) :
      Does s r (commitAll r.startTS c ls)
  | rollback {r : Request} {ks : List (Bytes × Bool)}
      (hks : ∀ p ∈ ks, s.MayRollBack r p.1 p.2) :
      Does s r (rollbackAll r.startTS ks)
  | unlock {r : Request} {keys : List Bytes} (hkeys : ∀ k ∈ keys, s.Owns r.startTS k) :
      Does s r (unlockAll keys)

section Step

variable {encodeFromOldRow : Bytes → Except Err Bytes} {s : Store} {r : Request}
  {batch : List Entry} {reply : Reply}

theorem prewrite_does {req : PrewriteRequest} {pd : Except KvError ℕ}
    (h : prewrite encodeFromOldRow s req pd = .ok (batch, reply)) :
    Does s (.prewrite req pd) batch := by
  obtain ⟨async, once, -, -, -, rfl | ⟨hpass, ls, hls, rfl | ⟨rfl, honce, ⟨rfl, -⟩, hle⟩⟩⟩ :=
    prewrite_cases h
  · exact .nothing _
  · exact .prewrite hpass hls
  · exact .onePC hpass hle hls honce

theorem pessimisticRollback_does {keys : List Bytes} {startTS forUpdateTs : ℕ}
    (h : pessimisticRollback s keys startTS forUpdateTs = .ok (batch, reply)) :
    Does s (.pessimisticRollback keys startTS forUpdateTs) batch := by
  have hunlock : ∀ ks : List Bytes, ∃ us,
      ks.flatMap (pessimisticRollbackKey s startTS forUpdateTs) = unlockAll us ∧
        ∀ k ∈ us, s.Owns startTS k := by
    intro ks
    induction ks with
    | nil => exact ⟨[], rfl, by simp⟩
    | cons key ks ih =>
      obtain ⟨us, heq, hus⟩ := ih
      rw [flatMap_cons, heq, pessimisticRollbackKey]
      cases hget : s.getLock key with
      | none => exact ⟨us, rfl, hus⟩
      | some l =>
        dsimp only
        split
        · rename_i hown
          exact ⟨key :: us, rfl, forall_mem_cons.mpr ⟨⟨l, hget, hown.2.1⟩, hus⟩⟩
        · exact ⟨us, rfl, hus⟩
  cases h
  obtain ⟨us, heq, hus⟩ := hunlock (sortKeys keys)
  rw [heq]
  exact .unlock hus

theorem txnHeartBeat_does {primaryLock : Bytes} {startVersion adviseLockTtl : ℕ}
    (h : txnHeartBeat s primaryLock startVersion adviseLockTtl = .ok (batch, reply)) :
    Does s (.txnHeartBeat primaryLock startVersion adviseLockTtl) batch := by
  unfold txnHeartBeat at h
  cases hget : s.getLock primaryLock with
  | none => rw [hget] at h; cases h
  | some l =>
    rw [hget] at h
    dsimp only at h
    split at h
    · cases h
    rename_i hts
    split at h
    · cases h
    split at h
    · cases h
      exact .relock hget (not_not.mp hts) rfl rfl
    · cases h
      exact .nothing _

theorem rollbackEntries_does {key : Bytes} {deleteLock : Bool}
    (h : s.MayRollBack r key deleteLock) :
    Does s r (rollbackEntries r.startTS key deleteLock) := by
  rw [← flatMap_singleton (fun p => rollbackEntries r.startTS p.1 p.2) (key, deleteLock)]
  apply Does.rollback
  intro p hp
  rw [mem_singleton.mp hp]
  exact h

theorem checkTxnStatus_does {req : CheckTxnStatusRequest}
    (h : checkTxnStatus s req = .ok (batch, reply)) :
    Does s (.checkTxnStatus req) batch := by
  have hunlocked : ¬ s.Owns req.lockTs req.primaryKey →
      checkUnlockedTxn s req = .ok (batch, reply) → Does s (.checkTxnStatus req) batch := by
    intro hown h
    unfold checkUnlockedTxn at h
    dsimp only at h
    split at h
    · cases h
      exact .nothing _
    rename_i hcommitted
    split at h
    · cases h
      exact .nothing _
    split at h
    · cases h
      exact .nothing _
    split at h
    · split at h
      · cases h
        exact .nothing _
      · cases h
        have hnot : ¬ s.Wrote req.lockTs req.primaryKey :=
          fun hw => hcommitted (Store.checkCommitted_pos.mpr hw)
        exact @rollbackEntries_does s (.checkTxnStatus req) _ _ (.inr (.inr ⟨rfl, hown, hnot⟩))
    · cases h
  have hlocked : ∀ l, s.getLock req.primaryKey = some l → l.startTS = req.lockTs →
      checkLockedTxn req l = .ok (batch, reply) → Does s (.checkTxnStatus req) batch := by
    intro l hget hts h
    unfold checkLockedTxn at h
    split at h
    · cases h
    split at h
    · cases h
      exact .nothing _
    split at h
    · split at h
      · cases h
        exact @Does.unlock s (.checkTxnStatus req) [req.primaryKey] (by simpa using ⟨l, hget, hts⟩)
      · cases h
        exact @rollbackEntries_does s (.checkTxnStatus req) _ _ (.inl ⟨rfl, l, hget, hts⟩)
    split at h
    · cases h
      exact .nothing _
    split at h
    · split at h
      · cases h
        exact .relock hget hts rfl rfl
      · cases h
        exact .nothing _
    · cases h
      exact .nothing _
  unfold checkTxnStatus at h
  cases hget : s.getLock req.primaryKey with
  | none =>
    rw [hget] at h
    exact hunlocked (Store.not_owns_of_none hget) h
  | some l =>
    rw [hget] at h
    dsimp only at h
    split at h
    · rename_i hts
      exact hlocked l hget hts h
    · rename_i hts
      exact hunlocked (Store.not_owns_of_ne hget hts) h

theorem checkSecondaries_does {keys keys' : List Bytes} {startTS : ℕ} {locks : List (Bytes × Lock)}
    (h : checkSecondaries s startTS keys locks = (batch, reply)) :
    Does s (.checkSecondaryLocks keys' startTS) batch := by
  have hunlocked : ∀ key, ¬ s.Owns startTS key →
      checkUnlockedSecondary s key startTS = (batch, reply) →
      Does s (.checkSecondaryLocks keys' startTS) batch := by
    intro key hown h
    unfold checkUnlockedSecondary at h
    dsimp only at h
    split at h
    · cases h
      exact .nothing _
    rename_i hcommitted
    split at h
    · cases h
      exact .nothing _
    split at h
    · cases h
      exact .nothing _
    · cases h
      have hnot : ¬ s.Wrote startTS key := fun hw => hcommitted (Store.checkCommitted_pos.mpr hw)
      exact @rollbackEntries_does s (.checkSecondaryLocks keys' startTS) _ _
        (.inr (.inr ⟨rfl, hown, hnot⟩))
  induction keys generalizing locks with
  | nil =>
    cases h
    exact .nothing _
  | cons key keys ih =>
    rw [checkSecondaries] at h
    cases hget : s.getLock key with
    | none =>
      rw [hget] at h
      exact hunlocked key (Store.not_owns_of_none hget) h
    | some l =>
      rw [hget] at h
      dsimp only at h
      by_cases hts : l.startTS = startTS
      · rw [if_pos hts] at h
        split at h
        · cases h
          exact @rollbackEntries_does s (.checkSecondaryLocks keys' startTS) _ _
            (.inl ⟨rfl, l, hget, hts⟩)
        · exact ih h
      · rw [if_neg hts] at h
        exact hunlocked key (Store.not_owns_of_ne hget hts) h

theorem resolveLock_does {rawStart rawEnd : Bytes} {lockKeys : List Bytes} {startTS commitTS : ℕ}
    (h : resolveLock s rawStart rawEnd lockKeys startTS commitTS = .ok (batch, reply)) :
    Does s (.resolveLock rawStart rawEnd lockKeys startTS commitTS) batch := by
  cases h
  rcases Nat.eq_zero_or_pos commitTS with rfl | hpos
  · obtain ⟨ks, heq, hks⟩ := @resolveKeys_rollback s startTS
      (resolveKeys s rawStart rawEnd lockKeys startTS)
    rw [heq]
    exact @Does.rollback s (.resolveLock rawStart rawEnd lockKeys startTS 0) ks fun p hp =>
      .inl (hks p hp)
  · obtain ⟨ls, heq, hls⟩ := @resolveKeys_commit s startTS commitTS hpos
      (resolveKeys s rawStart rawEnd lockKeys startTS)
    rw [heq]
    exact @Does.commit s (.resolveLock rawStart rawEnd lockKeys startTS commitTS) commitTS ls
      (if_pos hpos) hls

theorem cleanup_does {key : Bytes} {startTS currentTs : ℕ}
    (h : cleanup s key startTS currentTs = .ok (batch, reply)) :
    Does s (.cleanup key startTS currentTs) batch := by
  obtain ⟨⟨b, status⟩, hlook, h⟩ := bind_eq_ok.mp h
  dsimp only at h
  rcases rollbackKeyReadLock_ok hlook with
    ⟨rfl, rfl, hold⟩ | ⟨rfl, rfl, hown⟩ | ⟨hdone, rfl, hbehind⟩
  · cases h
    exact @rollbackEntries_does s (.cleanup key startTS currentTs) _ _
      (.inr (.inl ⟨rfl, hold, mem_singleton_self key⟩))
  · cases h
    exact @rollbackEntries_does s (.cleanup key startTS currentTs) _ _ (.inl ⟨rfl, hown⟩)
  · rw [if_neg hdone] at h
    rcases rollbackKeyReadDB_spec s key startTS with ⟨hdb, hnot⟩ | ⟨⟨c, hdb⟩, -⟩
    · rw [hdb] at h
      split at h
      · cases h
      · cases h
        exact @rollbackEntries_does s (.cleanup key startTS currentTs) _ _
          (.inr (.inr ⟨rfl, hbehind.not_owns, hnot⟩))
    · rw [hdb] at h
      cases h

theorem rollback_does {keys : List Bytes} {startTS : ℕ}
    (h : rollback s keys startTS = .ok (batch, reply)) :
    Does s (.rollback keys startTS) batch := by
  rcases rollback_spec s keys startTS with ⟨ks, hok, hks, -⟩ | ⟨⟨c, herr⟩, -⟩
  · rw [hok] at h
    cases h
    refine @Does.rollback s (.rollback keys startTS) ks fun p hp => ?_
    obtain ⟨hkey, ⟨hd, hold⟩ | hown | ⟨hd, hbehind, hnot⟩⟩ := hks p hp
    · exact .inr (.inl ⟨hd, hold, hkey⟩)
    · exact .inl hown
    · exact .inr (.inr ⟨hd, hbehind.not_owns, hnot⟩)
  · rw [herr] at h
    cases h

theorem handle_does (h : handle encodeFromOldRow s r = .ok (batch, reply)) : Does s r batch := by
  cases r with
  | prewrite req pd => exact prewrite_does h
  | pessimisticLock req =>
    rcases pessimisticLock_ok h with rfl | ⟨hpass, ls, rfl, hls⟩
    · exact .nothing _
    · exact .pessimisticLock hpass hls
  | pessimisticRollback keys startTS forUpdateTs => exact pessimisticRollback_does h
  | txnHeartBeat primaryLock startVersion adviseLockTtl => exact txnHeartBeat_does h
  | checkTxnStatus req => exact checkTxnStatus_does h
  | checkSecondaryLocks keys startTS => exact checkSecondaries_does (ok.inj h)
  | commit keys startTS commitTS =>
    obtain ⟨b, hb, h⟩ := bind_eq_ok.mp h
    cases h
    obtain ⟨ls, rfl, hls, -⟩ := commitKeys_ok hb
    exact @Does.commit s (.commit keys startTS commitTS) commitTS ls rfl hls
  | rollback keys startTS => exact rollback_does h
  | cleanup key startTS currentTs => exact cleanup_does h
  | resolveLock rawStart rawEnd lockKeys startTS commitTS => exact resolveLock_does h

/-- A request leaves the store as it is, or writes a batch that it can write. -/
theorem exec_does (encodeFromOldRow : Bytes → Except Err Bytes) (s : Store) (r : Request) :
    ∃ batch, exec encodeFromOldRow s r = s.write batch ∧ Does s r batch := by
  unfold exec
  cases h : handle encodeFromOldRow s r with
  | ok res => exact ⟨res.1, rfl, handle_does h⟩
  | _ => exact ⟨[], rfl, .nothing r⟩

/-! ## Runs -/

def run (encodeFromOldRow : Bytes → Except Err Bytes) (s : Store) (rs : List Request) : Store :=
  rs.foldl (exec encodeFromOldRow) s

end Step

end Unistore
