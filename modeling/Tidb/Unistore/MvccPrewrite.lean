import Tidb.Unistore.MvccBatch

/-!
# Prewrite

A prewrite that succeeds is taken for a duplicated command and writes nothing, or it passes its
checks at every mutation and places all of their locks.
-/

namespace Unistore

open GoLang Tidb List Outcome

/-! ## Prewrite -/

section Prewrite

variable {encodeFromOldRow : Bytes → Except Err Bytes} {s : Store} {req : PrewriteRequest}
  {m : Mutation}
  {ms : List Mutation} {pd : Except KvError ℕ} {batch : List Entry} {reply : Reply}

def Passes (s : Store) (req : PrewriteRequest) (m : Mutation) : Prop :=
  if req.forUpdateTs = 0 then
    s.getLock m.key = none ∧ (m.key = req.primaryLock → s.status m.key req.startVersion = none) ∧
      s.Fresh req.startVersion m.key
  else
    match m.action with
    | .doPessimisticCheck => ∃ l, s.getLock m.key = some l ∧ l.startTS = req.startVersion ∧
        l.op = .pessimisticLock
    | .doConstraintCheck => s.Fresh req.startVersion m.key
    | .skipPessimisticCheck => s.getLock m.key = none

/-- The lock of the transaction on the key of the mutation makes it a duplicated command. -/
def Relocks (s : Store) (req : PrewriteRequest) (m : Mutation) : Prop :=
  ∃ l, s.getLock m.key = some l ∧ l.startTS = req.startVersion ∧
    (req.forUpdateTs = 0 ∨ m.action = .skipPessimisticCheck ∨ m.action = .doPessimisticCheck ∧
      l.op ≠ .pessimisticLock)

def Recommits (s : Store) (req : PrewriteRequest) (m : Mutation) : Prop :=
  req.forUpdateTs = 0 ∧ m.key = req.primaryLock ∧ ∃ c, 0 < c ∧
    s.status m.key req.startVersion = some c

theorem not_relocks_of_passes (h : Passes s req m) : ¬ Relocks s req m := by
  rintro ⟨l, hl, hts, hcase⟩
  unfold Passes at h
  by_cases hopt : req.forUpdateTs = 0
  · rw [if_pos hopt, hl] at h
    cases h.1
  · rw [if_neg hopt] at h
    rcases hcase with hz | hskip | ⟨hcheck, hop⟩
    · exact hopt hz
    · rw [hskip] at h
      rw [hl] at h
      cases h
    · rw [hcheck] at h
      obtain ⟨l', hl', -, hop'⟩ := h
      rw [hl] at hl'
      cases hl'
      exact hop hop'

theorem mem_sortMutations {mutations : List Mutation} : m ∈ sortMutations mutations ↔
    m ∈ mutations :=
  (perm_insertionSort _ _).mem_iff

theorem checkConflictInLockStore_ok {startTS : ℕ} {lock : Option Lock}
    (h : s.checkConflictInLockStore m startTS = .ok lock) :
    s.getLock m.key = lock ∧ ∀ l, lock = some l → l.startTS = startTS := by
  unfold Store.checkConflictInLockStore at h
  cases hl : s.getLock m.key with
  | none =>
    rw [hl] at h
    cases h
    exact ⟨rfl, fun l hl => by cases hl⟩
  | some l =>
    rw [hl] at h
    dsimp only at h
    split at h
    · rename_i hts
      cases h
      exact ⟨rfl, fun l' hl' => by cases hl'; exact hts⟩
    · cases h

def Unlocked (s : Store) (req : PrewriteRequest) (m : Mutation) : Prop :=
  s.getLock m.key = none ∧ (m.key = req.primaryLock → s.status m.key req.startVersion = none)

theorem optimisticLocks_ok (hopt : req.forUpdateTs = 0) {dup : Bool}
    (h : optimisticLocks s req ms = .ok dup) :
    (dup = true ∧ ∃ m ∈ ms, Relocks s req m ∨ Recommits s req m) ∨
      (dup = false ∧ ∀ m ∈ ms, Unlocked s req m) := by
  induction ms with
  | nil =>
    cases h
    exact .inr ⟨rfl, by simp⟩
  | cons m ms ih =>
    obtain ⟨lock, hlock, h⟩ := bind_eq_ok.mp h
    obtain ⟨hget, hown⟩ := checkConflictInLockStore_ok hlock
    cases lock with
    | some l =>
      cases h
      exact .inl ⟨rfl, m, mem_cons_self, .inl ⟨l, hget, hown l rfl, .inl hopt⟩⟩
    | none =>
      rw [if_neg (by simp)] at h
      obtain ⟨hdup, hcommitted⟩ | ⟨hms, hstatus⟩ : (dup = true ∧ Recommits s req m) ∨
          (optimisticLocks s req ms = .ok dup ∧
            (m.key = req.primaryLock → s.status m.key req.startVersion = none)) := by
        by_cases hprim : m.key = req.primaryLock
        · rw [if_pos hprim] at h
          dsimp only at h
          split at h
          · cases h
          rename_i hroll
          split at h
          · rename_i hcommitted
            cases h
            obtain ⟨c, hpos, hstatus⟩ := Store.status_of_isOpLockCommitted hcommitted
            exact .inl ⟨rfl, hopt, hprim, c, hpos, hstatus⟩
          · rename_i hcommitted
            exact .inr ⟨h, fun _ => Store.status_eq_none (by simpa using hroll)
              (by simpa using hcommitted)⟩
        · rw [if_neg hprim] at h
          exact .inr ⟨h, fun heq => absurd heq hprim⟩
      · exact .inl ⟨hdup, m, mem_cons_self, .inr hcommitted⟩
      rcases ih hms with ⟨hdup, m', hm', hcase⟩ | ⟨hdup, hall⟩
      · exact .inl ⟨hdup, m', mem_cons_of_mem m hm', hcase⟩
      · exact .inr ⟨hdup, forall_mem_cons.mpr ⟨⟨hget, hstatus⟩, hall⟩⟩

theorem optimisticItems_ok (h : optimisticItems s req ms = .ok ()) :
    ∀ m ∈ ms, s.Fresh req.startVersion m.key := by
  induction ms with
  | nil => simp
  | cons m ms ih =>
    rw [optimisticItems] at h
    rw [forall_mem_cons]
    cases hnew : s.newest m.key with
    | none =>
      rw [hnew] at h
      exact ⟨Store.fresh_of_no_newest hnew, ih h⟩
    | some e =>
      rw [hnew] at h
      dsimp only at h
      split at h
      · cases h
      rename_i hle
      split at h
      · cases h
      exact ⟨Store.fresh_of_newest hnew (not_lt.mp hle), ih h⟩

theorem pessimisticLocks_ok (hpess : req.forUpdateTs ≠ 0) {r : Option PrewriteRequest}
    (h : pessimisticLocks s req ms = .ok r) : (r = none ∧ ∃ m ∈ ms, Relocks s req m) ∨
      ∃ ttl, r = some { req with lockTtl := ttl } ∧ ∀ m ∈ ms, Passes s req m := by
  induction ms generalizing req with
  | nil =>
    cases h
    exact .inr ⟨req.lockTtl, rfl, by simp⟩
  | cons m ms ih =>
    rw [pessimisticLocks] at h
    split at h
    · cases h
    -- the loop ends here or goes on, with the time to live that this mutation leaves
    obtain ⟨hr, hrelock⟩ | ⟨ttl, hms, hpass⟩ : (r = none ∧ Relocks s req m) ∨
        ∃ ttl, pessimisticLocks s { req with lockTtl := ttl } ms = .ok r ∧ Passes s req m := by
      rw [Passes, if_neg hpess]
      cases hact : m.action with
      | doPessimisticCheck =>
        rw [hact] at h
        cases hget : s.getLock m.key with
        | none => rw [hget] at h; cases h
        | some l =>
          rw [hget] at h
          dsimp only at h
          split at h
          · cases h
          rename_i hts
          split at h
          · rename_i hop
            cases h
            exact .inl ⟨rfl, l, hget, not_not.mp hts, .inr (.inr ⟨hact, hop⟩)⟩
          · rename_i hop
            exact .inr ⟨_, h, l, rfl, not_not.mp hts, not_not.mp hop⟩
      | doConstraintCheck =>
        rw [hact] at h
        refine .inr ⟨req.lockTtl, ?_⟩
        cases hnew : s.newest m.key with
        | none =>
          rw [hnew] at h
          exact ⟨h, Store.fresh_of_no_newest hnew⟩
        | some e =>
          rw [hnew] at h
          dsimp only at h
          split at h
          · cases h
          rename_i hle
          exact ⟨h, Store.fresh_of_newest hnew (not_lt.mp hle)⟩
      | skipPessimisticCheck =>
        rw [hact] at h
        cases hget : s.getLock m.key with
        | none =>
          rw [hget] at h
          exact .inr ⟨req.lockTtl, h, rfl⟩
        | some l =>
          rw [hget] at h
          dsimp only at h
          split at h
          · cases h
          rename_i hts
          cases h
          exact .inl ⟨rfl, l, hget, not_not.mp hts, .inr (.inl hact)⟩
    · exact .inl ⟨hr, m, mem_cons_self, hrelock⟩
    rcases @ih { req with lockTtl := ttl } hpess hms with ⟨hr, m', hm', hcase⟩ | ⟨ttl', hr, hall⟩
    · exact .inl ⟨hr, m', mem_cons_of_mem m hm', hcase⟩
    · exact .inr ⟨ttl', hr, forall_mem_cons.mpr ⟨hpass, hall⟩⟩

theorem prewrite_ok (h : prewrite encodeFromOldRow s req pd = .ok (batch, reply)) :
    (batch = [] ∧ reply = .prewritten 0 0 ∧ ∃ m ∈ req.mutations, Relocks s req m ∨
      Recommits s req m) ∨
      (∀ m ∈ req.mutations, Passes s req m) ∧ ∃ ttl, prewriteMutations encodeFromOldRow s
        (sortMutations req.mutations) { req with lockTtl := ttl } pd = .ok (batch, reply) := by
  unfold prewrite at h
  by_cases hopt : req.forUpdateTs = 0
  · rw [if_neg (by omega)] at h
    obtain ⟨dup, hdup, h⟩ := bind_eq_ok.mp h
    rcases optimisticLocks_ok hopt hdup with ⟨rfl, m, hm, hcase⟩ | ⟨rfl, hlocks⟩
    · cases h
      exact .inl ⟨rfl, rfl, m, mem_sortMutations.mp hm, hcase⟩
    · obtain ⟨⟨⟩, hitems, h⟩ := bind_eq_ok.mp h
      have hfresh := optimisticItems_ok hitems
      refine .inr ⟨fun m hm => ?_, req.lockTtl, h⟩
      have hm := mem_sortMutations.mpr hm
      rw [Passes, if_pos hopt]
      exact ⟨(hlocks m hm).1, (hlocks m hm).2, hfresh m hm⟩
  · rw [if_pos (by omega)] at h
    obtain ⟨r, hr, h⟩ := bind_eq_ok.mp h
    rcases pessimisticLocks_ok hopt hr with ⟨rfl, m, hm, hrel⟩ | ⟨ttl, rfl, hpass⟩
    · cases h
      exact .inl ⟨rfl, rfl, m, mem_sortMutations.mp hm, .inl hrel⟩
    · exact .inr ⟨fun m hm => hpass m (mem_sortMutations.mpr hm), ttl, h⟩

def mutationLock (req : PrewriteRequest) (op : LockOp) (value : Bytes) : Lock where
  startTS := req.startVersion
  forUpdateTS := req.forUpdateTs
  minCommitTS := req.minCommitTs
  ttl := req.lockTtl % 2 ^ 32
  op := op
  useAsyncCommit := req.useAsyncCommit
  primary := req.primaryLock
  value := value
  secondaries := req.secondaries

theorem buildPrewriteLock_ok {item : Option (ℕ × Version)} {lock : Lock}
    (h : buildPrewriteLock encodeFromOldRow m item req = .ok lock) :
    ∃ value, lockValue encodeFromOldRow m = .ok value ∧
      lock = mutationLock req (lockOp m.op) value := by
  obtain ⟨⟨⟩, -, h⟩ := bind_eq_ok.mp h
  split at h
  · cases h
  · obtain ⟨value, hvalue, h⟩ := bind_eq_ok.mp h
    cases h
    exact ⟨value, hvalue, rfl⟩

/-- The locks of the mutations. -/
structure LocksFor (encodeFromOldRow : Bytes → Except Err Bytes) (req : PrewriteRequest)
    (ms : List Mutation) (ls : List (Bytes × Lock)) : Prop where
  sound : ∀ p ∈ ls, ∃ m ∈ ms, m.op ≠ .checkNotExists ∧
    ∃ value, lockValue encodeFromOldRow m = .ok value ∧
    p = (m.key, mutationLock req (lockOp m.op) value)
  complete : ∀ m ∈ ms, m.op ≠ .checkNotExists →
    ∃ value, lockValue encodeFromOldRow m = .ok value ∧
    (m.key, mutationLock req (lockOp m.op) value) ∈ ls

variable {ls : List (Bytes × Lock)}

theorem lockMutations_ok {entries : Bytes → Lock → List Entry}
    (h : lockMutations encodeFromOldRow s req entries ms = .ok batch) :
    ∃ ls, batch = ls.flatMap (fun p => entries p.1 p.2) ∧ LocksFor encodeFromOldRow req ms ls := by
  induction ms generalizing batch with
  | nil =>
    cases h
    exact ⟨[], rfl, by simp, by simp⟩
  | cons m ms ih =>
    rw [lockMutations] at h
    by_cases hcne : m.op = .checkNotExists
    · rw [if_pos hcne] at h
      obtain ⟨ls, rfl, hls, hms⟩ := ih h
      refine ⟨ls, rfl, fun p hp => ?_, forall_mem_cons.mpr ⟨fun hne => absurd hcne hne, hms⟩⟩
      obtain ⟨m', hm', hrest⟩ := hls p hp
      exact ⟨m', mem_cons_of_mem m hm', hrest⟩
    · rw [if_neg hcne] at h
      obtain ⟨lock, hlock, h⟩ := bind_eq_ok.mp h
      obtain ⟨rest, hrest, h⟩ := bind_eq_ok.mp h
      cases h
      obtain ⟨value, hvalue, rfl⟩ := buildPrewriteLock_ok hlock
      obtain ⟨ls, rfl, hls, hms⟩ := ih hrest
      refine ⟨(m.key, mutationLock req (lockOp m.op) value) :: ls, rfl, ?_, ?_⟩
      · rw [forall_mem_cons]
        refine ⟨⟨m, mem_cons_self, hcne, value, hvalue, rfl⟩, fun p hp => ?_⟩
        obtain ⟨m', hm', hrest⟩ := hls p hp
        exact ⟨m', mem_cons_of_mem m hm', hrest⟩
      · rw [forall_mem_cons]
        refine ⟨fun _ => ⟨value, hvalue, mem_cons_self⟩, fun m' hm' hne => ?_⟩
        obtain ⟨value', hvalue', hmem⟩ := hms m' hm' hne
        exact ⟨value', hvalue', mem_cons_of_mem _ hmem⟩

def Asked (req : PrewriteRequest) (pd : Except KvError ℕ) (ts : ℕ) : Prop :=
  pd = .ok ts ∧ (req.useAsyncCommit = true ∨ req.tryOnePc = true)

/-- A commit at once at the timestamp `c`. -/
structure OnePc (req : PrewriteRequest) (pd : Except KvError ℕ) (c : ℕ) : Prop where
  tries : req.tryOnePc = true
  asked : Asked req pd c
  start_le : req.startVersion ≤ c

/-- The locks are built from the request as changed on the way, its transaction apart, and are
placed, or committed at once at the timestamp of the reply. -/
theorem prewriteMutations_ok (h : prewriteMutations encodeFromOldRow s ms req pd =
    .ok (batch, reply)) :
    ∃ (req' : PrewriteRequest) (async : ℕ), req'.startVersion = req.startVersion ∧
      (async ≠ 0 → Asked req pd async) ∧
      ((reply = .prewritten async 0 ∧
        lockMutations encodeFromOldRow s req' (fun key lock => [.lock key lock]) ms = .ok batch) ∨
      ∃ c, reply = .prewritten async c ∧ OnePc req pd c ∧
        lockMutations encodeFromOldRow s req' (commitEntries req.startVersion c) ms =
        .ok batch) := by
  obtain ⟨c, hc, h⟩ := bind_eq_ok.mp h
  have hasked : req.useAsyncCommit = true ∨ req.tryOnePc = true → Asked req pd c := by
    intro hask
    unfold getMinCommitTS at hc
    rw [if_pos hask] at hc
    cases pd with
    | ok ts =>
      cases hc
      exact ⟨rfl, hask⟩
    | error e => cases hc
  dsimp only at h
  generalize hlate : decide ((req.useAsyncCommit = true ∨ req.tryOnePc = true) ∧
    0 < req.maxCommitTs ∧
    req.maxCommitTs < c) = late at h
  -- the timestamp of the reply for async commit
  have hasync : (if (req.useAsyncCommit && !late) = true then c else 0) ≠ 0 →
      Asked req pd (if (req.useAsyncCommit && !late) = true then c else 0) := by
    split
    · rename_i huse
      exact fun _ => hasked (.inl (Bool.and_eq_true_iff.mp huse).1)
    · exact fun hne => absurd rfl hne
  split at h
  · rename_i honce
    have hpc : req.tryOnePc = true := (Bool.and_eq_true_iff.mp honce).1
    split at h
    · cases h
    rename_i hle
    obtain ⟨batch', hbatch, h⟩ := bind_eq_ok.mp h
    cases h
    refine ⟨_, _, ?_, hasync, .inr ⟨c, rfl, ⟨hpc, hasked (.inr hpc), not_lt.mp hle⟩, hbatch⟩⟩
    rfl
  · obtain ⟨batch', hbatch, h⟩ := bind_eq_ok.mp h
    cases h
    refine ⟨_, _, ?_, hasync, .inl ⟨rfl, hbatch⟩⟩
    rfl

def LocksOf (req : PrewriteRequest) (ls : List (Bytes × Lock)) : Prop :=
  ∀ p ∈ ls, p.2.startTS = req.startVersion ∧
    ∃ m ∈ req.mutations, m.op ≠ .checkNotExists ∧ p.1 = m.key ∧ p.2.op = lockOp m.op

theorem prewrite_cases (h : prewrite encodeFromOldRow s req pd = .ok (batch, reply)) :
    ∃ async once, reply = .prewritten async once ∧ (async ≠ 0 → Asked req pd async) ∧
      (once ≠ 0 → Asked req pd once) ∧
      (batch = [] ∨ (∀ m ∈ req.mutations, Passes s req m) ∧ ∃ ls, LocksOf req ls ∧
        (batch = lockAll ls ∨ batch = commitAll req.startVersion once ls ∧ OnePc req pd once)) := by
  rcases prewrite_ok h with ⟨rfl, rfl, -⟩ | ⟨hpass, ttl, hms⟩
  · exact ⟨0, 0, rfl, absurd rfl, absurd rfl, .inl rfl⟩
  obtain ⟨req', async, hreq, hasync, hbatch⟩ := prewriteMutations_ok hms
  have hlocks : ∀ ls, LocksFor encodeFromOldRow req' (sortMutations req.mutations) ls →
      LocksOf req ls := by
    intro ls hls p hp
    obtain ⟨m, hm, hop, value, -, rfl⟩ := hls.sound p hp
    exact ⟨hreq, m, mem_sortMutations.mp hm, hop, rfl, rfl⟩
  rcases hbatch with ⟨rfl, hbatch⟩ | ⟨c, rfl, hpc, hbatch⟩
  · obtain ⟨ls, rfl, hls⟩ := lockMutations_ok hbatch
    exact ⟨async, 0, rfl, hasync, absurd rfl,
      .inr ⟨hpass, ls, hlocks ls hls, .inl (flatMap_lock ls)⟩⟩
  · obtain ⟨ls, rfl, hls⟩ := lockMutations_ok hbatch
    have hpc : OnePc req pd c := ⟨hpc.tries, hpc.asked, hpc.start_le⟩
    exact ⟨async, c, rfl, hasync, fun _ => hpc.asked,
      .inr ⟨hpass, ls, hlocks ls hls, .inr ⟨rfl, hpc⟩⟩⟩

/-! ## The locks after a prewrite -/

def Store.Open (s : Store) (ts : ℕ) : Prop :=
  ∀ key, s.status key ts = none ∧ ∀ c v, (s.versions key).find c = some v → v.startTS ≠ ts

/-- The key of the mutation is locked by the transaction, with its operation and value; an insertion
is locked as a put, and a row in the new format. -/
def Holds (encodeFromOldRow : Bytes → Except Err Bytes) (s : Store) (ts : ℕ)
    (m : Mutation) : Prop :=
  ∃ l, s.getLock m.key = some l ∧ l.startTS = ts ∧ l.op = lockOp m.op ∧
    lockValue encodeFromOldRow m = .ok l.value

def HoldsAll (encodeFromOldRow : Bytes → Except Err Bytes) (s : Store) (ts : ℕ)
    (ms : List Mutation) : Prop :=
  ∀ m ∈ ms, m.op ≠ .checkNotExists → Holds encodeFromOldRow s ts m

/-- Mutations of the same key ask for the same lock. -/
def Agree (encodeFromOldRow : Bytes → Except Err Bytes) (ms : List Mutation) : Prop :=
  ∀ m ∈ ms, ∀ m' ∈ ms, m.op ≠ .checkNotExists → m'.op ≠ .checkNotExists → m.key = m'.key →
    lockOp m.op = lockOp m'.op ∧ lockValue encodeFromOldRow m = lockValue encodeFromOldRow m'

theorem exec_of_ok {r : Request} (h : handle encodeFromOldRow s r = .ok (batch, reply)) :
    exec encodeFromOldRow s r = s.write batch := by
  rw [exec, h]

theorem holdsAll_write_iff (hls : LocksFor encodeFromOldRow req ms ls) :
    HoldsAll encodeFromOldRow (s.write (lockAll ls)) req.startVersion ms ↔
      Agree encodeFromOldRow ms := by
  constructor
  · intro hall m hm m' hm' hop hop' hkey
    obtain ⟨l, hl, -, hlop, hvalue⟩ := hall m hm hop
    obtain ⟨l', hl', -, hlop', hvalue'⟩ := hall m' hm' hop'
    rw [← hkey, hl] at hl'
    cases hl'
    exact ⟨hlop.symm.trans hlop', hvalue.trans hvalue'.symm⟩
  · intro hagree m hm hop
    obtain ⟨value, hvalue, hmem⟩ := hls.complete m hm hop
    refine ⟨mutationLock req (lockOp m.op) value, ?_, rfl, rfl, hvalue⟩
    apply Store.getLock_write_lock (lock_mem_lockAll.mpr hmem) _ unlock_notMem_lockAll
    intro l' hl'
    obtain ⟨m', hm', hop', value', hvalue', heq⟩ := hls.sound _ (lock_mem_lockAll.mp hl')
    obtain ⟨hkey, rfl⟩ := Prod.mk.inj heq
    obtain ⟨hlop, hlv⟩ := hagree m hm m' hm' hop hop' hkey
    rw [hvalue, hvalue'] at hlv
    rw [hlop, ok.inj hlv]

/-- A prewrite that succeeds leaves all of its keys locked exactly if it is no duplicated command,
or all of them were locked before. -/
theorem exec_prewrite_holds_iff (hopen : s.Open req.startVersion) (honce : req.tryOnePc = false)
    (h : handle encodeFromOldRow s (.prewrite req pd) = .ok (batch, reply)) :
    HoldsAll encodeFromOldRow (exec encodeFromOldRow s (.prewrite req pd)) req.startVersion
      req.mutations ↔
      ((∃ m ∈ req.mutations, Relocks s req m) →
        HoldsAll encodeFromOldRow s req.startVersion req.mutations) ∧
      ((∀ m ∈ req.mutations, ¬ Relocks s req m) → Agree encodeFromOldRow req.mutations) := by
  rw [exec_of_ok h]
  rcases prewrite_ok h with ⟨rfl, -, m, hm, hcase⟩ | ⟨hpass, ttl, hmuts⟩
  · -- a duplicated command: the store is as it was
    have hrel : Relocks s req m := by
      rcases hcase with hrel | ⟨-, -, c, -, hstatus⟩
      · exact hrel
      · rw [(hopen m.key).1] at hstatus
        cases hstatus
    constructor
    · exact fun hall => ⟨fun _ => hall, fun hnot => absurd hrel (hnot m hm)⟩
    · exact fun hcond => hcond.1 ⟨m, hm, hrel⟩
  · have hnot : ∀ m ∈ req.mutations, ¬ Relocks s req m :=
      fun m hm => not_relocks_of_passes (hpass m hm)
    obtain ⟨req', -, hreq, -, ⟨-, hbatch⟩ | ⟨c, -, hpc, -⟩⟩ := prewriteMutations_ok hmuts
    swap
    · cases honce.symm.trans hpc.tries
    obtain ⟨ls, rfl, hls⟩ := lockMutations_ok hbatch
    have hiff := @holdsAll_write_iff encodeFromOldRow s req' _ ls hls
    simp only [HoldsAll, Agree, mem_sortMutations] at hiff
    rw [flatMap_lock, HoldsAll, ← show req'.startVersion = req.startVersion from hreq, hiff]
    constructor
    · exact fun hagree => ⟨fun ⟨m, hm, hrel⟩ => absurd hrel (hnot m hm), fun _ => hagree⟩
    · exact fun hcond => hcond.2 hnot

end Prewrite

/-! ## Requests for examples -/

def putOf (key value : Bytes) : Mutation := ⟨.put, key, value, .none, .skipPessimisticCheck⟩

def prewriteOf (startTS : ℕ) (primaryLock : Bytes) (mutations : List Mutation) : PrewriteRequest :=
  ⟨mutations, primaryLock, startTS, 3000, 0, 0, 0, false, false, [], true⟩

def newRows : Bytes → Except Err Bytes := .ok

/-- The key "ta" is prewritten, and then "ta" and "tb" in one request, as after a merge of their
regions. The request returns success, and "tb" is not locked. -/
theorem regrouped_prewrite_leaves_key_unlocked :
    let s := exec newRows .empty (.prewrite (prewriteOf 10 [116, 97] [putOf [116, 97] [1]]) (.ok 0))
    let both := Request.prewrite (prewriteOf 10 [116, 97] [putOf [116, 97] [1],
      putOf [116, 98] [2]]) (.ok 0)
    s.Open 10 ∧ handle newRows s both = .ok ([], .prewritten 0 0) ∧
    (exec newRows s both).getLock [116, 98] = none := by
  refine ⟨fun key => ⟨rfl, fun c v hv => ?_⟩, by decide, by decide⟩
  cases hv

theorem prewrite_holds_of_two_keys :
    let req := prewriteOf 10 [116, 97] [putOf [116, 97] [1], putOf [116, 98] [2]]
    HoldsAll newRows (exec newRows .empty (.prewrite req (.ok 0))) 10 req.mutations := by
  intro req
  have hopen : Store.empty.Open 10 := fun key => ⟨rfl, fun c v hv => by cases hv⟩
  obtain ⟨batch, reply, hok⟩ : ∃ batch reply, handle newRows .empty (.prewrite req (.ok 0)) =
    .ok (batch, reply) :=
    ⟨_, _, rfl⟩
  refine (exec_prewrite_holds_iff hopen rfl hok).mpr ⟨?_, fun _ => ?_⟩
  · rintro ⟨m, -, l, hl, -⟩
    cases hl
  · unfold Agree
    decide

end Unistore
