import Tidb.Lib.SortedMap
import Tidb.Codec.Number

/-!
# The MVCC store

The lock store and the database of `store/mockstore/unistore/tikv`, and the batches that are written to them
(`mvcc/mvcc.go`, `write.go`).  The database has the versions of a key by their commit timestamps, and for a key and a
start timestamp the extra status: a rollback (commit timestamp 0), or a committed lock on the primary.

In the source both are entries of one key space; `encodeExtraTxnStatusKey_inj` and `encodeExtraTxnStatusKey_ne` say
that they do not fall together for keys with the prefixes of TiDB, so they are two maps here.
-/

namespace Unistore

open GoLang Tidb Codec Function

/-! ## Locks and versions -/

inductive LockOp where
  | put
  | del
  | lock
  | pessimisticLock
  deriving DecidableEq, Repr

structure Lock where
  startTS : ℕ
  forUpdateTS : ℕ
  minCommitTS : ℕ
  ttl : ℕ
  op : LockOp
  useAsyncCommit : Bool
  primary : Bytes
  value : Bytes
  secondaries : List Bytes
  deriving DecidableEq, Repr

structure Version where
  startTS : ℕ
  value : Bytes
  deriving DecidableEq, Repr

structure Store where
  versions : Bytes → SortedMap ℕ Version
  status : Bytes → ℕ → Option ℕ
  locks : SortedMap Bytes Lock

namespace Store

def empty : Store := ⟨fun _ => .empty, fun _ _ => none, .empty⟩

def getLock (s : Store) (key : Bytes) : Option Lock := s.locks.find key

def newest (s : Store) (key : Bytes) : Option (ℕ × Version) := (s.versions key).last

def newestAt (s : Store) (key : Bytes) (ts : ℕ) : Option (ℕ × Version) := (s.versions key).lastAtMost ts

end Store

/-! ## Status keys -/

/-- Only used for rollbacks and committed locks. -/
def encodeExtraTxnStatusKey (key : Bytes) (startTS : UInt64) : Bytes :=
  match encodeUintDesc key startTS with
  | [] => []
  | b :: rest => (b + 1) :: rest

def IsTiDBKey (key : Bytes) : Prop := key.head? = some 109 ∨ key.head? = some 116

/-! ## Batches -/

inductive Entry where
  | version (key : Bytes) (commitTS : ℕ) (v : Version)
  | status (key : Bytes) (startTS commitTS : ℕ)
  | lock (key : Bytes) (l : Lock)
  | unlock (key : Bytes)
  deriving DecidableEq, Repr

def commitEntries (startTS commitTS : ℕ) (key : Bytes) (lock : Lock) : List Entry :=
  (match lock.op with
    -- Write nothing as if PessimisticRollback is called.
    | .pessimisticLock => []
    | .lock => if key = lock.primary then [.status key startTS commitTS] else []
    | .put => [.version key commitTS ⟨startTS, lock.value⟩]
    | .del => [.version key commitTS ⟨startTS, lock.value⟩]) ++ [.unlock key]

def rollbackEntries (startTS : ℕ) (key : Bytes) (deleteLock : Bool) : List Entry :=
  .status key startTS 0 :: if deleteLock then [.unlock key] else []

namespace Store

def put (s : Store) : Entry → Store
  | .version key commitTS v =>
    { s with versions := update s.versions key ((s.versions key).insert commitTS v) }
  | .status key startTS commitTS =>
    { s with status := update s.status key (update (s.status key) startTS (some commitTS)) }
  | .lock key l => { s with locks := s.locks.insert key l }
  | .unlock key => { s with locks := s.locks.erase key }

def write (s : Store) (batch : List Entry) : Store := batch.foldl put s

end Store

/-! ## Status keys do not fall together -/

theorem encodeUintDesc_inj {k k' : Bytes} {ts ts' : UInt64}
    (h : encodeUintDesc k ts = encodeUintDesc k' ts') : k = k' ∧ ts = ts' := by
  have hlen : (putUint64BE (~~~ts)).length = (putUint64BE (~~~ts')).length := by simp
  obtain ⟨hk, hts⟩ := List.append_inj' h hlen
  have hcompl := congrArg (~~~·) (putUint64BE_inj hts)
  simp only [UInt64.not_not] at hcompl
  exact ⟨hk, hcompl⟩

theorem encodeExtraTxnStatusKey_inj {k k' : Bytes} {ts ts' : UInt64}
    (h : encodeExtraTxnStatusKey k ts = encodeExtraTxnStatusKey k' ts') : k = k' ∧ ts = ts' := by
  apply encodeUintDesc_inj
  unfold encodeExtraTxnStatusKey at h
  cases hk : encodeUintDesc k ts with
  | nil =>
    cases hk' : encodeUintDesc k' ts' with
    | nil => rfl
    | cons b' rest' => rw [hk, hk'] at h; cases h
  | cons b rest =>
    cases hk' : encodeUintDesc k' ts' with
    | nil => rw [hk, hk'] at h; cases h
    | cons b' rest' =>
      rw [hk, hk'] at h
      obtain ⟨hb, hrest⟩ := List.cons.inj h
      rw [UInt8.add_left_inj] at hb
      rw [hb, hrest]

theorem encodeExtraTxnStatusKey_ne {k k' : Bytes} (hk : IsTiDBKey k) (hk' : IsTiDBKey k') (ts : UInt64) :
    encodeExtraTxnStatusKey k ts ≠ k' := by
  intro heq
  have hhead : ∀ b, k.head? = some b → k'.head? = some (b + 1) := by
    intro b hb
    obtain ⟨rest, rfl⟩ := List.head?_eq_some_iff.mp hb
    rw [← heq]
    rfl
  rcases hk with hk | hk
  · rcases hk' with hk' | hk' <;> rw [hhead _ hk] at hk' <;> exact absurd hk' (by decide)
  · rcases hk' with hk' | hk' <;> rw [hhead _ hk] at hk' <;> exact absurd hk' (by decide)

/-! ## Reading what was written -/

namespace Store

variable {s : Store} {batch : List Entry} {key : Bytes} {ts : ℕ}

theorem write_cons (s : Store) (e : Entry) (batch : List Entry) : s.write (e :: batch) = (s.put e).write batch :=
  rfl

theorem get_write {β : Type} {get : Store → β} {sets : Entry → Option β}
    (hput : ∀ s e, get (s.put e) = (sets e).getD (get s)) (s : Store) (batch : List Entry) :
    (∃ e ∈ batch, sets e = some (get (s.write batch))) ∨ get (s.write batch) = get s ∧ ∀ e ∈ batch, sets e = none := by
  induction batch generalizing s with
  | nil => exact .inr ⟨rfl, by simp⟩
  | cons e batch ih =>
    rw [write_cons]
    rcases ih (s.put e) with ⟨e', he', hset⟩ | ⟨heq, hnone⟩
    · exact .inl ⟨e', List.mem_cons_of_mem e he', hset⟩
    · rw [heq, hput]
      cases hset : sets e with
      | none => exact .inr ⟨rfl, List.forall_mem_cons.mpr ⟨hset, hnone⟩⟩
      | some b => exact .inl ⟨e, List.mem_cons_self, hset⟩

/-! What an entry sets the lock of the key to, its version at a commit timestamp, and the status of a transaction
on it. -/

def setsLock (key : Bytes) : Entry → Option (Option Lock)
  | .lock k l => if key = k then some (some l) else none
  | .unlock k => if key = k then some none else none
  | _ => none

def setsVersion (key : Bytes) (c : ℕ) : Entry → Option (Option Version)
  | .version k c' v => if key = k ∧ c = c' then some (some v) else none
  | _ => none

def setsStatus (key : Bytes) (ts : ℕ) : Entry → Option (Option ℕ)
  | .status k t c => if key = k ∧ ts = t then some (some c) else none
  | _ => none

theorem getLock_put (s : Store) (e : Entry) : (s.put e).getLock key = (setsLock key e).getD (s.getLock key) := by
  cases e with
  | lock k l =>
    by_cases hk : key = k
    · simp [setsLock, put, getLock, hk]
    · simp [setsLock, put, getLock, hk, SortedMap.find_insert_of_ne]
  | unlock k =>
    by_cases hk : key = k
    · simp [setsLock, put, getLock, hk]
    · simp [setsLock, put, getLock, hk, SortedMap.find_erase_of_ne]
  | _ => rfl

theorem find_version_put {c : ℕ} (s : Store) (e : Entry) :
    ((s.put e).versions key).find c = (setsVersion key c e).getD ((s.versions key).find c) := by
  cases e with
  | version k c' v =>
    by_cases hk : key = k
    · subst hk
      by_cases hc : c = c'
      · simp [setsVersion, put, hc]
      · simp [setsVersion, put, hc, SortedMap.find_insert_of_ne]
    · simp [setsVersion, put, hk]
  | _ => rfl

theorem status_put (s : Store) (e : Entry) : (s.put e).status key ts = (setsStatus key ts e).getD
    (s.status key ts) := by
  cases e with
  | status k t c =>
    by_cases hk : key = k
    · subst hk
      by_cases hts : ts = t
      · simp [setsStatus, put, hts]
      · simp [setsStatus, put, hts]
    · simp [setsStatus, put, hk]
  | _ => rfl

theorem setsLock_eq_some {e : Entry} {o : Option Lock} (h : setsLock key e = some o) :
    (∃ l, e = .lock key l ∧ o = some l) ∨ e = .unlock key ∧ o = none := by
  cases e <;> simp_all [setsLock]

theorem setsVersion_eq_some {c : ℕ} {e : Entry} {o : Option Version} (h : setsVersion key c e = some o) :
    ∃ v, e = .version key c v ∧ o = some v := by
  cases e <;> simp_all [setsVersion]

theorem setsStatus_eq_some {e : Entry} {o : Option ℕ} (h : setsStatus key ts e = some o) :
    ∃ c, e = .status key ts c ∧ o = some c := by
  cases e <;> simp_all [setsStatus]

open Entry

theorem getLock_write {l : Lock} (h : (s.write batch).getLock key = some l) : lock key l ∈ batch ∨
      s.getLock key = some l ∧ unlock key ∉ batch ∧ ∀ l', lock key l' ∉ batch := by
  rcases @get_write _ (·.getLock key) _ getLock_put s batch with ⟨e, he, hset⟩ | ⟨heq, hnone⟩
  · rw [h] at hset
    rcases setsLock_eq_some hset with ⟨l', rfl, hl⟩ | ⟨-, hl⟩
    · cases hl
      exact .inl he
    · cases hl
  · refine .inr ⟨heq.symm.trans h, fun hmem => ?_, fun l' hmem => ?_⟩
    · simpa [setsLock] using hnone _ hmem
    · simpa [setsLock] using hnone _ hmem

theorem getLock_write_lock {l : Lock} (hmem : lock key l ∈ batch)
    (hsame : ∀ l', lock key l' ∈ batch → l' = l) (hun : unlock key ∉ batch) :
    (s.write batch).getLock key = some l := by
  rcases @get_write _ (·.getLock key) _ getLock_put s batch with ⟨e, he, hset⟩ | ⟨-, hnone⟩
  · rcases setsLock_eq_some hset with ⟨l', rfl, hl⟩ | ⟨rfl, -⟩
    · rw [hl, hsame l' he]
    · exact absurd he hun
  · simpa [setsLock] using hnone _ hmem

theorem find_version_write {c : ℕ} {v : Version} (h : ((s.write batch).versions key).find c = some v) :
    version key c v ∈ batch ∨ (s.versions key).find c = some v ∧ ∀ v', version key c v' ∉ batch := by
  rcases @get_write _ (fun s => (s.versions key).find c) _ find_version_put s batch with ⟨e, he, hset⟩ | ⟨heq, hnone⟩
  · obtain ⟨v', rfl, hv⟩ := setsVersion_eq_some hset
    rw [h] at hv
    cases hv
    exact .inl he
  · refine .inr ⟨heq.symm.trans h, fun v' hmem => ?_⟩
    simpa [setsVersion] using hnone _ hmem

theorem find_version_write_of_notMem {c : ℕ} (h : ∀ v, version key c v ∉ batch) :
    ((s.write batch).versions key).find c = (s.versions key).find c := by
  rcases @get_write _ (fun s => (s.versions key).find c) _ find_version_put s batch with ⟨e, he, hset⟩ | ⟨heq, -⟩
  · obtain ⟨v, rfl, -⟩ := setsVersion_eq_some hset
    exact absurd he (h v)
  · exact heq

theorem find_version_write_of_mem {c : ℕ} {v : Version} (h : version key c v ∈ batch) :
    ∃ v', version key c v' ∈ batch ∧ ((s.write batch).versions key).find c = some v' := by
  rcases @get_write _ (fun s => (s.versions key).find c) _ find_version_put s batch with ⟨e, he, hset⟩ | ⟨-, hnone⟩
  · obtain ⟨v', rfl, hv⟩ := setsVersion_eq_some hset
    exact ⟨v', he, hv⟩
  · simpa [setsVersion] using hnone _ h

theorem status_write {c : ℕ} (h : (s.write batch).status key ts = some c) :
    Entry.status key ts c ∈ batch ∨ s.status key ts = some c ∧ ∀ c', Entry.status key ts c' ∉ batch := by
  rcases @get_write _ (·.status key ts) _ status_put s batch with ⟨e, he, hset⟩ | ⟨heq, hnone⟩
  · obtain ⟨c', rfl, hc⟩ := setsStatus_eq_some hset
    rw [h] at hc
    cases hc
    exact .inl he
  · refine .inr ⟨heq.symm.trans h, fun c' hmem => ?_⟩
    simpa [setsStatus] using hnone _ hmem

theorem status_write_isSome (h : (s.status key ts).isSome ∨ ∃ c, Entry.status key ts c ∈ batch) :
    ((s.write batch).status key ts).isSome := by
  rcases @get_write _ (·.status key ts) _ status_put s batch with ⟨e, he, hset⟩ | ⟨heq, hnone⟩
  · obtain ⟨c, -, hc⟩ := setsStatus_eq_some hset
    rw [hc]
    rfl
  · rcases h with h | ⟨c, hc⟩
    · rwa [heq]
    · simpa [setsStatus] using hnone _ hc

end Store

end Unistore
