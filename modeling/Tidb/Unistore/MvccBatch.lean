import Tidb.Unistore.Mvcc

/-!
# Views of the MVCC store, and the batches that are written to it

What the requests look for in the store, said of its locks, versions and statuses, and the four kinds of batches
that they write: locks, commits, rollbacks, and locks that are only removed.
-/

namespace Unistore

open GoLang Tidb List SortedMap Entry

/-! ## Views of the store -/

namespace Store

variable (s : Store) (ts : ℕ) (key : Bytes)

def Owns : Prop := ∃ l, s.getLock key = some l ∧ l.startTS = ts

def Older : Prop := ∃ l, s.getLock key = some l ∧ l.startTS < ts

def Wrote : Prop := ∃ c v, 0 < c ∧ (s.versions key).find c = some v ∧ v.startTS = ts

def Fresh : Prop := ∀ c v, (s.versions key).find c = some v → c ≤ ts

variable {s ts key}

theorem fresh_of_no_newest (h : s.newest key = none) : s.Fresh ts key := by
  intro c v hc
  rw [last_eq_none h] at hc
  cases hc

theorem fresh_of_newest {e : ℕ × Version} (h : s.newest key = some e) (hle : e.1 ≤ ts) : s.Fresh ts key :=
  fun c v hc => (Nat.isLE_compare.mp ((last_eq_some h).2 c v hc)).trans hle

theorem checkCommitted_spec : (∀ c v, (s.versions key).find c = some v → v.startTS = ts → c ≤ s.checkCommitted key ts) ∧
      (0 < s.checkCommitted key ts → s.Wrote ts key) := by
  unfold checkCommitted
  cases hnew : s.newest key with
  | none =>
    refine ⟨fun c v hc => ?_, fun h => absurd h (lt_irrefl 0)⟩
    rw [last_eq_none hnew] at hc
    cases hc
  | some e =>
    obtain ⟨c₀, v₀⟩ := e
    obtain ⟨hfind, hmax⟩ := last_eq_some hnew
    dsimp only
    by_cases hts : v₀.startTS = ts
    · rw [if_pos hts]
      exact ⟨fun c v hc _ => Nat.isLE_compare.mp (hmax c v hc), fun hpos => ⟨c₀, v₀, hpos, hfind, hts⟩⟩
    · rw [if_neg hts]
      cases hscan : (s.versions key).entries.reverse.find? fun e => e.2.startTS = ts with
      | none =>
        refine ⟨fun c v hc hv => ?_, fun h => absurd h (lt_irrefl 0)⟩
        have hmem := mem_reverse.mpr ((find_eq_some _).mp hc)
        have hne := find?_eq_none.mp hscan _ hmem
        exact absurd hv (by simpa using hne)
      | some e =>
        obtain ⟨hp, front, back, heq, hfront⟩ := find?_eq_some_iff_append.mp hscan
        have hp : e.2.startTS = ts := by simpa using hp
        have hmem : e ∈ (s.versions key).entries := by
          rw [← mem_reverse, heq]
          simp
        refine ⟨fun c v hc hv => ?_, fun hpos => ⟨e.1, e.2, hpos, (find_eq_some _).mpr hmem, hp⟩⟩
        -- the entries before `e` in the scan are newer, and are not of the transaction
        have hc' : (c, v) ∈ front ++ e :: back := by
          rw [← heq, mem_reverse]
          exact (find_eq_some _).mp hc
        rcases mem_append.mp hc' with hin | hin
        · exact absurd hv (by simpa using hfront _ hin)
        · rcases mem_cons.mp hin with heqv | hback
          · rw [← heqv]
          · have hsorted : SortedKeys ((front ++ e :: back).reverse) := by
              rw [← heq, reverse_reverse]
              exact (s.versions key).sorted
            have hdesc := pairwise_reverse.mp hsorted
            have hlt := rel_of_pairwise_cons (pairwise_append.mp hdesc).2.1 hback
            exact (Nat.compare_eq_lt.mp hlt).le

theorem checkCommitted_pos : 0 < s.checkCommitted key ts ↔ s.Wrote ts key := by
  refine ⟨checkCommitted_spec.2, ?_⟩
  rintro ⟨c, v, hpos, hc, hv⟩
  exact hpos.trans_le (checkCommitted_spec.1 c v hc hv)

theorem status_eq_none (hroll : (s.checkExtraTxnStatus key ts).isRollback = false)
    (hlock : (s.checkExtraTxnStatus key ts).isOpLockCommitted = false) : s.status key ts = none := by
  unfold checkExtraTxnStatus at hroll hlock
  cases hst : s.status key ts with
  | none => rfl
  | some c =>
    rw [hst] at hroll hlock
    by_cases hc : c = 0
    · simp [hc] at hroll
    · simp [hc, ExtraTxnStatus.isOpLockCommitted] at hlock

theorem status_of_isOpLockCommitted (h : (s.checkExtraTxnStatus key ts).isOpLockCommitted = true) :
    ∃ c, 0 < c ∧ s.status key ts = some c := by
  unfold checkExtraTxnStatus at h
  cases hst : s.status key ts with
  | none => simp [hst, ExtraTxnStatus.isOpLockCommitted] at h
  | some c =>
    rw [hst] at h
    refine ⟨c, ?_, rfl⟩
    by_contra hc
    simp [ExtraTxnStatus.isOpLockCommitted, Nat.eq_zero_of_not_pos hc] at h

end Store

/-! ## Batches -/

def lockAll (ls : List (Bytes × Lock)) : List Entry := ls.map fun p => .lock p.1 p.2

def commitAll (startTS commitTS : ℕ) (ls : List (Bytes × Lock)) : List Entry :=
  ls.flatMap fun p => commitEntries startTS commitTS p.1 p.2

def rollbackAll (startTS : ℕ) (ks : List (Bytes × Bool)) : List Entry :=
  ks.flatMap fun p => rollbackEntries startTS p.1 p.2

def unlockAll (ks : List Bytes) : List Entry := ks.map .unlock

section Batches

variable {ls : List (Bytes × Lock)} {ks : List (Bytes × Bool)} {keys : List Bytes} {startTS commitTS c ts : ℕ}
  {key : Bytes} {l : Lock} {v : Version}

@[simp] theorem lock_mem_lockAll : lock key l ∈ lockAll ls ↔ (key, l) ∈ ls := by simp [lockAll]

@[simp] theorem unlock_notMem_lockAll : unlock key ∉ lockAll ls := by simp [lockAll]

@[simp] theorem status_notMem_lockAll : status key ts c ∉ lockAll ls := by simp [lockAll]

@[simp] theorem version_notMem_lockAll : version key c v ∉ lockAll ls := by simp [lockAll]

@[simp] theorem lock_notMem_commitEntries {k : Bytes} {l' : Lock} :
    lock key l ∉ commitEntries startTS commitTS k l' := by
  unfold commitEntries
  cases l'.op <;> simp

@[simp] theorem unlock_mem_commitEntries {k : Bytes} {l' : Lock} :
    unlock key ∈ commitEntries startTS commitTS k l' ↔ key = k := by
  unfold commitEntries
  cases l'.op <;> simp

theorem version_mem_commitEntries {k : Bytes} {l' : Lock} (h : version key c v ∈ commitEntries startTS commitTS k l') :
    key = k ∧ c = commitTS ∧ v = ⟨startTS, l'.value⟩ ∧ (l'.op = .put ∨ l'.op = .del) := by
  unfold commitEntries at h
  cases hop : l'.op with
  | lock =>
    rw [hop] at h
    dsimp only at h
    split at h <;> simp at h
  | _ => simp_all

theorem status_mem_commitEntries {k : Bytes} {l' : Lock} (h : status key ts c ∈ commitEntries startTS commitTS k l') :
    key = k ∧ ts = startTS ∧ c = commitTS ∧ l'.op = .lock := by
  unfold commitEntries at h
  cases hop : l'.op with
  | lock => split at h <;> simp_all
  | _ => simp_all

@[simp] theorem lock_notMem_commitAll : lock key l ∉ commitAll startTS commitTS ls := by simp [commitAll]

@[simp] theorem unlock_mem_commitAll : unlock key ∈ commitAll startTS commitTS ls ↔ ∃ l, (key, l) ∈ ls := by
  simp [commitAll]

theorem version_mem_commitAll (h : version key c v ∈ commitAll startTS commitTS ls) :
    c = commitTS ∧ ∃ l, (key, l) ∈ ls ∧ v = ⟨startTS, l.value⟩ ∧ (l.op = .put ∨ l.op = .del) := by
  obtain ⟨p, hp, hmem⟩ := mem_flatMap.mp h
  obtain ⟨rfl, rfl, hv, hop⟩ := version_mem_commitEntries hmem
  exact ⟨rfl, p.2, hp, hv, hop⟩

theorem status_mem_commitAll (h : status key ts c ∈ commitAll startTS commitTS ls) :
    ts = startTS ∧ c = commitTS ∧ ∃ l, (key, l) ∈ ls ∧ l.op = .lock := by
  obtain ⟨p, hp, hmem⟩ := mem_flatMap.mp h
  obtain ⟨rfl, rfl, rfl, hop⟩ := status_mem_commitEntries hmem
  exact ⟨rfl, rfl, p.2, hp, hop⟩

@[simp] theorem lock_notMem_rollbackAll : lock key l ∉ rollbackAll startTS ks := by
  simp only [rollbackAll, rollbackEntries, mem_flatMap, not_exists, not_and]
  intro p _
  split <;> simp

@[simp] theorem version_notMem_rollbackAll : version key c v ∉ rollbackAll startTS ks := by
  simp only [rollbackAll, rollbackEntries, mem_flatMap, not_exists, not_and]
  intro p _
  split <;> simp

@[simp] theorem unlock_mem_rollbackAll : unlock key ∈ rollbackAll startTS ks ↔ (key, true) ∈ ks := by
  simp only [rollbackAll, rollbackEntries, mem_flatMap]
  constructor
  · rintro ⟨⟨k, d⟩, hp, hmem⟩
    cases d with
    | false => simp at hmem
    | true =>
      have hk : key = k := by simpa using hmem
      rw [hk]
      exact hp
  · intro h
    exact ⟨(key, true), h, by simp⟩

@[simp] theorem status_mem_rollbackAll :
    status key ts c ∈ rollbackAll startTS ks ↔ ts = startTS ∧ c = 0 ∧ ∃ d, (key, d) ∈ ks := by
  simp only [rollbackAll, rollbackEntries, mem_flatMap]
  constructor
  · rintro ⟨⟨k, d⟩, hp, hmem⟩
    have heq : key = k ∧ ts = startTS ∧ c = 0 := by cases d <;> simpa using hmem
    obtain ⟨rfl, rfl, rfl⟩ := heq
    exact ⟨rfl, rfl, d, hp⟩
  · rintro ⟨rfl, rfl, d, hd⟩
    exact ⟨(key, d), hd, mem_cons_self⟩

@[simp] theorem lock_notMem_unlockAll : lock key l ∉ unlockAll keys := by simp [unlockAll]

@[simp] theorem status_notMem_unlockAll : status key ts c ∉ unlockAll keys := by simp [unlockAll]

@[simp] theorem version_notMem_unlockAll : version key c v ∉ unlockAll keys := by simp [unlockAll]

theorem flatMap_lock (ls : List (Bytes × Lock)) : (ls.flatMap fun p => [lock p.1 p.2]) = lockAll ls :=
  map_eq_flatMap.symm

end Batches

end Unistore
