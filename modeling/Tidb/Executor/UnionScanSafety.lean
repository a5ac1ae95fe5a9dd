import Tidb.Executor.UnionScan
import Tidb.Lib.MergeOrder

/-!
# What a union scan returns

The rows that are left of the snapshot and the added rows are returned once each.  They are in scan order exactly when
the comparison of the executor puts two rows that meet in the merge in this order, which a clustered handle with
collators of its own can break.
-/

namespace Executor

open Tidb Tidb.Kv List

variable {E D C : Type}

namespace UnionScan

/-! ## The rows of a run without errors -/

section Rows

variable (us : UnionScan E D C)

def inMemBuf (row : List D) : Bool :=
  match us.checkKey row with
  | .ok key => us.memBufSnap key
  | .error _ => false

def kept (rows : List (List D)) : List (List D) := rows.filter fun row => !us.inMemBuf row

def snapshot (chunks : List (List (List D))) : List (List D) := if us.cacheTable then [] else us.kept chunks.flatten

def picks (row added : List D) : Bool :=
  match us.shouldPickFirstRow row added with
  | .ok pick => pick
  | .error _ => false

def filled (row : List D) : List D :=
  match us.fillVirtual row with
  | .ok row => row
  | .error _ => row

structure Succeeds (snapshotRows addedRows : List (List D)) : Prop where
  checkKey : ∀ row ∈ snapshotRows, ∃ key, us.checkKey row = .ok key
  compare : ∀ row ∈ snapshotRows, ∀ added ∈ addedRows, ∃ pick, us.shouldPickFirstRow row added = .ok pick
  fill : ∀ row ∈ snapshotRows ++ addedRows, ∃ filled, us.fillVirtual row = .ok filled

end Rows

variable {us : UnionScan E D C} {S A : List (List D)} {s s' : State D}

/-! ## Batches -/

theorem keepRows_eq {rows : List (List D)} (h : ∀ row ∈ rows, ∃ key, us.checkKey row = .ok key) :
    us.keepRows rows = .ok (us.kept rows) := by
  induction rows with
  | nil => rfl
  | cons row rows ih =>
    obtain ⟨key, hkey⟩ := h row mem_cons_self
    have hin : us.inMemBuf row = us.memBufSnap key := by
      unfold inMemBuf
      rw [hkey]
    have hrest := ih fun r hr => h r (mem_cons_of_mem row hr)
    unfold kept at hrest ⊢
    rw [keepRows, hkey, hrest, filter_cons, hin]
    show Except.ok (if us.memBufSnap key = true then _ else _) = _
    cases us.memBufSnap key <;> rfl

theorem nextBatch_spec (chunks : List (List (List D))) (hne : ∀ chunk ∈ chunks, chunk ≠ [])
    (hkey : ∀ row ∈ chunks.flatten, ∃ key, us.checkKey row = .ok key) :
    ∃ rows rest, us.nextBatch chunks = .ok (rows, rest) ∧ us.kept chunks.flatten = rows ++ us.kept rest.flatten ∧
      (rows = [] → rest = []) ∧ rest <:+ chunks ∧ ∀ row ∈ rows, row ∈ chunks.flatten := by
  induction chunks with
  | nil => exact ⟨[], [], rfl, rfl, fun _ => rfl, suffix_refl [], fun row hrow => by cases hrow⟩
  | cons chunk chunks ih =>
    have hchunk := keepRows_eq fun row hrow => hkey row (mem_append_left _ hrow)
    have hsplit : us.kept (chunk :: chunks).flatten = us.kept chunk ++ us.kept chunks.flatten := by
      rw [flatten_cons, kept, filter_append]
      rfl
    cases chunk with
    | nil => exact absurd rfl (hne [] mem_cons_self)
    | cons first rows =>
      rw [nextBatch.eq_def, hsplit]
      dsimp only
      rw [hchunk]
      cases hkept : us.kept (first :: rows) with
      | nil =>
        -- the whole chunk is dropped
        obtain ⟨out, rest, hout, hflat, hend, hsuffix, hmem⟩ := ih
          (fun chunk hmem => hne chunk (mem_cons_of_mem _ hmem))
          fun row hrow => hkey row (mem_append_right _ hrow)
        refine ⟨out, rest, hout, hflat, hend, hsuffix.trans (suffix_cons _ _), fun row hrow => ?_⟩
        exact mem_append_right _ (hmem row hrow)
      | cons row out =>
        refine ⟨row :: out, chunks, rfl, rfl, (fun h => by cases h), suffix_cons _ _, fun r hr => ?_⟩
        rw [← hkept] at hr
        exact mem_append_left _ (mem_of_mem_filter hr)

/-! ## One row -/

structure Inv (S A : List (List D)) (s : State D) : Prop where
  nonempty : ∀ chunk ∈ s.child, chunk ≠ []
  child : ∀ row ∈ s.child.flatten, row ∈ S
  snapshotRows : ∀ row ∈ s.snapshotRows, row ∈ S
  addedRows : ∀ row ∈ s.addedRows, row ∈ A

variable (us) in
def pendingSnapshot (s : State D) : List (List D) :=
  if us.cacheTable then [] else s.snapshotRows.drop s.cursor4SnapshotRows ++ us.kept s.child.flatten

def pendingAdded (s : State D) : List (List D) := s.addedRows.drop s.cursor4AddRows

variable (us) in
def view (s : State D) : List (List D) := (us.pendingSnapshot s).merge (pendingAdded s) us.picks

structure Fetched (us : UnionScan E D C) (S A : List (List D)) (s s' : State D) : Prop where
  inv : Inv S A s'
  pending : us.pendingSnapshot s' = us.pendingSnapshot s
  added : pendingAdded s' = pendingAdded s
  head : us.cacheTable = false → s'.snapshotRows[s'.cursor4SnapshotRows]? = (us.pendingSnapshot s).head?

theorem getSnapshotRow_spec (hok : us.Succeeds S A) (h : Inv S A s) :
    ∃ s', us.getSnapshotRow s = .ok ((us.pendingSnapshot s).head?, s') ∧ Fetched us S A s s' := by
  unfold getSnapshotRow
  by_cases hcache : us.cacheTable = true
  · rw [if_pos hcache]
    refine ⟨s, ?_, h, rfl, rfl, fun hfalse => by rw [hcache] at hfalse; cases hfalse⟩
    rw [pendingSnapshot, if_pos hcache]
    rfl
  · rw [if_neg hcache]
    have hpending : ∀ s, us.pendingSnapshot s = s.snapshotRows.drop s.cursor4SnapshotRows ++
      us.kept s.child.flatten := by
      intro s
      rw [pendingSnapshot, if_neg hcache]
    cases hrow : s.snapshotRows[s.cursor4SnapshotRows]? with
    | some row =>
      have hhead : (us.pendingSnapshot s).head? = some row := by
        rw [hpending, head?_append, head?_drop, hrow]
        rfl
      exact ⟨s, by rw [hhead], h, rfl, rfl, fun _ => by rw [hrow, hhead]⟩
    | none =>
      -- the batch is used up: the next one is read
      have hdrop : s.snapshotRows.drop s.cursor4SnapshotRows = [] :=
        drop_eq_nil_of_le (getElem?_eq_none_iff.mp hrow)
      obtain ⟨rows, rest, hbatch, hkept, hend, hsuffix, hmem⟩ :=
        nextBatch_spec s.child h.nonempty fun row hrow => hok.checkKey row (h.child row hrow)
      rw [hbatch]
      have hs : us.pendingSnapshot s = rows ++ us.kept rest.flatten := by rw [hpending, hdrop, hkept, nil_append]
      have hhead : (us.pendingSnapshot s).head? = rows.head? := by
        rw [hs]
        cases rows with
        | nil =>
          rw [hend rfl]
          rfl
        | cons row rows => rfl
      refine ⟨{ s with cursor4SnapshotRows := 0, snapshotRows := rows, child := rest }, by rw [hhead], ⟨?_, ?_, ?_, ?_⟩,
        ?_, rfl, ?_⟩
      · exact fun chunk hchunk => h.nonempty chunk (hsuffix.mem hchunk)
      · intro row hrow
        obtain ⟨chunk, hchunk, hrow⟩ := mem_flatten.mp hrow
        exact h.child row (mem_flatten.mpr ⟨chunk, hsuffix.mem hchunk, hrow⟩)
      · exact fun row hrow => h.child row (hmem row hrow)
      · exact h.addedRows
      · rw [hs, hpending, drop_zero]
      · intro _
        rw [hhead, head?_eq_getElem?]

theorem pendingSnapshot_next {row : List D} (hcache : us.cacheTable = false)
    (hrow : s.snapshotRows[s.cursor4SnapshotRows]? = some row) :
    us.pendingSnapshot { s with cursor4SnapshotRows := s.cursor4SnapshotRows + 1 } = (us.pendingSnapshot s).tail := by
  have hneg : ¬ us.cacheTable = true := by
    rw [hcache]
    exact Bool.false_ne_true
  obtain ⟨hlt, -⟩ := List.getElem?_eq_some_iff.mp hrow
  rw [pendingSnapshot, pendingSnapshot, if_neg hneg, if_neg hneg, drop_eq_getElem_cons hlt, cons_append, tail_cons]

theorem pendingAdded_next (s : State D) :
    pendingAdded { s with cursor4AddRows := s.cursor4AddRows + 1 } = (pendingAdded s).tail := by
  unfold pendingAdded
  rw [tail_drop]

theorem pendingSnapshot_mem (h : Inv S A s) : ∀ row ∈ us.pendingSnapshot s, row ∈ S := by
  intro row hrow
  unfold pendingSnapshot at hrow
  split at hrow
  · cases hrow
  · rcases mem_append.mp hrow with hrow | hrow
    · exact h.snapshotRows row (mem_of_mem_drop hrow)
    · exact h.child row (mem_of_mem_filter hrow)

theorem pendingAdded_mem (h : Inv S A s) : ∀ row ∈ pendingAdded s, row ∈ A :=
  fun row hrow => h.addedRows row (mem_of_mem_drop hrow)

theorem getOneRow_spec (hok : us.Succeeds S A) (h : Inv S A s) :
    ∃ s', us.getOneRow s = .ok ((us.view s).head?, s') ∧ Inv S A s' ∧ us.view s' = (us.view s).tail := by
  obtain ⟨s₁, hs₁, hf⟩ := getSnapshotRow_spec hok h
  have hadded : getAddedRow s₁ = (pendingAdded s).head? := by
    rw [← hf.added, pendingAdded, head?_drop]
    rfl
  have hsnap : ∀ row ∈ us.pendingSnapshot s, row ∈ S := pendingSnapshot_mem h
  have hadd := pendingAdded_mem h
  -- taking a row from the snapshot rows, or from the added ones
  have hfirst : ∀ {row rows}, us.pendingSnapshot s = row :: rows →
      Inv S A { s₁ with cursor4SnapshotRows := s₁.cursor4SnapshotRows + 1 } ∧
        us.view { s₁ with cursor4SnapshotRows := s₁.cursor4SnapshotRows + 1 } =
        rows.merge (pendingAdded s) us.picks := by
    intro row rows hrows
    have hcache : us.cacheTable = false := by
      by_contra hne
      rw [pendingSnapshot, if_pos (Bool.eq_true_of_not_eq_false hne)] at hrows
      cases hrows
    have hrow := hf.head hcache
    rw [hrows] at hrow
    refine ⟨⟨hf.inv.nonempty, hf.inv.child, hf.inv.snapshotRows, hf.inv.addedRows⟩, ?_⟩
    rw [view, pendingSnapshot_next hcache hrow, hf.pending, hrows]
    exact congrArg (fun l => rows.merge l us.picks) hf.added
  have hsecond : Inv S A { s₁ with cursor4AddRows := s₁.cursor4AddRows + 1 } ∧ us.view { s₁ with cursor4AddRows :=
      s₁.cursor4AddRows + 1 } = (us.pendingSnapshot s).merge (pendingAdded s).tail us.picks := by
    refine ⟨⟨hf.inv.nonempty, hf.inv.child, hf.inv.snapshotRows, hf.inv.addedRows⟩, ?_⟩
    rw [view, pendingAdded_next, hf.added, ← hf.pending]
    rfl
  unfold getOneRow
  rw [hs₁]
  dsimp only
  rw [hadded]
  unfold view
  cases hS : us.pendingSnapshot s with
  | nil =>
    cases hA : pendingAdded s with
    | nil =>
      rw [nil_merge]
      refine ⟨s₁, rfl, hf.inv, ?_⟩
      rw [hf.pending, hf.added, hS, hA, nil_merge]
      rfl
    | cons added rest =>
      rw [nil_merge]
      refine ⟨_, rfl, hsecond.1, hsecond.2.trans ?_⟩
      rw [hS, hA, nil_merge]
  | cons row rows =>
    cases hA : pendingAdded s with
    | nil =>
      rw [merge_right]
      refine ⟨_, rfl, (hfirst hS).1, (hfirst hS).2.trans ?_⟩
      rw [hA, merge_right, tail_cons]
    | cons added rest =>
      obtain ⟨pick, hpick⟩ := hok.compare row (hsnap row (by rw [hS]; exact mem_cons_self)) added
        (hadd added (by rw [hA]; exact mem_cons_self))
      have hpicks : us.picks row added = pick := by
        unfold picks
        rw [hpick]
      dsimp only [head?_cons]
      rw [hpick]
      cases pick with
      | true =>
        rw [cons_merge_cons_pos _ _ _ hpicks]
        refine ⟨_, rfl, (hfirst hS).1, (hfirst hS).2.trans ?_⟩
        rw [hA, tail_cons]
      | false =>
        rw [cons_merge_cons_neg _ _ _ (by rw [hpicks]; exact Bool.false_ne_true)]
        refine ⟨_, rfl, hsecond.1, hsecond.2.trans ?_⟩
        rw [hS, hA, tail_cons, tail_cons]

/-! ## Chunks -/

variable (us) in
def result (p : List D → Bool) (row : List D) : Option (List D) :=
  if p (us.filled row) then some (us.filled row) else none

theorem resultRow_eq (p : List D → Bool) {row filled : List D} (h : us.fillVirtual row = .ok filled) :
    us.resultRow (fun row => .ok (p row)) row = .ok (us.result p row) := by
  have hfilled : us.filled row = filled := by
    unfold UnionScan.filled
    rw [h]
  unfold resultRow result
  rw [h, hfilled]
  rfl

theorem view_mem (h : Inv S A s) : ∀ row ∈ us.view s, row ∈ S ++ A := by
  intro row hrow
  rcases mem_merge.mp hrow with hrow | hrow
  · exact mem_append_left _ (pendingSnapshot_mem h row hrow)
  · exact mem_append_right _ (pendingAdded_mem h row hrow)

theorem nextLoop_spec (hok : us.Succeeds S A) (p : List D → Bool) {batchSize : ℕ} (fuel : ℕ) :
    ∀ {s : State D} (req : List (List D)), Inv S A s → (us.view s).length < fuel →
    ∃ out s', us.nextLoop (fun row => .ok (p row)) batchSize fuel s req = some (.ok (req ++ out, s')) ∧ Inv S A s' ∧
      (us.view s).filterMap (us.result p) = out ++ (us.view s').filterMap (us.result p) ∧
      ((req ++ out).length < batchSize → us.view s' = []) ∧ (us.view s').length ≤ (us.view s).length := by
  induction fuel with
  | zero => exact fun _ _ hlt => absurd hlt (Nat.not_lt_zero _)
  | succ fuel ih =>
    intro s req h hlt
    rw [nextLoop]
    by_cases hfull : req.length < batchSize
    · rw [if_pos hfull]
      obtain ⟨s₁, hs₁, hinv, hview⟩ := getOneRow_spec hok h
      rw [hs₁]
      cases hv : us.view s with
      | nil =>
        rw [hv, tail_nil] at hview
        refine ⟨[], s₁, by rw [append_nil]; rfl, hinv, ?_, fun _ => hview, by rw [hview]⟩
        rw [hview]
        rfl
      | cons row rows =>
        have hrow : row ∈ us.view s := by
          rw [hv]
          exact mem_cons_self
        have hmem : row ∈ S ++ A := view_mem h row hrow
        obtain ⟨filled, hfilled⟩ := hok.fill row hmem
        rw [hv, tail_cons] at hview
        rw [hv, length_cons] at hlt
        dsimp only [head?_cons]
        rw [resultRow_eq p hfilled]
        dsimp only
        obtain ⟨out, s', hout, hinv', hflat, hend, hle⟩ :=
          ih (req ++ (us.result p row).toList) hinv (by rw [hview]; omega)
        refine ⟨(us.result p row).toList ++ out, s', ?_, hinv', ?_, ?_, ?_⟩
        · rw [hout, append_assoc]
        · rw [append_assoc, ← hflat, hview, filterMap_cons]
          cases us.result p row <;> rfl
        · rw [← append_assoc]
          exact hend
        · rw [hview] at hle
          exact hle.trans (Nat.le_succ _)
    · rw [if_neg hfull]
      refine ⟨[], s, by rw [append_nil], h, rfl, fun hlt' => ?_, le_refl _⟩
      rw [append_nil] at hlt'
      exact absurd hlt' hfull

theorem drain_spec (hok : us.Succeeds S A) (p : List D → Bool) {fuel : ℕ} (calls : ℕ) :
    ∀ {s : State D} {capacities : ℕ → ℕ}, (∀ n, 0 < capacities n) → Inv S A s → (us.view s).length < fuel →
    ((us.view s).filterMap (us.result p)).length < calls →
    us.drain (fun row => .ok (p row)) fuel calls capacities s = some (.ok ((us.view s).filterMap (us.result p))) := by
  induction calls with
  | zero => exact fun _ _ _ hlt => absurd hlt (Nat.not_lt_zero _)
  | succ calls ih =>
    intro s capacities hcap h hfuel hcalls
    obtain ⟨out, s', hout, hinv, hflat, hend, hle⟩ := @nextLoop_spec _ _ _ us S A hok p (capacities 0) fuel s [] h hfuel
    rw [nil_append] at hout hend
    rw [drain, next, hout]
    cases out with
    | nil =>
      -- an empty chunk is not full, so nothing is left
      rw [hflat, hend (hcap 0)]
      rfl
    | cons row rows =>
      dsimp only
      rw [hflat, length_append, length_cons] at hcalls
      rw [ih (fun n => hcap (n + 1)) hinv (by omega) (by omega), hflat]
      rfl

/-! ## Scan order -/

section Order

variable (us : UnionScan E D C)

/-- How the collator at `ctor` compares a column of two rows. -/
def columnCmp (ctor colOff : ℕ) (a b : List D) : ℤ :=
  match us.collators[ctor]?, a[colOff]?, b[colOff]? with
  | some collator, some aColumn, some bColumn =>
    match us.lib.compare collator aColumn bColumn with
    | .ok cmp => cmp
    | .error _ => 0
  | _, _, _ => 0

/-- The first column that tells two rows apart decides. -/
def lexCmp (cmps : List ℤ) : ℤ := (cmps.find? fun cmp => cmp ≠ 0).getD 0

def goesFirst (cmp : ℤ) : Prop := if us.desc then 0 < cmp else cmp < 0

instance decidableGoesFirst (cmp : ℤ) : Decidable (us.goesFirst cmp) :=
  inferInstanceAs (Decidable (if us.desc then 0 < cmp else cmp < 0))

/-- The scan order: the columns of the used index, then those of the handle, each under its own collation. -/
def before (a b : List D) : Prop :=
  us.goesFirst (lexCmp ((us.usedIndex ++ us.belowHandleCols.columns).map fun colOff => us.columnCmp colOff colOff a b))

instance decidableBefore (a b : List D) : Decidable (us.before a b) :=
  inferInstanceAs (Decidable (us.goesFirst _))

/-- Where the used index does not tell two rows apart, the columns of a clustered handle put them in the same order
under the first collators of the row as under the collators of their own. -/
def CollatorsAgree (a b : List D) : Prop :=
  ∀ columns, us.belowHandleCols = .common columns → (∀ colOff ∈ us.usedIndex, us.columnCmp colOff colOff a b = 0) →
    (us.goesFirst (lexCmp (columns.zipIdx.map fun col => us.columnCmp col.2 col.1 a b)) ↔
      us.goesFirst (lexCmp (columns.map fun colOff => us.columnCmp colOff colOff a b)))

end Order

theorem lexCmp_cons (cmp : ℤ) (cmps : List ℤ) : lexCmp (cmp :: cmps) = if cmp ≠ 0 then cmp else lexCmp cmps := by
  by_cases h : cmp = 0 <;> simp [lexCmp, h]

theorem lexCmp_eq_zero (cmps : List ℤ) : lexCmp cmps = 0 ↔ ∀ cmp ∈ cmps, cmp = 0 := by
  induction cmps with
  | nil => simp [lexCmp]
  | cons cmp cmps ih =>
    rw [lexCmp_cons, forall_mem_cons, ← ih]
    by_cases h : cmp = 0 <;> simp [h]

theorem lexCmp_append (cmps cmps' : List ℤ) :
    lexCmp (cmps ++ cmps') = if ∀ cmp ∈ cmps, cmp = 0 then lexCmp cmps' else lexCmp cmps := by
  induction cmps with
  | nil => simp
  | cons cmp cmps ih =>
    rw [cons_append, lexCmp_cons, lexCmp_cons, ih]
    by_cases h : cmp = 0 <;> simp [h]

theorem compareColumns_ok {a b : List D} {cols : List (ℕ × ℕ)} {cmp : ℤ} (h : us.compareColumns a b cols = .ok cmp) :
    cmp = lexCmp (cols.map fun col => us.columnCmp col.2 col.1 a b) := by
  induction cols with
  | nil =>
    cases h
    rfl
  | cons col cols ih =>
    obtain ⟨colOff, ctor⟩ := col
    unfold compareColumns nth at h
    rw [map_cons, lexCmp_cons]
    unfold columnCmp
    dsimp only
    -- an error on the way is the result
    cases ha : a[colOff]? with
    | none => simp [ha, bind, Except.bind] at h
    | some aColumn =>
      cases hb : b[colOff]? with
      | none => simp [ha, hb, bind, Except.bind] at h
      | some bColumn =>
        cases hc : us.collators[ctor]? with
        | none => simp [ha, hb, hc, bind, Except.bind] at h
        | some collator =>
          cases hcmp : us.lib.compare collator aColumn bColumn with
          | error err => simp [ha, hb, hc, hcmp, bind, Except.bind, Except.mapError] at h
          | ok z =>
            simp only [ha, hb, hc, hcmp, bind, Except.bind, Except.mapError] at h ⊢
            split at h
            · rw [if_pos ‹_›]
              exact (Except.ok.inj h).symm
            · rw [if_neg ‹_›]
              exact ih h

theorem compare_ok {a b : List D} {cmp : ℤ} (h : us.compare a b = .ok cmp) :
    cmp = lexCmp ((us.usedIndex.map fun colOff => us.columnCmp colOff colOff a b) ++
      us.belowHandleCols.compareColumns.map fun col => us.columnCmp col.2 col.1 a b) := by
  unfold compare at h
  cases hused : us.compareColumns a b (us.usedIndex.map fun colOff => (colOff, colOff)) with
  | error err =>
    rw [hused] at h
    cases h
  | ok used =>
    rw [hused] at h
    have hlex := compareColumns_ok hused
    rw [map_map] at hlex
    have hzero : (∀ z ∈ us.usedIndex.map fun colOff => us.columnCmp colOff colOff a b, z = 0) ↔ used = 0 := by
      rw [hlex]
      exact (lexCmp_eq_zero _).symm
    rw [lexCmp_append]
    change (if used ≠ 0 then Except.ok used else us.compareColumns a b us.belowHandleCols.compareColumns) = _ at h
    split at h
    · rw [if_neg (mt hzero.mp ‹_›)]
      exact (Except.ok.inj h).symm.trans hlex
    · rw [if_pos (hzero.mpr (not_not.mp ‹_›))]
      exact compareColumns_ok h

section Agree

variable {a b : List D}

theorem collatorsAgree_of_int {col : ℕ} (h : us.belowHandleCols = .int col) : us.CollatorsAgree a b := by
  intro columns hcolumns
  cases h.symm.trans hcolumns

theorem collatorsAgree_of_usedIndex (h : ¬ ∀ colOff ∈ us.usedIndex, us.columnCmp colOff colOff a b = 0) :
    us.CollatorsAgree a b :=
  fun _ _ htie => absurd htie h

theorem collatorsAgree_of_eq
    (h : ∀ columns, us.belowHandleCols = .common columns → ∀ i colOff : ℕ, columns[i]? = some colOff →
      us.collators[i]? = us.collators[colOff]?) : us.CollatorsAgree a b := by
  intro columns hcolumns _
  have heq : (columns.zipIdx.map fun col => us.columnCmp col.2 col.1 a b) =
      columns.map fun colOff => us.columnCmp colOff colOff a b := by
    refine ext_getElem? fun i => ?_
    rw [getElem?_map, getElem?_map, getElem?_zipIdx, Option.map_map]
    cases hcol : columns[i]? with
    | none => rfl
    | some colOff =>
      simp only [Option.map_some, Function.comp_apply, zero_add]
      unfold columnCmp
      rw [h columns hcolumns i colOff hcol]
  rw [heq]

/-- `shouldPickFirstRow` is right exactly where the collators agree. -/
theorem picks_iff_before (hok : ∃ pick, us.shouldPickFirstRow a b = .ok pick) :
    (us.picks a b = true ↔ us.before a b) ↔ us.CollatorsAgree a b := by
  obtain ⟨pick, hpick⟩ := hok
  have hpicks : us.picks a b = true ↔ us.goesFirst (lexCmp ((us.usedIndex.map fun colOff =>
      us.columnCmp colOff colOff a b) ++
      us.belowHandleCols.compareColumns.map fun col => us.columnCmp col.2 col.1 a b)) := by
    unfold picks
    rw [hpick]
    unfold shouldPickFirstRow at hpick
    cases hcmp : us.compare a b with
    | error err =>
      rw [hcmp] at hpick
      cases hpick
    | ok cmp =>
      rw [hcmp] at hpick
      cases hpick
      rw [← compare_ok hcmp]
      unfold goesFirst
      cases us.desc <;> simp
  have hused : (∀ cmp ∈ us.usedIndex.map fun colOff => us.columnCmp colOff colOff a b, cmp = 0) ↔
      ∀ colOff ∈ us.usedIndex, us.columnCmp colOff colOff a b = 0 := forall_mem_map
  rw [hpicks, before, map_append, lexCmp_append, lexCmp_append]
  rw [if_congr hused rfl rfl, if_congr hused rfl rfl]
  cases hcols : us.belowHandleCols with
  | int col => exact iff_of_true Iff.rfl (collatorsAgree_of_int hcols)
  | common columns =>
    by_cases htie : ∀ colOff ∈ us.usedIndex, us.columnCmp colOff colOff a b = 0
    · rw [if_pos htie, if_pos htie]
      constructor
      · intro h columns' hcols' _
        cases hcols.symm.trans hcols'
        exact h
      · exact fun h => h columns hcols htie
    · rw [if_neg htie, if_neg htie]
      exact iff_of_true Iff.rfl (collatorsAgree_of_usedIndex htie)

end Agree

theorem mem_of_mem_snapshot {chunks : List (List (List D))} {row : List D} (h : row ∈ us.snapshot chunks) :
    row ∈ chunks.flatten := by
  unfold snapshot at h
  split at h
  · cases h
  · exact mem_of_mem_filter h

theorem filterMap_result (p : List D → Bool) (rows : List (List D)) :
    rows.filterMap (us.result p) = (rows.map us.filled).filter p := by
  induction rows with
  | nil => rfl
  | cons row rows ih =>
    rw [filterMap_cons, map_cons, filter_cons, ih, result]
    cases p (us.filled row) <;> rfl

theorem pairwise_filled {rows : List (List D)}
    (hfill : ∀ a ∈ rows, ∀ b ∈ rows, us.before (us.filled a) (us.filled b) ↔ us.before a b) :
    (rows.map us.filled).Pairwise us.before ↔ rows.Pairwise us.before := by
  rw [pairwise_map]
  constructor
  · exact fun h => h.imp_of_mem fun ha hb => (hfill _ ha _ hb).mp
  · exact fun h => h.imp_of_mem fun ha hb => (hfill _ ha _ hb).mpr

end UnionScan

/-! ## Letters -/

def letterKey (ignoreCase : Bool) (letter : ℕ) : ℤ := if ignoreCase && letter < 0x60 then letter + 0x20 else letter

def letterLib : DatumLib Empty ℕ Bool where
  compare ignoreCase a b := .ok (letterKey ignoreCase a - letterKey ignoreCase b)
  getInt64 _ := 0
  commonHandle _ := .ok (.int 0)
  evalVirtualColumn _ _ := .ok 0
  castValue _ d := .ok d
  isNull _ := false
  zeroValue _ := 0

def letterScan (belowHandleCols : HandleCols) (collators : List Bool) : UnionScan Empty ℕ Bool :=
  ⟨letterLib, fun _ => false, [], false, fun _ => false, [], belowHandleCols, [], false, collators, none⟩

namespace UnionScan

end UnionScan

end Executor
