import Tidb.Tablecodec.RowKey

/-!
# The keys of indexes (`tablecodec/tablecodec.go`)

An index key is `t{tableID}_i{indexID}{columns}`, followed by the handle unless the index is unique and no column is
NULL.  The values are as `TruncateIndexValues` leaves them.
-/

namespace Tidb.Tablecodec

open GoLang ByteNum Tidb.Codec Tidb.Types Tidb.Kv List Outcome

def indexPrefixSep : Bytes := [0x5F, 0x69]

def appendTableIndexPrefix (buf : Bytes) (tableID : Int64) : Bytes :=
  encodeInt (buf ++ tablePrefix) tableID ++ indexPrefixSep

def encodeIndexSeekKey (tableID idxID : Int64) (encodedValue : Bytes) : Bytes :=
  encodeInt (appendTableIndexPrefix [] tableID) idxID ++ encodedValue

def genIndexKey (env : Env) (sc : Option StatementContext) (unique : Bool) (idxID phyTblID : Int64)
    (indexedValues : List Datum) (h : Option Handle) : Res (Bytes × Bool) := do
  let distinct := unique && indexedValues.all (!·.isNull)
  let key := encodeInt (appendTableIndexPrefix [] phyTblID) idxID
  let key ← encodeKey env sc key indexedValues
  match distinct, h with
  | false, some (.int v) => do
    let key ← encodeKey env sc key [.int64 v]
    return (key, distinct)
  | false, some (.common ch) => return (key ++ ch.encoded, distinct)
  | _, _ => return (key, distinct)

section Order

variable {env : Env} {sc : Option StatementContext} {unique distinct : Bool} {idxID tableID : Int64}
  {Ts : List ColumnType} {u v : List Datum} {cs cs' : List Bytes} {h h' : Handle} {key : Bytes}

/-- What follows the columns. -/
def handleTail (distinct : Bool) (h : Handle) : Bytes :=
  match distinct, h with
  | true, _ => []
  | false, .int v => intFlag :: encodeInt [] v
  | false, .common ch => ch.encoded

theorem genIndexKey_ok (hkey : genIndexKey env sc unique idxID tableID u (some h) = .ok (key, distinct)) :
    distinct = (unique && u.all (!·.isNull)) ∧ ∃ cs, Forall₂ (Code env sc true) u cs ∧
      key = encodeIndexSeekKey tableID idxID (cs.flatten ++ handleTail distinct h) := by
  obtain ⟨key', hcols, hkey⟩ := bind_eq_ok.mp hkey
  obtain ⟨cs, hcs, rfl⟩ := encode_codes hcols
  simp only [encodeIndexSeekKey, ← append_assoc]
  cases hdist : unique && u.all (!·.isNull) with
  | true =>
    rw [hdist] at hkey
    cases hkey
    exact ⟨rfl, cs, hcs, (append_nil _).symm⟩
  | false =>
    rw [hdist] at hkey
    cases h with
    | int v =>
      cases hkey
      exact ⟨rfl, cs, hcs, by simp [handleTail, encodeSignedInt, encodeInt]⟩
    | common ch =>
      cases hkey
      exact ⟨rfl, cs, hcs, rfl⟩

theorem encodeIndexSeekKey_eq (tableID idxID : Int64) (b : Bytes) : encodeIndexSeekKey tableID idxID b =
    0x74 :: (encodeInt [] tableID ++ 0x5F :: 0x69 :: (encodeInt [] idxID ++ b)) := by
  simp [encodeIndexSeekKey, appendTableIndexPrefix, encodeInt, tablePrefix, indexPrefixSep]

theorem compare_encodeIndexSeekKey (tableID tableID' idxID idxID' : Int64) (b b' : Bytes) :
    compare (encodeIndexSeekKey tableID idxID b) (encodeIndexSeekKey tableID' idxID' b') =
      (compare tableID.toInt tableID'.toInt).then ((compare idxID.toInt idxID'.toInt).then (compare b b')) := by
  rw [encodeIndexSeekKey_eq, encodeIndexSeekKey_eq, List.compare_cons_cons,
    orderedCode_encodeInt tableID tableID' trivial trivial, List.compare_cons_cons, List.compare_cons_cons,
    orderedCode_encodeInt idxID idxID' trivial trivial]
  rfl

theorem compare_handleTail {o : Ordering} (hcmp : h.compare h' = .ok o) (distinct : Bool) :
    compare (handleTail distinct h) (handleTail distinct h') = if distinct then .eq else o := by
  cases distinct with
  | true => rfl
  | false =>
    cases h with
    | int v =>
      cases h' with
      | int w =>
        cases hcmp
        exact (orderedCode_encodeInt.tag intFlag).compare_eq trivial trivial
      | common ch => cases hcmp
    | common ch =>
      cases h' with
      | int w => cases hcmp
      | common ch' =>
        cases hcmp
        rfl

theorem compare_nullable_codes (hu : Forall₂ ColumnType.Nullable Ts u) (hv : Forall₂ ColumnType.Nullable Ts v)
    (hcs : Forall₂ (Code env sc true) u cs) (hcs' : Forall₂ (Code env sc true) v cs') (x y : Bytes) :
    compare (cs.flatten ++ x) (cs'.flatten ++ y) = (compareRow env sc u v).then (compare x y) := by
  have hrank {T : ColumnType} {d : Datum} (hd : T.Nullable d) : rank d ≠ 1 := by
    rcases hd with rfl | hd
    · decide
    · rw [hd.rank_eq]
      decide
  induction hu generalizing v cs cs' with
  | nil =>
    cases hv
    cases hcs
    cases hcs'
    rfl
  | cons hd _ ih =>
    cases hv with | cons he hv =>
    cases hcs with | cons hc hcs =>
    cases hcs' with | cons hc' hcs' =>
    rw [flatten_cons, flatten_cons, append_assoc, append_assoc, compare_code_slot (.inl hd) (.inl he) hc hc'
      (absurd · (hrank hd)) (absurd · (hrank he)), ih hv hcs hcs', compareRow, Ordering.then_assoc]

theorem all_isNull_of_compareRow (hu : Forall₂ ColumnType.Nullable Ts u) (hv : Forall₂ ColumnType.Nullable Ts v)
    (hcmp : compareRow env sc u v = .eq) : u.all (!·.isNull) = v.all (!·.isNull) := by
  have hnull {T : ColumnType} {d : Datum} (hd : T.Nullable d) : d.isNull = (rank d == 0) := by
    rcases hd with rfl | hd
    · rfl
    · cases hd <;> rfl
  induction hu generalizing v with
  | nil =>
    cases hv
    rfl
  | cons hd _ ih =>
    cases hv with | cons he hv =>
    rw [compareRow, Ordering.then_eq_eq, compareDatum, Ordering.then_eq_eq, Nat.compare_eq_eq] at hcmp
    rw [all_cons, all_cons, ih hv hcmp.2, hnull hd, hnull he, hcmp.1.1]

/-- Keys of indexes are ordered by the table, the index, the columns and, where they are not distinct, the handle, and
come before the rows of the table.  So two rows share a key of a unique index exactly if their columns are equal and
not NULL, or their handles are equal too. -/
theorem genIndexKey_order {tableID' idxID' : Int64} {key' : Bytes} {distinct' : Bool} {o : Ordering}
    (hu : Forall₂ ColumnType.Nullable Ts u) (hv : Forall₂ ColumnType.Nullable Ts v) (hcmp : h.compare h' = .ok o)
    (hkey : genIndexKey env sc unique idxID tableID u (some h) = .ok (key, distinct))
    (hkey' : genIndexKey env sc unique idxID' tableID' v (some h') = .ok (key', distinct')) :
    compare key key' = (compare tableID.toInt tableID'.toInt).then ((compare idxID.toInt idxID'.toInt).then
      ((compareRow env sc u v).then (if distinct then .eq else o))) ∧
    (key = key' ↔ (tableID = tableID' ∧ idxID = idxID') ∧ compareRow env sc u v = .eq ∧
      (unique = true ∧ (∀ d ∈ u, d.isNull = false) ∨ o = .eq)) ∧
    ∀ tableID' b, compare key (encodeRowKey tableID' b) = (compare tableID.toInt tableID'.toInt).then .lt := by
  obtain ⟨hdist, cs, hcs, rfl⟩ := genIndexKey_ok hkey
  obtain ⟨hdist', cs', hcs', rfl⟩ := genIndexKey_ok hkey'
  have hrows : compare (cs.flatten ++ handleTail distinct h) (cs'.flatten ++ handleTail distinct' h') =
      (compareRow env sc u v).then (if distinct then .eq else o) := by
    rw [compare_nullable_codes hu hv hcs hcs']
    cases hrow : compareRow env sc u v with
    | lt => rfl
    | gt => rfl
    | eq =>
      -- rows that compare as equal have their NULLs in the same columns
      rw [hdist', ← all_isNull_of_compareRow hu hv hrow, ← hdist]
      exact compare_handleTail hcmp distinct
  have hall := compare_encodeIndexSeekKey tableID tableID' idxID idxID' (cs.flatten ++ handleTail distinct h)
    (cs'.flatten ++ handleTail distinct' h')
  rw [hrows] at hall
  refine ⟨hall, ?_, fun tableID' b => ?_⟩
  · have hdistinct : distinct = true ↔ unique = true ∧ ∀ d ∈ u, d.isNull = false := by simp [hdist]
    rw [← Std.compare_eq_iff_eq, hall, ← hdistinct]
    cases distinct <;> simp [Ordering.then_eq_eq, Int64.toInt_inj, and_assoc]
  · rw [encodeIndexSeekKey_eq, encodeRowKey_eq, List.compare_cons_cons,
      orderedCode_encodeInt tableID tableID' trivial trivial]
    rfl

end Order

/-- A unique index has both rows with a NULL, in the order of their handles. -/
theorem genIndexKey_order_null : ∃ key key',
    genIndexKey fixedEnv none true 1 7 [.null] (some (.int 2)) = .ok (key, false) ∧
    genIndexKey fixedEnv none true 1 7 [.null] (some (.int 3)) = .ok (key', false) ∧ compare key key' = .lt := by
  have h := @genIndexKey_order fixedEnv none true false 1 7 [.int] [.null] [.null] (.int 2) (.int 3) _ 7 1 _ false .lt
    (.cons (.inl rfl) .nil) (.cons (.inl rfl) .nil) rfl rfl rfl
  exact ⟨_, _, rfl, rfl, h.1⟩

end Tidb.Tablecodec
