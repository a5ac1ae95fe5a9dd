import Tidb.Kv.Handle

/-!
# The keys of rows (`tablecodec/tablecodec.go`)

A row key is `t{tableID}_r{handle}`.  Nothing in the key says which kind of handle it has: eight bytes
behind the prefix are an integer handle, any other number of bytes is a common one.
-/

namespace Tidb.Tablecodec

open GoLang ByteNum Tidb.Codec Tidb.Types Tidb.Kv List Outcome

def tablePrefix : Bytes := [0x74]

def recordPrefixSep : Bytes := [0x5F, 0x72]

def idLen : Nat := 8

def prefixLen : Nat := 1 + idLen + 2

def recordRowKeyLen : Nat := prefixLen + idLen

def tablePrefixLength : Nat := 1

def recordPrefixSepLength : Nat := 2

def appendTableRecordPrefix (buf : Bytes) (tableID : Int64) : Bytes :=
  encodeInt (buf ++ tablePrefix) tableID ++ recordPrefixSep

def encodeRowKey (tableID : Int64) (encodedHandle : Bytes) : Bytes :=
  appendTableRecordPrefix [] tableID ++ encodedHandle

def encodeRowKeyWithHandle (tableID : Int64) (handle : Handle) : Bytes :=
  encodeRowKey tableID handle.encoded

def hasTablePrefix (key : Bytes) : Res Bool := do
  let b ← index key 0
  return b == 0x74

def hasRecordPrefixSep (key : Bytes) : Res Bool := do
  let b ← index key 0
  if b = 0x5F then do
    let b ← index key 1
    return b == 0x72
  else return false

def invalidRecordKey (key : Bytes) : Err :=
  .errInvalidRecordKey "invalid record key - %q" [.bytes key]

def decodeHandle (k key : Bytes) : Res Handle :=
  if key.length = 8 then do
    let (_, intHandle) ← decodeInt key
    return .int intHandle
  else
    match newCommonHandle key with
    | .ok h => .ok (.common h)
    | .error err => .error (.withCause (.errInvalidRecordKey "invalid record key - %q %v" [.bytes k]) err)
    | .fault => .fault

def decodeRecordKey (key : Bytes) : Res (Int64 × Handle) :=
  if key.length ≤ prefixLen then .error (invalidRecordKey key)
  else do
    let isTable ← hasTablePrefix key
    if isTable then do
      let rest ← sliceFrom key tablePrefixLength
      let (rest, tableID) ← decodeInt rest
      let isRecord ← hasRecordPrefixSep rest
      if isRecord then do
        let rest ← sliceFrom rest recordPrefixSepLength
        let handle ← decodeHandle key rest
        return (tableID, handle)
      else .error (invalidRecordKey key)
    else .error (invalidRecordKey key)

def invalidKey (key : Bytes) : Err := .errInvalidKey "invalid key - %q" [.bytes key]

def decodeRowKey (key : Bytes) : Res Handle :=
  if key.length < recordRowKeyLen then .error (invalidKey key)
  else do
    let isTable ← hasTablePrefix key
    if isTable then do
      let rest ← sliceFrom key (prefixLen - 2)
      let isRecord ← hasRecordPrefixSep rest
      if isRecord then do
        let rest ← sliceFrom key prefixLen
        if key.length = recordRowKeyLen then do
          let u ← uint64BE rest
          return .int (decodeCmpUintToInt u)
        else do
          let h ← newCommonHandle rest
          return .common h
      else .error (invalidKey key)
    else .error (invalidKey key)

/-! ## Reading the prefix -/

theorem encodeRowKey_eq (tableID : Int64) (b : Bytes) :
    encodeRowKey tableID b = 0x74 :: (encodeInt [] tableID ++ 0x5F :: 0x72 :: b) := by
  simp [encodeRowKey, appendTableRecordPrefix, encodeInt, tablePrefix, recordPrefixSep]

theorem length_encodeRowKey (tableID : Int64) (b : Bytes) : (encodeRowKey tableID b).length = b.length + 11 := by
  rw [encodeRowKey_eq]
  simp only [length_cons, length_append, length_encodeInt, length_nil]
  omega

theorem hasTablePrefix_cons (b : Bytes) : hasTablePrefix (0x74 :: b) = .ok true := rfl

theorem hasRecordPrefixSep_cons (b : Bytes) : hasRecordPrefixSep (0x5F :: 0x72 :: b) = .ok true :=
  rfl

theorem decodeRecordKey_encodeRowKey (tableID : Int64) {b : Bytes} (hb : b ≠ []) :
    decodeRecordKey (encodeRowKey tableID b) =
      decodeHandle (encodeRowKey tableID b) b >>= fun h => .ok (tableID, h) := by
  have hpos := length_pos_iff.mpr hb
  have hlen := length_encodeRowKey tableID b
  rw [decodeRecordKey, if_neg (by rw [prefixLen, idLen]; omega), encodeRowKey_eq,
    hasTablePrefix_cons, ok_bind, sliceFrom_of_le (by simp [tablePrefixLength])]
  simp only [tablePrefixLength, drop_succ_cons, drop_zero, decodeInt_encodeInt, ok_bind]
  rfl

theorem drop_nine_encodeRowKey (tableID : Int64) (b : Bytes) : (encodeRowKey tableID b).drop 9 = 0x5F :: 0x72 :: b := by
  have hlen := length_encodeInt [] tableID
  rw [encodeRowKey_eq, drop_succ_cons, ← hlen.trans (Nat.zero_add 8), drop_left]

theorem decodeRowKey_encodeRowKey (tableID : Int64) {b : Bytes} (hb : 8 ≤ b.length) :
    decodeRowKey (encodeRowKey tableID b) =
      if b.length = 8 then uint64BE b >>= fun u => .ok (.int (decodeCmpUintToInt u))
      else newCommonHandle b >>= fun h => .ok (.common h) := by
  have hlen := length_encodeRowKey tableID b
  have hdrop := drop_nine_encodeRowKey tableID b
  have htable : hasTablePrefix (encodeRowKey tableID b) = .ok true := by rw [encodeRowKey_eq, hasTablePrefix_cons]
  have hsep : (sliceFrom (encodeRowKey tableID b) (prefixLen - 2) : Res Bytes) = .ok (0x5F :: 0x72 :: b) := by
    rw [sliceFrom_of_le (by rw [prefixLen, idLen]; omega), ← hdrop, prefixLen, idLen]
  have hrest : (sliceFrom (encodeRowKey tableID b) prefixLen : Res Bytes) = .ok b := by rfl
  rw [decodeRowKey, if_neg (by rw [recordRowKeyLen, prefixLen, idLen]; omega), htable, ok_bind, if_pos rfl, hsep,
    ok_bind, hasRecordPrefixSep_cons, ok_bind, if_pos rfl, hrest, ok_bind]
  have hkind : (encodeRowKey tableID b).length = recordRowKeyLen ↔ b.length = 8 := by
    rw [recordRowKeyLen, prefixLen, idLen]
    omega
  simp only [hkind, pure_eq]

/-! ## Row keys -/

section Keys

variable {env : Env} {sc sc' : Option StatementContext} {h h' : Handle} {ds ds' : List Datum}
  {b b' : Bytes}

theorem decodeRecordKey_handle (hh : HandleFor env sc h ds b) (tableID : Int64) :
    decodeRecordKey (encodeRowKeyWithHandle tableID h) = .ok (tableID, h) := by
  cases hh with
  | int v =>
    have hlen := length_encodeInt [] v
    have hdec := decodeInt_encodeInt v []
    rw [append_nil] at hdec
    rw [encodeRowKeyWithHandle, Handle.encoded, decodeRecordKey_encodeRowKey _ (by rw [← length_pos_iff]; omega),
      decodeHandle, hdec]
    rfl
  | common hne hds henc hlen hnew =>
    obtain ⟨cs, -, hitems, rfl, rfl⟩ := exists_codes hds henc hlen hnew
    have hpad := length_padHandle cs.flatten
    change decodeRecordKey (encodeRowKey tableID (padHandle cs.flatten)) = _
    rw [decodeRecordKey_encodeRowKey _ (by rw [← length_pos_iff]; omega), decodeHandle,
      if_neg (by omega), newCommonHandle_padHandle hitems (by omega)]
    rfl

theorem decodeRowKey_handle (hh : HandleFor env sc h ds b) (tableID : Int64) :
    decodeRowKey (encodeRowKeyWithHandle tableID h) = .ok h := by
  cases hh with
  | int v =>
    have hlen : (encodeInt [] v).length = 8 := length_encodeInt [] v
    have hread : (uint64BE (encodeInt [] v) : Res UInt64) = .ok (encodeIntToCmpUint v) := by
      simpa [encodeInt] using uint64BE_putUint64BE_append (ε := Err) (encodeIntToCmpUint v) []
    rw [encodeRowKeyWithHandle, Handle.encoded, decodeRowKey_encodeRowKey _ (by rw [hlen]),
      if_pos hlen, hread, ok_bind, decodeCmpUintToInt_encodeIntToCmpUint]
  | common hne hds henc hlen hnew =>
    obtain ⟨cs, -, hitems, rfl, rfl⟩ := exists_codes hds henc hlen hnew
    have hpad := length_padHandle cs.flatten
    change decodeRowKey (encodeRowKey tableID (padHandle cs.flatten)) = _
    rw [decodeRowKey_encodeRowKey _ (by omega), if_neg (by omega), newCommonHandle_padHandle hitems (by omega)]
    rfl

theorem compare_encodeRowKey (tableID tableID' : Int64) (b b' : Bytes) :
    compare (encodeRowKey tableID b) (encodeRowKey tableID' b') =
      (compare tableID.toInt tableID'.toInt).then (compare b b') := by
  rw [encodeRowKey_eq, encodeRowKey_eq, List.compare_cons_cons, orderedCode_encodeInt tableID tableID' trivial trivial]
  simp

theorem encodeRowKey_inj {tableID tableID' : Int64}
    (hkey : encodeRowKey tableID b = encodeRowKey tableID' b') : tableID = tableID' ∧ b = b' := by
  have hcmp := compare_encodeRowKey tableID tableID' b b'
  rw [hkey, Std.compare_self, eq_comm, Ordering.then_eq_eq] at hcmp
  exact ⟨Int64.toInt_inj.mp (Std.compare_eq_iff_eq.mp hcmp.1), Std.compare_eq_iff_eq.mp hcmp.2⟩

/-- A key gives back the table and the handle, and a common handle its columns. -/
structure ReadsBack (env : Env) (sc : Option StatementContext) (h : Handle) (ds : List Datum) (tableID : Int64) :
    Prop where
  record : decodeRecordKey (encodeRowKeyWithHandle tableID h) = .ok (tableID, h)
  row : decodeRowKey (encodeRowKeyWithHandle tableID h) = .ok h
  columns : h.isInt = false → h.numCols = .ok ds.length ∧
    ∀ i (hi : i < ds.length), ∃ c, Code env sc true ds[i] c ∧ h.encodedCol i = .ok c

theorem readsBack_of_handleFor (hh : HandleFor env sc h ds b) (tableID : Int64) : ReadsBack env sc h ds tableID := by
  refine ⟨decodeRecordKey_handle hh tableID, decodeRowKey_handle hh tableID, fun hkind => ?_⟩
  cases hh with
  | int v => cases hkind
  | common hne hds henc hlen hnew =>
    obtain ⟨cs, hcs, hitems, rfl, rfl⟩ := exists_codes hds henc hlen hnew
    have hcols := hcs.length_eq
    refine ⟨by rw [Handle.numCols, numCols_handleOf, hcols], fun i hi => ?_⟩
    exact ⟨cs[i], hcs.get hi (by omega), encodedCol_handleOf (by omega) hlen⟩

theorem compare_handleFor (hh : HandleFor env sc h ds b) (hh' : HandleFor env sc' h' ds' b')
    (hkind : h.isInt = h'.isInt) : h.compare h' = .ok (compare h.encoded h'.encoded) ∧
      (sc = sc' → ∀ Ts, Forall₂ ColumnType.Has Ts ds → Forall₂ ColumnType.Has Ts ds' →
        compare h.encoded h'.encoded = compareRow env sc ds ds') := by
  cases hh with
  | int v =>
    cases hh' with
    | common => cases hkind
    | int w =>
      have hcmp : compare (encodeInt [] v) (encodeInt [] w) = compare v.toInt w.toInt :=
        orderedCode_encodeInt.compare_eq trivial trivial
      refine ⟨by rw [Handle.compare, Handle.encoded, Handle.encoded, hcmp], ?_⟩
      rintro - Ts - -
      rw [Handle.encoded, Handle.encoded, hcmp]
      cases h : compare v.toInt w.toInt <;>
        simp [compareRow, compareDatum, compareValue, rank, h]
  | common hne hds henc hlen hnew =>
    cases hh' with
    | int => cases hkind
    | common hne' hds' henc' hlen' hnew' =>
      refine ⟨rfl, ?_⟩
      rintro rfl Ts hT hT'
      obtain ⟨cs, hcs, hitems, rfl, rfl⟩ := exists_codes hds henc hlen hnew
      obtain ⟨cs', hcs', hitems', rfl, rfl⟩ := exists_codes hds' henc' hlen' hnew'
      exact compare_padHandle hT hT' hcs hcs'

theorem eq_of_encoded_eq (hh : HandleFor env sc h ds b) (hh' : HandleFor env sc' h' ds' b')
    (heq : h.encoded = h'.encoded) : h = h' ∧ b = b' := by
  have hshort : ∀ v : Int64, (encodeInt [] v).length = 8 := length_encodeInt []
  cases hh with
  | int v =>
    cases hh' with
    | int w =>
      have hdec := decodeInt_encodeInt v []
      rw [show encodeInt [] v = encodeInt [] w from heq, decodeInt_encodeInt, ok.injEq, Prod.mk.injEq] at hdec
      rw [hdec.2]
      exact ⟨rfl, rfl⟩
    | common hne' hds' henc' hlen' hnew' =>
      obtain ⟨cs', hcs', hitems', rfl, rfl⟩ := exists_codes hds' henc' hlen' hnew'
      have hlen : (encodeInt [] v).length = (padHandle cs'.flatten).length := congrArg length heq
      rw [hshort, length_padHandle] at hlen
      omega
  | common hne hds henc hlen hnew =>
    obtain ⟨cs, hcs, hitems, rfl, rfl⟩ := exists_codes hds henc hlen hnew
    cases hh' with
    | int w =>
      have hlen : (padHandle cs.flatten).length = (encodeInt [] w).length := congrArg length heq
      rw [hshort, length_padHandle] at hlen
      omega
    | common hne' hds' henc' hlen' hnew' =>
      obtain ⟨cs', hcs', hitems', rfl, rfl⟩ := exists_codes hds' henc' hlen' hnew'
      obtain rfl := eq_of_padHandle_eq hitems hitems' hlen hlen' heq
      exact ⟨rfl, rfl⟩

/-- Row keys give back the table and the handle with its columns, are ordered by the table and then the handle, and no
two handles, of whichever kinds, share one. -/
theorem rowKey_exact (hh : HandleFor env sc h ds b) (hh' : HandleFor env sc' h' ds' b') (tableID tableID' : Int64) :
    ReadsBack env sc h ds tableID ∧
    (h.isInt = h'.isInt → ∃ o, h.compare h' = .ok o ∧
      compare (encodeRowKeyWithHandle tableID h) (encodeRowKeyWithHandle tableID' h') =
        (compare tableID.toInt tableID'.toInt).then o ∧
      (sc = sc' → ∀ Ts, Forall₂ ColumnType.Has Ts ds → Forall₂ ColumnType.Has Ts ds' → o = compareRow env sc ds ds')) ∧
    (encodeRowKeyWithHandle tableID h = encodeRowKeyWithHandle tableID' h' → tableID = tableID' ∧ h = h' ∧ b = b') := by
  refine ⟨readsBack_of_handleFor hh tableID, fun hkind => ?_, fun hkey => ?_⟩
  · obtain ⟨hcmp, hvalues⟩ := compare_handleFor hh hh' hkind
    exact ⟨_, hcmp, compare_encodeRowKey _ _ _ _, hvalues⟩
  · obtain ⟨hid, henc⟩ := encodeRowKey_inj hkey
    exact ⟨hid, eq_of_encoded_eq hh hh' henc⟩

end Keys

def decimalFive : MyDecimal :=
  ⟨1, 0, 0, false, ⟨[5, 0, 0, 0, 0, 0, 0, 0, 0], rfl⟩⟩

theorem decimalFive_wellFormed : decimalFive.WellFormed := by constructor <;> decide

theorem rowKey_exact_decimal :
    decodeRecordKey [0x74, 0x80, 0, 0, 0, 0, 0, 0, 1, 0x5F, 0x72, 6, 1, 0, 0x85, 0, 0, 0, 0, 0] =
      .ok (1, .common ⟨[6, 1, 0, 0x85, 0, 0, 0, 0, 0], [4]⟩) := by
  have hh : HandleFor fixedEnv none (.common ⟨[6, 1, 0, 0x85, 0, 0, 0, 0, 0], [4]⟩)
      [.mysqlDecimal decimalFive 1 0] [6, 1, 0, 0x85] :=
    .common (by simp) (by simpa [IsValue] using decimalFive_wellFormed) rfl (by decide) rfl
  exact (rowKey_exact hh hh 1 1).1.record

end Tidb.Tablecodec
