import Tidb.Codec.KeyColumn
import Tidb.Codec.Order
import Tidb.Lib.Pieces

/-!
# Handles of rows (`kv/key.go`)

A handle is the ID of a row: an integer, or the encoded key of a clustered table.  A common handle is
filled up with zeros to nine bytes, so that its length tells it from an integer handle; the split into
columns stops where the fill starts.
-/

namespace Tidb.Kv

open GoLang ByteNum Tidb.Codec Tidb.Types List Outcome UInt16

structure CommonHandle where
  encoded : Bytes
  colEndOffsets : List UInt16
  deriving DecidableEq, Repr

/-- The two kinds of handles that a row has.  (A `PartitionHandle` is one of these with a partition
ID, which only the executor reads.) -/
inductive Handle where
  | int (v : Int64)
  | common (ch : CommonHandle)
  deriving DecidableEq, Repr

def padHandle (encoded : Bytes) : Bytes := encoded ++ replicate (9 - encoded.length) 0

/-- The loop of `NewCommonHandle`.  Each round takes a byte at least, so the length of the encoding is
fuel enough. -/
def colEnds : Nat → Bytes → UInt16 → Res (List UInt16)
  | 0, _, _ => .ok []
  | _ + 1, [], _ => .ok []
  | n + 1, flag :: rest, endOff =>
    -- padded data
    if flag = 0 then .ok []
    else do
      let (col, remain) ← cutOne (flag :: rest)
      let endOff := endOff + UInt16.ofNat col.length
      let ends ← colEnds n remain endOff
      return endOff :: ends

def newCommonHandle (encoded : Bytes) : Res CommonHandle := do
  let ends ← colEnds encoded.length encoded 0
  return ⟨padHandle encoded, ends⟩

namespace CommonHandle

def numCols (ch : CommonHandle) : Nat := ch.colEndOffsets.length

def colStartOffset (ch : CommonHandle) (idx : Nat) : Res UInt16 :=
  if 0 < idx then index ch.colEndOffsets (idx - 1) else .ok 0

def encodedCol (ch : CommonHandle) (idx : Nat) : Res Bytes := do
  let colStartOffset ← ch.colStartOffset idx
  let colEndOffset ← index ch.colEndOffsets idx
  slice ch.encoded colStartOffset.toNat colEndOffset.toNat

end CommonHandle

namespace Handle

def isInt : Handle → Bool
  | .int _ => true
  | .common _ => false

def encoded : Handle → Bytes
  | .int v => encodeInt [] v
  | .common ch => ch.encoded

/-- `Compare` stops in a fault when the kinds differ. -/
def compare : Handle → Handle → Res Ordering
  | .int v, .int w => .ok (Ord.compare v.toInt w.toInt)
  | .common c, .common d => .ok (Ord.compare c.encoded d.encoded)
  | _, _ => .fault

def numCols : Handle → Res Nat
  | .int _ => .fault
  | .common ch => .ok ch.numCols

def encodedCol : Handle → Nat → Res Bytes
  | .int _, _ => .fault
  | .common ch, idx => ch.encodedCol idx

end Handle

/-! ## The columns of a handle -/

def colEndsOf (start : Nat) (cs : List Bytes) : List UInt16 := (ends start cs).map UInt16.ofNat

theorem colEnds_replicate_zero (n k : Nat) (endOff : UInt16) : colEnds n (replicate k 0) endOff = .ok [] := by
  cases n with
  | zero => rfl
  | succ n =>
    cases k with
    | zero => rfl
    | succ k => exact if_pos rfl

theorem colEnds_items {cs : List Bytes} (hcs : ∀ c ∈ cs, IsItem c) (k : Nat) {n : Nat}
    (hn : cs.length ≤ n) (start : Nat) (hlen : (cs.flatten ++ replicate k 0).length < 2 ^ 63) :
    colEnds n (cs.flatten ++ replicate k 0) (ofNat start) = .ok (colEndsOf start cs) := by
  induction cs generalizing n start with
  | nil => exact colEnds_replicate_zero n k _
  | cons c cs ih =>
    have hc := hcs c mem_cons_self
    obtain ⟨flag, y, rfl, hflag⟩ := hc.head
    obtain ⟨n, rfl⟩ : ∃ m, n = m + 1 := ⟨n - 1, by rw [length_cons] at hn; omega⟩
    rw [length_cons] at hn
    rw [flatten_cons, append_assoc] at hlen ⊢
    have hcut := hc.cut _ hlen
    have hih := ih (fun d hd => hcs d (mem_cons_of_mem _ hd)) (n := n) (by omega)
      (start + (flag :: y).length) (by rw [length_append] at hlen; omega)
    rw [cons_append] at hcut ⊢
    rw [colEnds, if_neg (show ¬flag = 0 from hflag), hcut, ok_bind]
    simp only
    rw [← ofNat_add, hih]
    rfl

theorem length_le_length_flatten {cs : List Bytes} (hcs : ∀ c ∈ cs, IsItem c) : cs.length ≤ cs.flatten.length := by
  induction cs with
  | nil => exact le_rfl
  | cons c cs ih =>
    have hpos := length_pos_iff.mpr (hcs c mem_cons_self).ne_nil
    have hle := ih fun d hd => hcs d (mem_cons_of_mem _ hd)
    rw [flatten_cons, length_append, length_cons]
    omega

def handleOf (cs : List Bytes) : CommonHandle := ⟨padHandle cs.flatten, colEndsOf 0 cs⟩

@[simp] theorem numCols_handleOf (cs : List Bytes) : (handleOf cs).numCols = cs.length := by
  simp [handleOf, CommonHandle.numCols, colEndsOf]

@[simp] theorem padHandle_padHandle (b : Bytes) : padHandle (padHandle b) = padHandle b := by
  have hlen : 9 - (padHandle b).length = 0 := by
    rw [padHandle, length_append, length_replicate]
    omega
  rw [padHandle, hlen, replicate_zero, append_nil]

theorem length_padHandle (b : Bytes) : (padHandle b).length = max 9 b.length := by
  rw [padHandle, length_append, length_replicate]
  omega

theorem newCommonHandle_items {cs : List Bytes} (hcs : ∀ c ∈ cs, IsItem c)
    (hlen : cs.flatten.length < 2 ^ 63) : newCommonHandle cs.flatten = .ok (handleOf cs) := by
  have h := colEnds_items hcs 0 (length_le_length_flatten hcs) 0 (by simpa using hlen)
  rw [replicate_zero, append_nil] at h
  rw [newCommonHandle, show (0 : UInt16) = ofNat 0 from rfl, h]
  rfl

theorem newCommonHandle_padHandle {cs : List Bytes} (hcs : ∀ c ∈ cs, IsItem c) (hlen : cs.flatten.length < 2 ^ 63) :
    newCommonHandle (padHandle cs.flatten) = .ok (handleOf cs) := by
  have hpad := length_padHandle cs.flatten
  have hle := length_le_length_flatten hcs
  have h := colEnds_items hcs (9 - cs.flatten.length) (n := (padHandle cs.flatten).length)
    (by omega) 0 (by rw [← padHandle]; omega)
  rw [← padHandle] at h
  rw [newCommonHandle, padHandle_padHandle, show (0 : UInt16) = ofNat 0 from rfl, h]
  rfl

section Columns

variable {cs : List Bytes} {i : Nat}

theorem index_colEndsOf (hi : i < cs.length) : (index (colEndsOf 0 cs) i : Res UInt16) =
      .ok (ofNat (cs.take (i + 1)).flatten.length) := by
  rw [index, colEndsOf, getElem?_map, getElem?_ends hi, Nat.zero_add]
  rfl

theorem colStartOffset_handleOf (hi : i < cs.length) :
    (handleOf cs).colStartOffset i = .ok (ofNat (cs.take i).flatten.length) := by
  cases i with
  | zero => rfl
  | succ i => exact index_colEndsOf (by omega)

theorem encodedCol_handleOf (hi : i < cs.length) (hlen : cs.flatten.length < 65536) :
    (handleOf cs).encodedCol i = .ok cs[i] := by
  have hto : ∀ j, (ofNat (cs.take j).flatten.length).toNat = (cs.take j).flatten.length := by
    intro j
    have hle := length_flatten_take_le j cs
    exact toNat_ofNat_of_lt' (by rw [size]; omega)
  rw [CommonHandle.encodedCol, colStartOffset_handleOf hi, ok_bind,
    show (handleOf cs).colEndOffsets = colEndsOf 0 cs from rfl, index_colEndsOf hi, ok_bind, hto, hto]
  exact slice_flatten hi _

end Columns

section Values

variable {env : Env} {sc : Option StatementContext} {ds ds' : List Datum} {cs cs' : List Bytes}

/-- The fill does not make two encodings equal: the columns can be read back from the filled up bytes. -/
theorem eq_of_padHandle_eq (hcs : ∀ c ∈ cs, IsItem c) (hcs' : ∀ c ∈ cs', IsItem c)
    (hlen : cs.flatten.length < 65536) (hlen' : cs'.flatten.length < 65536)
    (h : padHandle cs.flatten = padHandle cs'.flatten) : cs = cs' := by
  have hsame : handleOf cs = handleOf cs' := by
    have hnew := newCommonHandle_padHandle hcs (by omega)
    rw [h, newCommonHandle_padHandle hcs' (by omega), ok.injEq] at hnew
    exact hnew.symm
  have hcols : cs.length = cs'.length := by simpa using congrArg CommonHandle.numCols hsame
  refine ext_getElem hcols fun i hi hi' => ?_
  have hcol := encodedCol_handleOf hi hlen
  rw [hsame, encodedCol_handleOf hi' hlen', ok.injEq] at hcol
  exact hcol.symm

theorem isItem_codes (hds : ∀ d ∈ ds, IsValue d) (hcs : List.Forall₂ (Code env sc true) ds cs) :
    ∀ c ∈ cs, IsItem c := by
  induction hcs with
  | nil => simp
  | cons hc _ ih =>
    rw [forall_mem_cons] at hds ⊢
    exact ⟨isItem_code hds.1 hc, ih hds.2⟩

theorem compare_padHandle {Ts : List ColumnType} (hds : List.Forall₂ ColumnType.Has Ts ds)
    (hds' : List.Forall₂ ColumnType.Has Ts ds') (hcs : List.Forall₂ (Code env sc true) ds cs)
    (hcs' : List.Forall₂ (Code env sc true) ds' cs') :
    compare (padHandle cs.flatten) (padHandle cs'.flatten) = compareRow env sc ds ds' := by
  have hcmp := compare_codes_append hds hds' hcs hcs' [] []
  rw [append_nil, append_nil, Std.compare_self] at hcmp
  rw [padHandle, padHandle, compare_codes_append hds hds' hcs hcs']
  -- where the rows are equal, so is the fill
  cases hrow : compareRow env sc ds ds' with
  | lt => rfl
  | gt => rfl
  | eq =>
    rw [hrow] at hcmp
    rw [Std.compare_eq_iff_eq.mp hcmp, Std.compare_self]
    rfl

end Values

/-- The handle of a row: an integer, or what `NewCommonHandle` makes of the encoded primary key; the bytes are the
encoding in front of the fill. -/
inductive HandleFor (env : Env) (sc : Option StatementContext) : Handle → List Datum → Bytes → Prop
  | int (v : Int64) : HandleFor env sc (.int v) [.int64 v] (encodeInt [] v)
  | common {ds : List Datum} {b : Bytes} {ch : CommonHandle} (hne : ds ≠ [])
      (hds : ∀ d ∈ ds, IsValue d) (henc : encodeKey env sc [] ds = .ok b)
      (hlen : b.length < 65536) (hnew : newCommonHandle b = .ok ch) :
      HandleFor env sc (.common ch) ds b

theorem exists_codes {env : Env} {sc : Option StatementContext} {ds : List Datum} {b : Bytes}
    {ch : CommonHandle} (hds : ∀ d ∈ ds, IsValue d) (henc : encodeKey env sc [] ds = .ok b)
    (hlen : b.length < 65536) (hnew : newCommonHandle b = .ok ch) :
    ∃ cs, List.Forall₂ (Code env sc true) ds cs ∧ (∀ c ∈ cs, IsItem c) ∧ b = cs.flatten ∧ ch = handleOf cs := by
  obtain ⟨cs, hcs, rfl⟩ := encode_codes henc
  rw [nil_append] at hlen hnew
  have hitems := isItem_codes hds hcs
  rw [newCommonHandle_items hitems (by omega), ok.injEq] at hnew
  exact ⟨cs, hcs, hitems, nil_append _, hnew.symm⟩

end Tidb.Kv
