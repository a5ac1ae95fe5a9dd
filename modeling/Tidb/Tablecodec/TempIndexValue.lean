import Tidb.Tablecodec.RowKey

/-!
# Values of temporary indexes (`tablecodec/tablecodec.go`)

The value of a key of a temporary index is the history of the operations on it.  The elements of a
unique index follow one another without a count; the value of another index has one element, which
may reach to the end.
-/

namespace Tidb.Tablecodec

open GoLang ByteNum Tidb.Codec Tidb.Types Tidb.Kv List

def tempIndexValueFlagNormal : UInt8 := 0

def tempIndexValueFlagNonDistinctNormal : UInt8 := 1

def tempIndexValueFlagDeleted : UInt8 := 2

def tempIndexValueFlagNonDistinctDeleted : UInt8 := 3

structure TempIndexValueElem where
  value : Bytes
  handle : Option Handle
  keyVer : UInt8
  delete : Bool
  distinct : Bool
  deriving DecidableEq

namespace TempIndexValueElem

def handleBytes : Handle → Bytes × ℕ
  | .int v => (encodeUint [] v.toUInt64, 8)
  | .common ch => (ch.encoded, ch.encoded.length % 65536)

/-- `Encode` of an element without a handle that needs one is a fault. -/
def encode (v : TempIndexValueElem) (buf : Bytes) : Res Bytes :=
  if v.delete then
    if v.distinct then
      match v.handle with
      | none => .fault
      | some handle =>
        let (hEncoded, hLen) := handleBytes handle
        -- flag + handle length + handle + temp key version
        .ok (buf ++ tempIndexValueFlagDeleted :: (beBytes 2 hLen ++ (hEncoded ++ [v.keyVer])))
    else
      -- flag + temp key version
      .ok (buf ++ [tempIndexValueFlagNonDistinctDeleted, v.keyVer])
  else if v.distinct then
    -- flag + value length + value + temp key version
    .ok (buf ++ tempIndexValueFlagNormal ::
      (beBytes 2 (v.value.length % 65536) ++ (v.value ++ [v.keyVer])))
  else
    -- flag + value + temp key version
    .ok (buf ++ tempIndexValueFlagNonDistinctNormal :: (v.value ++ [v.keyVer]))

def cutPrefixed (b : Bytes) : Res (Bytes × UInt8 × Bytes) := do
  let hi ← index b 0
  let lo ← index b 1
  let len := hi.toNat * 256 + lo.toNat
  let b ← sliceFrom b 2
  let data ← sliceTo b len
  let b ← sliceFrom b len
  let keyVer ← index b 0
  let remain ← sliceFrom b 1
  return (data, keyVer, remain)

/-- The handle in a deleted element.  An error of `NewCommonHandle` is dropped and leaves a nil
handle. -/
def decodeHandle (data : Bytes) : Res (Option Handle) :=
  if data.length = idLen then do
    let u ← uint64BE data
    return some (.int u.toInt64)
  else
    match newCommonHandle data with
    | .ok ch => .ok (some (.common ch))
    | .error _ => .ok none
    | .fault => .fault

def decodeOne (b : Bytes) : Res (TempIndexValueElem × Bytes) := do
  let flag ← index b 0
  let b ← sliceFrom b 1
  if flag = tempIndexValueFlagNormal then do
    let (value, keyVer, remain) ← cutPrefixed b
    return (⟨value, none, keyVer, false, true⟩, remain)
  else if flag = tempIndexValueFlagNonDistinctNormal then do
    -- the value goes to the end
    let value ← sliceInt b 0 ((b.length : Int) - 1)
    let keyVer ← indexInt b ((b.length : Int) - 1)
    return (⟨value, none, keyVer, false, false⟩, [])
  else if flag = tempIndexValueFlagDeleted then do
    let (data, keyVer, remain) ← cutPrefixed b
    let handle ← decodeHandle data
    return (⟨[], handle, keyVer, true, true⟩, remain)
  else if flag = tempIndexValueFlagNonDistinctDeleted then do
    let keyVer ← index b 0
    let remain ← sliceFrom b 1
    return (⟨[], none, keyVer, true, false⟩, remain)
  else .error (.new "invalid temp index value")

end TempIndexValueElem

open TempIndexValueElem

/-- The loop of `DecodeTempIndexValue`; an element takes a byte at least, so the length is fuel
enough. -/
def decodeTempIndexValueLoop : ℕ → Bytes → Res (List TempIndexValueElem)
  | _, [] => .ok []
  | 0, _ :: _ => .fault
  | fuel + 1, b :: bs => do
    let (v, remain) ← TempIndexValueElem.decodeOne (b :: bs)
    let values ← decodeTempIndexValueLoop fuel remain
    return v :: values

def decodeTempIndexValue (b : Bytes) : Res (List TempIndexValueElem) :=
  decodeTempIndexValueLoop b.length b

/-! ## Elements -/

theorem cutPrefixed_append {data : Bytes} (hlen : data.length < 65536) (keyVer : UInt8)
    (r : Bytes) :
    cutPrefixed (beBytes 2 data.length ++ (data ++ keyVer :: r)) = .ok (data, keyVer, r) := by
  have hlen' : (UInt8.ofNat (data.length / 256)).toNat * 256 + (UInt8.ofNat data.length).toNat =
      data.length := by
    rw [uint8_toNat_ofNat, uint8_toNat_ofNat]
    omega
  have hbytes : beBytes 2 data.length = [UInt8.ofNat (data.length / 256),
      UInt8.ofNat data.length] := by
    rw [beBytes, beBytes, beBytes, pow_one, pow_zero, Nat.div_one]
  rw [hbytes]
  show (sliceTo (data ++ keyVer :: r) _ >>= fun data' => _) = _
  rw [hlen', sliceTo_append]
  show (sliceFrom (data ++ keyVer :: r) _ >>= fun b => _) = _
  rw [sliceFrom_append]
  rfl

/-- The handles of rows: an integer, or what `NewCommonHandle` makes of encoded key columns.  The
length of a common handle fits in two bytes. -/
inductive IsHandle : Handle → Prop
  | int (v : Int64) : IsHandle (.int v)
  | common {cs : List Bytes} {ch : CommonHandle} (hcs : ∀ c ∈ cs, IsItem c)
      (hnew : newCommonHandle cs.flatten = .ok ch) (hlen : ch.encoded.length < 65536) :
      IsHandle (.common ch)

theorem handleBytes_snd {h : Handle} (hh : IsHandle h) :
    (handleBytes h).2 = (handleBytes h).1.length ∧ (handleBytes h).1.length < 65536 := by
  cases hh with
  | int v =>
    rw [handleBytes, encodeUint, nil_append, length_putUint64BE]
    exact ⟨rfl, by decide⟩
  | common hcs hnew hlen => exact ⟨Nat.mod_eq_of_lt hlen, hlen⟩

theorem decodeHandle_handleBytes {h : Handle} (hh : IsHandle h) :
    TempIndexValueElem.decodeHandle (handleBytes h).1 = .ok (some h) := by
  cases hh with
  | int v =>
    have hread := uint64BE_putUint64BE_append (ε := Err) v.toUInt64 []
    rw [append_nil] at hread
    rw [handleBytes, encodeUint, nil_append, TempIndexValueElem.decodeHandle, hread]
    rfl
  | @common cs ch hcs hnew hlen =>
    have henc : ch.encoded = padHandle cs.flatten := by
      obtain ⟨ends, -, heq⟩ := Outcome.bind_eq_ok.mp hnew
      cases heq
      rfl
    have hpad := length_padHandle cs.flatten
    have hshort : cs.flatten.length < 2 ^ 63 := by
      rw [henc] at hlen
      omega
    have hch : handleOf cs = ch := Outcome.ok.inj
      ((newCommonHandle_items hcs hshort).symm.trans hnew)
    have hne : (padHandle cs.flatten).length ≠ idLen := by
      rw [idLen]
      omega
    rw [handleBytes, henc, TempIndexValueElem.decodeHandle, if_neg hne,
      newCommonHandle_padHandle hcs hshort, hch]

/-- The elements whose length fits in two bytes, with the handle that a deleted element of a unique
index has. -/
def Encodable (v : TempIndexValueElem) : Prop :=
  v.distinct = true →
    if v.delete then ∃ h, v.handle = some h ∧ IsHandle h else v.value.length < 65536

/-- What is kept of an element: the value of a normal one, the handle of a deleted one of a unique
index. -/
structure SameElem (v w : TempIndexValueElem) : Prop where
  delete : w.delete = v.delete
  distinct : w.distinct = v.distinct
  keyVer : w.keyVer = v.keyVer
  value : v.delete = false → w.value = v.value
  handle : v.delete = true → v.distinct = true → w.handle = v.handle

theorem decodeOne_encode_distinct {v : TempIndexValueElem} (hv : Encodable v)
    (hd : v.distinct = true) :
    ∃ e w, e ≠ [] ∧ (∀ buf, v.encode buf = .ok (buf ++ e)) ∧
      (∀ r, TempIndexValueElem.decodeOne (e ++ r) = .ok (w, r)) ∧ SameElem v w := by
  obtain ⟨value, handle, keyVer, delete, distinct⟩ := v
  cases hd
  cases delete with
  | true =>
    obtain ⟨h, rfl, hh⟩ : ∃ h, handle = some h ∧ IsHandle h := hv rfl
    have hlen := handleBytes_snd hh
    refine ⟨tempIndexValueFlagDeleted :: (beBytes 2 (handleBytes h).1.length ++
      ((handleBytes h).1 ++ [keyVer])),
      ⟨[], some h, keyVer, true, true⟩, cons_ne_nil _ _, fun buf => ?_, fun r => ?_,
      ⟨rfl, rfl, rfl, nofun, fun _ _ => rfl⟩⟩
    · rw [← hlen.1]
      rfl
    · rw [cons_append, append_assoc, append_assoc]
      show (cutPrefixed (beBytes 2 (handleBytes h).1.length ++ ((handleBytes h).1 ++ keyVer :: r))
        >>= fun p => _) = _
      rw [cutPrefixed_append hlen.2]
      show (TempIndexValueElem.decodeHandle (handleBytes h).1 >>= fun handle => _) = _
      rw [decodeHandle_handleBytes hh]
      rfl
  | false =>
    have hlen : value.length < 65536 := hv rfl
    refine ⟨tempIndexValueFlagNormal :: (beBytes 2 value.length ++ (value ++ [keyVer])),
      ⟨value, none, keyVer, false, true⟩, cons_ne_nil _ _, fun buf => ?_, fun r => ?_,
      ⟨rfl, rfl, rfl, fun _ => rfl, nofun⟩⟩
    · show Outcome.ok (buf ++ tempIndexValueFlagNormal ::
        (beBytes 2 (value.length % 65536) ++ (value ++ [keyVer]))) = _
      rw [Nat.mod_eq_of_lt hlen]
    · rw [cons_append, append_assoc, append_assoc]
      show (cutPrefixed (beBytes 2 value.length ++ (value ++ keyVer :: r)) >>= fun p => _) = _
      rw [cutPrefixed_append hlen]
      rfl

theorem decodeOne_encode_alone {v : TempIndexValueElem} (hd : v.distinct = false) :
    ∃ e w, e ≠ [] ∧ v.encode [] = .ok e ∧ TempIndexValueElem.decodeOne e = .ok (w, []) ∧
      SameElem v w := by
  obtain ⟨value, handle, keyVer, delete, distinct⟩ := v
  cases hd
  cases delete with
  | true =>
    exact ⟨[tempIndexValueFlagNonDistinctDeleted, keyVer], ⟨[], none, keyVer, true, false⟩,
      cons_ne_nil _ _, rfl, rfl,
      ⟨rfl, rfl, rfl, nofun, nofun⟩⟩
  | false =>
    refine ⟨tempIndexValueFlagNonDistinctNormal :: (value ++ [keyVer]),
      ⟨value, none, keyVer, false, false⟩,
      cons_ne_nil _ _, rfl, ?_, ⟨rfl, rfl, rfl, fun _ => rfl, nofun⟩⟩
    have hlast : (((value ++ [keyVer]).length : ℕ) : Int) - 1 = (value.length : ℕ) := by
      rw [length_append, length_singleton, Nat.cast_add, Nat.cast_one, add_sub_cancel_right]
    have hvalue : (sliceInt (value ++ [keyVer]) 0 value.length : Res Bytes) = .ok value := by
      rw [sliceInt_natCast]
      simp [slice]
    have hver : (indexInt (value ++ [keyVer]) value.length : Res UInt8) = .ok keyVer := by
      rw [indexInt_natCast, index]
      simp
    show (sliceInt (value ++ [keyVer]) 0 (((value ++ [keyVer]).length : ℕ) - 1 : Int) >>=
      fun value' => _) = _
    rw [hlast, hvalue]
    show (indexInt (value ++ [keyVer]) (((value ++ [keyVer]).length : ℕ) - 1 : Int) >>=
      fun keyVer' => _) = _
    rw [hlast, hver]
    rfl

/-! ## Whole values -/

def encodeTempIndexValue (vs : List TempIndexValueElem) : Res Bytes :=
  vs.foldlM (fun buf v => v.encode buf) []

theorem decodeTempIndexValueLoop_of_decodeOne {e r : Bytes} {w : TempIndexValueElem} {fuel : ℕ}
    (hne : e ≠ []) (h : TempIndexValueElem.decodeOne e = .ok (w, r)) :
    decodeTempIndexValueLoop (fuel + 1) e = decodeTempIndexValueLoop fuel r >>=
      fun ws => .ok (w :: ws) := by
  cases e with
  | nil => exact absurd rfl hne
  | cons b bs =>
    rw [decodeTempIndexValueLoop, h]
    rfl

theorem decodeTempIndexValueLoop_encode {vs : List TempIndexValueElem}
    (hvs : ∀ v ∈ vs, Encodable v ∧ v.distinct = true) :
    ∃ b ws, (∀ buf, vs.foldlM (fun buf v => v.encode buf) buf = .ok (buf ++ b)) ∧
      (∀ fuel, b.length ≤ fuel → decodeTempIndexValueLoop fuel b = .ok ws) ∧
      List.Forall₂ SameElem vs ws := by
  induction vs with
  | nil =>
    refine ⟨[], [], fun buf => ?_, fun fuel _ => ?_, List.Forall₂.nil⟩
    · rw [append_nil]
      rfl
    · rw [decodeTempIndexValueLoop]
  | cons v vs ih =>
    obtain ⟨b, ws, henc, hdec, hsame⟩ := ih fun v' hv' => hvs v' (mem_cons_of_mem _ hv')
    obtain ⟨e, w, hne, hencv, hdecv, hsamev⟩ :=
      decodeOne_encode_distinct (hvs v mem_cons_self).1 (hvs v mem_cons_self).2
    refine ⟨e ++ b, w :: ws, fun buf => ?_, fun fuel hfuel => ?_, List.Forall₂.cons hsamev hsame⟩
    · rw [foldlM_cons, hencv, Outcome.ok_bind, henc, append_assoc]
    · -- an element takes a byte at least, so there is fuel for the rest
      have hpos := length_pos_iff.mpr hne
      rw [length_append] at hfuel
      obtain ⟨fuel, rfl⟩ : ∃ k, fuel = k + 1 := ⟨fuel - 1, by omega⟩
      have hne' : e ++ b ≠ [] := fun h => hne (append_eq_nil_iff.mp h).1
      rw [decodeTempIndexValueLoop_of_decodeOne hne' (hdecv b), hdec fuel (by omega)]
      rfl

/-- The history of a key is read back: the operations in order, with what each of them keeps. -/
theorem decodeTempIndexValue_encode {vs : List TempIndexValueElem}
    (hvs : (vs ≠ [] ∧ ∀ v ∈ vs, Encodable v ∧ v.distinct = true) ∨ ∃ v, vs = [v] ∧
      v.distinct = false) :
    ∃ b ws, encodeTempIndexValue vs = .ok b ∧ decodeTempIndexValue b = .ok ws ∧
      List.Forall₂ SameElem vs ws := by
  obtain ⟨-, hvs⟩ | ⟨v, rfl, hd⟩ := hvs
  · obtain ⟨b, ws, henc, hdec, hsame⟩ := decodeTempIndexValueLoop_encode hvs
    exact ⟨b, ws, henc [], hdec b.length le_rfl, hsame⟩
  · obtain ⟨e, w, hne, henc, hdec, hsame⟩ := decodeOne_encode_alone hd
    refine ⟨e, [w], ?_, ?_, List.Forall₂.cons hsame List.Forall₂.nil⟩
    · rw [encodeTempIndexValue, foldlM_cons, henc]
      rfl
    · obtain ⟨fuel, hfuel⟩ : ∃ k, e.length = k + 1 :=
        ⟨e.length - 1, by have := length_pos_iff.mpr hne; omega⟩
      rw [decodeTempIndexValue, hfuel, decodeTempIndexValueLoop_of_decodeOne hne hdec,
        decodeTempIndexValueLoop]
      rfl

/-- A row is put in and deleted again: the two elements of its key. -/
theorem decodeTempIndexValue_encode_deleted :
    let vs := [⟨[1, 2, 3], none, 98, false, true⟩, ⟨[], some (.int 7), 109, true, true⟩]
    ∃ b ws, encodeTempIndexValue vs = .ok b ∧ decodeTempIndexValue b = .ok ws ∧
      List.Forall₂ SameElem vs ws := by
  apply decodeTempIndexValue_encode
  left
  refine ⟨cons_ne_nil _ _, fun v hv => ?_⟩
  rw [mem_cons, mem_singleton] at hv
  obtain rfl | rfl := hv
  · exact ⟨fun _ => show [1, 2, 3].length < 65536 by decide, rfl⟩
  · exact ⟨fun _ => ⟨_, rfl, IsHandle.int 7⟩, rfl⟩

end Tidb.Tablecodec
