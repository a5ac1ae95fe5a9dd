import Tidb.Errors
import Tidb.Lib.Binary
import Tidb.Lib.OrderedCode

/-!
# Integers (`util/codec/number.go`)

Memory-comparable integers are eight big-endian bytes, with the sign bit flipped for signed ones;
the descending variants write the complement.  Varints are those of `encoding/binary`.
-/

namespace Tidb.Codec

open GoLang ByteNum Outcome

def signMask : UInt64 := 0x8000000000000000

def encodeIntToCmpUint (v : Int64) : UInt64 := v.toUInt64 ^^^ signMask

def decodeCmpUintToInt (u : UInt64) : Int64 := (u ^^^ signMask).toInt64

def encodeInt (b : Bytes) (v : Int64) : Bytes := b ++ putUint64BE (encodeIntToCmpUint v)

def encodeIntDesc (b : Bytes) (v : Int64) : Bytes := b ++ putUint64BE (~~~encodeIntToCmpUint v)

def encodeUint (b : Bytes) (v : UInt64) : Bytes := b ++ putUint64BE v

def encodeUintDesc (b : Bytes) (v : UInt64) : Bytes := b ++ putUint64BE (~~~v)

/-- The body of the four fixed-width decoders: check the length, read the word for `f`, and drop the eight bytes. -/
def decodeFixed {α : Type} (f : UInt64 → α) (b : Bytes) : Res (Bytes × α) :=
  if b.length < 8 then .error errInsufficient
  else do
    let data ← sliceTo b 8
    let u ← uint64BE data
    let rest ← sliceFrom b 8
    return (rest, f u)

def decodeInt (b : Bytes) : Res (Bytes × Int64) := decodeFixed decodeCmpUintToInt b

def decodeIntDesc (b : Bytes) : Res (Bytes × Int64) :=
  decodeFixed (fun u => decodeCmpUintToInt (~~~u)) b

def decodeUint (b : Bytes) : Res (Bytes × UInt64) := decodeFixed id b

def decodeUintDesc (b : Bytes) : Res (Bytes × UInt64) := decodeFixed (fun u => ~~~u) b

def encodeVarint (b : Bytes) (v : Int64) : Bytes := b ++ putVarint v

def encodeUvarint (b : Bytes) (v : UInt64) : Bytes := b ++ putUvarint v

def decodeVar {α : Type} (read : Bytes → α × Int) (b : Bytes) : Res (Bytes × α) :=
  let v := read b
  if 0 < v.2 then do
    let rest ← sliceFromInt b v.2
    return (rest, v.1)
  else if v.2 < 0 then .error (.new "value larger than 64 bits")
  else .error errInsufficient

def decodeVarint (b : Bytes) : Res (Bytes × Int64) := decodeVar varint b

def decodeUvarint (b : Bytes) : Res (Bytes × UInt64) := decodeVar uvarint b

/-! ## Fixed-width integers -/

section Fixed

variable {α : Type} (f : UInt64 → α)

theorem decodeFixed_append (u : UInt64) (r : Bytes) : decodeFixed f (putUint64BE u ++ r) = .ok (r, f u) := by
  have hto : (sliceTo (putUint64BE u ++ r) 8 : Res Bytes) = .ok (putUint64BE u ++ []) := by
    simpa using sliceTo_append (ε := Err) (putUint64BE u) r
  have hfrom : (sliceFrom (putUint64BE u ++ r) 8 : Res Bytes) = .ok r := by
    simpa using sliceFrom_append (ε := Err) (putUint64BE u) r
  rw [decodeFixed, if_neg (by simp), hto, hfrom, ok_bind, uint64BE_putUint64BE_append, ok_bind, ok_bind, pure_eq]

theorem decodeFixed_cases (b : Bytes) : (∃ u r, b = putUint64BE u ++ r ∧ decodeFixed f b = .ok (r, f u)) ∨
      b.length < 8 ∧ decodeFixed f b = .error errInsufficient := by
  by_cases h : b.length < 8
  · exact Or.inr ⟨h, if_pos h⟩
  · left
    have hb : b = putUint64BE (UInt64.ofNat (beNat (b.take 8))) ++ b.drop 8 := by
      rw [putUint64BE_ofNat_beNat (by rw [List.length_take]; omega), List.take_append_drop]
    refine ⟨_, _, hb, ?_⟩
    conv_lhs => rw [hb]
    exact decodeFixed_append f _ _

theorem decodeFixed_eq_ok_iff {b r : Bytes} {v : α} :
    decodeFixed f b = .ok (r, v) ↔ ∃ u, f u = v ∧ b = putUint64BE u ++ r := by
  constructor
  · intro h
    rcases decodeFixed_cases f b with ⟨u, r', hb, hok⟩ | ⟨-, herr⟩
    · rw [hok] at h
      cases h
      exact ⟨u, rfl, hb⟩
    · rw [herr] at h
      cases h
  · rintro ⟨u, rfl, rfl⟩
    exact decodeFixed_append f u r

theorem decodeFixed_ne_fault (b : Bytes) : decodeFixed f b ≠ .fault := by
  rcases decodeFixed_cases f b with ⟨u, r, -, h⟩ | ⟨-, h⟩ <;> rw [h] <;> simp

end Fixed

@[simp] theorem decodeCmpUintToInt_encodeIntToCmpUint (v : Int64) : decodeCmpUintToInt (encodeIntToCmpUint v) = v := by
  rw [decodeCmpUintToInt, encodeIntToCmpUint, UInt64.xor_assoc, UInt64.xor_self, UInt64.xor_zero,
    Int64.toInt64_toUInt64]

@[simp] theorem encodeIntToCmpUint_decodeCmpUintToInt (u : UInt64) : encodeIntToCmpUint (decodeCmpUintToInt u) = u := by
  rw [decodeCmpUintToInt, encodeIntToCmpUint, UInt64.toUInt64_toInt64, UInt64.xor_assoc,
    UInt64.xor_self, UInt64.xor_zero]

/-- Flipping the sign bit shifts the signed range onto the unsigned one. -/
theorem encodeIntToCmpUint_toNat (v : Int64) : ((encodeIntToCmpUint v).toNat : Int) = v.toInt + 2 ^ 63 := by
  have h := v.toUInt64.toNat_lt
  have hx : (encodeIntToCmpUint v).toNat = v.toUInt64.toNat ^^^ 2 ^ 63 := by rfl
  rw [hx, nat_xor_two_pow h, int64_toInt_eq]
  split <;> omega

theorem decodeInt_eq_ok_iff {b r : Bytes} {v : Int64} : decodeInt b = .ok (r, v) ↔ b = encodeInt [] v ++ r := by
  rw [decodeInt, decodeFixed_eq_ok_iff]
  constructor
  · rintro ⟨u, rfl, rfl⟩
    simp [encodeInt]
  · rintro rfl
    exact ⟨encodeIntToCmpUint v, by simp, by simp [encodeInt]⟩

theorem decodeUint_eq_ok_iff {b r : Bytes} {v : UInt64} : decodeUint b = .ok (r, v) ↔ b = encodeUint [] v ++ r := by
  rw [decodeUint, decodeFixed_eq_ok_iff]
  simp [encodeUint]

@[simp] theorem decodeInt_encodeInt (v : Int64) (r : Bytes) :
    decodeInt (encodeInt [] v ++ r) = .ok (r, v) := decodeInt_eq_ok_iff.mpr rfl

@[simp] theorem decodeUint_encodeUint (v : UInt64) (r : Bytes) :
    decodeUint (encodeUint [] v ++ r) = .ok (r, v) := decodeUint_eq_ok_iff.mpr rfl

theorem length_encodeInt (b : Bytes) (v : Int64) : (encodeInt b v).length = b.length + 8 := by simp [encodeInt]

theorem length_encodeUint (b : Bytes) (v : UInt64) : (encodeUint b v).length = b.length + 8 := by simp [encodeUint]

theorem orderedCode_encodeUint : OrderedCode (fun _ => True) (encodeUint []) (fun a b => compare a.toNat b.toNat) :=
  OrderedCode.ofNumeral 8 UInt64.toNat (fun a _ => uint64_toNat_lt_pow a)

theorem orderedCode_encodeInt : OrderedCode (fun _ => True) (encodeInt []) (fun a b => compare a.toInt b.toInt) := by
  have h : OrderedCode (fun _ => True) (encodeInt []) _ := OrderedCode.ofNumeral 8
    (fun v => (encodeIntToCmpUint v).toNat) (fun v _ => uint64_toNat_lt_pow _)
  refine h.congr fun a b _ _ => compare_congr ?_ ?_
  all_goals
    have ha := encodeIntToCmpUint_toNat a
    have hb := encodeIntToCmpUint_toNat b
    omega

theorem orderedCode_encodeUintDesc :
    OrderedCode (fun _ => True) (encodeUintDesc []) (fun a b => compare b.toNat a.toNat) := by
  have h : OrderedCode (fun _ => True) (encodeUintDesc []) _ :=
    OrderedCode.ofNumeral 8 (fun v : UInt64 => (~~~v).toNat) (fun v _ => uint64_toNat_lt_pow _)
  refine h.congr fun a b _ _ => compare_congr ?_ ?_
  all_goals
    have ha := a.toNat_lt
    have hb := b.toNat_lt
    rw [UInt64.toNat_not, UInt64.toNat_not, UInt64.size]
    omega

/-! ## Varints -/

section Var

variable {α : Type} (g : UInt64 → α)

theorem decodeVar_eq_ok_iff {b r : Bytes} {v : α} : decodeVar (fun b => (g (uvarint b).1, (uvarint b).2)) b = .ok (r, v)
    ↔ ∃ (y : UInt64) (k : Nat), uvarint b = (y, (k : Int)) ∧ 0 < k ∧ k ≤ b.length ∧ g y = v ∧ r = b.drop k := by
  constructor
  · intro h
    simp only [decodeVar] at h
    split at h
    · rename_i hpos
      obtain ⟨hle, -, -, -⟩ := uvarint_of_pos (Prod.eta (uvarint b)).symm hpos
      obtain ⟨k, hk⟩ := Int.eq_ofNat_of_zero_le hpos.le
      rw [hk, sliceFromInt_natCast, sliceFrom_of_le (by omega)] at h
      cases h
      exact ⟨(uvarint b).1, k, by rw [← hk], by omega, by omega, rfl, rfl⟩
    · split at h <;> cases h
  · rintro ⟨y, k, hb, hk, hle, rfl, rfl⟩
    simp only [decodeVar, hb]
    rw [if_pos (by omega), sliceFromInt_natCast, sliceFrom_of_le hle]
    rfl

theorem decodeVar_ne_fault (b : Bytes) : decodeVar (fun b => (g (uvarint b).1, (uvarint b).2)) b ≠ .fault := by
  simp only [decodeVar]
  split
  · rename_i hpos
    obtain ⟨hle, -, -, -⟩ := uvarint_of_pos (Prod.eta (uvarint b)).symm hpos
    rw [← Int.toNat_of_nonneg hpos.le, sliceFromInt_natCast, sliceFrom_of_le hle]
    simp
  · split <;> simp

end Var

theorem decodeVarint_eq_ok_iff {b r : Bytes} {v : Int64} : decodeVarint b = .ok (r, v) ↔ ∃ (y : UInt64) (k : Nat),
    uvarint b = (y, (k : Int)) ∧ 0 < k ∧ k ≤ b.length ∧ unzigzag y = v ∧ r = b.drop k := decodeVar_eq_ok_iff unzigzag

theorem decodeUvarint_eq_ok_iff {b r : Bytes} {v : UInt64} : decodeUvarint b = .ok (r, v) ↔ ∃ (y : UInt64) (k : Nat),
    uvarint b = (y, (k : Int)) ∧ 0 < k ∧ k ≤ b.length ∧ y = v ∧ r = b.drop k := decodeVar_eq_ok_iff id

end Tidb.Codec
