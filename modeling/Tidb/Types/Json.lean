import Tidb.Errors
import Tidb.Lib.Binary

/-!
# The size of binary JSON (`PeekBytesAsJSON` of `types/json_binary_functions.go`)

A binary JSON value starts with its type code.  Objects and arrays carry their size, strings and opaque
values the length of what follows as a varint, and the other types have a fixed size.
-/

namespace Tidb.Types

open GoLang ByteNum List

def jsonTypeCodeObject : UInt8 := 0x01
def jsonTypeCodeArray : UInt8 := 0x03
def jsonTypeCodeLiteral : UInt8 := 0x04
def jsonTypeCodeInt64 : UInt8 := 0x09
def jsonTypeCodeUint64 : UInt8 := 0x0a
def jsonTypeCodeFloat64 : UInt8 := 0x0b
def jsonTypeCodeString : UInt8 := 0x0c
def jsonTypeCodeOpaque : UInt8 := 0x0d
def jsonTypeCodeDate : UInt8 := 0x0e
def jsonTypeCodeDatetime : UInt8 := 0x0f
def jsonTypeCodeTimestamp : UInt8 := 0x10
def jsonTypeCodeDuration : UInt8 := 0x11

def valTypeSize : Nat := 1

def headerSize : Nat := 8

def dataSizeOff : Nat := 4

def addInt (a b : Int) : Int := (a + b).bmod (2 ^ 64)

def intOfUint64 (v : UInt64) : Int := (v.toNat : Int).bmod (2 ^ 64)

def peekBytesAsJSON (b : Bytes) : Res Int :=
  match b with
  | [] => .error (.new "Cant peek from empty bytes")
  | c :: _ =>
    if c = jsonTypeCodeObject ∨ c = jsonTypeCodeArray then
      if valTypeSize + headerSize ≤ b.length then do
        let data ← slice b (valTypeSize + dataSizeOff) (valTypeSize + dataSizeOff + 4)
        return valTypeSize + leNat data
      else .error (.new "Invalid JSON bytes")
    else if c = jsonTypeCodeString then do
      let rest ← sliceFrom b valTypeSize
      let (strLen, lenLen) := uvarint rest
      return addInt (addInt valTypeSize (intOfUint64 strLen)) lenLen
    else if c = jsonTypeCodeInt64 ∨ c = jsonTypeCodeUint64 ∨ c = jsonTypeCodeFloat64 ∨
        c = jsonTypeCodeDate ∨ c = jsonTypeCodeDatetime ∨ c = jsonTypeCodeTimestamp then
      .ok (valTypeSize + 8)
    else if c = jsonTypeCodeLiteral then .ok (valTypeSize + 1)
    else if c = jsonTypeCodeOpaque then do
      let rest ← sliceFrom b (valTypeSize + 1)
      let (bufLen, lenLen) := uvarint rest
      return addInt (addInt (valTypeSize + 1) (intOfUint64 bufLen)) lenLen
    else if c = jsonTypeCodeDuration then .ok (valTypeSize + 12)
    else .error (.new "Invalid JSON bytes")

/-! ## Sizes -/

theorem bmod_of_range {x : Int} (hlo : -2 ^ 63 ≤ x) (hhi : x < 2 ^ 63) : x.bmod (2 ^ 64) = x := by
  rw [Int.bmod_eq_of_le] <;> omega

theorem bmod_of_ge {x : Int} (hlo : 2 ^ 63 ≤ x) (hhi : x < 2 ^ 64 + 2 ^ 63) : x.bmod (2 ^ 64) = x - 2 ^ 64 := by
  rw [Int.bmod_def]
  omega

theorem bmod_of_zero_length {k c : Int} (hlo : -2 ^ 63 ≤ k + c) (hhi : k + c < 2 ^ 63) :
    (k + ((0 : UInt64).toNat : Int) + c).bmod (2 ^ 64) = k + c := by
  rw [show ((0 : UInt64).toNat : Int) = 0 from rfl, Int.add_zero]
  exact bmod_of_range hlo hhi

theorem addInt_of_range {a b : Int} (hlo : -2 ^ 63 ≤ a + b) (hhi : a + b < 2 ^ 63) :
    addInt a b = a + b := bmod_of_range hlo hhi

theorem bmod_range (x : Int) : -2 ^ 63 ≤ x.bmod (2 ^ 64) ∧ x.bmod (2 ^ 64) < 2 ^ 63 := by
  have h1 := @Int.le_bmod x (2 ^ 64) (by norm_num)
  have h2 := @Int.bmod_lt x (2 ^ 64) (by norm_num)
  omega

theorem eq_of_addInt_one {l : Int} {n : Nat} (hlo : -2 ^ 63 ≤ l) (hhi : l < 2 ^ 63)
    (h : addInt 1 l = ((n + 1 : Nat) : Int)) : l = n := by
  by_cases htop : 1 + l < 2 ^ 63
  · rw [addInt_of_range (by omega) htop] at h
    omega
  · rw [addInt, bmod_of_ge (by omega) (by omega)] at h
    omega

theorem addInt_addInt (a m : Int) (v : UInt64) :
    addInt (addInt a (intOfUint64 v)) m = (a + v.toNat + m).bmod (2 ^ 64) := by
  have h : ∀ (x y z : Int) (n : Nat), ((x + y.bmod n).bmod n + z).bmod n = (x + y + z).bmod n := by
    intro x y z n
    rw [Int.add_bmod_bmod, Int.bmod_add_bmod]
  exact h a v.toNat m (2 ^ 64)

/-- The number of bytes in front of the varint that holds the length of a string or of an opaque
value, and the bytes from there on. -/
def lengthVarint : Bytes → Option (Nat × Bytes)
  | [] => none
  | c :: bs =>
    if c = jsonTypeCodeString then some (1, bs)
    else if c = jsonTypeCodeOpaque ∧ 1 ≤ bs.length then some (2, bs.drop 1)
    else none

theorem lengthVarint_eq_some {b rest : Bytes} {h : Nat} (hb : lengthVarint b = some (h, rest)) :
    (h = 1 ∨ h = 2) ∧ b.drop h = rest ∧ b.length = h + rest.length ∧ peekBytesAsJSON b =
        .ok ((h + ((uvarint rest).1.toNat : Int) + (uvarint rest).2).bmod (2 ^ 64)) := by
  cases b with
  | nil => cases hb
  | cons c bs =>
    rw [lengthVarint] at hb
    split at hb
    · rename_i hc
      cases hb
      refine ⟨.inl rfl, rfl, by simp; omega, ?_⟩
      rw [peekBytesAsJSON, if_neg (by rw [hc]; decide), if_pos hc, valTypeSize, ← addInt_addInt]
      rfl
    · split at hb
      · rename_i hc
        obtain ⟨hc, hlen⟩ := hc
        cases hb
        refine ⟨.inr rfl, rfl, by rw [length_drop, length_cons]; omega, ?_⟩
        rw [peekBytesAsJSON, if_neg (by rw [hc]; decide), if_neg (by rw [hc]; decide),
          if_neg (by rw [hc]; decide), if_neg (by rw [hc]; decide), if_pos hc, valTypeSize,
          sliceFrom_of_le (by rw [length_cons]; omega), ← addInt_addInt]
        rfl
      · cases hb

theorem lengthVarint_front {b rest : Bytes} {h : Nat} (hb : lengthVarint b = some (h, rest)) :
    ∃ pre, b = pre ++ rest ∧ pre.length = h ∧ ∀ rest', lengthVarint (pre ++ rest') = some (h, rest') := by
  cases b with
  | nil => cases hb
  | cons c bs =>
    rw [lengthVarint] at hb
    split at hb
    · rename_i hc
      cases hb
      exact ⟨[c], rfl, rfl, fun rest' => if_pos hc⟩
    · split at hb
      · rename_i hstr hop
        obtain ⟨ty, bs, rfl⟩ := exists_cons_of_length_pos hop.2
        cases hb
        refine ⟨[c, ty], rfl, rfl, fun rest' => ?_⟩
        rw [cons_append, lengthVarint, if_neg hstr, if_pos ⟨hop.1, by simp⟩]
        rfl
      · cases hb

theorem peekBytesAsJSON_append {b : Bytes} {n : Int} (hb : lengthVarint b = none)
    (h : peekBytesAsJSON b = .ok n) (t : Bytes) : peekBytesAsJSON (b ++ t) = .ok n := by
  cases b with
  | nil => cases h
  | cons c bs =>
    have hstr : c ≠ jsonTypeCodeString := by
      intro hc
      rw [lengthVarint, if_pos hc] at hb
      cases hb
    rw [cons_append]
    unfold peekBytesAsJSON at h ⊢
    simp only [hstr, if_false] at h ⊢
    by_cases hobj : c = jsonTypeCodeObject ∨ c = jsonTypeCodeArray
    · -- the size is inside the header
      rw [if_pos hobj] at h ⊢
      split at h
      · rename_i hlen
        have hlen' : valTypeSize + headerSize ≤ (c :: (bs ++ t)).length := by
          rw [← cons_append, length_append]
          omega
        have hslice : valTypeSize + dataSizeOff + 4 ≤ (c :: bs).length := hlen
        rw [if_pos hlen', ← cons_append, slice_append _ hslice]
        exact h
      · cases h
    · rw [if_neg hobj] at h ⊢
      by_cases hop : c = jsonTypeCodeOpaque
      · -- an opaque value without its type byte
        rw [lengthVarint, if_neg hstr] at hb
        have hnil : ¬ 1 ≤ bs.length := fun h1 => by simp [hop, h1] at hb
        have hcode : ¬ (c = jsonTypeCodeInt64 ∨ c = jsonTypeCodeUint64 ∨ c = jsonTypeCodeFloat64 ∨
            c = jsonTypeCodeDate ∨ c = jsonTypeCodeDatetime ∨ c = jsonTypeCodeTimestamp) := by
          rw [hop]
          decide
        rw [if_neg hcode, if_neg (by rw [hop]; decide), if_pos hop,
          sliceFrom_of_lt (by rw [length_cons, valTypeSize]; omega)] at h
        cases h
      · simp only [hop] at h ⊢
        exact h

end Tidb.Types
