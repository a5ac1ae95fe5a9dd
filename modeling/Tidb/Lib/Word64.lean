import Mathlib.Tactic

/-!
# 64-bit words as integers

`int64` and `uint64` bring an integer into the range of the type, as the conversions and the operations
of Go do.  A sum or a product of several terms is brought into the range once: the rings commute with
it.
-/

namespace GoLang

def int64 (x : ℤ) : ℤ := (x + 0x8000000000000000) % 0x10000000000000000 - 0x8000000000000000

def uint64 (x : ℤ) : ℤ := x % 0x10000000000000000

def maxInt64 : ℤ := 0x7FFFFFFFFFFFFFFF

def maxUint64 : ℤ := 0xFFFFFFFFFFFFFFFF

def IsInt64 (x : ℤ) : Prop := -2 ^ 63 ≤ x ∧ x < 2 ^ 63

theorem isInt64_int64 (x : ℤ) : IsInt64 (int64 x) := by
  unfold IsInt64 int64
  omega

theorem int64_of_isInt64 {x : ℤ} (h : IsInt64 x) : int64 x = x := by
  unfold IsInt64 at h
  unfold int64
  omega

theorem le_maxInt64 {x : ℤ} (h : IsInt64 x) : x ≤ maxInt64 := by
  unfold IsInt64 at h
  unfold maxInt64
  omega

@[simp] theorem uint64_int64 (x : ℤ) : uint64 (int64 x) = uint64 x := by
  unfold uint64 int64
  omega

theorem uint64_nonneg (x : ℤ) : 0 ≤ uint64 x := by
  unfold uint64
  omega

theorem uint64_le (x : ℤ) : uint64 x ≤ maxUint64 := by
  unfold uint64 maxUint64
  omega

theorem uint64_of_nonneg {x : ℤ} (h : 0 ≤ x) (hx : x ≤ maxUint64) : uint64 x = x := by
  unfold maxUint64 at hx
  unfold uint64
  omega

/-! ## Machine words

The operations of the fixed-width types are those of the integers, brought into the range. -/

theorem isInt64_toInt (a : Int64) : IsInt64 a.toInt := ⟨Int64.le_toInt a, Int64.toInt_lt a⟩

theorem bmod_two_pow (x : ℤ) : x.bmod (2 ^ 64) = int64 x := by
  have h := Int.bmod_def x (2 ^ 64)
  rw [h]
  unfold int64
  split <;> omega

theorem toInt_add (a b : Int64) : (a + b).toInt = int64 (a.toInt + b.toInt) := by rw [Int64.toInt_add, bmod_two_pow]

theorem toInt_sub (a b : Int64) : (a - b).toInt = int64 (a.toInt - b.toInt) := by rw [Int64.toInt_sub, bmod_two_pow]

theorem toInt_neg (a : Int64) : (-a).toInt = int64 (-a.toInt) := by rw [Int64.toInt_neg, bmod_two_pow]

theorem toInt_div (a b : Int64) : (a / b).toInt = int64 (a.toInt.tdiv b.toInt) := by rw [Int64.toInt_div, bmod_two_pow]

theorem toInt_toInt64 (u : UInt64) : u.toInt64.toInt = int64 u.toNat := by
  rw [← Int64.toInt_toBitVec, BitVec.toInt_eq_toNat_bmod, bmod_two_pow]
  rfl

theorem toNat_toUInt64 (a : Int64) : (a.toUInt64.toNat : ℤ) = uint64 a.toInt := by
  have h := a.toUInt64.toNat_lt
  have hint : a.toInt = int64 a.toUInt64.toNat := by rw [← toInt_toInt64, Int64.toInt64_toUInt64]
  rw [hint, uint64_int64]
  unfold uint64
  omega

end GoLang
