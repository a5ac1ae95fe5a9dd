import Tidb.Lib.Binary
import Tidb.Lib.Word64

/-!
# Integer arithmetic with overflow checks (`types/overflow.go`)

Each function guards an operation on machine words.  The guards compute with machine words themselves: a negation
of the least integer is that integer again.
-/

namespace Tidb.Types

open GoLang

structure OverflowErr where
  typeName : String
  operands : String
  deriving DecidableEq, Repr

def errOverflow (typeName : String) (a b : Int) : OverflowErr := ⟨typeName, s!"({a}, {b})"⟩

abbrev Checked := Outcome OverflowErr

def maxUint64 : UInt64 := 0xFFFFFFFFFFFFFFFF

/-! ## Sums -/

def addUint64 (a b : UInt64) : Checked UInt64 :=
  if maxUint64 - a < b then .error (errOverflow "BIGINT UNSIGNED" a.toNat b.toNat) else .ok (a + b)

def addInt64 (a b : Int64) : Checked Int64 :=
  if (0 < a ∧ 0 < b ∧ Int64.maxValue - a < b) ∨ (a < 0 ∧ b < 0 ∧ b < Int64.minValue - a) then
    .error (errOverflow "BIGINT" a.toInt b.toInt)
  else .ok (a + b)

/-- A `time.Duration` is an `int64`. -/
def addDuration (a b : Int64) : Checked Int64 := addInt64 a b

def addInteger (a : UInt64) (b : Int64) : Checked UInt64 :=
  if 0 ≤ b then addUint64 a b.toUInt64
  else if a < (-b).toUInt64 then .error (errOverflow "BIGINT UNSIGNED" a.toNat b.toInt)
  else .ok (a - (-b).toUInt64)

/-! ## Differences -/

def subUint64 (a b : UInt64) : Checked UInt64 :=
  if a < b then .error (errOverflow "BIGINT UNSIGNED" a.toNat b.toNat) else .ok (a - b)

def subInt64 (a b : Int64) : Checked Int64 :=
  if (0 < a ∧ b < 0 ∧ Int64.maxValue - a < -b) ∨ (a < 0 ∧ 0 < b ∧ -b < Int64.minValue - a) ∨
      (a = 0 ∧ b = Int64.minValue) then
    .error (errOverflow "BIGINT" a.toInt b.toInt)
  else .ok (a - b)

def subDuration (a b : Int64) : Checked Int64 := subInt64 a b

def subUintWithInt (a : UInt64) (b : Int64) : Checked UInt64 :=
  if b < 0 then addUint64 a (-b).toUInt64 else subUint64 a b.toUInt64

def subIntWithUint (a : Int64) (b : UInt64) : Checked UInt64 :=
  if a < 0 ∨ a.toUInt64 < b then .error (errOverflow "BIGINT UNSIGNED" a.toInt b.toNat) else .ok (a.toUInt64 - b)

/-! ## Products -/

def mulUint64 (a b : UInt64) : Checked UInt64 :=
  if 0 < b ∧ maxUint64 / b < a then .error (errOverflow "BIGINT UNSIGNED" a.toNat b.toNat) else .ok (a * b)

def mulMagnitudes (a b : Int64) : Bool × Checked UInt64 :=
  if 0 < a ∧ 0 < b then (false, mulUint64 a.toUInt64 b.toUInt64)
  else if a < 0 ∧ b < 0 then (false, mulUint64 (-a).toUInt64 (-b).toUInt64)
  else if a < 0 ∧ 0 < b then (true, mulUint64 (-a).toUInt64 b.toUInt64)
  else (true, mulUint64 a.toUInt64 (-b).toUInt64)

def mulInt64 (a b : Int64) : Checked Int64 :=
  if a = 0 ∨ b = 0 then .ok 0
  else
    let (negative, res) := mulMagnitudes a b
    do
      let res ← res
      if negative then
        if 0x8000000000000000 < res then .error (errOverflow "BIGINT" a.toInt b.toInt) else .ok (-res.toInt64)
      else if 0x7FFFFFFFFFFFFFFF < res then .error (errOverflow "BIGINT" a.toInt b.toInt)
      else .ok res.toInt64

def mulInteger (a : UInt64) (b : Int64) : Checked UInt64 :=
  if a = 0 ∨ b = 0 then .ok 0
  else if b < 0 then .error (errOverflow "BIGINT UNSIGNED" a.toNat b.toInt)
  else mulUint64 a b.toUInt64

/-! ## Quotients

A division by zero panics. -/

def divInt64 (a b : Int64) : Checked Int64 :=
  if a = Int64.minValue ∧ b = -1 then .error (errOverflow "BIGINT" a.toInt b.toInt)
  else if b = 0 then .fault
  else .ok (a / b)

def divUintWithInt (a : UInt64) (b : Int64) : Checked UInt64 :=
  if b < 0 then
    if a ≠ 0 ∧ (-b).toUInt64 ≤ a then .error (errOverflow "BIGINT UNSIGNED" a.toNat b.toInt) else .ok 0
  else if b = 0 then .fault
  else .ok (a / b.toUInt64)

def divIntWithUint (a : Int64) (b : UInt64) : Checked UInt64 :=
  if a < 0 then
    if b ≤ (-a).toUInt64 then .error (errOverflow "BIGINT UNSIGNED" a.toInt b.toNat) else .ok 0
  else if b = 0 then .fault
  else .ok (a.toUInt64 / b)

/-! ## Exact results -/

def IsUint64 (x : ℤ) : Prop := 0 ≤ x ∧ x < 2 ^ 64

def Exact {α : Type} (val : α → ℤ) (fits : ℤ → Prop) (x : ℤ) (r : Checked α) : Prop :=
  (fits x → ∃ v, r = .ok v ∧ val v = x) ∧ (¬ fits x → ∃ err, r = .error err)

def ExactInt (x : ℤ) (r : Checked Int64) : Prop := Exact Int64.toInt IsInt64 x r

def ExactUint (x : ℤ) (r : Checked UInt64) : Prop := Exact (fun v => (v.toNat : ℤ)) IsUint64 x r

section Exact

variable {x : ℤ} {a : Int64} {u : UInt64}

theorem exactInt_ok (h : a.toInt = x) : ExactInt x (.ok a) :=
  ⟨fun _ => ⟨a, rfl, h⟩, absurd (h ▸ isInt64_toInt a)⟩

theorem exactUint_ok (h : (u.toNat : ℤ) = x) : ExactUint x (.ok u) :=
  ⟨fun _ => ⟨u, rfl, h⟩, absurd ⟨by omega, by have := u.toNat_lt; omega⟩⟩

theorem exactInt_error (h : x < -2 ^ 63 ∨ 2 ^ 63 ≤ x) (err : OverflowErr) : ExactInt x (.error err) :=
  ⟨fun hfits => absurd h (by unfold IsInt64 at hfits; omega), fun _ => ⟨err, rfl⟩⟩

theorem exactUint_error (h : x < 0 ∨ 2 ^ 64 ≤ x) (err : OverflowErr) : ExactUint x (.error err) :=
  ⟨fun hfits => absurd h (by unfold IsUint64 at hfits; omega), fun _ => ⟨err, rfl⟩⟩

theorem not_exact_ok (hnot : ¬ IsInt64 x) : ¬ ExactInt x (.ok a) := by
  intro h
  obtain ⟨err, herr⟩ := h.2 hnot
  cases herr

theorem lt_zero_iff : a < 0 ↔ a.toInt < 0 := Int64.lt_iff_toInt_lt

theorem eq_zero_iff : a = 0 ↔ a.toInt = 0 := Int64.toInt_inj.symm

theorem toNat_neg (ha : a.toInt < 0) : ((-a).toUInt64.toNat : ℤ) = -a.toInt := by
  obtain ⟨h, h'⟩ := isInt64_toInt a
  rw [toNat_toUInt64, toInt_neg, uint64_int64]
  unfold uint64
  omega

theorem toNat_of_nonneg (ha : 0 ≤ a.toInt) : (a.toUInt64.toNat : ℤ) = a.toInt := by
  obtain ⟨h, h'⟩ := isInt64_toInt a
  rw [toNat_toUInt64]
  unfold uint64
  omega

end Exact

variable (a b : Int64) (u v : UInt64)

theorem maxUint64_toNat : maxUint64.toNat = 2 ^ 64 - 1 := rfl

theorem maxValue_toInt : Int64.maxValue.toInt = 2 ^ 63 - 1 := rfl

theorem minValue_toInt : Int64.minValue.toInt = -2 ^ 63 := rfl

/-! ## Sums and differences -/

theorem exact_addUint64 : ExactUint (u.toNat + v.toNat) (addUint64 u v) := by
  have hu := u.toNat_lt
  have hsub : (maxUint64 - u).toNat = 2 ^ 64 - 1 - u.toNat := by
    rw [UInt64.toNat_sub, maxUint64_toNat]
    omega
  unfold addUint64
  simp only [UInt64.lt_iff_toNat_lt]
  split
  · exact exactUint_error (by omega) _
  · apply exactUint_ok
    rw [UInt64.toNat_add]
    omega

theorem exact_addInt64 : ExactInt (a.toInt + b.toInt) (addInt64 a b) := by
  obtain ⟨ha, ha'⟩ := isInt64_toInt a
  obtain ⟨hb, hb'⟩ := isInt64_toInt b
  unfold addInt64
  simp only [Int64.lt_iff_toInt_lt, toInt_sub, maxValue_toInt, minValue_toInt, Int64.toInt_zero]
  unfold int64
  split
  · exact exactInt_error (by omega) _
  · exact exactInt_ok ((toInt_add a b).trans (int64_of_isInt64 ⟨by omega, by omega⟩))

theorem exact_subUint64 : ExactUint (u.toNat - v.toNat) (subUint64 u v) := by
  have hu := u.toNat_lt
  unfold subUint64
  simp only [UInt64.lt_iff_toNat_lt]
  split
  · exact exactUint_error (by omega) _
  · apply exactUint_ok
    rw [UInt64.toNat_sub]
    omega

theorem exact_addInteger : ExactUint (u.toNat + b.toInt) (addInteger u b) := by
  have hu := u.toNat_lt
  have hsign : 0 ≤ b ↔ 0 ≤ b.toInt := Int64.le_iff_toInt_le
  unfold addInteger
  by_cases hb : 0 ≤ b.toInt
  · rw [if_pos (hsign.mpr hb), ← toNat_of_nonneg hb]
    exact exact_addUint64 u b.toUInt64
  · have hneg := toNat_neg (not_le.mp hb)
    rw [if_neg (mt hsign.mp hb)]
    simp only [UInt64.lt_iff_toNat_lt]
    split
    · exact exactUint_error (by omega) _
    · apply exactUint_ok
      rw [UInt64.toNat_sub]
      omega

theorem exact_subUintWithInt : ExactUint (u.toNat - b.toInt) (subUintWithInt u b) := by
  unfold subUintWithInt
  by_cases hb : b.toInt < 0
  · rw [if_pos (lt_zero_iff.mpr hb), sub_eq_add_neg, ← toNat_neg hb]
    exact exact_addUint64 u (-b).toUInt64
  · rw [if_neg (mt lt_zero_iff.mp hb), ← toNat_of_nonneg (not_lt.mp hb)]
    exact exact_subUint64 u b.toUInt64

theorem exact_subIntWithUint : ExactUint (a.toInt - v.toNat) (subIntWithUint a v) := by
  unfold subIntWithUint
  by_cases ha : a.toInt < 0
  · rw [if_pos (.inl (lt_zero_iff.mpr ha))]
    exact exactUint_error (by omega) _
  · rw [← toNat_of_nonneg (not_lt.mp ha)]
    have hsub := exact_subUint64 a.toUInt64 v
    unfold subUint64 at hsub
    by_cases hlt : a.toUInt64 < v
    · rw [if_pos (.inr hlt)]
      rwa [if_pos hlt] at hsub
    · rw [if_neg (by rw [lt_zero_iff]; exact not_or.mpr ⟨ha, hlt⟩)]
      rwa [if_neg hlt] at hsub

theorem exact_subInt64_iff : ExactInt (a.toInt - b.toInt) (subInt64 a b) ↔ ¬ (0 < a ∧ b = Int64.minValue) := by
  obtain ⟨ha, ha'⟩ := isInt64_toInt a
  obtain ⟨hb, hb'⟩ := isInt64_toInt b
  have hwrap := toInt_neg b
  unfold subInt64
  simp only [Int64.lt_iff_toInt_lt, ← Int64.toInt_inj, toInt_sub, hwrap, maxValue_toInt, minValue_toInt,
    Int64.toInt_zero]
  by_cases hbug : 0 < a.toInt ∧ b.toInt = -2 ^ 63
  · -- the negated operand is negative, and the guard does not see the overflow
    rw [if_neg (by unfold int64; omega)]
    refine iff_of_false (not_exact_ok ?_) (not_not.mpr hbug)
    unfold IsInt64
    omega
  · refine iff_of_true ?_ hbug
    unfold int64
    split
    · exact exactInt_error (by omega) _
    · exact exactInt_ok ((toInt_sub a b).trans (int64_of_isInt64 ⟨by omega, by omega⟩))

/-! ## Products and quotients -/

theorem exact_mulUint64 : ExactUint (u.toNat * v.toNat) (mulUint64 u v) := by
  unfold mulUint64
  have hle : 0 < v.toNat → (u.toNat ≤ (2 ^ 64 - 1) / v.toNat ↔ u.toNat * v.toNat ≤ 2 ^ 64 - 1) :=
    fun hpos => Nat.le_div_iff_mul_le hpos
  split
  · rename_i hguard
    have hbig := mt (hle hguard.1).mpr (not_le.mpr hguard.2)
    exact exactUint_error (by omega) _
  · rename_i hguard
    have hsmall : u.toNat * v.toNat ≤ 2 ^ 64 - 1 := by
      rcases Nat.eq_zero_or_pos v.toNat with h0 | hpos
      · rw [h0]
        exact Nat.zero_le _
      · exact (hle hpos).mp (not_lt.mp fun h => hguard ⟨hpos, h⟩)
    apply exactUint_ok
    rw [UInt64.toNat_mul]
    omega

theorem mulMagnitudes_spec {a b : Int64} (ha : a.toInt ≠ 0) (hb : b.toInt ≠ 0) :
    ExactUint |a.toInt * b.toInt| (mulMagnitudes a b).2 ∧ ((mulMagnitudes a b).1 = true ↔ a.toInt * b.toInt < 0) := by
  have hposa : 0 < a ↔ 0 < a.toInt := Int64.lt_iff_toInt_lt
  have hposb : 0 < b ↔ 0 < b.toInt := Int64.lt_iff_toInt_lt
  unfold mulMagnitudes
  simp only [hposa, hposb, lt_zero_iff]
  rcases lt_or_gt_of_ne ha with hna | hpa <;> rcases lt_or_gt_of_ne hb with hnb | hpb
  · have hpos := mul_pos_of_neg_of_neg hna hnb
    rw [if_neg (by omega), if_pos ⟨hna, hnb⟩, abs_of_pos hpos]
    refine ⟨?_, iff_of_false Bool.false_ne_true (by omega)⟩
    rw [← neg_mul_neg, ← toNat_neg hna, ← toNat_neg hnb]
    exact exact_mulUint64 _ _
  · have hneg := mul_neg_of_neg_of_pos hna hpb
    rw [if_neg (by omega), if_neg (by omega), if_pos ⟨hna, hpb⟩, abs_of_neg hneg]
    refine ⟨?_, iff_of_true rfl hneg⟩
    rw [← neg_mul, ← toNat_neg hna, ← toNat_of_nonneg hpb.le]
    exact exact_mulUint64 _ _
  · have hneg := mul_neg_of_pos_of_neg hpa hnb
    rw [if_neg (by omega), if_neg (by omega), if_neg (by omega), abs_of_neg hneg]
    refine ⟨?_, iff_of_true rfl hneg⟩
    rw [← mul_neg, ← toNat_neg hnb, ← toNat_of_nonneg hpa.le]
    exact exact_mulUint64 _ _
  · have hpos := mul_pos hpa hpb
    rw [if_pos ⟨hpa, hpb⟩, abs_of_pos hpos]
    refine ⟨?_, iff_of_false Bool.false_ne_true (by omega)⟩
    rw [← toNat_of_nonneg hpa.le, ← toNat_of_nonneg hpb.le]
    exact exact_mulUint64 _ _

theorem exact_mulInt64 : ExactInt (a.toInt * b.toInt) (mulInt64 a b) := by
  unfold mulInt64
  simp only [eq_zero_iff]
  by_cases hzero : a.toInt = 0 ∨ b.toInt = 0
  · rw [if_pos hzero, mul_eq_zero.mpr hzero]
    exact exactInt_ok rfl
  rw [if_neg hzero]
  rw [not_or] at hzero
  obtain ⟨hexact, hsign⟩ := mulMagnitudes_spec hzero.1 hzero.2
  have hne := mul_ne_zero hzero.1 hzero.2
  generalize a.toInt * b.toInt = x at hexact hsign hne
  by_cases hfits : IsUint64 |x|
  · obtain ⟨w, hres, hw⟩ := hexact.1 hfits
    dsimp only at hw
    have hword := toInt_toInt64 w
    have hmin : 0x8000000000000000 < w ↔ 2 ^ 63 < w.toNat := UInt64.lt_iff_toNat_lt
    have hmax : 0x7FFFFFFFFFFFFFFF < w ↔ 2 ^ 63 - 1 < w.toNat := UInt64.lt_iff_toNat_lt
    rw [hres, Outcome.ok_bind]
    simp only [hmin, hmax]
    by_cases hneg : x < 0
    · rw [abs_of_neg hneg] at hw
      rw [if_pos (hsign.mpr hneg)]
      split
      · exact exactInt_error (by omega) _
      · apply exactInt_ok
        rw [toInt_neg, hword]
        unfold int64
        omega
    · rw [abs_of_pos (by omega)] at hw
      rw [if_neg (mt hsign.mp hneg)]
      split
      · exact exactInt_error (by omega) _
      · apply exactInt_ok
        rw [hword]
        unfold int64
        omega
  · obtain ⟨err, hres⟩ := hexact.2 hfits
    rw [hres]
    refine exactInt_error ?_ err
    by_contra hint
    exact hfits ⟨abs_nonneg x, lt_of_le_of_lt (abs_le.mpr ⟨by omega, by omega⟩) (show (2 : ℤ) ^ 63 < _ by norm_num)⟩

theorem exact_mulInteger : ExactUint (u.toNat * b.toInt) (mulInteger u b) := by
  have hzu : u = 0 ↔ u.toNat = 0 := UInt64.toNat_inj.symm
  unfold mulInteger
  simp only [hzu, eq_zero_iff, lt_zero_iff]
  by_cases hzero : u.toNat = 0 ∨ b.toInt = 0
  · rw [if_pos hzero, mul_eq_zero.mpr (hzero.imp_left fun h => by rw [h]; rfl)]
    exact exactUint_ok rfl
  rw [if_neg hzero]
  split
  · have hneg : (u.toNat : ℤ) * b.toInt < 0 := mul_neg_of_pos_of_neg (by omega) ‹_›
    exact exactUint_error (.inl hneg) _
  · rw [← toNat_of_nonneg (not_lt.mp ‹_›)]
    exact exact_mulUint64 u b.toUInt64

theorem isInt64_tdiv {x y : ℤ} (hx : IsInt64 x) (hy : y ≠ 0) (hnot : ¬ (x = -2 ^ 63 ∧ y = -1)) :
    IsInt64 (x.tdiv y) := by
  unfold IsInt64 at *
  have habs : (x.tdiv y).natAbs = x.natAbs / y.natAbs := Int.natAbs_tdiv x y
  by_cases htwo : 2 ≤ y.natAbs
  · have hhalf : x.natAbs / y.natAbs ≤ x.natAbs / 2 := Nat.div_le_div_left htwo (by norm_num)
    omega
  · obtain rfl | rfl : y = 1 ∨ y = -1 := by omega
    · rw [Int.tdiv_one]
      exact hx
    · rw [Int.tdiv_neg, Int.tdiv_one]
      omega

theorem exact_divInt64 (hb : b ≠ 0) : ExactInt (a.toInt.tdiv b.toInt) (divInt64 a b) := by
  have hguard : a = Int64.minValue ∧ b = -1 ↔ a.toInt = -2 ^ 63 ∧ b.toInt = -1 := by
    rw [← Int64.toInt_inj, ← Int64.toInt_inj]
    rfl
  unfold divInt64
  by_cases hmin : a.toInt = -2 ^ 63 ∧ b.toInt = -1
  · rw [if_pos (hguard.mpr hmin), hmin.1, hmin.2]
    exact exactInt_error (by decide) _
  · rw [if_neg (mt hguard.mp hmin), if_neg hb]
    exact exactInt_ok ((toInt_div a b).trans
      (int64_of_isInt64 (isInt64_tdiv (isInt64_toInt a) (mt eq_zero_iff.mpr hb) hmin)))

theorem exact_quotient : ExactUint ((u.toNat : ℤ).tdiv v.toNat) (.ok (u / v)) := by
  apply exactUint_ok
  rw [UInt64.toNat_div, Int.tdiv_eq_ediv_of_nonneg (Int.natCast_nonneg _), Int.natCast_div]

/-- A quotient of numbers with different signs is exact only if it is 0. -/
theorem exact_quotient_neg {m n : ℕ} (hn : 0 < n) {c : Prop} [Decidable c] (hc : c ↔ n ≤ m) (err : OverflowErr) :
    ExactUint ((m : ℤ).tdiv (-n)) (if c then .error err else .ok 0) := by
  rw [Int.tdiv_neg, Int.tdiv_eq_ediv_of_nonneg (Int.natCast_nonneg m), ← Int.natCast_div]
  split
  · have hpos := Nat.div_pos (hc.mp ‹_›) hn
    exact exactUint_error (by omega) _
  · rw [Nat.div_eq_of_lt (not_le.mp (mt hc.mpr ‹_›))]
    exact exactUint_ok rfl

theorem exact_divUintWithInt (hb : b ≠ 0) : ExactUint ((u.toNat : ℤ).tdiv b.toInt) (divUintWithInt u b) := by
  unfold divUintWithInt
  by_cases hneg : b.toInt < 0
  · have hmag := toNat_neg hneg
    rw [if_pos (lt_zero_iff.mpr hneg), show b.toInt = -((-b).toUInt64.toNat : ℤ) by omega]
    apply exact_quotient_neg (by omega)
    rw [ne_eq, ← UInt64.toNat_inj, UInt64.le_iff_toNat_le, UInt64.toNat_zero]
    omega
  · rw [if_neg (mt lt_zero_iff.mp hneg), if_neg hb, ← toNat_of_nonneg (not_lt.mp hneg)]
    exact exact_quotient u _

theorem exact_divIntWithUint (hv : v ≠ 0) : ExactUint (a.toInt.tdiv v.toNat) (divIntWithUint a v) := by
  unfold divIntWithUint
  by_cases hneg : a.toInt < 0
  · rw [if_pos (lt_zero_iff.mpr hneg), ← neg_neg a.toInt, ← toNat_neg hneg, Int.neg_tdiv, ← Int.tdiv_neg]
    exact exact_quotient_neg (Nat.pos_of_ne_zero fun h => hv (UInt64.toNat_inj.mp h)) UInt64.le_iff_toNat_le _
  · rw [if_neg (mt lt_zero_iff.mp hneg), if_neg hv, ← toNat_of_nonneg (not_lt.mp hneg)]
    exact exact_quotient _ v

/-- The functions that are exact for all operands. -/
structure AlwaysExact : Prop where
  addInt64 : ExactInt (a.toInt + b.toInt) (addInt64 a b)
  addUint64 : ExactUint (u.toNat + v.toNat) (addUint64 u v)
  addInteger : ExactUint (u.toNat + b.toInt) (addInteger u b)
  addDuration : ExactInt (a.toInt + b.toInt) (addDuration a b)
  subUint64 : ExactUint (u.toNat - v.toNat) (subUint64 u v)
  subUintWithInt : ExactUint (u.toNat - b.toInt) (subUintWithInt u b)
  subIntWithUint : ExactUint (a.toInt - v.toNat) (subIntWithUint a v)
  mulInt64 : ExactInt (a.toInt * b.toInt) (mulInt64 a b)
  mulUint64 : ExactUint (u.toNat * v.toNat) (mulUint64 u v)
  mulInteger : ExactUint (u.toNat * b.toInt) (mulInteger u b)
  divInt64 : b ≠ 0 → ExactInt (a.toInt.tdiv b.toInt) (divInt64 a b)
  divUintWithInt : b ≠ 0 → ExactUint ((u.toNat : ℤ).tdiv b.toInt) (divUintWithInt u b)
  divIntWithUint : v ≠ 0 → ExactUint (a.toInt.tdiv v.toNat) (divIntWithUint a v)

/-- A difference of signed integers is exact unless the least integer is subtracted from a positive one. -/
theorem overflow_checks_iff : AlwaysExact a b u v ∧
    (ExactInt (a.toInt - b.toInt) (subInt64 a b) ∧ ExactInt (a.toInt - b.toInt) (subDuration a b) ↔
      ¬ (0 < a ∧ b = Int64.minValue)) :=
  ⟨⟨exact_addInt64 a b, exact_addUint64 u v, exact_addInteger b u, exact_addInt64 a b, exact_subUint64 u v,
    exact_subUintWithInt b u, exact_subIntWithUint a v, exact_mulInt64 a b, exact_mulUint64 u v, exact_mulInteger b u,
    exact_divInt64 a b, exact_divUintWithInt b u, exact_divIntWithUint a v⟩,
    (and_self_iff).trans (exact_subInt64_iff a b)⟩

/-- `1 - (-2^63)` is not an `int64`, and comes back as `-2^63 + 1`. -/
theorem subInt64_one_minValue : subInt64 1 Int64.minValue = .ok (Int64.minValue + 1) ∧
    subDuration 1 Int64.minValue = .ok (Int64.minValue + 1) ∧ ¬ IsInt64 ((1 : Int64).toInt - Int64.minValue.toInt) ∧
    ¬ ExactInt ((1 : Int64).toInt - Int64.minValue.toInt) (subInt64 1 Int64.minValue) := by
  have hsub : subInt64 1 Int64.minValue = .ok (Int64.minValue + 1) := by decide +kernel
  have hnot : ¬ IsInt64 ((1 : Int64).toInt - Int64.minValue.toInt) := by
    unfold IsInt64
    decide +kernel
  refine ⟨hsub, hsub, hnot, ?_⟩
  exact not_exact_ok hnot

end Tidb.Types
