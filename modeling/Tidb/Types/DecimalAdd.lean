import Tidb.Types.DecimalOps

/-!
# `DecimalAdd` and `DecimalSub`

The results as rational numbers.  Without an error they are exact.  When the fraction does not fit, both operands are
cut off behind the last digit that is kept before they are added, so a sum can be off by almost two units of that
digit.  The operands may be the variable that the result goes to.
-/

namespace Tidb.Types

open GoLang ByteNum Function MyDecimal

/-! ## Numbers cut off -/

def truncTo (k : Nat) (x : ℚ) : ℚ := (if x < 0 then -1 else 1) * (⌊|x| * 10 ^ k⌋₊ / 10 ^ k)

section TruncTo

variable (k : Nat) (x : ℚ)

theorem truncTo_of_nonneg {x : ℚ} (h : 0 ≤ x) : truncTo k x ≤ x ∧ x < truncTo k x + 1 / 10 ^ k := by
  have hpos : (0 : ℚ) < 10 ^ k := by positivity
  have hle := Nat.floor_le (show 0 ≤ x * 10 ^ k by positivity)
  have hlt := Nat.lt_floor_add_one (x * 10 ^ k)
  rw [truncTo, if_neg (by linarith), abs_of_nonneg h, one_mul, ← add_div, div_le_iff₀ hpos, lt_div_iff₀ hpos]
  exact ⟨hle, hlt⟩

theorem truncTo_neg : truncTo k (-x) = -truncTo k x := by
  rw [truncTo, truncTo, abs_neg]
  rcases lt_trichotomy x 0 with h | rfl | h
  · rw [if_neg (by linarith), if_pos h]
    ring
  · simp
  · rw [if_pos (by linarith), if_neg (by linarith)]
    ring

theorem truncTo_of_nonpos {x : ℚ} (h : x ≤ 0) : x ≤ truncTo k x ∧ truncTo k x - 1 / 10 ^ k < x := by
  have hneg := truncTo_of_nonneg k (neg_nonneg.mpr h)
  rw [truncTo_neg] at hneg
  exact ⟨by linarith, by linarith⟩

theorem abs_sub_truncTo : |x - truncTo k x| < 1 / 10 ^ k := by
  rcases le_total 0 x with h | h
  · have := truncTo_of_nonneg k h
    rw [abs_lt]
    constructor
    · linarith [show (0 : ℚ) < 1 / 10 ^ k by positivity]
    · linarith
  · have := truncTo_of_nonpos k h
    rw [abs_lt]
    constructor
    · linarith
    · linarith [show (0 : ℚ) < 1 / 10 ^ k by positivity]

variable {k x} {y : ℚ}

theorem truncTo_add_lt_two : |truncTo k x + truncTo k y - (x + y)| < 2 / 10 ^ k := by
  have hx := abs_lt.mp (abs_sub_truncTo k x)
  have hy := abs_lt.mp (abs_sub_truncTo k y)
  have htwo : (2 : ℚ) / 10 ^ k = 1 / 10 ^ k + 1 / 10 ^ k := by ring
  rw [abs_lt]
  constructor
  · linarith
  · linarith

theorem truncTo_add_lt_one (h : x * y ≤ 0 ∨ truncTo k x = x ∨ truncTo k y = y) :
    |truncTo k x + truncTo k y - (x + y)| < 1 / 10 ^ k := by
  have hx := abs_lt.mp (abs_sub_truncTo k x)
  have hy := abs_lt.mp (abs_sub_truncTo k y)
  rw [abs_lt]
  rcases h with h | h | h
  · rcases mul_nonpos_iff.mp h with ⟨hx0, hy0⟩ | ⟨hx0, hy0⟩
    · have h1 := truncTo_of_nonneg k hx0
      have h2 := truncTo_of_nonpos k hy0
      exact ⟨by linarith, by linarith⟩
    · have h1 := truncTo_of_nonpos k hx0
      have h2 := truncTo_of_nonneg k hy0
      exact ⟨by linarith, by linarith⟩
  · exact ⟨by linarith, by linarith⟩
  · exact ⟨by linarith, by linarith⟩

end TruncTo

/-! ## Results as numbers -/

def signed (negative : Bool) (x : ℚ) : ℚ := if negative then -x else x

theorem signed_not (b : Bool) (x : ℚ) : signed (!b) x = -signed b x := by
  cases b with
  | true => exact (neg_neg x).symm
  | false => rfl

theorem signed_add (b : Bool) (x y : ℚ) : signed b (x + y) = signed b x + signed b y := by
  cases b with
  | true => exact neg_add x y
  | false => rfl

theorem signed_sub (b : Bool) (x y : ℚ) : signed b (x - y) = signed b x + signed (!b) y := by
  cases b with
  | true => exact (neg_sub x y).trans (sub_eq_neg_add y x)
  | false => exact sub_eq_add_neg x y

theorem abs_signed (b : Bool) (x : ℚ) : |signed b x| = |x| := by
  cases b with
  | true => exact abs_neg x
  | false => rfl

theorem toRat_eq_signed (d : MyDecimal) : d.toRat = signed d.negative d.magnitude := rfl

theorem truncTo_signed (k : Nat) (b : Bool) (d : MyDecimal) :
    truncTo k (signed b d.magnitude) = signed b (d.scaled k / 10 ^ k) := by
  have hmag : truncTo k d.magnitude = d.scaled k / 10 ^ k := by
    rw [truncTo, if_neg (not_lt.mpr d.magnitude_nonneg), one_mul, abs_of_nonneg d.magnitude_nonneg, d.scaled_eq_floor]
  cases b with
  | true => exact (truncTo_neg k _).trans (congrArg Neg.neg hmag)
  | false => exact hmag

/-- The sum of two numbers, or with an error that of the numbers cut off behind the last digit kept. -/
structure SumOf (x y : ℚ) (r : MyDecimal) (err : Option Err) : Prop where
  errors : err = none ∨ err = some .errTruncated ∨ err = some .errOverflow
  whole : err = none → r.toRat = x + y
  cut : err = some .errTruncated → r.toRat = truncTo r.digitsFrac.toNat x + truncTo r.digitsFrac.toNat y
  near : err = some .errTruncated → |r.toRat - (x + y)| < 2 / 10 ^ r.digitsFrac.toNat
  nearer : err = some .errTruncated →
    x * y ≤ 0 ∨ truncTo r.digitsFrac.toNat x = x ∨ truncTo r.digitsFrac.toNat y = y →
      |r.toRat - (x + y)| < 1 / 10 ^ r.digitsFrac.toNat
  overflow : 10 ^ 81 ≤ |x + y| → err = some .errOverflow

theorem toRat_zeroMyDecimalWithFrac (frac : Int) : (zeroMyDecimalWithFrac frac).toRat = 0 := by
  have hwords : (zeroMyDecimalWithFrac frac).words = List.replicate 9 0 := rfl
  have hdigits : (zeroMyDecimalWithFrac frac).digits = 0 := by
    rw [digits, MyDecimal.used_eq, hwords, List.take_replicate, ofWords_replicate_zero]
  rw [toRat_eq_magnitude, magnitude, hdigits, Nat.cast_zero, zero_div, neg_zero, ite_self]

section Results

variable {d1 d2 : MyDecimal}

theorem Written.sumOf {dst r : MyDecimal} {err : Option Err} {N F V : Nat} {b : Bool}
    (h : Written d1 d2 dst r err N F V) (hval : r.toRat =
      signed d1.negative (d1.scaled (9 * F) / 10 ^ (9 * F)) + signed b (d2.scaled (9 * F) / 10 ^ (9 * F)))
    (hlt : |d1.toRat + signed b d2.magnitude| < 10 ^ 81) : SumOf d1.toRat (signed b d2.magnitude) r err := by
  have hsmall : 10 ^ 81 ≤ |d1.toRat + signed b d2.magnitude| → err = some .errOverflow :=
    fun hbig => absurd hlt (not_lt.mpr hbig)
  rcases h.kept with ⟨rfl, hF, -⟩ | ⟨rfl, -, -, hdigits⟩
  · refine ⟨.inl rfl, fun _ => ?_, by simp, by simp, by simp, hsmall⟩
    rw [hval, d1.scaled_of_le (by omega), d2.scaled_of_le (by omega), toRat_eq_signed]
  · have hk : r.digitsFrac.toNat = 9 * F := by omega
    have hcut : r.toRat = truncTo r.digitsFrac.toNat d1.toRat + truncTo r.digitsFrac.toNat (signed b d2.magnitude) := by
      rw [hk, toRat_eq_signed d1, truncTo_signed, truncTo_signed, hval]
    refine ⟨.inr (.inl rfl), by simp, fun _ => hcut, fun _ => ?_, fun _ hsign => ?_, hsmall⟩
    · rw [hcut]
      exact truncTo_add_lt_two
    · rw [hcut]
      exact truncTo_add_lt_one hsign

theorem doAdd_sumOf (h1 : d1.WellFormed) (h2 : d2.WellFormed) (dst : MyDecimal) :
    ∃ r err, doAdd d1 d2 dst = .ok (r, err) ∧ SumOf d1.toRat (signed d1.negative d2.magnitude) r err := by
  obtain ⟨r, err, hrun, rfl | ⟨N, F, hN, hlt, hneg, hw⟩⟩ := doAdd_spec h1 h2 dst
  · exact ⟨r, _, hrun, .inr (.inr rfl), by simp, by simp, by simp, by simp, fun _ => rfl⟩
  · refine ⟨r, err, hrun, hw.sumOf ?_ ?_⟩
    · rw [toRat_eq_signed, hneg, hw.magnitude_eq h1.sound h2.sound, Nat.cast_add, add_div, signed_add]
    · rw [toRat_eq_signed, ← signed_add, abs_signed,
        abs_of_nonneg (add_nonneg d1.magnitude_nonneg d2.magnitude_nonneg)]
      exact lt_of_lt_of_le hlt (pow_le_pow_right₀ (by norm_num) (by omega))

theorem doSub_sumOf (h1 : d1.Sound) (h2 : d2.Sound) (dst : MyDecimal) :
    ∃ r err, doSub d1 d2 dst = .ok (r, err) ∧ SumOf d1.toRat (signed (!d1.negative) d2.magnitude) r err := by
  have hsum : d1.toRat + signed (!d1.negative) d2.magnitude = signed d1.negative (d1.magnitude - d2.magnitude) :=
    (signed_sub ..).symm
  obtain ⟨r, err, hrun, ⟨heq, rfl, rfl⟩ | ⟨N, F, V, hw, -, hdiff⟩⟩ := doSub_spec h1 h2 dst
  · have hzero : d1.toRat + signed (!d1.negative) d2.magnitude = 0 := by
      rw [hsum, heq, sub_self, signed, neg_zero, ite_self]
    refine ⟨_, none, hrun, .inl rfl, fun _ => ?_, by simp, by simp, by simp, fun hbig => ?_⟩
    · rw [hzero, toRat_zeroMyDecimalWithFrac]
    · rw [hzero] at hbig
      norm_num at hbig
  · refine ⟨r, err, hrun, hw.sumOf ?_ ?_⟩
    · rw [← signed_sub, toRat_eq_signed, hw.magnitude_eq h1 h2, ← sub_div]
      cases hdiff with
      | first hlt hneg hF hval => rw [hneg, ← hval, Nat.cast_add, add_sub_cancel_right]
      | second hlt hneg hF hval =>
        rw [hneg, ← hval, Nat.cast_add, sub_add_cancel_right, neg_div]
        cases d1.negative with
        | true => exact (neg_neg _).symm
        | false => rfl
    · have hlt : ∀ d : MyDecimal, d.Sound → d.magnitude < 10 ^ 81 := by
        intro d hd
        have hwords := hd.words_le
        rw [maxWordBufLen] at hwords
        exact lt_of_lt_of_le hd.magnitude_lt (pow_le_pow_right₀ (by norm_num) (by omega))
      rw [hsum, abs_signed, abs_lt]
      exact ⟨by linarith [d1.magnitude_nonneg, hlt d2 h2], by linarith [d2.magnitude_nonneg, hlt d1 h1]⟩

/-- Which of the two is called is decided by the signs of the first operand and of the second, negated for a
difference. -/
theorem doAdd_or_doSub (h1 : d1.WellFormed) (h2 : d2.WellFormed) (b : Bool) (dst : MyDecimal) :
    ∃ r err, (if d1.negative = b then doAdd d1 d2 dst else doSub d1 d2 dst) = .ok (r, err) ∧
      SumOf d1.toRat (signed b d2.magnitude) r err := by
  by_cases hb : d1.negative = b
  · rw [if_pos hb, ← hb]
    exact doAdd_sumOf h1 h2 dst
  · rw [if_neg hb, Bool.eq_not_of_ne (Ne.symm hb)]
    exact doSub_sumOf h1.sound h2.sound dst

end Results

/-! ## The operations -/

def freshTarget (d1 d2 : MyDecimal) : MyDecimal :=
  { zeroMyDecimal with resultFrac := max d1.resultFrac d2.resultFrac }

theorem validateArgs_spec (a b c : Nat) (m : Heap) : ∃ f1 f2 m', validateArgs (.var a) (.var b)
    (.var c) m = (f1, f2, m') ∧
    f1 ≠ .var c ∧ f2 ≠ .var c ∧ m' f1 = m (.var a) ∧ m' f2 = m (.var b) ∧ m' (.var c) = zeroMyDecimal ∧
      ∀ n, n ≠ c → m' (.var n) = m (.var n) := by
  rw [validateArgs]
  by_cases ha : a = c
  · by_cases hb : b = c
    · exact ⟨.tmp1, .tmp2, _, by simp only [ha, hb, if_true]; rfl, by simp, by simp,
        by simp [update, ha], by simp [update, hb], by simp,
        fun n hn => by simp [update, hn]⟩
    · exact ⟨.tmp1, .var b, _, by simp only [Ref.var.injEq, ha, hb, if_true, if_false]; rfl, by simp,
        by simpa using hb, by simp [update, ha], by simp [update, hb], by simp,
        fun n hn => by simp [update, hn]⟩
  · by_cases hb : b = c
    · exact ⟨.var a, .tmp2, _, by simp only [Ref.var.injEq, ha, hb, if_true, if_false]; rfl, by simpa using ha,
        by simp, by simp [update, ha], by simp [update, hb], by simp,
        fun n hn => by simp [update, hn]⟩
    · exact ⟨.var a, .var b, _, by simp only [Ref.var.injEq, ha, hb, if_false]; rfl,
        by simpa using ha, by simpa using hb, by simp [update, ha], by simp [update, hb],
        by simp, fun n hn => by simp [update, hn]⟩

/-- The result goes to any variable, whatever the operands are, and no other one changes. -/
def Stores (op : Ref → Ref → Ref → Heap → Res (Heap × Option Err)) (m : Heap) (a b : Nat) (r : MyDecimal)
    (err : Option Err) : Prop :=
  ∀ c, ∃ m', op (.var a) (.var b) (.var c) m = .ok (m', err) ∧ m' (.var c) = r ∧ ∀ n, n ≠ c → m' (.var n) = m (.var n)

theorem decimalOp_stores {op : MyDecimal → MyDecimal → MyDecimal → Res (MyDecimal × Option Err)} {a b : Nat}
    {m : Heap} {r : MyDecimal} {err : Option Err}
    (hop : op (m (.var a)) (m (.var b)) (freshTarget (m (.var a)) (m (.var b))) = .ok (r, err)) :
    Stores (decimalOp op) m a b r err := by
  intro c
  obtain ⟨f1, f2, m₁, hval, hne1, hne2, hf1, hf2, hdst, hother⟩ := validateArgs_spec a b c m
  have hrun : op (m₁ f1) (m₁ f2) { m₁ (.var c) with resultFrac := max (m₁ f1).resultFrac (m₁ f2).resultFrac } =
      .ok (r, err) := by
    rw [hf1, hf2, hdst]
    exact hop
  refine ⟨update (update m₁ (.var c)
    { m₁ (.var c) with resultFrac := max (m₁ f1).resultFrac (m₁ f2).resultFrac }) (.var c) r, ?_, ?_, ?_⟩
  · rw [decimalOp, hval]
    simp only [update_self, update_of_ne hne1, update_of_ne hne2]
    rw [hrun]
    rfl
  · exact update_self ..
  · intro n hn
    rw [update_of_ne (by simpa using hn), update_of_ne (by simpa using hn), hother n hn]

/-- The sum and the difference, exact or with the errors of `SumOf`. -/
theorem decimalAdd_decimalSub_exact (m : Heap) (a b : Nat) (ha : (m (.var a)).WellFormed)
    (hb : (m (.var b)).WellFormed) : ∃ sum sumErr diff diffErr,
      Stores decimalAdd m a b sum sumErr ∧ SumOf (m (.var a)).toRat (m (.var b)).toRat sum sumErr ∧
      Stores decimalSub m a b diff diffErr ∧ SumOf (m (.var a)).toRat (-(m (.var b)).toRat) diff diffErr := by
  obtain ⟨sum, sumErr, hadd, hsum⟩ := doAdd_or_doSub ha hb (m (.var b)).negative (freshTarget _ _)
  obtain ⟨diff, diffErr, hsub, hdiff⟩ := doAdd_or_doSub ha hb (!(m (.var b)).negative) (freshTarget _ _)
  rw [signed_not] at hdiff
  refine ⟨sum, sumErr, diff, diffErr, decimalOp_stores hadd, hsum, decimalOp_stores ?_, hdiff⟩
  rw [← hsub]
  cases (m (.var a)).negative <;> cases (m (.var b)).negative <;> rfl

/-- Nines only, in five words in front of the point and four behind it. -/
def nines : MyDecimal := ⟨45, 36, 36, false, ⟨List.replicate 9 999999999, rfl⟩⟩

theorem nines_wellFormed : nines.WellFormed :=
  ⟨by decide, by decide, by decide, by decide, fun _ => by decide, fun _ => by decide, by decide⟩

theorem decimalAdd_decimalSub_exact_nines : nines.WellFormed ∧ ∃ sum sumErr,
    Stores decimalAdd (fun _ => nines) 0 0 sum sumErr ∧ SumOf nines.toRat nines.toRat sum sumErr := by
  obtain ⟨sum, sumErr, -, -, hadd, hsum, -⟩ :=
    decimalAdd_decimalSub_exact (fun _ => nines) 0 0 nines_wellFormed nines_wellFormed
  exact ⟨nines_wellFormed, sum, sumErr, hadd, hsum⟩

/-- The sum of two such numbers, with the last words of both cut off. -/
def ninesSum : MyDecimal := ⟨54, 27, 36, false, ⟨1 :: (List.replicate 7 999999999 ++ [999999998]), rfl⟩⟩

/-- A sum that is cut off by more than one unit of its last digit: both operands are cut off first. -/
theorem decimalAdd_off_by_more_than_one :
    ∃ m', decimalAdd (.var 0) (.var 0) (.var 1) (fun _ => nines) = .ok (m', some .errTruncated) ∧
      m' (.var 1) = ninesSum ∧ 1 / 10 ^ ninesSum.digitsFrac.toNat < |ninesSum.toRat - (nines.toRat + nines.toRat)| := by
  have hrun : doAdd nines nines (freshTarget nines nines) = .ok (ninesSum, some .errTruncated) := by decide +kernel
  obtain ⟨m', hadd, hval, -⟩ := @decimalOp_stores (fun from1 from2 dst =>
    if from1.negative = from2.negative then doAdd from1 from2 dst else doSub from1 from2 dst) 0 0
    (fun _ => nines) ninesSum (some .errTruncated) hrun 1
  refine ⟨m', hadd, hval, ?_⟩
  have hnines : nines.toRat = (10 ^ 81 - 1) / 10 ^ 36 := by
    rw [toRat_eq_magnitude, magnitude, show nines.digits = 10 ^ 81 - 1 by decide +kernel,
      show nines.wordsFrac = 4 from rfl, if_neg (by decide)]
    norm_num
  have hsum : ninesSum.toRat = 2 * (10 ^ 72 - 1) / 10 ^ 27 := by
    rw [toRat_eq_magnitude, magnitude,
      show ninesSum.digits = 2 * (10 ^ 72 - 1) by decide +kernel, show ninesSum.wordsFrac = 3 from rfl,
      if_neg (by decide)]
    norm_num
  rw [hnines, hsum, show ninesSum.digitsFrac.toNat = 27 from rfl]
  norm_num

end Tidb.Types
