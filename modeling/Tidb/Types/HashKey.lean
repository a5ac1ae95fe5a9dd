import Tidb.Types.BinOrder

/-!
# Hash keys of decimals (`ToHashKey` of `types/mydecimal.go`)

The key of a decimal is its binary form with the digits that are left when the zeros at both ends
are removed, and the number of the digits behind the point.  Decimals have the same key if they are
equal and only then.
-/

namespace Tidb.Types

open GoLang ByteNum List Outcome

/-- `countTrailingZeroes`, for the powers from `i` on; a word that is zero runs the index off the
table, which has ten of them. -/
def countTrailingZeroesLoop : Nat → Int → Int → Res Int
  | 0, _, _ => .fault
  | fuel + 1, i, word => do
    let p ← powers10 i
    if word.tmod p = 0 then
      let trailing ← countTrailingZeroesLoop fuel (i + 1) word
      return trailing + 1
    else return 0

def countTrailingZeroes (i word : Int) : Res Int := countTrailingZeroesLoop 11 i word

/-- The loop of `removeTrailingZeros`, down from the word in front of `lastWordIdx`; it stops at the
beginning of the buffer at the latest. -/
def removeTrailingZerosLoop (w : WordBuf) : Nat → Int → Int → Int → Res (Int × Int)
  | 0, _, _, _ => .fault
  | fuel + 1, lastWordIdx, digitsFrac, i =>
    if 0 < digitsFrac then do
      let word ← w.get (lastWordIdx - 1)
      if word = 0 then
        removeTrailingZerosLoop w fuel (lastWordIdx - 1) (digitsFrac - i) digitsPerWord
      else return (lastWordIdx, digitsFrac)
    else return (lastWordIdx, digitsFrac)

def removeTrailingZeros (d : MyDecimal) : Res (Int × Int) := do
  let i := (d.digitsFrac - 1).tmod digitsPerWord + 1
  let (lastWordIdx, digitsFrac) ← removeTrailingZerosLoop d.wordBuf (maxWordBufLen + 1)
    (digitsToWords d.digitsInt + digitsToWords d.digitsFrac) d.digitsFrac i
  if 0 < digitsFrac then do
    let word ← d.wordBuf.get (lastWordIdx - 1)
    let trailing ← countTrailingZeroes (9 - (digitsFrac - 1).tmod digitsPerWord) word
    return (lastWordIdx, digitsFrac - trailing)
  else return (lastWordIdx, 0)

def toBin (d : MyDecimal) (precision frac : Int) : Res (Bytes × Option Err) :=
  writeBin d precision frac [] []

def toHashKey (d : MyDecimal) : Res (Bytes × Option Err) := do
  let (_, digitsInt) ← removeLeadingZeros d
  let (_, digitsFrac) ← removeTrailingZeros d
  let prec := digitsInt + digitsFrac
  let prec := if prec = 0 then 1 else prec
  let (buf, err) ← toBin d prec digitsFrac
  -- the digits that are cut off are zeros
  let err := if err = some .errTruncated then none else err
  return (buf ++ [UInt8.ofNat (digitsFrac % 256).toNat], err)

/-! ## Trailing zeros -/

theorem countTrailingZeroesLoop_spec {fuel i w : Nat} (hpos : 0 < w) (hlt : w < 10 ^ 9) (hi : i ≤ 9)
    (hfuel : 10 ≤ fuel + i) :
    ∃ t : Nat, countTrailingZeroesLoop fuel i w = .ok (t : Int) ∧ i + t ≤ 9 ∧ ¬ 10 ^ (i + t) ∣ w ∧
      (0 < t → 10 ^ (i + t - 1) ∣ w) := by
  induction fuel generalizing i with
  | zero => omega
  | succ fuel ih =>
    rw [countTrailingZeroesLoop, powers10_natCast (by omega), ok_bind]
    by_cases hdvd : 10 ^ i ∣ w
    · -- a word that all powers divide would be zero
      have hi9 : i ≠ 9 := by
        rintro rfl
        exact absurd (Nat.le_of_dvd hpos hdvd) (by omega)
      obtain ⟨t, hrun, hle, hstop, hlast⟩ := ih (show i + 1 ≤ 9 by omega) (by omega)
      refine ⟨t + 1, ?_, by omega, by rwa [show i + (t + 1) = i + 1 + t by omega], fun _ => ?_⟩
      · have hzero : (w : Int).tmod (10 ^ i) = 0 := by
          apply Int.tmod_eq_zero_of_dvd
          exact_mod_cast hdvd
        rw [if_pos hzero, show (i : Int) + 1 = ((i + 1 : Nat) : Int) by omega, hrun]
        rfl
      · rw [show i + (t + 1) - 1 = i + 1 + t - 1 by omega]
        rcases Nat.eq_zero_or_pos t with rfl | ht
        · simpa using hdvd
        · exact hlast ht
    · refine ⟨0, ?_, by omega, by simpa using hdvd, by omega⟩
      have hne : ¬ (w : Int).tmod (10 ^ i) = 0 := by
        intro hzero
        have := Int.dvd_of_tmod_eq_zero hzero
        exact hdvd (by exact_mod_cast this)
      rw [if_neg hne]
      rfl

theorem digitsLeft_concat (i : Nat) (ws : List Nat) (w : Nat) :
    digitsLeft i (ws ++ [w]) = 9 * ws.length + i := by
  cases ws with
  | nil => simp [digitsLeft]
  | cons x ws => simp [digitsLeft]

theorem digitsLeft_nine (ws : List Nat) : digitsLeft 9 ws = 9 * ws.length := by
  cases ws with
  | nil => rfl
  | cons x ws =>
    rw [digitsLeft, length_cons]
    omega

theorem removeTrailingZerosLoop_spec {w : WordBuf} {pre ws : List Nat} {post : List Int}
    {fuel i : Nat} (hw : w.1 = (pre ++ ws).map Nat.cast ++ post) (hi : ws ≠ [] → 1 ≤ i)
    (hfuel : ws.length < fuel) :
    ∃ u z, ws = u ++ replicate z 0 ∧ (∀ x ∈ u.getLast?, 0 < x) ∧
      removeTrailingZerosLoop w fuel ((pre.length + ws.length : Nat) : Int) (digitsLeft i ws) i =
        .ok (((pre.length + u.length : Nat) : Int), digitsLeft (if z = 0 then i else 9) u) := by
  induction hn : ws.length generalizing ws post fuel i with
  | zero =>
    obtain rfl := length_eq_zero_iff.mp hn
    obtain ⟨fuel, rfl⟩ : ∃ n, fuel = n + 1 := ⟨fuel - 1, by omega⟩
    refine ⟨[], 0, rfl, by simp, ?_⟩
    rfl
  | succ n ih =>
    obtain ⟨ws, x, rfl, hlen⟩ := exists_concat hn
    obtain ⟨fuel, rfl⟩ : ∃ n, fuel = n + 1 := ⟨fuel - 1, by omega⟩
    have hget : w.get (((pre.length + (n + 1) : Nat) : Int) - 1) = .ok (x : Int) := by
      have hrow : w.1 = ((pre ++ ws) ++ x :: []).map Nat.cast ++ post := by rw [hw, append_assoc]
      have := get_row hrow
      rwa [show (((pre ++ ws).length : Nat) : Int) = ((pre.length + (n + 1) : Nat) : Int) - 1 by
        rw [length_append]; omega] at this
    have hpos := hi (by simp)
    rw [digitsLeft_concat]
    by_cases hx : x = 0
    · subst hx
      have hrow : w.1 = (pre ++ ws).map Nat.cast ++ ((0 : Int) :: post) := by
        rw [hw]
        simp
      obtain ⟨u, z, hws, hlast, hrun⟩ := @ih ws _ fuel 9 hrow (fun _ => by omega) (by omega) hlen
      refine ⟨u, z + 1, by rw [hws, append_assoc, replicate_succ'], hlast, ?_⟩
      rw [removeTrailingZerosLoop, if_pos (by omega), hget,
        show ((pre.length + (n + 1) : Nat) : Int) - 1 = ((pre.length + n : Nat) : Int) by omega,
        show (9 * (ws.length : Int) + i) - i = digitsLeft 9 ws by rw [digitsLeft_nine]; omega]
      rw [ite_self] at hrun
      exact hrun
    · refine ⟨ws ++ [x], 0, by simp, by simp; omega, ?_⟩
      rw [removeTrailingZerosLoop, if_pos (by omega), hget, ok_bind, if_neg (by omega),
        digitsLeft_concat, hn]
      rfl

theorem pow_dvd_row {v w z k : Nat} (hk : k ≤ 9) :
    10 ^ (9 * z + k) ∣ v * 10 ^ (9 * (z + 1)) + w * 10 ^ (9 * z) ↔ 10 ^ k ∣ w := by
  have hhigh : 10 ^ (9 * z + k) ∣ v * 10 ^ (9 * (z + 1)) :=
    Dvd.dvd.mul_left (pow_dvd_pow 10 (by omega)) v
  rw [Nat.dvd_add_right hhigh, pow_add, Nat.mul_comm w]
  exact Nat.mul_dvd_mul_iff_left (by positivity)

/-- The digits that the last word other than zero has: those of the fraction's last word, or all
nine. -/
theorem exists_lastDigits {d : MyDecimal} (h : d.WellFormed) {u : List Nat} {w z i : Nat}
    (hfw : d.fracWords = u ++ [w] ++ replicate z 0) (hi : i = (d.digitsFrac.toNat - 1) % 9 + 1) :
    ∃ j : Nat, (if z = 0 then i else 9) = j ∧ 1 ≤ j ∧ j ≤ 9 ∧ 10 ^ (9 - j) ∣ w := by
  refine ⟨_, rfl, ?_⟩
  by_cases hz : z = 0
  · have hlen := congrArg length hfw
    have hwf := h.wordsFrac_eq
    rw [h.sound.length_fracWords, hz, replicate_zero, append_nil, length_append, length_singleton]
      at hlen
    rw [if_pos hz, hi, show 9 - ((d.digitsFrac.toNat - 1) % 9 + 1) =
      8 - (d.digitsFrac.toNat - 1) % 9 by omega]
    refine ⟨by omega, by omega, h.trailing (by omega) w ?_⟩
    rw [d.words_eq, hfw, hz, replicate_zero, append_nil, append_assoc, ← append_assoc,
      getElem?_append_right (by rw [length_append, h.sound.length_intWords]; omega), length_append,
      h.sound.length_intWords, hlen, Nat.add_sub_assoc (Nat.le_add_left 1 _), Nat.add_sub_cancel,
      Nat.sub_self]
    rfl
  · rw [if_neg hz]
    exact ⟨by omega, le_rfl, one_dvd w⟩

/-- What `removeTrailingZeros` returns: the smallest number of digits behind the point that is
enough. -/
theorem removeTrailingZeros_spec {d : MyDecimal} (h : d.WellFormed) :
    ∃ (last : Int) (f : Nat), removeTrailingZeros d = .ok (last, (f : Int)) ∧ f ≤ 9 * d.wordsFrac ∧
      10 ^ (9 * d.wordsFrac - f) ∣ d.digits ∧
      (0 < f → ¬ 10 ^ (9 * d.wordsFrac - (f - 1)) ∣ d.digits) := by
  obtain ⟨post, hbuf⟩ := h.sound.wordBuf_eq
  have h0 := h.digitsFrac_nonneg
  have hint := h.sound.length_intWords
  have hfrac := h.sound.length_fracWords
  have hfuel : d.fracWords.length < maxWordBufLen + 1 := by
    have hle := h.words_le
    omega
  obtain ⟨i, hi, hi1, hdigits⟩ := exists_digitsLeft h0 (hfrac.trans h.wordsFrac_eq)
  obtain ⟨u, z, hfw, hlast, hloop⟩ := @removeTrailingZerosLoop_spec d.wordBuf d.intWords
    d.fracWords post
    (maxWordBufLen + 1) i hbuf (fun hne => by rw [hi1 hne]; exact Nat.le_add_left 1 _) hfuel
  rw [← hdigits, hint, hfrac] at hloop
  rw [removeTrailingZeros, h.sound.wordsInt_cast, h.sound.wordsFrac_cast, hi, ← Nat.cast_add,
    hloop, ok_bind]
  simp only
  rcases eq_nil_or_concat u with rfl | ⟨u, w, rfl⟩
  · -- no digits are left
    refine ⟨(d.wordsInt + 0 : Nat), 0, ?_, by omega, ?_, by omega⟩
    · rfl
    · rw [MyDecimal.digits, hfw, nil_append, ofWords_append, ofWords_replicate_zero,
        length_replicate,
        show d.wordsFrac = z by rw [← hfrac, hfw]; simp]
      exact Dvd.intro_left _ rfl
  · rw [concat_eq_append] at hfw hlast
    rw [concat_eq_append, digitsLeft_concat]
    have hwf' : d.wordsFrac = u.length + 1 + z := by
      rw [← hfrac, hfw]
      simp
      omega
    have hpos : 0 < w := hlast w (by simp)
    have hmem : w ∈ d.fracWords := by
      rw [hfw]
      simp
    have hlt : w < 10 ^ 9 := by
      have := h.fracWord_lt hmem
      omega
    have hdig : d.digits = ofWords (d.intWords ++ u) * 10 ^ (9 * (z + 1)) + w * 10 ^ (9 * z) := by
      rw [MyDecimal.digits, hfw, ← append_assoc, ofWords_append, ofWords_replicate_zero,
        length_replicate, ← append_assoc, ofWords_concat, Nat.add_zero, Nat.add_mul,
        Nat.mul_assoc, ← pow_add]
      congr 3
      omega
    -- the word that is left, with `j` digits
    obtain ⟨j, hj, hj1, hj9, hlow⟩ := exists_lastDigits h hfw (hi1 (ne_nil_of_mem hmem))
    rw [hj]
    obtain ⟨t, hcount, ht9, hstop, hmore⟩ :=
      @countTrailingZeroesLoop_spec 11 (10 - j) w hpos hlt (by omega)
      (by omega)
    refine ⟨((d.wordsInt + (u ++ [w]).length : Nat) : Int), 9 * u.length + j - t, ?_, by omega, ?_,
      fun _ => ?_⟩
    · have hget : d.wordBuf.get (((d.wordsInt + (u ++ [w]).length : Nat) : Int) - 1) =
          .ok (w : Int) := by
        have hrow : d.wordBuf.1 = ((d.intWords ++ u) ++ w :: replicate z 0).map Nat.cast
        ++ post := by
          rw [hbuf, hfw]
          simp
        have := get_row hrow
        rwa [show (((d.intWords ++ u).length : Nat) : Int) =
          ((d.wordsInt + (u ++ [w]).length : Nat) : Int) - 1 by
            simp only [length_append, length_singleton]; omega] at this
      have hidx : 9 - ((9 * (u.length : Int) + j) - 1).tmod digitsPerWord =
          ((10 - j : Nat) : Int) := by
        rw [digitsPerWord, Int.tmod_eq_emod_of_nonneg (by omega)]
        omega
      rw [if_pos (by omega), hget, ok_bind, hidx, countTrailingZeroes, hcount,
        Nat.cast_sub (by omega)]
      rfl
    · rw [hwf', hdig, show 9 * (u.length + 1 + z) - (9 * u.length + j - t) =
        9 * z + (9 - j + t) by omega,
        pow_dvd_row (by omega)]
      rcases Nat.eq_zero_or_pos t with rfl | ht
      · exact hlow
      · have := hmore ht
        rwa [show 10 - j + t - 1 = 9 - j + t by omega] at this
    · rw [hwf', hdig,
        show 9 * (u.length + 1 + z) - (9 * u.length + j - t - 1) = 9 * z + (10 - j + t) by omega,
        pow_dvd_row (by omega)]
      exact hstop

/-! ## The digits that a number needs -/

/-- `n` digits in front of the point and `f` behind it are enough for a number, and no fewer are. -/
structure DigitsOf (x : ℚ) (n f : Nat) : Prop where
  lt : |x| < 10 ^ n
  le : 0 < n → 10 ^ (n - 1) ≤ |x|
  frac : ∃ m : ℤ, x * 10 ^ f = m
  frac_min : 0 < f → ¬ ∃ m : ℤ, x * 10 ^ (f - 1) = m

namespace DigitsOf

variable {x : ℚ} {n f n' f' : Nat}

theorem int_le (h : DigitsOf x n f) (h' : DigitsOf x n' f') : n ≤ n' := by
  by_contra hlt
  have h1 := h.le (by omega)
  have h2 : (10 : ℚ) ^ n' ≤ 10 ^ (n - 1) := pow_le_pow_right₀ (by norm_num) (by omega)
  linarith [h'.lt]

theorem frac_le_of (h : DigitsOf x n f) {k : Nat} (hk : ∃ m : ℤ, x * 10 ^ k = m) : f ≤ k := by
  by_contra hlt
  obtain ⟨m, hm⟩ := hk
  apply h.frac_min (by omega)
  refine ⟨m * 10 ^ (f - 1 - k), ?_⟩
  have hpow : (10 : ℚ) ^ (f - 1) = 10 ^ k * 10 ^ (f - 1 - k) := by
    rw [← pow_add]
    congr 1
    omega
  push_cast
  rw [hpow, ← mul_assoc, hm]

theorem unique (h : DigitsOf x n f) (h' : DigitsOf x n' f') : n = n' ∧ f = f' :=
  ⟨le_antisymm (h.int_le h') (h'.int_le h),
    le_antisymm (h.frac_le_of h'.frac) (h'.frac_le_of h.frac)⟩

end DigitsOf

theorem digitsOf_toRat {d : MyDecimal} (h : d.WellFormed) : ∃ (k last : Int) (n f : Nat),
    removeLeadingZeros d = .ok (k, (n : Int)) ∧ removeTrailingZeros d = .ok (last, (f : Int)) ∧
      DigitsOf d.toRat n f ∧ f ≤ 9 * d.wordsFrac := by
  obtain ⟨k, n, x, ws, hlead, hiw, hwslen, hx, hlow⟩ := removeLeadingZeros_spec h
  obtain ⟨last, f, htrail, hf, hdvd, hmin⟩ := removeTrailingZeros_spec h
  have hlt := intWords_lt_of_leadingZeros h hiw hwslen hx
  have hdigits : d.digits = ofWords d.intWords * 10 ^ (9 * d.wordsFrac) + ofWords d.fracWords := by
    rw [MyDecimal.digits, ofWords_append, h.length_fracWords]
  refine ⟨k, last, n, f, hlead, htrail, ⟨?_, fun hn => ?_, (exists_int_iff_dvd hf).mpr hdvd,
    fun hpos => ?_⟩, hf⟩
  · rw [d.abs_toRat, div_lt_iff₀ (by positivity)]
    exact_mod_cast h.digits_lt_of_intWords_lt hlt
  · rw [d.abs_toRat, le_div_iff₀ (by positivity)]
    have hnat : 10 ^ (n - 1) * 10 ^ (9 * d.wordsFrac) ≤ d.digits := by
      rw [hdigits]
      exact le_trans (Nat.mul_le_mul_right _ (hlow hn)) (Nat.le_add_right _ _)
    exact_mod_cast hnat
  · rw [exists_int_iff_dvd (by omega)]
    exact hmin hpos

/-! ## Keys -/

theorem exists_fits_intCells {n n' : Nat} {xs : List Nat} (h : Fits (intCells n) xs) (hle : n ≤ n')
    (hbytes : digitBytes n = digitBytes n') :
    ∃ ys, Fits (intCells n') ys ∧ writeCells (intCells n') ys = writeCells (intCells n) xs ∧
      value (intCells n') ys = value (intCells n) xs := by
  obtain ⟨x, t, rfl, hx, ht⟩ := fits_cons_iff.mp h
  have hw : digWidth (n % 9) ≤ 4 := digWidth_le (by omega)
  rw [digitBytes, digitBytes] at hbytes
  by_cases hq : n / 9 = n' / 9
  · have hwidth : digWidth (n % 9) = digWidth (n' % 9) := by omega
    have hradix : 10 ^ (n % 9) ≤ 10 ^ (n' % 9) := Nat.pow_le_pow_right (by norm_num) (by omega)
    rw [hq] at ht
    refine ⟨x :: t, ⟨lt_of_lt_of_le hx hradix, ht⟩, ?_, ?_⟩
    · rw [intCells, intCells, hq]
      show beBytes (digWidth (n' % 9)) x ++ _ = beBytes (digWidth (n % 9)) x ++ _
      rw [hwidth]
    · rw [intCells, intCells, value, value, hq]
  · -- the digits of the leading word fill as many bytes as a full word
    obtain ⟨hq', hw4, hw0⟩ : n' / 9 = n / 9 + 1 ∧ digWidth (n % 9) = 4 ∧
      digWidth (n' % 9) = 0 := by omega
    have hx9 : x < 10 ^ 9 := lt_of_lt_of_le hx (Nat.pow_le_pow_right (by norm_num) (by omega))
    refine ⟨0 :: x :: t, ⟨(digitCell (n' % 9)).pos, ?_⟩, ?_, ?_⟩
    · rw [hq']
      exact ⟨hx9, ht⟩
    · rw [intCells, intCells, hq', writeCells]
      show beBytes (digWidth (n' % 9)) 0 ++ (beBytes 4 x ++ _) = beBytes (digWidth (n % 9)) x ++ _
      rw [hw0, hw4]
      rfl
    · rw [intCells, intCells, hq', replicate_succ, value, value, value, Nat.zero_mul, Nat.zero_add]

theorem exists_fits_binCells {p p' f : Nat} {xs : List Nat} (h : Fits (binCells p f) xs)
    (hle : p ≤ p') (hbytes : digitBytes (p - f) = digitBytes (p' - f)) :
    ∃ ys, Fits (binCells p' f) ys ∧ writeCells (binCells p' f) ys = writeCells (binCells p f) xs ∧
      value (binCells p' f) ys = value (binCells p f) xs := by
  obtain ⟨us, vs, rfl, hus, hvs⟩ := exists_append_of_fits h
  obtain ⟨ys, hys, hwrite, hval⟩ := exists_fits_intCells hus (by omega) hbytes
  refine ⟨ys ++ vs, fits_append hys hvs, ?_, ?_⟩
  · rw [binCells, writeCells_append hys, hwrite, binCells, writeCells_append hus]
  · rw [binCells, value_append hys, hval, binCells, value_append hus]

theorem signed_value_inj {p p' f : Nat} {xs ys : List Nat} {neg neg' : Bool}
    (hxs : Fits (binCells p f) xs) (hys : Fits (binCells p' f) ys) (hp : 0 < p) (hp' : 0 < p')
    (heq : writeSigned neg (binCells p f) xs = writeSigned neg' (binCells p' f) ys) :
    neg = neg' ∧ value (binCells p f) xs = value (binCells p' f) ys := by
  have hlen := congrArg length heq
  rw [length_writeSigned hxs, length_writeSigned hys, totalWidth_binCells, totalWidth_binCells]
    at hlen
  wlog hle : p ≤ p' with hsymm
  · have := hsymm hys hxs hp' hp heq.symm hlen.symm (by omega)
    exact ⟨this.1.symm, this.2.symm⟩
  obtain ⟨zs, hzs, hwrite, hval⟩ := exists_fits_binCells hxs hle (by omega)
  have hcmp := compare_writeSigned hzs hys (totalWidth_binCells_pos hp') neg neg'
  have hbytes : writeSigned neg (binCells p' f) zs = writeSigned neg' (binCells p' f) ys := by
    rw [writeSigned, hwrite, ← writeSigned, heq]
  rw [hbytes, Std.compare_self, eq_comm, compare_eq_iff_eq, signedKey, signedKey] at hcmp
  cases neg <;> cases neg' <;> simp only [Bool.false_eq_true, if_true, if_false] at hcmp <;>
    first | exact ⟨rfl, by omega⟩ | omega

def keyPrecision (n f : Nat) : Nat := if n + f = 0 then 1 else n + f

theorem toHashKey_spec {d : MyDecimal} (h : d.WellFormed) (h30 : ∃ m : ℤ, d.toRat * 10 ^ 30 = m) :
    ∃ n f xs, DigitsOf d.toRat n f ∧ Fits (binCells (keyPrecision n f) f) xs ∧
      value (binCells (keyPrecision n f) f) xs = d.scaled f ∧ d.FitsIn (keyPrecision n f) f ∧
      f ≤ 30 ∧ toHashKey d =
        .ok (writeSigned d.negative (binCells (keyPrecision n f) f) xs ++ [UInt8.ofNat f],
          none) := by
  obtain ⟨k, last, n, f, hlead, htrail, hdig, hf9⟩ := digitsOf_toRat h
  have hf30 := hdig.frac_le_of h30
  have hn9 : n ≤ 9 * d.wordsInt := by
    by_contra hlt
    have hle := hdig.le (by omega)
    have hpow : (10 : ℚ) ^ (9 * d.wordsInt) ≤ 10 ^ (n - 1) :=
      pow_le_pow_right₀ (by norm_num) (by omega)
    have := h.sound.magnitude_lt
    rw [d.abs_toRat, ← MyDecimal.magnitude] at hle
    linarith
  have hwords := h.words_le
  rw [maxWordBufLen] at hwords
  obtain ⟨hp, hp81, hfp, hn⟩ : 0 < keyPrecision n f ∧ keyPrecision n f ≤ 81 ∧ f ≤ keyPrecision n f ∧
      n ≤ keyPrecision n f - f := by
    rw [keyPrecision]
    split <;> omega
  have hfit : d.FitsIn (keyPrecision n f) f :=
    ⟨h, lt_of_lt_of_le hdig.lt (pow_le_pow_right₀ (by norm_num) hn), hdig.frac⟩
  obtain ⟨xs, err, hw⟩ := writeBin_any h hp hp81 hf30 hfp hfit.intWords_lt
  refine ⟨n, f, xs, hdig, hw.fits, hw.value_eq, hfit, hf30, ?_⟩
  have hprec : (if (n : Int) + f = 0 then 1 else (n : Int) + f) = (keyPrecision n f : Nat) := by
    rw [keyPrecision]
    split <;> split <;> omega
  have hbyte : ((f : Int) % 256).toNat = f := by omega
  rw [toHashKey, hlead, ok_bind]
  simp only
  rw [htrail, ok_bind]
  rw [hprec, toBin, hw.bytes, hbyte]
  rcases hw.report with rfl | rfl
  · rfl
  · rfl

section Key

variable {a b : MyDecimal} (ha : a.WellFormed) (hb : b.WellFormed)
include ha hb

theorem negative_eq_of_toRat (h : a.toRat = b.toRat) : a.negative = b.negative := by
  cases hna : a.negative with
  | true =>
    cases hnb : b.negative with
    | true => rfl
    | false => linarith [ha.sound.toRat_neg hna, MyDecimal.toRat_nonneg hnb]
  | false =>
    cases hnb : b.negative with
    | true => linarith [hb.sound.toRat_neg hnb, MyDecimal.toRat_nonneg hna]
    | false => rfl

theorem toHashKey_eq_iff (ha30 : ∃ m : ℤ, a.toRat * 10 ^ 30 = m)
    (hb30 : ∃ m : ℤ, b.toRat * 10 ^ 30 = m) :
    ∃ ka kb, toHashKey a = .ok (ka, none) ∧ toHashKey b = .ok (kb, none) ∧
      (ka = kb ↔ a.toRat = b.toRat) := by
  obtain ⟨n, f, xs, hdig, hxs, hxval, hfit, hf, hka⟩ := toHashKey_spec ha ha30
  obtain ⟨n', f', ys, hdig', hys, hyval, hfit', hf', hkb⟩ := toHashKey_spec hb hb30
  have hpos : ∀ n f, 0 < keyPrecision n f := fun n f => by
    rw [keyPrecision]
    split <;> omega
  refine ⟨_, _, hka, hkb, fun heq => ?_, fun heq => ?_⟩
  · -- the last bytes are the numbers of digits behind the point
    obtain ⟨hbytes, hlast⟩ := append_inj' heq rfl
    have hff : f = f' := by
      have := congrArg UInt8.toNat (singleton_inj.mp hlast)
      rwa [UInt8.toNat_ofNat_of_lt' (by simp only [UInt8.size]; omega),
        UInt8.toNat_ofNat_of_lt' (by simp only [UInt8.size]; omega)] at this
    subst hff
    obtain ⟨hneg, hval⟩ := signed_value_inj hxs hys (hpos _ _) (hpos _ _) hbytes
    rw [hxval, hyval] at hval
    rw [← hfit.signed_scaled, ← hfit'.signed_scaled, hneg, hval]
  · rw [heq] at hdig
    obtain ⟨rfl, rfl⟩ := hdig.unique hdig'
    have hneg := negative_eq_of_toRat ha hb heq
    have hval : a.scaled f = b.scaled f := by
      have h1 := hfit.scaled_eq
      rw [heq, ← hfit'.scaled_eq] at h1
      exact_mod_cast h1
    have hcmp := compare_writeSigned hxs hys (totalWidth_binCells_pos (hpos n f))
      a.negative b.negative
    rw [hxval, hyval, hneg, hval, Std.compare_self, Std.compare_eq_iff_eq] at hcmp
    rw [hneg, hcmp]

end Key

theorem orderSign_swap (o : Ordering) : orderSign o.swap = -orderSign o := by cases o <;> rfl

theorem orderSign_nonpos {o : Ordering} : orderSign o ≤ 0 ↔ o ≠ .gt := by cases o <;> decide

theorem orderSign_eq_zero {o : Ordering} : orderSign o = 0 ↔ o = .eq := by cases o <;> decide

/-- `Compare` orders decimals by their values, and of those with at most thirty significant digits
behind the point exactly those have the same hash key that it finds equal. -/
theorem compare_toHashKey {a b c : MyDecimal} (ha : a.WellFormed) (hb : b.WellFormed)
    (hc : c.WellFormed) :
    a.compare b = .ok (orderSign (compare a.toRat b.toRat)) ∧
    (∃ x y : Int, a.compare b = .ok x ∧ b.compare a = .ok y ∧ y = -x) ∧
    (∀ x y z : Int, a.compare b = .ok x → b.compare c = .ok y → a.compare c = .ok z → x ≤ 0 →
      y ≤ 0 → z ≤ 0) ∧
    ((∃ m : ℤ, a.toRat * 10 ^ 30 = m) → (∃ m : ℤ, b.toRat * 10 ^ 30 = m) →
      ∃ ka kb, toHashKey a = .ok (ka, none) ∧ toHashKey b = .ok (kb, none) ∧
        (a.compare b = .ok 0 ↔ a.toRat = b.toRat) ∧ (ka = kb ↔ a.toRat = b.toRat)) := by
  have hab := compare_spec ha.sound hb.sound
  refine ⟨hab, ⟨_, _, hab, compare_spec hb.sound ha.sound, ?_⟩, fun x y z hx hy hz hx0 hy0 => ?_,
    fun ha30 hb30 => ?_⟩
  · rw [← orderSign_swap, ← Std.OrientedOrd.eq_swap]
  · rw [hab, ok.injEq] at hx
    rw [compare_spec hb.sound hc.sound, ok.injEq] at hy
    rw [compare_spec ha.sound hc.sound, ok.injEq] at hz
    subst hx hy hz
    rw [orderSign_nonpos, compare_le_iff_le] at hx0 hy0 ⊢
    exact hx0.trans hy0
  · obtain ⟨ka, kb, hka, hkb, hiff⟩ := toHashKey_eq_iff ha hb ha30 hb30
    refine ⟨ka, kb, hka, hkb, ?_, hiff⟩
    rw [hab, ok.injEq, orderSign_eq_zero, compare_eq_iff_eq]

def paddedOnes : MyDecimal :=
  ⟨9, 36, 36, false, ⟨[0, 111111111, 111111111, 111111111, 111000000, 0, 0, 0, 0], rfl⟩⟩

theorem paddedOnes_wellFormed : paddedOnes.WellFormed :=
  ⟨by decide, by decide, by decide, by decide, fun _ => by decide, fun _ => by decide, by decide⟩

theorem compare_toHashKey_paddedOnes :
    ∃ key, toHashKey paddedOnes = .ok (key, none) ∧ toHashKey thirtyOnes = .ok (key, none) := by
  have heq : paddedOnes.toRat = thirtyOnes.toRat := by rfl
  have h30 : ∃ m : ℤ, thirtyOnes.toRat * 10 ^ 30 = m :=
    thirtyOnes_wellFormed.exists_scaled (by decide)
  obtain ⟨ka, kb, hka, hkb, -, hiff⟩ := (compare_toHashKey paddedOnes_wellFormed
    thirtyOnes_wellFormed
    thirtyOnes_wellFormed).2.2.2 (by rwa [heq]) h30
  rw [hiff.mpr heq] at hka
  exact ⟨kb, hka, hkb⟩

end Tidb.Types
