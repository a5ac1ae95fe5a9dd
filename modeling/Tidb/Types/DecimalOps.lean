import Tidb.Types.DecimalSum

/-!
# `doAdd` and `doSub` compute with what there is room for

Both return the sum or the difference of the operands cut off behind the last word of the fraction that
fits into the buffer.  Nothing is cut off without an error.
-/

namespace Tidb.Types

open GoLang ByteNum List Outcome MyDecimal

theorem fixWordCntError_cases (n f : Nat) : (n + f ≤ 9 ∧ fixWordCntError n f = ((n : Int), (f : Int), none)) ∨
    (9 < n + f ∧ n ≤ 9 ∧ fixWordCntError n f = ((n : Int), ((9 - n : Nat) : Int), some .errTruncated)) ∨
    (9 < n ∧ fixWordCntError n f = (9, 0, some .errOverflow)) := by
  rw [fixWordCntError, maxWordBufLen]
  by_cases hfit : n + f ≤ 9
  · rw [if_neg (by omega)]
    exact .inl ⟨hfit, rfl⟩
  · rw [if_pos (by omega)]
    by_cases hn : n ≤ 9
    · rw [if_neg (by omega), Nat.cast_sub hn]
      exact .inr (.inl ⟨by omega, hn, rfl⟩)
    · rw [if_pos (by omega)]
      exact .inr (.inr ⟨by omega, rfl⟩)

/-- A decimal with `N` words in front of the point and `F` behind it, as far as there is room for the fractions, written
into the buffer of `dst`, that stands for `V` without the point. -/
structure Written (d1 d2 dst r : MyDecimal) (err : Option Err) (N F V : Nat) : Prop where
  digitsInt : r.digitsInt = 9 * N
  resultFrac : r.resultFrac = dst.resultFrac
  room : N + F ≤ 9
  row : ∃ cs : List Nat, r.wordBuf.1 = cs.map Nat.cast ++ dst.wordBuf.1.drop (N + F) ∧
    cs.length = N + F ∧ (∀ w ∈ cs, w < 1000000000) ∧ ofWords cs = V
  kept : (err = none ∧ F = max d1.wordsFrac d2.wordsFrac ∧ r.digitsFrac = max d1.digitsFrac d2.digitsFrac) ∨
    (err = some .errTruncated ∧ N + F = 9 ∧ F < max d1.wordsFrac d2.wordsFrac ∧ r.digitsFrac = 9 * F)

namespace Written

variable {d1 d2 dst r : MyDecimal} {err : Option Err} {N F V : Nat}

theorem symm (h : Written d1 d2 dst r err N F V) : Written d2 d1 dst r err N F V := by
  refine ⟨h.digitsInt, h.resultFrac, h.room, h.row, ?_⟩
  rw [max_comm d2.wordsFrac, max_comm d2.digitsFrac]
  exact h.kept

theorem of_set {hlen : (dst.wordBuf.1.set 0 0).length = maxWordBufLen}
    (h : Written d1 d2 { dst with wordBuf := ⟨dst.wordBuf.1.set 0 0, hlen⟩ } r err (N + 1) F V) :
    Written d1 d2 dst r err (N + 1) F V := by
  obtain ⟨cs, hbuf, hrest⟩ := h.row
  refine ⟨h.digitsInt, h.resultFrac, h.room, ⟨cs, ?_, hrest⟩, h.kept⟩
  rw [hbuf, drop_set_of_lt (by omega)]

variable (h : Written d1 d2 dst r err N F V)
include h

theorem wordsInt_eq : r.wordsInt = N := by rw [wordsInt, h.digitsInt, digitsToWords_nine_mul]

theorem wordsFrac_eq (h1 : d1.Sound) (h2 : d2.Sound) : r.wordsFrac = F := by
  rcases h.kept with ⟨-, hF, hdigits⟩ | ⟨-, -, -, hdigits⟩
  · rw [wordsFrac, hdigits, digitsToWords_max h1.digitsFrac_nonneg h2.digitsFrac_nonneg,
      h1.wordsFrac_cast, h2.wordsFrac_cast]
    omega
  · rw [wordsFrac, hdigits, digitsToWords_nine_mul]

theorem digits_eq (h1 : d1.Sound) (h2 : d2.Sound) : r.digits = V := by
  obtain ⟨cs, hbuf, hlen, -, hV⟩ := h.row
  rw [r.digits_of_row hbuf (by rw [hlen, h.wordsInt_eq, h.wordsFrac_eq h1 h2]), hV]

theorem magnitude_eq (h1 : d1.Sound) (h2 : d2.Sound) : r.magnitude = V / 10 ^ (9 * F) := by
  rw [magnitude, h.digits_eq h1 h2, h.wordsFrac_eq h1 h2]

end Written

theorem nine_mul_le_digits {d1 d2 : MyDecimal} (h1 : d1.Sound) (h2 : d2.Sound) {F : Nat}
    (hF : F < max d1.wordsFrac d2.wordsFrac) : 9 * (F : Int) ≤ max d1.digitsFrac d2.digitsFrac := by
  have hmax : digitsToWords (max d1.digitsFrac d2.digitsFrac) = ((max d1.wordsFrac d2.wordsFrac : Nat) : Int) := by
    rw [digitsToWords_max h1.digitsFrac_nonneg h2.digitsFrac_nonneg, h1.wordsFrac_cast, h2.wordsFrac_cast]
    omega
  have hpos := h1.digitsFrac_nonneg
  rw [digitsToWords, digitsPerWord, Int.tdiv_eq_ediv_of_nonneg (by omega)] at hmax
  omega

/-! ## Subtraction -/

theorem capWords_extent {err : Option Err} {u : List Nat} {n F : Nat} (hcut : err = none → u.length ≤ n + F) :
    capWords err F ((u.length : Int) - n) = ((u.take (n + F)).length : Int) - n := by
  rw [length_take, capWords]
  cases err with
  | none =>
    have := hcut rfl
    omega
  | some e =>
    rw [if_pos (by simp)]
    omega

section Larger

variable {d1 d2 : MyDecimal} {e1 e2 : Extent} {u1 u2 : List Nat} {n1 n2 : Nat}

theorem Covers.reads_take {d : MyDecimal} {e : Extent} {u : List Nat} {n : Nat} (h : Covers d e u n) (k : Nat) :
    Reads (some d.wordBuf) (e.start + (u.take k).length) (u.take k) e.start := by
  obtain ⟨pre, post, hrow, hstart⟩ := h.row
  have hreads : Reads (some d.wordBuf) (e.start + u.length) (u.take k ++ u.drop k) e.start := by
    rw [take_append_drop, hstart]
    exact ⟨pre, post, hrow, rfl, by simp⟩
  exact hreads.split.2

theorem subWords_scaled (hc1 : Covers d1 e1 u1 n1) (hc2 : Covers d2 e2 u2 n2) (hn : n2 ≤ n1)
    (hlow : n1 ≠ n2 → n1 ≤ u1.length) (hle : d2.magnitude ≤ d1.magnitude) {F : Nat} (hroom : n1 + F ≤ 9)
    (dst : WordBuf) : ∃ words' V, subWords d1.wordBuf d2.wordBuf ⟨e1.start, n1, ((u1.take (n1 + F)).length : Int) - n1⟩
        ⟨e2.start, n2, ((u2.take (n2 + F)).length : Int) - n2⟩ F dst = .ok words' ∧
      Spells dst words' (n1 + F) V ∧ V + d2.scaled (9 * F) = d1.scaled (9 * F) := by
  have hlow' : n1 - n2 ≤ (u1.take (n1 + F)).length := by
    rw [length_take]
    by_cases heq : n1 = n2
    · omega
    · omega
  rw [← hc1.ofWords_layOut n1 F, ← hc2.ofWords_layOut n1 F]
  apply subWords_spec (hc1.reads_take _) (hc2.reads_take _)
    (fun w hw => hc1.word_lt w (mem_of_mem_take hw))
    (fun w hw => hc2.word_lt w (mem_of_mem_take hw)) (length_take_le _ _)
    (length_take_le _ _) hn hlow' hroom
  rw [hc1.ofWords_layOut, hc2.ofWords_layOut]
  exact scaled_mono hle _

theorem scaled_lt {F : Nat} (hF : d1.wordsFrac ≤ F) (hlt : d2.magnitude < d1.magnitude) :
    d2.scaled (9 * F) < d1.scaled (9 * F) := by
  have hfloor : (d2.scaled (9 * F) : ℚ) ≤ d2.magnitude * 10 ^ (9 * F) := by
    rw [scaled_eq_floor]
    exact Nat.floor_le (mul_nonneg d2.magnitude_nonneg (by positivity))
  have hexact : (d1.scaled (9 * F) : ℚ) = d1.magnitude * 10 ^ (9 * F) := by
    rw [← d1.scaled_of_le hF, div_mul_cancel₀ _ (by positivity)]
  have hpos : (0 : ℚ) < 10 ^ (9 * F) := by positivity
  have : (d2.scaled (9 * F) : ℚ) < d1.scaled (9 * F) := by
    rw [hexact]
    exact lt_of_le_of_lt hfloor (mul_lt_mul_of_pos_right hlt hpos)
  exact_mod_cast this

theorem subLarger_of_fix (hc1 : Covers d1 e1 u1 n1) (hc2 : Covers d2 e2 u2 n2) (hn : n2 ≤ n1)
    (hlow : n1 ≠ n2 → n1 ≤ u1.length) (hle : d2.magnitude ≤ d1.magnitude) {F wf : Nat} {err : Option Err}
    (hfix : fixWordCntError n1 wf = ((n1 : Int), (F : Int), err)) (hroom : n1 + F ≤ 9)
    (hwhole : err = none → d1.wordsFrac ≤ F ∧ d2.wordsFrac ≤ F) (negative : Bool) (dst : MyDecimal) :
    ∃ words' V, subLarger d1 d2 e1 e2 wf negative dst =
        .ok (⟨9 * n1, capWords err (9 * F) (max d1.digitsFrac d2.digitsFrac), dst.resultFrac, negative, words'⟩, err) ∧
      Spells dst.wordBuf words' (n1 + F) V ∧ V + d2.scaled (9 * F) = d1.scaled (9 * F) := by
  obtain ⟨z1, hz1, -⟩ := hc1.digits
  obtain ⟨z2, hz2, -⟩ := hc2.digits
  obtain ⟨words', V, hrun, hrest⟩ := subWords_scaled hc1 hc2 hn hlow hle hroom dst.wordBuf
  refine ⟨words', V, ?_, hrest⟩
  have hcap1 : capWords err F ((u1.length : Int) - n1) = ((u1.take (n1 + F)).length : Int) - n1 :=
    capWords_extent fun herr => by
      have := (hwhole herr).1
      omega
  have hcap2 : capWords err F ((u2.length : Int) - n2) = ((u2.take (n2 + F)).length : Int) - n2 :=
    capWords_extent fun herr => by
      have := (hwhole herr).2
      omega
  have hcapInt : capWords err n1 n2 = n2 := by
    rw [capWords]
    split
    · omega
    · rfl
  rw [subLarger, hc1.wordsInt, hc1.wordsFrac, hc2.wordsInt, hc2.wordsFrac, hfix]
  simp only [hcap1, hcap2, hcapInt]
  rw [hrun, int8_nine_mul (by omega), int8_nine_mul (by omega)]
  rfl

theorem subLarger_spec (h1 : d1.Sound) (h2 : d2.Sound) (hc1 : Covers d1 e1 u1 n1)
    (hc2 : Covers d2 e2 u2 n2) (hn : n2 ≤ n1) (hn1 : n1 ≤ d1.wordsInt)
    (hlow : n1 ≠ n2 → n1 ≤ u1.length) (hlt : d2.magnitude < d1.magnitude) (negative : Bool) (dst : MyDecimal) :
    ∃ r err F V, subLarger d1 d2 e1 e2 ((max d1.wordsFrac d2.wordsFrac : Nat) : Int) negative dst = .ok (r, err) ∧
      Written d1 d2 dst r err n1 F V ∧ r.negative = negative ∧ d1.wordsFrac ≤ F ∧ 0 < V ∧
      V + d2.scaled (9 * F) = d1.scaled (9 * F) := by
  have hw1 := h1.words_le
  have hw2 := h2.words_le
  rw [maxWordBufLen] at hw1 hw2
  rcases fixWordCntError_cases n1 (max d1.wordsFrac d2.wordsFrac) with
    ⟨hfit, hfix⟩ | ⟨hcut, h9, hfix⟩ | ⟨h9, -⟩
  · obtain ⟨words', V, hrun, hrow, hval⟩ := subLarger_of_fix hc1 hc2 hn hlow hlt.le hfix hfit
      (fun _ => ⟨le_max_left _ _, le_max_right _ _⟩) negative dst
    have hpos := scaled_lt (le_max_left d1.wordsFrac d2.wordsFrac) hlt
    exact ⟨_, none, max d1.wordsFrac d2.wordsFrac, V, hrun,
      ⟨rfl, rfl, hfit, hrow, .inl ⟨rfl, rfl, rfl⟩⟩, rfl, le_max_left _ _, by omega, hval⟩
  · -- only the smaller decimal can have a fraction that does not fit
    obtain ⟨words', V, hrun, hrow, hval⟩ := subLarger_of_fix hc1 hc2 hn hlow hlt.le hfix
      (by omega) (by simp) negative dst
    have hpos := scaled_lt (show d1.wordsFrac ≤ 9 - n1 by omega) hlt
    refine ⟨_, some .errTruncated, 9 - n1, V, hrun, ⟨rfl, rfl, by omega, hrow, .inr ⟨rfl, by omega, by omega, ?_⟩⟩, rfl,
      by omega, by omega, hval⟩
    exact min_eq_right (nine_mul_le_digits h1 h2 (by omega))
  · omega

end Larger

inductive Difference (d1 d2 : MyDecimal) (negative : Bool) (F V : Nat) : Prop where
  | first (hlt : d2.magnitude < d1.magnitude) (hneg : negative = d1.negative) (hF : d1.wordsFrac ≤ F)
      (hval : V + d2.scaled (9 * F) = d1.scaled (9 * F))
  | second (hlt : d1.magnitude < d2.magnitude) (hneg : negative = !d1.negative) (hF : d2.wordsFrac ≤ F)
      (hval : V + d1.scaled (9 * F) = d2.scaled (9 * F))

theorem doSub_spec {d1 d2 : MyDecimal} (h1 : d1.Sound) (h2 : d2.Sound) (dst : MyDecimal) : ∃ r err, doSub d1 d2 dst =
    .ok (r, err) ∧ ((d1.magnitude = d2.magnitude ∧ r = zeroMyDecimalWithFrac dst.resultFrac ∧ err = none) ∨ ∃ N F V,
    Written d1 d2 dst r err N F V ∧ 0 < V ∧ Difference d1 d2 r.negative F V) := by
  obtain ⟨e1, e2, u1, u2, n1, n2, o, hext, hc1, hc2, hord, hn1, hn2, hlen⟩ := subExtents_spec h1 h2
  have hmax : max (digitsToWords d1.digitsFrac) (digitsToWords d2.digitsFrac) =
      ((max d1.wordsFrac d2.wordsFrac : Nat) : Int) := by
    rw [h1.wordsFrac_cast, h2.wordsFrac_cast]
    omega
  rw [doSub, hmax, hext]
  rcases o with _ | _ | _
  · exact ⟨_, none, rfl, .inl ⟨hord, rfl, rfl⟩⟩
  · obtain ⟨r, err, F, V, hrun, hw, hneg, hF, hpos, hval⟩ := subLarger_spec h1 h2 hc1 hc2 hord.2 hn1
      (fun hne => by have := (hlen hne).1; omega) hord.1 d1.negative dst
    exact ⟨r, err, hrun, .inr ⟨n1, F, V, hw, hpos, .first hord.1 hneg hF hval⟩⟩
  · obtain ⟨r, err, F, V, hrun, hw, hneg, hF, hpos, hval⟩ := subLarger_spec h2 h1 hc2 hc1 hord.2 hn2
      (fun hne => by have := (hlen hne.symm).2; omega) hord.1 (!d1.negative) dst
    rw [max_comm] at hrun
    exact ⟨r, err, hrun, .inr ⟨n2, F, V, hw.symm, hpos, .second hord.1 hneg hF hval⟩⟩

/-! ## Addition -/

section Rows

variable {w1 w2 top : WordBuf} {v1 v2 : List Nat} {post1 post2 : List Int} {n1 n2 f2 F : Nat}

theorem addWords_rows (hrow1 : w1.1 = v1.map Nat.cast ++ post1) (hrow2 : w2.1 = v2.map Nat.cast ++ post2)
    (htop1 : n2 < n1 → top = w1) (htop2 : n1 < n2 → top = w2) (hlen1 : v1.length = n1 + F)
    (hlen2 : v2.length = n2 + f2) (hf2 : f2 ≤ F) (hlt1 : ∀ w ∈ v1, w < 1000000000)
    (hlt2 : ∀ w ∈ v2, w < 1000000000) {b : Nat} {dst : WordBuf} (hb : b ≤ 1)
    (hzero : dst.1.take b = replicate b 0) (hroom : b + (max n1 n2 + F) ≤ 9)
    (hcarry : b = 0 → ofWords v1 + ofWords v2 * 10 ^ (9 * (F - f2)) < 10 ^ (9 * (max n1 n2 + F))) :
    ∃ words', addWords w1 w2 top (n1 + F) (n1 + f2) (n2 + f2) (max 0 ((n1 : Int) - n2))
        (((max n1 n2 - min n1 n2 : Nat) : Int)) ((b + (max n1 n2 + F) : Nat) : Int) dst = .ok words' ∧
      Spells dst words' (b + (max n1 n2 + F)) (ofWords v1 + ofWords v2 * 10 ^ (9 * (F - f2))) := by
  have hreads1 : Reads (some w1) (n1 + F) v1 0 := ⟨[], post1, hrow1, rfl, by simp [hlen1]⟩
  have hreads2 : Reads (some w2) (n2 + f2) v2 0 := ⟨[], post2, hrow2, rfl, by simp [hlen2]⟩
  rcases Nat.lt_or_ge n2 n1 with hn | hn
  · -- the first one has the longer integer part, too
    rw [max_eq_left hn.le] at hroom hcarry ⊢
    rw [min_eq_right hn.le]
    have hfront : max 0 ((n1 : Int) - n2) = ((n1 - n2 : Nat) : Int) := by omega
    obtain ⟨q, v, rfl, hq⟩ := @exists_split _ v1 (n1 - n2) (by omega)
    obtain ⟨r, s, rfl, hr⟩ := @exists_split _ v (n2 + f2) (by simp only [length_append] at hlen1; omega)
    obtain ⟨hrs, hq0⟩ := hreads1.split
    rw [Int.zero_add] at hrs hq0
    obtain ⟨hltq, hltrs⟩ := forall_mem_append hlt1
    have hs : F - f2 = s.length := by
      simp only [length_append] at hlen1
      omega
    have hstop : (n1 + f2 : Int) = q.length + r.length := by omega
    rw [← htop1 hn] at hq0
    rw [← hlen1] at hroom
    rw [← hlen1, hs] at hcarry ⊢
    rw [hstop, hfront, ← hq]
    exact addWords_spec hrs hreads2 hq0 (hr.trans hlen2.symm) hltrs hlt2 hltq hb hzero hroom hcarry
  · -- the words in front are those of the second one
    rw [max_eq_right hn] at hroom hcarry ⊢
    rw [min_eq_left hn]
    obtain ⟨r, s, rfl, hr⟩ := @exists_split _ v1 (n1 + f2) (by omega)
    obtain ⟨q, r2, rfl, hq⟩ := @exists_split _ v2 (n2 - n1) (by omega)
    obtain ⟨hr2, hq0⟩ := hreads2.split
    rw [Int.zero_add] at hr2 hq0
    obtain ⟨hltq, hltr2⟩ := forall_mem_append hlt2
    simp only [length_append] at hlen1 hlen2
    have hs : F - f2 = s.length := by omega
    have hlen : r.length = r2.length := by omega
    have hall : n2 + F = (q ++ (r ++ s)).length := by
      simp only [length_append]
      omega
    -- both rows read as one number
    have hvalue : ofWords (r ++ s) + ofWords (q ++ r2) * 10 ^ (9 * s.length) =
        ofWords (q ++ (r ++ s)) + ofWords r2 * 10 ^ (9 * s.length) := by
      rw [ofWords_append q r2, ofWords_append q, length_append, hlen]
      ring
    have htop : Reads (some top) q.length q 0 := by
      rcases Nat.eq_or_lt_of_le hn with heq | hlt
      · obtain rfl : q = [] := eq_nil_of_length_eq_zero (by omega)
        exact ⟨[], top.1, rfl, rfl, rfl⟩
      · rwa [htop2 hlt]
    have hstop : (n1 + f2 : Int) = 0 + r.length := by omega
    have hfront : max 0 ((n1 : Int) - n2) = 0 := by omega
    rw [hall] at hroom
    rw [hall, hs, hvalue] at hcarry ⊢
    rw [hstop, hfront, ← hq]
    exact addWords_spec hreads1 hr2 htop hlen hlt1 hltr2 hltq hb hzero hroom hcarry

end Rows

section Sum

variable {d1 d2 : MyDecimal}

theorem capWords_frac {err : Option Err} {F wf : Nat} (hwhole : err = none → wf ≤ F) :
    capWords err F wf = ((min wf F : Nat) : Int) := by
  rw [capWords]
  cases err with
  | none =>
    have := hwhole rfl
    omega
  | some e =>
    rw [if_pos (by simp)]
    omega

theorem capWords_of_le {err : Option Err} {limit n : Nat} (h : n ≤ limit) : capWords err limit n = n := by
  rw [capWords]
  split
  · omega
  · rfl

theorem MyDecimal.Sound.kept_row {d : MyDecimal} (h : d.Sound) (F : Nat) : ∃ (v : List Nat) (post : List Int),
    d.wordBuf.1 = v.map Nat.cast ++ post ∧ v.length = d.wordsInt + min d.wordsFrac F ∧ (∀ w ∈ v, w < 1000000000) ∧
    ofWords v * 10 ^ (9 * (F - min d.wordsFrac F)) = d.scaled (9 * F) := by
  obtain ⟨post, hbuf⟩ := h.wordBuf_eq
  have hlen : (d.intWords ++ d.fracWords).length = d.wordsInt + d.wordsFrac := by
    rw [length_append, h.length_intWords, h.length_fracWords]
  obtain ⟨u, hu⟩ : ∃ u, u = d.intWords ++ d.fracWords := ⟨_, rfl⟩
  rw [← hu] at hbuf hlen
  have hlt : ∀ w ∈ u, w < 1000000000 := fun w hw => h.word_lt (by rwa [← hu])
  refine ⟨u.take (d.wordsInt + F), (u.drop (d.wordsInt + F)).map Nat.cast ++ post, ?_, ?_,
    fun w hw => hlt w (mem_of_mem_take hw), ?_⟩
  · rw [hbuf, ← append_assoc, ← map_append, take_append_drop]
  · rw [length_take]
    omega
  · have hvalue := @ofWords_layOut_take u hlt d.wordsInt 0 d.wordsFrac hlen 0 F
    rw [ofWords_layOut, length_take] at hvalue
    rw [scaled, digits, ← hu]
    convert hvalue using 3
    · omega
    · simp

theorem longer_eq {α : Type} (n1 n2 : Nat) (x1 x2 : α) :
    (if (n2 : Int) < n1 then ((n1 : Int) - n2, x1) else ((n2 : Int) - n1, x2)) =
      (((max n1 n2 - min n1 n2 : Nat) : Int), if n2 < n1 then x1 else x2) := by
  simp only [Nat.cast_lt]
  split <;> simp <;> omega

/-- The loops of `doAdd`, with the operands in either order; the words in front are the place for a carry,
if there is one. -/
theorem addAligned_spec (h1 : d1.Sound) (h2 : d2.Sound) {N F b : Nat} {dst : WordBuf}
    (hN : N = b + max d1.wordsInt d2.wordsInt) (hroom : N + F ≤ 9)
    (hF : F ≤ max d1.wordsFrac d2.wordsFrac) (hb : b ≤ 1) (hzero : dst.1.take b = replicate b 0)
    (hsum : d1.scaled (9 * F) + d2.scaled (9 * F) < 10 ^ (9 * (N + F))) :
    ∃ words', addAligned d1.wordBuf d2.wordBuf d1.wordsInt ((min d1.wordsFrac F : Nat) : Int) d2.wordsInt
        ((min d2.wordsFrac F : Nat) : Int) (N + F) dst = .ok words' ∧
      Spells dst words' (N + F) (d1.scaled (9 * F) + d2.scaled (9 * F)) := by
  obtain ⟨v1, post1, hrow1, hlen1, hlt1, hval1⟩ := h1.kept_row F
  obtain ⟨v2, post2, hrow2, hlen2, hlt2, hval2⟩ := h2.kept_row F
  have hsize : b + (max d1.wordsInt d2.wordsInt + F) = N + F := by rw [hN, Nat.add_assoc]
  have hcarry : b = 0 → d1.scaled (9 * F) + d2.scaled (9 * F) < 10 ^ (9 * (max d1.wordsInt d2.wordsInt + F)) := by
    rintro rfl
    rw [Nat.zero_add] at hsize
    rwa [hsize]
  rw [addAligned, longer_eq]
  simp only
  by_cases hfrac : min d2.wordsFrac F < min d1.wordsFrac F
  · have hmin : min d1.wordsFrac F = F := by omega
    rw [hmin] at hlen1 hval1 hfrac ⊢
    rw [Nat.sub_self, pow_zero, Nat.mul_one] at hval1
    rw [← hval1, ← hval2, ← hsize, if_pos (Nat.cast_lt.2 hfrac)]
    have h := @addWords_rows d1.wordBuf d2.wordBuf
      (if d2.wordsInt < d1.wordsInt then d1.wordBuf else d2.wordBuf) v1 v2 post1 post2 d1.wordsInt
      d2.wordsInt (min d2.wordsFrac F) F hrow1 hrow2 (fun h => if_pos h) (fun h => if_neg h.not_gt)
      hlen1 hlen2 hfrac.le hlt1 hlt2 b dst hb hzero (hsize.trans_le hroom) (by rw [hval1, hval2]; exact hcarry)
    rw [hsize] at h ⊢
    exact h
  · have hmin : min d2.wordsFrac F = F := by omega
    rw [hmin] at hlen2 hval2 hfrac ⊢
    rw [Nat.sub_self, pow_zero, Nat.mul_one] at hval2
    rw [← hval1, ← hval2, if_neg (Nat.cast_lt.not.2 hfrac)]
    have h := @addWords_rows d2.wordBuf d1.wordBuf
      (if d2.wordsInt < d1.wordsInt then d1.wordBuf else d2.wordBuf) v2 v1 post2 post1 d2.wordsInt
      d1.wordsInt (min d1.wordsFrac F) F hrow2 hrow1 (fun h => if_neg h.not_gt) (fun h => if_pos h)
      hlen2 hlen1 (Nat.min_le_right _ _) hlt2 hlt1 b dst hb hzero (by rw [max_comm, hsize]; exact hroom)
      (by rw [hval1, hval2, Nat.add_comm, max_comm]; exact hcarry)
    rw [max_comm d2.wordsInt, min_comm d2.wordsInt, hsize, Nat.add_comm (ofWords v2)] at h
    exact h

theorem addKept_spec (h1 : d1.Sound) (h2 : d2.Sound) {N F b : Nat} {err : Option Err}
    {dst : MyDecimal} (hN : N = b + max d1.wordsInt d2.wordsInt) (hroom : N + F ≤ 9)
    (hF : F ≤ max d1.wordsFrac d2.wordsFrac) (hwhole : err = none → F = max d1.wordsFrac d2.wordsFrac)
    (hb : b ≤ 1) (hzero : dst.wordBuf.1.take b = replicate b 0)
    (hsum : d1.scaled (9 * F) + d2.scaled (9 * F) < 10 ^ (9 * (N + F))) : ∃ words', addKept d1 d2 N F err dst =
        .ok (⟨9 * N, capWords err (9 * F) (max d1.digitsFrac d2.digitsFrac), dst.resultFrac, d1.negative,
          words'⟩, err) ∧ Spells dst.wordBuf words' (N + F) (d1.scaled (9 * F) + d2.scaled (9 * F)) := by
  obtain ⟨words', hrun, hrow⟩ := addAligned_spec h1 h2 hN hroom hF hb hzero hsum
  refine ⟨words', ?_, hrow⟩
  rw [addKept, h1.wordsInt_cast, h1.wordsFrac_cast, h2.wordsInt_cast, h2.wordsFrac_cast,
    capWords_of_le (by omega), capWords_of_le (show d2.wordsInt ≤ N by omega),
    capWords_frac (show err = none → d1.wordsFrac ≤ F from fun h => by have := hwhole h; omega),
    capWords_frac (show err = none → d2.wordsFrac ≤ F from fun h => by have := hwhole h; omega)]
  rw [hrun, int8_nine_mul (by omega), int8_nine_mul (by omega)]
  rfl

/-- Where `doAdd` looks for a carry: a decimal is less than what its first word with all nines behind it
stands for. -/
theorem MyDecimal.WellFormed.first_word {d : MyDecimal} (h : d.WellFormed) : ∃ t : Nat, d.wordBuf.get 0 = .ok (t : Int)
    ∧ t < 1000000000 ∧ d.magnitude * 10 ^ 9 < (t + 1) * 10 ^ (9 * d.wordsInt) := by
  obtain ⟨post, hbuf⟩ := h.sound.wordBuf_eq
  have hlen : (d.intWords ++ d.fracWords).length = d.wordsInt + d.wordsFrac := by
    rw [length_append, h.sound.length_intWords, h.sound.length_fracWords]
  have hlt : ∀ w ∈ d.intWords ++ d.fracWords, w < 1000000000 := fun w hw => h.sound.word_lt hw
  rw [magnitude, digits]
  cases hu : d.intWords ++ d.fracWords with
  | nil =>
    -- no words are in use, and the first one holds anything
    obtain ⟨x, ws, hws⟩ : ∃ x ws, d.wordBuf.1 = x :: ws :=
      exists_cons_of_length_pos (by rw [d.wordBuf.2, maxWordBufLen]; norm_num)
    have hrange := h.word_range x (by rw [hws]; exact mem_cons_self)
    rw [wordMax] at hrange
    have hrow : d.wordBuf.1 = ([] ++ x.toNat :: []).map Nat.cast ++ ws := by
      rw [hws, nil_append, map_singleton, Int.toNat_of_nonneg hrange.1]
      rfl
    refine ⟨x.toNat, get_row hrow, by omega, ?_⟩
    rw [ofWords_nil, Nat.cast_zero, zero_div, zero_mul]
    positivity
  | cons t ts =>
    rw [hu] at hbuf hlen hlt
    rw [length_cons] at hlen
    have hts := ofWords_lt fun w hw => hlt w (mem_cons_of_mem _ hw)
    refine ⟨t, @get_row d.wordBuf [] post ts t hbuf, hlt t mem_cons_self, ?_⟩
    have hnat : ofWords (t :: ts) * 10 ^ 9 < (t + 1) * 10 ^ (9 * d.wordsInt) * 10 ^ (9 * d.wordsFrac) := by
      have hpow : 10 ^ (9 * d.wordsInt) * 10 ^ (9 * d.wordsFrac) = 10 ^ (9 * ts.length) * 10 ^ 9 := by
        rw [← pow_add, ← pow_add]
        congr 1
        omega
      rw [Nat.mul_assoc, hpow, ← Nat.mul_assoc, ofWords_cons]
      apply Nat.mul_lt_mul_of_pos_right _ (by norm_num)
      rw [Nat.add_mul]
      omega
    rw [div_mul_eq_mul_div, div_lt_iff₀ (by positivity)]
    exact_mod_cast hnat

theorem sum_lt {m1 m2 : ℚ} {t1 t2 n1 n2 : Nat} (h1 : m1 * 10 ^ 9 < (t1 + 1) * 10 ^ (9 * n1))
    (h2 : m2 * 10 ^ 9 < (t2 + 1) * 10 ^ (9 * n2)) (hlt1 : m1 < 10 ^ (9 * n1)) (hlt2 : m2 < 10 ^ (9 * n2))
    (hx : (if n2 < n1 then t1 else if n1 < n2 then t2 else t1 + t2) ≤ 999999998) :
    m1 + m2 < 10 ^ (9 * max n1 n2) := by
  have hstep : ∀ {n n' : Nat}, n < n' → (10 : ℚ) ^ (9 * n) * 10 ^ 9 ≤ 10 ^ (9 * n') := fun h => by
    rw [← pow_add]
    exact pow_le_pow_right₀ (by norm_num) (by omega)
  rcases Nat.lt_trichotomy n1 n2 with hn | rfl | hn
  · rw [if_neg (by omega), if_pos hn] at hx
    have ht : (t2 : ℚ) ≤ 999999998 := by exact_mod_cast hx
    rw [max_eq_right hn.le]
    nlinarith [hstep hn, show (0 : ℚ) < 10 ^ (9 * n2) by positivity]
  · rw [if_neg (by omega), if_neg (by omega)] at hx
    have ht : (t1 : ℚ) + t2 ≤ 999999998 := by exact_mod_cast hx
    rw [max_self]
    nlinarith [show (0 : ℚ) < 10 ^ (9 * n1) by positivity]
  · rw [if_pos hn] at hx
    have ht : (t1 : ℚ) ≤ 999999998 := by exact_mod_cast hx
    rw [max_eq_left hn.le]
    nlinarith [hstep hn, show (0 : ℚ) < 10 ^ (9 * n1) by positivity]

theorem sum_lt_succ {m1 m2 : ℚ} {n1 n2 : Nat} (hlt1 : m1 < 10 ^ (9 * n1)) (hlt2 : m2 < 10 ^ (9 * n2)) :
    m1 + m2 < 10 ^ (9 * (max n1 n2 + 1)) := by
  have hle1 : (10 : ℚ) ^ (9 * n1) ≤ 10 ^ (9 * max n1 n2) :=
    pow_le_pow_right₀ (by norm_num) (by omega)
  have hle2 : (10 : ℚ) ^ (9 * n2) ≤ 10 ^ (9 * max n1 n2) :=
    pow_le_pow_right₀ (by norm_num) (by omega)
  have hpos : (0 : ℚ) < 10 ^ (9 * max n1 n2) := by positivity
  rw [Nat.mul_add, pow_add, Nat.mul_one]
  linarith

theorem maxDecimal_ok (dst : MyDecimal) : ∃ r, maxDecimal (maxWordBufLen * digitsPerWord) 0 dst = .ok r :=
  ⟨_, rfl⟩

theorem scaled_add_lt {N F : Nat} (h : d1.magnitude + d2.magnitude < 10 ^ (9 * N)) :
    d1.scaled (9 * F) + d2.scaled (9 * F) < 10 ^ (9 * (N + F)) := by
  have hle : ∀ d : MyDecimal, (d.scaled (9 * F) : ℚ) ≤ d.magnitude * 10 ^ (9 * F) := fun d => by
    rw [scaled_eq_floor]
    exact Nat.floor_le (mul_nonneg d.magnitude_nonneg (by positivity))
  have hlt : (d1.scaled (9 * F) : ℚ) + d2.scaled (9 * F) < 10 ^ (9 * (N + F)) := by
    rw [Nat.mul_add, pow_add]
    nlinarith [hle d1, hle d2, show (0 : ℚ) < 10 ^ (9 * F) by positivity]
  exact_mod_cast hlt

theorem addSized_spec (h1 : d1.Sound) (h2 : d2.Sound) {N b : Nat} {dst : MyDecimal}
    (hN : N = b + max d1.wordsInt d2.wordsInt) (hb : b ≤ 1) (hzero : dst.wordBuf.1.take b = replicate b 0)
    (hsum : d1.magnitude + d2.magnitude < 10 ^ (9 * N)) : ∃ r err, addSized d1 d2 N dst = .ok (r, err) ∧
      (err = some .errOverflow ∨ ∃ F, N ≤ 9 ∧ r.negative = d1.negative ∧
          Written d1 d2 dst r err N F (d1.scaled (9 * F) + d2.scaled (9 * F))) := by
  have hmax : max (digitsToWords d1.digitsFrac) (digitsToWords d2.digitsFrac) =
      ((max d1.wordsFrac d2.wordsFrac : Nat) : Int) := by
    rw [h1.wordsFrac_cast, h2.wordsFrac_cast]
    omega
  rw [addSized, hmax]
  rcases fixWordCntError_cases N (max d1.wordsFrac d2.wordsFrac) with
    ⟨hfit, hfix⟩ | ⟨hcut, h9, hfix⟩ | ⟨-, hfix⟩
  · obtain ⟨words', hrun, hrow⟩ := @addKept_spec d1 d2 h1 h2 N _ b none dst hN hfit le_rfl (fun _ => rfl) hb
      hzero (scaled_add_lt hsum)
    refine ⟨⟨9 * N, max d1.digitsFrac d2.digitsFrac, dst.resultFrac, d1.negative, words'⟩, none, ?_, .inr ⟨max
      d1.wordsFrac d2.wordsFrac, by omega, rfl, ⟨rfl, rfl, hfit, hrow, .inl ⟨rfl, rfl, rfl⟩⟩⟩⟩
    rw [hfix]
    exact hrun
  · obtain ⟨words', hrun, hrow⟩ := @addKept_spec d1 d2 h1 h2 N (9 - N) b (some .errTruncated) dst hN (by omega)
      (by omega) (by simp) hb hzero (scaled_add_lt hsum)
    have hdigits : capWords (some .errTruncated) (9 * ((9 - N : Nat) : Int)) (max d1.digitsFrac d2.digitsFrac) =
        9 * ((9 - N : Nat) : Int) := min_eq_right (nine_mul_le_digits h1 h2 (by omega))
    rw [hdigits] at hrun
    refine ⟨⟨9 * N, 9 * ((9 - N : Nat) : Int), dst.resultFrac, d1.negative, words'⟩, some .errTruncated, ?_,
      .inr ⟨9 - N, h9, rfl, ⟨rfl, rfl, by omega, hrow, .inr ⟨rfl, by omega, by omega, rfl⟩⟩⟩⟩
    rw [hfix]
    exact hrun
  · obtain ⟨r, hmax⟩ := maxDecimal_ok dst
    refine ⟨r, some .errOverflow, ?_, .inl rfl⟩
    rw [hfix]
    rw [hmax]
    rfl

theorem take_set_zero (w : WordBuf) : (w.1.set 0 0).take 1 = replicate 1 0 := by
  obtain ⟨x, ws, hws⟩ : ∃ x ws, w.1 = x :: ws :=
    exists_cons_of_length_pos (by rw [w.2, maxWordBufLen]; norm_num)
  rw [hws]
  rfl

theorem doAdd_spec (h1 : d1.WellFormed) (h2 : d2.WellFormed) (dst : MyDecimal) : ∃ r err, doAdd d1 d2 dst = .ok (r, err)
    ∧ (err = some .errOverflow ∨ ∃ N F, N ≤ 9 ∧ d1.magnitude + d2.magnitude < 10 ^ (9 * N) ∧ r.negative = d1.negative ∧
    Written d1 d2 dst r err N F (d1.scaled (9 * F) + d2.scaled (9 * F))) := by
  obtain ⟨t1, hget1, hlt1, hfirst1⟩ := h1.first_word
  obtain ⟨t2, hget2, hlt2, hfirst2⟩ := h2.first_word
  have hmag1 := h1.sound.magnitude_lt
  have hmag2 := h2.sound.magnitude_lt
  obtain ⟨x, hx⟩ : ∃ x, x = if d2.wordsInt < d1.wordsInt then t1 else
    if d1.wordsInt < d2.wordsInt then t2 else t1 + t2 := ⟨_, rfl⟩
  have hxInt : (if (d2.wordsInt : Int) < d1.wordsInt then (t1 : Int)
      else if (d1.wordsInt : Int) < d2.wordsInt then (t2 : Int) else int32 ((t1 : Int) + t2)) = x := by
    rw [int32_of_bounds (by omega) (by omega), hx]
    simp only [Nat.cast_lt]
    split
    · rfl
    · split
      · rfl
      · exact (Nat.cast_add t1 t2).symm
  rw [doAdd, hget1, ok_bind, hget2, ok_bind, h1.sound.wordsInt_cast, h2.sound.wordsInt_cast]
  simp only [hxInt]
  by_cases hbig : wordMax - 1 < (x : Int)
  · -- one more word, with a zero in it
    have hsum := sum_lt_succ hmag1 hmag2
    obtain ⟨r, err, hrun, hspec⟩ := @addSized_spec d1 d2 h1.sound h2.sound (max d1.wordsInt d2.wordsInt + 1)
      1 { dst with wordBuf := ⟨dst.wordBuf.1.set 0 0, by rw [length_set]; exact dst.wordBuf.2⟩ }
      (Nat.add_comm _ _) le_rfl (take_set_zero dst.wordBuf) hsum
    refine ⟨r, err, ?_, hspec.imp_right ?_⟩
    · rw [if_pos hbig, WordBuf.set, ← Nat.cast_max]
      exact hrun
    · rintro ⟨F, h9, hneg, hw⟩
      exact ⟨_, F, h9, hsum, hneg, hw.of_set⟩
  · have hsum := sum_lt hfirst1 hfirst2 hmag1 hmag2 (by rw [← hx]; rw [wordMax] at hbig; omega)
    obtain ⟨r, err, hrun, hspec⟩ := @addSized_spec d1 d2 h1.sound h2.sound (max d1.wordsInt d2.wordsInt) 0 dst
      (by simp) (by omega) rfl hsum
    refine ⟨r, err, ?_, hspec.imp_right ?_⟩
    · rw [if_neg hbig, ← Nat.cast_max]
      exact hrun
    · rintro ⟨F, h9, hneg, hw⟩
      exact ⟨_, F, h9, hsum, hneg, hw⟩

end Sum

end Tidb.Types
