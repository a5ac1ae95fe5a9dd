import Tidb.Types.WordRows
import Tidb.Types.WriteBin

/-!
# The order of decimals

`doSub` looks at the words that count before it subtracts: the integer part without the zero words in
front and, if both have the same number of these, the fraction without the zero words at the end.  It
finds out which decimal is larger from the first words that differ.
-/

namespace Tidb.Types

open GoLang ByteNum List Outcome

/-! ## Decimals that can be read -/

theorem digitsToWords_nonneg {n : Int} (h : 0 ≤ n) : digitsToWords n = ((digitsToWords n).toNat : Int) := by
  rw [digitsToWords, digitsPerWord, Int.tdiv_eq_ediv_of_nonneg (by omega)]
  omega

namespace MyDecimal.Sound

variable {d : MyDecimal} (h : d.Sound)
include h

theorem wordsInt_cast : digitsToWords d.digitsInt = (d.wordsInt : Int) :=
  digitsToWords_nonneg h.digitsInt_nonneg

theorem wordsFrac_cast : digitsToWords d.digitsFrac = (d.wordsFrac : Int) :=
  digitsToWords_nonneg h.digitsFrac_nonneg

theorem length_intWords : d.intWords.length = d.wordsInt := (length_words_of_le h.words_le).1

theorem length_fracWords : d.fracWords.length = d.wordsFrac := (length_words_of_le h.words_le).2

theorem wordBuf_eq : ∃ post : List Int, d.wordBuf.1 = (d.intWords ++ d.fracWords).map Nat.cast ++ post := by
  refine ⟨d.wordBuf.1.drop (d.wordsInt + d.wordsFrac), ?_⟩
  conv_lhs => rw [← take_append_drop (d.wordsInt + d.wordsFrac) d.wordBuf.1]
  congr 1
  rw [used_eq, words, ← map_take, map_map]
  conv_lhs => rw [← map_id (d.wordBuf.1.take (d.wordsInt + d.wordsFrac))]
  exact map_congr_left fun w hw => (Int.toNat_of_nonneg (h.word_range w hw).1).symm

theorem word_lt {w : Nat} (hw : w ∈ d.intWords ++ d.fracWords) : w < 1000000000 := by
  rw [used_eq, words, ← map_take] at hw
  obtain ⟨v, hv, rfl⟩ := mem_map.mp hw
  have hr := h.word_range v hv
  rw [wordMax] at hr
  omega

end MyDecimal.Sound

/-! ## Skipping words -/

section Skip

variable {w w' : WordBuf} {pre pre' : List Nat} {post post' : List Int}

variable {ws : List Nat}

theorem get_row {x : Nat} (hw : w.1 = (pre ++ x :: ws).map Nat.cast ++ post) :
    w.get (pre.length : Int) = .ok (x : Int) := by
  rw [WordBuf.get, indexInt_natCast, hw, index_of_lt (by simp)]
  simp

theorem skipZeros_spec (hw : w.1 = (pre ++ ws).map Nat.cast ++ post) : ∃ k tail, ws = replicate k 0 ++ tail ∧ (∀ x
    ∈ tail.head?, 0 < x) ∧ skipZeros w ws.length (pre.length : Int) = .ok ((pre.length + k : Nat) : Int) := by
  induction ws generalizing pre with
  | nil => exact ⟨0, [], rfl, by simp, rfl⟩
  | cons x ws ih =>
    rw [length_cons, skipZeros, get_row hw, ok_bind]
    by_cases hx : x = 0
    · subst hx
      have hw' : w.1 = ((pre ++ [0]) ++ ws).map Nat.cast ++ post := by
        rw [hw]
        simp
      obtain ⟨k, tail, hws, hhead, hrun⟩ := ih hw'
      refine ⟨k + 1, tail, by rw [hws]; rfl, hhead, ?_⟩
      rw [if_pos Nat.cast_zero]
      rw [length_append, length_singleton] at hrun
      rw [show (pre.length : Int) + 1 = ((pre.length + 1 : Nat) : Int) by omega, hrun]
      congr 1
      omega
    · refine ⟨0, x :: ws, rfl, by simp; omega, ?_⟩
      rw [if_neg (by exact_mod_cast hx)]
      rfl

theorem dropZeros_spec (hw : w.1 = (pre ++ ws).map Nat.cast ++ post) : ∃ u z, ws = u ++ replicate z 0 ∧ (∀ x ∈
    u.getLast?, 0 < x) ∧ dropZeros w ws.length ((pre.length + ws.length : Nat) - 1 : Int) = .ok ((pre.length + u.length
    : Nat) - 1 : Int) := by
  induction hn : ws.length generalizing ws post with
  | zero =>
    rw [length_eq_zero_iff] at hn
    subst hn
    exact ⟨[], 0, rfl, by simp, rfl⟩
  | succ n ih =>
    obtain ⟨ws, x, rfl, hlen⟩ := exists_concat hn
    have hget : w.get (((pre.length + (n + 1) : Nat) : Int) - 1) = .ok (x : Int) := by
      have hrow : w.1 = ((pre ++ ws) ++ [x]).map Nat.cast ++ post := by
        rw [hw]
        simp
      have := get_row hrow
      rw [length_append, hlen] at this
      rwa [show ((pre.length + (n + 1) : Nat) : Int) - 1 = ((pre.length + n : Nat) : Int) by omega]
    rw [dropZeros, hget, ok_bind]
    by_cases hx : x = 0
    · subst hx
      have hw' : w.1 = (pre ++ ws).map Nat.cast ++ (0 :: post) := by
        rw [hw]
        simp
      obtain ⟨u, z, hws, hlast, hrun⟩ := ih hw' hlen
      refine ⟨u, z + 1, ?_, hlast, ?_⟩
      · rw [hws, append_assoc, replicate_succ']
      · rw [if_pos Nat.cast_zero, ← hrun]
        congr 1
        omega
    · refine ⟨ws ++ [x], 0, by simp, by simp; omega, ?_⟩
      rw [if_neg (by exact_mod_cast hx), length_append, hlen]
      rfl

theorem skipEqual_spec {us vs : List Nat} (hw : w.1 = (pre ++ us).map Nat.cast ++ post)
    (hw' : w'.1 = (pre' ++ vs).map Nat.cast ++ post') : ∃ c us' vs', us = c ++ us' ∧ vs = c ++ vs' ∧
      (∀ x ∈ us'.head?, ∀ y ∈ vs'.head?, x ≠ y) ∧ skipEqual w w' (min us.length vs.length) pre.length pre'.length =
        .ok (((pre.length + c.length : Nat) : Int), ((pre'.length + c.length : Nat) : Int)) := by
  induction us generalizing vs pre pre' with
  | nil => exact ⟨[], [], vs, rfl, rfl, by simp, by simp [skipEqual]⟩
  | cons x us ih =>
    cases vs with
    | nil => exact ⟨[], x :: us, [], rfl, rfl, by simp, by simp [skipEqual]⟩
    | cons y vs =>
      rw [length_cons, length_cons, Nat.succ_min_succ, skipEqual, get_row hw, get_row hw', ok_bind, ok_bind]
      by_cases hxy : x = y
      · subst hxy
        have h1 : w.1 = ((pre ++ [x]) ++ us).map Nat.cast ++ post := by
          rw [hw]
          simp
        have h2 : w'.1 = ((pre' ++ [x]) ++ vs).map Nat.cast ++ post' := by
          rw [hw']
          simp
        obtain ⟨c, us', vs', hus, hvs, hne, hrun⟩ := ih h1 h2
        refine ⟨x :: c, us', vs', by rw [hus]; rfl, by rw [hvs]; rfl, hne, ?_⟩
        rw [if_pos rfl]
        rw [length_append, length_append, length_singleton] at hrun
        rw [show (pre.length : Int) + 1 = ((pre.length + 1 : Nat) : Int) by omega,
          show (pre'.length : Int) + 1 = ((pre'.length + 1 : Nat) : Int) by omega, hrun, length_cons]
        congr 2
        · omega
        · omega
      · refine ⟨[], x :: us, y :: vs, rfl, rfl, by simpa using hxy, ?_⟩
        rw [if_neg (by exact_mod_cast hxy)]
        rfl

end Skip

/-! ## The words that count -/

/-- The extent of a decimal takes in the words `u`, of which `n` belong to the integer part; outside it
there are only zeros. -/
structure Covers (d : MyDecimal) (e : Extent) (u : List Nat) (n : Nat) : Prop where
  wordsInt : e.wordsInt = n
  wordsFrac : e.wordsFrac = u.length - n
  row : ∃ (pre : List Nat) (post : List Int), d.wordBuf.1 = (pre ++ u).map Nat.cast ++ post ∧ e.start = pre.length
  digits : ∃ z, u.length + z = n + d.wordsFrac ∧ d.digits = ofWords u * 10 ^ (9 * z)
  word_lt : ∀ w ∈ u, w < 1000000000
  head : 0 < n → ∃ x t, u = x :: t ∧ 0 < x

def MyDecimal.magnitude (d : MyDecimal) : ℚ := d.digits / 10 ^ (9 * d.wordsFrac)

variable {d : MyDecimal}

theorem MyDecimal.Sound.magnitude_lt (h : d.Sound) : d.magnitude < 10 ^ (9 * d.wordsInt) := by
  have hlt := ofWords_lt fun w hw => h.word_lt hw
  rw [length_append, h.length_intWords, h.length_fracWords, Nat.mul_add, pow_add] at hlt
  rw [MyDecimal.magnitude, div_lt_iff₀ (by positivity)]
  exact_mod_cast hlt

def topValue (u : List Nat) : ℚ := ofWords u / 10 ^ (9 * u.length)

theorem topValue_append (c u : List Nat) : topValue (c ++ u) = topValue c + topValue u / 10 ^ (9 * c.length) := by
  rw [topValue, topValue, topValue, ofWords_append, length_append, Nat.mul_add, pow_add]
  push_cast
  field_simp

theorem topValue_cons (x : Nat) (u : List Nat) : topValue (x :: u) = (x + topValue u) / 10 ^ 9 := by
  rw [show x :: u = [x] ++ u from rfl, topValue_append, topValue, ofWords_singleton]
  simp only [length_singleton]
  ring

theorem topValue_nonneg (u : List Nat) : 0 ≤ topValue u := by
  unfold topValue
  positivity

variable {u : List Nat}

theorem topValue_lt_one (h : ∀ w ∈ u, w < 1000000000) : topValue u < 1 := by
  rw [topValue, div_lt_one (by positivity)]
  exact_mod_cast ofWords_lt h

theorem topValue_pos (hne : u ≠ []) (hlast : ∀ x ∈ u.getLast?, 0 < x) : 0 < topValue u := by
  obtain ⟨n, hn⟩ : ∃ n, u.length = n + 1 := ⟨u.length - 1, by
    have := length_pos_iff.mpr hne
    omega⟩
  obtain ⟨v, x, rfl, -⟩ := exists_concat hn
  have hx : 0 < x := hlast x (by simp)
  have h0 := topValue_nonneg v
  have h1 : 0 < topValue [x] / 10 ^ (9 * v.length) := by
    rw [topValue, ofWords_singleton]
    positivity
  rw [topValue_append]
  linarith

theorem topValue_lt_of_head {x y : Nat} {v : List Nat} (hxy : x < y) (hu : ∀ w ∈ u, w < 1000000000) :
    topValue (x :: u) < topValue (y :: v) := by
  have h1 := topValue_lt_one hu
  have h2 := topValue_nonneg v
  have hcast : (x : ℚ) + 1 ≤ y := by exact_mod_cast hxy
  rw [topValue_cons, topValue_cons]
  linarith

theorem topValue_append_lt {c v : List Nat} (h : topValue u < topValue v) : topValue (c ++ u) < topValue (c ++ v) := by
  rw [topValue_append, topValue_append]
  have := div_lt_div_of_pos_right h (show (0 : ℚ) < 10 ^ (9 * c.length) by positivity)
  linarith

namespace Covers

variable {d : MyDecimal} {e : Extent} {u : List Nat} {n : Nat} (h : Covers d e u n)
include h

theorem magnitude_eq : d.magnitude = topValue u * 10 ^ (9 * n) := by
  obtain ⟨z, hlen, hdigits⟩ := h.digits
  have hpow : (10 : ℚ) ^ (9 * u.length) * 10 ^ (9 * z) = 10 ^ (9 * n) * 10 ^ (9 * d.wordsFrac) := by
    rw [← pow_add, ← pow_add, ← Nat.mul_add, ← Nat.mul_add, hlen]
  rw [MyDecimal.magnitude, hdigits, topValue, div_mul_eq_mul_div, div_eq_div_iff (by positivity) (by positivity)]
  push_cast
  linear_combination (ofWords u : ℚ) * hpow

theorem magnitude_lt : d.magnitude < 10 ^ (9 * n) := by
  rw [h.magnitude_eq]
  have := topValue_lt_one h.word_lt
  have hpos : (0 : ℚ) < 10 ^ (9 * n) := by positivity
  nlinarith

theorem le_magnitude (hn : 0 < n) : (10 : ℚ) ^ (9 * (n - 1)) ≤ d.magnitude := by
  obtain ⟨x, t, hu, hx⟩ := h.head hn
  have ht := topValue_nonneg t
  have hx' : (1 : ℚ) ≤ x := by exact_mod_cast hx
  have hpow : (10 : ℚ) ^ (9 * n) = 10 ^ (9 * (n - 1)) * 10 ^ 9 := by
    rw [← pow_add]
    congr 1
    omega
  rw [h.magnitude_eq, hu, topValue_cons, hpow, div_mul_eq_mul_div, ← mul_assoc, mul_div_assoc]
  have hpos : (0 : ℚ) < 10 ^ (9 * (n - 1)) := by positivity
  nlinarith

end Covers

theorem leadingExtent_spec (h : d.Sound) :
    ∃ e u n, leadingExtent d = .ok e ∧ Covers d e u n ∧ u.length = n + d.wordsFrac ∧ e.start + n = d.wordsInt := by
  obtain ⟨post, hbuf⟩ := h.wordBuf_eq
  have hint := h.length_intWords
  have hfrac := h.length_fracWords
  obtain ⟨k, tail, hwords, hhead, hskip⟩ := @skipZeros_spec d.wordBuf [] (d.fracWords.map Nat.cast ++ post)
    d.intWords (by rw [hbuf]; simp)
  have hcover : ∀ k' : Nat, k' = k → Covers d ⟨k', tail.length, d.wordsFrac⟩ (tail ++ d.fracWords) tail.length := by
    rintro k' rfl
    refine ⟨rfl, by simp [hfrac], ⟨replicate k' 0, post, ?_, by simp⟩, ⟨0, by simp [hfrac], ?_⟩,
      fun w hw => h.word_lt ?_, fun hpos => ?_⟩
    · rw [hbuf, hwords]
      simp
    · rw [MyDecimal.digits, hwords, append_assoc, ofWords_append, ofWords_replicate_zero]
      simp
    · rw [hwords, append_assoc]
      exact mem_append_right _ hw
    · obtain ⟨x, t, rfl⟩ := exists_cons_of_length_pos hpos
      exact ⟨x, t ++ d.fracWords, rfl, hhead x rfl⟩
  have hlen : k + tail.length = d.wordsInt := by
    rw [← hint, hwords]
    simp
  have h9 : d.wordBuf.1.length = 9 := d.wordBuf.2
  obtain ⟨first, hfirst⟩ : ∃ first, d.wordBuf.get 0 = .ok first := by
    refine ⟨d.wordBuf.1[0], ?_⟩
    exact index_of_lt (by omega)
  rw [leadingExtent, h.wordsInt_cast, h.wordsFrac_cast, hfirst, ok_bind]
  by_cases hf : first = 0
  · refine ⟨_, _, _, ?_, hcover k rfl, by simp [hfrac], by simp only; omega⟩
    rw [if_pos hf, Int.toNat_natCast, ← hint]
    have hskip' : skipZeros d.wordBuf d.intWords.length 0 = .ok (k : Int) := by simpa using hskip
    rw [hskip', hint, ← hlen]
    simp
  · -- a first word that is not zero is not skipped
    have hk : k = 0 := by
      by_contra hk
      obtain ⟨j, rfl⟩ := Nat.exists_eq_succ_of_ne_zero hk
      apply hf
      have hrow : d.wordBuf.1 = ([] ++ 0 :: (replicate j 0 ++ (tail ++ d.fracWords))).map Nat.cast ++ post := by
        rw [hbuf, hwords, replicate_succ]
        simp
      have := get_row hrow
      rw [length_nil, Nat.cast_zero, hfirst] at this
      cases this
      rfl
    refine ⟨_, _, _, ?_, hcover 0 hk.symm, by simp [hfrac], by rw [← hlen, hk]; simp⟩
    rw [if_neg hf, ← hlen, hk]
    simp

theorem trimExtent_spec (h : d.Sound) {e : Extent} {n : Nat} (hc : Covers d e u n) (hstop : e.start + n = d.wordsInt) :
    ∃ u', trimExtent d e = .ok (⟨e.start, n, u'.length - n⟩, e.start + u'.length - 1) ∧
      Covers d ⟨e.start, n, u'.length - n⟩ u' n ∧ ∀ x ∈ u'.getLast?, 0 < x := by
  obtain ⟨pre, post, hrow, hstart⟩ := hc.row
  obtain ⟨u', z', hu, hlast, hdrop⟩ := dropZeros_spec hrow
  have hfuel : (digitsToWords d.digitsInt + e.wordsFrac - e.start).toNat = u.length := by
    rw [h.wordsInt_cast, hc.wordsFrac]
    omega
  have hend : digitsToWords d.digitsInt + e.wordsFrac - 1 = ((pre.length + u.length : Nat) : Int) - 1 := by
    rw [h.wordsInt_cast, hc.wordsFrac]
    omega
  refine ⟨u', ?_, ⟨rfl, rfl, ?_, ?_, ?_, ?_⟩, hlast⟩
  · rw [trimExtent, hfuel, hend, hdrop, ok_bind, h.wordsInt_cast, hc.wordsInt, hstart]
    congr 2
    congr 1
    omega
  · refine ⟨pre, (replicate z' 0 : List Nat).map Nat.cast ++ post, ?_, hstart⟩
    rw [hrow, hu]
    simp
  · obtain ⟨z, hlen, hdigits⟩ := hc.digits
    refine ⟨z' + z, ?_, ?_⟩
    · rw [hu, length_append, length_replicate] at hlen
      omega
    · rw [hdigits, hu, ofWords_append, ofWords_replicate_zero, length_replicate]
      ring
  · intro w hw
    exact hc.word_lt w (hu ▸ mem_append_left _ hw)
  · intro hn
    obtain ⟨x, t, hxt, hx⟩ := hc.head hn
    cases u' with
    | nil =>
      -- the first word is not zero, so it is not cut off
      have hmem : x ∈ replicate z' 0 := by
        rw [← nil_append (replicate z' 0), ← hu, hxt]
        exact mem_cons_self ..
      have := eq_of_mem_replicate hmem
      omega
    | cons y t' =>
      rw [hxt] at hu
      cases hu
      exact ⟨x, t', rfl, hx⟩

theorem topValue_cases {us vs c us' vs' : List Nat} (hus : us = c ++ us') (hvs : vs = c ++ vs')
    (hlt1 : ∀ w ∈ us, w < 1000000000) (hlt2 : ∀ w ∈ vs, w < 1000000000)
    (hlast1 : ∀ x ∈ us.getLast?, 0 < x) (hlast2 : ∀ x ∈ vs.getLast?, 0 < x)
    (hne : ∀ x ∈ us'.head?, ∀ y ∈ vs'.head?, x ≠ y) : us' = [] ∧ vs' = [] ∨
    (us' = [] ∧ vs' ≠ [] ∨ ∃ x y t t', us' = x :: t ∧ vs' = y :: t' ∧ x < y) ∧ topValue us < topValue vs ∨
    (vs' = [] ∧ us' ≠ [] ∨ ∃ x y t t', us' = x :: t ∧ vs' = y :: t' ∧ y < x) ∧ topValue vs < topValue us := by
  have hpos : ∀ {l l' : List Nat}, l = c ++ l' → l' ≠ [] → (∀ x ∈ l.getLast?, 0 < x) → topValue [] < topValue l' := by
    intro l l' hl hl' hlast
    rw [show topValue [] = 0 by simp [topValue]]
    apply topValue_pos hl'
    intro x hx
    apply hlast
    rw [hl, getLast?_append_of_ne_nil _ hl']
    exact hx
  cases us' with
  | nil =>
    cases vs' with
    | nil => exact .inl ⟨rfl, rfl⟩
    | cons y t' =>
      refine .inr (.inl ⟨.inl ⟨rfl, by simp⟩, ?_⟩)
      rw [hus, hvs]
      exact topValue_append_lt (hpos hvs (by simp) hlast2)
  | cons x t =>
    cases vs' with
    | nil =>
      refine .inr (.inr ⟨.inl ⟨rfl, by simp⟩, ?_⟩)
      rw [hus, hvs]
      exact topValue_append_lt (hpos hus (by simp) hlast1)
    | cons y t' =>
      rcases Nat.lt_or_gt_of_ne (hne x rfl y rfl) with hxy | hxy
      · refine .inr (.inl ⟨.inr ⟨x, y, t, t', rfl, rfl, hxy⟩, ?_⟩)
        rw [hus, hvs]
        exact topValue_append_lt (topValue_lt_of_head hxy fun w hw => hlt1 w (by simp [hus, hw]))
      · refine .inr (.inr ⟨.inr ⟨x, y, t, t', rfl, rfl, hxy⟩, ?_⟩)
        rw [hus, hvs]
        exact topValue_append_lt (topValue_lt_of_head hxy fun w hw => hlt2 w (by simp [hvs, hw]))

def Ordered (d1 d2 : MyDecimal) (n1 n2 : Nat) : Option Bool → Prop
  | none => d1.magnitude = d2.magnitude
  | some true => d1.magnitude < d2.magnitude ∧ n1 ≤ n2
  | some false => d2.magnitude < d1.magnitude ∧ n2 ≤ n1

theorem Covers.lt_of_lt {d1 d2 : MyDecimal} {e1 e2 : Extent} {u1 u2 : List Nat} {n1 n2 : Nat}
    (h1 : Covers d1 e1 u1 n1) (h2 : Covers d2 e2 u2 n2) (hn : n1 < n2) : d1.magnitude < d2.magnitude :=
  calc d1.magnitude < 10 ^ (9 * n1) := h1.magnitude_lt
    _ ≤ 10 ^ (9 * (n2 - 1)) := pow_le_pow_right₀ (by norm_num) (by omega)
    _ ≤ d2.magnitude := h2.le_magnitude (by omega)

theorem laterLarger_spec {w1 w2 : WordBuf} {pre1 pre2 us vs : List Nat} {post1 post2 : List Int}
    (hrow1 : w1.1 = (pre1 ++ us).map Nat.cast ++ post1) (hrow2 : w2.1 = (pre2 ++ vs).map Nat.cast ++ post2)
    (hlt1 : ∀ w ∈ us, w < 1000000000) (hlt2 : ∀ w ∈ vs, w < 1000000000)
    (hlast1 : ∀ x ∈ us.getLast?, 0 < x) (hlast2 : ∀ x ∈ vs.getLast?, 0 < x) :
    ∃ o, laterLarger w1 w2 pre1.length (pre1.length + us.length - 1) pre2.length (pre2.length + vs.length - 1) = .ok o ∧
      (o = none ∧ us = vs ∨ o = some true ∧ topValue us < topValue vs ∨
        o = some false ∧ topValue vs < topValue us) := by
  obtain ⟨c, us', vs', hus, hvs, hne, hskip⟩ := skipEqual_spec hrow1 hrow2
  have hfuel : (min ((pre1.length : Int) + us.length - 1 - pre1.length + 1)
      ((pre2.length : Int) + vs.length - 1 - pre2.length + 1)).toNat = min us.length vs.length := by
    omega
  have hl1 : us.length = c.length + us'.length := by rw [hus, length_append]
  have hl2 : vs.length = c.length + vs'.length := by rw [hvs, length_append]
  rw [laterLarger, hfuel, hskip, ok_bind]
  simp only
  have hget1 : ∀ {x t}, us' = x :: t → w1.get ((pre1.length + c.length : Nat) : Int) = .ok (x : Int) := by
    intro x t hx
    rw [← length_append]
    exact @get_row w1 (pre1 ++ c) post1 t x (by rw [hrow1, hus, hx]; simp)
  have hget2 : ∀ {x t}, vs' = x :: t → w2.get ((pre2.length + c.length : Nat) : Int) = .ok (x : Int) := by
    intro x t hx
    rw [← length_append]
    exact @get_row w2 (pre2 ++ c) post2 t x (by rw [hrow2, hvs, hx]; simp)
  rcases topValue_cases hus hvs hlt1 hlt2 hlast1 hlast2 hne with ⟨h1, h2⟩ | ⟨hcase, hval⟩ | ⟨hcase, hval⟩
  · refine ⟨none, ?_, .inl ⟨rfl, by rw [hus, hvs, h1, h2]⟩⟩
    rw [h1, length_nil] at hl1
    rw [h2, length_nil] at hl2
    rw [if_neg (by omega), if_pos (by omega)]
    rfl
  · refine ⟨some true, ?_, .inr (.inl ⟨rfl, hval⟩)⟩
    rcases hcase with ⟨h1, h2⟩ | ⟨x, y, t, t', hx, hy, hxy⟩
    · rw [h1, length_nil] at hl1
      have := length_pos_iff.mpr h2
      rw [if_neg (by omega), if_neg (by omega)]
      rfl
    · rw [hx, length_cons] at hl1
      rw [hy, length_cons] at hl2
      rw [if_pos (by omega), if_pos (by omega), hget1 hx, hget2 hy, ok_bind, ok_bind,
        decide_eq_true (by exact_mod_cast hxy)]
      rfl
  · refine ⟨some false, ?_, .inr (.inr ⟨rfl, hval⟩)⟩
    rcases hcase with ⟨h2, h1⟩ | ⟨x, y, t, t', hx, hy, hxy⟩
    · rw [h2, length_nil] at hl2
      have := length_pos_iff.mpr h1
      rw [if_pos (by omega), if_neg (by omega)]
      rfl
    · rw [hx, length_cons] at hl1
      rw [hy, length_cons] at hl2
      rw [if_pos (by omega), if_pos (by omega), hget1 hx, hget2 hy, ok_bind, ok_bind, decide_eq_false (by omega)]
      rfl

theorem subExtents_spec {d1 d2 : MyDecimal} (h1 : d1.Sound) (h2 : d2.Sound) : ∃ e1 e2 u1 u2 n1 n2 o, subExtents d1 d2 =
    .ok (e1, e2, o) ∧ Covers d1 e1 u1 n1 ∧ Covers d2 e2 u2 n2 ∧ Ordered d1 d2 n1 n2 o ∧ n1 ≤ d1.wordsInt ∧ n2 ≤
    d2.wordsInt ∧ (n1 ≠ n2 → u1.length = n1 + d1.wordsFrac ∧ u2.length = n2 + d2.wordsFrac) := by
  obtain ⟨e1, u1, n1, hlead1, hc1, hlen1, hstop1⟩ := leadingExtent_spec h1
  obtain ⟨e2, u2, n2, hlead2, hc2, hlen2, hstop2⟩ := leadingExtent_spec h2
  have hn1 : n1 ≤ d1.wordsInt := by
    obtain ⟨pre, -, -, hstart⟩ := hc1.row
    omega
  have hn2 : n2 ≤ d2.wordsInt := by
    obtain ⟨pre, -, -, hstart⟩ := hc2.row
    omega
  rw [subExtents, hlead1, hlead2, ok_bind, ok_bind, hc1.wordsInt, hc2.wordsInt]
  by_cases hlt : n1 < n2
  · refine ⟨e1, e2, u1, u2, n1, n2, some true, by rw [if_pos (by omega)]; rfl, hc1, hc2,
      ⟨hc1.lt_of_lt hc2 hlt, hlt.le⟩, hn1, hn2, fun _ => ⟨hlen1, hlen2⟩⟩
  by_cases heq : n2 = n1
  · subst heq
    obtain ⟨v1, htrim1, hv1, hlast1⟩ := trimExtent_spec h1 hc1 hstop1
    obtain ⟨v2, htrim2, hv2, hlast2⟩ := trimExtent_spec h2 hc2 hstop2
    obtain ⟨pre1, post1, hrow1, hstart1⟩ := hv1.row
    obtain ⟨pre2, post2, hrow2, hstart2⟩ := hv2.row
    obtain ⟨o, hlarger, hcase⟩ := laterLarger_spec hrow1 hrow2 hv1.word_lt hv2.word_lt hlast1 hlast2
    rw [← hstart1, ← hstart2] at hlarger
    refine ⟨_, _, v1, v2, n2, n2, o, ?_, hv1, hv2, ?_, hn1, hn2, absurd rfl⟩
    · rw [if_neg (by omega), htrim1, ok_bind]
      simp only
      rw [htrim2, ok_bind]
      rw [hlarger]
      rfl
    · have hpos : (0 : ℚ) < 10 ^ (9 * n2) := by positivity
      rcases hcase with ⟨rfl, heq⟩ | ⟨rfl, hval⟩ | ⟨rfl, hval⟩
      · show d1.magnitude = d2.magnitude
        rw [hv1.magnitude_eq, hv2.magnitude_eq, heq]
      · refine ⟨?_, le_rfl⟩
        rw [hv1.magnitude_eq, hv2.magnitude_eq]
        exact mul_lt_mul_of_pos_right hval hpos
      · refine ⟨?_, le_rfl⟩
        rw [hv1.magnitude_eq, hv2.magnitude_eq]
        exact mul_lt_mul_of_pos_right hval hpos
  · refine ⟨e1, e2, u1, u2, n1, n2, some false, ?_, hc1, hc2, ⟨hc2.lt_of_lt hc1 (by omega), by omega⟩,
      hn1, hn2, fun _ => ⟨hlen1, hlen2⟩⟩
    rw [if_neg (by omega), if_neg (by omega)]
    rfl

/-! ## `Compare` -/

namespace MyDecimal

theorem toRat_eq_magnitude (d : MyDecimal) : d.toRat = if d.negative then -d.magnitude else d.magnitude :=
  rfl

theorem magnitude_nonneg (d : MyDecimal) : 0 ≤ d.magnitude := by
  unfold magnitude
  positivity

theorem Sound.toRat_neg (h : d.Sound) (hneg : d.negative = true) : d.toRat < 0 := by
  have hne : (d.digits : ℚ) ≠ 0 := by exact_mod_cast h.zero_sign hneg
  have hmag : 0 < d.magnitude := by
    unfold magnitude
    positivity
  rw [toRat_eq_magnitude, if_pos hneg]
  linarith

theorem toRat_nonneg (hneg : d.negative = false) : 0 ≤ d.toRat := by
  rw [toRat_eq_magnitude, hneg]
  exact d.magnitude_nonneg

end MyDecimal

def MyDecimal.compare (d dst : MyDecimal) : Res Int :=
  if d.negative = dst.negative then doSubCmp d dst
  else if d.negative then .ok (-1)
  else .ok 1

def orderSign : Ordering → Int
  | .lt => -1
  | .eq => 0
  | .gt => 1

theorem compare_spec {e : MyDecimal} (hd : d.Sound) (he : e.Sound) :
    d.compare e = .ok (orderSign (compare d.toRat e.toRat)) := by
  rw [MyDecimal.compare]
  by_cases hsign : d.negative = e.negative
  · obtain ⟨e1, e2, u1, u2, n1, n2, o, hrun, -, -, hord, -, -, -⟩ := subExtents_spec hd he
    rw [if_pos hsign, doSubCmp, hrun, d.toRat_eq_magnitude, e.toRat_eq_magnitude, ← hsign]
    cases o with
    | none =>
      have heq := hord
      rw [heq, compare_eq_iff_eq.mpr rfl]
      rfl
    | some larger =>
      cases larger with
      | true =>
        have hlt := hord.1
        cases hneg : d.negative with
        | true =>
          simp only [if_true]
          rw [compare_gt_iff_gt.mpr (by linarith)]
          rfl
        | false =>
          simp only [Bool.false_eq_true, if_false]
          rw [compare_lt_iff_lt.mpr hlt]
          rfl
      | false =>
        have hlt := hord.1
        cases hneg : d.negative with
        | true =>
          simp only [if_true]
          rw [compare_lt_iff_lt.mpr (by linarith)]
          rfl
        | false =>
          simp only [Bool.false_eq_true, if_false]
          rw [compare_gt_iff_gt.mpr hlt]
          rfl
  · rw [if_neg hsign]
    cases hneg : d.negative with
    | true =>
      have h1 := hd.toRat_neg hneg
      have h2 : 0 ≤ e.toRat := MyDecimal.toRat_nonneg (by
        rw [hneg] at hsign
        simpa using Ne.symm hsign)
      rw [compare_lt_iff_lt.mpr (by linarith)]
      rfl
    | false =>
      have h1 := MyDecimal.toRat_nonneg hneg
      have h2 : e.toRat < 0 := he.toRat_neg (by
        rw [hneg] at hsign
        simpa using Ne.symm hsign)
      rw [compare_gt_iff_gt.mpr (by linarith)]
      rfl

end Tidb.Types
