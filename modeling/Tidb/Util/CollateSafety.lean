import Mathlib.Data.List.TakeWhile
import Mathlib.Data.LawfulXor.Basic
import Tidb.Lib.ByteOrder
import Tidb.Lib.PackedOrder
import Tidb.Lib.Utf8
import Tidb.Util.Collate

/-!
# Comparisons and keys of a collation

`Compare` reads the weights of two strings that `Key` writes.  Where one string has no weight any more, it takes the
sign of a word of four weights as an integer.
-/

namespace Collate

open GoLang PackedOrder Utf8 List
open Tidb (Bytes)
open scoped ByteOrder

/-! ## Characters -/

theorem mask_eq_low (b : UInt8) : (b &&& b2Mask).toNat = low 5 b ∧ (b &&& b3Mask).toNat = low 4 b ∧ (b &&& b4Mask).toNat
    = low 3 b ∧ (b &&& mbMask).toNat = low 6 b := by
  exact ⟨Nat.and_two_pow_sub_one_eq_mod _ 5, Nat.and_two_pow_sub_one_eq_mod _ 4, Nat.and_two_pow_sub_one_eq_mod _ 3,
    Nat.and_two_pow_sub_one_eq_mod _ 6⟩

theorem low_lt (n : ℕ) (b : UInt8) : low n b < 2 ^ n := Nat.mod_lt _ (Nat.two_pow_pos n)

variable {n a b : ℕ}

theorem shift_or (h : b < 2 ^ n) : a <<< n ||| b = a * 2 ^ n + b := by
  rw [← Nat.shiftLeft_add_eq_or_of_lt h, Nat.shiftLeft_eq]

theorem runeLen_of_leading {b : UInt8} {lo hi : UInt8} (h : leading b = some (n, lo, hi)) : runeLen b = n := by
  have hlt : ∀ c d : UInt8, c < d ↔ c.toNat < d.toNat := fun c d => UInt8.lt_iff_toNat_lt
  have heq : ∀ c d : UInt8, c = d ↔ c.toNat = d.toNat := fun c d => UInt8.toNat_inj.symm
  unfold leading at h
  unfold runeLen
  simp only [hlt, heq, UInt8.reduceToNat] at h ⊢
  split_ifs at h ⊢ <;> cases h <;> first | rfl | omega

variable {s : Bytes} {r : ℕ}

theorem decodeRune_multi {b : UInt8} (h : decodeMulti b s = some (r, n)) :
    decodeRune (b :: s) = some (r, s.drop (n - 1)) := by
  unfold decodeMulti at h
  split at h
  · rename_i lo hi b₁ t hl
    obtain ⟨_, heq⟩ := Option.ite_none_right_eq_some.mp h
    cases heq
    rw [decodeRune.eq_def]
    dsimp only
    rw [runeLen_of_leading hl]
    show some ((b &&& b2Mask).toNat <<< 6 ||| (b₁ &&& mbMask).toNat, t) = _
    rw [(mask_eq_low b).1, (mask_eq_low b₁).2.2.2, shift_or (low_lt 6 b₁)]
    rfl
  · rename_i lo hi b₁ b₂ t hl
    obtain ⟨_, heq⟩ := Option.ite_none_right_eq_some.mp h
    cases heq
    rw [decodeRune.eq_def]
    dsimp only
    rw [runeLen_of_leading hl]
    show some ((b &&& b3Mask).toNat <<< 12 ||| (b₁ &&& mbMask).toNat <<< 6 ||| (b₂ &&& mbMask).toNat, t) = _
    rw [(mask_eq_low b).2.1, (mask_eq_low b₁).2.2.2, (mask_eq_low b₂).2.2.2, Nat.or_assoc, shift_or (low_lt 6 b₂),
      shift_or (n := 12) (by have := low_lt 6 b₁; have := low_lt 6 b₂; omega), Nat.add_assoc]
    rfl
  · rename_i lo hi b₁ b₂ b₃ t hl
    obtain ⟨_, heq⟩ := Option.ite_none_right_eq_some.mp h
    cases heq
    rw [decodeRune.eq_def]
    dsimp only
    rw [runeLen_of_leading hl]
    show some ((b &&& b4Mask).toNat <<< 18 ||| (b₁ &&& mbMask).toNat <<< 12 ||| (b₂ &&& mbMask).toNat <<< 6 |||
      (b₃ &&& mbMask).toNat, t) = _
    have h₁ := low_lt 6 b₁
    have h₂ := low_lt 6 b₂
    have h₃ := low_lt 6 b₃
    rw [(mask_eq_low b).2.2.1, (mask_eq_low b₁).2.2.2, (mask_eq_low b₂).2.2.2, (mask_eq_low b₃).2.2.2, Nat.or_assoc,
      shift_or h₃, Nat.or_assoc, shift_or (n := 12) (by omega), shift_or (n := 18) (by omega), Nat.add_assoc,
      Nat.add_assoc]
    rfl
  · cases h

theorem decodeRune_valid (hs : Valid s) (hne : s ≠ []) :
    ∃ r rest, decodeRune s = some (r, rest) ∧ Valid rest ∧ runes s = r :: runes rest := by
  cases hs with
  | nil => exact absurd rfl hne
  | @single b s hb hs =>
    refine ⟨b.toNat, s, ?_, hs, runes_single hb⟩
    have hlen : runeLen b = 1 := if_pos hb
    rw [decodeRune.eq_def]
    dsimp only
    rw [hlen]
    cases s <;> rfl
  | multi hb h hs => exact ⟨_, _, decodeRune_multi h, hs, runes_multi hb h⟩

theorem truncateTailingSpace_valid (hs : Valid s) : Valid (truncateTailingSpace s) := by
  have hsplit : s = truncateTailingSpace s ++ (s.reverse.takeWhile (· = 0x20)).reverse := by
    rw [truncateTailingSpace, ← reverse_append, takeWhile_append_dropWhile, reverse_reverse]
  apply hs.of_append _ _ hsplit
  intro b hb
  have hspace := mem_takeWhile_imp (mem_reverse.mp hb)
  rw [of_decide_eq_true hspace]
  decide

/-! ## Words -/

section Words

variable (w : WeightTable)

def nonzero (ws : List ℕ) : List ℕ := ws.filter (· ≠ 0)

variable {v : ℕ}

theorem nonzero_cons (hv : v ≠ 0) (ws : List ℕ) : nonzero (v :: ws) = v :: nonzero ws :=
  filter_cons_of_pos (by simpa using hv)

theorem nonzero_cons_zero (ws : List ℕ) : nonzero (0 :: ws) = nonzero ws := filter_cons_of_neg (by simp)

def words (s : Bytes) : List ℕ :=
  (runes s).flatMap fun r => nonzero [(convertRuneUnicodeCI w r).1, (convertRuneUnicodeCI w r).2]

theorem longRuneMap_words : ∀ p ∈ longRuneMap, p.2.1 ≠ 0 ∧ p.2.1 < 2 ^ 64 ∧ p.2.2 < 2 ^ 64 := by decide

theorem lookup_mem {β : Type} {k : ℕ} {v : β} : ∀ {l : List (ℕ × β)}, l.lookup k = some v → (k, v) ∈ l
  | (k', v') :: l, h => by
    rw [lookup_cons] at h
    by_cases hk : k == k'
    · rw [hk] at h
      cases h
      rw [beq_iff_eq] at hk
      rw [hk]
      exact mem_cons_self
    · rw [Bool.not_eq_true] at hk
      rw [hk] at h
      exact mem_cons_of_mem _ (lookup_mem h)

theorem convertRuneUnicodeCI_words (r : ℕ) : ((convertRuneUnicodeCI w r).1 = 0 → (convertRuneUnicodeCI w r).2 = 0) ∧
      (convertRuneUnicodeCI w r).1 < 2 ^ 64 ∧ (convertRuneUnicodeCI w r).2 < 2 ^ 64 := by
  unfold convertRuneUnicodeCI
  split_ifs with hr hlong
  · exact ⟨fun _ => rfl, by norm_num, by norm_num⟩
  · have hmem := lookup_mem (Option.some_get (w.long r hlong)).symm
    obtain ⟨hne, h₁, h₂⟩ := longRuneMap_words _ hmem
    exact ⟨fun h => absurd h hne, h₁, h₂⟩
  · exact ⟨fun _ => rfl, w.lt r, by norm_num⟩

def Side.words (x : Side) : List ℕ := nonzero [x.n, x.s] ++ Collate.words w x.rest

structure Side.Ok (x : Side) : Prop where
  valid : Valid x.rest
  n_lt : x.n < 2 ^ 64
  s_lt : x.s < 2 ^ 64

theorem words_cons {rest : Bytes} (h : runes s = r :: runes rest) :
    words w s = nonzero [(convertRuneUnicodeCI w r).1, (convertRuneUnicodeCI w r).2] ++ words w rest := by
  unfold words
  rw [h, flatMap_cons]

variable {w}

variable {x : Side}

theorem words_of_ne_zero (h : x.n ≠ 0) : x.words w = x.n :: ({ x with n := 0 } : Side).words w := by
  show nonzero [x.n, x.s] ++ _ = x.n :: (nonzero [0, x.s] ++ _)
  rw [nonzero_cons h, nonzero_cons_zero, cons_append]

theorem load_words {s : ℕ} {rest : Bytes} (hok : Side.Ok ⟨n, s, rest⟩) (hns : n = 0 → s = 0) :
    ∃ x, load w n s rest = some x ∧ x.Ok ∧ x.words w = Side.words w ⟨n, s, rest⟩ ∧ (x.n = 0 → x.words w = []) := by
  induction n, s, rest using load.induct w with
  | case1 n s rest hmore hr =>
    obtain ⟨r, rest', hr', _⟩ := decodeRune_valid hok.valid (length_pos_iff.mp hmore.2)
    rw [hr] at hr'
    cases hr'
  | case2 n s rest hmore r rest' hr ih =>
    obtain ⟨r', rest'', hr', hvalid, hrunes⟩ := decodeRune_valid hok.valid (length_pos_iff.mp hmore.2)
    rw [hr] at hr'
    cases hr'
    obtain ⟨hns', h₁, h₂⟩ := convertRuneUnicodeCI_words w r
    obtain ⟨x, hload, hx, hwords, hend⟩ := ih ⟨hvalid, h₁, h₂⟩ hns'
    refine ⟨x, ?_, hx, hwords.trans ?_, hend⟩
    · rw [load, if_pos hmore]
      split
      · rename_i hr'
        rw [hr] at hr'
        cases hr'
      · rename_i hr'
        rw [hr] at hr'
        cases hr'
        exact hload
    · show nonzero _ ++ _ = nonzero [n, s] ++ words w rest
      rw [words_cons w hrunes, hmore.1, hns hmore.1]
      rfl
  | case3 n s rest hmore =>
    refine ⟨⟨n, s, rest⟩, ?_, hok, rfl, fun hn => ?_⟩
    · rw [load, if_neg hmore]
    · -- no character is left
      have hn : n = 0 := hn
      have hrest : rest = [] := by
        rw [not_and, not_lt, Nat.le_zero, length_eq_zero_iff] at hmore
        exact hmore hn
      rw [hrest, hn, hns hn]
      rfl

theorem refill_words (hok : x.Ok) :
    ∃ x', refill w x = some x' ∧ x'.Ok ∧ x'.words w = x.words w ∧ (x'.n = 0 → x.words w = []) := by
  unfold refill
  by_cases hn : x.n = 0
  · rw [if_pos hn]
    by_cases hs : x.s = 0
    · rw [if_pos hs]
      obtain ⟨x', hload, hx', hwords, hend⟩ := load_words (w :=
        w) (show Side.Ok ⟨x.n, x.s, x.rest⟩ from hok) fun _ => hs
      exact ⟨x', hload, hx', hwords, fun h => hwords.symm.trans (hend h)⟩
    · rw [if_neg hs]
      refine ⟨_, rfl, ⟨hok.valid, hok.s_lt, by norm_num⟩, ?_, fun h => absurd h hs⟩
      show nonzero [x.s, 0] ++ _ = nonzero [x.n, x.s] ++ _
      rw [hn, nonzero_cons_zero, nonzero_cons hs, nonzero_cons hs, nonzero_cons_zero]
  · rw [if_neg hn]
    exact ⟨x, rfl, hok, rfl, fun h => absurd h hn⟩

/-! ## Compare -/

def IsNegative (v : ℕ) : Prop := 2 ^ 63 ≤ v

def IsNegatable (v : ℕ) : Prop := 2 ^ 63 < v

theorem not_isNegative_div (hv : v < 2 ^ 64) : ¬ IsNegative (v / 65536) := by
  unfold IsNegative
  omega

theorem not_isNegatable_div (hv : v < 2 ^ 64) : ¬ IsNegatable (v / 65536) := by
  unfold IsNegatable
  omega

theorem not_isNegative_zero : ¬ IsNegative 0 := by unfold IsNegative; norm_num

theorem not_isNegatable_zero : ¬ IsNegatable 0 := by unfold IsNegatable; norm_num

theorem low16_eq_mod (v : ℕ) : v &&& 0xFFFF = v % 65536 := Nat.and_two_pow_sub_one_eq_mod v 16

theorem xor_low16_ne_zero : (a ^^^ b) &&& 0xFFFF ≠ 0 ↔ a % 65536 ≠ b % 65536 := by
  have hmod : (a ^^^ b) % 65536 = a % 65536 ^^^ b % 65536 := Nat.xor_mod_two_pow (n := 16)
  rw [low16_eq_mod, hmod, Ne, xor_eq_zero_iff]

theorem sign_sub_of_ne (h : a ≠ b) : sign (a - b) = if a < b then -1 else 1 := by
  unfold sign
  split_ifs <;> omega

theorem consume_verdict {an bn : ℕ} (ha : an < 2 ^ 64) (hb : bn < 2 ^ 64) (xs ys : List ℕ) :
    match consume an bn with
    | .inl c => verdict 65536 IsNegative IsNegatable (an :: xs) (bn :: ys) = c
    | .inr (n, m) => verdict 65536 IsNegative IsNegatable (an :: xs) (bn :: ys) =
        verdict 65536 IsNegative IsNegatable (n :: xs) (m :: ys) ∧ n < 2 ^ 64 ∧ m < 2 ^ 64 := by
  induction an, bn using consume.induct with
  | case1 an bn hne hdiff =>
    rw [consume, if_pos hne, if_pos hdiff]
    have hdiff := xor_low16_ne_zero.mp hdiff
    rw [verdict_of_ne (by norm_num) hne.1 hne.2 hdiff, low16_eq_mod, low16_eq_mod, sign_sub_of_ne hdiff]
  | case2 an bn hne hdiff ih =>
    rw [consume, if_pos hne, if_neg hdiff]
    rw [xor_low16_ne_zero, not_not] at hdiff
    have han := Nat.shiftRight_eq_div_pow an 16
    have hbn := Nat.shiftRight_eq_div_pow bn 16
    rw [han, hbn] at ih ⊢
    rw [verdict_step (by norm_num) hne.1 hne.2 hdiff (not_isNegative_div ha) (not_isNegatable_div hb)]
    exact ih (lt_of_le_of_lt (Nat.div_le_self _ _) ha) (lt_of_le_of_lt (Nat.div_le_self _ _) hb)
  | case3 an bn hne =>
    rw [consume, if_neg hne]
    exact ⟨rfl, ha, hb⟩

theorem verdict_words (a b : Side) : verdict 65536 IsNegative IsNegatable (a.words w) (b.words w) =
      verdict 65536 IsNegative IsNegatable (a.n :: ({ a with n := 0 } : Side).words w)
        (b.n :: ({ b with n := 0 } : Side).words w) := by
  have hleft : ∀ ys, verdict 65536 IsNegative IsNegatable (a.words w) ys =
      verdict 65536 IsNegative IsNegatable (a.n :: ({ a with n := 0 } : Side).words w) ys := by
    intro ys
    by_cases ha : a.n = 0
    · rw [ha, verdict_cons_zero_left not_isNegative_zero, ← ha]
    · rw [words_of_ne_zero ha]
  have hright : ∀ xs, verdict 65536 IsNegative IsNegatable xs (b.words w) =
      verdict 65536 IsNegative IsNegatable xs (b.n :: ({ b with n := 0 } : Side).words w) := by
    intro xs
    by_cases hb : b.n = 0
    · rw [hb, verdict_cons_zero_right not_isNegatable_zero, ← hb]
    · rw [words_of_ne_zero hb]
  rw [hleft, hright]

theorem sign_of_end {a b : Side} (ha : a.Ok) (hb : b.Ok) (h : a.n = 0 ∨ b.n = 0) (haw : a.n = 0 → a.words w = [])
    (hbw : b.n = 0 → b.words w = []) :
    sign (int64 (int64 a.n - int64 b.n)) = verdict 65536 IsNegative IsNegatable (a.words w) (b.words w) := by
  have han := ha.n_lt
  have hbn := hb.n_lt
  by_cases ha0 : a.n = 0
  · rw [haw ha0, ha0]
    by_cases hb0 : b.n = 0
    · rw [hbw hb0, verdict_nil, hb0]
      rfl
    · rw [words_of_ne_zero hb0, verdict_nil_cons (by norm_num) hb0]
      unfold IsNegatable sign int64
      split_ifs <;> omega
  · have hb0 : b.n = 0 := h.resolve_left ha0
    rw [hbw hb0, words_of_ne_zero ha0, verdict_cons_nil (by norm_num) ha0]
    unfold IsNegative sign int64
    split_ifs <;> omega

theorem Side.Ok.set (h : x.Ok) (hn : n < 2 ^ 64) : ({ x with n := n } : Side).Ok := ⟨h.valid, hn, h.s_lt⟩

theorem refill_spec {x' : Side} (hok : x.Ok) (h : refill w x = some x') :
    x'.Ok ∧ x'.words w = x.words w ∧ (x'.n = 0 → x'.words w = []) := by
  obtain ⟨y, hy, hyok, hwords, hend⟩ := refill_words (w := w) hok
  rw [h] at hy
  cases hy
  exact ⟨hyok, hwords, fun hn => hwords.trans (hend hn)⟩

/-- The loop gives the verdict on the words that are left.  The induction follows the loop. -/
theorem compareLoop_verdict {a b : Side} (ha : a.Ok) (hb : b.Ok) :
    compareLoop w a b = some (verdict 65536 IsNegative IsNegatable (a.words w) (b.words w)) := by
  induction a, b using compareLoop.induct w with
  | case1 a b a' b' hra hrb hn =>
    obtain ⟨ha', haw, haend⟩ := refill_spec ha hra
    obtain ⟨hb', hbw, hbend⟩ := refill_spec hb hrb
    rw [compareLoop_eq w hra hrb, if_pos hn, ← haw, ← hbw, sign_of_end ha' hb' hn haend hbend]
  | case2 a b a' b' hra hrb hn heq ih =>
    obtain ⟨ha', haw, _⟩ := refill_spec ha hra
    obtain ⟨hb', hbw, _⟩ := refill_spec hb hrb
    rw [not_or] at hn
    rw [compareLoop_eq w hra hrb, if_neg (not_or.mpr hn), if_pos heq,
      ih (ha'.set (by norm_num)) (hb'.set (by norm_num)),
      ← haw, ← hbw, words_of_ne_zero hn.1, words_of_ne_zero hn.2, ← heq, verdict_cons_self (by norm_num) hn.1]
  | case3 a b a' b' hra hrb hn hne c hc =>
    obtain ⟨ha', haw, _⟩ := refill_spec ha hra
    obtain ⟨hb', hbw, _⟩ := refill_spec hb hrb
    have hverdict := consume_verdict ha'.n_lt hb'.n_lt (({ a' with n := 0 } : Side).words w)
      (({ b' with n := 0 } : Side).words w)
    rw [hc] at hverdict
    rw [compareLoop_eq w hra hrb, if_neg hn, if_neg hne, hc, ← haw, ← hbw, verdict_words, hverdict]
  | case4 a b a' b' hra hrb hn hne n m hc ih =>
    obtain ⟨ha', haw, _⟩ := refill_spec ha hra
    obtain ⟨hb', hbw, _⟩ := refill_spec hb hrb
    have hverdict := consume_verdict ha'.n_lt hb'.n_lt (({ a' with n := 0 } : Side).words w)
      (({ b' with n := 0 } : Side).words w)
    rw [hc] at hverdict
    obtain ⟨hverdict, hn', hm'⟩ := hverdict
    rw [compareLoop_eq w hra hrb, if_neg hn, if_neg hne, hc, ← haw, ← hbw, verdict_words a' b', hverdict]
    show compareLoop w { a' with n := n } { b' with n := m } = _
    rw [ih (ha'.set hn') (hb'.set hm'), verdict_words]
  | case5 a b hnone =>
    obtain ⟨a', hra, _⟩ := refill_words (w := w) ha
    obtain ⟨b', hrb, _⟩ := refill_words (w := w) hb
    exact (hnone a' b' hra hrb).elim

theorem unicodeCompare_verdict {a b : Bytes} (ha : Valid a) (hb : Valid b) : unicodeCompare w a b = some (verdict 65536
    IsNegative IsNegatable (words w (truncateTailingSpace a)) (words w (truncateTailingSpace b))) :=
  compareLoop_verdict ⟨truncateTailingSpace_valid ha, by norm_num, by norm_num⟩
    ⟨truncateTailingSpace_valid hb, by norm_num, by norm_num⟩

/-! ## Key -/

def weightKey (weight : ℕ) : Bytes := [UInt8.ofNat (weight / 256), UInt8.ofNat (weight % 256)]

theorem wordKey_eq (sn : ℕ) : wordKey sn = (Nat.digits 65536 sn).flatMap weightKey := by
  induction sn using wordKey.induct with
  | case1 sn hne ih =>
    have hshift := Nat.shiftRight_eq_div_pow sn 16
    have hhigh : (sn &&& 0xFF00) >>> 8 = sn % 65536 / 256 := by
      rw [Nat.shiftRight_and_distrib, show 0xFF00 >>> 8 = 2 ^ 8 - 1 from rfl, Nat.and_two_pow_sub_one_eq_mod]
      omega
    have hlow : UInt8.ofNat sn = UInt8.ofNat (sn % 65536 % 256) := by
      apply UInt8.toNat_inj.mp
      rw [UInt8.toNat_ofNat', UInt8.toNat_ofNat']
      omega
    rw [wordKey, if_pos hne, ih, hshift, hhigh, hlow, Nat.digits_def' (by norm_num) (Nat.pos_of_ne_zero hne)]
    rfl
  | case2 sn hzero =>
    rw [wordKey, not_not.mp hzero]
    rfl

theorem digits_nonzero_pair (a b : ℕ) : digits 65536 (nonzero [a, b]) = Nat.digits 65536 a ++ Nat.digits 65536 b := by
  by_cases ha : a = 0 <;> by_cases hb : b = 0 <;> simp [nonzero, digits, ha, hb]

theorem unicodeKeyWithoutTrimRightSpace_eq (hs : Valid s) :
    unicodeKeyWithoutTrimRightSpace w s = some ((digits 65536 (words w s)).flatMap weightKey) := by
  induction s using unicodeKeyWithoutTrimRightSpace.induct w with
  | case1 s hmore hr =>
    obtain ⟨r, rest, hr', _⟩ := decodeRune_valid hs (length_pos_iff.mp hmore)
    rw [hr] at hr'
    cases hr'
  | case2 s hmore r rest hr sn ss hweights ih =>
    obtain ⟨r', rest', hr', hvalid, hrunes⟩ := decodeRune_valid hs (length_pos_iff.mp hmore)
    rw [hr] at hr'
    cases hr'
    rw [unicodeKeyWithoutTrimRightSpace, if_pos hmore]
    split
    · rename_i hnone
      rw [hr] at hnone
      cases hnone
    · rename_i hsome
      rw [hr] at hsome
      cases hsome
      rw [ih hvalid, words_cons w hrunes, digits_append, digits_nonzero_pair, flatMap_append,
        flatMap_append, ← wordKey_eq, ← wordKey_eq]
      rfl
  | case3 s hnone =>
    have hnil : s = [] := length_eq_zero_iff.mp (Nat.le_zero.mp (not_lt.mp hnone))
    rw [unicodeKeyWithoutTrimRightSpace, hnil]
    rfl

end Words

theorem three_weightKey {x y : List ℕ} (hx : ∀ a ∈ x, a < 65536) (hy : ∀ b ∈ y, b < 65536) :
    three (x.flatMap weightKey) (y.flatMap weightKey) = three x y := by
  apply three_flatMap_pair (n := 256) (by norm_num) UInt8.ofNat _ hx hy
  intro a ha b hb hab
  rw [UInt8.lt_iff_toNat_lt, UInt8.toNat_ofNat', UInt8.toNat_ofNat', Nat.mod_eq_of_lt ha, Nat.mod_eq_of_lt hb]
  exact hab

/-- A comparison of two strings is that of their keys. -/
def Agrees (compare : Bytes → Bytes → Option ℤ) (key : Bytes → Option Bytes) (a b : Bytes) : Prop :=
  ∃ ka kb, key a = some ka ∧ key b = some kb ∧ compare a b = some (three ka kb)

theorem unicode_agrees_iff (w : WeightTable) {a b : Bytes} (ha : Valid a) (hb : Valid b) : Agrees (unicodeCompare w)
    (unicodeKey w) a b ↔ ¬ Meets 65536 IsNegative (words w (truncateTailingSpace a)) (words w (truncateTailingSpace b))
    ∧ ¬ Meets 65536 IsNegatable (words w (truncateTailingSpace b)) (words w (truncateTailingSpace a)) := by
  have hka : unicodeKey w a = _ := unicodeKeyWithoutTrimRightSpace_eq (truncateTailingSpace_valid ha)
  have hkb : unicodeKey w b = _ := unicodeKeyWithoutTrimRightSpace_eq (truncateTailingSpace_valid hb)
  rw [← verdict_eq_three_iff (by norm_num) not_isNegative_zero not_isNegatable_zero,
    ← three_weightKey (fun _ h => lt_of_mem_digits (by norm_num) h) fun _ h => lt_of_mem_digits (by norm_num) h]
  constructor
  · rintro ⟨ka, kb, hka', hkb', hcompare⟩
    rw [hka] at hka'
    rw [hkb] at hkb'
    cases hka'
    cases hkb'
    rw [unicodeCompare_verdict ha hb] at hcompare
    exact Option.some.inj hcompare
  · intro hverdict
    exact ⟨_, _, hka, hkb, by rw [unicodeCompare_verdict ha hb, hverdict]⟩

/-! ## general_ci -/

section General

variable {planeTable : PlaneTable}

def generalWeights (planeTable : PlaneTable) (s : Bytes) : List ℕ :=
  (runes s).map fun r => (convertRuneGeneralCI planeTable r).toNat

theorem generalWeights_of_decodeRune (planeTable : PlaneTable) {rest : Bytes} (hs : Valid s)
    (hr : decodeRune s = some (r, rest)) :
    Valid rest ∧ generalWeights planeTable s =
      (convertRuneGeneralCI planeTable r).toNat :: generalWeights planeTable rest := by
  have hne : s ≠ [] := by
    rintro rfl
    cases hr
  obtain ⟨r', rest', hr', hvalid, hrunes⟩ := decodeRune_valid hs hne
  rw [hr] at hr'
  cases hr'
  refine ⟨hvalid, ?_⟩
  rw [generalWeights, hrunes, map_cons, generalWeights]

theorem generalCompareLoop_eq {a b : Bytes} (ha : Valid a) (hb : Valid b) :
    generalCompareLoop planeTable a b = some (three (generalWeights planeTable a) (generalWeights planeTable b)) := by
  have hunfold : ∀ {r₁ r₂ : ℕ} {a b a' b' : Bytes}, 0 < a.length ∧ 0 < b.length → decodeRune a = some (r₁, a') →
      decodeRune b = some (r₂, b') → generalCompareLoop planeTable a b =
        let cmp : ℤ := (convertRuneGeneralCI planeTable r₁).toNat - (convertRuneGeneralCI planeTable r₂).toNat
        if cmp ≠ 0 then some (sign cmp) else generalCompareLoop planeTable a' b' := by
    intro r₁ r₂ a b a' b' hmore hra hrb
    rw [generalCompareLoop, if_pos hmore]
    split
    · rename_i hra' hrb'
      rw [hra] at hra'
      rw [hrb] at hrb'
      cases hra'
      cases hrb'
      rfl
    · rename_i hnone
      exact absurd hrb (hnone _ _ _ _ hra)
  induction a, b using generalCompareLoop.induct planeTable with
  | case1 a b hmore r₁ a' r₂ b' hra hrb cmp hcmp =>
    obtain ⟨_, hwa⟩ := generalWeights_of_decodeRune planeTable ha hra
    obtain ⟨_, hwb⟩ := generalWeights_of_decodeRune planeTable hb hrb
    have hne : (convertRuneGeneralCI planeTable r₁).toNat ≠ (convertRuneGeneralCI planeTable r₂).toNat :=
      fun h => hcmp (sub_eq_zero.mpr (congrArg _ h))
    rw [hunfold hmore hra hrb, hwa, hwb]
    rw [if_pos hcmp, sign_sub_of_ne hne]
    by_cases hlt : (convertRuneGeneralCI planeTable r₁).toNat < (convertRuneGeneralCI planeTable r₂).toNat
    · rw [if_pos hlt, three_cons_of_lt hlt]
    · rw [if_neg hlt, three_cons_of_gt (lt_of_le_of_ne (not_lt.mp hlt) hne.symm)]
  | case2 a b hmore r₁ a' r₂ b' hra hrb cmp hcmp ih =>
    obtain ⟨hva, hwa⟩ := generalWeights_of_decodeRune planeTable ha hra
    obtain ⟨hvb, hwb⟩ := generalWeights_of_decodeRune planeTable hb hrb
    have heq := Int.ofNat_inj.mp (sub_eq_zero.mp (not_not.mp hcmp))
    rw [hunfold hmore hra hrb, hwa, hwb, heq, three_cons_self, ← ih hva hvb]
    rw [sub_self, if_neg (fun h => h rfl)]
  | case3 a b hmore hnone =>
    obtain ⟨r₁, a', hra, _⟩ := decodeRune_valid ha (length_pos_iff.mp hmore.1)
    obtain ⟨r₂, b', hrb, _⟩ := decodeRune_valid hb (length_pos_iff.mp hmore.2)
    exact (hnone r₁ a' r₂ b' hra hrb).elim
  | case4 a b hend =>
    have hweights : ∀ {s : Bytes}, Valid s → s ≠ [] → ∃ d ds, generalWeights planeTable s = d :: ds := by
      intro s hs hne
      obtain ⟨r, rest, hr, _⟩ := decodeRune_valid hs hne
      exact ⟨_, _, (generalWeights_of_decodeRune planeTable hs hr).2⟩
    rw [generalCompareLoop, if_neg hend]
    cases a with
    | nil =>
      cases b with
      | nil => rw [three_self]; rfl
      | cons c b =>
        rw [sign, if_pos (by rw [length_nil, length_cons]; omega)]
        exact congrArg some three_nil_cons.symm
    | cons c a =>
      cases b with
      | nil =>
        rw [sign, length_nil, length_cons, if_neg (by omega), if_pos (by omega)]
        exact congrArg some three_cons_nil.symm
      | cons d b => exact absurd ⟨Nat.succ_pos _, Nat.succ_pos _⟩ hend

theorem generalKeyWithoutTrimRightSpace_eq (hs : Valid s) :
    generalKeyWithoutTrimRightSpace planeTable s = some ((generalWeights planeTable s).flatMap weightKey) := by
  induction s using generalKeyWithoutTrimRightSpace.induct planeTable with
  | case1 s hmore hr =>
    obtain ⟨r, rest, hr', _⟩ := decodeRune_valid hs (length_pos_iff.mp hmore)
    rw [hr] at hr'
    cases hr'
  | case2 s hmore r rest hr ih =>
    obtain ⟨hvalid, hweights⟩ := generalWeights_of_decodeRune planeTable hs hr
    rw [generalKeyWithoutTrimRightSpace, if_pos hmore]
    split
    · rename_i hnone
      rw [hr] at hnone
      cases hnone
    · rename_i hsome
      rw [hr] at hsome
      cases hsome
      rw [ih hvalid, hweights]
      have hhigh : ((convertRuneGeneralCI planeTable r) >>> 8).toNat =
        (convertRuneGeneralCI planeTable r).toNat / 256 := by
        exact Nat.shiftRight_eq_div_pow _ 8
      have hlow : ∀ n : ℕ, UInt8.ofNat n = UInt8.ofNat (n % 256) := by
        intro n
        apply UInt8.toNat_inj.mp
        rw [UInt8.toNat_ofNat', UInt8.toNat_ofNat', Nat.mod_mod]
      dsimp only
      rw [hhigh, hlow (convertRuneGeneralCI planeTable r).toNat]
      rfl
  | case3 s hnone =>
    have hnil : s = [] := length_eq_zero_iff.mp (Nat.le_zero.mp (not_lt.mp hnone))
    rw [generalKeyWithoutTrimRightSpace, hnil]
    rfl

theorem general_agrees (planeTable : PlaneTable) {a b : Bytes} (ha : Valid a) (hb : Valid b) :
    Agrees (generalCompare planeTable) (generalKey planeTable) a b := by
  have hlt : ∀ s, ∀ d ∈ generalWeights planeTable s, d < 65536 := by
    intro s d hd
    obtain ⟨r, _, rfl⟩ := mem_map.mp hd
    exact UInt16.toNat_lt _
  refine ⟨_, _, generalKeyWithoutTrimRightSpace_eq (truncateTailingSpace_valid ha),
    generalKeyWithoutTrimRightSpace_eq (truncateTailingSpace_valid hb), ?_⟩
  rw [three_weightKey (hlt _) (hlt _)]
  exact generalCompareLoop_eq (truncateTailingSpace_valid ha) (truncateTailingSpace_valid hb)

end General

/-! ## Comparisons of valid strings -/

/-- `Compare` is the comparison of the keys unless one string ends where a word of the other one begins that is
negative as an integer. -/
theorem compare_agrees_iff (w : WeightTable) (planeTable : PlaneTable) {a b : Bytes} (ha : Valid a) (hb : Valid b) :
    Agrees (unicodeCompare w) (unicodeKey w) a b ∧ Agrees (generalCompare planeTable) (generalKey planeTable) a b ↔
      ¬ Meets 65536 IsNegative (words w (truncateTailingSpace a)) (words w (truncateTailingSpace b)) ∧
        ¬ Meets 65536 IsNegatable (words w (truncateTailingSpace b)) (words w (truncateTailingSpace a)) := by
  rw [unicode_agrees_iff w ha hb, and_iff_left (general_agrees planeTable ha hb)]

/-- The weights of the package of the letter `a` and of the telegraph symbol for October, `U+32C9`. -/
def someWeights : WeightTable where
  mapTable r := if r = 0x61 then 0xE33 else if r = 0x32C9 then 0xE708FB400E290E2A else 0
  lt r := by split_ifs <;> norm_num
  long r h := by
    rw [longRune] at h
    split_ifs at h <;> cases h

theorem compare_agrees_letter : Agrees (unicodeCompare someWeights) (unicodeKey someWeights) [0x61] [] ∧
      Agrees (generalCompare fun _ => none) (generalKey fun _ => none) [0x61] [] := by
  have hwords : words someWeights (truncateTailingSpace [0x61]) = [0xE33] := by decide
  apply (compare_agrees_iff someWeights (fun _ => none) (.single (by decide) .nil) .nil).mpr
  refine ⟨?_, not_meets_nil⟩
  rw [hwords, meets_nil (by norm_num) (by norm_num) rfl]
  unfold IsNegative
  norm_num

/-- The symbol `U+32C9` is less than the empty string, but its key is not. -/
theorem compare_symbol_less : unicodeCompare someWeights [0xE3, 0x8B, 0x89] [] = some (-1) ∧
      unicodeKey someWeights [0xE3, 0x8B, 0x89] = some [0x0E, 0x2A, 0x0E, 0x29, 0xFB, 0x40, 0xE7, 0x08] ∧
      unicodeKey someWeights [] = some [] := by
  have hvalid : Valid [0xE3, 0x8B, 0x89] := .multi (r := 0x32C9) (n := 3) (by decide) (by decide) .nil
  have hwords : words someWeights (truncateTailingSpace [0xE3, 0x8B, 0x89]) = [0xE708FB400E290E2A] := by decide
  refine ⟨?_, ?_, ?_⟩
  · rw [unicodeCompare_verdict hvalid .nil, hwords, show words someWeights (truncateTailingSpace []) = [] from rfl,
      verdict_cons_nil (by norm_num) (by norm_num), if_pos (by unfold IsNegative; norm_num)]
  · rw [unicodeKey, unicodeKeyWithoutTrimRightSpace_eq (truncateTailingSpace_valid hvalid), hwords, digits]
    rfl
  · exact unicodeKeyWithoutTrimRightSpace_eq .nil

end Collate
