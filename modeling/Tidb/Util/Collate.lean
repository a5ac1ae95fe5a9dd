import Tidb.Errors
import Tidb.Lib.Word64

/-!
# The collations `utf8mb4_unicode_ci` and `utf8mb4_general_ci`

The weights of the characters of two strings, compared as they are read, and written as a key.  A string is given by
the bytes from the index on; `none` stands for an index out of range.
-/

namespace Collate

open GoLang
open Tidb (Bytes)

def truncateTailingSpace (str : Bytes) : Bytes := (str.reverse.dropWhile (· = 0x20)).reverse

def sign (i : ℤ) : ℤ := if i < 0 then -1 else if 0 < i then 1 else 0

def b2Mask : UInt8 := 0x1F

def b3Mask : UInt8 := 0x0F

def b4Mask : UInt8 := 0x07

def mbMask : UInt8 := 0x3F

def runeLen (b : UInt8) : ℕ := if b < 0x80 then 1 else if b < 0xE0 then 2 else if b < 0xF0 then 3 else 4

def decodeRune : Bytes → Option (ℕ × Bytes)
  | [] => none
  | b :: s =>
    match runeLen b, s with
    | 1, s => some (b.toNat, s)
    | 2, c₁ :: s => some ((b &&& b2Mask).toNat <<< 6 ||| (c₁ &&& mbMask).toNat, s)
    | 3, c₁ :: c₂ :: s =>
      some ((b &&& b3Mask).toNat <<< 12 ||| (c₁ &&& mbMask).toNat <<< 6 ||| (c₂ &&& mbMask).toNat, s)
    | 4, c₁ :: c₂ :: c₃ :: s =>
      some ((b &&& b4Mask).toNat <<< 18 ||| (c₁ &&& mbMask).toNat <<< 12 ||| (c₂ &&& mbMask).toNat <<< 6 |||
        (c₃ &&& mbMask).toNat, s)
    | _, _ => none

theorem decodeRune_length {s rest : Bytes} {r : ℕ} (h : decodeRune s = some (r, rest)) : rest.length < s.length := by
  unfold decodeRune at h
  split at h
  · cases h
  · split at h
    case _ => cases h; simp
    case _ => cases h; simp
    case _ => cases h; simp; omega
    case _ => cases h; simp; omega
    case _ => cases h

/-! ## unicode_ci -/

/-- magic number indicate weight has 2 uint64, should get from `longRuneMap` -/
def longRune : ℕ := 0xFFFD

def longRuneMap : List (ℕ × ℕ × ℕ) :=
  [(0x321D, 0x1D6E1DC61D6D0288, 0x2891E031DC2), (0x321E, 0x1D741DC61D6D0288, 0x2891DCB), (0x327C, 0x1D621E0F1DBE1D70,
    0x1DC6), (0x3307, 0xE0B1E591E5E1E55, 0x1E65), (0x3315, 0x1E781E591E7C1E58, 0x1E72), (0x3316, 0xE0B1E731E7C1E58,
    0x1E7A1E65), (0x3317, 0x1E631E7D1E7C1E58, 0x1E65), (0x3319, 0x1E651E721E781E59, 0x1E81), (0x331A,
    0x1E531E5F1E7A1E59, 0x1E7C), (0x3320, 0xE0B1E621E811E5C, 0x1E72), (0x332B, 0x1E811E5F0E0B1E6B, 0x1E65), (0x332E,
    0x1E651E5E1E521E6C, 0x1E7A), (0x3332, 0x1E631E781E521E6D, 0x1E65), (0x3334, 0x1E551E5D1E631E6D, 0x1E7A), (0x3336,
    0xE0B1E611E591E6E, 0x1E7A), (0x3347, 0x1E771E5D1E811E70, 0x1E81), (0x334A, 0xE0B1E6B1E791E71, 0x1E7A), (0x3356,
    0x1E5A1E651E811E7B, 0x1E81), (0x337F, 0xDF0FFB40E82AFB40, 0xF93EFB40CF1AFB40), (0x33AE, 0x4370E6D0E330FC0, 0xFEA),
    (0x33AF, 0x4370E6D0E330FC0, 0xE2B0FEA), (0xFDFB, 0x135E020913AB135E, 0x13B713AB135013AB)]

structure WeightTable where
  mapTable : ℕ → ℕ
  lt : ∀ r, mapTable r < 2 ^ 64
  long : ∀ r, mapTable r = longRune → (longRuneMap.lookup r).isSome = true

variable (w : WeightTable)

/-- The first four weights of a rune, and the last four if they exist, 0 if not. -/
def convertRuneUnicodeCI (r : ℕ) : ℕ × ℕ :=
  if r > 0xFFFF then (0xFFFD, 0)
  else if h : w.mapTable r = longRune then (longRuneMap.lookup r).get (w.long r h)
  else (w.mapTable r, 0)

structure Side where
  n : ℕ
  s : ℕ
  rest : Bytes
  deriving DecidableEq, Repr

def load (n s : ℕ) (rest : Bytes) : Option Side :=
  if n = 0 ∧ 0 < rest.length then
    match _hr : decodeRune rest with
    | none => none
    | some (r, rest') => load (convertRuneUnicodeCI w r).1 (convertRuneUnicodeCI w r).2 rest'
  else some ⟨n, s, rest⟩
  termination_by rest.length
  decreasing_by exact decodeRune_length _hr

def refill (x : Side) : Option Side :=
  if x.n = 0 then
    if x.s = 0 then load w x.n x.s x.rest else some ⟨x.s, 0, x.rest⟩
  else some x

def consume (an bn : ℕ) : ℤ ⊕ (ℕ × ℕ) :=
  if an ≠ 0 ∧ bn ≠ 0 then
    if (an ^^^ bn) &&& 0xFFFF ≠ 0 then .inl (sign ((an &&& 0xFFFF : ℕ) - (bn &&& 0xFFFF : ℕ)))
    else consume (an >>> 16) (bn >>> 16)
  else .inr (an, bn)
  termination_by an
  decreasing_by
    rw [Nat.shiftRight_eq_div_pow]
    omega

/-- A side is read on when the string, the last four weights or the first four get less. -/
def Side.Less (x y : Side) : Prop :=
  Prod.Lex (· < ·) (Prod.Lex (· < ·) (· < ·)) (x.rest.length, x.s, x.n) (y.rest.length, y.s, y.n)

theorem load_cases {n s : ℕ} {rest : Bytes} {x : Side} (h : load w n s rest = some x) :
    x.rest.length < rest.length ∨ x = ⟨n, s, rest⟩ := by
  induction n, s, rest using load.induct w with
  | case1 n s rest hmore hr =>
    rw [load, if_pos hmore] at h
    split at h
    · cases h
    · rename_i hr'
      rw [hr] at hr'
      cases hr'
  | case2 n s rest hmore r rest' hr ih =>
    rw [load, if_pos hmore] at h
    split at h
    · cases h
    · rename_i hr'
      rw [hr] at hr'
      cases hr'
      left
      have hlen := decodeRune_length hr
      rcases ih h with hlt | rfl
      · exact hlt.trans hlen
      · exact hlen
  | case3 n s rest hmore =>
    rw [load, if_neg hmore] at h
    exact .inr (Option.some.inj h).symm

theorem refill_less {x x' : Side} (h : refill w x = some x') {m : ℕ} (hm : m < x'.n) :
    ({ x' with n := m } : Side).Less x := by
  unfold refill at h
  by_cases hn : x.n = 0
  · rw [if_pos hn] at h
    by_cases hs : x.s = 0
    · rw [if_pos hs] at h
      rcases load_cases w h with hlt | rfl
      · exact .left _ _ hlt
      · rw [hn] at hm
        exact absurd hm (Nat.not_lt_zero m)
    · rw [if_neg hs] at h
      cases h
      exact .right _ (.left _ _ (Nat.pos_of_ne_zero hs))
  · rw [if_neg hn] at h
    cases h
    exact .right _ (.right _ hm)

theorem consume_less {an bn n m : ℕ} (h : consume an bn = .inr (n, m)) : n ≤ an := by
  induction an, bn using consume.induct with
  | case1 an bn hne hdiff =>
    rw [consume, if_pos hne, if_pos hdiff] at h
    cases h
  | case2 an bn hne hdiff ih =>
    rw [consume, if_pos hne, if_neg hdiff] at h
    exact (ih h).trans (by rw [Nat.shiftRight_eq_div_pow]; exact Nat.div_le_self _ _)
  | case3 an bn hne =>
    rw [consume, if_neg hne] at h
    cases h
    exact le_refl _

theorem consume_lt {an bn n m : ℕ} (h : consume an bn = .inr (n, m)) (han : an ≠ 0) (hbn : bn ≠ 0) : n < an := by
  rw [consume, if_pos ⟨han, hbn⟩] at h
  split at h
  · cases h
  · refine lt_of_le_of_lt (consume_less h) ?_
    omega

def compareLoop (a b : Side) : Option ℤ :=
  match _ha : refill w a, refill w b with
  | some a', some b' =>
    if _hn : a'.n = 0 ∨ b'.n = 0 then some (sign (int64 (int64 a'.n - int64 b'.n)))
    else if a'.n = b'.n then compareLoop { a' with n := 0 } { b' with n := 0 }
    else
      match _hc : consume a'.n b'.n with
      | .inl c => some c
      | .inr (n, m) => compareLoop { a' with n := n } { b' with n := m }
  | _, _ => none
  termination_by (a.rest.length, a.s, a.n)
  decreasing_by
    · exact refill_less w _ha (Nat.pos_of_ne_zero fun h => _hn (.inl h))
    · exact refill_less w _ha (consume_lt _hc (fun h => _hn (.inl h)) fun h => _hn (.inr h))

theorem compareLoop_eq {a b a' b' : Side} (ha : refill w a = some a') (hb : refill w b = some b') : compareLoop w a b =
      if a'.n = 0 ∨ b'.n = 0 then some (sign (int64 (int64 a'.n - int64 b'.n)))
      else if a'.n = b'.n then compareLoop w { a' with n := 0 } { b' with n := 0 }
      else
        match consume a'.n b'.n with
        | .inl c => some c
        | .inr (n, m) => compareLoop w { a' with n := n } { b' with n := m } := by
  rw [compareLoop]
  split
  · rename_i ha' hb'
    rw [ha] at ha'
    rw [hb] at hb'
    cases ha'
    cases hb'
    split_ifs
    · rfl
    · rfl
    · split
      · rename_i hc
        rw [hc]
      · rename_i hc
        rw [hc]
  · rename_i hnone
    exact absurd hb (hnone a' b' ha)

def unicodeCompare (a b : Bytes) : Option ℤ :=
  compareLoop w ⟨0, 0, truncateTailingSpace a⟩ ⟨0, 0, truncateTailingSpace b⟩

def wordKey (sn : ℕ) : Bytes :=
  if sn ≠ 0 then UInt8.ofNat ((sn &&& 0xFF00) >>> 8) :: UInt8.ofNat sn :: wordKey (sn >>> 16) else []
  termination_by sn
  decreasing_by
    rw [Nat.shiftRight_eq_div_pow]
    omega

def unicodeKeyWithoutTrimRightSpace (str : Bytes) : Option Bytes :=
  if 0 < str.length then
    match _hr : decodeRune str with
    | none => none
    | some (r, rest) =>
      let (sn, ss) := convertRuneUnicodeCI w r
      (unicodeKeyWithoutTrimRightSpace rest).map fun buf => wordKey sn ++ wordKey ss ++ buf
  else some []
  termination_by str.length
  decreasing_by exact decodeRune_length _hr

def unicodeKey (str : Bytes) : Option Bytes := unicodeKeyWithoutTrimRightSpace w (truncateTailingSpace str)

/-! ## general_ci -/

/-- The weights of the planes of 256 characters that have their own ones. -/
abbrev PlaneTable := ℕ → Option (ℕ → UInt16)

variable (planeTable : PlaneTable)

def convertRuneGeneralCI (r : ℕ) : UInt16 :=
  if r > 0xFFFF then 0xFFFD
  else
    match planeTable (r >>> 8) with
    | none => UInt16.ofNat r
    | some plane => plane (r &&& 0xFF)

def generalCompareLoop (a b : Bytes) : Option ℤ :=
  if 0 < a.length ∧ 0 < b.length then
    match _ha : decodeRune a, decodeRune b with
    | some (r₁, a), some (r₂, b) =>
      let cmp : ℤ := (convertRuneGeneralCI planeTable r₁).toNat - (convertRuneGeneralCI planeTable r₂).toNat
      if cmp ≠ 0 then some (sign cmp) else generalCompareLoop a b
    | _, _ => none
  else some (sign (a.length - b.length))
  termination_by a.length
  decreasing_by exact decodeRune_length _ha

def generalCompare (a b : Bytes) : Option ℤ :=
  generalCompareLoop planeTable (truncateTailingSpace a) (truncateTailingSpace b)

def generalKeyWithoutTrimRightSpace (str : Bytes) : Option Bytes :=
  if 0 < str.length then
    match _hr : decodeRune str with
    | none => none
    | some (r, rest) =>
      let u16 := convertRuneGeneralCI planeTable r
      (generalKeyWithoutTrimRightSpace rest).map fun buf =>
        UInt8.ofNat (u16 >>> 8).toNat :: UInt8.ofNat u16.toNat :: buf
  else some []
  termination_by str.length
  decreasing_by exact decodeRune_length _hr

def generalKey (str : Bytes) : Option Bytes := generalKeyWithoutTrimRightSpace planeTable (truncateTailingSpace str)

end Collate
