import Tidb.Errors
import Tidb.Lib.Cells

/-!
# Decimals (`types/mydecimal.go`)

Nine words of nine decimal digits: the words of the integer part, the leading one holding the digits that do not fill
a word, then those of the fraction, the last one filled up with zeros.  Words are `int32` in the source and integers
here; the places where the arithmetic can wrap say so.
-/

namespace Tidb.Types

open GoLang ByteNum Outcome
open List hiding span

def maxWordBufLen : Nat := 9

def digitsPerWord : Int := 9

def wordSize : Int := 4

def wordMax : Int := 999999999

def maxDecimalScale : Int := 30

abbrev WordBuf := { l : List Int // l.length = maxWordBufLen }

namespace WordBuf

def zero : WordBuf := ⟨replicate maxWordBufLen 0, length_replicate⟩

def get (w : WordBuf) (i : Int) : Res Int := indexInt w.1 i

def set (w : WordBuf) (i : Nat) (x : Int) : Res WordBuf :=
  if i < maxWordBufLen then .ok ⟨w.1.set i x, by rw [length_set]; exact w.2⟩ else .fault

end WordBuf

structure MyDecimal where
  digitsInt : Int
  digitsFrac : Int
  resultFrac : Int
  negative : Bool
  wordBuf : WordBuf
  deriving DecidableEq

def zeroMyDecimal : MyDecimal := ⟨0, 0, 0, false, WordBuf.zero⟩

def powers10 (i : Int) : Res Int :=
  indexInt [1, 10, 100, 1000, 10000, 100000, 1000000, 10000000, 100000000, 1000000000] i

def dig2bytes (i : Int) : Res Int := indexInt [0, 1, 1, 2, 2, 3, 3, 4, 4, 4] i

/-- The table `div9` holds the quotients that the other branch of the source computes. -/
def digitsToWords (digits : Int) : Int := (digits + digitsPerWord - 1).tdiv digitsPerWord

def fixWordCntError (wordsInt wordsFrac : Int) : Int × Int × Option Err :=
  if (maxWordBufLen : Int) < wordsInt + wordsFrac then
    if (maxWordBufLen : Int) < wordsInt then (maxWordBufLen, 0, some .errOverflow)
    else (wordsInt, maxWordBufLen - wordsInt, some .errTruncated)
  else (wordsInt, wordsFrac, none)

/-- `countLeadingZeroes`; the index into `powers10` runs down from `i` and a word below one runs it
off the table. -/
def countLeadingZeroes : Nat → Int → Res Int
  | 0, word => if word < 1 then .fault else .ok 0
  | i + 1, word =>
    if word < 10 ^ (i + 1) then do
      let leading ← countLeadingZeroes i word
      return leading + 1
    else .ok 0

def removeLeadingZerosLoop : List Int → Int → Int → Int → Res (Int × Int)
  | [], wordIdx, digitsInt, _ => if 0 < digitsInt then .fault else .ok (wordIdx, digitsInt)
  | w :: ws, wordIdx, digitsInt, i =>
    if 0 < digitsInt ∧ w = 0 then
      removeLeadingZerosLoop ws (wordIdx + 1) (digitsInt - i) digitsPerWord
    else .ok (wordIdx, digitsInt)

def removeLeadingZeros (d : MyDecimal) : Res (Int × Int) := do
  let i := (d.digitsInt - 1).tmod digitsPerWord + 1
  let (wordIdx, digitsInt) ← removeLeadingZerosLoop d.wordBuf.1 0 d.digitsInt i
  if 0 < digitsInt then do
    let word ← d.wordBuf.get wordIdx
    let leading ← countLeadingZeroes ((digitsInt - 1).tmod digitsPerWord).toNat word
    return (wordIdx, digitsInt - leading)
  else return (wordIdx, 0)

def precisionAndFrac (d : MyDecimal) : Res (Int × Int) := do
  let frac := d.digitsFrac
  let (_, digitsInt) ← removeLeadingZeros d
  let precision := digitsInt + frac
  return (if precision = 0 then 1 else precision, frac)

def decimalBinSize (precision frac : Int) : Res Int :=
  let digitsInt := precision - frac
  let wordsInt := digitsInt.tdiv digitsPerWord
  let wordsFrac := frac.tdiv digitsPerWord
  let xInt := digitsInt - wordsInt * digitsPerWord
  let xFrac := frac - wordsFrac * digitsPerWord
  if xInt < 0 ∨ 10 ≤ xInt ∨ xFrac < 0 ∨ 10 ≤ xFrac then .error .errBadNumber
  else do
    let bytesInt ← dig2bytes xInt
    let bytesFrac ← dig2bytes xFrac
    return wordsInt * wordSize + bytesInt + wordsFrac * wordSize + bytesFrac

def decimalPeak (b : Bytes) : Res Int :=
  if b.length < 3 then .error .errBadNumber
  else do
    let precision ← index b 0
    let frac ← index b 1
    let binSize ← decimalBinSize precision.toNat frac.toNat
    return binSize + 2

/-! ## The value of a decimal -/

/-- The bytes that `k` decimal digits take: the table `dig2bytes`, and enough beyond its end. -/
def digWidth (k : Nat) : Nat := [0, 1, 1, 2, 2, 3, 3, 4, 4, 4].getD k k

theorem digWidth_of_le {k : Nat} (h : 10 ≤ k) : digWidth k = k := by
  rw [digWidth, getD_eq_getElem?_getD, getElem?_eq_none (by simpa using h), Option.getD_none]

def digitCell (k : Nat) : Cell where
  radix := 10 ^ k
  width := digWidth k
  pos := by positivity
  room := by
    by_cases h : k < 10
    · interval_cases k <;> decide
    · right
      rw [digWidth_of_le (by omega)]
      calc 2 * 10 ^ k ≤ 2 ^ k * 10 ^ k :=
            Nat.mul_le_mul_right _ (Nat.le_self_pow (by omega) 2)
        _ = 20 ^ k := by rw [← Nat.mul_pow]
        _ ≤ 256 ^ k := Nat.pow_le_pow_left (by norm_num) k

def wordCell : Cell := digitCell 9

@[simp] theorem wordCell_radix : wordCell.radix = 1000000000 := rfl

@[simp] theorem wordCell_width : wordCell.width = 4 := rfl

theorem digWidth_pos {k : Nat} (h : 0 < k) : 0 < digWidth k := by
  by_cases hk : k < 10
  · interval_cases k <;> decide
  · rw [digWidth_of_le (by omega)]
    exact h

theorem digWidth_le {k : Nat} (h : k < 10) : digWidth k ≤ 4 := by interval_cases k <;> decide

theorem digWidth_mono {j k : Nat} (h : j ≤ k) (hk : k < 10) : digWidth j ≤ digWidth k := by
  interval_cases k <;> interval_cases j <;> decide

theorem dig2bytes_natCast {k : Nat} (h : k < 10) : dig2bytes (k : Int) = .ok (digWidth k : Int) := by
  interval_cases k <;> rfl

theorem powers10_natCast {k : Nat} (h : k < 10) : powers10 (k : Int) = .ok (10 ^ k) := by interval_cases k <;> rfl

/-- The number that a row of words spells in base `10 ^ 9`. -/
def ofWords (ws : List Nat) : Nat := value (replicate ws.length wordCell) ws

theorem span_replicate_wordCell (n : Nat) : span (replicate n wordCell) = 10 ^ (9 * n) := by
  induction n with
  | zero => rfl
  | succ n ih =>
    rw [replicate_succ, span, ih, wordCell_radix]
    ring

theorem fits_words {ws : List Nat} (h : ∀ w ∈ ws, w < 1000000000) : Fits (replicate ws.length wordCell) ws := by
  induction ws with
  | nil => exact trivial
  | cons w ws ih => exact ⟨h w mem_cons_self, ih fun v hv => h v (mem_cons_of_mem _ hv)⟩

@[simp] theorem ofWords_nil : ofWords [] = 0 := rfl

theorem ofWords_cons (w : Nat) (ws : List Nat) : ofWords (w :: ws) = w * 10 ^ (9 * ws.length) + ofWords ws := by
  rw [ofWords, length_cons, replicate_succ, value, span_replicate_wordCell, ofWords]

theorem ofWords_append (as bs : List Nat) : ofWords (as ++ bs) = ofWords as * 10 ^ (9 * bs.length) + ofWords bs := by
  induction as with
  | nil => simp
  | cons a as ih =>
    rw [cons_append, ofWords_cons, ih, ofWords_cons, length_append]
    ring

theorem ofWords_replicate_zero (k : Nat) : ofWords (replicate k 0) = 0 := by
  induction k with
  | zero => rfl
  | succ k ih => rw [replicate_succ, ofWords_cons, ih, Nat.zero_mul]

theorem ofWords_lt {ws : List Nat} (h : ∀ w ∈ ws, w < 1000000000) : ofWords ws < 10 ^ (9 * ws.length) := by
  rw [← span_replicate_wordCell]
  exact value_lt (fits_words h)

namespace MyDecimal

variable (d : MyDecimal)

def wordsInt : Nat := (digitsToWords d.digitsInt).toNat

def wordsFrac : Nat := (digitsToWords d.digitsFrac).toNat

def words : List Nat := d.wordBuf.1.map Int.toNat

def intWords : List Nat := d.words.take d.wordsInt

def fracWords : List Nat := (d.words.drop d.wordsInt).take d.wordsFrac

def digits : Nat := ofWords (d.intWords ++ d.fracWords)

def toRat : ℚ :=
  let magnitude : ℚ := d.digits / 10 ^ (9 * d.wordsFrac)
  if d.negative then -magnitude else magnitude

/-- The words in use are words, the leading one has no more digits than it should, the last one is filled up with
zeros, and zero has no sign. -/
structure WellFormed : Prop where
  digitsInt_nonneg : 0 ≤ d.digitsInt
  digitsFrac_nonneg : 0 ≤ d.digitsFrac
  words_le : d.wordsInt + d.wordsFrac ≤ maxWordBufLen
  word_range : ∀ w ∈ d.wordBuf.1, 0 ≤ w ∧ w ≤ wordMax
  leading : 0 < d.digitsInt → ∀ w ∈ d.words.head?, w < 10 ^ ((d.digitsInt.toNat - 1) % 9 + 1)
  trailing : 0 < d.digitsFrac → ∀ w ∈ d.words[d.wordsInt + d.wordsFrac - 1]?,
    10 ^ (8 - (d.digitsFrac.toNat - 1) % 9) ∣ w
  zero_sign : d.negative = true → d.digits ≠ 0

/-- What the operations need of their operands: the words in use are words, and zero has no sign. -/
structure Sound : Prop where
  digitsInt_nonneg : 0 ≤ d.digitsInt
  digitsFrac_nonneg : 0 ≤ d.digitsFrac
  words_le : d.wordsInt + d.wordsFrac ≤ maxWordBufLen
  word_range : ∀ w ∈ d.wordBuf.1.take (d.wordsInt + d.wordsFrac), 0 ≤ w ∧ w ≤ wordMax
  zero_sign : d.negative = true → d.digits ≠ 0

variable {d} in
theorem WellFormed.sound (h : d.WellFormed) : d.Sound :=
  ⟨h.digitsInt_nonneg, h.digitsFrac_nonneg, h.words_le, fun w hw => h.word_range w (mem_of_mem_take hw), h.zero_sign⟩

end MyDecimal

/-! ## Leading zeros -/

theorem countLeadingZeroes_spec (i w : Nat) (hpos : 0 < w) (hlt : w < 10 ^ (i + 1)) : ∃ c, 1 ≤ c ∧ c ≤ i + 1 ∧ 10 ^ (c -
    1) ≤ w ∧ w < 10 ^ c ∧ countLeadingZeroes i (w : Int) = .ok (((i + 1 - c : Nat) : Int)) := by
  induction i with
  | zero =>
    refine ⟨1, le_rfl, le_rfl, by rw [pow_zero]; exact hpos, hlt, ?_⟩
    rw [countLeadingZeroes, if_neg (by omega)]
    rfl
  | succ i ih =>
    rw [countLeadingZeroes]
    by_cases h : w < 10 ^ (i + 1)
    · obtain ⟨c, hc1, hci, hlo, hhi, heq⟩ := ih h
      refine ⟨c, hc1, by omega, hlo, hhi, ?_⟩
      rw [if_pos (by exact_mod_cast h), heq, ok_bind]
      congr 1
      omega
    · refine ⟨i + 2, by omega, le_rfl, by simpa using h, hlt, ?_⟩
      rw [if_neg (by exact_mod_cast h)]
      congr 1
      omega

def digitsLeft (i : Nat) : List Nat → Int
  | [] => 0
  | _ :: ws => ((9 * ws.length + i : Nat) : Int)

theorem removeLeadingZerosLoop_spec (ws : List Nat) (tl : List Int) (idx : Int) (i : Nat) (hi : ws ≠ [] → 1 ≤ i) : ∃ k
    rest, ws = replicate k 0 ++ rest ∧ (∀ w ∈ rest.head?, 0 < w) ∧ removeLeadingZerosLoop (ws.map Nat.cast ++ tl)
    idx (digitsLeft i ws) i = .ok (idx + k, digitsLeft (if k = 0 then i else 9) rest) := by
  induction ws generalizing idx i with
  | nil =>
    cases tl with
    | nil => simp [removeLeadingZerosLoop, digitsLeft]
    | cons t tl => simp [removeLeadingZerosLoop, digitsLeft]
  | cons w ws ih =>
    rw [map_cons, cons_append, removeLeadingZerosLoop]
    by_cases hw : w = 0
    · subst hw
      have hdigits : digitsLeft i (0 :: ws) - i = digitsLeft 9 ws := by
        cases ws <;> simp [digitsLeft]
        omega
      have hpos := hi (cons_ne_nil 0 ws)
      obtain ⟨k, rest, hws, hhead, hloop⟩ := ih (idx + 1) 9 (fun _ => by omega)
      refine ⟨k + 1, rest, by rw [hws]; rfl, hhead, ?_⟩
      rw [if_pos ⟨by simp only [digitsLeft]; omega, by simp⟩, hdigits]
      change removeLeadingZerosLoop _ _ _ ((9 : Nat) : Int) = _
      rw [hloop, if_neg (Nat.succ_ne_zero k), ite_self, Nat.cast_succ, add_assoc, add_comm (1 : Int)]
    · refine ⟨0, w :: ws, rfl, by simp; omega, ?_⟩
      rw [if_neg (by simp [hw])]
      simp

theorem MyDecimal.length_words (d : MyDecimal) : d.words.length = 9 := by
  rw [words, length_map]
  exact d.wordBuf.2

theorem MyDecimal.words_eq (d : MyDecimal) :
    d.words = d.intWords ++ (d.fracWords ++ d.words.drop (d.wordsInt + d.wordsFrac)) := by
  rw [intWords, fracWords, ← drop_drop, take_append_drop, take_append_drop]

theorem MyDecimal.wordsInt_of_nonneg {d : MyDecimal} (h0 : 0 ≤ d.digitsInt) :
    d.wordsInt = (d.digitsInt.toNat + 8) / 9 := by
  rw [wordsInt, digitsToWords, digitsPerWord, Int.tdiv_eq_ediv_of_nonneg (by omega)]
  omega

theorem MyDecimal.wordsFrac_of_nonneg {d : MyDecimal} (h0 : 0 ≤ d.digitsFrac) :
    d.wordsFrac = (d.digitsFrac.toNat + 8) / 9 := by
  rw [wordsFrac, digitsToWords, digitsPerWord, Int.tdiv_eq_ediv_of_nonneg (by omega)]
  omega

theorem MyDecimal.length_words_of_le {d : MyDecimal} (hle : d.wordsInt + d.wordsFrac ≤ maxWordBufLen) :
    d.intWords.length = d.wordsInt ∧ d.fracWords.length = d.wordsFrac := by
  rw [maxWordBufLen] at hle
  rw [intWords, fracWords, length_take, length_take, length_drop, d.length_words]
  omega

theorem MyDecimal.used_eq (d : MyDecimal) : d.intWords ++ d.fracWords = d.words.take (d.wordsInt + d.wordsFrac) := by
  rw [take_add]
  rfl

namespace MyDecimal.WellFormed

variable {d : MyDecimal} (h : d.WellFormed)
include h

theorem wordBuf_eq : d.wordBuf.1 = d.words.map Nat.cast := by
  rw [words, map_map]
  conv_lhs => rw [← map_id d.wordBuf.1]
  exact map_congr_left fun w hw => (Int.toNat_of_nonneg (h.word_range w hw).1).symm

theorem word_lt {w : Nat} (hw : w ∈ d.words) : w < 1000000000 := by
  obtain ⟨v, hv, rfl⟩ := mem_map.mp hw
  have hr := h.word_range v hv
  rw [wordMax] at hr
  omega

theorem wordsInt_eq : d.wordsInt = (d.digitsInt.toNat + 8) / 9 := wordsInt_of_nonneg h.digitsInt_nonneg

theorem wordsFrac_eq : d.wordsFrac = (d.digitsFrac.toNat + 8) / 9 := wordsFrac_of_nonneg h.digitsFrac_nonneg

theorem length_intWords : d.intWords.length = d.wordsInt := (length_words_of_le h.words_le).1

theorem length_fracWords : d.fracWords.length = d.wordsFrac := (length_words_of_le h.words_le).2

theorem intWord_lt {w : Nat} (hw : w ∈ d.intWords) : w < 1000000000 :=
  h.word_lt (mem_of_mem_take hw)

theorem fracWord_lt {w : Nat} (hw : w ∈ d.fracWords) : w < 1000000000 :=
  h.word_lt (mem_of_mem_drop (mem_of_mem_take hw))

end MyDecimal.WellFormed

theorem leading_split (w : Nat) (rest : List Nat) {c : Nat} (hc1 : 1 ≤ c) (hc9 : c ≤ 9)
    (hlo : 10 ^ (c - 1) ≤ w) (hhi : w < 10 ^ c) : ∃ (n x : Nat) (ws : List Nat), n = 9 * rest.length + c ∧
      w :: rest = (if n % 9 = 0 then ws else x :: ws) ∧ ws.length = n / 9 ∧ x < 10 ^ (n % 9) ∧
      10 ^ (n - 1) ≤ ofWords (w :: rest) := by
  have hvalue : 10 ^ (9 * rest.length + c - 1) ≤ ofWords (w :: rest) := by
    rw [ofWords_cons, show 9 * rest.length + c - 1 = (c - 1) + 9 * rest.length by omega, pow_add]
    exact le_trans (Nat.mul_le_mul_right _ hlo) (Nat.le_add_right _ _)
  by_cases hc : c = 9
  · refine ⟨9 * rest.length + c, 0, w :: rest, rfl, ?_, ?_, by positivity, hvalue⟩
    · rw [if_pos (by omega)]
    · rw [length_cons]
      omega
  · refine ⟨9 * rest.length + c, w, rest, rfl, ?_, by omega, ?_, hvalue⟩
    · rw [if_neg (by omega)]
    · rwa [show (9 * rest.length + c) % 9 = c by omega]

theorem exists_digitsLeft {n : Int} (h0 : 0 ≤ n) {ws : List Nat} (hlen : ws.length = (n.toNat + 8) / 9) :
    ∃ i : Nat, (n - 1).tmod digitsPerWord + 1 = i ∧ (ws ≠ [] → i = (n.toNat - 1) % 9 + 1) ∧ n = digitsLeft i ws := by
  rw [digitsPerWord]
  cases ws with
  | nil =>
    rw [length_nil] at hlen
    obtain rfl : n = 0 := by omega
    exact ⟨0, rfl, absurd rfl, rfl⟩
  | cons w ws =>
    rw [length_cons] at hlen
    refine ⟨(n.toNat - 1) % 9 + 1, ?_, fun _ => rfl, ?_⟩
    · rw [Int.tmod_eq_emod_of_nonneg (by omega)]
      omega
    · simp only [digitsLeft]
      omega

/-- The number of zero words in front of the integer part, and the number `n` of its significant digits: a leading word
of `n % 9` digits, if any, and `n / 9` full ones. -/
theorem removeLeadingZeros_spec {d : MyDecimal} (h : d.WellFormed) : ∃ (k n x : Nat) (ws : List Nat), removeLeadingZeros
    d = .ok ((k : Int), (n : Int)) ∧ d.intWords = replicate k 0 ++ (if n % 9 = 0 then ws else x :: ws) ∧ ws.length
    = n / 9 ∧ x < 10 ^ (n % 9) ∧ (0 < n → 10 ^ (n - 1) ≤ ofWords d.intWords) := by
  have h0 := h.digitsInt_nonneg
  have hlen := h.length_intWords
  rw [h.wordsInt_eq] at hlen
  have hbuf : d.wordBuf.1 = d.intWords.map Nat.cast ++ d.wordBuf.1.drop d.wordsInt := by
    conv_lhs => rw [← take_append_drop d.wordsInt d.wordBuf.1]
    rw [MyDecimal.intWords, map_take, ← h.wordBuf_eq]
  obtain ⟨i, hi, hi1, hdigits⟩ := exists_digitsLeft h0 hlen
  obtain ⟨k, rest, hws, hhead, hloop⟩ := removeLeadingZerosLoop_spec d.intWords
    (d.wordBuf.1.drop d.wordsInt) 0 i (fun hne => by rw [hi1 hne]; omega)
  rw [← hbuf, ← hdigits, zero_add] at hloop
  rw [removeLeadingZeros]
  simp only [hi, hloop, ok_bind]
  cases rest with
  | nil =>
    refine ⟨k, 0, 0, [], ?_, by simpa using hws, rfl, by simp, by omega⟩
    rfl
  | cons w rest =>
    have hwpos : 0 < w := hhead w rfl
    have hj : ∃ j : Nat, (if k = 0 then i else 9) = j ∧ 1 ≤ j ∧ j ≤ 9 ∧ w < 10 ^ j := by
      refine ⟨_, rfl, ?_⟩
      have hne : d.intWords ≠ [] := by rw [hws]; simp
      have hmem : w ∈ d.intWords := by rw [hws]; simp
      have hw9 := h.intWord_lt hmem
      split
      · rename_i hk
        refine ⟨by rw [hi1 hne]; omega, by rw [hi1 hne]; omega, ?_⟩
        rw [hi1 hne]
        apply h.leading
        · rw [hdigits, hws, hk]
          simp only [replicate_zero, nil_append, digitsLeft]
          have := hi1 hne
          omega
        · rw [d.words_eq, hws, hk]
          rfl
      · exact ⟨by omega, le_rfl, by norm_num; exact hw9⟩
    obtain ⟨j, hjeq, hj1, hj9, hwj⟩ := hj
    obtain ⟨c, hc1, hcj, hlo, hhi, hclz⟩ :=
      countLeadingZeroes_spec (j - 1) w hwpos (by rwa [Nat.sub_add_cancel hj1])
    obtain ⟨n, x, ws, hn, hsplit, hwslen, hx, hval⟩ :=
      leading_split w rest hc1 (by omega) hlo hhi
    have hget : d.wordBuf.get (k : Int) = .ok (w : Int) := by
      rw [WordBuf.get, indexInt_natCast, hbuf, hws, index_of_lt (by simp)]
      simp
    have htmod : (((9 * rest.length + j : Nat) : Int) - 1).tmod digitsPerWord = ((j - 1 : Nat) : Int) := by
      rw [digitsPerWord, Int.tmod_eq_emod_of_nonneg (by omega)]
      omega
    refine ⟨k, n, x, ws, ?_, by rw [hws, hsplit], hwslen, hx, fun _ => ?_⟩
    · rw [hjeq, digitsLeft, if_pos (by omega), hget, ok_bind, htmod, Int.toNat_natCast, hclz, ok_bind]
      congr 2
      omega
    · rw [hws, ofWords_append, ofWords_replicate_zero, Nat.zero_mul, Nat.zero_add]
      exact hval

end Tidb.Types
