import Tidb.Types.BinRoundTrip

/-!
# What `FromBin` accepts (`types/mydecimal.go`)

The full words are compared with the largest word, but the digits in front of the first full word may have one digit
too many, and those behind the last one are checked after a product that can wrap.  Where these two cells hold no more
digits than they stand for, what is accepted is in normal form and has the binary form that was read.
-/

namespace Tidb.Types

open GoLang ByteNum Outcome
open List hiding span

/-- The bytes of the binary form: those of the input, filled up with zeros when it is shorter. -/
def consumed (bin : Bytes) (size : Nat) : Bytes := bin.take size ++ replicate (size - bin.length) 0

def isNegative : Bytes → Bool
  | [] => false
  | first :: _ => decide (first &&& 0x80 = 0)

def binBytes (bin : Bytes) (p f : Nat) : Bytes := consumed bin (totalWidth (binCells p f))

def cellBytes (bin : Bytes) (p f : Nat) : Bytes := mask (isNegative bin) (flipTop (binBytes bin p f))

def leadingCell (bin : Bytes) (p f : Nat) : Nat := numAt (cellBytes bin p f) 0 (digWidth ((p - f) % 9))

def trailingCell (bin : Bytes) (p f : Nat) : Nat :=
  numAt (cellBytes bin p f) (digWidth ((p - f) % 9) + 4 * ((p - f) / 9 + f / 9)) (digWidth (f % 9))

theorem numAt_zero (b : Bytes) (off : Nat) : numAt b off 0 = 0 := by
  rw [numAt, take_zero]
  rfl

theorem length_consumed (bin : Bytes) (size : Nat) : (consumed bin size).length = size := by
  rw [consumed, length_append, length_take, length_replicate]
  omega

theorem length_cellBytes (bin : Bytes) (p f : Nat) : (cellBytes bin p f).length = totalWidth (binCells p f) := by
  rw [cellBytes, length_mask, length_flipTop, binBytes, length_consumed]

theorem consumed_eq_cons {first : UInt8} {t : Bytes} {size : Nat} (hpos : 0 < size) :
    ∃ t', consumed (first :: t) size = first :: t' := by
  obtain ⟨n, rfl⟩ : ∃ n, size = n + 1 := ⟨size - 1, by omega⟩
  exact ⟨_, rfl⟩

theorem fromBin_eq_consumed (dst : MyDecimal) {bin : Bytes} (hne : bin ≠ []) {p f size : Nat} (hpos : 0 < size)
    (hsize : decimalBinSize p f = .ok (size : Int)) : fromBin dst bin p f = fromBin dst (consumed bin size) p f := by
  cases bin with
  | nil => exact absurd rfl hne
  | cons first t =>
    obtain ⟨t', ht'⟩ := @consumed_eq_cons first t size hpos
    have hlen := length_consumed (first :: t) size
    have hcopy : (consumed (first :: t) size).take size ++
        replicate (size - (consumed (first :: t) size).length) 0 = consumed (first :: t) size := by
      rw [hlen, Nat.sub_self, replicate_zero, append_nil, take_of_length_le hlen.le]
    have hread : ∀ m, readBin dst (first :: t) size p f m = readBin dst (consumed (first :: t) size) size p f m := by
      intro m
      rw [readBin, readBin]
      simp only [Int.toNat_natCast, hcopy]
      rfl
    rw [ht'] at hread ⊢
    rw [fromBin, fromBin, hsize]
    simp only [hread]

/-! ## Words in range -/

def WordBuf.InRange (words : WordBuf) : Prop := ∀ w ∈ words.1, 0 ≤ w ∧ w ≤ wordMax

theorem WordBuf.InRange.set {words words' : WordBuf} {i : Nat} {w : Int} (h : words.InRange) (hw : ¬ badWord w)
    (hset : words.set i w = .ok words') : words'.InRange := by
  rw [WordBuf.set] at hset
  split at hset
  · cases hset
    intro v hv
    obtain hv | rfl := mem_or_eq_of_mem_set hv
    · exact h v hv
    · rw [badWord] at hw
      omega
  · cases hset

section Range

variable {bin : Bytes} {m : Bool} {r r' : BinReader}

theorem words_keep (words : WordBuf) (w digits : Int) (size : Nat) : (r.keep words w digits size).words = words := by
  rw [BinReader.keep]
  split <;> rfl

theorem powers10_le {i p : Int} (h : powers10 i = .ok p) : p ≤ wordMax + 1 := by
  have htable : ∀ q ∈ ([1, 10, 100, 1000, 10000, 100000, 1000000, 10000000, 100000000, 1000000000] : List Int),
      q ≤ wordMax + 1 := by decide
  rw [powers10, indexInt] at h
  split at h
  · cases h
  · rw [index] at h
    split at h
    · rename_i x hx
      cases h
      exact htable _ (mem_of_getElem? hx)
    · cases h

theorem readLeading_range {l : Int} (h : readLeading bin m l r = .ok r') (hr : r.words.InRange) : r'.words.InRange := by
  rw [readLeading] at h
  split at h
  · simp only [bind_eq_ok] at h
    obtain ⟨i, -, w, -, words, hset, p, hp, h⟩ := h
    split at h
    · cases h
    · cases h
      have hle := powers10_le hp
      rw [words_keep]
      apply hr.set ?_ hset
      rw [badWord]
      omega
  · cases h
    exact hr

theorem readWords_range {advance : BinReader → WordBuf → Int → BinReader}
    (hadv : ∀ r words w, (advance r words w).words = words) {n : Nat} (h : readWords bin m advance n r = .ok r')
    (hr : r.words.InRange) : r'.words.InRange := by
  induction n generalizing r with
  | zero =>
    cases h
    exact hr
  | succ n ih =>
    simp only [readWords, bind_eq_ok] at h
    obtain ⟨w, -, words, hset, h⟩ := h
    split at h
    · cases h
    · rename_i hgood
      apply ih h
      rw [hadv]
      exact hr.set hgood hset

theorem readTrailing_range {t : Int} (h : readTrailing bin m t r = .ok r') (hr : r.words.InRange) :
    r'.words.InRange := by
  rw [readTrailing] at h
  split at h
  · simp only [bind_eq_ok] at h
    obtain ⟨i, -, x, -, p, -, words, hset, h⟩ := h
    split at h
    · cases h
    · rename_i hgood
      cases h
      exact hr.set hgood hset
  · cases h
    exact hr

theorem readDigits_range {l wi wf t : Int} (h : readDigits bin m l wi wf t r = .ok r') (hr : r.words.InRange) :
    r'.words.InRange := by
  simp only [readDigits, bind_eq_ok] at h
  obtain ⟨r₁, h₁, r₂, h₂, r₃, h₃, h₄⟩ := h
  apply readTrailing_range h₄
  apply readWords_range (fun _ _ _ => rfl) h₃
  apply readWords_range (fun _ _ _ => words_keep _ _ _ _) h₂
  exact readLeading_range h₁ hr

end Range

/-! ## The decimal that is read -/

/-- Leading digits other than zero stay in front, and none of the integer digits is taken off. -/
theorem BinReader.Done.led {b : Bytes} {l wi wf t : Nat} {r : BinReader} (h : r.Done b l wi wf t) (hl : l ≤ 9)
    (hx : numAt b 0 (digWidth l) ≠ 0) :
    r.words.1.head? = some (numAt b 0 (digWidth l) : Int) ∧ r.digitsInt = (9 * wi + l : Nat) := by
  have hl0 : l ≠ 0 := by
    rintro rfl
    exact hx (numAt_zero b 0)
  have hints : (intsAt b l wi).dropWhile (· == 0) = numAt b 0 (digWidth l) :: wordsAt b (digWidth l) wi := by
    rw [intsAt, leadAt, if_neg hl0, singleton_append, dropWhile_cons, if_neg (by simpa using hx)]
  obtain ⟨hdigits, post, hpost⟩ := h
  rw [hints, length_cons, length_wordsAt, Nat.min_eq_left (by omega)] at hdigits
  rw [hpost, hints]
  exact ⟨rfl, hdigits⟩

theorem wellFormed_of_buffered {ks fw : List Nat} {digits f : Nat} {resultFrac : Int} {words : WordBuf}
    (h : (⟨digits, f, resultFrac, false, words⟩ : MyDecimal).Holds ks fw) (hroom : ks.length + fw.length ≤ 9)
    (hrange : words.InRange) (hhead : ∀ w ∈ ks.head?, w < 10 ^ ((digits - 1) % 9 + 1))
    (hlast : ∀ w ∈ fw.getLast?, 10 ^ (8 - (f - 1) % 9) ∣ w) :
    (⟨digits, f, resultFrac, false, words⟩ : MyDecimal).WellFormed := by
  obtain ⟨post, hwords⟩ := h.words_eq
  have hk := (digitsToWords_natCast digits).symm.trans h.wordsInt
  have hf := (digitsToWords_natCast f).symm.trans h.wordsFrac
  refine ⟨by simp only; omega, by simp only; omega, ?_, hrange, ?_, ?_, fun h => absurd h Bool.false_ne_true⟩
  · rw [h.wordsInt, h.wordsFrac]
    exact hroom
  · intro hpos w hw
    rw [hwords] at hw
    cases ks with
    | nil =>
      rw [length_nil] at hk
      simp only at hpos
      omega
    | cons k ks => exact hhead w hw
  · intro hpos w hw
    simp only at hpos
    rw [hwords, h.wordsInt, h.wordsFrac] at hw
    rw [getElem?_append_right (by omega), getElem?_append_left (by omega),
      show ks.length + fw.length - 1 - ks.length = fw.length - 1 by omega, ← getLast?_eq_getElem?] at hw
    exact hlast w hw

section Cells

variable {b : Bytes} {p f : Nat} (h : CellsFit b p f)

include h

theorem CellsFit.ofWords_intPart_lt : ofWords (intPart b p f) < 10 ^ (p - f) := by
  have hfits := fits_iff.mpr h
  rw [readCells_binCells, binCells, fits_append_iff (by simp [intCells])] at hfits
  have hspan : span (intCells (p - f)) = 10 ^ (p - f) := by
    rw [intCells, span, span_replicate_wordCell]
    change 10 ^ ((p - f) % 9) * 10 ^ (9 * ((p - f) / 9)) = _
    rw [← pow_add, Nat.mod_add_div]
  rw [← h.value_int, ← hspan]
  exact value_lt hfits.1

theorem CellsFit.dvd_getLast? : ∀ w ∈ (fracPart b p f).getLast?, 10 ^ (8 - (f - 1) % 9) ∣ w := by
  intro w hw
  by_cases h0 : f % 9 = 0
  · by_cases hf : f = 0
    · rw [length_eq_zero_iff.mp (length_fracPart.trans (by rw [hf]))] at hw
      cases hw
    · rw [show 8 - (f - 1) % 9 = 0 by omega]
      exact one_dvd w
  · rw [h.fracPart_eq, if_neg h0, getLast?_concat] at hw
    obtain rfl := Option.some.inj hw
    rw [show 8 - (f - 1) % 9 = 9 - f % 9 by omega]
    exact Dvd.intro_left _ rfl

/-- The first word that is kept is not zero, and has no more digits than it should. -/
theorem IntKept.head_lt {ks : List Nat} {digits : Nat} (hkept : IntKept b p f ks digits) :
    ∀ w ∈ ks.head?, 0 < w ∧ w < 10 ^ ((digits - 1) % 9 + 1) := by
  intro w hw
  have hmem := mem_of_head? hw
  have hle := hkept.length_le
  have hpos : 0 < ks.length := length_pos_of_mem hmem
  constructor
  · have hne := head?_dropWhile_not (· == 0) (intPart b p f)
    rw [← hkept.words, hw] at hne
    simpa [Nat.pos_iff_ne_zero] using hne
  · rw [hkept.digits]
    by_cases hfull : ks.length ≤ (p - f) / 9
    · rw [show (min (p - f) (9 * ks.length) - 1) % 9 + 1 = 9 by omega]
      exact h.intPart_lt (hkept.sublist.subset hmem)
    · -- nothing is dropped, and the digits in front of the first full word come first
      have hall := hkept.sublist.eq_of_length (by rw [length_intPart]; omega)
      rw [hall, intPart, intsAt, leadAt, if_neg (by omega)] at hw
      obtain rfl := Option.some.inj hw
      rw [show (min (p - f) (9 * ks.length) - 1) % 9 + 1 = (p - f) % 9 by omega]
      exact h.lead_lt

end Cells

structure Kept (bin : Bytes) (p f : Nat) (d : MyDecimal) : Prop where
  /-- Every word is below `10 ^ 9`. -/
  words : ∀ w ∈ d.wordBuf.1, 0 ≤ w ∧ w < 10 ^ 9
  /-- The leading word has no more digits than it should. -/
  leading : 0 < d.digitsInt → ∀ w ∈ d.words.head?, w < 10 ^ ((d.digitsInt.toNat - 1) % 9 + 1)
  /-- The digits behind the last full word are moved to the front of their word. -/
  trailing : f % 9 ≠ 0 → d.words[d.wordsInt + f / 9]? = some (trailingCell bin p f * 10 ^ (9 - f % 9))
  /-- `WriteBin` writes the bytes that were read; a negative zero may lose its sign. -/
  rewritten : f ≤ 30 → ∀ buf spare,
    writeBin d p f buf spare = .ok (buf ++ binBytes bin p f, none) ∨
    isNegative bin = true ∧ (∀ b ∈ cellBytes bin p f, b = 0) ∧
      writeBin d p f buf spare = .ok (buf ++ flipTop (cellBytes bin p f), none)

theorem wellFormed_zeroMyDecimal (resultFrac : Int) :
    ({ zeroMyDecimal with resultFrac := resultFrac } : MyDecimal).WellFormed := by
  refine ⟨le_rfl, le_rfl, Nat.zero_le _, ?_, nofun, nofun, nofun⟩
  show ∀ w ∈ replicate maxWordBufLen (0 : Int), 0 ≤ w ∧ w ≤ wordMax
  decide

section Accepted

variable {bin : Bytes} {p f : Nat}

theorem writeSigned_isNegative {xs : List Nat} (h : writeCells (binCells p f) xs = cellBytes bin p f) :
    writeSigned (isNegative bin) (binCells p f) xs = binBytes bin p f := by
  rw [writeSigned, h, cellBytes, mask_mask, flipTop_flipTop]

theorem writeBin_cells {d : MyDecimal} (hd : d.WellFormed) {xs : List Nat} (hp : 0 < p) (hp81 : p ≤ 81) (hf : f ≤ 30)
    (hfp : f ≤ p) (hint : ofWords d.intWords < 10 ^ (p - f)) {neg : Bool}
    (hsign : neg = true → d.digits = 0 → 0 < d.digitsFrac) (hfrac : d.digitsFrac = f) (hxs : Fits (binCells p f) xs)
    (hvalue : d.digits * 10 ^ f = 10 ^ (9 * d.wordsFrac) * value (binCells p f) xs) (buf spare : Bytes) :
    writeBin { d with negative := neg } p f buf spare = .ok (buf ++ writeSigned neg (binCells p f) xs, none) := by
  obtain ⟨ys, err, hy⟩ := writeBin_signed hd hp hp81 hf hfp hint hsign
  have hval := hy.value_eq
  rw [hvalue, Nat.mul_div_cancel_left _ (by positivity)] at hval
  rw [hy.bytes, hy.same hfrac, writeSigned, writeSigned, writeCells_eq_of_value_eq hy.fits hxs hval]

theorem fromBin_eq_readDigits (dst : MyDecimal) (hne : bin ≠ []) (hp : 0 < p) (hfp : f ≤ p)
    (hroom : (p - f + 8) / 9 + (f + 8) / 9 ≤ 9) :
    fromBin dst bin p f = binResult (totalWidth (binCells p f) : Nat) f (f : Nat) (isNegative bin) none
      (readDigits (flipTop (binBytes bin p f)) (isNegative bin) ((p - f) % 9 : Nat) ((p - f) / 9 : Nat)
        (f / 9 : Nat) (f % 9 : Nat) ⟨dst.wordBuf, 0, (p - f : Nat), 0⟩) := by
  have hpos := @totalWidth_binCells_pos p f hp
  have hlen : (binBytes bin p f).length = totalWidth (binCells p f) := length_consumed _ _
  have hsize := decimalBinSize_of_le hfp
  rw [← totalWidth_binCells] at hsize
  rw [fromBin_eq_consumed dst hne hpos hsize]
  cases bin with
  | nil => exact absurd rfl hne
  | cons first t =>
    obtain ⟨t', ht'⟩ := @consumed_eq_cons first t _ hpos
    have hres := fromBin_eq_binResult hlen hp hfp (by omega) hroom ht' rfl dst []
    rw [append_nil, hlen] at hres
    exact hres

theorem fromBin_fits {dst : MyDecimal} (hdst : dst.wordBuf.InRange) (hne : bin ≠ []) (hp : 0 < p) (hfp : f ≤ p)
    (hroom : (p - f + 8) / 9 + (f + 8) / 9 ≤ 9) (h : CellsFit (cellBytes bin p f) p f) :
    ∃ d, fromBin dst bin p f = .ok ((totalWidth (binCells p f) : Nat), d, none) ∧ Kept bin p f d := by
  have h81 : p ≤ 81 := by omega
  have hfits := fits_iff.mpr h
  have hcells := @writeCells_readCells (binCells p f) (cellBytes bin p f) (length_cellBytes bin p f)
  have hsigned := writeSigned_isNegative hcells
  have hvalue := h.value_words
  have hint := h.ofWords_intPart_lt
  generalize readCells (binCells p f) (cellBytes bin p f) = xs at hfits hcells hsigned hvalue
  obtain ⟨r, ks, digits, hread, hdigits, hkept, hbuf⟩ := readDigits_fits h
    ((length_mask ..).symm.trans (length_cellBytes bin p f)) hroom dst.wordBuf
  rw [← cellBytes] at hkept hbuf
  have hrange := readDigits_range hread hdst
  have hsum := hkept.length_eq
  have hle := hkept.length_le
  have hhead := hkept.head_lt h
  have hfw := @length_fracPart (cellBytes bin p f) p f
  rw [← hkept.ofWords_eq] at hvalue hint
  rw [← hfw] at hvalue
  rw [fromBin_eq_readDigits dst hne hp hfp hroom, hread, binResult, hdigits]
  by_cases hzero : ((digits : Nat) : Int) = 0 ∧ ((f : Nat) : Int) = 0
  · -- a zero without a fraction loses its sign
    obtain rfl : f = 0 := by omega
    obtain rfl : ks = [] := length_eq_zero_iff.mp (by omega)
    have hnil : fracPart (cellBytes bin p 0) p 0 = [] := length_eq_zero_iff.mp hfw
    have hv0 : value (binCells p 0) xs = 0 := by
      rw [hnil] at hvalue
      simpa using hvalue.symm
    rw [if_pos hzero]
    refine ⟨_, rfl, ?_, fun h => absurd h (by decide), fun h => absurd rfl h, fun _ buf spare => ?_⟩
    · decide
    have hwrite := writeBin_cells (wellFormed_zeroMyDecimal (int8 ((0 : Nat) : Int))) hp h81 (by omega) hfp
      (by positivity) (fun h => absurd h Bool.false_ne_true) rfl hfits (by rw [hv0]; rfl) buf spare
    cases hsgn : isNegative bin with
    | false =>
      rw [hsgn] at hsigned
      left
      rw [← hsigned]
      exact hwrite
    | true =>
      right
      refine ⟨rfl, ?_, ?_⟩
      · rw [← hcells, writeCells_of_value_eq_zero hfits hv0]
        exact fun b hb => eq_of_mem_replicate hb
      · rw [← hcells]
        exact hwrite
  · rw [if_neg hzero]
    have hholds : ∀ m, (⟨digits, f, int8 f, m, r.words⟩ : MyDecimal).Holds ks (fracPart (cellBytes bin p f) p f) :=
      fun _ => holds_of_buffered hbuf hsum hfw.symm
    have hwell := wellFormed_of_buffered (hholds false) (by omega) hrange (fun w hw => (hhead w hw).2) h.dvd_getLast?
    refine ⟨_, rfl, ?_, ?_, ?_, fun hf buf spare => .inl ?_⟩
    · intro w hw
      have := hrange w hw
      rw [wordMax] at this
      omega
    · exact hwell.leading
    · intro h0
      obtain ⟨post, hpost⟩ := (hholds (isNegative bin)).words_eq
      rw [hpost, (hholds _).wordsInt, getElem?_append_right (by omega), Nat.add_sub_cancel_left, h.fracPart_eq,
        if_neg h0, append_assoc, getElem?_append_right (length_wordsAt ..).le, length_wordsAt, Nat.sub_self]
      rfl
    · have hint' : ofWords (⟨digits, f, int8 f, false, r.words⟩ : MyDecimal).intWords < 10 ^ (p - f) := by
        rw [(hholds false).intWords]
        exact hint
      have hvalue' : (⟨digits, f, int8 f, false, r.words⟩ : MyDecimal).digits * 10 ^ f =
          10 ^ (9 * (⟨digits, f, int8 f, false, r.words⟩ : MyDecimal).wordsFrac) * value (binCells p f) xs := by
        rw [(hholds false).digits, (hholds false).wordsFrac]
        exact hvalue
      -- the first word is not zero
      have hsign : (⟨digits, f, int8 f, false, r.words⟩ : MyDecimal).digits = 0 → (0 : Int) < (f : Nat) := by
        intro hdz
        by_contra hf0
        cases ks with
        | nil =>
          rw [length_nil] at hsum
          omega
        | cons k ks =>
          rw [(hholds false).digits, ofWords_cons] at hdz
          have hk := (hhead k rfl).1
          have hpow : 0 < k * 10 ^ (9 * ks.length) * 10 ^ (9 * (fracPart (cellBytes bin p f) p f).length) := by
            positivity
          rw [Nat.add_mul] at hdz
          omega
      rw [@writeBin_cells p f _ hwell xs hp h81 hf hfp hint' (isNegative bin) (fun _ => hsign) rfl hfits
        hvalue' buf spare,
        hsigned]

theorem Kept.trailing_lt {d : MyDecimal} (h : Kept bin p f d) : trailingCell bin p f < 10 ^ (f % 9) := by
  by_cases h0 : f % 9 = 0
  · rw [trailingCell, h0, show digWidth 0 = 0 from rfl, numAt_zero]
    exact Nat.one_pos
  · obtain ⟨w, hw, hword⟩ := mem_map.mp (mem_of_getElem? (h.trailing h0))
    have hlt := (h.words w hw).2
    have hprod : trailingCell bin p f * 10 ^ (9 - f % 9) < 10 ^ (f % 9) * 10 ^ (9 - f % 9) := by
      rw [← hword, ← pow_split (by omega)]
      omega
    exact Nat.lt_of_mul_lt_mul_right hprod

theorem fromBin_cases (dst : MyDecimal) (hne : bin ≠ []) (hp : 0 < p) (hfp : f ≤ p)
    (hroom : (p - f + 8) / 9 + (f + 8) / 9 ≤ 9) :
    ¬ Passes (cellBytes bin p f) ((p - f) % 9) ((p - f) / 9 + f / 9) (f % 9) ∧
        fromBin dst bin p f = .ok ((totalWidth (binCells p f) : Nat), zeroMyDecimal, some .errBadNumber) ∨
      Passes (cellBytes bin p f) ((p - f) % 9) ((p - f) / 9 + f / 9) (f % 9) ∧
        ∃ d, fromBin dst bin p f = .ok ((totalWidth (binCells p f) : Nat), d, none) ∧
          (Kept bin p f d → leadingCell bin p f < 10 ^ ((p - f) % 9)) := by
  have hlen : (flipTop (binBytes bin p f)).length = totalWidth (binCells p f) := by
    rw [length_flipTop]
    exact length_consumed _ _
  rw [totalWidth_binCells, digitBytes, digitBytes] at hlen
  rw [fromBin_eq_readDigits dst hne hp hfp hroom]
  obtain ⟨hnot, herr⟩ | ⟨hpass, r, hok, hdone⟩ := @readDigits_cases (flipTop (binBytes bin p f)) (isNegative bin)
    ((p - f) % 9) ((p - f) / 9) (f / 9) (f % 9) dst.wordBuf _ (Nat.div_add_mod _ _) (by omega) (by omega)
    (by split <;> split <;> omega) (by omega)
  · rw [herr]
    exact .inl ⟨hnot, rfl⟩
  · have hnonzero : ¬ leadingCell bin p f < 10 ^ ((p - f) % 9) → leadingCell bin p f ≠ 0 := by
      have hpow := Nat.one_le_pow ((p - f) % 9) 10 (by decide)
      omega
    rw [hok, binResult]
    refine .inr ⟨hpass, ?_⟩
    split <;> rename_i hzero
    · refine ⟨_, rfl, fun _ => by_contra fun hbad => ?_⟩
      have hint := (hdone.led (by omega) (hnonzero hbad)).2
      have hlt := Nat.mod_lt (p - f) (Nat.zero_lt_succ 8)
      omega
    · refine ⟨_, rfl, fun hkept => by_contra fun hbad => ?_⟩
      obtain ⟨hhead, hint⟩ := hdone.led (by omega) (hnonzero hbad)
      rw [Nat.div_add_mod] at hint
      have hpos : 0 < (p - f) % 9 := by
        by_contra h0
        rw [leadingCell, show (p - f) % 9 = 0 by omega, show digWidth 0 = 0 from rfl, numAt_zero] at hbad
        exact hbad Nat.one_pos
      have hlt := hkept.leading (by simp only; omega) (leadingCell bin p f) (by
        rw [MyDecimal.words, head?_map, hhead]
        rfl)
      simp only [hint, Int.toNat_natCast] at hlt
      rw [show (p - f - 1) % 9 + 1 = (p - f) % 9 by omega] at hlt
      exact hbad hlt

theorem fromBin_oversized (dst : MyDecimal) (hsize : ∀ size, decimalBinSize p f = .ok size → 40 < size) :
    ∃ d, fromBin dst bin p f = .ok (0, d, some .errBadNumber) := by
  cases bin with
  | nil => exact ⟨_, rfl⟩
  | cons first t =>
    have htotal : (∃ size, decimalBinSize p f = .ok size) ∨ decimalBinSize p f = .error .errBadNumber := by
      by_cases hfp : f ≤ p
      · exact .inl ⟨_, decimalBinSize_of_le hfp⟩
      · rw [decimalBinSize_of_lt (not_le.mp hfp)]
        split
        · exact .inl ⟨_, rfl⟩
        · exact .inr rfl
    rw [fromBin]
    obtain ⟨size, h⟩ | h := htotal
    · rw [h]
      simp only
      rw [if_pos (.inr (hsize _ h))]
      exact ⟨_, rfl⟩
    · rw [h]
      exact ⟨_, rfl⟩

theorem fromBin_result (dst : MyDecimal) (hne : bin ≠ []) (hp : 0 < p) (hfp : f ≤ p) (h81 : p - f ≤ 81)
    (h40 : totalWidth (binCells p f) ≤ 40) :
    ∃ d err, fromBin dst bin p f = .ok ((totalWidth (binCells p f) : Nat), d, err) ∧
      (err = some .errBadNumber ∨ wordsFor (p - f) + wordsFor f ≤ 9 ∧ err = none ∨
        9 < wordsFor (p - f) + wordsFor f ∧ err = some .errTruncated) := by
  have hpos := @totalWidth_binCells_pos p f hp
  have hlen : (binBytes bin p f).length = totalWidth (binCells p f) := length_consumed _ _
  have hsize := decimalBinSize_of_le hfp
  rw [← totalWidth_binCells] at hsize
  cases bin with
  | nil => exact absurd rfl hne
  | cons first t =>
    obtain ⟨t', ht'⟩ := @consumed_eq_cons first t _ hpos
    have hread := fromBin_eq_readBin hlen hfp (hlen.trans_le h40) ht' rfl dst []
    rw [append_nil, hlen] at hread
    rw [fromBin_eq_consumed dst hne hpos hsize]
    obtain ⟨d, err, hres, herr⟩ := @readBin_result dst (binBytes (first :: t) p f) p f (totalWidth (binCells p f))
      (decide (first &&& 0x80 = 0)) hfp h81 hpos hlen.ge (totalWidth_binCells p f)
    exact ⟨d, err, hread.trans hres, herr⟩

end Accepted

/-- The precisions and scales of decimals, and those whose size is refused at once.  (For the others the reader can run
off its input or off the words.) -/
def Announced (p f : Nat) : Prop :=
  f ≤ p ∧ 0 < p ∧ p - f ≤ 81 ∨ ∀ size, decimalBinSize p f = .ok size → 40 < size

def Accepted (bin : Bytes) (p f : Nat) : Prop :=
  bin ≠ [] ∧ f ≤ p ∧ wordsFor (p - f) + wordsFor f ≤ 9 ∧
    Passes (cellBytes bin p f) ((p - f) % 9) ((p - f) / 9 + f / 9) (f % 9)

structure Verdict (bin : Bytes) (p f : Nat) (n : Int) (d : MyDecimal) (err : Option Err) : Prop where
  accepted : err = none ↔ Accepted bin p f
  size : err = none → n = (totalWidth (binCells p f) : Nat)
  /-- What is accepted is in normal form and written back as it was read exactly when the first and the last cell
  hold no more digits than they stand for. -/
  kept : err = none →
    (Kept bin p f d ↔ leadingCell bin p f < 10 ^ ((p - f) % 9) ∧ trailingCell bin p f < 10 ^ (f % 9))
  /-- Everything else is a bad number, or has more than nine words. -/
  rejected : ∀ e, err = some e → e = .errBadNumber ∨ e = .errTruncated ∧ 9 < wordsFor (p - f) + wordsFor f

theorem verdict_of_error {bin : Bytes} {p f : Nat} {n : Int} {d : MyDecimal} {e : Err} (hnot : ¬ Accepted bin p f)
    (he : e = .errBadNumber ∨ e = .errTruncated ∧ 9 < wordsFor (p - f) + wordsFor f) : Verdict bin p f n d (some e) :=
  ⟨⟨nofun, fun h => absurd h hnot⟩, nofun, nofun, fun _ he' => Option.some.inj he' ▸ he⟩

theorem verdict_of_room {dst : MyDecimal} (hdst : dst.wordBuf.InRange) {bin : Bytes} {p f : Nat} (hne : bin ≠ [])
    (hp : 0 < p) (hfp : f ≤ p) (h9 : wordsFor (p - f) + wordsFor f ≤ 9) :
    ∃ n d err, fromBin dst bin p f = .ok (n, d, err) ∧ Verdict bin p f n d err := by
  have hroom : (p - f + 8) / 9 + (f + 8) / 9 ≤ 9 := by
    rw [wordsFor_eq, wordsFor_eq] at h9
    exact h9
  obtain ⟨hnot, hbad⟩ | ⟨hpass, d, hd, hlead⟩ := fromBin_cases dst hne hp hfp hroom
  · exact ⟨_, _, _, hbad, verdict_of_error (fun h => hnot h.2.2.2) (.inl rfl)⟩
  · refine ⟨_, d, none, hd, ⟨fun _ => ⟨hne, hfp, h9, hpass⟩, fun _ => rfl⟩, fun _ => rfl, fun _ => ?_, nofun⟩
    constructor
    · exact fun hkept => ⟨hlead hkept, hkept.trailing_lt⟩
    · rintro ⟨hleadLt, htrail⟩
      obtain ⟨d', hd', hkept⟩ := fromBin_fits hdst hne hp hfp hroom ⟨hleadLt, hpass.words, htrail⟩
      cases hd.symm.trans hd'
      exact hkept

end Tidb.Types
