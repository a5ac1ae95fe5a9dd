import Tidb.Types.FromBin

/-!
# `FromBin` reads what `WriteBin` writes

Reading the cells of a precision and a scale gives a decimal with the same value.  The words that
come out are not the ones that went in: zero words in front are dropped, and the digits after the last
full word are moved to the front of a word of their own.
-/

namespace Tidb.Types

open GoLang ByteNum Outcome
open List hiding span

/-! ## The words of the cells -/

theorem ofWords_concat (ws : List Nat) (w : Nat) : ofWords (ws ++ [w]) = ofWords ws * 10 ^ 9 + w := by
  rw [ofWords_append, ofWords_cons]
  simp

theorem ofWords_dropWhile (ws : List Nat) : ofWords (ws.dropWhile (· == 0)) = ofWords ws := by
  induction ws with
  | nil => rfl
  | cons w ws ih =>
    rw [dropWhile_cons]
    split
    · rename_i hw
      rw [ih, ofWords_cons, beq_iff_eq.mp hw, Nat.zero_mul, Nat.zero_add]
    · rfl

theorem exists_append_of_fits {cs ds : List Cell} {xs : List Nat} (h : Fits (cs ++ ds) xs) :
    ∃ ys zs, xs = ys ++ zs ∧ Fits cs ys ∧ Fits ds zs := by
  induction cs generalizing xs with
  | nil => exact ⟨[], xs, rfl, trivial, h⟩
  | cons c cs ih =>
    obtain ⟨x, t, rfl, hx, ht⟩ := fits_cons_iff.mp h
    obtain ⟨ys, zs, rfl, hys, hzs⟩ := ih ht
    exact ⟨x :: ys, zs, rfl, ⟨hx, hys⟩, hzs⟩

theorem fits_words_iff {n : Nat} {ws : List Nat} (hlen : ws.length = n) :
    Fits (replicate n wordCell) ws ↔ ∀ w ∈ ws, w < 10 ^ 9 := by
  subst hlen
  induction ws with
  | nil => simp [Fits]
  | cons w ws ih =>
    rw [length_cons, replicate_succ, Fits, ih, forall_mem_cons]
    rfl

theorem readCells_words (b : Bytes) (off n : Nat) :
    readCells (replicate n wordCell) (b.drop off) = wordsAt b off n := by
  induction n generalizing off with
  | zero => rfl
  | succ n ih =>
    rw [replicate_succ, readCells, wordCell_width, drop_drop, ih, wordsAt, wordsAt, range_succ_eq_map,
      map_cons, map_map]
    congr 1
    exact map_congr_left fun j _ => congrArg (numAt b · 4) (by omega)

theorem wordsAt_lt_iff {b : Bytes} {off n : Nat} :
    (∀ w ∈ wordsAt b off n, w < 10 ^ 9) ↔ GoodWords b off n := by
  simp [wordsAt, GoodWords]

theorem lt_leadingLimit {l x : Nat} (hl : 0 < l) (hx : x < 10 ^ l) : x < leadingLimit l := by
  have hroom : 2 * 10 ^ l ≤ 256 ^ digWidth l := by
    rcases (digitCell l).room with ⟨hw, -⟩ | h
    · have hpos := digWidth_pos hl
      change digWidth l = 0 at hw
      omega
    · exact h
  have hpow := pow_eq_two_mul (digWidth_pos hl)
  rw [leadingLimit]
  omega

theorem pow_split {t : Nat} (ht : t ≤ 9) : (10 : Nat) ^ 9 = 10 ^ t * 10 ^ (9 - t) := by
  rw [← pow_add, Nat.add_sub_cancel' ht]

theorem trailing_lt {t y : Nat} (ht : t ≤ 9) (hy : y < 10 ^ t) : y * 10 ^ (9 - t) < 10 ^ 9 := by
  rw [pow_split ht]
  exact Nat.mul_lt_mul_of_pos_right hy (by positivity)

theorem trailingWord_of_lt {t y : Nat} (ht : 0 < t) (ht8 : t ≤ 8) (hy : y < 10 ^ t) :
    trailingWord t y = (y * 10 ^ (9 - t) : Nat) := by
  have hroom : y < 128 * 256 ^ (digWidth t - 1) := lt_of_lt_of_le (lt_leadingLimit ht hy) (min_le_left _ _)
  rw [trailingWord, pow_eq_two_mul (digWidth_pos ht), bmod_two_mul (by omega), if_pos hroom]
  exact bmod_of_good (trailing_lt (by omega) hy)

section Parts

variable {b : Bytes} {p f : Nat}

def intPart (b : Bytes) (p f : Nat) : List Nat := intsAt b ((p - f) % 9) ((p - f) / 9)

def fracPart (b : Bytes) (p f : Nat) : List Nat :=
  fracsAt b (digWidth ((p - f) % 9) + 4 * ((p - f) / 9)) (f / 9) (f % 9)

/-- Every cell holds no more digits than it stands for. -/
structure CellsFit (b : Bytes) (p f : Nat) : Prop where
  lead_lt : numAt b 0 (digWidth ((p - f) % 9)) < 10 ^ ((p - f) % 9)
  words_lt : GoodWords b (digWidth ((p - f) % 9)) ((p - f) / 9 + f / 9)
  trail_lt : numAt b (digWidth ((p - f) % 9) + 4 * ((p - f) / 9 + f / 9)) (digWidth (f % 9)) < 10 ^ (f % 9)

theorem length_intPart : (intPart b p f).length = (p - f + 8) / 9 := by
  rw [intPart, intsAt, length_append, length_leadAt, length_wordsAt]
  split <;> omega

theorem length_fracPart : (fracPart b p f).length = (f + 8) / 9 := by
  rw [fracPart, fracsAt, length_append, length_wordsAt]
  split
  · rw [length_nil]
    omega
  · rw [length_singleton]
    omega

theorem readCells_binCells : readCells (binCells p f) b =
    (numAt b 0 (digWidth ((p - f) % 9)) :: wordsAt b (digWidth ((p - f) % 9)) ((p - f) / 9)) ++
      (wordsAt b (digWidth ((p - f) % 9) + 4 * ((p - f) / 9)) (f / 9) ++
        [numAt b (digWidth ((p - f) % 9) + 4 * ((p - f) / 9 + f / 9)) (digWidth (f % 9))]) := by
  have hint : totalWidth (intCells (p - f)) = digWidth ((p - f) % 9) + 4 * ((p - f) / 9) := by
    rw [totalWidth_intCells, digitBytes, Nat.add_comm]
  rw [binCells, readCells_append, hint, intCells, readCells, fracCells, readCells_append,
    totalWidth_replicate_wordCell, readCells_words, drop_drop, Nat.add_assoc, ← Nat.mul_add]
  congr 2
  exact readCells_words b _ _

theorem fits_iff : Fits (binCells p f) (readCells (binCells p f) b) ↔ CellsFit b p f := by
  rw [readCells_binCells, binCells, fits_append_iff (by simp [intCells]), intCells, Fits, fracCells,
    fits_append_iff (by simp), fits_words_iff (length_wordsAt ..), fits_words_iff (length_wordsAt ..),
    wordsAt_lt_iff, wordsAt_lt_iff]
  constructor
  · rintro ⟨⟨hlead, hint⟩, hfrac, htrail, -⟩
    exact ⟨hlead, goodWords_add.mpr ⟨hint, hfrac⟩, htrail⟩
  · rintro ⟨hlead, hwords, htrail⟩
    obtain ⟨hint, hfrac⟩ := goodWords_add.mp hwords
    exact ⟨⟨hlead, hint⟩, hfrac, htrail, trivial⟩

theorem cellsFit_writeCells {xs : List Nat} (h : Fits (binCells p f) xs) :
    CellsFit (writeCells (binCells p f) xs) p f := by
  rw [← fits_iff, readCells_writeCells h]
  exact h

namespace CellsFit

variable (h : CellsFit b p f)

include h

theorem passes {n t : Nat} (hn : n ≤ (p - f) / 9 + f / 9) (ht : 0 < t → n = (p - f) / 9 + f / 9 ∧ t = f % 9) :
    Passes b ((p - f) % 9) n t := by
  refine ⟨fun hl => lt_leadingLimit hl h.lead_lt, fun j hj => h.words_lt j (by omega), fun hpos => ?_⟩
  obtain ⟨rfl, rfl⟩ := ht hpos
  have hlt := trailing_lt (by omega) h.trail_lt
  rw [trailingWord_of_lt hpos (by omega) h.trail_lt, badWord, wordMax]
  omega

theorem fracPart_eq : fracPart b p f = wordsAt b (digWidth ((p - f) % 9) + 4 * ((p - f) / 9)) (f / 9) ++
    if f % 9 = 0 then [] else
      [numAt b (digWidth ((p - f) % 9) + 4 * ((p - f) / 9 + f / 9)) (digWidth (f % 9)) * 10 ^ (9 - f % 9)] := by
  rw [fracPart, fracsAt, Nat.add_assoc, ← Nat.mul_add]
  split
  · rfl
  · rw [trailingWord_of_lt (by omega) (by omega) h.trail_lt, Int.toNat_natCast]

theorem intPart_lt {w : Nat} (hw : w ∈ intPart b p f) : w < 10 ^ 9 := by
  rw [intPart, intsAt, mem_append, leadAt] at hw
  rcases hw with hw | hw
  · split at hw
    · exact absurd hw not_mem_nil
    · rw [mem_singleton.mp hw]
      exact h.lead_lt.trans_le (Nat.pow_le_pow_right (by norm_num) (by omega))
  · exact wordsAt_lt_iff.mpr (goodWords_add.mp h.words_lt).1 w hw

theorem fracPart_lt {w : Nat} (hw : w ∈ fracPart b p f) : w < 10 ^ 9 := by
  rw [h.fracPart_eq, mem_append] at hw
  rcases hw with hw | hw
  · exact wordsAt_lt_iff.mpr (goodWords_add.mp h.words_lt).2 w hw
  · split at hw
    · exact absurd hw not_mem_nil
    · rw [mem_singleton.mp hw]
      exact trailing_lt (by omega) h.trail_lt

theorem value_int : value (intCells (p - f)) (numAt b 0 (digWidth ((p - f) % 9)) ::
    wordsAt b (digWidth ((p - f) % 9)) ((p - f) / 9)) = ofWords (intPart b p f) := by
  have hlen := length_wordsAt b (digWidth ((p - f) % 9)) ((p - f) / 9)
  rw [intCells, value, span_replicate_wordCell, intPart, intsAt, ofWords_append, hlen]
  congr 1
  · rw [leadAt]
    split
    · rename_i h0
      have hlt := h.lead_lt
      rw [h0, pow_zero, Nat.lt_one_iff] at hlt
      rw [h0, hlt]
      rfl
    · simp [ofWords_cons]
  · rw [ofWords, hlen]

/-- The words have the value of the cells. -/
theorem value_words : (ofWords (intPart b p f) * 10 ^ (9 * ((f + 8) / 9)) + ofWords (fracPart b p f)) * 10 ^ f =
    10 ^ (9 * ((f + 8) / 9)) * value (binCells p f) (readCells (binCells p f) b) := by
  have hfits := fits_iff.mpr h
  rw [readCells_binCells, binCells, fits_append_iff (by simp [intCells]), fracCells, fits_append_iff (by simp)] at hfits
  have hlen := length_wordsAt b (digWidth ((p - f) % 9) + 4 * ((p - f) / 9)) (f / 9)
  have hfracs : value (replicate (f / 9) wordCell) (wordsAt b (digWidth ((p - f) % 9) + 4 * ((p - f) / 9)) (f / 9)) =
      ofWords (wordsAt b (digWidth ((p - f) % 9) + 4 * ((p - f) / 9)) (f / 9)) := by
    rw [ofWords, hlen]
  rw [readCells_binCells, binCells, value_append hfits.1, h.value_int, span_fracCells, fracCells,
    value_append hfits.2.1, hfracs, h.fracPart_eq]
  simp only [value, span, Nat.mul_one, Nat.add_zero]
  change _ = _ * (_ + (_ * 10 ^ (f % 9) + _))
  split
  · rename_i h0
    have hlt := h.trail_lt
    rw [h0, pow_zero, Nat.lt_one_iff] at hlt
    rw [h0, hlt, append_nil, show 9 * ((f + 8) / 9) = f by omega]
    ring
  · rw [ofWords_concat, show 9 * ((f + 8) / 9) = f + (9 - f % 9) by omega, @pow_split (f % 9) (by omega)]
    ring

end CellsFit

/-! ## Reading the cells -/

/-- The integer words that are kept, those of the cells without the zeros in front, and the number of their digits. -/
structure IntKept (b : Bytes) (p f : Nat) (ks : List Nat) (digits : Nat) : Prop where
  words : ks = (intPart b p f).dropWhile (· == 0)
  digits : digits = min (p - f) (9 * ks.length)

namespace IntKept

variable {ks : List Nat} {digits : Nat} (h : IntKept b p f ks digits)

include h

theorem sublist : ks.Sublist (intPart b p f) := h.words ▸ dropWhile_sublist _

theorem length_le : ks.length ≤ (p - f + 8) / 9 := h.sublist.length_le.trans_eq length_intPart

theorem ofWords_eq : ofWords ks = ofWords (intPart b p f) := by rw [h.words, ofWords_dropWhile]

theorem length_eq : (digits + 8) / 9 = ks.length := by
  have hle := h.length_le
  rw [h.digits]
  omega

end IntKept

theorem readDigits_fits {bin : Bytes} {m : Bool} (h : CellsFit (mask m bin) p f)
    (hlen : bin.length = totalWidth (binCells p f)) (hroom : (p - f + 8) / 9 + (f + 8) / 9 ≤ 9) (words : WordBuf) :
    ∃ r ks digits, readDigits bin m ((p - f) % 9 : Nat) ((p - f) / 9 : Nat) (f / 9 : Nat) (f % 9 : Nat)
        ⟨words, 0, (p - f : Nat), 0⟩ = .ok r ∧ r.digitsInt = (digits : Nat) ∧
      IntKept (mask m bin) p f ks digits ∧ Buffered (ks ++ fracPart (mask m bin) p f) r.words := by
  rw [totalWidth_binCells, digitBytes, digitBytes] at hlen
  obtain ⟨hnot, -⟩ | ⟨-, r, hread, hdigits, hbuf⟩ := @readDigits_cases bin m ((p - f) % 9) ((p - f) / 9) (f / 9)
    (f % 9) words _ (Nat.div_add_mod _ _) (by omega) (by omega) (by split <;> split <;> omega) (by omega)
  · exact absurd (h.passes le_rfl fun _ => ⟨rfl, rfl⟩) hnot
  · rw [Nat.div_add_mod] at hdigits
    exact ⟨r, _, _, hread, hdigits, ⟨rfl, rfl⟩, hbuf⟩

theorem readDigits_cut {bin : Bytes} {m : Bool} (h : CellsFit (mask m bin) p f)
    (hlen : bin.length = totalWidth (binCells p f)) {F : Nat} (hF : F ≤ f / 9) (hroom : (p - f + 8) / 9 + F ≤ 9)
    (words : WordBuf) :
    ∃ r, readDigits bin m ((p - f) % 9 : Nat) ((p - f) / 9 : Nat) F 0 ⟨words, 0, (p - f : Nat), 0⟩ = .ok r := by
  rw [totalWidth_binCells, digitBytes, digitBytes] at hlen
  obtain ⟨hnot, -⟩ | ⟨-, r, hread, -⟩ := @readDigits_cases bin m ((p - f) % 9) ((p - f) / 9) F 0 words _
    (Nat.div_add_mod _ _) (by omega) (by omega) (by rw [if_neg (lt_irrefl 0)]; split <;> omega)
    (by rw [show digWidth 0 = 0 from rfl]; omega)
  · exact absurd (h.passes (by omega) fun h0 => absurd h0 (lt_irrefl 0)) hnot
  · exact ⟨r, hread⟩

end Parts

section FromBin

variable {p f : Nat} {xs : List Nat}

theorem digitsToWords_natCast (n : Nat) : (digitsToWords n).toNat = (n + 8) / 9 := by
  rw [digitsToWords, digitsPerWord, Int.tdiv_eq_ediv_of_nonneg (by omega)]
  omega

structure MyDecimal.Holds (d : MyDecimal) (ks fw : List Nat) : Prop where
  wordsInt : d.wordsInt = ks.length
  wordsFrac : d.wordsFrac = fw.length
  buffered : Buffered (ks ++ fw) d.wordBuf

section Holds

variable {ks fw : List Nat} {d : MyDecimal} {resultFrac : Int} {m : Bool} {words : WordBuf}

theorem holds_of_buffered {digits : Nat} (hbuf : Buffered (ks ++ fw) words) (hk : (digits + 8) / 9 = ks.length)
    (hf : (f + 8) / 9 = fw.length) : (⟨digits, f, resultFrac, m, words⟩ : MyDecimal).Holds ks fw :=
  ⟨(digitsToWords_natCast digits).trans hk, (digitsToWords_natCast f).trans hf, hbuf⟩

namespace MyDecimal.Holds

variable (h : d.Holds ks fw)

include h

theorem words_eq : ∃ post, d.words = ks ++ (fw ++ post) := by
  obtain ⟨post, hpost⟩ := h.buffered
  refine ⟨post.map Int.toNat, ?_⟩
  rw [MyDecimal.words, hpost, map_append, map_map, ← append_assoc]
  congr 1
  exact map_id'' Int.toNat_natCast _

theorem intWords : d.intWords = ks := by
  obtain ⟨post, hpost⟩ := h.words_eq
  rw [MyDecimal.intWords, hpost, h.wordsInt, take_left]

theorem digits : d.digits = ofWords ks * 10 ^ (9 * fw.length) + ofWords fw := by
  obtain ⟨post, hpost⟩ := h.words_eq
  rw [MyDecimal.digits, h.intWords, MyDecimal.fracWords, hpost, h.wordsInt, h.wordsFrac, drop_left, take_left,
    ofWords_append]

theorem toRat : d.toRat = (if d.negative then -1 else 1) * (ofWords ks + ofWords fw / 10 ^ (9 * fw.length) : ℚ) := by
  rw [MyDecimal.toRat, h.digits, h.wordsFrac]
  cases d.negative
  · push_cast
    field_simp
  · simp only [if_true]
    push_cast
    field_simp

theorem sound (hint : 0 ≤ d.digitsInt) (hfrac : 0 ≤ d.digitsFrac) (hroom : ks.length + fw.length ≤ 9)
    (hlt : ∀ w ∈ ks ++ fw, w < 10 ^ 9) (hneg : d.negative = true → d.toRat ≠ 0) : d.Sound := by
  refine ⟨hint, hfrac, by rw [h.wordsInt, h.wordsFrac]; exact hroom, ?_, fun hm hzero => ?_⟩
  · obtain ⟨post, hpost⟩ := h.buffered
    rw [h.wordsInt, h.wordsFrac, ← length_append, hpost, take_left' (by rw [length_map])]
    intro w hw
    obtain ⟨v, hv, rfl⟩ := mem_map.mp hw
    have := hlt v hv
    rw [wordMax]
    omega
  · apply hneg hm
    rw [MyDecimal.toRat, hzero]
    simp

end MyDecimal.Holds

end Holds

theorem sound_zeroMyDecimal (resultFrac : Int) : ({ zeroMyDecimal with resultFrac := resultFrac } : MyDecimal).Sound :=
  ⟨le_rfl, le_rfl, Nat.zero_le _, fun _ hw => absurd hw not_mem_nil, fun h => absurd h Bool.false_ne_true⟩

theorem uint8_and_top (b : UInt8) : b &&& 0x80 = 0 ↔ b.toNat < 128 := by
  have hnat : ∀ n < 256, (n &&& 128 = 0 ↔ n < 128) := by decide +kernel
  rw [← UInt8.toNat_inj]
  exact hnat b.toNat b.toNat_lt

theorem head_writeSigned {cs : List Cell} (h : Fits cs xs) (hpos : 0 < totalWidth cs) (neg : Bool) :
    ∃ first t, writeSigned neg cs xs = first :: t ∧ decide (first &&& 0x80 = 0) = neg := by
  have htop := uint8_and_top
  obtain ⟨b, t, hb, hlt⟩ := writeCells_ne_nil h hpos
  have hxor := uint8_toNat_xor_top
  cases neg with
  | false =>
    refine ⟨b ^^^ 0x80, t, by simp [writeSigned, mask, hb, flipTop], ?_⟩
    rw [decide_eq_false_iff_not, htop, hxor, if_pos hlt]
    omega
  | true =>
    refine ⟨~~~b ^^^ 0x80, t.map (~~~ ·), by simp [writeSigned, mask, hb, flipTop], ?_⟩
    rw [decide_eq_true_iff, htop, hxor, uint8_toNat_compl, if_neg (by omega)]
    omega

theorem digitBytes_le (n : Nat) : digitBytes n ≤ 4 * ((n + 8) / 9) := by
  have hle : digWidth (n % 9) ≤ 4 := digWidth_le (by omega)
  have hzero : n % 9 = 0 → digWidth (n % 9) = 0 := fun h => by rw [h]; rfl
  rw [digitBytes]
  by_cases h : n % 9 = 0
  · omega
  · omega

theorem length_writeSigned {cs : List Cell} (h : Fits cs xs) (neg : Bool) :
    (writeSigned neg cs xs).length = totalWidth cs := by
  rw [writeSigned, length_flipTop, length_mask, length_writeCells h]

theorem mask_mask (m : Bool) (b : Bytes) : mask m (mask m b) = b := by
  cases m
  · rfl
  · exact compl_map_compl b

theorem toRat_zeroMyDecimal (resultFrac : Int) :
    ({ zeroMyDecimal with resultFrac := resultFrac } : MyDecimal).toRat = 0 := by
  have hdigits : ({ zeroMyDecimal with resultFrac := resultFrac } : MyDecimal).digits = 0 := rfl
  rw [MyDecimal.toRat, hdigits]
  simp

theorem wordsFor_eq (n : Nat) : wordsFor n = (n + 8) / 9 := by
  rw [wordsFor]
  split <;> omega

theorem totalWidth_binCells_le (hfp : f ≤ p) (h81 : p ≤ 81) : totalWidth (binCells p f) ≤ 40 := by
  have h1 := digitBytes_le (p - f)
  have h2 := digitBytes_le f
  rw [totalWidth_binCells]
  omega

theorem fromBin_eq_readBin {con : Bytes} (hlen : con.length = totalWidth (binCells p f))
    (hfp : f ≤ p) (h40 : con.length ≤ 40) {neg : Bool} {first : UInt8} {t : Bytes} (hcon : con = first :: t)
    (hneg : decide (first &&& 0x80 = 0) = neg) (dst : MyDecimal) (rest : Bytes) :
    fromBin dst (con ++ rest) p f = readBin dst (con ++ rest) (con.length : Int) p f neg := by
  have hsize := decimalBinSize_of_le hfp
  rw [← totalWidth_binCells, ← hlen] at hsize
  subst hcon
  rw [cons_append, fromBin]
  simp only [hneg]
  rw [hsize]
  simp only
  rw [if_neg (by omega)]

theorem mask_flipTop_writeSigned (neg : Bool) (cs : List Cell) (xs : List Nat) :
    mask neg (flipTop (writeSigned neg cs xs)) = writeCells cs xs := by
  rw [writeSigned, flipTop_flipTop, mask_mask]

theorem fromBin_eq_binResult {con : Bytes} (hlen : con.length = totalWidth (binCells p f)) (hp : 0 < p) (hfp : f ≤ p)
    (h81 : p ≤ 81) (hwords : (p - f + 8) / 9 + (f + 8) / 9 ≤ 9) {neg : Bool} {first : UInt8} {t : Bytes}
    (hcon : con = first :: t) (hneg : decide (first &&& 0x80 = 0) = neg) (dst : MyDecimal) (rest : Bytes) :
    fromBin dst (con ++ rest) p f = binResult con.length f (f : Nat) neg none
        (readDigits (flipTop con) neg ((p - f) % 9 : Nat) ((p - f) / 9 : Nat)
          (f / 9 : Nat) (f % 9 : Nat) ⟨dst.wordBuf, 0, (p - f : Nat), 0⟩) := by
  have hpos := @totalWidth_binCells_pos p f hp
  have hfit := @fitWords_regular (digWidth ((p - f) % 9)) ((p - f) / 9 : Nat) (f / 9 : Nat)
    (f % 9 : Nat) (wordsFor (p - f)) (wordsFor f) (by rw [wordsFor_eq, wordsFor_eq]; omega)
  have hfrac : int8 (((f / 9 : Nat) : Int) * digitsPerWord + ((f % 9 : Nat) : Int)) = (f : Nat) := by
    rw [digitsPerWord, show ((f / 9 : Nat) : Int) * 9 + ((f % 9 : Nat) : Int) = (f : Nat) by omega]
    exact int8_natCast (by omega)
  rw [fromBin_eq_readBin hlen hfp (hlen.trans_le (totalWidth_binCells_le hfp h81)) hcon hneg,
    readBin_of_le hfp (by omega) (by simp) hfit, int8_natCast (by omega)]
  simp only [hfrac, Int.toNat_zero, take_left]

theorem fromBin_writeSigned (h : Fits (binCells p f) xs) (hp : 0 < p) (hfp : f ≤ p) (h81 : p ≤ 81)
    (hwords : (p - f + 8) / 9 + (f + 8) / 9 ≤ 9) (neg : Bool) (dst : MyDecimal) :
    ∃ d, (∀ rest, fromBin dst (writeSigned neg (binCells p f) xs ++ rest) p f =
        .ok (((writeSigned neg (binCells p f) xs).length : Int), d, none)) ∧
      d.toRat = (if neg then -1 else 1) * (value (binCells p f) xs / 10 ^ f : ℚ) ∧
      ((neg = true → d.toRat ≠ 0) → d.Sound) := by
  have hmask := mask_flipTop_writeSigned neg (binCells p f) xs
  have hcells := cellsFit_writeCells h
  have hvalue := hcells.value_words
  rw [readCells_writeCells h] at hvalue
  rw [← hmask] at hcells hvalue
  obtain ⟨r, ks, digits, hread, hdigits, hkept, hbuf⟩ := readDigits_fits hcells
    (by rw [length_flipTop, length_writeSigned h]) hwords dst.wordBuf
  obtain ⟨first, t, hhead, hsign⟩ := head_writeSigned h (totalWidth_binCells_pos hp) neg
  have hresult := fromBin_eq_binResult (length_writeSigned h neg) hp hfp h81 hwords hhead hsign dst
  rw [hread] at hresult
  simp only [hresult, binResult, hdigits]
  generalize mask neg (flipTop (writeSigned neg (binCells p f) xs)) = b at *
  have hfrac := @length_fracPart b p f
  have hsum := hkept.length_eq
  have hle := hkept.length_le
  -- the value of the cells is that of the words
  have hrat : (value (binCells p f) xs : ℚ) / 10 ^ f =
      ofWords ks + ofWords (fracPart b p f) / 10 ^ (9 * (fracPart b p f).length) := by
    rw [← hkept.ofWords_eq, Nat.mul_comm _ (10 ^ f), Nat.mul_comm _ (value _ _)] at hvalue
    rw [hfrac]
    field_simp
    exact_mod_cast hvalue.symm
  by_cases hzero : ((digits : Nat) : Int) = 0 ∧ ((f : Nat) : Int) = 0
  · simp only [hzero]
    refine ⟨_, fun _ => rfl, ?_, fun _ => sound_zeroMyDecimal _⟩
    obtain rfl : ks = [] := length_eq_zero_iff.mp (by omega)
    have hnil : fracPart b p f = [] := length_eq_zero_iff.mp (by omega)
    rw [toRat_zeroMyDecimal, hrat, hnil]
    simp
  · simp only [hzero]
    have hlt : ∀ w ∈ ks ++ fracPart b p f, w < 10 ^ 9 := by
      intro w hw
      rcases mem_append.mp hw with hw | hw
      · exact hcells.intPart_lt (hkept.sublist.subset hw)
      · exact hcells.fracPart_lt hw
    refine ⟨_, fun _ => rfl, ?_, fun hneg => ?_⟩
    · rw [(holds_of_buffered hbuf hsum hfrac.symm).toRat, hrat]
    · exact (holds_of_buffered hbuf hsum hfrac.symm).sound (Int.natCast_nonneg _) (Int.natCast_nonneg _) (by omega) hlt
        hneg

/-- Reading the cells of a precision and a scale that have more words than a decimal: the last words of
the fraction are left out. -/
theorem fromBin_truncated (h : Fits (binCells p f) xs) (hp : 0 < p) (hfp : f ≤ p) (h81 : p ≤ 81)
    (hwords : 9 < (p - f + 8) / 9 + (f + 8) / 9) (neg : Bool) (dst : MyDecimal) (rest : Bytes) :
    ∃ d, fromBin dst (writeSigned neg (binCells p f) xs ++ rest) p f =
      .ok (((writeSigned neg (binCells p f) xs).length : Int), d, some .errTruncated) := by
  have hpos := @totalWidth_binCells_pos p f hp
  have hlen := length_writeSigned h neg
  have hcells := cellsFit_writeCells h
  rw [← mask_flipTop_writeSigned neg] at hcells
  obtain ⟨r, hread⟩ := @readDigits_cut p f _ neg hcells (by rw [length_flipTop, hlen]) (9 - (p - f + 8) / 9) (by omega)
    (by omega) dst.wordBuf
  have hfit := @fitWords_truncated (digWidth ((p - f) % 9)) ((p - f) / 9 : Nat) (f / 9 : Nat)
    (f % 9 : Nat) (wordsFor (p - f)) (wordsFor f) (by rw [wordsFor_eq]; omega)
    (by rw [wordsFor_eq, wordsFor_eq]; omega)
  obtain ⟨first, t, hhead, hsign⟩ := head_writeSigned h hpos neg
  rw [fromBin_eq_readBin hlen hfp (hlen.trans_le (totalWidth_binCells_le hfp h81)) hhead hsign,
    readBin_of_le hfp (by omega) (by simp) hfit, int8_natCast (by omega)]
  simp only [Int.toNat_zero, take_left]
  rw [show (9 : Int) - (wordsFor (p - f) : Int) = ((9 - (p - f + 8) / 9 : Nat) : Int) by
    rw [wordsFor_eq]; omega, hread, binResult]
  split <;> exact ⟨_, rfl⟩

end FromBin

/-! ## Decimals that fit -/

theorem exists_int_iff_dvd {d : MyDecimal} {k : Nat} (hk : k ≤ 9 * d.wordsFrac) :
    (∃ m : ℤ, d.toRat * 10 ^ k = m) ↔ 10 ^ (9 * d.wordsFrac - k) ∣ d.digits := by
  have hpow : (10 : ℚ) ^ (9 * d.wordsFrac) = 10 ^ (9 * d.wordsFrac - k) * 10 ^ k := by
    rw [← pow_add, Nat.sub_add_cancel hk]
  have habs : |d.toRat * 10 ^ k| = d.digits / 10 ^ (9 * d.wordsFrac - k) := by
    rw [abs_mul, d.abs_toRat, abs_of_nonneg (by positivity), hpow]
    field_simp
  constructor
  · rintro ⟨m, hm⟩
    refine ⟨m.natAbs, ?_⟩
    rw [hm, eq_div_iff (by positivity)] at habs
    have hnat : (m.natAbs : ℚ) * 10 ^ (9 * d.wordsFrac - k) = d.digits := by rw [← habs, Nat.cast_natAbs, Int.cast_abs]
    rw [Nat.mul_comm]
    exact_mod_cast hnat.symm
  · rintro ⟨q, hq⟩
    have hval : |d.toRat * 10 ^ k| = (q : ℤ) := by
      rw [habs, hq, Nat.cast_mul, Nat.cast_pow, Nat.cast_ofNat, mul_div_cancel_left₀ _ (by positivity),
        Int.cast_natCast]
    rcases abs_choice (d.toRat * 10 ^ k) with h | h
    · exact ⟨q, by rw [← hval, h]⟩
    · refine ⟨-q, ?_⟩
      rw [Int.cast_neg, ← hval, h, neg_neg]

namespace MyDecimal.WellFormed

variable {d : MyDecimal} (h : d.WellFormed)

include h

/-- The words that are filled up with zeros make the digits a multiple of a power of ten. -/
theorem dvd_digits : 10 ^ (9 * d.wordsFrac - d.digitsFrac.toNat) ∣ d.digits := by
  have hwf := h.wordsFrac_eq
  by_cases hpos : 0 < d.digitsFrac
  · have hwords := h.words_le
    have hlen := d.length_words
    rw [maxWordBufLen] at hwords
    have hlast : d.wordsInt + d.wordsFrac - 1 < d.words.length := by omega
    have hdvd := h.trailing hpos d.words[d.wordsInt + d.wordsFrac - 1] (getElem?_eq_getElem hlast)
    have hexp : 9 * d.wordsFrac - d.digitsFrac.toNat = 8 - (d.digitsFrac.toNat - 1) % 9 := by omega
    rw [MyDecimal.digits, MyDecimal.used_eq, hexp,
      show d.wordsInt + d.wordsFrac = d.wordsInt + d.wordsFrac - 1 + 1 by omega,
      take_succ_eq_append_getElem hlast, ofWords_concat]
    exact dvd_add (Dvd.dvd.mul_left (pow_dvd_pow 10 (by omega)) _) hdvd
  · rw [hwf, show d.digitsFrac.toNat = 0 by omega]
    exact one_dvd _

theorem exists_scaled {f : Nat} (hf : d.digitsFrac ≤ f) : ∃ m : ℤ, d.toRat * 10 ^ f = m := by
  have hwf := h.wordsFrac_eq
  obtain ⟨m, hm⟩ := (exists_int_iff_dvd (by omega)).mpr h.dvd_digits
  refine ⟨m * 10 ^ (f - d.digitsFrac.toNat), ?_⟩
  push_cast
  rw [← hm, mul_assoc, ← pow_add, Nat.add_sub_cancel' (by omega)]

theorem digits_lt_of_intWords_lt {b : Nat} (hint : ofWords d.intWords < b) : d.digits < b * 10 ^ (9 * d.wordsFrac) := by
  have hfrac := ofWords_lt fun w hw => h.fracWord_lt (w := w) hw
  rw [h.length_fracWords] at hfrac
  have hle : (ofWords d.intWords + 1) * 10 ^ (9 * d.wordsFrac) ≤ b * 10 ^ (9 * d.wordsFrac) :=
    Nat.mul_le_mul_right _ hint
  rw [Nat.add_mul] at hle
  rw [MyDecimal.digits, ofWords_append, h.length_fracWords]
  omega

theorem fitsIn_of_intWords_lt {p f : Nat} (hint : ofWords d.intWords < 10 ^ (p - f))
    (hf : d.digitsFrac ≤ f) : d.FitsIn p f := by
  refine ⟨h, ?_, h.exists_scaled hf⟩
  rw [MyDecimal.abs_toRat, div_lt_iff₀ (by positivity)]
  exact_mod_cast h.digits_lt_of_intWords_lt hint

end MyDecimal.WellFormed

theorem intWords_lt_of_leadingZeros {d : MyDecimal} (hd : d.WellFormed) {k n x : Nat} {ws : List Nat}
    (hwords : d.intWords = replicate k 0 ++ (if n % 9 = 0 then ws else x :: ws))
    (hws : ws.length = n / 9) (hx : x < 10 ^ (n % 9)) : ofWords d.intWords < 10 ^ n := by
  have hws' : ofWords ws < 10 ^ (9 * (n / 9)) := by
    rw [← hws]
    refine ofWords_lt fun w hw => hd.intWord_lt ?_
    rw [hwords]
    apply mem_append_right
    split
    · exact hw
    · exact mem_cons_of_mem _ hw
  rw [hwords, ofWords_append, ofWords_replicate_zero, Nat.zero_mul, Nat.zero_add]
  split
  · rwa [show 9 * (n / 9) = n by omega] at hws'
  · rw [ofWords_cons, hws]
    have hle : (x + 1) * 10 ^ (9 * (n / 9)) ≤ 10 ^ (n % 9) * 10 ^ (9 * (n / 9)) :=
      Nat.mul_le_mul_right _ hx
    rw [← pow_add, show n % 9 + 9 * (n / 9) = n by omega, Nat.add_mul] at hle
    omega

end Tidb.Types
