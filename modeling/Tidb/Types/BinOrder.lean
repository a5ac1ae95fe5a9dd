import Tidb.Types.BinRoundTrip
import Tidb.Types.DecimalCompare

/-!
# `WriteBin`, `FromBin` and `Compare` together

What is written without an error is read back as a decimal with the same value, unless the precision and
the scale have more words than a decimal, and is ordered like the decimals.
-/

namespace Tidb.Types

open GoLang ByteNum List Outcome

section Written

variable {d : MyDecimal} (h : d.WellFormed) {p f : Nat} (hp : 0 < p) (hp81 : p ≤ 81) (hf : f ≤ 30) (hfp : f ≤ p)
  {buf spare out : Bytes} (hw : writeBin d p f buf spare = .ok (out, none))

include h hp hp81 hf hfp hw

theorem fitsIn_of_writeBin : d.FitsIn p f := by
  obtain ⟨k, n, x, ws, hrlz, hiw, hwslen, hx, -⟩ := removeLeadingZeros_spec h
  have hlt := intWords_lt_of_leadingZeros h hiw hwslen hx
  obtain ⟨F, hF⟩ := Int.eq_ofNat_of_zero_le h.digitsFrac_nonneg
  -- the digits in front of the point are counted, and those of a zero are none
  have hn : n ≤ p - f := by
    have hrun := hw
    rw [writeBin, if_neg (by rw [digitsPerWord, maxWordBufLen, maxDecimalScale]; omega), hF] at hrun
    simp only [bind_eq_ok, hrlz, ok.injEq, Prod.mk.injEq, pure_eq,
      tdiv_digitsPerWord, sub_div_digitsPerWord, dig2bytes_natCast (show F % 9 < 10 by omega)] at hrun
    obtain ⟨_, -, _, -, _, rfl, _, -, _, rfl, _, -, _, -, _, -, -, herr⟩ := hrun
    simp only [decide_eq_true_eq] at herr
    split at herr
    · cases herr
    · split at herr
      · rename_i hzero
        rw [wordSize] at hzero
        omega
      · split at herr
        · cases herr
        · omega
  have hfit : ofWords d.intWords < 10 ^ (p - f) :=
    lt_of_lt_of_le hlt (Nat.pow_le_pow_right (by norm_num) hn)
  obtain ⟨xs, err, hx⟩ := writeBin_any h hp hp81 hf hfp hfit
  have hwrite := hx.bytes buf spare
  rw [hw, ok.injEq, Prod.mk.injEq] at hwrite
  exact h.fitsIn_of_intWords_lt hfit (hx.frac_le hwrite.2.symm)

/-- The bytes that `WriteBin` appends: `FromBin` takes as many as `DecimalBinSize` says and restores an equal decimal
unless the words are too many. -/
structure Bin (d : MyDecimal) (p f : Nat) (bin : Bytes) : Prop where
  write : ∀ buf spare, writeBin d p f buf spare = .ok (buf ++ bin, none)
  size : decimalBinSize p f = .ok (bin.length : Int)
  read : ∀ dst rest, ∃ d' err, fromBin dst (bin ++ rest) p f = .ok ((bin.length : Int), d', err) ∧
    ((p - f + 8) / 9 + (f + 8) / 9 ≤ 9 → err = none ∧ d'.compare d = .ok 0) ∧
    (9 < (p - f + 8) / 9 + (f + 8) / 9 → err = some .errTruncated)

theorem bin_of_writeBin : ∃ bin, out = buf ++ bin ∧ Bin d p f bin := by
  have hfit := fitsIn_of_writeBin h hp hp81 hf hfp hw
  obtain ⟨xs, err, hx⟩ := writeBin_any h hp hp81 hf hfp hfit.intWords_lt
  have hxs := hx.fits
  have hval := hx.value_eq
  have hwrite := hx.bytes
  have hout := hwrite buf spare
  rw [hw, ok.injEq, Prod.mk.injEq] at hout
  obtain ⟨hout, rfl⟩ := hout
  refine ⟨_, hout, hwrite, ?_, fun dst rest => ?_⟩
  · rw [decimalBinSize_of_le hfp, ← totalWidth_binCells, length_writeSigned hxs]
  · by_cases hwords : (p - f + 8) / 9 + (f + 8) / 9 ≤ 9
    · obtain ⟨d', hread, hvalue, hsound⟩ := fromBin_writeSigned hxs hp hfp hp81 hwords d.negative dst
      have heq : d'.toRat = d.toRat := by rw [hvalue, hval, ← MyDecimal.scaled, hfit.signed_scaled]
      have hd' : d'.Sound := hsound fun hneg => by
        rw [heq]
        exact (h.sound.toRat_neg hneg).ne
      refine ⟨d', none, hread rest, fun _ => ⟨rfl, ?_⟩, fun hlt => absurd hlt (by omega)⟩
      rw [compare_spec hd' h.sound, heq, compare_eq_iff_eq.mpr rfl]
      rfl
    · obtain ⟨d', hread⟩ := fromBin_truncated hxs hp hfp hp81 (by omega) d.negative dst rest
      exact ⟨d', _, hread, fun hle => absurd hle hwords, fun _ => rfl⟩

end Written

/-- The bytes do not depend on the buffer and are ordered as the decimals. -/
theorem writeBin_fromBin_compare {a b : MyDecimal} (ha : a.WellFormed) (hb : b.WellFormed) {p f : Nat}
    (hp : 0 < p) (hp81 : p ≤ 81) (hf : f ≤ 30) (hfp : f ≤ p) {bufA spareA outA bufB spareB outB : Bytes}
    (hwa : writeBin a p f bufA spareA = .ok (outA, none)) (hwb : writeBin b p f bufB spareB = .ok (outB, none)) :
    ∃ binA binB, outA = bufA ++ binA ∧ outB = bufB ++ binB ∧ Bin a p f binA ∧ Bin b p f binB ∧
      a.compare b = .ok (orderSign (compare binA binB)) := by
  have hfitA := fitsIn_of_writeBin ha hp hp81 hf hfp hwa
  have hfitB := fitsIn_of_writeBin hb hp hp81 hf hfp hwb
  obtain ⟨binA, houtA, hbinA⟩ := bin_of_writeBin ha hp hp81 hf hfp hwa
  obtain ⟨binB, houtB, hbinB⟩ := bin_of_writeBin hb hp hp81 hf hfp hwb
  refine ⟨binA, binB, houtA, houtB, hbinA, hbinB, ?_⟩
  obtain ⟨bd, be, errd, erre, hd, he, -, hcomp⟩ := writeBin_order hp hp81 hf hfp hfitA hfitB [] [] [] []
  have hA := hbinA.write [] []
  have hB := hbinB.write [] []
  rw [hd, ok.injEq, Prod.mk.injEq, nil_append, nil_append] at hA
  rw [he, ok.injEq, Prod.mk.injEq, nil_append, nil_append] at hB
  rw [compare_spec ha.sound hb.sound, ← hcomp, hA.1, hB.1]

def thirtyOnes : MyDecimal :=
  ⟨0, 30, 30, false, ⟨[111111111, 111111111, 111111111, 111000000, 0, 0, 0, 0, 0], rfl⟩⟩

theorem thirtyOnes_wellFormed : thirtyOnes.WellFormed :=
  ⟨by decide, by decide, by decide, by decide, fun h => absurd h (by decide), fun _ => by decide, by decide⟩

theorem writeBin_fromBin_compare_thirtyOnes : ∃ bin, writeBin thirtyOnes 30 30 [] [] = .ok (bin, none) ∧
    Bin thirtyOnes 30 30 bin ∧ thirtyOnes.compare thirtyOnes = .ok (orderSign (compare bin bin)) := by
  obtain ⟨out, hout⟩ : ∃ out, writeBin thirtyOnes 30 30 [] [] = .ok (out, none) := ⟨_, rfl⟩
  obtain ⟨binA, binB, rfl, rfl, hbin, -, hcomp⟩ := @writeBin_fromBin_compare thirtyOnes thirtyOnes
    thirtyOnes_wellFormed thirtyOnes_wellFormed 30 30 (by decide) (by decide) (by decide) (by decide) [] [] out
    [] [] out hout hout
  exact ⟨_, hout, hbin, hcomp⟩

/-- The words of `DECIMAL(81, 30)` are one too many: what is written without an error is not read back. -/
theorem fromBin_cuts_off :
    (do
      let (bin, err) ← writeBin thirtyOnes 81 30 [] []
      let (n, d, err') ← fromBin zeroMyDecimal bin 81 30
      let cmp ← d.compare thirtyOnes
      return (err, n, err', cmp)) = .ok (none, 37, some .errTruncated, -1) := by
  decide +kernel

end Tidb.Types
