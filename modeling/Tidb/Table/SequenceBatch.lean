import Tidb.Table.Sequence
import Tidb.Lib.Progression

/-!
# The batches of a sequence

A batch is a range of the counter, and its values are the members of a residue class.  A sequence that goes down is
one that goes up in the negated numbers.  `CalcSequenceBatchSize` compares the size of a batch with an `int64`
difference; where the range is longer, it is negative, and the batch is all that is left.
-/

namespace Tidb.Sequence

open GoLang Interleaving Progression Option SequenceInfo

/-! ## Seeking -/

theorem encode_eq {v : ℤ} (h : IsInt64 v) : encodeIntToCmpUint v = v + 2 ^ 63 := by
  unfold IsInt64 at h
  unfold encodeIntToCmpUint uint64
  omega

theorem decode_eq {u : ℤ} (h0 : 0 ≤ u) (h1 : u < 2 ^ 64) : decodeCmpUintToInt u = u - 2 ^ 63 := by
  unfold decodeCmpUintToInt int64
  omega

theorem enumUp_eq {uOffset uIncrement f : ℤ} {n : ℕ} {i : ℤ}
    (h : ∀ j, i ≤ j → j < i + n → (uint64 (j - uOffset) % uIncrement = 0 ↔ j = f)) : enumUp uOffset uIncrement n i =
      if i ≤ f ∧ f < i + n then some (decodeCmpUintToInt f) else none := by
  induction n generalizing i with
  | zero => rw [enumUp, if_neg (by omega)]
  | succ n ih =>
    have hi := h i le_rfl (by omega)
    rw [enumUp]
    by_cases hf : i = f
    · rw [if_pos (hi.mpr hf), if_pos ⟨hf.le, by omega⟩, hf]
    · rw [if_neg (mt hi.mp hf), ih fun j h1 h2 => h j (by omega) (by push_cast; omega)]
      have hiff : i + 1 ≤ f ∧ f < i + 1 + n ↔ i ≤ f ∧ f < i + (n + 1 : ℕ) := by omega
      simp only [hiff]

theorem enumDown_eq_enumUp (uOffset uIncrement : ℤ) (n : ℕ) (i : ℤ) : enumDown uOffset uIncrement n i =
      (enumUp (2 ^ 64 - uOffset) uIncrement n (2 ^ 64 - i)).map fun x => int64 (-x) := by
  induction n generalizing i with
  | zero => rfl
  | succ n ih =>
    rw [enumDown, enumUp, ih, show (2 ^ 64 - i - (2 ^ 64 - uOffset) : ℤ) = uOffset - i by ring,
      show (2 ^ 64 - (i - 1) : ℤ) = 2 ^ 64 - i + 1 by ring]
    split
    · simp only [map_some, some.injEq]
      unfold decodeCmpUintToInt int64
      omega
    · rfl

section Seek

variable {base increment offset min max : ℤ}

theorem seek_up (hinc : 0 < increment) (hinc' : increment ≤ 2 ^ 63) (hbase : -2 ^ 63 ≤ base)
    (hmax : max < 2 ^ 63) (hoff : -2 ^ 63 ≤ offset) (hle : offset - 1 ≤ base) :
    seekToFirstSequenceValue base increment offset min max =
      if first base increment offset ≤ max then some (first base increment offset) else none := by
  have hlo := lt_first base offset hinc
  have hhi := first_le base offset hinc
  rw [seekToFirstSequenceValue, if_pos hinc]
  by_cases hlt : max ≤ base
  · rw [if_pos hlt, if_neg (by omega)]
  rw [if_neg hlt]
  simp only [encode_eq (v := base) ⟨hbase, by omega⟩, encode_eq (v := offset) ⟨hoff, by omega⟩, encode_eq (v := max) ⟨by
    omega, hmax⟩, uint64_of_nonneg hinc.le (by unfold maxUint64; omega)]
  have hroom : uint64 (max + 2 ^ 63 - (base + 2 ^ 63)) = max - base := by
    unfold uint64
    omega
  split
  · -- fewer numbers are left than an increment, so at most one of them is in the class
    rw [@enumUp_eq _ _ (first base increment offset + 2 ^ 63) _ _ fun j h1 h2 => ?_]
    · have hiff : (base + 2 ^ 63 + 1 ≤ first base increment offset + 2 ^ 63 ∧
          first base increment offset + 2 ^ 63 < base + 2 ^ 63 + 1 +
            (max + 2 ^ 63 - (base + 2 ^ 63)).toNat) ↔ first base increment offset ≤ max := by omega
      simp only [hiff]
      split
      · rw [decode_eq (by omega) (by omega), add_sub_cancel_right]
      · rfl
    · rw [uint64_of_nonneg (by omega) (by unfold maxUint64; omega),
        show j - (offset + 2 ^ 63) = j - 2 ^ 63 - offset by ring, ← Int.dvd_iff_emod_eq_zero,
        ← Int.modEq_iff_dvd, Int.modEq_comm, modEq_iff_eq_first hinc (show base < _ by omega) (by omega)]
      omega
  · rw [if_pos (by omega)]
    have hnr : uint64 (base + 2 ^ 63 + increment - (offset + 2 ^ 63)) = base + increment - offset := by
      unfold uint64
      omega
    have hfirst : (base + increment - offset) / increment * increment + (offset + 2 ^ 63) =
        first base increment offset + 2 ^ 63 := by
      rw [first]
      ring
    rw [hnr, hfirst, uint64_of_nonneg (by omega) (by unfold maxUint64; omega),
      decode_eq (by omega) (by omega), add_sub_cancel_right]

theorem seek_neg (hinc : increment < 0) (hbase : IsInt64 base) (hmin : IsInt64 min)
    (hmin' : min ≠ -2 ^ 63) (hoff : IsInt64 offset) (hoff' : offset ≠ -2 ^ 63) :
    seekToFirstSequenceValue base increment offset min max =
      (seekToFirstSequenceValue (-base) (-increment) (-offset) (-max) (-min)).map fun x => int64 (-x) := by
  unfold IsInt64 at hbase hmin hoff
  rw [seekToFirstSequenceValue, seekToFirstSequenceValue, if_neg hinc.not_gt, if_pos (neg_pos.mpr hinc)]
  simp only [neg_le_neg_iff]
  by_cases hle : base ≤ min
  · rw [if_pos hle, if_pos hle]
    rfl
  rw [if_neg hle]
  simp only [encode_eq hbase, encode_eq hmin, encode_eq hoff, encode_eq (v := -base) ⟨by omega, by omega⟩, encode_eq (v
    := -min) ⟨by omega, by omega⟩, encode_eq (v := -offset) ⟨by omega, by omega⟩,
    show -min + 2 ^ 63 - (-base + 2 ^ 63) = base + 2 ^ 63 - (min + 2 ^ 63) by ring]
  split
  · rw [enumDown_eq_enumUp, show (2 ^ 64 - (offset + 2 ^ 63) : ℤ) = -offset + 2 ^ 63 by ring,
      show (2 ^ 64 - (base + 2 ^ 63 - 1) : ℤ) = -base + 2 ^ 63 + 1 by ring]
  · rw [show -base + 2 ^ 63 + uint64 (-increment) - (-offset + 2 ^ 63) =
      offset + 2 ^ 63 - (base + 2 ^ 63) + uint64 (-increment) by ring]
    simp only [map_some, some.injEq]
    unfold decodeCmpUintToInt int64 uint64
    omega

def difference (base increment offset max : ℤ) : ℤ :=
  if increment = 1 then max - base else max - first base increment offset

/-- A batch ends after `size` values or at the end of the range, and at the end of the range if the
difference wraps around. -/
def batchEnd (base size increment offset max : ℤ) : ℤ :=
  if difference base increment offset max < 2 ^ 63 ∧
    first base increment offset + (size - 1) * increment ≤ max
  then first base increment offset + (size - 1) * increment else max

theorem batchEnd_range {size : ℤ} (hinc : 0 < increment) (hsize : 1 ≤ size) (h : first base increment offset ≤ max) :
    first base increment offset ≤ batchEnd base size increment offset max ∧
      batchEnd base size increment offset max ≤ max := by
  have hP0 : 0 ≤ (size - 1) * increment := mul_nonneg (by omega) hinc.le
  unfold batchEnd
  split <;> omega

theorem calc_up {size : ℤ} (hinc : 0 < increment) (hinc' : increment ≤ 2 ^ 63) (hbase : -2 ^ 63 ≤ base)
    (hmax : max < 2 ^ 63) (hoff : -2 ^ 63 ≤ offset) (hle : offset - 1 ≤ base) (hsize : 1 ≤ size)
    (hP : (size - 1) * increment < 2 ^ 63) :
    (calcSequenceBatchSize base size increment offset min max).map (fun step => int64 (base + step)) =
      if first base increment offset ≤ max then some (batchEnd base size increment offset max)
      else none := by
  have hlo := lt_first base offset hinc
  have hhi := first_le base offset hinc
  have hP0 : 0 ≤ (size - 1) * increment := mul_nonneg (by omega) hinc.le
  rw [calcSequenceBatchSize, if_pos hinc, batchEnd, difference, seek_up hinc hinc' hbase hmax hoff hle]
  by_cases hone : increment = 1
  · subst hone
    rw [if_pos rfl, mul_one] at *
    by_cases hend : max ≤ base
    · rw [if_pos hend, if_neg (by omega)]
      rfl
    · rw [if_neg hend, if_pos (show first base 1 offset ≤ max by omega), ← apply_ite some, map_some, some.injEq]
      unfold int64
      split <;> split <;> omega
  · rw [if_neg hone]
    generalize first base increment offset = f at *
    by_cases hend : f ≤ max
    · rw [if_pos hend, if_pos hend]
      simp only [← apply_ite some, map_some, some.injEq]
      unfold int64
      split <;> split <;> omega
    · rw [if_neg hend, if_neg hend]
      rfl

theorem calc_neg {size : ℤ} (hinc : increment < 0) (hbase : IsInt64 base) (hmin : IsInt64 min)
    (hmin' : min ≠ -2 ^ 63) (hoff : IsInt64 offset) (hoff' : offset ≠ -2 ^ 63) :
    calcSequenceBatchSize base size increment offset min max =
      calcSequenceBatchSize (-base) size (-increment) (-offset) (-max) (-min) := by
  rw [calcSequenceBatchSize, calcSequenceBatchSize, if_neg hinc.not_gt, if_pos (neg_pos.mpr hinc)]
  simp only [neg_le_neg_iff, neg_eq_iff_eq_neg, neg_sub_neg, seek_neg hinc hbase hmin hmin' hoff hoff']
  cases seekToFirstSequenceValue (-base) (-increment) (-offset) (-max) (-min) with
  | none => rfl
  | some nr =>
    have h1 : int64 (int64 (-nr) - min) = int64 (-min - nr) := by
      unfold int64
      omega
    have h2 : int64 (base - int64 (-nr) + (size - 1) * -increment) = int64 (nr - -base + (size - 1) * -increment) := by
      unfold int64
      omega
    simp only [map_some, h1, h2]

end Seek

/-! ## The direction of a sequence -/

/-- A sequence that `validateSequenceOptions` lets pass. -/
structure Accepted (seq : SequenceInfo) : Prop where
  options : validateSequenceOptions seq = true
  start_int64 : IsInt64 seq.start
  min_int64 : IsInt64 seq.minValue
  max_int64 : IsInt64 seq.maxValue
  increment_int64 : IsInt64 seq.increment
  cache_int64 : IsInt64 seq.cacheValue

def place (seq : SequenceInfo) (x : ℤ) : ℤ := if 0 < seq.increment then x else -x

theorem place_place (seq : SequenceInfo) (x : ℤ) : place seq (place seq x) = x := by
  unfold place
  split
  · rfl
  · exact neg_neg x

theorem place_modEq {seq : SequenceInfo} {x y : ℤ} :
    place seq x ≡ place seq y [ZMOD |seq.increment|] ↔ x ≡ y [ZMOD seq.increment] := by
  rw [Int.modEq_iff_dvd, Int.modEq_iff_dvd, abs_dvd]
  unfold place
  split
  · rfl
  · rw [neg_sub_neg, dvd_sub_comm]

def SequenceInfo.last (seq : SequenceInfo) : ℤ :=
  if 0 < seq.increment then seq.maxValue else seq.minValue

def SequenceInfo.size (seq : SequenceInfo) : ℤ := if seq.cache then seq.cacheValue else 1

def SequenceInfo.offset (seq : SequenceInfo) (round : ℤ) : ℤ :=
  if seq.cycle ∧ 0 < round then seq.cycleStart else seq.start

def SequenceInfo.endPlace (seq : SequenceInfo) (b off : ℤ) : ℤ :=
  batchEnd (place seq b) seq.size |seq.increment| (place seq off) (place seq seq.last)

def SequenceInfo.firstPlace (seq : SequenceInfo) (b off : ℤ) : ℤ :=
  first (place seq b) |seq.increment| (place seq off)

section Accepted

variable {seq : SequenceInfo} (hv : Accepted seq)

include hv

theorem Accepted.range : seq.increment ≠ 0 ∧ seq.minValue ≤ seq.start ∧ seq.start ≤ seq.maxValue ∧
    seq.maxValue ≠ maxInt64 ∧ seq.minValue ≠ minInt64 := by
  have h := hv.options
  unfold validateSequenceOptions at h
  simp only [Bool.if_false_left, Bool.and_eq_true, Bool.not_eq_true', decide_eq_false_iff_not, decide_eq_true_eq] at h
  tauto

theorem Accepted.size : 1 ≤ seq.size ∧ seq.size * |seq.increment| ≤ 2 ^ 63 := by
  have h := hv.options
  have hi := hv.increment_int64
  have hc := hv.cache_int64
  unfold IsInt64 at hi hc
  unfold validateSequenceOptions at h
  simp only [Bool.if_false_left, Bool.and_eq_true, Bool.not_eq_true', decide_eq_false_iff_not, decide_eq_true_eq] at h
  obtain ⟨hne, hcache, -, hlt⟩ := h
  unfold SequenceInfo.size
  cases hcb : seq.cache with
  | false =>
    simp only [Bool.false_eq_true, if_false, one_mul]
    exact ⟨le_rfl, abs_le.mpr ⟨hi.1, hi.2.le⟩⟩
  | true =>
    have hpos : 1 ≤ seq.cacheValue := by
      by_contra hsmall
      exact hcache ⟨hcb, by omega⟩
    simp only [if_true]
    have habs : 0 < |seq.increment| := abs_pos.mpr hne
    by_cases hmin : seq.increment = -2 ^ 63
    · -- the smallest increment leaves no room for a cache
      rw [hmin] at hlt
      have hquot : (int64 (maxInt64 - abs (-2 ^ 63))).tdiv (abs (-2 ^ 63)) = 0 := by decide
      omega
    · have hle : |seq.increment| ≤ 2 ^ 63 - 1 := abs_le.mpr ⟨by omega, by omega⟩
      have habs64 : abs seq.increment = |seq.increment| :=
        int64_of_isInt64 ⟨by omega, by omega⟩
      have hroom : int64 (maxInt64 - |seq.increment|) = maxInt64 - |seq.increment| :=
        int64_of_isInt64 ⟨by unfold maxInt64; omega, by unfold maxInt64; omega⟩
      rw [habs64, hroom, Int.tdiv_eq_ediv_of_nonneg (by unfold maxInt64; omega)] at hlt
      have hmul := Int.ediv_mul_le (maxInt64 - |seq.increment|) habs.ne'
      have hlt' := mul_le_mul_of_nonneg_right hlt.le habs.le
      unfold maxInt64 at *
      omega

theorem Accepted.bounds : -2 ^ 63 < seq.minValue ∧ seq.maxValue < 2 ^ 63 - 1 ∧
    -2 ^ 63 ≤ seq.increment ∧ seq.increment < 2 ^ 63 := by
  obtain ⟨-, -, -, hmax, hmin⟩ := hv.range
  have h1 := hv.min_int64
  have h2 := hv.max_int64
  have h3 := hv.increment_int64
  unfold IsInt64 at h1 h2 h3
  unfold maxInt64 at hmax
  unfold minInt64 at hmin
  omega

variable {b off : ℤ} (hb : IsInt64 b) (hoff : seq.minValue ≤ off ∧ off ≤ seq.maxValue)
  (hle : place seq off - 1 ≤ place seq b)

include hb hoff hle

theorem Accepted.seek_place {lo hi e : ℤ} (he : (if 0 < seq.increment then hi else lo) = e)
    (he1 : -2 ^ 63 < e) (he2 : e < 2 ^ 63) :
    seekToFirstSequenceValue b seq.increment off lo hi =
      if seq.firstPlace b off ≤ place seq e then some (place seq (seq.firstPlace b off)) else none := by
  have hbounds := hv.bounds
  obtain ⟨hb1, hb2⟩ := hb
  unfold firstPlace
  by_cases hup : 0 < seq.increment
  · simp only [place, if_pos hup, abs_of_pos hup] at he hle ⊢
    subst he
    exact seek_up hup (by omega) hb1 he2 (by omega) hle
  · have hdown : seq.increment < 0 := lt_of_le_of_ne (not_lt.mp hup) hv.range.1
    simp only [place, if_neg hup, abs_of_neg hdown] at he hle ⊢
    subst he
    have hlo := lt_first (-b) (-off) (neg_pos.mpr hdown)
    rw [seek_neg hdown ⟨hb1, hb2⟩ ⟨he1.le, he2⟩ he1.ne' ⟨by omega, by omega⟩ (by omega),
      seek_up (by omega) (by omega) (by omega) (by omega) (by omega) hle]
    split
    · rw [map_some, int64_of_isInt64 ⟨by omega, by omega⟩]
    · rfl

omit hv hb hoff hle in
theorem neg_int64 {step : ℤ} (h : int64 (-b + step) ≠ -2 ^ 63) : -int64 (b + int64 (-step)) = int64 (-b + step) := by
  unfold int64 at *
  omega

/-- The counter after a batch, which there is as long as a value is left. -/
theorem Accepted.counter_place :
    (calcSequenceBatchSize b seq.size seq.increment off seq.minValue seq.maxValue).map (fun step =>
        place seq (int64 (b + if 0 < seq.increment then step else int64 (-step)))) =
      if seq.firstPlace b off ≤ place seq seq.last then some (seq.endPlace b off) else none := by
  obtain ⟨hs, hP⟩ := hv.size
  have hbounds := hv.bounds
  have hpos : 0 < |seq.increment| := abs_pos.mpr hv.range.1
  have hP' : (seq.size - 1) * |seq.increment| < 2 ^ 63 := by
    rw [sub_mul]
    omega
  obtain ⟨hb1, hb2⟩ := hb
  unfold firstPlace endPlace
  by_cases hup : 0 < seq.increment
  · simp only [place, last, if_pos hup, abs_of_pos hup] at hle hP' ⊢
    exact calc_up hup (by omega) hb1 (by omega) (by omega) hle hs hP'
  · have hdown : seq.increment < 0 := lt_of_le_of_ne (not_lt.mp hup) hv.range.1
    simp only [place, last, if_neg hup, abs_of_neg hdown] at hle hP' ⊢
    have hcalc := @calc_up (-b) (-seq.increment) (-off) (-seq.maxValue) (-seq.minValue) seq.size
      (neg_pos.mpr hdown) (by omega) (by omega) (by omega) (by omega) hle hs hP'
    rw [← calc_neg hdown ⟨hb1, hb2⟩ ⟨by omega, by omega⟩ (by omega) ⟨by omega, by omega⟩ (by omega)] at hcalc
    rw [← hcalc]
    refine map_congr fun step hstep => neg_int64 ?_
    have hlo := lt_first (-b) (-off) (neg_pos.mpr hdown)
    rw [hstep, map_some] at hcalc
    split at hcalc
    · have hrange := batchEnd_range (neg_pos.mpr hdown) hs ‹_›
      have hend := some.inj hcalc
      omega
    · cases hcalc

end Accepted

/-! ## The transaction -/

section Accepted

variable {seq : SequenceInfo} (hv : Accepted seq)

include hv

theorem Accepted.cycleStart_mem : seq.minValue ≤ seq.cycleStart ∧ seq.cycleStart ≤ seq.maxValue := by
  have hrange := hv.range
  unfold cycleStart
  split <;> omega

theorem Accepted.place_before {x : ℤ} (hx : seq.minValue ≤ x ∧ x ≤ seq.maxValue) :
    IsInt64 (if 0 < seq.increment then int64 (x - 1) else int64 (x + 1)) ∧
      place seq (if 0 < seq.increment then int64 (x - 1) else int64 (x + 1)) = place seq x - 1 := by
  have hbounds := hv.bounds
  unfold place
  split
  · rw [int64_of_isInt64 ⟨by omega, by omega⟩]
    exact ⟨⟨by omega, by omega⟩, rfl⟩
  · rw [int64_of_isInt64 ⟨by omega, by omega⟩]
    exact ⟨⟨by omega, by omega⟩, by ring⟩

theorem Accepted.offset_mem (round : ℤ) : seq.minValue ≤ seq.offset round ∧ seq.offset round ≤ seq.maxValue := by
  obtain ⟨-, h1, h2, -⟩ := hv.range
  unfold offset
  split
  · exact hv.cycleStart_mem
  · exact ⟨h1, h2⟩

theorem Accepted.lt_firstPlace (b off : ℤ) : place seq b < seq.firstPlace b off :=
  lt_first _ _ (abs_pos.mpr hv.range.1)

/-- A batch in the progression through `off`. -/
structure Batch (seq : SequenceInfo) (off : ℤ) (s' : SeqStore) (v : Captured) : Prop where
  stored : v.newEnd = s'.value
  int64 : IsInt64 s'.value
  first_le : seq.firstPlace v.newBase off ≤ place seq seq.last
  end_eq : place seq s'.value = seq.endPlace v.newBase off

variable {s s' : SeqStore} {v : Captured}

theorem Batch.range {off : ℤ} (h : Batch seq off s' v) : seq.firstPlace v.newBase off ≤ place seq s'.value ∧
    place seq s'.value ≤ place seq seq.last ∧ place seq v.newBase < place seq s'.value := by
  obtain ⟨h1, h2⟩ := batchEnd_range (abs_pos.mpr hv.range.1) hv.size.1 h.first_le
  rw [h.end_eq]
  exact ⟨h1, h2, (hv.lt_firstPlace _ off).trans_le h1⟩

abbrev SequenceInfo.HasNext (seq : SequenceInfo) (s : SeqStore) : Prop :=
  seq.firstPlace s.value (seq.offset s.cycle) ≤ place seq seq.last

theorem Accepted.alloc4Sequence_ok (hs : IsInt64 s.value)
    (hle : place seq (seq.offset s.cycle) - 1 ≤ place seq s.value) (h : alloc4Sequence seq s = .ok (s', v)) :
    seq.HasNext s ∧ v.newBase = s.value ∧ s'.cycle = s.cycle ∧ Batch seq (seq.offset s.cycle) s' v ∨
    ¬seq.HasNext s ∧ seq.cycle = true ∧ place seq v.newBase = place seq seq.cycleStart - 1 ∧
      s'.cycle = int64 (s.cycle + 1) ∧ Batch seq seq.cycleStart s' v := by
  have hoffset : (if seq.cycle = true ∧ 0 < (if seq.cycle = true then s.cycle else 0)
      then seq.cycleStart else seq.start) = seq.offset s.cycle := by
    unfold offset
    cases seq.cycle <;> simp
  have hsize : (if seq.cache = true then seq.cacheValue else 1) = seq.size := rfl
  have hcounter := hv.counter_place hs (hv.offset_mem _) hle
  unfold alloc4Sequence at h
  simp only [hoffset, hsize] at h
  by_cases hn : seq.HasNext s
  · rw [if_pos hn] at hcounter
    obtain ⟨step, hstep, hend⟩ := map_eq_some_iff.mp hcounter
    rw [hstep] at h
    cases h
    exact .inl ⟨hn, rfl, rfl, rfl, isInt64_int64 _, hn, hend⟩
  rw [if_neg hn] at hcounter
  rw [map_eq_none_iff.mp hcounter] at h
  simp only at h
  split at h
  · cases h
  rename_i hcycle
  simp only [Bool.not_eq_true', Bool.not_eq_false] at hcycle
  have hstart : (if 0 < seq.increment then int64 (seq.minValue - 1) else int64 (seq.maxValue + 1)) =
      if 0 < seq.increment then int64 (seq.cycleStart - 1) else int64 (seq.cycleStart + 1) := by
    unfold cycleStart
    split <;> rfl
  obtain ⟨hbase, hplace⟩ := hv.place_before hv.cycleStart_mem
  rw [hstart] at h
  have hagain := hv.counter_place hbase hv.cycleStart_mem hplace.ge
  generalize (if 0 < seq.increment then int64 (seq.cycleStart - 1) else int64 (seq.cycleStart + 1)) = b at *
  by_cases hf : seq.firstPlace b seq.cycleStart ≤ place seq seq.last
  · rw [if_pos hf] at hagain
    obtain ⟨step, hstep, hend⟩ := map_eq_some_iff.mp hagain
    rw [hstep] at h
    cases h
    exact .inr ⟨hn, hcycle, hplace, by rw [if_pos hcycle], rfl, isInt64_int64 _, hf, hend⟩
  · rw [if_neg hf] at hagain
    rw [map_eq_none_iff.mp hagain] at h
    cases h

end Accepted

/-! ## What a batch should be -/

/-- The counters that the transactions of a sequence leave in the store, as long as the number of rounds
does not wrap around. -/
inductive Stored (seq : SequenceInfo) : SeqStore → Prop
  | create : Stored seq ⟨seq.base, 0⟩
  | alloc {s s' : SeqStore} {v : Captured} : Stored seq s → alloc4Sequence seq s = .ok (s', v) →
      0 ≤ s'.cycle → Stored seq s'
  | rebase {s s' : SeqStore} {v : Captured} {n : ℤ} : Stored seq s → IsInt64 n →
      rebase4Sequence seq n s = .ok (s', v) → Stored seq s'

def IsFirst (seq : SequenceInfo) (off b x : ℤ) : Prop :=
  place seq b < place seq x ∧ x ≡ off [ZMOD seq.increment] ∧
    ∀ y, place seq b < place seq y → y ≡ off [ZMOD seq.increment] → place seq x ≤ place seq y

noncomputable def SequenceInfo.values (seq : SequenceInfo) (off b e : ℤ) : Finset ℤ :=
  members (place seq b) (place seq e) |seq.increment| (place seq off)

structure BatchOk (seq : SequenceInfo) (s s' : SeqStore) (v : Captured) : Prop where
  /-- The batch starts where the last one of its round ended, or in front of the range. -/
  follows : v.newBase = s.value ∧ s'.cycle = s.cycle ∨
    place seq v.newBase = place seq seq.cycleStart - 1 ∧ s'.cycle = s.cycle + 1
  stored : v.newEnd = s'.value
  inside : place seq seq.cycleStart - 1 ≤ place seq v.newBase ∧ place seq v.newEnd ≤ place seq seq.last
  nonempty : 0 < (seq.values (seq.offset s'.cycle) v.newBase v.newEnd).card
  size : (seq.values (seq.offset s'.cycle) v.newBase v.newEnd).card ≤ seq.size

/-- What is left of the range after `b`, as `calcSequenceBatchSize` computes it. -/
def SequenceInfo.left (seq : SequenceInfo) (off b : ℤ) : ℤ :=
  difference (place seq b) |seq.increment| (place seq off) (place seq seq.last)

/-- What is left of the round is an `int64`, or if nothing is left, the whole range and the number of the next
round. -/
abbrev SequenceInfo.NoWrap (seq : SequenceInfo) (s : SeqStore) : Prop :=
  if seq.HasNext s then seq.left (seq.offset s.cycle) s.value < 2 ^ 63
  else s.cycle < maxInt64 ∧ seq.left seq.cycleStart (place seq (place seq seq.cycleStart - 1)) < 2 ^ 63

theorem cycleStart_le {seq : SequenceInfo} {x : ℤ} (hx : seq.minValue ≤ x ∧ x ≤ seq.maxValue) :
    place seq seq.cycleStart ≤ place seq x := by
  unfold place cycleStart
  split <;> omega

theorem card_batch_le_iff {base size increment offset max : ℤ} (hinc : 0 < increment)
    (hsize : 1 ≤ size) (hsize' : size < 2 ^ 63) (hP : size * increment ≤ 2 ^ 63)
    (hfirst : first base increment offset ≤ max) :
    ((members base (batchEnd base size increment offset max) increment offset).card : ℤ) ≤ size ↔
      difference base increment offset max < 2 ^ 63 := by
  obtain ⟨n, rfl⟩ := Int.eq_ofNat_of_zero_le (show 0 ≤ size by omega)
  have hhi := first_le base offset hinc
  unfold batchEnd
  by_cases hd : difference base increment offset max < 2 ^ 63
  · refine iff_of_true ?_ hd
    by_cases hfull : first base increment offset + (n - 1) * increment ≤ max
    · rw [if_pos ⟨hd, hfull⟩, card_members hinc n]
    · rw [if_neg fun h => hfull h.2]
      exact_mod_cast (card_members_lt hinc (by omega) (not_le.mp hfull)).le
  · -- the difference is larger than any batch
    rw [if_neg fun h => hd h.1]
    have hroom : first base increment offset + ((n + 1 : ℕ) - 1) * increment ≤ max := by
      push_cast
      rw [add_sub_cancel_right]
      unfold difference at hd
      split at hd
      · rename_i hone
        subst hone
        omega
      · omega
    have hcard := Finset.card_le_card (@members_mono base _ _ _ increment offset le_rfl hroom)
    rw [card_members hinc] at hcard
    omega

section Accepted

variable {seq : SequenceInfo} (hv : Accepted seq)

include hv

theorem Accepted.base_place : IsInt64 seq.base ∧ place seq seq.base = place seq seq.start - 1 := by
  obtain ⟨hinc, hmin, hmax, -⟩ := hv.range
  have hbase : seq.base = if 0 < seq.increment then int64 (seq.start - 1) else int64 (seq.start + 1) := by
    unfold base
    simp only [show 0 ≤ seq.increment ↔ 0 < seq.increment by omega]
  rw [hbase]
  exact hv.place_before ⟨hmin, hmax⟩

theorem Stored.counted {s : SeqStore} (h : Stored seq s) : IsInt64 s.value ∧ (0 ≤ s.cycle ∧ s.cycle < 2 ^ 63) ∧
      place seq (seq.offset s.cycle) - 1 ≤ place seq s.value := by
  induction h with
  | create =>
    refine ⟨hv.base_place.1, ⟨le_rfl, by norm_num⟩, ?_⟩
    rw [hv.base_place.2, offset, if_neg fun h => lt_irrefl _ h.2]
  | @alloc s s' v _ halloc hcycle ih =>
    obtain ⟨hs, ⟨h0, h1⟩, hle⟩ := ih
    rcases hv.alloc4Sequence_ok hs hle halloc with ⟨-, hbase, hsame, hb⟩ | ⟨-, hc, hbase, hnext, hb⟩
    · have hrange := hb.range hv
      rw [hbase] at hrange
      rw [hsame]
      exact ⟨hb.int64, ⟨h0, h1⟩, by omega⟩
    · have hrange := hb.range hv
      have hnext' : s'.cycle = s.cycle + 1 ∧ s'.cycle < 2 ^ 63 := by
        unfold int64 at hnext
        omega
      refine ⟨hb.int64, ⟨hcycle, hnext'.2⟩, ?_⟩
      rw [offset, if_pos ⟨hc, by omega⟩]
      omega
  | @rebase s s' v n _ hn hrebase ih =>
    obtain ⟨hs, h0, hle⟩ := ih
    unfold rebase4Sequence at hrebase
    split at hrebase
    · cases hrebase
      exact ⟨hs, h0, hle⟩
    · cases hrebase
      have hval : int64 (s.value + int64 (n - s.value)) = n := by
        unfold IsInt64 at hn
        unfold int64
        omega
      simp only [hval]
      refine ⟨hn, h0, hle.trans ?_⟩
      unfold place
      split <;> omega

theorem Accepted.seek_iff {s : SeqStore} (hs : Stored seq s) (x : ℤ) :
    seekToFirstSequenceValue s.value seq.increment (seq.offset s.cycle) seq.minValue seq.maxValue = some x ↔
      IsFirst seq (seq.offset s.cycle) s.value x ∧ place seq x ≤ place seq seq.last := by
  obtain ⟨h64, -, hle⟩ := hs.counted hv
  have hbounds := hv.bounds
  have hrange := hv.range
  have hinc : 0 < |seq.increment| := abs_pos.mpr hv.range.1
  have hlast : -2 ^ 63 < seq.last ∧ seq.last < 2 ^ 63 := by
    unfold last
    split <;> omega
  rw [hv.seek_place h64 (hv.offset_mem _) hle (e := seq.last) rfl hlast.1 hlast.2]
  have hfirst : ∀ y, place seq s.value < place seq y → y ≡ seq.offset s.cycle [ZMOD seq.increment] →
      seq.firstPlace s.value (seq.offset s.cycle) ≤ place seq y :=
    fun y hlt hmod => first_le_of_modEq hinc hlt (place_modEq.mpr hmod)
  have hmem : IsFirst seq (seq.offset s.cycle) s.value (place seq (seq.firstPlace s.value (seq.offset s.cycle))) := by
    refine ⟨?_, place_modEq.mp ?_, ?_⟩
    · rw [place_place]
      exact hv.lt_firstPlace _ _
    · rw [place_place]
      exact first_modEq
    · rw [place_place]
      exact hfirst
  generalize seq.firstPlace s.value (seq.offset s.cycle) = f at *
  constructor
  · intro h
    split at h
    · cases h
      exact ⟨hmem, by rwa [place_place]⟩
    · cases h
  · rintro ⟨hx, hxlast⟩
    have heq : place seq x = f := by
      apply le_antisymm
      · have := hx.2.2 _ hmem.1 hmem.2.1
        rwa [place_place] at this
      · exact hfirst x hx.1 hx.2.1
    rw [← heq, if_pos hxlast, place_place]

theorem Batch.ok_iff {s s' : SeqStore} {v : Captured} (h : Batch seq (seq.offset s'.cycle) s' v)
    (hinside : place seq seq.cycleStart - 1 ≤ place seq v.newBase)
    (hfollows : v.newBase = s.value ∧ s'.cycle = s.cycle ∨
      place seq v.newBase = place seq seq.cycleStart - 1 ∧ s'.cycle = s.cycle + 1) :
    BatchOk seq s s' v ↔ seq.left (seq.offset s'.cycle) v.newBase < 2 ^ 63 := by
  obtain ⟨hs1, hP⟩ := hv.size
  have hinc : 0 < |seq.increment| := abs_pos.mpr hv.range.1
  have hsize : seq.size < 2 ^ 63 := by
    have := hv.cache_int64.2
    unfold SequenceInfo.size
    split <;> omega
  have hrange := h.range hv
  have hvalues : seq.values (seq.offset s'.cycle) v.newBase v.newEnd = members (place seq v.newBase)
      (seq.endPlace v.newBase (seq.offset s'.cycle)) |seq.increment| (place seq (seq.offset s'.cycle)) := by
    rw [SequenceInfo.values, h.stored, h.end_eq]
  have hcard := card_batch_le_iff hinc hs1 hsize hP h.first_le
  rw [← endPlace, ← hvalues] at hcard
  refine ⟨fun hok => hcard.mp hok.size, fun hlt => ⟨hfollows, h.stored, ⟨hinside, ?_⟩, ?_, hcard.mpr hlt⟩⟩
  · rw [h.stored]
    exact hrange.2.1
  · rw [hvalues, Finset.card_pos, ← h.end_eq]
    exact ⟨_, mem_members.mpr ⟨lt_first _ _ hinc, hrange.1, first_modEq⟩⟩

theorem Accepted.batchOk_iff {s s' : SeqStore} {v : Captured} (hs : Stored seq s)
    (h : alloc4Sequence seq s = .ok (s', v)) : BatchOk seq s s' v ↔ seq.NoWrap s := by
  obtain ⟨h64, ⟨h0, h1⟩, hle⟩ := hs.counted hv
  unfold NoWrap
  rcases hv.alloc4Sequence_ok h64 hle h with ⟨hn, hbase, hsame, hb⟩ | ⟨hn, hc, hbase, hnext, hb⟩
  · have hstart := cycleStart_le (hv.offset_mem s.cycle)
    rw [if_pos hn, ← hsame, ← hbase]
    rw [← hsame] at hb
    exact hb.ok_iff hv (by rw [hbase]; omega) (.inl ⟨hbase, hsame⟩)
  rw [if_neg hn, ← hbase, place_place]
  by_cases hround : s.cycle < maxInt64
  · have hnext' : s'.cycle = s.cycle + 1 := by
      unfold maxInt64 at hround
      unfold int64 at hnext
      omega
    have hoff : seq.cycleStart = seq.offset s'.cycle := by rw [SequenceInfo.offset, if_pos ⟨hc, by omega⟩]
    rw [hoff] at hb ⊢
    rw [hb.ok_iff hv hbase.ge (.inr ⟨hbase, hnext'⟩), and_iff_right hround]
  · -- the number of the round wraps around
    refine iff_of_false (fun hok => ?_) fun h => hround h.1
    have hfollows := hok.follows
    unfold maxInt64 at hround
    unfold int64 at hnext
    omega

end Accepted

/-- The value sought is the first one after the counter, and a batch is right if and only if what is left before it does
not wrap around. -/
theorem sequence_batch_iff {seq : SequenceInfo} (hv : Accepted seq) {s : SeqStore} (hs : Stored seq s) :
    (∀ x, seekToFirstSequenceValue s.value seq.increment (seq.offset s.cycle) seq.minValue seq.maxValue = some x ↔
      IsFirst seq (seq.offset s.cycle) s.value x ∧ place seq x ≤ place seq seq.last) ∧
    ∀ s' v, alloc4Sequence seq s = .ok (s', v) → (BatchOk seq s s' v ↔ seq.NoWrap s) :=
  ⟨hv.seek_iff hs, fun _ _ halloc => hv.batchOk_iff hs halloc⟩

/-- `CREATE SEQUENCE s MINVALUE -9223372036854775807 START -9223372036854775807 CACHE 1000` -/
def wide : SequenceInfo :=
  ⟨-9223372036854775807, true, false, -9223372036854775807, 9223372036854775806, 1, 1000⟩

theorem accepted_wide : Accepted wide := by refine ⟨by decide, ?_, ?_, ?_, ?_, ?_⟩ <;> constructor <;> decide

/-- From 0 on, a batch has 1000 values. -/
theorem sequence_batch_from_zero :
    Stored wide ⟨0, 0⟩ ∧ alloc4Sequence wide ⟨0, 0⟩ = .ok (⟨1000, 0⟩, { newBase := 0, newEnd := 1000 }) ∧
      BatchOk wide ⟨0, 0⟩ ⟨1000, 0⟩ { newBase := 0, newEnd := 1000 } := by
  have hstored : Stored wide ⟨0, 0⟩ :=
    .rebase (n := 0) (v := {}) .create ⟨by decide, by decide⟩ rfl
  have halloc : alloc4Sequence wide ⟨0, 0⟩ = .ok (⟨1000, 0⟩, { newBase := 0, newEnd := 1000 }) := rfl
  exact ⟨hstored, halloc, ((sequence_batch_iff accepted_wide hstored).2 _ _ halloc).mpr (by decide)⟩

/-- The first batch of the sequence has all its values. -/
theorem sequence_batch_of_all : Accepted wide ∧ Stored wide ⟨wide.base, 0⟩ ∧ int64 (wide.maxValue - wide.base) = -2 ∧
      ∃ s' v, alloc4Sequence wide ⟨wide.base, 0⟩ = .ok (s', v) ∧
        v.newEnd = wide.maxValue ∧ ¬BatchOk wide ⟨wide.base, 0⟩ s' v := by
  refine ⟨accepted_wide, .create, by decide, ⟨9223372036854775806, 0⟩,
    { newBase := -9223372036854775808, newEnd := 9223372036854775806 }, rfl, rfl, ?_⟩
  exact fun hok => absurd ((accepted_wide.batchOk_iff .create rfl).mp hok) (by decide)

end Tidb.Sequence
