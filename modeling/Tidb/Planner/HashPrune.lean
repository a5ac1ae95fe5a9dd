import Tidb.Planner.HashPartition

/-!
# Hash pruning keeps the partition of a row

An interval is enumerated with a signed counter.  It reaches every value of the interval and ends in time unless
the interval ends at the largest signed number, crosses it in an unsigned column, or is much longer than its
length in floating point.
-/

namespace Planner

open GoLang List PartitionInfo

variable {unsigned : Bool} {pi : PartitionInfo} {partitionNames : List String}

/-! ## The enumeration -/

variable {posHigh i : ℤ}

theorem enumerate_of_lt (h : posHigh < i) (fuel : ℕ) : enumerate pi partitionNames posHigh fuel i = some [] := by
  cases fuel with
  | zero => exact if_neg (not_le.mpr h)
  | succ fuel => exact if_neg (not_le.mpr h)

variable {fuel : ℕ}

theorem enumerate_spec (hmax : posHigh < maxInt64) (hi : -0x8000000000000000 ≤ i) (hfuel : posHigh - i < fuel) :
    ∃ used, enumerate pi partitionNames posHigh fuel i = some used ∧
      ∀ idx, idx ∈ used ↔ selected pi partitionNames idx ∧ ∃ x, i ≤ x ∧ x ≤ posHigh ∧ pi.hashIndex x = idx := by
  have hnil : ∀ {j}, posHigh < j → ∀ idx, idx ∈ ([] : List ℤ) ↔
      selected pi partitionNames idx ∧ ∃ x, j ≤ x ∧ x ≤ posHigh ∧ pi.hashIndex x = idx := by
    intro j hj idx
    refine iff_of_false not_mem_nil ?_
    rintro ⟨-, x, hjx, hx, -⟩
    omega
  induction fuel generalizing i with
  | zero =>
    have hlt : posHigh < i := by omega
    exact ⟨[], enumerate_of_lt hlt 0, hnil hlt⟩
  | succ fuel ih =>
    by_cases hle : i ≤ posHigh
    · have hnext : int64 (i + 1) = i + 1 := by
        unfold maxInt64 at hmax
        apply int64_of_isInt64
        exact ⟨by omega, by omega⟩
      obtain ⟨rest, hrest, hall⟩ := @ih (i + 1) (by omega) (by omega)
      have hsplit : ∀ idx, (∃ x, i ≤ x ∧ x ≤ posHigh ∧ pi.hashIndex x = idx) ↔
          pi.hashIndex i = idx ∨ ∃ x, i + 1 ≤ x ∧ x ≤ posHigh ∧ pi.hashIndex x = idx := by
        intro idx
        constructor
        · rintro ⟨x, hx, hx', hidx⟩
          rcases hx.lt_or_eq with hlt | rfl
          · exact Or.inr ⟨x, hlt, hx', hidx⟩
          · exact Or.inl hidx
        · rintro (hidx | ⟨x, hx, hx', hidx⟩)
          · exact ⟨i, le_rfl, hle, hidx⟩
          · exact ⟨x, by omega, hx', hidx⟩
      rw [enumerate, if_pos hle, hnext, hrest]
      refine ⟨_, rfl, fun idx => ?_⟩
      dsimp only
      rw [hsplit, and_or_left]
      split <;> rename_i hsel
      · rw [mem_cons, hall]
        refine or_congr_left ⟨fun h => ⟨h ▸ hsel, h.symm⟩, fun h => h.2.symm⟩
      · rw [hall, or_iff_right]
        rintro ⟨hidx, rfl⟩
        exact hsel hidx
    · exact ⟨[], enumerate_of_lt (not_le.mp hle) _, hnil (not_le.mp hle)⟩

theorem enumerate_eq_none (hi : IsInt64 i) (hhigh : posHigh ≤ maxInt64)
    (h : posHigh = maxInt64 ∨ i + fuel ≤ posHigh) : enumerate pi partitionNames posHigh fuel i = none := by
  unfold maxInt64 at hhigh h
  obtain ⟨hlo, hlt⟩ := hi
  induction fuel generalizing i with
  | zero =>
    rw [enumerate, if_pos]
    omega
  | succ fuel ih =>
    have hle : i ≤ posHigh := by omega
    obtain ⟨hlo', hlt'⟩ := isInt64_int64 (i + 1)
    have hnext : posHigh = 0x7FFFFFFFFFFFFFFF ∨ int64 (i + 1) + fuel ≤ posHigh := by
      unfold int64
      omega
    rw [enumerate, if_pos hle, ih hnext hlo' hlt', Option.map_none]

/-! ## Sorting and removing duplicates -/

theorem mem_compact {x : ℤ} (l : List ℤ) : x ∈ compact l ↔ x ∈ l := by
  induction l using compact.induct with
  | case3 y rest ih =>
    rw [compact, if_pos rfl, ih]
    simp
  | case4 y z rest hne ih => rw [compact, if_neg hne, mem_cons, ih, ← mem_cons]
  | _ => rfl

/-! ## Ranges -/

section Ranges

variable (pi)

/-- The numbers that the loop goes through for a range; none where it needs all partitions. -/
def interval (r : ColumnRange unsigned) : Option (ℤ × ℤ) :=
  if r.isPointNullable then some (r.high.evalInt.getD 0, r.high.evalInt.getD 0) else isShort pi r

/-- The ranges before the first one that needs all partitions, where the loop over them stops. -/
def reached (ranges : List (ColumnRange unsigned)) : List (ColumnRange unsigned) :=
  ranges.takeWhile fun r => (interval pi r).isSome

/-- The interval ends below the largest signed number and has no more numbers than there are partitions and one. -/
def EndsInTime (r : ColumnRange unsigned) : Prop :=
  r.isPointNullable = true ∨ ∀ posLow posHigh, isShort pi r = some (posLow, posHigh) →
    posHigh < maxInt64 ∧ posHigh - posLow ≤ pi.num

/-- The interval starts below 2^63 and ends above: as signed numbers its bounds are the wrong way round. -/
def Crosses (r : ColumnRange unsigned) : Prop :=
  unsigned = true ∧ ∃ posLow posHigh, interval pi r = some (posLow, posHigh) ∧ 0 ≤ posLow ∧ posHigh < 0

/-- A number of the interval is hashed to the partition. -/
def Reads (r : ColumnRange unsigned) (idx : ℤ) : Prop :=
  ∃ posLow posHigh, interval pi r = some (posLow, posHigh) ∧ ∃ i, posLow ≤ i ∧ i ≤ posHigh ∧ pi.hashIndex i = idx

/-- Every interval that is reached ends in time. Unless all partitions are needed, the partitions of the rows in an
interval across 2^63 are read for the sake of other ranges. -/
structure EnumeratesWell (partitionNames : List String) (ranges : List (ColumnRange unsigned)) : Prop where
  ends : ∀ r ∈ reached pi ranges, EndsInTime pi r
  crossing : reached pi ranges = ranges → ∀ r ∈ ranges, Crosses pi r →
    ∀ v, r.Contains v → selected pi partitionNames (pi.locateHashPartition v) →
      ∃ r' ∈ ranges, Reads pi r' (pi.locateHashPartition v)

def KeepsRowsOf (partitionNames : List String) (ranges : List (ColumnRange unsigned)) : Prop :=
  ∃ used, findUsedPartitions pi partitionNames (pi.definitions.length + 1) ranges = some used ∧
    ∀ v, (∃ r ∈ ranges, r.Contains v) → selected pi partitionNames (pi.locateHashPartition v) →
      used = [FullRange] ∨ pi.locateHashPartition v ∈ used

end Ranges

variable {r : ColumnRange unsigned} {posLow : ℤ}

theorem int64_add_one (x : ℤ) : int64 (int64 x + 1) = int64 (x + 1) := by
  unfold int64
  omega

theorem int64_sub_one (x : ℤ) : int64 (int64 x - 1) = int64 (x - 1) := by
  unfold int64
  omega

theorem isShort_some (h : isShort pi r = some (posLow, posHigh)) :
    ∃ l u, r.low = .value l ∧ r.high = .value u ∧
      posLow = (if r.lowExclude then int64 (int64 l.val + 1) else int64 l.val) ∧
      posHigh = (if r.highExclude then int64 (int64 u.val - 1) else int64 u.val) := by
  unfold isShort closedBounds at h
  cases hlow : r.low with
  | value l =>
    cases hhigh : r.high with
    | value u =>
      rw [hlow, hhigh] at h
      dsimp only [Bound.evalInt] at h
      rw [Option.ite_none_right_eq_some] at h
      obtain ⟨rfl, rfl⟩ := Prod.mk.inj (Option.some.inj h.2)
      exact ⟨l, u, rfl, rfl, rfl, rfl⟩
    | _ =>
      rw [hhigh] at h
      cases h
  | _ =>
    rw [hlow] at h
    cases hhigh : r.high <;> rw [hhigh] at h <;> cases h

theorem isInt64_of_isShort (hshort : isShort pi r = some (posLow, posHigh)) : IsInt64 posLow ∧ IsInt64 posHigh := by
  obtain ⟨l, u, -, -, rfl, rfl⟩ := isShort_some hshort
  constructor <;> split <;> exact isInt64_int64 _

variable {v : Option (Bigint unsigned)}

theorem contains_iff {l u : Bigint unsigned} (hlow : r.low = .value l) (hhigh : r.high = .value u) :
    r.Contains v ↔ ∃ x, v = some x ∧ (if r.lowExclude then l.val < x.val else l.val ≤ x.val) ∧
      if r.highExclude then x.val < u.val else x.val ≤ u.val := by
  unfold ColumnRange.Contains
  rw [hlow, hhigh]
  cases v with
  | none => cases r.lowExclude <;> simp [Bound.ofValue, Bound.compare]
  | some x =>
    have hlt : ∀ a b : ℤ, compare a b = .lt ↔ a < b := fun a b => compare_lt_iff_lt
    have hle : ∀ a b : ℤ, compare a b ≠ .gt ↔ a ≤ b := fun a b => compare_le_iff_le
    simp only [Bound.ofValue, Bound.compare, hlt, hle, Option.some.injEq, exists_eq_left']

theorem between_of_contains
    (hshort : isShort pi r = some (posLow, posHigh)) (hside : unsigned = true → ¬ (0 ≤ posLow ∧ posHigh < 0))
    (hv : r.Contains v) : ∃ x, v = some x ∧ posLow ≤ int64 x.val ∧ int64 x.val ≤ posHigh := by
  obtain ⟨⟨l, hl⟩, ⟨u, hu⟩, hlow, hhigh, hposLow, hposHigh⟩ := isShort_some hshort
  obtain ⟨⟨x, hx⟩, rfl, hlx, hxu⟩ := (contains_iff hlow hhigh).mp hv
  refine ⟨⟨x, hx⟩, rfl, ?_⟩
  change posLow ≤ int64 x ∧ int64 x ≤ posHigh
  -- an end that is left out is not at the limit of the type, since there is a value beyond it
  obtain ⟨a, rfl, hla, hax⟩ : ∃ a, posLow = int64 a ∧ l ≤ a ∧ a ≤ x := by
    by_cases h : r.lowExclude = true
    · rw [if_pos h] at hposLow hlx
      exact ⟨l + 1, hposLow.trans (int64_add_one l), (lt_add_one l).le, hlx⟩
    · rw [if_neg h] at hposLow hlx
      exact ⟨l, hposLow, le_rfl, hlx⟩
  obtain ⟨b, rfl, hbu, hxb⟩ : ∃ b, posHigh = int64 b ∧ b ≤ u ∧ x ≤ b := by
    by_cases h : r.highExclude = true
    · rw [if_pos h] at hposHigh hxu
      exact ⟨u - 1, hposHigh.trans (int64_sub_one u), (sub_one_lt u).le, Int.le_sub_one_of_lt hxu⟩
    · rw [if_neg h] at hposHigh hxu
      exact ⟨u, hposHigh, le_rfl, hxu⟩
  cases unsigned with
  | false =>
    have hint : ∀ y, l ≤ y → y ≤ u → int64 y = y := fun y hy hy' =>
      int64_of_isInt64 ⟨hl.1.trans hy, (hy'.trans hu.2).trans_lt (by decide)⟩
    rw [hint a hla (hax.trans (hxb.trans hbu)), hint x (hla.trans hax) (hxb.trans hbu),
      hint b (hla.trans (hax.trans hxb)) hbu]
    exact ⟨hax, hxb⟩
  | true =>
    have hmin : 0 ≤ l := hl.1
    have hmax : u ≤ 0xFFFFFFFFFFFFFFFF := hu.2
    have hcross := hside rfl
    unfold int64 at hcross ⊢
    omega

/-! ## The pruning -/

theorem hashIndex_mem_convertToIntSlice (hpos : 0 < pi.num) {x : ℤ}
    (hsel : selected pi partitionNames (pi.hashIndex x)) : pi.hashIndex x ∈ convertToIntSlice pi partitionNames := by
  have hlt : |x.tmod pi.num| < pi.num := by
    rw [Int.abs_eq_natAbs, Int.natAbs_tmod]
    have hmod := Nat.mod_lt x.natAbs (Int.natAbs_pos.mpr hpos.ne')
    omega
  unfold convertToIntSlice
  rw [mem_filter, mem_map]
  refine ⟨⟨(pi.hashIndex x).toNat, ?_, ?_⟩, hsel⟩
  · rw [mem_range]
    unfold num at hpos hlt
    unfold hashIndex num
    omega
  · exact Int.toNat_of_nonneg (abs_nonneg _)

theorem locateHashPartition_mem_convertToIntSlice (hpos : 0 < pi.num)
    (hsel : selected pi partitionNames (pi.locateHashPartition v)) :
    pi.locateHashPartition v ∈ convertToIntSlice pi partitionNames := by
  cases v with
  | none => exact hashIndex_mem_convertToIntSlice hpos hsel
  | some x => exact hashIndex_mem_convertToIntSlice hpos hsel

theorem locateHashPartition_of_point (hpoint : r.isPointNullable = true) (hv : r.Contains v) :
    pi.locateHashPartition v = pi.hashIndex (r.high.evalInt.getD 0) := by
  unfold ColumnRange.isPointNullable at hpoint
  obtain ⟨low, high, lowExclude, highExclude⟩ := r
  cases low with
  | null =>
    cases high with
    | null =>
      cases v with
      | none => rfl
      | some x =>
        obtain ⟨-, hhigh⟩ := hv
        cases highExclude <;> simp [Bound.ofValue, Bound.compare] at hhigh
    | _ => simp [Bound.compare] at hpoint
  | minNotNull => cases hpoint
  | value l =>
    cases high with
    | value u =>
      simp only [Bound.compare, Bool.and_eq_true, beq_iff_eq, compare_eq_iff_eq, Bool.not_eq_true'] at hpoint
      obtain ⟨⟨hlu, rfl⟩, rfl⟩ := hpoint
      obtain ⟨x, rfl, hlx, hxu⟩ := (contains_iff rfl rfl).mp hv
      have hxval : x.val = u.val := le_antisymm hxu (hlu ▸ hlx)
      show pi.hashIndex (int64 x.val) = pi.hashIndex (int64 u.val)
      rw [hxval]
    | _ => simp [Bound.compare] at hpoint
  | maxValue => cases high <;> simp [Bound.compare] at hpoint

theorem interval_of_not_point (hpoint : r.isPointNullable = false) : interval pi r = isShort pi r := by
  rw [interval, hpoint, if_neg Bool.false_ne_true]

theorem reads_of_contains (hr : (interval pi r).isSome) (hcross : ¬ Crosses pi r) (hv : r.Contains v) :
    Reads pi r (pi.locateHashPartition v) := by
  obtain ⟨⟨posLow, posHigh⟩, hinterval⟩ := Option.isSome_iff_exists.mp hr
  cases hpoint : r.isPointNullable with
  | true =>
    rw [locateHashPartition_of_point hpoint hv]
    exact ⟨_, _, if_pos hpoint, _, le_rfl, le_rfl, rfl⟩
  | false =>
    have hshort := (interval_of_not_point hpoint).symm.trans hinterval
    obtain ⟨x, rfl, hlow, hhigh⟩ := between_of_contains hshort
      (fun hunsigned hside => hcross ⟨hunsigned, posLow, posHigh, hinterval, hside⟩) hv
    exact ⟨posLow, posHigh, hinterval, _, hlow, hhigh, rfl⟩

section Loop

variable {rs ranges : List (ColumnRange unsigned)}

theorem usedLoop_of_none (h : interval pi r = none) :
    usedLoop pi partitionNames fuel (r :: rs) = some none := by
  unfold interval at h
  split at h
  · cases h
  · rw [usedLoop, if_neg ‹_›, h]

/-- A range that ends in time adds the partitions it reads, so far as they are selected. -/
theorem usedLoop_of_ends (h : (interval pi r).isSome) (hends : EndsInTime pi r) :
    ∃ here, (∀ idx, idx ∈ here ↔ selected pi partitionNames idx ∧ Reads pi r idx) ∧
      usedLoop pi partitionNames (pi.definitions.length + 1) (r :: rs) =
        (usedLoop pi partitionNames (pi.definitions.length + 1) rs).map fun rest => rest.map (here ++ ·) := by
  obtain ⟨⟨posLow, posHigh⟩, hinterval⟩ := Option.isSome_iff_exists.mp h
  have hreads : ∀ idx, Reads pi r idx ↔ ∃ i, posLow ≤ i ∧ i ≤ posHigh ∧ pi.hashIndex i = idx := by
    intro idx
    simp [Reads, hinterval]
  cases hpoint : r.isPointNullable with
  | true =>
    unfold interval at hinterval
    rw [if_pos hpoint] at hinterval
    cases hinterval
    refine ⟨if selected pi partitionNames (pi.hashIndex (r.high.evalInt.getD 0))
      then [pi.hashIndex (r.high.evalInt.getD 0)] else [], fun idx => ?_, ?_⟩
    · have hat : Reads pi r idx ↔ idx = pi.hashIndex (r.high.evalInt.getD 0) := by
        rw [hreads]
        constructor
        · rintro ⟨i, hlow, hhigh, rfl⟩
          rw [le_antisymm hhigh hlow]
        · rintro rfl
          exact ⟨_, le_rfl, le_rfl, rfl⟩
      rw [hat]
      split <;> rename_i hsel
      · rw [mem_singleton, iff_and_self]
        rintro rfl
        exact hsel
      · refine iff_of_false not_mem_nil ?_
        rintro ⟨hidx, rfl⟩
        exact hsel hidx
    · rw [usedLoop, if_pos hpoint]
      dsimp only
      split <;> simp
  | false =>
    have hshort := (interval_of_not_point hpoint).symm.trans hinterval
    obtain hnot | hall := hends
    · cases hnot.symm.trans hpoint
    · obtain ⟨hmax, hlen⟩ := hall posLow posHigh hshort
      unfold num at hlen
      have hfuel : posHigh - posLow < (pi.definitions.length + 1 : ℕ) := by omega
      obtain ⟨here, hhere, hmem⟩ := @enumerate_spec pi partitionNames posHigh posLow _ hmax
        (isInt64_of_isShort hshort).1.1 hfuel
      refine ⟨here, fun idx => ?_, ?_⟩
      · rw [hmem, hreads]
      · rw [usedLoop, hpoint, if_neg Bool.false_ne_true, hshort]
        dsimp only
        rw [hhere]

theorem usedLoop_of_late (hpoint : ¬ r.isPointNullable = true) (hshort : isShort pi r = some (posLow, posHigh))
    (hlate : posHigh = maxInt64 ∨ posLow + fuel ≤ posHigh) : usedLoop pi partitionNames fuel (r :: rs) = none := by
  obtain ⟨hlow, hhigh⟩ := isInt64_of_isShort hshort
  rw [usedLoop, if_neg hpoint, hshort]
  dsimp only
  rw [enumerate_eq_none hlow (le_maxInt64 hhigh) hlate]

theorem usedLoop_of_not_ends (hends : ¬ EndsInTime pi r) :
    usedLoop pi partitionNames (pi.definitions.length + 1) (r :: rs) = none := by
  unfold EndsInTime at hends
  push Not at hends
  obtain ⟨hpoint, posLow, posHigh, hshort, hlate⟩ := hends
  have hhigh := le_maxInt64 (isInt64_of_isShort hshort).2
  unfold num at hlate
  exact usedLoop_of_late hpoint hshort (by omega)

theorem usedLoop_eq_none (h : ∃ r ∈ reached pi ranges, ¬ EndsInTime pi r) :
    usedLoop pi partitionNames (pi.definitions.length + 1) ranges = none := by
  induction ranges with
  | nil =>
    obtain ⟨r, hr, -⟩ := h
    cases hr
  | cons q rs ih =>
    obtain ⟨r, hr, hends⟩ := h
    unfold reached at hr
    rw [takeWhile_cons] at hr
    split at hr
    · rename_i hq
      by_cases hqends : EndsInTime pi q
      · have hrs : ∃ r ∈ reached pi rs, ¬ EndsInTime pi r := by
          rcases mem_cons.mp hr with rfl | hr
          · exact absurd hqends hends
          · exact ⟨r, hr, hends⟩
        obtain ⟨here, -, hloop⟩ := @usedLoop_of_ends unsigned pi partitionNames q rs hq hqends
        rw [hloop, ih hrs, Option.map_none]
      · exact usedLoop_of_not_ends hqends
    · cases hr

theorem usedLoop_spec (hends : ∀ r ∈ reached pi ranges, EndsInTime pi r) :
    (reached pi ranges ≠ ranges ∧ usedLoop pi partitionNames (pi.definitions.length + 1) ranges = some none) ∨
    reached pi ranges = ranges ∧ ∃ used, usedLoop pi partitionNames (pi.definitions.length + 1) ranges =
      some (some used) ∧ ∀ idx, idx ∈ used ↔ selected pi partitionNames idx ∧ ∃ r ∈ ranges, Reads pi r idx := by
  induction ranges with
  | nil => exact Or.inr ⟨rfl, [], rfl, by simp⟩
  | cons r rs ih =>
    cases hr : interval pi r with
    | none =>
      have hstop : reached pi (r :: rs) = [] := by
        unfold reached
        rw [takeWhile_cons, hr]
        rfl
      rw [hstop]
      exact Or.inl ⟨(cons_ne_nil _ _).symm, usedLoop_of_none hr⟩
    | some bounds =>
      have hsome : (interval pi r).isSome := by rw [hr, Option.isSome_some]
      have hnext : reached pi (r :: rs) = r :: reached pi rs := by
        unfold reached
        rw [takeWhile_cons, if_pos hsome]
      rw [hnext, forall_mem_cons] at hends
      obtain ⟨here, hmem, hloop⟩ := @usedLoop_of_ends unsigned pi partitionNames r rs hsome hends.1
      rw [hnext, hloop]
      rcases ih hends.2 with ⟨hne, hrest⟩ | ⟨heq, rest, hrest, hall⟩
      · rw [hrest]
        exact Or.inl ⟨fun h => hne (cons.inj h).2, rfl⟩
      · rw [hrest]
        refine Or.inr ⟨by rw [heq], here ++ rest, rfl, fun idx => ?_⟩
        rw [mem_append, hmem, hall, ← and_or_left, exists_mem_cons_iff]

end Loop

theorem reads_nonneg {idx : ℤ} (h : Reads pi r idx) : 0 ≤ idx := by
  obtain ⟨_, _, _, _, _, _, rfl⟩ := h
  exact abs_nonneg _

/-- Pruning ends in time and keeps the partition of every row in the ranges if and only if they are enumerated
well. -/
theorem findUsedPartitions_keeps_iff (hpos : 0 < pi.num) (ranges : List (ColumnRange unsigned)) :
    KeepsRowsOf pi partitionNames ranges ↔ EnumeratesWell pi partitionNames ranges := by
  unfold KeepsRowsOf findUsedPartitions
  by_cases hends : ∀ r ∈ reached pi ranges, EndsInTime pi r
  · rcases @usedLoop_spec unsigned pi partitionNames ranges hends with ⟨hne, hloop⟩ | ⟨heq, used, hloop, hmem⟩
    · rw [hloop]
      refine iff_of_true ⟨_, rfl, fun v _ hsel => ?_⟩ ⟨hends, fun heq => absurd heq hne⟩
      dsimp only
      split
      · exact Or.inl rfl
      · exact Or.inr (locateHashPartition_mem_convertToIntSlice hpos hsel)
    · have hfound : ∀ idx, idx ∈ compact (used.insertionSort (· ≤ ·)) ↔
          selected pi partitionNames idx ∧ ∃ r ∈ ranges, Reads pi r idx := by
        intro idx
        rw [mem_compact, (perm_insertionSort _ _).mem_iff, hmem]
      rw [hloop]
      constructor
      · rintro ⟨used, hused, hkeeps⟩
        cases hused
        refine ⟨hends, fun _ r hr _ v hv hsel => ?_⟩
        rcases hkeeps v ⟨r, hr, hv⟩ hsel with hfull | hin
        · -- the indices of partitions are not negative
          have hbad := (hfound FullRange).mp (by simp only [hfull, mem_singleton])
          obtain ⟨-, q, -, hq⟩ := hbad
          exact absurd (reads_nonneg hq) (by decide)
        · exact ((hfound _).mp hin).2
      · intro hwell
        refine ⟨_, rfl, fun v hv hsel => Or.inr ((hfound _).mpr ⟨hsel, ?_⟩)⟩
        obtain ⟨r, hr, hv⟩ := hv
        by_cases hcross : Crosses pi r
        · exact hwell.crossing heq r hr hcross v hv hsel
        · have hsome : (interval pi r).isSome := all_eq_true.mp all_takeWhile r (heq ▸ hr)
          exact ⟨r, hr, reads_of_contains hsome hcross hv⟩
  · rw [usedLoop_eq_none (by push Not at hends; exact hends)]
    refine iff_of_false ?_ fun hwell => hends hwell.ends
    rintro ⟨used, hused, -⟩
    cases hused

/-- On four partitions of a signed column: `a between 5 and 6`, an interval that needs all partitions, and one that
is enumerated for ever if it is reached. -/
theorem keepsRowsOf_before_full :
    KeepsRowsOf ⟨["p0", "p1", "p2", "p3"]⟩ []
      ([⟨.value ⟨5, by decide⟩, .value ⟨6, by decide⟩, false, false⟩,
        ⟨.value ⟨0, by decide⟩, .value ⟨100000, by decide⟩, false, false⟩,
        ⟨.value ⟨0x7FFFFFFFFFFFFFFE, by decide⟩, .value ⟨0x7FFFFFFFFFFFFFFF, by decide⟩, false, false⟩] :
        List (ColumnRange false)) := by
  refine (findUsedPartitions_keeps_iff (by decide) _).mpr ⟨?_, ?_⟩
  · intro r hr
    obtain rfl := mem_singleton.mp (show r ∈ [⟨.value ⟨5, by decide⟩, .value ⟨6, by decide⟩, false, false⟩] from hr)
    refine Or.inr fun posLow posHigh hshort => ?_
    cases (show some ((5 : ℤ), (6 : ℤ)) = some (posLow, posHigh) from hshort)
    decide
  · intro hall r hr hcross
    cases hcross.1

/-- On an unsigned column `a between 9223372036854775807 and 9223372036854775808` reads no partition; on a signed one
`a between 9223372036854775806 and 9223372036854775807` is enumerated for ever. -/
theorem between_across_maxInt64 :
    (let pi : PartitionInfo := ⟨["p0", "p1", "p2", "p3"]⟩
     let v : Bigint true := ⟨0x7FFFFFFFFFFFFFFF, by decide⟩
     let r : ColumnRange true := ⟨.value v, .value ⟨0x8000000000000000, by decide⟩, false, false⟩
     findUsedPartitions pi [] 5 [r] = some [] ∧ r.Contains (some v) ∧ pi.locateHashPartition (some v) = 3) ∧
    ∀ fuel, findUsedPartitions ⟨["p0", "p1", "p2", "p3"]⟩ [] fuel
      [(⟨.value ⟨0x7FFFFFFFFFFFFFFE, by decide⟩, .value ⟨0x7FFFFFFFFFFFFFFF, by decide⟩, false, false⟩ :
        ColumnRange false)] = none := by
  refine ⟨⟨by decide, by decide, by decide⟩, fun fuel => ?_⟩
  have hshort : isShort ⟨["p0", "p1", "p2", "p3"]⟩ (⟨.value ⟨0x7FFFFFFFFFFFFFFE, by decide⟩,
      .value ⟨0x7FFFFFFFFFFFFFFF, by decide⟩, false, false⟩ : ColumnRange false) =
      some (0x7FFFFFFFFFFFFFFE, 0x7FFFFFFFFFFFFFFF) := by decide
  rw [findUsedPartitions, usedLoop_of_late (by decide) hshort (Or.inl rfl), Option.map_none]

end Planner
