import Tidb.Planner.RangePartition

/-!
# Pruning keeps the partition of a row

A 64-bit integer stands for a number by its type.  The partition of a row is the first whose bound is above the number
of the column; a condition keeps the partitions of the numbers that satisfy it, when its constant is read by the
column's type.  Where the constant's own type reads it differently the pruning may drop the partition of a row.
-/

namespace Planner

open GoLang List LessThanDataInt Option PartitionRangeOR

/-! ## Numbers -/

def number (unsigned : Bool) (v : Int64) : ℤ := if unsigned then v.toUInt64.toNat else v.toInt

theorem number_true (v : Int64) :
    number true v = if number false v < 0 then number false v + 2 ^ 64 else number false v := by
  have h := BitVec.toInt_eq_toNat_cond v.toBitVec
  have hint : number false v = v.toBitVec.toInt := rfl
  have hnat : number true v = v.toBitVec.toNat := rfl
  split_ifs <;> omega

theorem number_false_bounds (v : Int64) : -2 ^ 63 ≤ number false v ∧ number false v < 2 ^ 63 :=
  ⟨v.le_toInt, v.toInt_lt⟩

theorem number_lt_iff (unsigned : Bool) (x y : Int64) :
    number unsigned x < number unsigned y ↔ if unsigned then x.toUInt64 < y.toUInt64 else x < y := by
  cases unsigned with
  | false => exact Int64.lt_iff_toInt_lt.symm
  | true =>
    simp only [number, if_true, Nat.cast_lt]
    exact UInt64.lt_iff_toNat_lt.symm

theorem number_inj (unsigned : Bool) {x y : Int64} : number unsigned x = number unsigned y ↔ x = y := by
  cases unsigned with
  | false => exact Int64.toInt_inj
  | true =>
    simp only [number, if_true, Nat.cast_inj, UInt64.toNat_inj]
    exact ⟨fun h => by rw [← Int64.toInt64_toUInt64 x, h, Int64.toInt64_toUInt64], fun h => by rw [h]⟩

variable {v : Int64}

theorem number_false_add_one (h : number false v < 2 ^ 63 - 1) : number false (v + 1) = number false v + 1 := by
  have hv := number_false_bounds v
  have hsum : number false (v + 1) = (number false v + 1).bmod (2 ^ 64) := Int64.toInt_add v 1
  rw [hsum, Int.bmod_def]
  split_ifs <;> omega

theorem number_add_one_le (unsigned : Bool) (v : Int64) : number unsigned (v + 1) ≤ number unsigned v + 1 := by
  cases unsigned with
  | false =>
    have hv := number_false_bounds v
    have hsum : number false (v + 1) = (number false v + 1).bmod (2 ^ 64) := Int64.toInt_add v 1
    rw [hsum, Int.bmod_def]
    split_ifs <;> omega
  | true =>
    have hsum : number true (v + 1) = ((v.toUInt64.toNat + 1) % 2 ^ 64 : ℕ) := by rfl
    show _ ≤ ((v.toUInt64.toNat : ℕ) : ℤ) + 1
    omega

def IntValue.number (x : IntValue) : ℤ := Planner.number x.unsigned x.bits

theorem compare_number (unsigned : Bool) (x y : Int64) :
    (if unsigned then compare x.toUInt64 y.toUInt64 else compare x y)
      = compare (number unsigned x) (number unsigned y) := by
  have hlt := number_lt_iff unsigned x y
  have heq := @number_inj unsigned x y
  cases unsigned with
  | false =>
    show compareOfLessAndEq _ _ = compareOfLessAndEq _ _
    simp only [compareOfLessAndEq, hlt, heq]
    rfl
  | true =>
    show compareOfLessAndEq _ _ = compareOfLessAndEq _ _
    have heq' : x.toUInt64 = y.toUInt64 ↔ number true x = number true y := by
      simp only [number, if_true, Nat.cast_inj, UInt64.toNat_inj]
    simp only [compareOfLessAndEq, hlt, heq', if_true]

theorem compareInt_eq (x y : IntValue) : compareInt x y = compare x.number y.number := by
  obtain ⟨x, ux⟩ := x
  obtain ⟨y, uy⟩ := y
  have hx := number_true x
  have hy := number_true y
  have hbx := number_false_bounds x
  have hby := number_false_bounds y
  have hneg : ∀ v : Int64, v < 0 ↔ number false v < 0 := fun v => Int64.lt_iff_toInt_lt
  have hbig : ∀ v : Int64, v.toUInt64 > 0x7FFFFFFFFFFFFFFF ↔ number true v > 0x7FFFFFFFFFFFFFFF := by
    intro v
    show 0x7FFFFFFFFFFFFFFF < v.toUInt64.toNat ↔ (0x7FFFFFFFFFFFFFFF : ℤ) < (v.toUInt64.toNat : ℕ)
    omega
  have hsigned := compare_number false x y
  rw [if_neg Bool.false_ne_true] at hsigned
  cases ux with
  | false =>
    cases uy with
    | false => exact hsigned
    | true =>
      simp only [compareInt, IntValue.number, hneg, hbig]
      split_ifs with hcond
      · exact (compare_lt_iff_lt.mpr (by split_ifs at hy <;> omega)).symm
      · have hsame : number true y = number false y := by split_ifs at hy <;> omega
        rw [hsigned, hsame]
  | true =>
    cases uy with
    | false =>
      simp only [compareInt, IntValue.number, hneg, hbig]
      split_ifs with hcond
      · exact (compare_gt_iff_gt.mpr (by split_ifs at hx <;> omega)).symm
      · have hsame : number true x = number false x := by split_ifs at hx <;> omega
        rw [hsigned, hsame]
    | true =>
      have hunsigned := compare_number true x y
      exact hunsigned

def CmpOp.Holds : CmpOp → ℤ → ℤ → Prop
  | .eq, x, y => x = y
  | .lt, x, y => x < y
  | .gt, x, y => y < x
  | .le, x, y => x ≤ y
  | .ge, x, y => y ≤ x

theorem CmpOp.holds_compareInt (op : CmpOp) (x y : IntValue) :
    op.holds (compareInt x y) = true ↔ op.Holds x.number y.number := by
  rw [compareInt_eq]
  cases op with
  | eq => simp [CmpOp.holds, CmpOp.Holds]
  | gt => simp [CmpOp.holds, CmpOp.Holds, compare_gt_iff_gt]
  | le => simp [CmpOp.holds, CmpOp.Holds, compare_gt_iff_gt]
  | _ => simp [CmpOp.holds, CmpOp.Holds, compare_lt_iff_lt]

variable {op : CmpOp} {x : ℤ}

theorem CmpOp.holds_opposite {y : ℤ} : op.opposite.Holds y x ↔ op.Holds x y := by
  cases op with
  | eq => exact eq_comm
  | _ => exact Iff.rfl

/-! ## Bounds -/

namespace LessThanDataInt

variable {lt : LessThanDataInt} {unsigned : Bool}

def Below (lt : LessThanDataInt) (unsigned : Bool) (i : ℕ) (x : ℤ) : Prop :=
  (i = lt.data.length - 1 ∧ lt.maxvalue = true) ∨ x < number unsigned (lt.data.getD i 0)

def Increasing (lt : LessThanDataInt) (unsigned : Bool) : Prop :=
  ∀ i j, i < j → j < lt.length → lt.Below unsigned j (number unsigned (lt.data.getD i 0))

variable {i : ℕ}

theorem Below.mono_le {y : ℤ} (h : lt.Below unsigned i x) (hyx : y ≤ x) : lt.Below unsigned i y := by
  rcases h with h | h
  · exact .inl h
  · exact .inr (by omega)

theorem Increasing.below_mono (hlt : lt.Increasing unsigned) {j : ℕ} (hij : i ≤ j)
    (hj : j < lt.length) (h : lt.Below unsigned i x) : lt.Below unsigned j x := by
  rcases Nat.eq_or_lt_of_le hij with rfl | hlt'
  · exact h
  · rcases h with ⟨hlast, -⟩ | h
    · rw [length] at hj
      omega
    · exact (hlt i j hlt' hj).mono_le h.le

theorem compare_pos : lt.compare i v unsigned > 0 ↔ lt.Below unsigned i (number unsigned v) := by
  rw [Below, number_lt_iff, compare]
  cases unsigned with
  | false => grind
  | true =>
    simp only [compareUnsigned]
    grind

theorem compare_nonneg : lt.compare i v unsigned ≥ 0 ↔ lt.Below unsigned i (number unsigned v - 1) := by
  have hsplit : number unsigned v - 1 < number unsigned (lt.data.getD i 0) ↔
      number unsigned v < number unsigned (lt.data.getD i 0) ∨ v = lt.data.getD i 0 := by
    rw [← number_inj unsigned]
    omega
  rw [Below, hsplit, number_lt_iff, compare]
  cases unsigned with
  | false => grind
  | true =>
    have heq : lt.data.getD i 0 = v ↔ (lt.data.getD i 0).toUInt64 = v.toUInt64 := by
      constructor
      · intro h
        rw [h]
      · intro h
        rw [← Int64.toInt64_toUInt64 v, ← h, Int64.toInt64_toUInt64]
    simp only [compareUnsigned]
    grind

end LessThanDataInt

def IsPartitionOf (lt : LessThanDataInt) (unsigned : Bool) (x : ℤ) (i : ℕ) : Prop :=
  i < lt.length ∧ ∀ a < lt.length, lt.Below unsigned a x ↔ i ≤ a

variable {unsigned : Bool} {lt : LessThanDataInt}

theorem search_below (hlt : lt.Increasing unsigned) {f : ℕ → Bool} (hf : ∀ a, f a = true ↔ lt.Below unsigned a x) :
    search lt.length f ≤ lt.length ∧ ∀ a < lt.length, lt.Below unsigned a x ↔ search lt.length f ≤ a := by
  have hmono : ∀ a b, a ≤ b → b < lt.length → f a = true → f b = true := by
    intro a b hab hb ha
    exact (hf b).mpr (hlt.below_mono hab hb ((hf a).mp ha))
  obtain ⟨hle, hiff⟩ := search_spec hmono
  exact ⟨hle, fun a ha => (hf a).symm.trans (hiff a ha)⟩

theorem locateRangePartition_some (hlt : lt.Increasing unsigned) {i : ℕ}
    (h : locateRangePartition lt unsigned (some v) = some i) : IsPartitionOf lt unsigned (number unsigned v) i := by
  obtain ⟨-, hiff⟩ := search_below hlt (x := number unsigned v)
    (f := fun i => (none : Option Int64).isSome || decide (lt.compare i v unsigned > 0))
    (fun a => by simpa using compare_pos)
  simp only [locateRangePartition, isNone_some, Bool.false_eq_true, if_false] at h
  split_ifs at h with hpos
  cases h
  exact ⟨Nat.lt_of_not_le hpos, hiff⟩

theorem locateRangePartition_null {i : ℕ}
    (h : locateRangePartition lt unsigned none = some i) : i = 0 ∧ 0 < lt.length := by
  simp only [locateRangePartition, isNone_none, if_true] at h
  split_ifs at h with hpos
  cases h
  exact ⟨rfl, Nat.lt_of_not_le hpos⟩

/-! ## Sets of partitions -/

def PartitionRangeOR.Has (or : PartitionRangeOR) (i : ℕ) : Prop := ∃ r ∈ or, r.start ≤ i ∧ i < r.stop

namespace PartitionRangeOR

@[simp] theorem has_fullRange {n i : ℕ} : Has (Planner.fullRange n) i ↔ i < n := by simp [Has, Planner.fullRange]

@[simp] theorem has_nil {i : ℕ} : ¬ Has [] i := by simp [Has]

variable {or : PartitionRangeOR}

theorem has_cons {r : PartitionRange} {i : ℕ} : Has (r :: or) i ↔ (r.start ≤ i ∧ i < r.stop) ∨ or.Has i := by simp [Has]

variable {x : PartitionRangeOR}

theorem has_append {i : ℕ} : Has (or ++ x) i ↔ or.Has i ∨ x.Has i := by
  simp only [Has, mem_append, or_and_right, exists_or]

theorem has_intersectionRange {start stop i : ℕ} :
    (or.intersectionRange start stop).Has i ↔ or.Has i ∧ start ≤ i ∧ i < stop := by
  induction or with
  | nil => simp [intersectionRange]
  | cons r or ih =>
    rw [has_cons, intersectionRange, filterMap_cons]
    simp only [Planner.intersectionRange]
    split_ifs with h1 h2 h3 h3 h3 h3
    all_goals
      first
      | (rw [has_cons]; change _ ∨ (intersectionRange or start stop).Has i ↔ _; rw [ih]; grind)
      | (change (intersectionRange or start stop).Has i ↔ _; rw [ih]; grind)

theorem has_mergeLoop {last : PartitionRange} (hsorted : (last :: or).Pairwise fun a b => a.start ≤ b.start) {i : ℕ} :
    (mergeLoop last or).Has i ↔ Has (last :: or) i := by
  induction or generalizing last with
  | nil => rfl
  | cons curr rest ih =>
    obtain ⟨hlast, hrest⟩ := pairwise_cons.mp hsorted
    obtain ⟨hcurr, hrest'⟩ := pairwise_cons.mp hrest
    have hle := hlast curr mem_cons_self
    rw [mergeLoop]
    split
    next => rw [has_cons, ih hrest, has_cons (r := last)]
    next hnext =>
      rw [ih]
      · rw [has_cons, has_cons, has_cons]
        split_ifs
        all_goals grind
      · apply pairwise_cons.mpr
        exact ⟨fun r hr => hle.trans (hcurr r hr), hrest'⟩

theorem has_simplify {i : ℕ} : or.simplify.Has i ↔ or.Has i := by
  have hperm := mergeSort_perm or fun a b => decide (a.start ≤ b.start)
  have hsorted := @pairwise_mergeSort PartitionRange (fun a b => decide (a.start ≤ b.start))
    (by simp only [decide_eq_true_eq]; omega) (by simp only [Bool.or_eq_true, decide_eq_true_eq]; omega) or
  have hhas : Has (or.mergeSort fun a b => decide (a.start ≤ b.start)) i ↔ or.Has i := by simp only [Has, hperm.mem_iff]
  rw [← hhas, simplify]
  cases hsort : or.mergeSort fun a b => decide (a.start ≤ b.start) with
  | nil => rfl
  | cons first rest =>
    rw [hsort] at hsorted
    apply has_mergeLoop
    simpa using hsorted

theorem has_union {i : ℕ} : (or.union x).Has i ↔ or.Has i ∨ x.Has i := by rw [union, has_simplify, has_append]

theorem has_flatMap {y : PartitionRangeOR} {i : ℕ} :
    Has (y.flatMap fun r => x.intersectionRange r.start r.stop) i ↔ x.Has i ∧ y.Has i := by
  induction y with
  | nil => simp
  | cons r y ih =>
    rw [flatMap_cons, has_append, has_intersectionRange, has_cons]
    grind

theorem has_intersection {i : ℕ} : (or.intersection x).Has i ↔ or.Has i ∧ x.Has i := by
  unfold intersection
  split
  next r _ =>
    rw [has_intersectionRange, has_cons]
    simp only [has_nil, or_false, and_comm]
  next r _ =>
    rw [has_intersectionRange, has_cons]
    simp
  next =>
    rw [has_simplify]
    split_ifs
    · exact has_flatMap
    · rw [has_flatMap, and_comm]

end PartitionRangeOR

/-! ## Single conditions -/

/-- What the pruning takes a comparison to say: the constant is read in the type of the column, and `>` asks for its
successor or more. -/
def PruneOp.Asks (unsigned : Bool) (c : Int64) (x : ℤ) : PruneOp → Prop
  | .eq => x = number unsigned c
  | .lt => x < number unsigned c
  | .gt => number unsigned (c + 1) ≤ x
  | .le => x ≤ number unsigned c
  | .ge => number unsigned c ≤ x
  | .isNull => False

theorem pruneUseBinarySearch_keeps (hlt : lt.Increasing unsigned) {i : ℕ} (hi : IsPartitionOf lt unsigned x i)
    (data : DataForPrune) (h : data.op.Asks unsigned data.c x) :
    (pruneUseBinarySearch lt data unsigned).1 ≤ i ∧ i < (pruneUseBinarySearch lt data unsigned).2 := by
  obtain ⟨hlen, hfirst⟩ := hi
  have hbelow : lt.Below unsigned i x := (hfirst i hlen).mpr (Nat.le_refl i)
  have habove := fun c : Int64 => search_below hlt (x := number unsigned c)
    (f := fun i => decide (lt.compare i c unsigned > 0))
    (fun a => by simpa using compare_pos)
  -- a search for a number that is not above `x` does not go past the partition
  have hstart : ∀ c, number unsigned c ≤ x → (search lt.length fun i => decide (lt.compare i c unsigned > 0)) ≤ i :=
    fun c hc => ((habove c).2 i hlen).mp (hbelow.mono_le hc)
  -- and one for a number that is not below `x` does not stop before it
  have hstop : ∀ c, x ≤ number unsigned c → i ≤ search lt.length fun i => decide (lt.compare i c unsigned > 0) := by
    intro c hc
    by_contra hlt'
    have hpos := ((habove c).2 _ ((Nat.lt_of_not_le hlt').trans hlen)).mpr (Nat.le_refl _)
    exact hlt' ((hfirst _ ((Nat.lt_of_not_le hlt').trans hlen)).mp (hpos.mono_le hc))
  obtain ⟨op, c⟩ := data
  cases op with
  | eq =>
    have h1 := hstart c (le_of_eq h.symm)
    have h2 := hstop c (le_of_eq h)
    simp only [pruneUseBinarySearch]
    split_ifs <;> omega
  | lt =>
    have hx : x < number unsigned c := h
    obtain ⟨-, hiff⟩ := search_below hlt (x := number unsigned c - 1)
      (f := fun i => decide (lt.compare i c unsigned ≥ 0))
      (fun a => by simpa using compare_nonneg)
    have hle : i ≤ search lt.length fun i => decide (lt.compare i c unsigned ≥ 0) := by
      by_contra hlt'
      have hpos := (hiff _ ((Nat.lt_of_not_le hlt').trans hlen)).mpr (Nat.le_refl _)
      exact hlt' ((hfirst _ ((Nat.lt_of_not_le hlt').trans hlen)).mp (hpos.mono_le (by omega)))
    simp only [pruneUseBinarySearch]
    split_ifs <;> omega
  | ge =>
    have h1 := hstart c h
    simp only [pruneUseBinarySearch]
    split_ifs <;> omega
  | gt =>
    have h1 := hstart (c + 1) h
    simp only [pruneUseBinarySearch]
    split_ifs <;> omega
  | le =>
    have h2 := hstop c h
    simp only [pruneUseBinarySearch]
    split_ifs <;> omega
  | isNull => exact absurd h id

theorem pruneUseBinarySearch_stop_le (lt : LessThanDataInt) (data : DataForPrune) (unsigned : Bool) :
    (pruneUseBinarySearch lt data unsigned).2 ≤
      match data.op with
      | .lt => (search lt.length fun i => decide (lt.compare i data.c unsigned ≥ 0)) + 1
      | .le => (search lt.length fun i => decide (lt.compare i data.c unsigned > 0)) + 1
      | _ => lt.length := by
  have hcut : ∀ a b : ℕ, (if a > b then b else a) ≤ a ∧ (if a > b then b else a) ≤ b := by
    intro a b
    split_ifs <;> omega
  obtain ⟨op, c⟩ := data
  cases op with
  | lt => exact (hcut _ _).1
  | le => exact (hcut _ _).1
  | _ => exact (hcut _ _).2

/-- The constant keeps its meaning when its bits are read in the type of the column, as far as it matters: a signed
column is never above `2^63`, nor an unsigned one below a negative number, and `-1` has `0` as its successor. -/
def CmpOp.Fits (unsigned : Bool) (c : IntValue) : CmpOp → Prop
  | .eq => True
  | .lt => unsigned = false → c.number < 2 ^ 63
  | .le => unsigned = false → c.number < 2 ^ 63
  | .gt => unsigned = true → -1 ≤ c.number
  | .ge => unsigned = true → 0 ≤ c.number

variable {c : IntValue}

theorem CmpOp.Holds.asks (h : op.Holds (number unsigned v) c.number) (hfits : op.Fits unsigned c) :
    op.toPruneOp.Asks unsigned c.bits (number unsigned v) := by
  obtain ⟨c, uc⟩ := c
  by_cases hu : uc = unsigned
  · -- the types agree
    subst hu
    have hsucc := number_add_one_le uc c
    cases op with
    | gt => exact hsucc.trans h
    | _ => exact h
  · have hv := number_true v
    have hbv := number_false_bounds v
    have hcc := number_true c
    have hbc := number_false_bounds c
    have hnum : (IntValue.mk c uc).number = number uc c := rfl
    have hsucc := number_add_one_le unsigned c
    rw [hnum] at h
    -- either reading of the constant is the same, or it is above or below the column
    cases unsigned with
    | false =>
      obtain rfl : uc = true := by simpa using hu
      cases op <;> simp only [CmpOp.Holds, CmpOp.Fits, CmpOp.toPruneOp, PruneOp.Asks, hnum, forall_const]
        at h hfits ⊢ <;>
        split_ifs at hcc <;> omega
    | true =>
      obtain rfl : uc = false := by simpa using hu
      have hzero : number false c = -1 → number true (c + 1) = 0 := by
        intro hminus
        rw [(number_inj false).mp (show _ = number false (-1) from hminus)]
        rfl
      cases op <;> simp only [CmpOp.Holds, CmpOp.Fits, CmpOp.toPruneOp, PruneOp.Asks, hnum, forall_const]
        at h hfits ⊢ <;>
        split_ifs at hcc hv <;> omega

namespace RangePruner

variable {unsignedFlag : ℤ → Bool} {p : RangePruner} {r : Row} {i : ℕ}

theorem compareHolds_iff {x y : Option IntValue} :
    compareHolds op x y = true ↔ ∃ a b, x = some a ∧ y = some b ∧ op.Holds a.number b.number := by
  cases x with
  | none => simp [compareHolds]
  | some a =>
    cases y with
    | none => simp [compareHolds]
    | some b => simp [compareHolds, CmpOp.holds_compareInt]

theorem eval_column {id : ℤ} {x : IntValue} (h : (Operand.column id).eval unsignedFlag r = some x) :
    ∃ v, r.column id = some v ∧ x.number = number (unsignedFlag id) v := by
  rw [Operand.eval, map_eq_some_iff] at h
  obtain ⟨v, hv, rfl⟩ := h
  exact ⟨v, hv, rfl⟩

theorem eval_column_of_some {id : ℤ} (h : r.column id = some v) :
    (Operand.column id).eval unsignedFlag r = some ⟨v, unsignedFlag id⟩ := by
  rw [Operand.eval, h, map_some]

theorem orient_holds {op' : CmpOp} {arg0 arg1 : Operand} {con : Constant}
    (horient : p.orient op arg0 arg1 = some (op', con)) : (Cond.compare op arg0 arg1).holds unsignedFlag r = true ↔
      ∃ v c, r.column p.col = some v ∧ con.evalInt = some c ∧ op'.Holds (number (unsignedFlag p.col) v) c.number := by
  rw [Cond.holds, compareHolds_iff]
  cases arg0 with
  | column id =>
    cases arg1 with
    | constant con' =>
      simp only [orient] at horient
      split_ifs at horient with hid
      cases horient
      subst hid
      constructor
      · rintro ⟨a, b, ha, hb, hholds⟩
        obtain ⟨v, hv, hnum⟩ := eval_column ha
        exact ⟨v, b, hv, hb, hnum ▸ hholds⟩
      · rintro ⟨v, c, hv, hc, hholds⟩
        exact ⟨_, c, eval_column_of_some hv, hc, hholds⟩
    | _ => simp [orient] at horient
  | constant con' =>
    cases arg1 with
    | column id =>
      simp only [orient] at horient
      split_ifs at horient with hid
      cases horient
      subst hid
      constructor
      · rintro ⟨a, b, ha, hb, hholds⟩
        obtain ⟨v, hv, hnum⟩ := eval_column hb
        exact ⟨v, a, hv, ha, CmpOp.holds_opposite.mpr (hnum ▸ hholds)⟩
      · rintro ⟨v, c, hv, hc, hholds⟩
        exact ⟨c, _, hc, eval_column_of_some hv, CmpOp.holds_opposite.mp hholds⟩
    | _ => cases horient
  | other n => cases horient

end RangePruner

def Cond.Fits (unsignedFlag : ℤ → Bool) (p : RangePruner) : Cond → Prop
  | .compare op arg0 arg1 => ∀ op' con c, p.orient op arg0 arg1 = some (op', con) →
      con.evalInt = some c → op'.Fits (unsignedFlag p.col) c
  | .and a b => a.Fits unsignedFlag p ∧ b.Fits unsignedFlag p
  | .or a b => a.Fits unsignedFlag p ∧ b.Fits unsignedFlag p
  | _ => True

namespace RangePruner

variable {unsignedFlag : ℤ → Bool} {p : RangePruner} {r : Row} {i : ℕ}

variable {expr : Cond}

variable {result : PartitionRangeOR} {exprs : List Cond}

theorem bits_of_toInt64 {c : Constant} {val : Int64} (h : c.toInt64 = some val) :
    ∃ x, c.evalInt = some x ∧ x.bits = val := by
  cases c with
  | null => cases h
  | int v =>
    cases h
    exact ⟨_, rfl, rfl⟩
  | uint v =>
    rw [Constant.toInt64] at h
    split_ifs at h
    cases h
    exact ⟨_, rfl, rfl⟩

theorem has_of_intersectSingleExpr (h : (p.intersectSingleExpr unsignedFlag expr result).Has i) : result.Has i := by
  rw [intersectSingleExpr] at h
  split at h
  · exact h
  · exact (has_intersectionRange.mp h).1

theorem has_of_partitionRangeForExpr (h : (p.partitionRangeForExpr unsignedFlag expr result).Has i) : result.Has i := by
  induction expr generalizing result with
  | and a b iha ihb => exact iha (ihb h)
  | or a b _ _ => exact (has_intersection.mp h).1
  | isIn arg args => exact (has_intersection.mp h).1
  | _ => exact has_of_intersectSingleExpr h

theorem has_of_partitionRangeForCNFExpr
    (h : (p.partitionRangeForCNFExpr unsignedFlag exprs result).Has i) : result.Has i := by
  induction exprs generalizing result with
  | nil => exact h
  | cons expr exprs ih => exact has_of_partitionRangeForExpr (ih h)

section Keeps

variable (hlt : p.lessThan.Increasing (unsignedFlag p.col))
  (hi : locateRangePartition p.lessThan (unsignedFlag p.col) (r.column p.col) = some i)

include hlt hi

theorem extractDataForPrune_keeps {data : DataForPrune} (hdata : p.extractDataForPrune expr = some data)
    (h : expr.holds unsignedFlag r = true) (hfits : expr.Fits unsignedFlag p) :
    (pruneUseBinarySearch p.lessThan data (unsignedFlag p.col)).1 ≤ i ∧
      i < (pruneUseBinarySearch p.lessThan data (unsignedFlag p.col)).2 := by
  cases expr with
  | compare op arg0 arg1 =>
    rw [extractDataForPrune] at hdata
    cases horient : p.orient op arg0 arg1 with
    | none => rw [horient] at hdata; cases hdata
    | some res =>
      obtain ⟨op', con⟩ := res
      obtain ⟨v, c, hv, hc, hholds⟩ := (orient_holds horient).mp h
      rw [horient] at hdata
      simp only [hc, map_some, some.injEq] at hdata
      rw [hv] at hi
      rw [← hdata]
      exact pruneUseBinarySearch_keeps hlt (locateRangePartition_some hlt hi) _
        (hholds.asks (hfits op' con c horient hc))
  | isNull arg =>
    cases arg with
    | column id =>
      rw [extractDataForPrune] at hdata
      split_ifs at hdata with hid
      cases hdata
      have hnull : r.column p.col = none := by
        rw [← hid]
        simpa [Cond.holds, Operand.eval] using h
      rw [hnull] at hi
      obtain ⟨rfl, hlen⟩ := locateRangePartition_null hi
      simp only [pruneUseBinarySearch]
      split_ifs <;> omega
    | _ => cases hdata
  | _ => cases hdata

theorem partitionRangeForSingleExpr_keeps {start stop : ℕ}
    (hrange : p.partitionRangeForSingleExpr unsignedFlag expr = some (start, stop))
    (h : expr.holds unsignedFlag r = true) (hfits : expr.Fits unsignedFlag p) : start ≤ i ∧ i < stop := by
  -- a constant condition that holds is not the constant false
  have hdata : (p.extractDataForPrune expr).map (fun data =>
      pruneUseBinarySearch p.lessThan data (unsignedFlag p.col)) = some (start, stop) := by
    cases expr with
    | constant c =>
      rw [partitionRangeForSingleExpr] at hrange
      split_ifs at hrange with hfalse
      · simp [Cond.holds, hfalse] at h
      · exact hrange
    | _ => exact hrange
  obtain ⟨data, hdata, hprune⟩ := map_eq_some_iff.mp hdata
  have hkeeps := extractDataForPrune_keeps hlt hi hdata h hfits
  rw [hprune] at hkeeps
  exact hkeeps

theorem inRanges_keeps {args : List Operand} (hranges : p.inRanges (unsignedFlag p.col) args = some result)
    (h : (Cond.isIn (.column p.col) args).holds unsignedFlag r = true) : result.Has i := by
  obtain ⟨arg, harg, hholds⟩ := any_eq_true.mp h
  obtain ⟨x, c, hx, hc, heq⟩ := compareHolds_iff.mp hholds
  obtain ⟨v, hv, hnum⟩ := eval_column hx
  rw [hv] at hi
  rw [hnum] at heq
  have hkeeps := pruneUseBinarySearch_keeps hlt (locateRangePartition_some hlt hi) ⟨.eq, c.bits⟩ (heq.asks trivial)
  clear h hholds
  induction args generalizing result with
  | nil => cases harg
  | cons a args ih =>
    cases a with
    | constant con =>
      cases con with
      | null =>
        obtain ⟨result', hres, rfl⟩ := map_eq_some_iff.mp hranges
        rcases mem_cons.mp harg with rfl | hmem
        · cases hc
        · exact has_cons.mpr (.inr (ih hres hmem))
      | int w =>
        obtain ⟨result', hres, rfl⟩ := map_eq_some_iff.mp hranges
        rcases mem_cons.mp harg with rfl | hmem
        · cases hc
          exact has_cons.mpr (.inl hkeeps)
        · exact has_cons.mpr (.inr (ih hres hmem))
      | uint w =>
        cases hval : (Constant.uint w).toInt64 with
        | none => simp only [inRanges, hval] at hranges; cases hranges
        | some val =>
          simp only [inRanges, hval] at hranges
          obtain ⟨result', hres, rfl⟩ := map_eq_some_iff.mp hranges
          rcases mem_cons.mp harg with rfl | hmem
          · obtain ⟨y, hy, rfl⟩ := bits_of_toInt64 hval
            obtain rfl : y = c := some.inj (hy.symm.trans hc)
            exact has_cons.mpr (.inl hkeeps)
          · exact has_cons.mpr (.inr (ih hres hmem))
    | _ => cases hranges

theorem lt_length_of_locate : i < p.lessThan.length := by
  cases hcol : r.column p.col with
  | none =>
    rw [hcol] at hi
    obtain ⟨rfl, hlen⟩ := locateRangePartition_null hi
    exact hlen
  | some v =>
    rw [hcol] at hi
    exact (locateRangePartition_some hlt hi).1

theorem intersectSingleExpr_keeps (hresult : result.Has i)
    (h : expr.holds unsignedFlag r = true) (hfits : expr.Fits unsignedFlag p) :
    (p.intersectSingleExpr unsignedFlag expr result).Has i := by
  rw [intersectSingleExpr]
  split
  next => exact hresult
  next start stop hrange =>
    apply has_intersectionRange.mpr
    exact ⟨hresult, partitionRangeForSingleExpr_keeps hlt hi hrange h hfits⟩

theorem partitionRangeForInExpr_keeps {arg : Operand} {args : List Operand}
    (h : (Cond.isIn arg args).holds unsignedFlag r = true) :
    (p.partitionRangeForInExpr unsignedFlag arg args).Has i := by
  have hfull : p.fullRange.Has i := has_fullRange.mpr (lt_length_of_locate hlt hi)
  cases arg with
  | column id =>
    rw [partitionRangeForInExpr]
    split
    next hid =>
      subst hid
      split
      next => exact hfull
      next result hranges => exact has_simplify.mpr (inRanges_keeps hlt hi hranges h)
    next => exact hfull
  | _ => exact hfull

theorem partitionRangeForExpr_keeps (hresult : result.Has i)
    (h : expr.holds unsignedFlag r = true) (hfits : expr.Fits unsignedFlag p) :
    (p.partitionRangeForExpr unsignedFlag expr result).Has i := by
  have hfull : p.fullRange.Has i := has_fullRange.mpr (lt_length_of_locate hlt hi)
  induction expr generalizing result with
  | and a b iha ihb =>
    obtain ⟨ha, hb⟩ := Bool.and_eq_true_iff.mp h
    exact ihb (iha hresult ha hfits.1) hb hfits.2
  | or a b iha ihb =>
    apply has_intersection.mpr
    refine ⟨hresult, has_union.mpr ?_⟩
    rcases Bool.or_eq_true_iff.mp h with ha | hb
    · exact .inl (iha hfull ha hfits.1)
    · exact .inr (ihb hfull hb hfits.2)
  | isIn arg args => exact has_intersection.mpr ⟨hresult, partitionRangeForInExpr_keeps hlt hi h⟩
  | _ => exact intersectSingleExpr_keeps hlt hi hresult h hfits

theorem partitionRangeForCNFExpr_keeps (hresult : result.Has i) (h : ∀ e ∈ exprs, e.holds unsignedFlag r = true)
    (hfits : ∀ e ∈ exprs, e.Fits unsignedFlag p) : (p.partitionRangeForCNFExpr unsignedFlag exprs result).Has i := by
  induction exprs generalizing result with
  | nil => exact hresult
  | cons expr exprs ih =>
    apply ih _ (fun e he => h e (mem_cons_of_mem expr he))
      (fun e he => hfits e (mem_cons_of_mem expr he))
    exact partitionRangeForExpr_keeps hlt hi hresult (h expr mem_cons_self) (hfits expr mem_cons_self)

end Keeps

def KeepsRows (unsignedFlag : ℤ → Bool) (p : RangePruner) (exprs : List Cond) : Prop :=
  ∀ (r : Row) (i : ℕ), (∀ e ∈ exprs, e.holds unsignedFlag r = true) →
    locateRangePartition p.lessThan (unsignedFlag p.col) (r.column p.col) = some i →
      (p.partitionRangeForCNFExpr unsignedFlag exprs p.fullRange).Has i

theorem keepsRows_of_fits (hlt : p.lessThan.Increasing (unsignedFlag p.col))
    (hfits : ∀ e ∈ exprs, e.Fits unsignedFlag p) : KeepsRows unsignedFlag p exprs := by
  intro r i h hi
  have hfull : p.fullRange.Has i := has_fullRange.mpr (lt_length_of_locate hlt hi)
  exact partitionRangeForCNFExpr_keeps hlt hi hfull h hfits

/-! ## Constants of the other type -/

def twoPartitions (bound : Int64) : LessThanDataInt := ⟨[bound, 0], true⟩

theorem increasing_twoPartitions (bound : Int64) (unsigned : Bool) : (twoPartitions bound).Increasing unsigned := by
  intro i j hij hj
  have hj' : j = 1 := by
    have : j < 2 := hj
    omega
  exact .inl ⟨hj', rfl⟩

theorem search_twoPartitions {bound : Int64} {f : ℕ → Bool}
    (hf : ∀ a, f a = true ↔ (twoPartitions bound).Below unsigned a x) :
    search (twoPartitions bound).length f = 0 ↔ x < number unsigned bound := by
  rw [← Nat.le_zero, ← (search_below (increasing_twoPartitions bound unsigned) hf).2 0 Nat.two_pos,
    LessThanDataInt.Below]
  simp [twoPartitions]

theorem has_compare {op' : CmpOp} {arg0 arg1 : Operand} {con : Constant}
    (horient : p.orient op arg0 arg1 = some (op', con)) (hc : con.evalInt = some c) :
    (p.partitionRangeForCNFExpr unsignedFlag [.compare op arg0 arg1] p.fullRange).Has i ↔ i < p.lessThan.length ∧
      (pruneUseBinarySearch p.lessThan ⟨op'.toPruneOp, c.bits⟩ (unsignedFlag p.col)).1 ≤ i ∧
      i < (pruneUseBinarySearch p.lessThan ⟨op'.toPruneOp, c.bits⟩ (unsignedFlag p.col)).2 := by
  have hexpr : p.partitionRangeForCNFExpr unsignedFlag [.compare op arg0 arg1] p.fullRange
      = p.intersectSingleExpr unsignedFlag (.compare op arg0 arg1) p.fullRange := rfl
  have hdata : p.partitionRangeForSingleExpr unsignedFlag (.compare op arg0 arg1)
      = some (pruneUseBinarySearch p.lessThan ⟨op'.toPruneOp, c.bits⟩ (unsignedFlag p.col)) := by
    simp only [partitionRangeForSingleExpr, extractDataForPrune, horient, hc, map_some]
  rw [hexpr, intersectSingleExpr, hdata]
  generalize pruneUseBinarySearch p.lessThan ⟨op'.toPruneOp, c.bits⟩ (unsignedFlag p.col) = range
  rw [has_intersectionRange, fullRange, has_fullRange]

theorem not_fits_loses (hfits : ¬ op.Fits unsigned c) : ∃ (bound v : Int64) (i : ℕ),
    op.Holds (number unsigned v) c.number ∧ locateRangePartition (twoPartitions bound) unsigned (some v) = some i ∧
      ¬ ((pruneUseBinarySearch (twoPartitions bound) ⟨op.toPruneOp, c.bits⟩ unsigned).1 ≤ i ∧
        i < (pruneUseBinarySearch (twoPartitions bound) ⟨op.toPruneOp, c.bits⟩ unsigned).2) := by
  obtain ⟨c, uc⟩ := c
  have hnum : (IntValue.mk c uc).number = number uc c := rfl
  have hcc := number_true c
  have hbc := number_false_bounds c
  have hstop := fun op => pruneUseBinarySearch_stop_le (twoPartitions 0) ⟨op, c⟩ false
  have hpos := fun bound d => @search_twoPartitions (number unsigned d) unsigned bound _ fun _ =>
    decide_eq_true_iff.trans compare_pos
  -- read as a signed number, the constant is negative
  have hsigned : unsigned = false → ¬ (IntValue.mk c uc).number < 2 ^ 63 → uc = true ∧ number false c < 0 := by
    cases uc <;> split_ifs at hcc <;> simp only [hnum, true_and] <;> omega
  have hunsigned : ∀ n ≤ 0, ¬ n ≤ (IntValue.mk c uc).number → uc = false := by
    intro n hn hnot
    cases uc with
    | false => rfl
    | true => exact absurd (show n ≤ number true c by split_ifs at hcc <;> omega) hnot
  cases op with
  | eq => exact absurd trivial hfits
  | lt =>
    simp only [CmpOp.Fits, Classical.not_imp] at hfits
    obtain ⟨rfl, hbig⟩ := hfits
    obtain ⟨rfl, hneg⟩ := hsigned rfl hbig
    refine ⟨0, 5, 1, show (5 : ℤ) < number true c by omega, by decide, fun hkept => ?_⟩
    have hzero := (@search_twoPartitions (number false c - 1) false 0 _ fun _ =>
      decide_eq_true_iff.trans compare_nonneg).mpr (show _ < (0 : ℤ) by omega)
    have hone := hkept.2.trans_le (hstop .lt)
    simp only at hone
    omega
  | le =>
    simp only [CmpOp.Fits, Classical.not_imp] at hfits
    obtain ⟨rfl, hbig⟩ := hfits
    obtain ⟨rfl, hneg⟩ := hsigned rfl hbig
    refine ⟨0, 5, 1, show (5 : ℤ) ≤ number true c by omega, by decide, fun hkept => ?_⟩
    have hzero := (hpos 0 c).mpr hneg
    have hone := hkept.2.trans_le (hstop .le)
    simp only at hone
    omega
  | gt =>
    simp only [CmpOp.Fits, Classical.not_imp] at hfits
    obtain ⟨rfl, hneg⟩ := hfits
    obtain rfl := hunsigned (-1) (by omega) hneg
    have hsucc := number_true (c + 1)
    rw [number_false_add_one (by omega)] at hsucc
    refine ⟨1, 0, 0, show number false c < 0 by omega, by decide, fun hkept => ?_⟩
    have hone : number true (c + 1) < 1 := (hpos 1 (c + 1)).mp (Nat.le_zero.mp hkept.1)
    omega
  | ge =>
    simp only [CmpOp.Fits, Classical.not_imp] at hfits
    obtain ⟨rfl, hneg⟩ := hfits
    obtain rfl := hunsigned 0 le_rfl hneg
    refine ⟨1, 0, 0, show number false c ≤ 0 by omega, by decide, fun hkept => ?_⟩
    have hone : number true c < 1 := (hpos 1 c).mp (Nat.le_zero.mp hkept.1)
    omega

theorem fits_of_keepsRows {arg0 arg1 : Operand}
    (h : ∀ lessThan : LessThanDataInt, lessThan.Increasing (unsignedFlag p.col) →
      KeepsRows unsignedFlag { p with lessThan := lessThan } [.compare op arg0 arg1]) :
    (Cond.compare op arg0 arg1).Fits unsignedFlag p := by
  intro op' con c horient hc
  by_contra hfits
  obtain ⟨bound, v, i, hholds, hloc, hlost⟩ := not_fits_loses hfits
  let p' : RangePruner := { p with lessThan := twoPartitions bound }
  let r : Row := ⟨fun _ => some v, fun _ => none, fun _ => true⟩
  have horient' : p'.orient op arg0 arg1 = some (op', con) := horient
  have hr : (Cond.compare op arg0 arg1).holds unsignedFlag r = true :=
    (orient_holds horient').mpr ⟨v, c, rfl, hc, hholds⟩
  have hkept := h (twoPartitions bound) (increasing_twoPartitions bound _) r i (by simpa using hr) hloc
  exact hlost ((has_compare horient' hc).mp hkept).2

/-- A signed column and an unsigned constant: `a < 18446744073709551615` holds for every `a`, and yet the partition of
`5` is dropped, as the bits of the constant are those of `-1`. -/
theorem uint_constant_loses_row :
    let p : RangePruner := ⟨twoPartitions 0, 1⟩
    let signed : ℤ → Bool := fun _ => false
    let cond : Cond := .compare .lt (.column 1) (.constant (.uint 18446744073709551615))
    let r : Row := ⟨fun _ => some 5, fun _ => none, fun _ => true⟩
    p.lessThan.Increasing (signed p.col) ∧ cond.holds signed r = true ∧
      locateRangePartition p.lessThan (signed p.col) (r.column p.col) = some 1 ∧
      p.partitionRangeForCNFExpr signed [cond] p.fullRange = [⟨0, 1⟩] :=
  ⟨increasing_twoPartitions 0 false, by decide, by decide, by decide⟩

/-- Only existing partitions are returned, and no row is lost where every comparison fits the type of the column; one
alone loses no row of any table exactly where it fits. -/
theorem partitionRangeForCNFExpr_keeps_rows_iff (unsignedFlag : ℤ → Bool) (p : RangePruner) :
    (∀ exprs i, (p.partitionRangeForCNFExpr unsignedFlag exprs p.fullRange).Has i → i < p.lessThan.length) ∧
    (p.lessThan.Increasing (unsignedFlag p.col) → ∀ exprs, (∀ e ∈ exprs, e.Fits unsignedFlag p) →
      KeepsRows unsignedFlag p exprs) ∧
    ∀ op arg0 arg1, (∀ lessThan : LessThanDataInt, lessThan.Increasing (unsignedFlag p.col) →
      KeepsRows unsignedFlag { p with lessThan := lessThan } [.compare op arg0 arg1]) ↔
        (Cond.compare op arg0 arg1).Fits unsignedFlag p := by
  refine ⟨fun exprs i h => has_fullRange.mp (has_of_partitionRangeForCNFExpr h),
    fun hlt exprs hfits => keepsRows_of_fits hlt hfits, fun op arg0 arg1 => ⟨fits_of_keepsRows, ?_⟩⟩
  intro hfits lessThan hlt
  refine keepsRows_of_fits hlt fun e he => ?_
  rw [mem_singleton.mp he]
  exact hfits

/-- An unsigned column with `a >= 3 AND a < 8 OR 20 < a`. -/
theorem partitionRangeForCNFExpr_keeps_rows_of_or :
    let p : RangePruner := ⟨twoPartitions 10, 1⟩
    let a : Operand := .column 1
    KeepsRows (fun _ => true) p [.or (.and (.compare .ge a (.constant (.int 3))) (.compare .lt a (.constant (.int 8))))
      (.compare .lt (.constant (.int 20)) a)] := by
  intro p a
  apply (partitionRangeForCNFExpr_keeps_rows_iff (fun _ => true) p).2.1 (increasing_twoPartitions 10 true)
  intro e he
  rw [mem_singleton.mp he]
  refine ⟨⟨?_, ?_⟩, ?_⟩ <;> rintro op' con c ⟨⟩ ⟨⟩
  · exact fun _ => show (0 : ℤ) ≤ 3 by decide
  · exact fun h => by cases h
  · exact fun _ => show (-1 : ℤ) ≤ 20 by decide

end RangePruner

end Planner
