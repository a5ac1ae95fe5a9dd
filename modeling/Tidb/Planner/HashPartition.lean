import Tidb.Lib.Word64
import Mathlib.Data.List.Sort

/-!
# HASH partitions of a BIGINT column

`findUsedPartitions` and `convertToIntSlice` of `planner/core/rule_partition_processor.go`, for a table that is
partitioned by the column itself, and `locateHashPartition` of `table/tables/partition.go`.  The ranges are given.

The code works on the 64 bits of a value read as a signed number, `int64` of the value.  The loop over the values of
an interval has a bound on its steps here, without a result where it does not end within them.
-/

namespace Planner

open GoLang

/-! ## Ranges of a column -/

def Bigint (unsigned : Bool) : Type :=
  { x : ℤ // if unsigned then 0 ≤ x ∧ x ≤ maxUint64 else -0x8000000000000000 ≤ x ∧ x ≤ maxInt64 }

inductive Bound (unsigned : Bool) where
  | null
  | minNotNull
  | value (x : Bigint unsigned)
  | maxValue

structure ColumnRange (unsigned : Bool) where
  low : Bound unsigned
  high : Bound unsigned
  lowExclude : Bool
  highExclude : Bool

variable {unsigned : Bool}

namespace Bound

/-- `Datum.Compare` on the bounds. -/
def compare : Bound unsigned → Bound unsigned → Ordering
  | .null, .null => .eq
  | _, .null => .gt
  | .null, .minNotNull => .lt
  | .minNotNull, .minNotNull => .eq
  | _, .minNotNull => .gt
  | .maxValue, .maxValue => .eq
  | _, .maxValue => .lt
  | .value x, .value y => Ord.compare x.val y.val
  | .maxValue, .value _ => .gt
  | _, .value _ => .lt

def evalInt : Bound unsigned → Option ℤ
  | .value x => some (int64 x.val)
  | _ => none

def ofValue : Option (Bigint unsigned) → Bound unsigned
  | none => .null
  | some x => .value x

end Bound

namespace ColumnRange

variable (r : ColumnRange unsigned)

def Contains (v : Option (Bigint unsigned)) : Prop :=
  (if r.lowExclude then r.low.compare (.ofValue v) = .lt else r.low.compare (.ofValue v) ≠ .gt) ∧
    if r.highExclude then (Bound.ofValue v).compare r.high = .lt else (Bound.ofValue v).compare r.high ≠ .gt

instance (v : Option (Bigint unsigned)) : Decidable (r.Contains v) :=
  inferInstanceAs (Decidable (_ ∧ _))

def isPointNullable : Bool :=
  match r.low, r.high with
  | .minNotNull, _ => false
  | _, .maxValue => false
  | low, high => low.compare high == .eq && !r.lowExclude && !r.highExclude

end ColumnRange

/-! ## Where a row is stored -/

structure PartitionInfo where
  definitions : List String

namespace PartitionInfo

variable (pi : PartitionInfo)

def num : ℤ := pi.definitions.length

def hashIndex (pos : ℤ) : ℤ := |pos.tmod pi.num|

/-- NULL is converted to 0. -/
def locateHashPartition (v : Option (Bigint unsigned)) : ℤ :=
  match v with
  | none => pi.hashIndex 0
  | some x => pi.hashIndex (int64 x.val)

end PartitionInfo

/-! ## Pruning -/

def FullRange : ℤ := -1

section Prune

variable (pi : PartitionInfo) (partitionNames : List String)

def selected (idx : ℤ) : Bool :=
  partitionNames.isEmpty || (pi.definitions[idx.toNat]?.map fun name => decide (name ∈ partitionNames)).getD false

def enumerate (posHigh : ℤ) : ℕ → ℤ → Option (List ℤ)
  | 0, i => if i ≤ posHigh then none else some []
  | fuel + 1, i =>
    if i ≤ posHigh then
      (enumerate posHigh fuel (int64 (i + 1))).map fun rest =>
        if selected pi partitionNames (pi.hashIndex i) then pi.hashIndex i :: rest else rest
    else some []

def closedBounds (r : ColumnRange unsigned) : Option (ℤ × ℤ) :=
  match r.high.evalInt, r.low.evalInt with
  | some posHigh, some posLow =>
    some (if r.lowExclude then int64 (posLow + 1) else posLow, if r.highExclude then int64 (posHigh - 1) else posHigh)
  | _, _ => none

/-- The nearest number with 53 significant bits, the even one of two that are equally near. -/
def roundNat (m : ℕ) : ℕ :=
  let e := m.log2 - 52
  let q := m / 2 ^ e
  let r := m % 2 ^ e
  if 2 ^ e < 2 * r ∨ 2 * r = 2 ^ e ∧ q % 2 = 1 then (q + 1) * 2 ^ e else q * 2 ^ e

/-- The conversion of an integer to a double; integers here are far below the largest double. -/
def float64 (x : ℤ) : ℤ := if x < 0 then -(roundNat x.natAbs : ℤ) else roundNat x.natAbs

def rangeScalar (unsigned : Bool) (posLow posHigh : ℤ) : ℤ :=
  if unsigned then float64 (float64 (uint64 posHigh) - float64 (uint64 posLow))
  else float64 (float64 posHigh - float64 posLow)

/-- If range is less than the number of partitions, there will be unused partitions we can prune out. -/
def isShort (r : ColumnRange unsigned) : Option (ℤ × ℤ) :=
  match closedBounds r with
  | none => none
  | some (posLow, posHigh) =>
    if rangeScalar unsigned posLow posHigh < float64 pi.num then some (posLow, posHigh) else none

def usedLoop (fuel : ℕ) : List (ColumnRange unsigned) → Option (Option (List ℤ))
  | [] => some (some [])
  | r :: rs =>
    if r.isPointNullable then
      let idx := pi.hashIndex (r.high.evalInt.getD 0)
      (usedLoop fuel rs).map fun rest =>
        rest.map fun used => if selected pi partitionNames idx then idx :: used else used
    else
      match isShort pi r with
      | none => some none
      | some (posLow, posHigh) =>
        match enumerate pi partitionNames posHigh fuel posLow with
        | none => none
        | some here => (usedLoop fuel rs).map fun rest => rest.map fun used => here ++ used

def convertToIntSlice : List ℤ :=
  ((List.range pi.definitions.length).map Int.ofNat).filter (selected pi partitionNames)

def compact : List ℤ → List ℤ
  | [] => []
  | [x] => [x]
  | x :: y :: rest => if x = y then compact (y :: rest) else x :: compact (y :: rest)

def findUsedPartitions (fuel : ℕ) (ranges : List (ColumnRange unsigned)) : Option (List ℤ) :=
  (usedLoop pi partitionNames fuel ranges).map fun used =>
    match used with
    | none => if partitionNames.isEmpty then [FullRange] else convertToIntSlice pi partitionNames
    | some used => compact (used.insertionSort (· ≤ ·))

end Prune

end Planner
