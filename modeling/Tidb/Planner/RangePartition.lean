import Tidb.Lib.BinarySearch
import Mathlib.Data.List.Sort

/-!
# RANGE partitions of an integer column

`lessThanDataInt`, `partitionRangeOR` and `rangePruner` of `planner/core/rule_partition_processor.go`, for a table that
is partitioned by the column itself, and `locateRangePartition` of `table/tables/partition.go`.  An integer is held in
64 bits, signed or unsigned by its type.  Each call owns the slices that it changes, so lists say the same.
-/

namespace Planner

open GoLang

/-! ## Conditions and rows -/

inductive Constant where
  | null
  | int (v : Int64)
  | uint (v : UInt64)
  deriving DecidableEq, Repr

inductive Operand where
  | column (id : ℤ)
  | constant (c : Constant)
  /-- Neither a column nor a constant. -/
  | other (n : ℕ)
  deriving DecidableEq, Repr

inductive CmpOp where
  | eq | lt | gt | le | ge
  deriving DecidableEq, Repr

inductive Cond where
  | constant (c : Constant)
  | compare (op : CmpOp) (arg0 arg1 : Operand)
  | isNull (arg : Operand)
  | isIn (arg : Operand) (list : List Operand)
  | and (a b : Cond)
  | or (a b : Cond)
  | other (n : ℕ)
  deriving Repr

structure IntValue where
  bits : Int64
  unsigned : Bool
  deriving DecidableEq, Repr

structure Row where
  column : ℤ → Option Int64
  operand : ℕ → Option IntValue
  cond : ℕ → Bool

def Constant.evalInt : Constant → Option IntValue
  | .null => none
  | .int v => some ⟨v, false⟩
  | .uint v => some ⟨v.toInt64, true⟩

/-- `Datum.ToInt64`, which fails where the value is too large. -/
def Constant.toInt64 : Constant → Option Int64
  | .null => none
  | .int v => some v
  | .uint v => if v > 0x7FFFFFFFFFFFFFFF then none else some v.toInt64

/-- `Datum.ToBool`, which fails on NULL. -/
def Constant.toBool : Constant → Option Bool
  | .null => none
  | .int v => some (v != 0)
  | .uint v => some (v != 0)

def compareInt (x y : IntValue) : Ordering :=
  match x.unsigned, y.unsigned with
  | true, true => compare x.bits.toUInt64 y.bits.toUInt64
  | true, false => if y.bits < 0 ∨ x.bits.toUInt64 > 0x7FFFFFFFFFFFFFFF then .gt else compare x.bits y.bits
  | false, true => if x.bits < 0 ∨ y.bits.toUInt64 > 0x7FFFFFFFFFFFFFFF then .lt else compare x.bits y.bits
  | false, false => compare x.bits y.bits

def CmpOp.holds : CmpOp → Ordering → Bool
  | .eq, o => o == .eq
  | .lt, o => o == .lt
  | .gt, o => o == .gt
  | .le, o => o != .gt
  | .ge, o => o != .lt

section Eval

variable (unsignedFlag : ℤ → Bool) (r : Row)

def Operand.eval : Operand → Option IntValue
  | .column id => (r.column id).map fun v => ⟨v, unsignedFlag id⟩
  | .constant c => c.evalInt
  | .other n => r.operand n

def compareHolds (op : CmpOp) (x y : Option IntValue) : Bool :=
  match x, y with
  | some x, some y => op.holds (compareInt x y)
  | _, _ => false

def Cond.holds : Cond → Bool
  | .constant c => c.toBool.getD false
  | .compare op x y => compareHolds op (x.eval unsignedFlag r) (y.eval unsignedFlag r)
  | .isNull x => (x.eval unsignedFlag r).isNone
  | .isIn x list => list.any fun y => compareHolds .eq (x.eval unsignedFlag r) (y.eval unsignedFlag r)
  | .and a b => a.holds && b.holds
  | .or a b => a.holds || b.holds
  | .other n => r.cond n

end Eval

/-! ## The bounds -/

structure LessThanDataInt where
  data : List Int64
  maxvalue : Bool
  deriving DecidableEq, Repr

namespace LessThanDataInt

def length (lt : LessThanDataInt) : ℕ := lt.data.length

def compareUnsigned (v1 v2 : Int64) : ℤ :=
  if v1.toUInt64 > v2.toUInt64 then 1 else if v1.toUInt64 = v2.toUInt64 then 0 else -1

/-- The indexes that `sort.Search` asks for are in range. -/
def compare (lt : LessThanDataInt) (ith : ℕ) (v : Int64) (unsigned : Bool) : ℤ :=
  if ith = lt.data.length - 1 ∧ lt.maxvalue then 1
  else if unsigned then compareUnsigned (lt.data.getD ith 0) v
  else if lt.data.getD ith 0 > v then 1
  else if lt.data.getD ith 0 = v then 0 else -1

end LessThanDataInt

/-- `locateRangePartition`: nothing where the table has no partition for the value.  `Compare` of
`ForRangePruning` is `compare` of `lessThanDataInt`. -/
def locateRangePartition (ranges : LessThanDataInt) (unsigned : Bool) (col : Option Int64) : Option ℕ :=
  let isNull := col.isNone
  let ret := col.getD 0
  let pos := search ranges.length fun i => isNull || decide (ranges.compare i ret unsigned > 0)
  let pos := if isNull then 0 else pos
  if pos ≥ ranges.length then none else some pos

/-! ## Sets of partitions -/

structure PartitionRange where
  start : ℕ
  stop : ℕ
  deriving DecidableEq, Repr

abbrev PartitionRangeOR := List PartitionRange

def fullRange (stop : ℕ) : PartitionRangeOR := [⟨0, stop⟩]

def intersectionRange (start stop newStart newStop : ℕ) : ℕ × ℕ :=
  (if start > newStart then start else newStart, if stop < newStop then stop else newStop)

namespace PartitionRangeOR

def intersectionRange (or : PartitionRangeOR) (start stop : ℕ) : PartitionRangeOR :=
  or.filterMap fun r1 =>
    let (newStart, newStop) := Planner.intersectionRange r1.start r1.stop start stop
    if newStop > newStart then some ⟨newStart, newStop⟩ else none

def mergeLoop (last : PartitionRange) : PartitionRangeOR → PartitionRangeOR
  | [] => [last]
  | curr :: rest =>
    if curr.start > last.stop then last :: mergeLoop curr rest
    else mergeLoop ⟨last.start, if curr.stop > last.stop then curr.stop else last.stop⟩ rest

def simplify (or : PartitionRangeOR) : PartitionRangeOR :=
  match or.mergeSort fun a b => a.start ≤ b.start with
  | [] => []
  | first :: rest => mergeLoop first rest

def union (or x : PartitionRangeOR) : PartitionRangeOR := (or ++ x).simplify

def intersection (or x : PartitionRangeOR) : PartitionRangeOR :=
  match or, x with
  | [r], x => x.intersectionRange r.start r.stop
  | or, [r] => or.intersectionRange r.start r.stop
  | or, x =>
    let (x, y) := if or.length > x.length then (or, x) else (x, or)
    simplify (y.flatMap fun r => x.intersectionRange r.start r.stop)

end PartitionRangeOR

/-! ## Pruning -/

inductive PruneOp where
  | eq | lt | gt | le | ge | isNull
  deriving DecidableEq, Repr

def CmpOp.toPruneOp : CmpOp → PruneOp
  | .eq => .eq
  | .lt => .lt
  | .gt => .gt
  | .le => .le
  | .ge => .ge

def CmpOp.opposite : CmpOp → CmpOp
  | .eq => .eq
  | .lt => .gt
  | .gt => .lt
  | .le => .ge
  | .ge => .le

structure DataForPrune where
  op : PruneOp
  c : Int64
  deriving DecidableEq, Repr

def pruneUseBinarySearch (lessThan : LessThanDataInt) (data : DataForPrune) (unsigned : Bool) : ℕ × ℕ :=
  let length := lessThan.length
  let firstAbove := fun c => search length fun i => decide (lessThan.compare i c unsigned > 0)
  let (start, stop) :=
    match data.op with
    | .eq => (firstAbove data.c, firstAbove data.c + 1)
    | .lt => (0, (search length fun i => decide (lessThan.compare i data.c unsigned ≥ 0)) + 1)
    | .ge => (firstAbove data.c, length)
    | .gt => (firstAbove (data.c + 1), length)
    | .le => (0, firstAbove data.c + 1)
    | .isNull => (0, 1)
  (start, if stop > length then length else stop)

structure RangePruner where
  lessThan : LessThanDataInt
  col : ℤ
  deriving DecidableEq, Repr

namespace RangePruner

def fullRange (p : RangePruner) : PartitionRangeOR := Planner.fullRange p.lessThan.length

def orient (p : RangePruner) (op : CmpOp) : Operand → Operand → Option (CmpOp × Constant)
  | .column id, arg1 =>
    if id = p.col then
      match arg1 with
      | .constant con => some (op, con)
      | _ => none
    else none
  | .constant con, .column id => if id = p.col then some (op.opposite, con) else none
  | _, _ => none

def extractDataForPrune (p : RangePruner) : Cond → Option DataForPrune
  | .isNull (.column id) => if id = p.col then some ⟨.isNull, 0⟩ else none
  | .compare op arg0 arg1 =>
    match p.orient op arg0 arg1 with
    | none => none
    | some (op, con) => con.evalInt.map fun c => ⟨op.toPruneOp, c.bits⟩
  | _ => none

variable (unsignedFlag : ℤ → Bool)

def partitionRangeForSingleExpr (p : RangePruner) (expr : Cond) : Option (ℕ × ℕ) :=
  let dataForPrune := (p.extractDataForPrune expr).map fun data =>
    pruneUseBinarySearch p.lessThan data (unsignedFlag p.col)
  match expr with
  | .constant c => if c.toBool = some false then some (0, 0) else dataForPrune
  | _ => dataForPrune

/-- The ranges of the constants of `col IN (…)`; nothing where one of them is not a usable constant. -/
def inRanges (p : RangePruner) (unsigned : Bool) : List Operand → Option PartitionRangeOR
  | [] => some []
  | .constant .null :: args => (p.inRanges unsigned args).map (⟨0, 1⟩ :: ·)
  | .constant c :: args =>
    match c.toInt64 with
    | none => none
    | some val =>
      let (start, stop) := pruneUseBinarySearch p.lessThan ⟨.eq, val⟩ unsigned
      (p.inRanges unsigned args).map (⟨start, stop⟩ :: ·)
  | _ :: _ => none

def partitionRangeForInExpr (p : RangePruner) (arg0 : Operand) (args : List Operand) : PartitionRangeOR :=
  match arg0 with
  | .column id =>
    if id = p.col then
      match p.inRanges (unsignedFlag id) args with
      | none => p.fullRange
      | some result => result.simplify
    else p.fullRange
  | _ => p.fullRange

def intersectSingleExpr (p : RangePruner) (expr : Cond) (result : PartitionRangeOR) : PartitionRangeOR :=
  match p.partitionRangeForSingleExpr unsignedFlag expr with
  | none => result
  | some (start, stop) => result.intersectionRange start stop

def partitionRangeForExpr (p : RangePruner) : Cond → PartitionRangeOR → PartitionRangeOR
  -- the arguments of AND are a list of conditions in turn
  | .and a b, result => p.partitionRangeForExpr b (p.partitionRangeForExpr a result)
  | .or a b, result =>
    result.intersection ((p.partitionRangeForExpr a p.fullRange).union (p.partitionRangeForExpr b p.fullRange))
  | .isIn arg0 args, result => result.intersection (p.partitionRangeForInExpr unsignedFlag arg0 args)
  | expr, result => p.intersectSingleExpr unsignedFlag expr result

def partitionRangeForCNFExpr (p : RangePruner) (exprs : List Cond) (result : PartitionRangeOR) : PartitionRangeOR :=
  exprs.foldl (fun result expr => p.partitionRangeForExpr unsignedFlag expr result) result

end RangePruner

end Planner
