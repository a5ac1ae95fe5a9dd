import Mathlib.Tactic

/-!
# Conditions on integers

Expressions of `expression` over integer columns and constants, their evaluation (`builtin_op.go`,
`builtin_compare.go`) and the way in which a function is built: `NewFunctionInternal` refines the arguments of a
comparison and folds constants (`scalar_function.go`, `constant_fold.go`).  A constant is neither a parameter nor
deferred, and constants are folded outside of a null reject check.
-/

namespace Expression

inductive IntType where
  | tiny
  | short
  | int24
  | long
  | longlong
  deriving DecidableEq, Repr

def IntType.signedUpperBound : IntType → Int64
  | .tiny => 127
  | .short => 32767
  | .int24 => 8388607
  | .long => 2147483647
  | .longlong => 9223372036854775807

structure Column where
  index : ℕ
  tp : IntType
  unsigned : Bool
  notNull : Bool
  deriving DecidableEq, Repr

/-- A value without an entry is NULL. -/
structure Constant where
  value : Option Int64
  unsigned : Bool
  deriving DecidableEq, Repr

inductive CmpOp where
  | lt
  | le
  | gt
  | ge
  | eq
  | ne
  deriving DecidableEq, Repr

inductive Expr where
  | column (c : Column)
  | constant (c : Constant)
  | unaryNot (arg : Expr)
  | cmp (op : CmpOp) (arg0 arg1 : Expr)
  | logicAnd (arg0 arg1 : Expr)
  | logicOr (arg0 arg1 : Expr)
  /-- `IsTruthWithNull` keeps NULL, `IsTruthWithoutNull` does not. -/
  | isTruth (keepNull : Bool) (arg : Expr)
  deriving DecidableEq, Repr

abbrev Row := ℕ → Option Int64

namespace CmpOp

def opposite : CmpOp → CmpOp
  | .lt => .ge
  | .ge => .lt
  | .gt => .le
  | .le => .gt
  | .eq => .ne
  | .ne => .eq

def symmetric : CmpOp → CmpOp
  | .lt => .gt
  | .ge => .le
  | .gt => .lt
  | .le => .ge
  | .eq => .eq
  | .ne => .ne

def res : CmpOp → Ordering → Int64
  | .lt, c => if c = .lt then 1 else 0
  | .le, c => if c ≠ .gt then 1 else 0
  | .gt, c => if c = .gt then 1 else 0
  | .ge, c => if c ≠ .lt then 1 else 0
  | .eq, c => if c = .eq then 1 else 0
  | .ne, c => if c ≠ .eq then 1 else 0

end CmpOp

/-! ## Evaluation -/

def maxInt64 : UInt64 := 0x7FFFFFFFFFFFFFFF

def compareInt (isUnsigned0 isUnsigned1 : Bool) (arg0 arg1 : Int64) : Ordering :=
  match isUnsigned0, isUnsigned1 with
  | true, true => compare arg0.toUInt64 arg1.toUInt64
  | true, false => if arg1 < 0 ∨ arg0.toUInt64 > maxInt64 then .gt else compare arg0 arg1
  | false, true => if arg0 < 0 ∨ arg1.toUInt64 > maxInt64 then .lt else compare arg0 arg1
  | false, false => compare arg0 arg1

namespace Expr

def unsigned : Expr → Bool
  | .column c => c.unsigned
  | .constant c => c.unsigned
  | _ => false

def evalInt (row : Row) : Expr → Option Int64
  | .column c => row c.index
  | .constant c => c.value
  | .unaryNot arg => (arg.evalInt row).map fun v => if v = 0 then 1 else 0
  | .cmp op arg0 arg1 =>
    match arg0.evalInt row, arg1.evalInt row with
    | some v0, some v1 => some (op.res (compareInt arg0.unsigned arg1.unsigned v0 v1))
    | _, _ => none
  | .logicAnd arg0 arg1 =>
    if arg0.evalInt row = some 0 then some 0
    else if arg1.evalInt row = some 0 then some 0
    else if (arg0.evalInt row).isNone || (arg1.evalInt row).isNone then none
    else some 1
  | .logicOr arg0 arg1 =>
    if (arg0.evalInt row).any (· ≠ 0) then some 1
    else if (arg1.evalInt row).any (· ≠ 0) then some 1
    else if (arg0.evalInt row).isNone || (arg1.evalInt row).isNone then none
    else some 0
  | .isTruth keepNull arg =>
    match arg.evalInt row with
    | none => if keepNull then none else some 0
    | some v => if v = 0 then some 0 else some 1

/-! ## Building a function -/

def isConstant : Expr → Bool
  | .constant _ => true
  | _ => false

def allConstArg : Expr → Bool
  | .unaryNot arg | .isTruth _ arg => arg.isConstant
  | .cmp _ arg0 arg1 | .logicAnd arg0 arg1 | .logicOr arg0 arg1 => arg0.isConstant && arg1.isConstant
  | .column _ | .constant _ => false

def foldConstant (e : Expr) : Expr :=
  if e.allConstArg then .constant ⟨e.evalInt fun _ => none, false⟩ else e

def newOne : Expr := .constant ⟨some 1, true⟩

def newZero : Expr := .constant ⟨some 0, true⟩

/-- The comparison of the column with the constant is replaced by that of 1 with 0. -/
def refinesToOneZero (op : CmpOp) (col : Column) (con : Constant) : Bool :=
  match con.value with
  | none => false
  | some v =>
    if v > 0 then false
    else if con.unsigned && !col.unsigned && op == .eq && v.toUInt64 > col.tp.signedUpperBound.toUInt64 then true
    else if col.unsigned && col.notNull && !con.unsigned then
      !(v == 0 && (op == .le || op == .gt || op == .eq || op == .ne))
    else false

def refineArgsByUnsignedFlag (op : CmpOp) : Expr → Expr → Expr × Expr
  | .column col, .constant con =>
    if refinesToOneZero op col con then (newOne, newZero) else (.column col, .constant con)
  | .constant con, .column col =>
    if refinesToOneZero op.symmetric col con then (newZero, newOne) else (.constant con, .column col)
  | arg0, arg1 => (arg0, arg1)

def newFunctionInternal : Expr → Expr
  | .cmp op arg0 arg1 =>
    let (arg0, arg1) := refineArgsByUnsignedFlag op arg0 arg1
    foldConstant (.cmp op arg0 arg1)
  | e => foldConstant e

/-! ## Pushing NOT down -/

/-- The functions of `logicalOps`; `IsTruthWithNull` is not one of them. -/
def isLogicalOp : Expr → Bool
  | .cmp _ _ _ | .unaryNot _ | .logicAnd _ _ | .logicOr _ _ | .isTruth false _ => true
  | _ => false

def wrapWithIsTrue (keepNull : Bool) (arg : Expr) (wrapForInt : Bool) : Expr :=
  if !wrapForInt then arg
  else if arg.isLogicalOp then arg
  else foldConstant (.isTruth keepNull arg)

def negateIf (not : Bool) (e : Expr) : Expr × Bool :=
  (if not then newFunctionInternal (.unaryNot e) else e, not)

/-- Input `not` indicates whether there's a `NOT` be pushed down, the second part of the result whether the output
expression differs because of the pushed-down-not. -/
def pushNotAcrossExpr : Expr → Bool → Expr × Bool
  | .unaryNot arg, not =>
    -- NOT is not pushed across the wrapper that an argument may get
    let (childExpr, changed) :=
      if arg.isLogicalOp then pushNotAcrossExpr arg (!not) else negateIf (!not) (wrapWithIsTrue true arg true)
    if !changed && !not then (.unaryNot arg, false) else (childExpr, true)
  | .cmp op arg0 arg1, not =>
    if not then (newFunctionInternal (.cmp op.opposite arg0 arg1), true)
    else
      let (newArg0, changed0) := pushNotAcrossExpr arg0 false
      let (newArg1, changed1) := pushNotAcrossExpr arg1 false
      if !(changed0 || changed1) then (.cmp op arg0 arg1, false)
      else (newFunctionInternal (.cmp op newArg0 newArg1), true)
  | .logicAnd arg0 arg1, not =>
    let (newArg0, changed0) := pushNotAcrossExpr arg0 not
    let (newArg1, changed1) := pushNotAcrossExpr arg1 not
    if not then (newFunctionInternal (.logicOr newArg0 newArg1), true)
    else if !(changed0 || changed1) then (.logicAnd arg0 arg1, false)
    else (newFunctionInternal (.logicAnd newArg0 newArg1), true)
  | .logicOr arg0 arg1, not =>
    let (newArg0, changed0) := pushNotAcrossExpr arg0 not
    let (newArg1, changed1) := pushNotAcrossExpr arg1 not
    if not then (newFunctionInternal (.logicAnd newArg0 newArg1), true)
    else if !(changed0 || changed1) then (.logicOr arg0 arg1, false)
    else (newFunctionInternal (.logicOr newArg0 newArg1), true)
  | e, not => negateIf not e

def pushDownNot (e : Expr) : Expr := (pushNotAcrossExpr e false).1

theorem pushNotAcrossExpr_unaryNot (arg : Expr) (not : Bool) : pushNotAcrossExpr (.unaryNot arg) not =
      let (childExpr, changed) := pushNotAcrossExpr (wrapWithIsTrue true arg true) (!not)
      if !changed && !not then (.unaryNot arg, false) else (childExpr, true) := by
  rw [pushNotAcrossExpr]
  unfold wrapWithIsTrue
  cases hlogical : arg.isLogicalOp with
  | true => rfl
  | false =>
    unfold foldConstant
    cases hconst : arg.isConstant <;> simp [allConstArg, hconst, pushNotAcrossExpr]

end Expr

end Expression
