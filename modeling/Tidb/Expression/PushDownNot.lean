import Tidb.Expression.Expr

/-!
# Pushing NOT down keeps the meaning

The rewritten condition has the value of the condition in every row, unless on the way a comparison `<>` of a
signed column with an unsigned constant from 2^63 on becomes `=`: the comparison is then refined to false, also for
the rows where the column is NULL.
-/

namespace Expression

open Expression.Expr

/-! ## Comparing integers -/

theorem neg_iff (a : Int64) : a < 0 ↔ maxInt64 < a.toUInt64 := by
  rw [Int64.lt_iff_toInt_lt]
  show a.toBitVec.toInt < 0 ↔ 9223372036854775807 < a.toBitVec.toNat
  rw [a.toBitVec.toInt_eq_toNat_cond]
  split <;> omega

theorem neg_or_eq_zero {v : Int64} (h : ¬ v > 0) : v < 0 ∨ v = 0 := by
  rw [gt_iff_lt, Int64.lt_iff_toInt_lt] at h
  rw [Int64.lt_iff_toInt_lt, ← Int64.toInt_inj]
  omega

theorem compareInt_swap (u0 u1 : Bool) (a b : Int64) : compareInt u0 u1 a b = (compareInt u1 u0 b a).swap := by
  cases u0 <;> cases u1 <;> unfold compareInt
  · exact Std.OrientedOrd.eq_swap
  · dsimp only
    split
    · rfl
    · exact Std.OrientedOrd.eq_swap
  · dsimp only
    split
    · rfl
    · exact Std.OrientedOrd.eq_swap
  · exact Std.OrientedOrd.eq_swap

theorem CmpOp.res_symmetric (op : CmpOp) (c : Ordering) : op.symmetric.res c = op.res c.swap := by
  cases op <;> cases c <;> rfl

theorem CmpOp.res_opposite (op : CmpOp) (c : Ordering) : op.opposite.res c = if op.res c = 0 then 1 else 0 := by
  cases op <;> cases c <;> rfl

namespace Expr

variable {row : Row} {e arg0 arg1 : Expr} {op : CmpOp}

/-! ## Building a function -/

theorem evalInt_of_isConstant (h : e.isConstant = true) (row' : Row) : e.evalInt row = e.evalInt row' := by
  cases e with
  | constant c => rfl
  | _ => cases h

@[simp] theorem evalInt_foldConstant (e : Expr) : (foldConstant e).evalInt row = e.evalInt row := by
  unfold foldConstant
  split
  next h =>
    cases e with
    | column c => cases h
    | constant c => cases h
    | unaryNot arg => simp only [evalInt, @evalInt_of_isConstant row arg h fun _ => none]
    | isTruth keepNull arg => simp only [evalInt, @evalInt_of_isConstant row arg h fun _ => none]
    | _ =>
      rw [allConstArg, Bool.and_eq_true] at h
      simp only [evalInt, @evalInt_of_isConstant row _ h.1 fun _ => none,
        @evalInt_of_isConstant row _ h.2 fun _ => none]
  next => rfl

theorem res_of_refinesToOneZero {col : Column} {con : Constant} (h : refinesToOneZero op col con = true) :
    ∃ v, con.value = some v ∧ ∀ a, op.res (compareInt col.unsigned con.unsigned a v) = op.res .gt := by
  unfold refinesToOneZero at h
  cases hv : con.value with
  | none =>
    rw [hv] at h
    cases h
  | some v =>
    rw [hv] at h
    dsimp only at h
    refine ⟨v, rfl, fun a => ?_⟩
    by_cases hpos : v > 0
    · rw [if_pos hpos] at h
      cases h
    · rw [if_neg hpos] at h
      split at h
      next hequal =>
        simp only [Bool.and_eq_true, Bool.not_eq_true', beq_iff_eq] at hequal
        obtain ⟨⟨⟨hcon, hcol⟩, rfl⟩, hbig⟩ := hequal
        have hneg : v < 0 := by
          rcases neg_or_eq_zero hpos with hlt | rfl
          · exact hlt
          · cases htp : col.tp <;> rw [htp] at hbig <;> exact absurd hbig (by decide)
        rw [hcon, hcol]
        unfold compareInt
        dsimp only
        rw [if_pos (.inr ((neg_iff v).mp hneg))]
        rfl
      next =>
        split at h
        next hunsigned =>
          simp only [Bool.and_eq_true, Bool.not_eq_true'] at hunsigned
          obtain ⟨⟨hcol, -⟩, hcon⟩ := hunsigned
          rw [hcon, hcol]
          unfold compareInt
          by_cases hlarge : v < 0 ∨ a.toUInt64 > maxInt64
          · rw [if_pos hlarge]
          · rw [if_neg hlarge]
            rw [not_or] at hlarge
            -- zero: only `<` and `>=` are refined
            have hzero := (neg_or_eq_zero hpos).resolve_left hlarge.1
            have hnonneg : ¬ compare a 0 = .lt := by
              rw [Std.compare_eq_lt, neg_iff]
              exact hlarge.2
            subst hzero
            cases op with
            | lt => exact if_neg hnonneg
            | ge => exact if_pos hnonneg
            | _ => cases h
        next => cases h

/-- The comparison is refined although the column may be NULL. -/
def losesNull (op : CmpOp) : Expr → Expr → Bool
  | .column col, .constant con => refinesToOneZero op col con && !col.notNull
  | .constant con, .column col => refinesToOneZero op.symmetric col con && !col.notNull
  | _, _ => false

def HasNumber (row : Row) (e : Expr) : Prop := ∀ c, e = .column c → c.notNull = true → ∃ a, row c.index = some a

theorem evalInt_refineArgs (h0 : HasNumber row arg0) (h1 : HasNumber row arg1)
    (hsafe : losesNull op arg0 arg1 = false) :
    (cmp op (refineArgsByUnsignedFlag op arg0 arg1).1 (refineArgsByUnsignedFlag op arg0 arg1).2).evalInt row =
      (cmp op arg0 arg1).evalInt row := by
  fun_cases refineArgsByUnsignedFlag op arg0 arg1 with
  | case1 col con href =>
    have hnull : col.notNull = true := by simpa [losesNull, href] using hsafe
    obtain ⟨a, ha⟩ := h0 col rfl hnull
    obtain ⟨v, hv, hres⟩ := res_of_refinesToOneZero href
    simp only [evalInt, unsigned, ha, hv]
    rw [hres a]
    rfl
  | case3 con col href =>
    have hnull : col.notNull = true := by simpa [losesNull, href] using hsafe
    obtain ⟨a, ha⟩ := h1 col rfl hnull
    obtain ⟨v, hv, hres⟩ := res_of_refinesToOneZero href
    have hres := hres a
    rw [CmpOp.res_symmetric, CmpOp.res_symmetric, ← compareInt_swap] at hres
    simp only [evalInt, unsigned, ha, hv]
    rw [hres]
    rfl
  | _ => rfl

theorem evalInt_newFunctionInternal_cmp (h0 : HasNumber row arg0) (h1 : HasNumber row arg1)
    (hsafe : losesNull op arg0 arg1 = false) :
    (newFunctionInternal (.cmp op arg0 arg1)).evalInt row = (cmp op arg0 arg1).evalInt row := by
  unfold newFunctionInternal
  rw [evalInt_foldConstant, evalInt_refineArgs h0 h1 hsafe]

/-! ## What the rewriting returns -/

def Fresh : Expr → Prop
  | .column _ => False
  | .constant c => c.unsigned = false
  | _ => True

theorem fresh_foldConstant (h : Fresh e) : Fresh (foldConstant e) := by
  unfold foldConstant
  split
  · rfl
  · exact h

theorem fresh_newFunctionInternal (h : Fresh e) : Fresh (newFunctionInternal e) := by
  unfold newFunctionInternal
  split
  · exact fresh_foldConstant trivial
  · exact fresh_foldConstant h

theorem fresh_of_isLogicalOp (h : e.isLogicalOp = true) : Fresh e := by
  cases e with
  | column c => cases h
  | constant c => cases h
  | _ => trivial

theorem fresh_wrapWithIsTrue : Fresh (wrapWithIsTrue true e true) := by
  unfold wrapWithIsTrue
  cases hlogical : e.isLogicalOp with
  | true => exact fresh_of_isLogicalOp hlogical
  | false => exact fresh_foldConstant trivial

theorem fst_of_not_changed {c : Prop} [Decidable c] {a b : Expr} (h : (if c then (a, false) else (b, true)).2 = false) :
    (if c then (a, false) else (b, true)).1 = a := by
  split at h
  next hc => rw [if_pos hc]
  next => cases h

theorem fresh_ite {c : Prop} [Decidable c] {a b : Expr} (ha : Fresh a) (hb : Fresh b) :
    Fresh (if c then (a, false) else (b, true)).1 := by
  split
  · exact ha
  · exact hb

theorem fresh_negateIf (not : Bool) (h : Fresh e) : Fresh (negateIf not e).1 := by
  cases not with
  | true => exact fresh_newFunctionInternal (e := .unaryNot e) trivial
  | false => exact h

theorem eq_of_not_changed {e : Expr} {not : Bool} (h : (pushNotAcrossExpr e not).2 = false) :
    (pushNotAcrossExpr e not).1 = e := by
  cases e with
  | unaryNot arg => exact fst_of_not_changed h
  | column c =>
    cases not with
    | true => cases h
    | false => rfl
  | constant c =>
    cases not with
    | true => cases h
    | false => rfl
  | isTruth keepNull arg =>
    cases not with
    | true => cases h
    | false => rfl
  | _ =>
    cases not with
    | true => cases h
    | false => exact fst_of_not_changed h

def pushedChild (arg : Expr) (not : Bool) : Expr × Bool :=
  if arg.isLogicalOp then pushNotAcrossExpr arg (!not) else negateIf (!not) (wrapWithIsTrue true arg true)

theorem pushNotAcrossExpr_unaryNot_eq (arg : Expr) (not : Bool) : pushNotAcrossExpr (.unaryNot arg) not =
      if !(pushedChild arg not).2 && !not then (.unaryNot arg, false) else ((pushedChild arg not).1, true) := rfl

theorem fresh_pushNotAcrossExpr (h : Fresh e) (not : Bool) : Fresh (pushNotAcrossExpr e not).1 := by
  induction e generalizing not with
  | unaryNot arg ih =>
    rw [pushNotAcrossExpr_unaryNot_eq]
    apply fresh_ite (by trivial)
    unfold pushedChild
    split
    next hlogical => exact ih (fresh_of_isLogicalOp hlogical) (!not)
    next => exact fresh_negateIf _ fresh_wrapWithIsTrue
  | cmp op arg0 arg1 =>
    cases not with
    | true => exact fresh_newFunctionInternal (e := .cmp op.opposite arg0 arg1) trivial
    | false => exact fresh_ite (by trivial) (fresh_newFunctionInternal (e := .cmp _ _ _) trivial)
  | logicAnd arg0 arg1 =>
    cases not with
    | true => exact fresh_newFunctionInternal (e := .logicOr _ _) trivial
    | false => exact fresh_ite (by trivial) (fresh_newFunctionInternal (e := .logicAnd _ _) trivial)
  | logicOr arg0 arg1 =>
    cases not with
    | true => exact fresh_newFunctionInternal (e := .logicAnd _ _) trivial
    | false => exact fresh_ite (by trivial) (fresh_newFunctionInternal (e := .logicOr _ _) trivial)
  | column c => cases h
  | _ => exact fresh_negateIf not h

theorem fresh_of_changed {not : Bool} (h : (pushNotAcrossExpr e not).2 = true) : Fresh (pushNotAcrossExpr e not).1 := by
  cases e with
  | column c =>
    cases not with
    | true => exact fresh_newFunctionInternal (e := .unaryNot (.column c)) trivial
    | false => cases h
  | constant c =>
    cases not with
    | true => exact fresh_newFunctionInternal (e := .unaryNot (.constant c)) trivial
    | false => cases h
  | _ => exact fresh_pushNotAcrossExpr (by trivial) not

theorem Fresh.unsigned (h : Fresh e) : e.unsigned = false := by
  cases e with
  | column c => cases h
  | constant c => exact h
  | _ => rfl

theorem unsigned_pushNotAcrossExpr (e : Expr) : (pushNotAcrossExpr e false).1.unsigned = e.unsigned := by
  cases e with
  | column c => rfl
  | constant c => rfl
  | _ => exact (fresh_pushNotAcrossExpr (by trivial) false).unsigned

theorem losesNull_of_fresh (h : Fresh arg0 ∨ Fresh arg1) : losesNull op arg0 arg1 = false := by
  have hrefine : ∀ (op : CmpOp) (col : Column) (con : Constant), con.unsigned = false →
      (refinesToOneZero op col con && !col.notNull) = false := by
    intro op col con hsigned
    unfold refinesToOneZero
    cases con.value with
    | none => rfl
    | some v => cases col.notNull <;> simp [hsigned]
  fun_cases losesNull op arg0 arg1 with
  | case1 col con => exact hrefine op col con (h.resolve_left id)
  | case2 con col => exact hrefine op.symmetric col con (h.resolve_right id)
  | case3 => rfl

/-! ## The value of the rewritten condition -/

/-- No comparison that NOT is pushed to is refined although its column may be NULL. Its operands are left as they are,
as is what is wrapped. -/
def Safe : Expr → Bool → Prop
  | .unaryNot arg, not => Safe arg !not
  | .cmp op arg0 arg1, true => losesNull op.opposite arg0 arg1 = false
  | .cmp _ arg0 arg1, false => Safe arg0 false ∧ Safe arg1 false
  | .logicAnd arg0 arg1, not => Safe arg0 not ∧ Safe arg1 not
  | .logicOr arg0 arg1, not => Safe arg0 not ∧ Safe arg1 not
  | _, _ => True

def Conforms (row : Row) : Expr → Prop
  | .column c => c.notNull = true → ∃ a, row c.index = some a
  | .constant _ => True
  | .unaryNot arg => Conforms row arg
  | .isTruth _ arg => Conforms row arg
  | .cmp _ arg0 arg1 => Conforms row arg0 ∧ Conforms row arg1
  | .logicAnd arg0 arg1 => Conforms row arg0 ∧ Conforms row arg1
  | .logicOr arg0 arg1 => Conforms row arg0 ∧ Conforms row arg1

theorem Conforms.hasNumber (h : Conforms row e) : HasNumber row e := by
  rintro c rfl
  exact h

theorem Conforms.hasNumber_push (h : Conforms row e) : HasNumber row (pushNotAcrossExpr e false).1 := by
  cases hchanged : (pushNotAcrossExpr e false).2 with
  | false =>
    rw [eq_of_not_changed hchanged]
    exact h.hasNumber
  | true =>
    have hfresh := fresh_of_changed hchanged
    intro c hc
    rw [hc] at hfresh
    cases hfresh

def notValue (v : Option Int64) : Option Int64 := v.map fun v => if v = 0 then 1 else 0

def pushed (not : Bool) (v : Option Int64) : Option Int64 := if not then notValue v else v

theorem evalInt_negateIf (not : Bool) (e : Expr) : (negateIf not e).1.evalInt row = pushed not (e.evalInt row) := by
  cases not with
  | true => exact evalInt_foldConstant _
  | false => rfl

theorem evalInt_of_isLogicalOp (h : e.isLogicalOp = true) :
    e.evalInt row = none ∨ e.evalInt row = some 0 ∨ e.evalInt row = some 1 := by
  cases e with
  | column c => cases h
  | constant c => cases h
  | unaryNot arg =>
    rw [evalInt]
    cases arg.evalInt row with
    | none => exact .inl rfl
    | some v => by_cases hv : v = 0 <;> simp [hv]
  | cmp op arg0 arg1 =>
    rw [evalInt]
    cases arg0.evalInt row with
    | none => exact .inl rfl
    | some v0 =>
      cases arg1.evalInt row with
      | none => exact .inl rfl
      | some v1 =>
        dsimp only
        cases op <;> cases compareInt arg0.unsigned arg1.unsigned v0 v1 <;> decide
  | isTruth keepNull arg =>
    rw [evalInt]
    cases arg.evalInt row with
    | none => cases keepNull <;> simp
    | some v => by_cases hv : v = 0 <;> simp [hv]
  | _ =>
    rw [evalInt]
    split_ifs <;> simp

theorem notValue_notValue (e : Expr) :
    notValue (notValue (e.evalInt row)) = (wrapWithIsTrue true e true).evalInt row := by
  unfold wrapWithIsTrue
  cases hlogical : e.isLogicalOp with
  | true =>
    show _ = e.evalInt row
    rcases @evalInt_of_isLogicalOp row e hlogical with h | h | h <;> rw [h] <;> rfl
  | false =>
    show _ = (foldConstant (.isTruth true e)).evalInt row
    rw [evalInt_foldConstant, evalInt]
    cases e.evalInt row with
    | none => rfl
    | some v => by_cases hv : v = 0 <;> simp [notValue, hv]

theorem notValue_wrapWithIsTrue (e : Expr) :
    notValue ((wrapWithIsTrue true e true).evalInt row) = notValue (e.evalInt row) := by
  rw [← notValue_notValue]
  cases e.evalInt row with
  | none => rfl
  | some v => by_cases hv : v = 0 <;> simp [notValue]

theorem notValue_logicAnd {v0 v1 : Expr} (h0 : v0.evalInt row = notValue (arg0.evalInt row))
    (h1 : v1.evalInt row = notValue (arg1.evalInt row)) :
    (logicOr v0 v1).evalInt row = notValue ((logicAnd arg0 arg1).evalInt row) := by
  rw [evalInt, evalInt, h0, h1]
  cases arg0.evalInt row with
  | none =>
    cases arg1.evalInt row with
    | none => rfl
    | some b => by_cases hb : b = 0 <;> simp [notValue]
  | some a =>
    cases arg1.evalInt row with
    | none => by_cases ha : a = 0 <;> simp [notValue]
    | some b => by_cases ha : a = 0 <;> by_cases hb : b = 0 <;> simp [notValue, ha, hb]

theorem notValue_logicOr {v0 v1 : Expr} (h0 : v0.evalInt row = notValue (arg0.evalInt row))
    (h1 : v1.evalInt row = notValue (arg1.evalInt row)) :
    (logicAnd v0 v1).evalInt row = notValue ((logicOr arg0 arg1).evalInt row) := by
  rw [evalInt, evalInt, h0, h1]
  cases arg0.evalInt row with
  | none =>
    cases arg1.evalInt row with
    | none => rfl
    | some b => by_cases hb : b = 0 <;> simp [notValue, hb]
  | some a =>
    cases arg1.evalInt row with
    | none => by_cases ha : a = 0 <;> simp [notValue, ha]
    | some b => by_cases ha : a = 0 <;> by_cases hb : b = 0 <;> simp [notValue, ha, hb]

theorem notValue_cmp : (cmp op.opposite arg0 arg1).evalInt row = notValue ((cmp op arg0 arg1).evalInt row) := by
  rw [evalInt, evalInt]
  cases arg0.evalInt row with
  | none => rfl
  | some v0 =>
    cases arg1.evalInt row with
    | none => rfl
    | some v1 => exact congrArg some (CmpOp.res_opposite op _)

theorem evalInt_ite {c : Prop} [Decidable c] {a b : Expr} {v : Option Int64} (ha : a.evalInt row = v)
    (hb : ¬ c → b.evalInt row = v) : (if c then (a, false) else (b, true)).1.evalInt row = v := by
  split
  next => exact ha
  next hc => exact hb hc

theorem evalInt_pushNotAcrossExpr (e : Expr) (not : Bool) (hsafe : Safe e not) (hrow : Conforms row e) :
    (pushNotAcrossExpr e not).1.evalInt row = pushed not (e.evalInt row) := by
  induction e generalizing not with
  | unaryNot arg ih =>
    -- NOT is pushed across the wrapped argument
    have hchild : (pushedChild arg not).1.evalInt row = pushed (!not) ((wrapWithIsTrue true arg true).evalInt row) := by
      unfold pushedChild
      split
      next hlogical =>
        have hwrap : wrapWithIsTrue true arg true = arg := by simp [wrapWithIsTrue, hlogical]
        rw [hwrap]
        exact ih (!not) hsafe hrow
      next => exact evalInt_negateIf _ _
    rw [pushNotAcrossExpr_unaryNot_eq]
    cases not with
    | true =>
      rw [if_neg (by simp)]
      exact hchild.trans (notValue_notValue arg).symm
    | false => exact evalInt_ite rfl fun _ => hchild.trans (notValue_wrapWithIsTrue arg)
  | cmp op arg0 arg1 ih0 ih1 =>
    cases not with
    | true =>
      show (newFunctionInternal (.cmp op.opposite arg0 arg1)).evalInt row = _
      rw [evalInt_newFunctionInternal_cmp hrow.1.hasNumber hrow.2.hasNumber hsafe]
      exact notValue_cmp
    | false =>
      have h0 := ih0 false hsafe.1 hrow.1
      have h1 := ih1 false hsafe.2 hrow.2
      apply evalInt_ite rfl
      intro hchanged
      have hfresh : Fresh (pushNotAcrossExpr arg0 false).1 ∨ Fresh (pushNotAcrossExpr arg1 false).1 := by
        simp only [Bool.not_eq_true', Bool.or_eq_false_iff, not_and_or, Bool.not_eq_false] at hchanged
        exact hchanged.imp fresh_of_changed fresh_of_changed
      rw [evalInt_newFunctionInternal_cmp hrow.1.hasNumber_push hrow.2.hasNumber_push (losesNull_of_fresh hfresh)]
      rw [evalInt, h0, h1, unsigned_pushNotAcrossExpr, unsigned_pushNotAcrossExpr]
      rfl
  | logicAnd arg0 arg1 ih0 ih1 =>
    have h0 := ih0 not hsafe.1 hrow.1
    have h1 := ih1 not hsafe.2 hrow.2
    cases not with
    | true => exact (evalInt_foldConstant _).trans (notValue_logicAnd h0 h1)
    | false =>
      apply evalInt_ite rfl
      intro _
      refine (evalInt_foldConstant _).trans ?_
      rw [evalInt, h0, h1]
      rfl
  | logicOr arg0 arg1 ih0 ih1 =>
    have h0 := ih0 not hsafe.1 hrow.1
    have h1 := ih1 not hsafe.2 hrow.2
    cases not with
    | true => exact (evalInt_foldConstant _).trans (notValue_logicOr h0 h1)
    | false =>
      apply evalInt_ite rfl
      intro _
      refine (evalInt_foldConstant _).trans ?_
      rw [evalInt, h0, h1]
      rfl
  | _ => exact evalInt_negateIf not _

/-! ## The condition -/

/-- The rewritten condition is NULL, zero or non-zero where the condition is, and has the same number where it is a
logical operator. -/
def SameMeaning (e e' : Expr) (row : Row) : Prop :=
  (e'.evalInt row = none ↔ e.evalInt row = none) ∧ (e'.evalInt row = some 0 ↔ e.evalInt row = some 0) ∧
    (e.isLogicalOp = true → e'.evalInt row = e.evalInt row)

theorem losesNull_eq_true (h : losesNull op arg0 arg1 = true) : ∃ col con, col.notNull = false ∧
      (arg0 = .column col ∧ arg1 = .constant con ∧ refinesToOneZero op col con = true ∨
        arg0 = .constant con ∧ arg1 = .column col ∧ refinesToOneZero op.symmetric col con = true) := by
  unfold losesNull at h
  split at h
  next col con =>
    rw [Bool.and_eq_true, Bool.not_eq_true'] at h
    exact ⟨col, con, h.2, .inl ⟨rfl, rfl, h.1⟩⟩
  next con col =>
    rw [Bool.and_eq_true, Bool.not_eq_true'] at h
    exact ⟨col, con, h.2, .inr ⟨rfl, rfl, h.1⟩⟩
  next => cases h

theorem evalInt_of_losesNull (h : losesNull op arg0 arg1 = true) :
    (∀ op, (cmp op arg0 arg1).evalInt (fun _ => none) = none) ∧
      Conforms (fun _ => none) arg0 ∧ Conforms (fun _ => none) arg1 := by
  obtain ⟨col, con, hnull, h⟩ := losesNull_eq_true h
  have hcol : Conforms (fun _ => none) (.column col) := by
    intro hnot
    rw [hnull] at hnot
    cases hnot
  rcases h with ⟨rfl, rfl, -⟩ | ⟨rfl, rfl, -⟩
  · exact ⟨fun op => rfl, hcol, trivial⟩
  · refine ⟨fun op => ?_, trivial, hcol⟩
    rw [evalInt]
    cases evalInt (fun _ => none) (.constant con) <;> rfl

theorem refined_ne_none (h : losesNull op arg0 arg1 = true) :
    (newFunctionInternal (.cmp op arg0 arg1)).evalInt row ≠ none := by
  unfold newFunctionInternal
  rw [evalInt_foldConstant]
  obtain ⟨col, con, -, ⟨rfl, rfl, href⟩ | ⟨rfl, rfl, href⟩⟩ := losesNull_eq_true h
  · rw [refineArgsByUnsignedFlag, if_pos href]
    exact Option.some_ne_none _
  · rw [refineArgsByUnsignedFlag, if_pos href]
    exact Option.some_ne_none _

/-- In every row that conforms, a condition that is safe has the same meaning after the rewriting; a negated comparison
has it only then. -/
theorem pushDownNot_meaning_iff (e : Expr) :
    (Safe e false → ∀ row, Conforms row e → SameMeaning e (pushDownNot e) row) ∧
    ∀ op arg0 arg1, e = .unaryNot (.cmp op arg0 arg1) →
      ((∀ row, Conforms row e → SameMeaning e (pushDownNot e) row) ↔ Safe e false) := by
  have hsafe : Safe e false → ∀ row, Conforms row e → SameMeaning e (pushDownNot e) row := by
    intro he row hrow
    have heq : (pushDownNot e).evalInt row = e.evalInt row := evalInt_pushNotAcrossExpr e false he hrow
    unfold SameMeaning
    rw [heq]
    exact ⟨Iff.rfl, Iff.rfl, fun _ => rfl⟩
  refine ⟨hsafe, fun op arg0 arg1 he => ⟨fun h => ?_, hsafe⟩⟩
  subst he
  show losesNull op.opposite arg0 arg1 = false
  by_contra hlose
  rw [Bool.not_eq_false] at hlose
  obtain ⟨hnull, hrow⟩ := evalInt_of_losesNull hlose
  -- in a row of NULLs the comparison is NULL, the refined one is not
  have hmeaning := (h (fun _ => none) hrow).1
  have hnot : (unaryNot (.cmp op arg0 arg1)).evalInt (fun _ => none) = none := by
    rw [evalInt, hnull op]
    rfl
  exact refined_ne_none hlose (hmeaning.mpr hnot)

/-- `NOT (a AND NOT NOT b)` in the row with 5 and NULL. -/
theorem pushDownNot_de_morgan :
    let a : Expr := .column ⟨0, .longlong, false, false⟩
    let b : Expr := .column ⟨1, .longlong, true, false⟩
    let e : Expr := .unaryNot (.logicAnd a (.unaryNot (.unaryNot b)))
    pushDownNot e = .logicOr (.unaryNot a) (.unaryNot (.isTruth true b)) ∧
      SameMeaning e (pushDownNot e) fun i => if i = 0 then some 5 else none := by
  intro a b e
  have hsafe : Safe e false := ⟨trivial, trivial⟩
  refine ⟨by decide, (pushDownNot_meaning_iff e).1 hsafe _ ⟨?_, ?_⟩⟩
  · exact fun hnot => by cases hnot
  · exact fun hnot => by cases hnot

/-- `NOT (a <> 18446744073709551615)` with a signed column `a`. -/
theorem pushDownNot_loses_null :
    let a : Expr := .column ⟨0, .longlong, false, false⟩
    let e : Expr := .unaryNot (.cmp .ne a (.constant ⟨some (-1), true⟩))
    pushDownNot e = .constant ⟨some 0, false⟩ ∧ e.evalInt (fun _ => none) = none ∧
      (pushDownNot e).evalInt (fun _ => none) = some 0 := by
  decide

end Expr

end Expression
