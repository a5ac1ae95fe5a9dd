import Tidb.Structure.Lists
import Tidb.Structure.Hashes

/-!
# The structure as a store of strings, lists and hashes

What the callers of a structure think of: for each key a string, a list with two ends and a map whose
fields have an order, none of which knows of the others.  A transaction represents such a store, and a
call on the transaction does what the call on the store does.
-/

namespace Tidb.Structure

open GoLang ByteNum Codec List Function TxStructure

/-! ## The abstract store -/

structure Store where
  str : Bytes → Option Bytes
  list : Bytes → List Bytes
  hash : Bytes → SortedMap Bytes Bytes

namespace Store

def empty : Store := ⟨fun _ => none, fun _ => [], fun _ => .empty⟩

def setStr (A : Store) (k : Bytes) (v : Option Bytes) : Store := { A with str := update A.str k v }

def setList (A : Store) (k : Bytes) (xs : List Bytes) : Store :=
  { A with list := update A.list k xs }

def setHash (A : Store) (k : Bytes) (h : SortedMap Bytes Bytes) : Store :=
  { A with hash := update A.hash k h }

end Store

inductive Op where
  | set (key value : Bytes)
  | get (key : Bytes)
  | inc (key : Bytes) (step : Int64)
  | clear (key : Bytes)
  | lPush (key : Bytes) (values : List Bytes)
  | rPush (key : Bytes) (values : List Bytes)
  | lPop (key : Bytes)
  | rPop (key : Bytes)
  | lLen (key : Bytes)
  | lGetAll (key : Bytes)
  | lIndex (key : Bytes) (index : Int64)
  | lSet (key : Bytes) (index : Int64) (value : Bytes)
  | lClear (key : Bytes)
  | hSet (key field value : Bytes)
  | hGet (key field : Bytes)
  | hInc (key field : Bytes) (step : Int64)
  | hDel (key : Bytes) (fields : List Bytes)
  | hKeys (key : Bytes)
  | hGetAll (key : Bytes)
  | hGetLen (key : Bytes)
  | hGetLastN (key : Bytes) (num : ℤ)
  | hClear (key : Bytes)

inductive Ret where
  | unit
  | value (v : Option Bytes)
  | num (n : ℤ)
  | values (vs : List Bytes)
  | pairs (ps : List (Bytes × Bytes))
  deriving DecidableEq

namespace Op

def push (A : Store) (k : Bytes) (left : Bool) (vs : List Bytes) : Outcome Err Ret × Store :=
  if [] ∈ vs then (.error .errCannotSetNilValue, A)
  else (.ok .unit, A.setList k (pushed left (A.list k) vs))

def pop (A : Store) (k : Bytes) (left : Bool) : Outcome Err Ret × Store :=
  (.ok (.value (popped left (A.list k)).1), A.setList k (popped left (A.list k)).2)

/-- What a call on the store returns, and the store behind it. A value must not be empty; an index without an element is
refused, but an empty list takes any. -/
def apply (A : Store) : Op → Outcome Err Ret × Store
  | .set k v => if v = [] then (.error .errCannotSetNilValue, A) else (.ok .unit, A.setStr k (some v))
  | .get k => (.ok (.value (A.str k)), A)
  | .inc k step =>
    match TxStructure.incValue step (A.str k) with
    | .ok (n, v) => (.ok (.num n.toInt), A.setStr k (some v))
    | .error e => (.error e, A)
    | .fault => (.fault, A)
  | .clear k => (.ok .unit, A.setStr k none)
  | .lPush k vs => push A k true vs
  | .rPush k vs => push A k false vs
  | .lPop k => pop A k true
  | .rPop k => pop A k false
  | .lLen k => (.ok (.num (A.list k).length), A)
  | .lGetAll k => (.ok (.values (A.list k).reverse), A)
  | .lIndex k index => (.ok (.value ((place (A.list k).length index).bind ((A.list k)[·]?))), A)
  | .lSet k index v =>
    match place (A.list k).length index with
    | none =>
      if A.list k = [] then (.ok .unit, A)
      else (.error (.errInvalidListIndex "invalid list index %d" []), A)
    | some i =>
      if v = [] then (.error .errCannotSetNilValue, A)
      else (.ok .unit, A.setList k ((A.list k).set i v))
  | .lClear k => (.ok .unit, A.setList k [])
  | .hSet k f v =>
    if v = [] then (.error .errCannotSetNilValue, A)
    else (.ok .unit, A.setHash k ((A.hash k).insert f v))
  | .hGet k f => (.ok (.value ((A.hash k).find f)), A)
  | .hInc k f step =>
    match TxStructure.incValue step ((A.hash k).find f) with
    | .ok (n, v) => (.ok (.num n.toInt), A.setHash k ((A.hash k).insert f v))
    | .error e => (.error e, A)
    | .fault => (.fault, A)
  | .hDel k fs => (.ok .unit, A.setHash k (fs.foldl SortedMap.erase (A.hash k)))
  | .hKeys k => (.ok (.values ((A.hash k).entries.map Prod.fst)), A)
  | .hGetAll k => (.ok (.pairs (A.hash k).entries), A)
  | .hGetLen k => (.ok (.num (A.hash k).entries.length), A)
  | .hGetLastN k num => (.ok (.pairs ((A.hash k).entries.reverse.take num.toNat)), A)
  | .hClear k => (.ok .unit, A.setHash k .empty)

def pushes : Op → ℕ
  | .lPush _ vs => vs.length
  | .rPush _ vs => vs.length
  | _ => 0

/-- The calls that the code treats as the store does: `HSet` takes an empty value for a missing field and stores
nothing, and `HGetLastN` gives one field where none is asked for. -/
def Fits : Op → Prop
  | .hSet _ _ v => v ≠ []
  | .hGetLastN _ num => 1 ≤ num
  | _ => True

inductive Item where
  | str (key : Bytes)
  | list (key : Bytes)
  | hash (key : Bytes)
  deriving DecidableEq

def item : Op → Item
  | .set k _ => .str k
  | .get k => .str k
  | .inc k _ => .str k
  | .clear k => .str k
  | .lPush k _ => .list k
  | .rPush k _ => .list k
  | .lPop k => .list k
  | .rPop k => .list k
  | .lLen k => .list k
  | .lGetAll k => .list k
  | .lIndex k _ => .list k
  | .lSet k _ _ => .list k
  | .lClear k => .list k
  | .hSet k _ _ => .hash k
  | .hGet k _ => .hash k
  | .hInc k _ _ => .hash k
  | .hDel k _ => .hash k
  | .hKeys k => .hash k
  | .hGetAll k => .hash k
  | .hGetLen k => .hash k
  | .hGetLastN k _ => .hash k
  | .hClear k => .hash k

def Item.Same (A A' : Store) : Item → Prop
  | .str k => A'.str k = A.str k
  | .list k => A'.list k = A.list k
  | .hash k => A'.hash k = A.hash k

/-! ## Calls on the transaction -/

def returns {α : Type} (x : Txn α) (f : α → Ret) : Txn Ret := x >>= fun a => pure (f a)

def run (t : TxStructure) : Op → Txn Ret
  | .set k v => returns (t.set k v) fun _ => .unit
  | .get k => returns (t.get k) .value
  | .inc k step => returns (t.inc k step) fun n => .num n.toInt
  | .clear k => returns (t.clear k) fun _ => .unit
  | .lPush k vs => returns (t.lPush k vs) fun _ => .unit
  | .rPush k vs => returns (t.rPush k vs) fun _ => .unit
  | .lPop k => returns (t.lPop k) .value
  | .rPop k => returns (t.rPop k) .value
  | .lLen k => returns (t.lLen k) fun n => .num n.toInt
  | .lGetAll k => returns (t.lGetAll k) .values
  | .lIndex k index => returns (t.lIndex k index) .value
  | .lSet k index v => returns (t.lSet k index v) fun _ => .unit
  | .lClear k => returns (t.lClear k) fun _ => .unit
  | .hSet k f v => returns (t.hSet k f v) fun _ => .unit
  | .hGet k f => returns (t.hGet k f) .value
  | .hInc k f step => returns (t.hInc k f step) fun n => .num n.toInt
  | .hDel k fs => returns (t.hDel k fs) fun _ => .unit
  | .hKeys k => returns (t.hKeys k) .values
  | .hGetAll k => returns (t.hGetAll k) .pairs
  | .hGetLen k => returns (t.hGetLen k) fun n => .num n
  | .hGetLastN k num => returns (t.hGetLastN k num) .pairs
  | .hClear k => returns (t.hClear k) fun _ => .unit

end Op

/-- The store does not know the index that the error of `LSet` shows, where the list happens to stand. -/
def forget : Outcome Err Ret → Outcome Err Ret
  | .error (.errInvalidListIndex format _) => .error (.errInvalidListIndex format [])
  | o => o

/-- The transaction represents the store, with at most `b` pushes so far. -/
structure Rep (t : TxStructure) (b : ℕ) (s : KV) (A : Store) : Prop where
  fields : FieldsOnly t s
  str : ∀ k, view t s (.str k) = A.str k
  list : ∀ k, ∃ l, ListAt b (view t s) k (A.list k) l
  hash : ∀ k, HashAt (view t s) k (A.hash k)

section Steps

variable {t : TxStructure} {b : ℕ} {s s' : KV} {A : Store} {k : Bytes}

theorem Rep.empty (hs : ∀ key, t.prefixBytes <+: key → s.find key = none) : Rep t 0 s .empty := by
  have hview : ∀ sl : Slot, view t s sl = none := fun sl => hs _ sl.prefix_encode
  refine ⟨fun k key hkey hp => ?_, fun k => hview _, fun k => ⟨0, by simp, by simp [Store.empty],
    by simp [Store.empty], fun _ => rfl, ?_, by simp [Store.empty]⟩, fun k f => ?_⟩
  · have hpre : t.prefixBytes <+: key :=
      (hashDataKeyPrefix_eq t k ▸ prefix_append _ _ : _ <+: t.hashDataKeyPrefix k).trans hp
    exact absurd (hs key hpre) hkey
  · rw [hview]
    rfl
  · rw [hview]
    rfl

theorem Rep.mono {b' : ℕ} (h : Rep t b s A) (hb : b ≤ b') : Rep t b' s A := by
  refine ⟨h.fields, h.str, fun k => ?_, h.hash⟩
  obtain ⟨l, hl⟩ := h.list k
  exact ⟨l, hl.congr hb rfl fun _ _ => rfl⟩

theorem Rep.setStr (h : Rep t b s A) {v : Option Bytes} (heff : Effect t (· = .str k) s s')
    (hv : view t s' (.str k) = v) : Rep t b s' (A.setStr k v) := by
  refine ⟨heff.fields h.fields, fun k' => ?_, fun k' => ?_, fun k' f => ?_⟩
  · by_cases hk : k' = k
    · subst hk
      simp only [Store.setStr, update_self, hv]
    · simp only [Store.setStr, update_of_ne hk]
      rw [heff.same _ (by simpa using hk), h.str k']
  · obtain ⟨l, hl⟩ := h.list k'
    exact ⟨l, hl.congr le_rfl (heff.same _ (by simp)) fun _ _ => heff.same _ (by simp)⟩
  · rw [heff.same _ (by simp)]
    exact h.hash k' f

theorem Rep.setList {b' : ℕ} (h : Rep t b s A) (hb : b ≤ b') {xs : List Bytes} {l : ℤ}
    (heff : Effect t (Slot.OfList k) s s') (hl : ListAt b' (view t s') k xs l) : Rep t b' s' (A.setList k xs) := by
  refine ⟨heff.fields h.fields, fun k' => ?_, fun k' => ?_, fun k' f => ?_⟩
  · rw [heff.same _ (by simp [Slot.OfList])]
    exact h.str k'
  · by_cases hk : k' = k
    · subst hk
      exact ⟨l, by simpa only [Store.setList, update_self] using hl⟩
    · obtain ⟨l', hl'⟩ := h.list k'
      refine ⟨l', ?_⟩
      simp only [Store.setList, update_of_ne hk]
      exact hl'.congr hb (heff.same _ hk) fun _ _ => heff.same _ hk
  · rw [heff.same _ (by simp [Slot.OfList])]
    exact h.hash k' f

theorem Rep.setHash (h : Rep t b s A) {m : SortedMap Bytes Bytes} (heff : Effect t (Slot.OfHash k) s s')
    (hm : HashAt (view t s') k m) : Rep t b s' (A.setHash k m) := by
  refine ⟨heff.fields h.fields, fun k' => ?_, fun k' => ?_, fun k' => ?_⟩
  · rw [heff.same _ (by simp [Slot.OfHash])]
    exact h.str k'
  · obtain ⟨l, hl⟩ := h.list k'
    exact ⟨l, hl.congr le_rfl (heff.same _ (by simp [Slot.OfHash])) fun _ _ =>
      heff.same _ (by simp [Slot.OfHash])⟩
  · by_cases hk : k' = k
    · subst hk
      simpa only [Store.setHash, update_self] using hm
    · intro f
      simp only [Store.setHash, update_of_ne hk]
      rw [heff.same (.hash k' f) hk]
      exact h.hash k' f

theorem returns_ok {α : Type} {x : Txn α} {f : α → Ret} {a : α} (h : x s = (.ok a, s')) :
    Op.returns x f s = (.ok (f a), s') := by
  rw [Op.returns, Action.bind_ok h]
  rfl

theorem returns_error {α : Type} {x : Txn α} {f : α → Ret} {e : Err} (h : x s = (.error e, s')) :
    Op.returns x f s = (.error e, s') := Action.bind_error h

/-- A call on the transaction does what the call on the store does. -/
structure Refines (t : TxStructure) (b : ℕ) (s : KV) (A : Store) (op : Op) : Prop where
  result : forget (op.run t s).1 = (op.apply A).1
  rep : Rep t (b + op.pushes) (op.run t s).2 (op.apply A).2
  outside : ∀ key, ¬t.prefixBytes <+: key → (op.run t s).2.find key = s.find key

variable {op : Op} {o o' : Outcome Err Ret} {A' : Store} {p : Slot → Prop}

theorem Refines.intro (hrun : op.run t s = (o, s')) (happ : op.apply A = (o', A'))
    (hresult : forget o = o') (heff : Effect t p s s') (hrep : Rep t (b + op.pushes) s' A') : Refines t b s A op :=
  ⟨by rw [hrun, happ, hresult], by rw [hrun, happ]; exact hrep, by rw [hrun]; exact heff.outside⟩

theorem Refines.same (h : Rep t b s A) (hrun : op.run t s = (o, s)) (happ : op.apply A = (o', A))
    (hresult : forget o = o') : Refines t b s A op :=
  .intro hrun happ hresult (Effect.refl (fun _ => False) s) (h.mono (Nat.le_add_right _ _))

/-! ## One step -/

variable (hw : t.writable = true) (h : Rep t b s A)
include hw h

theorem set_refines (k v : Bytes) : Refines t b s A (.set k v) := by
  have hset : t.set k v = Txn.set ((Slot.str k).encode t) v := by
    rw [TxStructure.set, ifWritable_eq hw, encodeStringDataKey_eq]
  by_cases hv : v = []
  · have happ : Op.apply A (.set k v) = (.error .errCannotSetNilValue, A) := if_pos hv
    refine .same h (returns_error (e := .errCannotSetNilValue) ?_) happ rfl
    rw [hset, hv, set_nil_run]
  · have happ : Op.apply A (.set k v) = (.ok .unit, A.setStr k (some v)) := if_neg hv
    have heff := @effect_insert t (· = .str k) s (.str k) rfl v
    refine .intro (returns_ok (a := ()) ?_) happ rfl heff (h.setStr heff ?_)
    · rw [hset, set_run _ hv]
    · rw [view_insert, update_self]

omit hw h in
theorem incValue_cases (step : Int64) (v : Option Bytes) : (∃ n, incValue step v = .ok (n, formatInt n.toInt)) ∨ ∃
    format args, incValue step v = .error (.errorf format args) := by
  cases v with
  | none => exact .inl ⟨_, rfl⟩
  | some v =>
    simp only [incValue, parse]
    cases parseInt v with
    | ok n => exact .inl ⟨_, rfl⟩
    | error e => exact .inr ⟨_, _, rfl⟩

omit hw h in
theorem incInt64_eq (key : Bytes) (step : Int64) : incInt64 key step s = (do
        let (n, v) ← Action.lift (incValue step (s.find key))
        Txn.set key v
        return n : Txn Int64) s := by
  have hget : Txn.get key s = (.ok (s.find key), s) := rfl
  rw [incInt64, Action.bind_ok hget]
  cases s.find key with
  | none =>
    have hval : incValue step none = .ok (step, formatInt step.toInt) := by
      simp only [incValue, Outcome.ok_bind, Int64.zero_add]
      rfl
    rw [hval]
    rfl
  | some v =>
    simp only [incValue]
    cases parse v with
    | ok n => rfl
    | error e => rfl
    | fault => rfl

theorem inc_refines (k : Bytes) (step : Int64) : Refines t b s A (.inc k step) := by
  have hinc : t.inc k step = incInt64 ((Slot.str k).encode t) step := by
    rw [inc, ifWritable_eq hw, encodeStringDataKey_eq]
  have hfind : s.find ((Slot.str k).encode t) = A.str k := h.str k
  rcases incValue_cases step (A.str k) with ⟨n, hval⟩ | ⟨format, args, hval⟩
  · have happ : Op.apply A (.inc k step) = (.ok (.num n.toInt), A.setStr k (some (formatInt n.toInt))) := by
      simp only [Op.apply, hval]
    have heff := @effect_insert t (· = .str k) s (.str k) rfl (formatInt n.toInt)
    refine .intro (returns_ok (a := n) ?_) happ rfl heff (h.setStr heff ?_)
    · rw [hinc, incInt64_eq, hfind, hval]
      exact Action.bind_ok (set_run _ (formatInt_ne_nil _))
    · rw [view_insert, update_self]
  · have happ : Op.apply A (.inc k step) = (.error (.errorf format args), A) := by simp only [Op.apply, hval]
    refine .same h (returns_error (e := .errorf format args) ?_) happ rfl
    rw [hinc, incInt64_eq, hfind, hval]
    exact Action.bind_error (Action.lift_run _ s)

theorem clear_refines (k : Bytes) : Refines t b s A (.clear k) := by
  have hclear : t.clear k s = (.ok (), s.erase ((Slot.str k).encode t)) := by
    rw [clear, ifWritable_eq hw, encodeStringDataKey_eq, delete_run]
  have heff := @effect_erase t (· = .str k) s (.str k) rfl
  refine .intro (returns_ok hclear) rfl rfl heff (h.setStr heff ?_)
  rw [view_erase, update_self]

theorem push_refines {k : Bytes} {left : Bool} {vs : List Bytes} (hpushes : op.pushes = vs.length)
    (hrun : op.run t = Op.returns (t.listPush k left vs) fun _ => .unit)
    (happ : op.apply A = Op.push A k left vs) (hb : b + op.pushes < 2 ^ 63) : Refines t b s A op := by
  obtain ⟨l, hl⟩ := h.list k
  obtain ⟨s', heff, ⟨hnil, hok, l', hl'⟩ | ⟨hnil, herr, l', hl'⟩⟩ :=
    listPush_run hw hl left (by rw [← hpushes]; exact hb)
  · rw [← hpushes] at hl'
    rw [Op.push, if_neg hnil] at happ
    refine .intro (by rw [hrun]; exact returns_ok hok) happ rfl heff ?_
    exact h.setList (Nat.le_add_right _ _) heff hl'
  · rw [← hpushes] at hl'
    rw [Op.push, if_pos hnil] at happ
    refine .intro (by rw [hrun]; exact returns_error herr) happ rfl heff ?_
    have hrep := h.setList (Nat.le_add_right _ _) heff hl'
    rwa [Store.setList, update_eq_self] at hrep

theorem pop_refines {k : Bytes} {left : Bool} (hb : b < 2 ^ 63) (hpushes : op.pushes = 0)
    (hrun : op.run t = Op.returns (t.listPop k left) .value)
    (happ : op.apply A = Op.pop A k left) : Refines t b s A op := by
  obtain ⟨l, hl⟩ := h.list k
  obtain ⟨s', heff, hok, l', hl'⟩ := listPop_run hw hl hb left
  refine .intro (by rw [hrun]; exact returns_ok hok) happ rfl heff ?_
  rw [hpushes]
  exact h.setList le_rfl heff hl'

theorem lSet_refines (hb : b < 2 ^ 63) (k : Bytes) (index : Int64) (v : Bytes) : Refines t b s A (.lSet k index v) := by
  obtain ⟨l, hl⟩ := h.list k
  obtain ⟨s', heff, hcases⟩ := lSet_run hw hl hb index v
  have happ : Op.apply A (.lSet k index v) = match place (A.list k).length index with
      | none =>
        if A.list k = [] then (.ok .unit, A)
        else (.error (.errInvalidListIndex "invalid list index %d" []), A)
      | some i =>
        if v = [] then (.error .errCannotSetNilValue, A)
        else (.ok .unit, A.setList k ((A.list k).set i v)) := rfl
  cases hplace : place (A.list k).length index with
  | none =>
    rw [hplace] at hcases happ
    obtain ⟨-, hrun⟩ := hcases
    by_cases hxs : A.list k = []
    · simp only [if_pos hxs] at hrun happ
      exact .same h (returns_ok hrun) happ rfl
    · simp only [if_neg hxs] at hrun happ
      obtain ⟨args, hrun⟩ := hrun
      exact .same h (returns_error hrun) happ rfl
  | some i =>
    rw [hplace] at hcases happ
    by_cases hv : v = []
    · simp only [if_pos hv] at hcases happ
      exact .same h (returns_error hcases.2) happ rfl
    · simp only [if_neg hv] at hcases happ
      exact .intro (returns_ok hcases.1) happ rfl heff (h.setList le_rfl heff hcases.2)

theorem lClear_refines (hb : b < 2 ^ 63) (k : Bytes) : Refines t b s A (.lClear k) := by
  obtain ⟨l, hl⟩ := h.list k
  obtain ⟨s', heff, hok, l', hl'⟩ := lClear_run hw hl hb
  exact .intro (returns_ok hok) rfl rfl heff (h.setList le_rfl heff hl')

theorem hSet_refines (k f : Bytes) {v : Bytes} (hv : v ≠ []) : Refines t b s A (.hSet k f v) := by
  obtain ⟨s', heff, hok, hh⟩ := @updateHash_run t s k _ Unit (h.hash k) f (fun _ => .ok ((), v)) () v rfl hv
  have happ : Op.apply A (.hSet k f v) = (.ok .unit, A.setHash k ((A.hash k).insert f v)) := if_neg hv
  refine .intro (returns_ok (a := ()) ?_) happ rfl heff (h.setHash heff hh)
  rw [hSet, ifWritable_eq hw, hok]

theorem hInc_refines (k f : Bytes) (step : Int64) : Refines t b s A (.hInc k f step) := by
  have hinc : t.hInc k f step = t.updateHash k f (incValue step) := by rw [hInc, ifWritable_eq hw]
  rcases incValue_cases step ((A.hash k).find f) with ⟨n, hval⟩ | ⟨format, args, hval⟩
  · have happ : Op.apply A (.hInc k f step) =
        (.ok (.num n.toInt), A.setHash k ((A.hash k).insert f (formatInt n.toInt))) := by
      simp only [Op.apply, hval]
    obtain ⟨s', heff, hok, hh⟩ := updateHash_run (h.hash k) f hval (formatInt_ne_nil _)
    rw [← hinc] at hok
    exact .intro (returns_ok hok) happ rfl heff (h.setHash heff hh)
  · have happ : Op.apply A (.hInc k f step) = (.error (.errorf format args), A) := by simp only [Op.apply, hval]
    refine .same h (returns_error (e := .errorf format args) ?_) happ rfl
    rw [hinc]
    exact updateHash_error (h.hash k) f hval

theorem hDel_refines (k : Bytes) (fs : List Bytes) : Refines t b s A (.hDel k fs) := by
  obtain ⟨s', heff, hok, hh⟩ := deleteFields_run (h.hash k) fs
  refine .intro (returns_ok (a := ()) ?_) rfl rfl heff (h.setHash heff hh)
  rw [hDel, ifWritable_eq hw, hok]

theorem hClear_refines (k : Bytes) : Refines t b s A (.hClear k) := by
  obtain ⟨s', heff, hok, hh⟩ := hClear_run hw h.fields (h.hash k)
  exact .intro (returns_ok hok) rfl rfl heff (h.setHash heff hh)

theorem op_refines (hfits : op.Fits) (hb : b + op.pushes < 2 ^ 63) : Refines t b s A op := by
  have hb' : b < 2 ^ 63 := by omega
  cases op with
  | set k v => exact set_refines hw h k v
  | get k => exact .same h (returns_ok (by rw [TxStructure.get, encodeStringDataKey_eq, get_run, h.str])) rfl rfl
  | inc k step => exact inc_refines hw h k step
  | clear k => exact clear_refines hw h k
  | lPop k => exact pop_refines hw h hb' rfl rfl rfl
  | rPop k => exact pop_refines hw h hb' rfl rfl rfl
  | lLen k =>
    obtain ⟨l, hl⟩ := h.list k
    obtain ⟨n, hrun, hn⟩ := lLen_run hl hb'
    exact .same h (returns_ok hrun) rfl (by rw [hn]; rfl)
  | lGetAll k =>
    obtain ⟨l, hl⟩ := h.list k
    exact .same h (returns_ok (lGetAll_run hl hb')) rfl rfl
  | lIndex k index =>
    obtain ⟨l, hl⟩ := h.list k
    exact .same h (returns_ok (lIndex_run hl hb' index)) rfl rfl
  | lSet k index v => exact lSet_refines hw h hb' k index v
  | lClear k => exact lClear_refines hw h hb' k
  | hSet k f v => exact hSet_refines hw h k f hfits
  | hGet k f => exact .same h (returns_ok (by rw [TxStructure.hGet, encodeHashDataKey_eq, get_run, h.hash k f])) rfl rfl
  | hInc k f step => exact hInc_refines hw h k f step
  | hDel k fs => exact hDel_refines hw h k fs
  | hKeys k => exact .same h (returns_ok (hKeys_run h.fields (h.hash k))) rfl rfl
  | hGetAll k => exact .same h (returns_ok (hGetAll_run h.fields (h.hash k))) rfl rfl
  | hGetLen k => exact .same h (returns_ok (hGetLen_run h.fields (h.hash k))) rfl rfl
  | hGetLastN k num =>
    have hnum : 1 ≤ num := hfits
    refine .same h (returns_ok (hGetLastN_run h.fields (h.hash k) (by omega))) rfl ?_
    rw [max_eq_left hnum]
    rfl
  | hClear k => exact hClear_refines hw h k
  | _ => exact push_refines hw h rfl rfl rfl hb

end Steps

/-! ## Whole runs -/

/-- One call after the other; an error does not stop the caller. -/
def runs (t : TxStructure) : List Op → KV → List (Outcome Err Ret) × KV
  | [], s => ([], s)
  | op :: ops, s =>
    let (o, s) := op.run t s
    let (os, s) := runs t ops s
    (o :: os, s)

def applies : List Op → Store → List (Outcome Err Ret) × Store
  | [], A => ([], A)
  | op :: ops, A =>
    let (o, A) := op.apply A
    let (os, A) := applies ops A
    (o :: os, A)

section Same

variable (A : Store) {item : Op.Item} {k : Bytes}

theorem Op.Item.same_refl (item : Op.Item) : item.Same A A := by cases item <;> rfl

open Op.Item

theorem Op.Item.same_setStr (h : str k ≠ item) (v : Option Bytes) : item.Same A (A.setStr k v) := by
  cases item with
  | str k' => exact update_of_ne (fun he => h (by rw [he])) _ _
  | _ => rfl

theorem Op.Item.same_setList (h : list k ≠ item) (xs : List Bytes) : item.Same A (A.setList k xs) := by
  cases item with
  | list k' => exact update_of_ne (fun he => h (by rw [he])) _ _
  | _ => rfl

theorem Op.Item.same_setHash (h : hash k ≠ item) (m : SortedMap Bytes Bytes) : item.Same A (A.setHash k m) := by
  cases item with
  | hash k' => exact update_of_ne (fun he => h (by rw [he])) _ _
  | _ => rfl

theorem Op.apply_same (op : Op) (hitem : op.item ≠ item) : item.Same A (op.apply A).2 := by
  cases op with
  | set k v =>
    simp only [Op.apply]
    split
    · exact item.same_refl A
    · exact same_setStr A hitem _
  | inc k step =>
    simp only [Op.apply]
    split
    · exact same_setStr A hitem _
    · exact item.same_refl A
    · exact item.same_refl A
  | clear k => exact same_setStr A hitem _
  | lPush k vs =>
    simp only [Op.apply, Op.push]
    split
    · exact item.same_refl A
    · exact same_setList A hitem _
  | rPush k vs =>
    simp only [Op.apply, Op.push]
    split
    · exact item.same_refl A
    · exact same_setList A hitem _
  | lPop k => exact same_setList A hitem _
  | rPop k => exact same_setList A hitem _
  | lSet k index v =>
    simp only [Op.apply]
    split
    · split
      · exact item.same_refl A
      · exact item.same_refl A
    · split
      · exact item.same_refl A
      · exact same_setList A hitem _
  | lClear k => exact same_setList A hitem _
  | hSet k f v =>
    simp only [Op.apply]
    split
    · exact item.same_refl A
    · exact same_setHash A hitem _
  | hInc k f step =>
    simp only [Op.apply]
    split
    · exact same_setHash A hitem _
    · exact item.same_refl A
    · exact item.same_refl A
  | hDel k fs => exact same_setHash A hitem _
  | hClear k => exact same_setHash A hitem _
  | _ => exact item.same_refl A

theorem Op.Item.Same.trans {A A' A'' : Store} (h : item.Same A A') (h' : item.Same A' A'') : item.Same A A'' := by
  cases item <;> exact Eq.trans h' h

theorem applies_same (ops : List Op) (hitem : ∀ op ∈ ops, op.item ≠ item) : item.Same A (applies ops A).2 := by
  induction ops generalizing A with
  | nil => exact item.same_refl A
  | cons op ops ih =>
    have h1 := Op.apply_same A op (hitem op (mem_cons_self ..))
    exact h1.trans (ih (op.apply A).2 fun op' hop' => hitem op' (mem_cons_of_mem _ hop'))

end Same

theorem runs_rep {t : TxStructure} (hw : t.writable = true) (ops : List Op) {b : ℕ} {s : KV} {A : Store}
    (h : Rep t b s A) (hfits : ∀ op ∈ ops, op.Fits) (hb : b + (ops.map Op.pushes).sum < 2 ^ 63) :
    (runs t ops s).1.map forget = (applies ops A).1 ∧
    Rep t (b + (ops.map Op.pushes).sum) (runs t ops s).2 (applies ops A).2 ∧
    ∀ key, ¬t.prefixBytes <+: key → (runs t ops s).2.find key = s.find key := by
  induction ops generalizing b s A with
  | nil => exact ⟨rfl, h, fun _ _ => rfl⟩
  | cons op ops ih =>
    rw [map_cons, sum_cons, ← Nat.add_assoc] at hb ⊢
    have hstep := op_refines hw h (hfits op (mem_cons_self ..)) (by omega)
    obtain ⟨hresults, hrep, hout⟩ := ih hstep.rep (fun op' hop' => hfits op' (mem_cons_of_mem _ hop')) hb
    refine ⟨?_, hrep, fun key hkey => (hout key hkey).trans (hstep.outside key hkey)⟩
    show forget (op.run t s).1 :: (runs t ops (op.run t s).2).1.map forget =
      (op.apply A).1 :: (applies ops (op.apply A).2).1
    rw [hresults, hstep.result]

/-- Any calls on a transaction that represents a store: each returns what the call on the store returns, and items that
no call is about and keys without the prefix are as they were. -/
theorem structure_refines {t : TxStructure} (hw : t.writable = true) (ops : List Op) {b : ℕ} {s : KV}
    {A : Store} (h : Rep t b s A) (hfits : ∀ op ∈ ops, op.Fits) (hb : b + (ops.map Op.pushes).sum < 2 ^ 63) :
    (runs t ops s).1.map forget = (applies ops A).1 ∧
    Rep t (b + (ops.map Op.pushes).sum) (runs t ops s).2 (applies ops A).2 ∧
    (∀ item : Op.Item, (∀ op ∈ ops, op.item ≠ item) → item.Same A (applies ops A).2) ∧
    ∀ key, ¬t.prefixBytes <+: key → (runs t ops s).2.find key = s.find key := by
  obtain ⟨hresults, hrep, hout⟩ := runs_rep hw ops h hfits hb
  exact ⟨hresults, hrep, fun item hitem => applies_same A ops hitem, hout⟩

/-- Keys that are the beginning of one another, with zero bytes, in an empty transaction. -/
theorem structure_refines_prefixes :
    let ops : List Op := [.hSet [0] [0, 0] [1], .rPush [0, 0] [[1], [2]], .set [0] [7], .hInc [0] [0] 5,
      .lIndex [0, 0] (-1), .hGetLastN [0] 1]
    (runs ⟨[109], true⟩ ops .empty).1.map forget = (applies ops .empty).1 := by
  intro ops
  refine (@structure_refines ⟨[109], true⟩ rfl ops 0 .empty .empty (Rep.empty fun _ _ => rfl) ?_ ?_).1
  · intro op hop
    simp only [ops, mem_cons, not_mem_nil, or_false] at hop
    rcases hop with rfl | rfl | rfl | rfl | rfl | rfl
    · exact cons_ne_nil _ _
    · trivial
    · trivial
    · trivial
    · trivial
    · exact le_rfl
  · decide

/-- Of a hash with one field `HGetLastN` gives this field where no field is asked for. -/
theorem hGetLastN_zero :
    let ops := [.hSet [1] [2] [3], .hGetLastN [1] 0]
    (runs ⟨[109], true⟩ ops .empty).1 = [.ok .unit, .ok (.pairs [([2], [3])])] ∧
      (applies ops .empty).1 = [.ok .unit, .ok (.pairs [])] := by
  decide

end Tidb.Structure
