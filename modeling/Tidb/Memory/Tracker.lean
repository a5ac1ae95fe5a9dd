import Tidb.Lib.ForestSum
import Mathlib.Data.BitVec

/-!
# Memory trackers (`util/memory/tracker.go`)

The trackers are the elements of a finite type; each has a label and is global or not, and the state has its parent,
its children by label and the bytes consumed.  A global tracker keeps no children.  Bytes are `int64`.  The limits,
their actions and the metrics are left out.
-/

namespace Memory

variable {ι : Type} [DecidableEq ι]

structure Trackers (ι : Type) where
  label : ι → ℤ
  isGlobal : ι → Bool

structure State (ι : Type) where
  parent : ι → Option ι
  children : ι → ℤ → List ι
  bytesConsumed : ι → BitVec 64

inductive Err where
  /-- more parents than there are trackers: the loop does not end -/
  | loop
  | attachToNonGlobal
  | detachFromNonGlobal
  deriving DecidableEq, Repr

namespace State

variable (s : State ι)

def setParent (t : ι) (parent : Option ι) : State ι := { s with parent := Function.update s.parent t parent }

def setChildren (t : ι) (label : ℤ) (children : List ι) : State ι :=
  { s with children := Function.update s.children t (Function.update (s.children t) label children) }

variable [Fintype ι]

def consume (t : ι) (bs : BitVec 64) : Except Err (State ι) :=
  if bs = 0 then .ok s
  else
    match Forest.addUp s.parent bs (Fintype.card ι + 1) (some t) s.bytesConsumed with
    | some bytesConsumed => .ok { s with bytesConsumed }
    | none => .error .loop

variable (ts : Trackers ι)

def remove (t oldChild : ι) : Except Err (State ι) :=
  let label := ts.label oldChild
  let children := s.children t label
  if oldChild ∈ children then
    ((s.setChildren t label (children.erase oldChild)).setParent oldChild none).consume t (-s.bytesConsumed oldChild)
  else .ok s

def leaveParent (t : ι) : Except Err (State ι) :=
  match s.parent t with
  | none => .ok s
  | some parent => if ts.isGlobal parent then s.consume parent (-s.bytesConsumed t) else s.remove ts parent t

def attachToGlobalTracker (t : ι) : Option ι → Except Err (State ι)
  | none => .ok s
  | some globalTracker =>
    if !ts.isGlobal globalTracker then .error .attachToNonGlobal
    else do
      let s ← s.leaveParent ts t
      (s.setParent t (some globalTracker)).consume globalTracker (s.bytesConsumed t)

def removeFromParent (t : ι) : Except Err (State ι) :=
  match s.parent t with
  | some oldParent => s.remove ts oldParent t
  | none => .ok s

def attachTo (t parent : ι) : Except Err (State ι) :=
  if ts.isGlobal parent then s.attachToGlobalTracker ts t (some parent)
  else do
    let s ← s.removeFromParent ts t
    let s := s.setChildren parent (ts.label t) (s.children parent (ts.label t) ++ [t])
    (s.setParent t (some parent)).consume parent (s.bytesConsumed t)

def detachFromGlobalTracker (t : ι) : Except Err (State ι) :=
  match s.parent t with
  | none => .ok s
  | some parent =>
    if !ts.isGlobal parent then .error .detachFromNonGlobal
    else do
      let s ← s.consume parent (-s.bytesConsumed t)
      .ok (s.setParent t none)

def detach (t : ι) : Except Err (State ι) :=
  match s.parent t with
  | none => .ok s
  | some parent =>
    if ts.isGlobal parent then s.detachFromGlobalTracker ts t
    else do
      let s ← s.remove ts parent t
      .ok (s.setParent t none)

def replaceChild (t oldChild : ι) : Option ι → Except Err (State ι)
  | none => s.remove ts t oldChild
  | some newChild =>
    if ts.label oldChild ≠ ts.label newChild then do
      let s ← s.remove ts t oldChild
      s.attachTo ts newChild t
    else
      let newConsumed := s.bytesConsumed newChild
      let s := s.setParent newChild (some t)
      let label := ts.label oldChild
      let children := s.children t label
      if oldChild ∈ children then
        let newConsumed := newConsumed - s.bytesConsumed oldChild
        let s := s.setParent oldChild none
        (s.setChildren t label (children.replace oldChild newChild)).consume t newConsumed
      else s.consume t newConsumed

def replaceBytesUsed (t : ι) (bytes : BitVec 64) : Except Err (State ι) := s.consume t (bytes - s.bytesConsumed t)

end State

/-! ## Runs -/

inductive Call (ι : Type) where
  | consume (t : ι) (bs : BitVec 64)
  | attachTo (t parent : ι)
  | detach (t : ι)
  | replaceChild (t oldChild : ι) (newChild : Option ι)
  | attachToGlobalTracker (t : ι) (globalTracker : Option ι)
  | detachFromGlobalTracker (t : ι)
  | replaceBytesUsed (t : ι) (bytes : BitVec 64)

variable [Fintype ι] (ts : Trackers ι)

def Call.exec (s : State ι) : Call ι → Except Err (State ι)
  | .consume t bs => s.consume t bs
  | .attachTo t parent => s.attachTo ts t parent
  | .detach t => s.detach ts t
  | .replaceChild t oldChild newChild => s.replaceChild ts t oldChild newChild
  | .attachToGlobalTracker t globalTracker => s.attachToGlobalTracker ts t globalTracker
  | .detachFromGlobalTracker t => s.detachFromGlobalTracker ts t
  | .replaceBytesUsed t bytes => s.replaceBytesUsed t bytes

def Call.direct (s : State ι) (u : ι) : Call ι → BitVec 64
  | .consume t bs => if u = t then bs else 0
  | .replaceBytesUsed t bytes => if u = t then bytes - s.bytesConsumed t else 0
  | _ => 0

/-- The state after calls and the bytes consumed directly; a call that panics does nothing. -/
def run (s : State ι) (direct : ι → BitVec 64) : List (Call ι) → Option (State ι × (ι → BitVec 64))
  | [] => some (s, direct)
  | call :: calls =>
    match call.exec ts s with
    | .ok s' => run s' (fun u => direct u + call.direct s u) calls
    | .error .loop => none
    | .error _ => run s direct calls

end Memory
