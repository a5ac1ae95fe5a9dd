import Tidb.Lib.RangeTree
import Tidb.Lib.ByteOrder
import Mathlib.Data.Prod.Lex

/-!
# The spans of a log backup checkpoint

`br/pkg/streamhelper/spans`: spans of keys with a value each, in a tree by their start keys (`sorted.go`), and again
in a tree by value (`value_sorted.go`).  Of keys only the order and the empty key as the least one matter, of values
only the order.  Spans are collected before they are put into the tree: nothing reads it in between.  The tree package
is a parameter, once for each order.
-/

universe u

namespace Br

variable {K : Type u}

def join (a b : ℕ) : ℕ := if a > b then a else b

abbrev Span (K : Type u) := KeyRange K

structure Valued (K : Type u) where
  key : Span K
  value : ℕ
  deriving DecidableEq, Repr

section Compare

variable [LinearOrder K] [OrderBot K]

/-- `CompareBytesExt` of `br/pkg/utils/key.go`: an empty key may stand for the end of all keys. -/
def compareBytesExt (a : K) (aEmptyAsInf : Bool) (b : K) (bEmptyAsInf : Bool) : Ordering :=
  -- Inf = Inf
  if a = ⊥ ∧ aEmptyAsInf ∧ b = ⊥ ∧ bEmptyAsInf then .eq
  -- Inf > anything
  else if a = ⊥ ∧ aEmptyAsInf then .gt
  -- anything < Inf
  else if b = ⊥ ∧ bEmptyAsInf then .lt
  else compare a b

def overlaps (a b : Span K) : Bool :=
  if b.endKey = ⊥ then a.endKey = ⊥ ∨ b.startKey < a.endKey
  else if a.endKey = ⊥ then b.endKey = ⊥ ∨ a.startKey < b.endKey
  else a.startKey < b.endKey ∧ b.startKey < a.endKey

/-! ## Collapsing spans -/

def spanLess (a b : Span K) : Bool :=
  if compare a.startKey b.startKey ≠ .eq then compare a.startKey b.startKey == .lt
  else compareBytesExt a.endKey true b.endKey true == .lt

def collapseFrom (item : Span K) : List (Span K) → List (Span K)
  | [] => [item]
  | fr :: frs =>
    if item.endKey ≠ ⊥ ∧ item.endKey < fr.startKey then item :: collapseFrom fr frs
    else if item.endKey ≠ ⊥ ∧ item.endKey < fr.endKey ∨ fr.endKey = ⊥ then
      collapseFrom { item with endKey := fr.endKey } frs
    else collapseFrom item frs

def collapse (spans : List (Span K)) : List (Span K) :=
  match spans.insertionSort fun a b => spanLess b a = false with
  | [] => []
  | item :: frs => collapseFrom item frs

/-! ## The tree by start key -/

abbrev StartLib (K : Type u) [LinearOrder K] := BTreeLib fun v : Valued K => v.key.startKey

abbrev ValuedFull (lib : StartLib K) := BTree lib

variable {lib : StartLib K}

def newFullWith (initSpans : List (Span K)) (init : ℕ) : ValuedFull lib :=
  BTree.new.insertAll ((collapse initSpans).map fun r => { value := init, key := r })

def overlapped (inner : ValuedFull lib) (k : Span K) : List (Valued K) :=
  -- Firstly, let's find whether there is a overlapped region with less start key.
  let first := match inner.lastLessOrEqual k.startKey with
    | some item => if overlaps item.key k then item.key else k
    | none => k
  (inner.ascendGreaterOrEqual first.startKey).takeWhile fun r => overlaps r.key k

structure Collector (K : Type u) where
  newItems : List (Valued K)
  collected : Option (Valued K)

def Collector.flushCollected (s : Collector K) : List (Valued K) := s.newItems ++ s.collected.toList

def emitToCollected (value : ℕ) (s : Collector K) (emitted : Valued K × Bool) : Collector K :=
  let (rng, standalone) := emitted
  let merged := if standalone then rng.value else join value rng.value
  match s.collected with
  | none => { s with collected := some { rng with value := merged } }
  | some collected =>
    if merged = collected.value ∧ compareBytesExt collected.key.endKey true rng.key.startKey false = .eq then
      { s with collected := some { collected with key.endKey := rng.key.endKey } }
    else { newItems := s.flushCollected, collected := some { key := rng.key, value := merged } }

/-- What is left of the first overlapped span before the new one, and the overlapped spans without it. -/
def cutLeft (val : Valued K) (overlapped : List (Valued K)) : Option (Valued K) × List (Valued K) :=
  match overlapped with
  | [] => (none, [])
  | leftmost :: rest =>
    if leftmost.key.startKey < val.key.startKey then
      (some { key := ⟨leftmost.key.startKey, val.key.startKey⟩, value := leftmost.value },
        { leftmost with key.startKey := val.key.startKey } :: rest)
    else (none, overlapped)

/-- What is left of the last overlapped span behind the new one, and the overlapped spans without it. -/
def cutRight (val : Valued K) : List (Valued K) → Option (Valued K) × List (Valued K)
  | [] => (none, [])
  | [rightmost] =>
    if compareBytesExt rightmost.key.endKey true val.key.endKey true = .gt then
      (some { key := ⟨val.key.endKey, rightmost.key.endKey⟩, value := rightmost.value },
        [{ rightmost with key.endKey := val.key.endKey }])
    else (none, [rightmost])
  | r :: rest => ((cutRight val rest).1, r :: (cutRight val rest).2)

/-- The tree, the overlapped spans as they are cut in place, and the spans that are put into the tree. -/
def mergeWithOverlap (inner : ValuedFull lib) (val : Valued K) (overlapped : List (Valued K)) :
    ValuedFull lib × List (Valued K) × List (Valued K) :=
  -- There isn't any range overlaps with the input range, perhaps the input range is empty.
  -- do nothing for this case.
  if overlapped = [] then (inner, overlapped, [])
  else
    let inner := inner.deleteAll overlapped
    let (left, overlapped) := cutLeft val overlapped
    let (rightTrail, overlapped) := cutRight val overlapped
    let emitted := left.toList.map (·, true) ++ overlapped.map (·, false) ++ rightTrail.toList.map (·, true)
    let newItems := (emitted.foldl (emitToCollected val.value) ⟨[], none⟩).flushCollected
    (inner.insertAll newItems, overlapped, newItems)

/-! ## The tree by value -/

def sortedByValueThenStartKey (v : Valued K) : ℕ ×ₗ K := toLex (v.value, v.key.startKey)

abbrev ValueLib (K : Type u) [LinearOrder K] := BTreeLib (sortedByValueThenStartKey (K := K))

structure ValueSortedFull (lib : StartLib K) (idxLib : ValueLib K) where
  inner : ValuedFull lib
  valueIdx : BTree idxLib

variable {idxLib : ValueLib K}

def sorted (f : ValuedFull lib) : ValueSortedFull lib idxLib := ⟨f, BTree.new.insertAll f.items⟩

namespace ValueSortedFull

def merge (v : ValueSortedFull lib idxLib) (newItem : Valued K) : ValueSortedFull lib idxLib :=
  let (inner, overlapped, inserted) := mergeWithOverlap v.inner newItem (overlapped v.inner newItem.key)
  ⟨inner, (v.valueIdx.deleteAll overlapped).insertAll inserted⟩

def mergeAll (v : ValueSortedFull lib idxLib) (newItems : List (Valued K)) : ValueSortedFull lib idxLib :=
  newItems.foldl merge v

def minValue (v : ValueSortedFull lib idxLib) : Option ℕ := v.valueIdx.min.map Valued.value

end ValueSortedFull

end Compare

end Br
