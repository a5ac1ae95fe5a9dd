import Tidb.Lib.RangeTree
import Tidb.Lib.ByteOrder

/-!
# The range tree of a backup

`br/pkg/rtree/rtree.go`: the ranges that have been backed up, by their start keys.  A range without an end key has
no end.  Keys are byte strings in the order of `bytes.Compare`, of which only the order and the empty key as the
least one matter; the files of a range are carried along.  The tree package is a parameter.
-/

universe u v

namespace Br

structure Range (K : Type u) (File : Type v) extends KeyRange K where
  files : List File
  deriving DecidableEq, Repr

variable {K : Type u} {File : Type v} [LinearOrder K] [OrderBot K]

namespace Range

def intersect (rg : Range K File) (start «end» : K) : Option (K × K) :=
  -- empty mean the max end key
  if rg.endKey ≠ ⊥ ∧ rg.endKey ≤ start then none
  else if «end» ≠ ⊥ ∧ «end» ≤ rg.startKey then none
  else
    let subStart := if rg.startKey ≤ start then start else rg.startKey
    let subEnd :=
      if «end» = ⊥ then rg.endKey
      else if rg.endKey = ⊥ then «end»
      else if «end» < rg.endKey then «end»
      else rg.endKey
    some (subStart, subEnd)

def contains (rg : Range K File) (key : K) : Bool := rg.startKey ≤ key ∧ (rg.endKey = ⊥ ∨ key < rg.endKey)

end Range

abbrev RangeLib (K : Type u) (File : Type v) [LinearOrder K] :=
  BTreeLib fun rg : Range K File => rg.toKeyRange.startKey

/-- The ranges it stores do not overlap. -/
abbrev RangeTree (lib : RangeLib K File) := BTree lib

namespace RangeTree

variable {lib : RangeLib K File} (rangeTree : RangeTree lib)

def newRangeTree : RangeTree lib := BTree.new

def find (startKey : K) : Option (Range K File) :=
  match rangeTree.lastLessOrEqual startKey with
  | none => none
  | some ret => if ret.contains startKey then some ret else none

def getOverlaps (rg : Range K File) : List (Range K File) :=
  let found := (rangeTree.find rg.startKey).getD rg
  (rangeTree.ascendGreaterOrEqual found.startKey).takeWhile fun item =>
    !(decide (rg.endKey ≠ ⊥ ∧ rg.endKey ≤ item.startKey))

def update (rg : Range K File) : RangeTree lib :=
  (rangeTree.deleteAll (rangeTree.getOverlaps rg)).replaceOrInsert rg

def put (startKey endKey : K) (files : List File) : RangeTree lib :=
  rangeTree.update { startKey, endKey, files }

def missing (requestRange : Range K File) (start «end» : K) : List (Range K File) :=
  match requestRange.intersect start «end» with
  | none => []
  | some (start, «end») => [{ startKey := start, endKey := «end», files := [] }]

def gaps (requestRange : Range K File) (lastEndKey : K) : List (Range K File) → List (Range K File) × K
  | [] => ([], lastEndKey)
  | rg :: rest =>
    -- There is a gap between the last item and the current item.
    let gap := if lastEndKey < rg.startKey then missing requestRange lastEndKey rg.startKey else []
    if requestRange.endKey = ⊥ ∨ rg.endKey < requestRange.endKey then
      let (incomplete, lastEndKey) := gaps requestRange rg.endKey rest
      (gap ++ incomplete, lastEndKey)
    else (gap, rg.endKey)

def pivot (startKey : K) : K :=
  match rangeTree.find startKey with
  | some first => first.startKey
  | none => startKey

def getIncompleteRange (startKey endKey : K) : List (Range K File) :=
  if startKey ≠ ⊥ ∧ startKey = endKey then []
  else
    let requestRange : Range K File := { startKey, endKey, files := [] }
    let visited := rangeTree.ascendGreaterOrEqual (rangeTree.pivot startKey)
    let (incomplete, lastEndKey) := gaps requestRange startKey visited
    -- Check whether we need append the last range
    if visited = [] ∨ lastEndKey ≠ endKey ∧ lastEndKey ≠ ⊥ ∧ (endKey = ⊥ ∨ lastEndKey < endKey) then
      incomplete ++ missing requestRange lastEndKey endKey
    else incomplete

end RangeTree

end Br
