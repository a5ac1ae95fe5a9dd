import Tidb.Lib.BTree
import Tidb.Lib.Range

/-!
# Trees of ranges

A tree of items with a range each, by the start of the range.  Where no two of the ranges overlap, the item that
holds a key is the last one that starts up to it, and the items that overlap a range are neighbours.
-/

universe u v

open KeyRange

namespace BTree

variable {α : Type u} {K : Type v} [LinearOrder K] [OrderBot K] {range : α → KeyRange K}
  {lib : BTreeLib fun a => (range a).startKey}

def NonOverlapping (t : BTree lib) : Prop := Ascending (t.items.map range)

variable {t : BTree lib} {a b : α} {r : KeyRange K} {k : K}

theorem nonOverlapping_iff : t.NonOverlapping ↔
    (∀ a ∈ t.items, (range a).NonEmpty) ∧ ∀ a ∈ t.items, ∀ b ∈ t.items, a ≠ b → ¬ (range a).Overlaps (range b) := by
  constructor
  · intro h
    exact ⟨List.forall_mem_map.mp h.nonEmpty, fun a ha b hb hab => h.not_overlaps ha hb hab⟩
  · rintro ⟨hne, hdisjoint⟩
    refine ⟨List.forall_mem_map.mpr hne, ?_⟩
    rw [List.pairwise_map]
    apply t.sorted.imp_of_mem
    intro a b ha hb hlt
    apply before_of_not_overlaps _ hlt.le (hne b hb)
    apply hdisjoint a ha b hb
    rintro rfl
    exact hlt.false

namespace NonOverlapping

variable (h : t.NonOverlapping)

include h

theorem nonEmpty (ha : a ∈ t.items) : (range a).NonEmpty := (nonOverlapping_iff.mp h).1 a ha

theorem eq_of_contains (ha : a ∈ t.items) (hb : b ∈ t.items) (hak : (range a).Contains k)
    (hbk : (range b).Contains k) : a = b := by
  by_contra hne
  exact (nonOverlapping_iff.mp h).2 a ha b hb hne ⟨k, hak, hbk⟩

theorem before (ha : a ∈ t.items) (hb : b ∈ t.items) (hlt : (range a).startKey < (range b).startKey) :
    (range a).Before (range b) := by
  apply before_of_not_overlaps _ hlt.le (h.nonEmpty hb)
  apply (nonOverlapping_iff.mp h).2 a ha b hb
  rintro rfl
  exact hlt.false

theorem lastLessOrEqual_of_contains (ha : a ∈ t.items) (hk : (range a).Contains k) : t.lastLessOrEqual k = some a := by
  cases hlast : t.lastLessOrEqual k with
  | none => exact absurd (lastLessOrEqual_eq_none hlast ha) (not_lt.mpr hk.1)
  | some b =>
    obtain ⟨hb, hbk, hmax⟩ := lastLessOrEqual_eq_some hlast
    rcases (hmax a ha hk.1).lt_or_eq with hlt | heq
    · have hend := h.before ha hb hlt
      exact absurd hk (fun hk => absurd (hk.2.resolve_right hend.1) (not_lt.mpr (hend.2.trans hbk)))
    · rw [eq_of_key_eq ha hb heq]

end NonOverlapping

end BTree
