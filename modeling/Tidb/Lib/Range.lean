import Mathlib.Tactic
import Mathlib.Order.BoundedOrder.Basic

/-!
# Ranges of keys

A range `[startKey, endKey)` over a linear order with a least element.  The least element as an end means
that there is no end.  `Ascending` lists are the sets of keys that a scan goes over; they are cut into
pieces without changing the set.
-/

universe u

/-- `[startKey, endKey)`, without an end where `endKey` is the least key. -/
structure KeyRange (K : Type u) where
  startKey : K
  endKey : K
  deriving DecidableEq, Repr

namespace KeyRange

open List

variable {K : Type u} [LinearOrder K] [OrderBot K]

def Contains (r : KeyRange K) (k : K) : Prop := r.startKey ≤ k ∧ (k < r.endKey ∨ r.endKey = ⊥)

instance (r : KeyRange K) (k : K) : Decidable (r.Contains k) := inferInstanceAs (Decidable (_ ∧ _))

def NonEmpty (r : KeyRange K) : Prop := r.startKey < r.endKey ∨ r.endKey = ⊥

def Before (a b : KeyRange K) : Prop := a.endKey ≠ ⊥ ∧ a.endKey ≤ b.startKey

def Inside (r s : KeyRange K) : Prop :=
  s.startKey ≤ r.startKey ∧ (s.endKey = ⊥ ∨ r.endKey ≠ ⊥ ∧ r.endKey ≤ s.endKey)

def Has (l : List (KeyRange K)) (k : K) : Prop := ∃ r ∈ l, r.Contains k

structure Ascending (l : List (KeyRange K)) : Prop where
  nonEmpty : ∀ r ∈ l, r.NonEmpty
  before : l.Pairwise Before

variable {a b r : KeyRange K} {l l₁ l₂ : List (KeyRange K)} {k m : K}

theorem NonEmpty.contains_start (h : r.NonEmpty) : r.Contains r.startKey := ⟨le_refl _, h⟩

theorem Before.start_lt (h : a.Before b) (ha : a.NonEmpty) : a.startKey < b.startKey := by
  rcases ha with ha | ha
  · exact ha.trans_le h.2
  · exact absurd ha h.1

theorem Before.disjoint (h : a.Before b) (ha : a.Contains k) : ¬ b.Contains k := by
  intro hb
  rcases ha.2 with hlt | hbot
  · exact absurd (h.2.trans hb.1) (not_le_of_gt hlt)
  · exact h.1 hbot

theorem Inside.contains (h : a.Inside b) (hk : a.Contains k) : b.Contains k := by
  refine ⟨h.1.trans hk.1, ?_⟩
  rcases h.2 with hbot | ⟨hne, hle⟩
  · exact .inr hbot
  · exact .inl ((hk.2.resolve_right hne).trans_le hle)

theorem Inside.trans (h : a.Inside b) (h' : b.Inside r) : a.Inside r := by
  refine ⟨h'.1.trans h.1, h'.2.imp_right fun hb => ?_⟩
  have ha := h.2.resolve_left hb.1
  exact ⟨ha.1, ha.2.trans hb.2⟩

theorem Inside.refl (r : KeyRange K) : r.Inside r := by
  refine ⟨le_refl _, ?_⟩
  by_cases hbot : r.endKey = ⊥
  · exact .inl hbot
  · exact .inr ⟨hbot, le_refl _⟩

theorem Before.of_inside {a' b' : KeyRange K} (h : a.Before b) (ha : a'.Inside a) (hb : b'.Inside b) :
    a'.Before b' := by
  obtain ⟨hne, hle⟩ := ha.2.resolve_left h.1
  exact ⟨hne, hle.trans (h.2.trans hb.1)⟩

@[simp] theorem has_nil : ¬ Has [] k := by simp [Has]

theorem has_cons : Has (r :: l) k ↔ r.Contains k ∨ Has l k := by simp [Has]

theorem has_append : Has (l₁ ++ l₂) k ↔ Has l₁ k ∨ Has l₂ k := by simp only [Has, mem_append, or_and_right, exists_or]

theorem Ascending.nil : Ascending ([] : List (KeyRange K)) := ⟨by simp, .nil⟩

theorem Ascending.sublist (h : Ascending l₂) (hl : l₁.Sublist l₂) : Ascending l₁ :=
  ⟨fun r hr => h.nonEmpty r (hl.subset hr), h.before.sublist hl⟩

theorem ascending_append : Ascending (l₁ ++ l₂) ↔ Ascending l₁ ∧ Ascending l₂ ∧ ∀ a ∈ l₁, ∀ b ∈ l₂, a.Before b := by
  constructor
  · rintro ⟨hne, hbefore⟩
    obtain ⟨h₁, h₂, h⟩ := pairwise_append.mp hbefore
    exact ⟨⟨fun r hr => hne r (mem_append_left l₂ hr), h₁⟩, ⟨fun r hr => hne r (mem_append_right l₁ hr), h₂⟩, h⟩
  · rintro ⟨⟨hne₁, h₁⟩, ⟨hne₂, h₂⟩, h⟩
    refine ⟨fun r hr => ?_, pairwise_append.mpr ⟨h₁, h₂, h⟩⟩
    exact (mem_append.mp hr).elim (hne₁ r) (hne₂ r)

theorem ascending_cons : Ascending (r :: l) ↔ r.NonEmpty ∧ Ascending l ∧ ∀ b ∈ l, r.Before b := by
  rw [← singleton_append, ascending_append]
  constructor
  · rintro ⟨hr, hl, h⟩
    exact ⟨hr.nonEmpty r mem_cons_self, hl, h r mem_cons_self⟩
  · rintro ⟨hr, hl, h⟩
    refine ⟨⟨by simpa using hr, pairwise_singleton _ _⟩, hl, ?_⟩
    simpa using h

/-! ## Common keys -/

def Overlaps (a b : KeyRange K) : Prop := ∃ k, a.Contains k ∧ b.Contains k

theorem Overlaps.symm (h : a.Overlaps b) : b.Overlaps a := by
  obtain ⟨k, ha, hb⟩ := h
  exact ⟨k, hb, ha⟩

theorem Contains.of_le (h : r.Contains k) (hm : r.startKey ≤ m) (hle : m ≤ k) : r.Contains m :=
  ⟨hm, h.2.imp_left hle.trans_lt⟩

theorem overlaps_iff (ha : a.NonEmpty) (hb : b.NonEmpty) :
    a.Overlaps b ↔ (b.startKey < a.endKey ∨ a.endKey = ⊥) ∧ (a.startKey < b.endKey ∨ b.endKey = ⊥) := by
  constructor
  · rintro ⟨k, hak, hbk⟩
    exact ⟨hak.2.imp_left hbk.1.trans_lt, hbk.2.imp_left hak.1.trans_lt⟩
  · rintro ⟨hba, hab⟩
    rcases le_total a.startKey b.startKey with hle | hle
    · exact ⟨b.startKey, ⟨hle, hba⟩, hb.contains_start⟩
    · exact ⟨a.startKey, ha.contains_start, ⟨hle, hab⟩⟩

theorem before_of_not_overlaps (h : ¬ a.Overlaps b) (hlt : a.startKey ≤ b.startKey) (hb : b.NonEmpty) : a.Before b := by
  by_contra hnot
  apply h
  refine ⟨b.startKey, ⟨hlt, ?_⟩, hb.contains_start⟩
  by_contra hout
  rw [not_or, not_lt] at hout
  exact hnot ⟨hout.2, hout.1⟩

theorem Before.not_overlaps (h : a.Before b) : ¬ a.Overlaps b := by
  rintro ⟨k, ha, hb⟩
  exact h.disjoint ha hb

theorem Ascending.not_overlaps {α : Type*} {range : α → KeyRange K} {items : List α} (h : Ascending (items.map range))
    {x y : α} (hx : x ∈ items) (hy : y ∈ items) (hne : x ≠ y) : ¬ (range x).Overlaps (range y) := by
  have hbefore := h.before
  rw [pairwise_map, pairwise_iff_getElem] at hbefore
  obtain ⟨i, hi, rfl⟩ := getElem_of_mem hx
  obtain ⟨j, hj, rfl⟩ := getElem_of_mem hy
  rcases lt_trichotomy i j with hij | rfl | hij
  · exact (hbefore i j hi hj hij).not_overlaps
  · exact absurd rfl hne
  · exact fun hover => (hbefore j i hj hi hij).not_overlaps hover.symm

def CutBy (r : KeyRange K) (m : K) : Prop := r.startKey < m ∧ (m < r.endKey ∨ r.endKey = ⊥)

theorem CutBy.ne_bot (h : r.CutBy m) : m ≠ ⊥ := (bot_le.trans_lt h.1).ne'

theorem contains_cut (h : r.CutBy m) :
    (KeyRange.mk r.startKey m).Contains k ∨ (KeyRange.mk m r.endKey).Contains k ↔ r.Contains k := by
  have hm := h.ne_bot
  constructor
  · rintro (⟨hs, hk⟩ | ⟨hs, hk⟩)
    · have hkm : k < m := hk.resolve_right hm
      exact ⟨hs, h.2.imp_left hkm.trans⟩
    · exact ⟨h.1.le.trans hs, hk⟩
  · rintro ⟨hs, hk⟩
    rcases lt_or_ge k m with hlt | hge
    · exact .inl ⟨hs, .inl hlt⟩
    · exact .inr ⟨hge, hk⟩

theorem has_cut (h : r.CutBy m) : Has (l₁ ++ ⟨r.startKey, m⟩ :: ⟨m, r.endKey⟩ :: l₂) k ↔ Has (l₁ ++ r :: l₂) k := by
  rw [has_append, has_append, has_cons, has_cons, has_cons, ← contains_cut h, or_assoc]

theorem Ascending.cut (h : r.CutBy m) (hl : Ascending (l₁ ++ r :: l₂)) :
    Ascending (l₁ ++ ⟨r.startKey, m⟩ :: ⟨m, r.endKey⟩ :: l₂) := by
  have hm := h.ne_bot
  obtain ⟨h₁, hr, hbefore⟩ := ascending_append.mp hl
  obtain ⟨-, h₂, hafter⟩ := ascending_cons.mp hr
  have hfirst : (KeyRange.mk r.startKey m).Before ⟨m, r.endKey⟩ := ⟨hm, le_refl m⟩
  have hrest : ∀ b ∈ l₂, (KeyRange.mk r.startKey m).Before b := by
    intro b hb
    have hrb := hafter b hb
    exact ⟨hm, (h.2.resolve_right hrb.1).le.trans hrb.2⟩
  apply ascending_append.mpr
  refine ⟨h₁, ?_, ?_⟩
  · apply ascending_cons.mpr
    refine ⟨.inl h.1, ?_, ?_⟩
    · exact ascending_cons.mpr ⟨h.2, h₂, hafter⟩
    · intro b hb
      rcases mem_cons.mp hb with rfl | hb
      · exact hfirst
      · exact hrest b hb
  · intro a ha b hb
    have har := hbefore a ha r mem_cons_self
    rcases mem_cons.mp hb with rfl | hb
    · exact har
    rcases mem_cons.mp hb with rfl | hb
    · exact ⟨har.1, har.2.trans h.1.le⟩
    · exact hbefore a ha b (mem_cons_of_mem r hb)

theorem has_of_split (h₁ : ∀ a ∈ l₁, a.endKey ≠ ⊥ ∧ a.endKey ≤ m) (h₂ : ∀ b ∈ l₂, m ≤ b.startKey) :
    (Has l₁ k ↔ Has (l₁ ++ l₂) k ∧ k < m) ∧ (Has l₂ k ↔ Has (l₁ ++ l₂) k ∧ m ≤ k) := by
  have hleft : Has l₁ k → k < m := by
    rintro ⟨a, ha, hk⟩
    exact (hk.2.resolve_right (h₁ a ha).1).trans_le (h₁ a ha).2
  have hright : Has l₂ k → m ≤ k := by
    rintro ⟨b, hb, hk⟩
    exact (h₂ b hb).trans hk.1
  rw [has_append]
  constructor
  · constructor
    · exact fun h => ⟨.inl h, hleft h⟩
    · rintro ⟨h | h, hk⟩
      · exact h
      · exact absurd (hright h) (not_le_of_gt hk)
  · constructor
    · exact fun h => ⟨.inr h, hright h⟩
    · rintro ⟨h | h, hk⟩
      · exact absurd hk (not_le_of_gt (hleft h))
      · exact h

end KeyRange
