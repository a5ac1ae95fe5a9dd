import Mathlib.Tactic
import Mathlib.Data.List.Sort

/-!
# Ordered trees

An ordered tree as the package `google/btree` documents it, for items that are compared by a key: two items with
the same key are the same item to the tree.  A walk is the list of the items that it visits; a walk that stops
early is a `takeWhile` of it.
-/

universe u v

structure BTreeLib {α : Type u} {κ : Type v} [LinearOrder κ] (key : α → κ) where
  Tree : Type u
  new : Tree
  /-- Every item of the tree, in order. -/
  ascend : Tree → List α
  replaceOrInsert : Tree → α → Tree
  delete : Tree → α → Tree
  ascendGreaterOrEqual : Tree → κ → List α
  descendLessOrEqual : Tree → κ → List α
  min : Tree → Option α
  sorted_ascend : ∀ t, (ascend t).Pairwise fun a b => key a < key b
  ascend_new : ascend new = []
  /-- An item equal to the given one is removed, and the new item is inserted. -/
  mem_replaceOrInsert : ∀ t x a, a ∈ ascend (replaceOrInsert t x) ↔ a = x ∨ a ∈ ascend t ∧ key a ≠ key x
  /-- An item equal to the given one is removed. -/
  mem_delete : ∀ t x a, a ∈ ascend (delete t x) ↔ a ∈ ascend t ∧ key a ≠ key x
  ascendGreaterOrEqual_eq : ∀ t k, ascendGreaterOrEqual t k = (ascend t).filter fun a => k ≤ key a
  descendLessOrEqual_eq : ∀ t k, descendLessOrEqual t k = ((ascend t).filter fun a => key a ≤ k).reverse
  min_eq : ∀ t, min t = (ascend t).head?

section

variable {α : Type u} {κ : Type v} [LinearOrder κ] {key : α → κ}

def BTree (lib : BTreeLib key) : Type u := lib.Tree

namespace BTree

open List

variable {lib : BTreeLib key}

def new : BTree lib := lib.new

def items (t : BTree lib) : List α := lib.ascend t

def replaceOrInsert (t : BTree lib) (x : α) : BTree lib := lib.replaceOrInsert t x

def delete (t : BTree lib) (x : α) : BTree lib := lib.delete t x

def ascendGreaterOrEqual (t : BTree lib) (k : κ) : List α := lib.ascendGreaterOrEqual t k

/-- The first item that `DescendLessOrEqual` visits. -/
def lastLessOrEqual (t : BTree lib) (k : κ) : Option α := (lib.descendLessOrEqual t k).head?

def min (t : BTree lib) : Option α := lib.min t

def insertAll (t : BTree lib) (l : List α) : BTree lib := l.foldl replaceOrInsert t

def deleteAll (t : BTree lib) (l : List α) : BTree lib := l.foldl delete t

variable {t : BTree lib} {x a b : α} {k : κ}

theorem sorted (t : BTree lib) : t.items.Pairwise fun a b => key a < key b := lib.sorted_ascend t

/-! ## The items after an operation -/

theorem items_new : (new : BTree lib).items = [] := lib.ascend_new

theorem mem_replaceOrInsert : a ∈ (t.replaceOrInsert x).items ↔ a = x ∨ a ∈ t.items ∧ key a ≠ key x :=
  lib.mem_replaceOrInsert t x a

theorem mem_delete : a ∈ (t.delete x).items ↔ a ∈ t.items ∧ key a ≠ key x := lib.mem_delete t x a

theorem mem_deleteAll {l : List α} : a ∈ (t.deleteAll l).items ↔ a ∈ t.items ∧ ∀ x ∈ l, key a ≠ key x := by
  induction l generalizing t with
  | nil => simp [deleteAll]
  | cons x l ih =>
    show a ∈ ((t.delete x).deleteAll l).items ↔ _
    rw [ih, mem_delete, forall_mem_cons, and_assoc]

theorem mem_insertAll {l : List α} (hl : l.Pairwise fun a b => key a ≠ key b) :
    a ∈ (t.insertAll l).items ↔ a ∈ l ∨ a ∈ t.items ∧ ∀ x ∈ l, key a ≠ key x := by
  induction l generalizing t with
  | nil => simp [insertAll]
  | cons x l ih =>
    obtain ⟨hx, hl⟩ := pairwise_cons.mp hl
    show a ∈ ((t.replaceOrInsert x).insertAll l).items ↔ _
    rw [ih hl, mem_replaceOrInsert, forall_mem_cons, mem_cons]
    constructor
    · rintro (ha | ⟨rfl | ⟨ha, hne⟩, hall⟩)
      · exact .inl (.inr ha)
      · exact .inl (.inl rfl)
      · exact .inr ⟨ha, hne, hall⟩
    · rintro ((rfl | ha) | ⟨ha, hne, hall⟩)
      · exact .inr ⟨.inl rfl, hx⟩
      · exact .inl ha
      · exact .inr ⟨.inr ⟨ha, hne⟩, hall⟩

theorem ascendGreaterOrEqual_eq (t : BTree lib) (k : κ) :
    t.ascendGreaterOrEqual k = t.items.filter fun a => k ≤ key a :=
  lib.ascendGreaterOrEqual_eq t k

theorem mem_ascendGreaterOrEqual : a ∈ t.ascendGreaterOrEqual k ↔ a ∈ t.items ∧ k ≤ key a := by
  simp [ascendGreaterOrEqual_eq]

theorem sorted_ascendGreaterOrEqual (t : BTree lib) (k : κ) :
    (t.ascendGreaterOrEqual k).Pairwise fun a b => key a < key b := by
  rw [ascendGreaterOrEqual_eq]
  exact t.sorted.filter _

/-! ## Items of the tree -/

theorem eq_of_key_eq (ha : a ∈ t.items) (hb : b ∈ t.items) (h : key a = key b) : a = b := by
  have hkeys : t.items.Pairwise fun a b => key a ≠ key b := t.sorted.imp fun hlt => hlt.ne
  exact inj_on_of_nodup_map (pairwise_map.mpr hkeys) ha hb h

theorem lastLessOrEqual_eq (t : BTree lib) (k : κ) :
    t.lastLessOrEqual k = (t.items.filter fun a => key a ≤ k).getLast? :=
  (congrArg head? (lib.descendLessOrEqual_eq t k)).trans head?_reverse

theorem lastLessOrEqual_eq_none (h : t.lastLessOrEqual k = none) (ha : a ∈ t.items) : k < key a := by
  by_contra hle
  have hmem : a ∈ t.items.filter fun a => key a ≤ k := by simpa using ⟨ha, not_lt.mp hle⟩
  rw [lastLessOrEqual_eq] at h
  rw [getLast?_eq_none_iff.mp h] at hmem
  cases hmem

theorem lastLessOrEqual_eq_some (h : t.lastLessOrEqual k = some a) :
    a ∈ t.items ∧ key a ≤ k ∧ ∀ b ∈ t.items, key b ≤ k → key b ≤ key a := by
  rw [lastLessOrEqual_eq] at h
  obtain ⟨l, hl⟩ := getLast?_eq_some_iff.mp h
  have ha : a ∈ t.items.filter fun a => key a ≤ k := by simp [hl]
  have hsorted := t.sorted.filter fun a => key a ≤ k
  rw [hl] at hsorted
  simp only [mem_filter, decide_eq_true_eq] at ha
  refine ⟨ha.1, ha.2, fun b hb hbk => ?_⟩
  have hmem : b ∈ t.items.filter fun a => key a ≤ k := by simpa using ⟨hb, hbk⟩
  rw [hl] at hmem
  rcases mem_append.mp hmem with hmem | hmem
  · exact ((pairwise_append.mp hsorted).2.2 b hmem a (mem_singleton_self a)).le
  · rw [mem_singleton.mp hmem]

theorem min_eq_some (h : t.min = some a) : a ∈ t.items ∧ ∀ b ∈ t.items, key a ≤ key b := by
  obtain ⟨l, hl⟩ := head?_eq_some_iff.mp ((lib.min_eq t).symm.trans h)
  have hitems : t.items = a :: l := hl
  have hsorted := t.sorted
  rw [hitems] at hsorted ⊢
  refine ⟨mem_cons_self, fun b hb => ?_⟩
  rcases mem_cons.mp hb with rfl | hb
  · exact le_refl _
  · exact ((pairwise_cons.mp hsorted).1 b hb).le

theorem takeWhile_eq_filter {p : α → Bool} {l : List α} (h : l.Pairwise fun a b => p b = true → p a = true) :
    l.takeWhile p = l.filter p := by
  induction l with
  | nil => rfl
  | cons a l ih =>
    obtain ⟨ha, hl⟩ := pairwise_cons.mp h
    cases hp : p a with
    | true => rw [takeWhile_cons_of_pos hp, filter_cons_of_pos hp, ih hl]
    | false =>
      have hnone : ∀ b ∈ l, ¬ p b = true := by
        intro b hb hpb
        rw [ha b hb hpb] at hp
        cases hp
      rw [takeWhile_cons_of_neg (by simp [hp]), filter_cons_of_neg (by simp [hp]), filter_eq_nil_iff.mpr hnone]

/-! ## Sorted lists -/

/-- Sorted lists are such trees. -/
def sortedList (key : α → κ) : BTreeLib key where
  Tree := { l : List α // l.Pairwise fun a b => key a < key b }
  new := ⟨[], .nil⟩
  ascend t := t.1
  replaceOrInsert t x := ⟨t.1.filter (fun a => key a < key x) ++ x :: t.1.filter (fun a => key x < key a), by
    apply pairwise_append.mpr
    refine ⟨t.2.filter _, pairwise_cons.mpr ⟨fun b hb => ?_, t.2.filter _⟩, fun a ha b hb => ?_⟩
    · simpa using (mem_filter.mp hb).2
    · have hax : key a < key x := by simpa using (mem_filter.mp ha).2
      rcases mem_cons.mp hb with rfl | hb
      · exact hax
      · have hxb : key x < key b := by simpa using (mem_filter.mp hb).2
        exact hax.trans hxb⟩
  delete t x := ⟨t.1.filter fun a => key a ≠ key x, t.2.filter _⟩
  ascendGreaterOrEqual t k := t.1.filter fun a => k ≤ key a
  descendLessOrEqual t k := (t.1.filter fun a => key a ≤ k).reverse
  min t := t.1.head?
  sorted_ascend t := t.2
  ascend_new := rfl
  mem_replaceOrInsert t x a := by
    simp only [mem_append, mem_cons, mem_filter, decide_eq_true_eq, ne_iff_lt_or_gt]
    tauto
  mem_delete t x a := by simp
  ascendGreaterOrEqual_eq _ _ := rfl
  descendLessOrEqual_eq _ _ := rfl
  min_eq _ := rfl

end BTree

end
