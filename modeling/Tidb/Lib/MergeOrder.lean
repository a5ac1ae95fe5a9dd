import Mathlib.Tactic

/-!
# Merging two ordered lists

Two lists in order are merged by a function that picks between their heads.  The result is in order exactly when the
function picks right wherever two elements meet: an element and the next one of the other list.
-/

universe u

namespace MergeOrder

open List

variable {α : Type u} {r : α → α → Prop} {pick : α → α → Bool} {xs ys : List α}

structure Orders (r : α → α → Prop) (xs ys : List α) : Prop where
  left : xs.Pairwise r
  right : ys.Pairwise r
  total : ∀ x ∈ xs, ∀ y ∈ ys, r x y ∨ r y x
  asymm : ∀ a ∈ xs ++ ys, ∀ b ∈ xs ++ ys, r a b → ¬ r b a
  trans : ∀ a ∈ xs ++ ys, ∀ b ∈ xs ++ ys, ∀ c ∈ xs ++ ys, r a b → r b c → r a c

def Meet (r : α → α → Prop) (xs ys : List α) (x y : α) : Prop :=
  (r x y ∧ ∀ z ∈ ys, ¬ (r x z ∧ r z y)) ∨ (r y x ∧ ∀ z ∈ xs, ¬ (r y z ∧ r z x))

def PicksRight (r : α → α → Prop) (pick : α → α → Bool) (xs ys : List α) : Prop :=
  ∀ x ∈ xs, ∀ y ∈ ys, Meet r xs ys x y → (pick x y = true ↔ r x y)

theorem Orders.swap (h : Orders r xs ys) : Orders r ys xs := by
  have hmem : ∀ {a}, a ∈ ys ++ xs → a ∈ xs ++ ys := by
    intro a ha
    rw [mem_append] at ha ⊢
    exact ha.symm
  refine ⟨h.right, h.left, fun y hy x hx => (h.total x hx y hy).symm,
    fun a ha b hb => h.asymm a (hmem ha) b (hmem hb), ?_⟩
  exact fun a ha b hb c hc => h.trans a (hmem ha) b (hmem hb) c (hmem hc)

theorem Orders.tail_left {x : α} (h : Orders r (x :: xs) ys) : Orders r xs ys := by
  have hmem : ∀ {a}, a ∈ xs ++ ys → a ∈ (x :: xs) ++ ys := mem_cons_of_mem x
  refine ⟨h.left.of_cons, h.right, fun a ha => h.total a (mem_cons_of_mem x ha),
    fun a ha b hb => h.asymm a (hmem ha) b (hmem hb), ?_⟩
  exact fun a ha b hb c hc => h.trans a (hmem ha) b (hmem hb) c (hmem hc)

theorem Orders.head_before {x y : α} (h : Orders r (x :: xs) (y :: ys)) (hxy : r x y) : ∀ z ∈ y :: ys, r x z := by
  intro z hz
  rcases mem_cons.mp hz with rfl | hz
  · exact hxy
  · have hyz : r y z := rel_of_pairwise_cons h.right hz
    exact h.trans x (by simp) y (by simp) z (by simp [hz]) hxy hyz

theorem Orders.heads_meet {x y : α} (h : Orders r (x :: xs) (y :: ys)) (hxy : r x y) :
    Meet r (x :: xs) (y :: ys) x y := by
  refine .inl ⟨hxy, fun z hz hbetween => ?_⟩
  have hzmem : z ∈ (x :: xs) ++ (y :: ys) := mem_append_right _ hz
  have hymem : y ∈ (x :: xs) ++ (y :: ys) := mem_append_right _ mem_cons_self
  rcases mem_cons.mp hz with rfl | hz
  · exact h.asymm z hzmem z hzmem hbetween.2 hbetween.2
  · exact h.asymm z hzmem y hymem hbetween.2 (rel_of_pairwise_cons h.right hz)

theorem picksRight_cons_left {x y : α} (h : Orders r (x :: xs) (y :: ys)) (hxy : r x y) :
    PicksRight r pick (x :: xs) (y :: ys) ↔ pick x y = true ∧ PicksRight r pick xs (y :: ys) := by
  have hbefore := h.head_before hxy
  have hasymm : ∀ b ∈ y :: ys, ¬ r b x := fun b hb =>
    h.asymm x mem_cons_self b (mem_append_right _ hb) (hbefore b hb)
  -- `x` is before everything in `y :: ys`, so it is between no two elements that meet
  have hmeet : ∀ a, ∀ b ∈ y :: ys, Meet r (x :: xs) (y :: ys) a b ↔ Meet r xs (y :: ys) a b := by
    intro a b hb
    refine or_congr Iff.rfl (and_congr Iff.rfl ?_)
    rw [forall_mem_cons]
    exact and_iff_right fun hbetween => hasymm b hb hbetween.1
  constructor
  · intro hp
    refine ⟨(hp x mem_cons_self y mem_cons_self (h.heads_meet hxy)).mpr hxy, ?_⟩
    intro a ha b hb hab
    exact hp a (mem_cons_of_mem x ha) b hb ((hmeet a b hb).mpr hab)
  · rintro ⟨hpick, hp⟩ a ha b hb hab
    rcases mem_cons.mp ha with rfl | ha
    · -- what `x` meets is the first element of the other list
      rcases hab with ⟨_, hnone⟩ | ⟨hba, _⟩
      · rcases mem_cons.mp hb with rfl | hb
        · exact iff_of_true hpick hxy
        · exact absurd ⟨hxy, rel_of_pairwise_cons h.right hb⟩ (hnone y mem_cons_self)
      · exact absurd hba (hasymm b hb)
    · exact hp a ha b hb ((hmeet a b hb).mp hab)

theorem picksRight_swap (h : Orders r xs ys) : PicksRight r pick xs ys ↔ PicksRight r (fun y x => !pick x y) ys xs := by
  have hflip : ∀ x ∈ xs, ∀ y ∈ ys, (pick x y = true ↔ r x y) ↔ ((!pick x y) = true ↔ r y x) := by
    intro x hx y hy
    have hmx := mem_append_left ys hx
    have hmy := mem_append_right xs hy
    rcases h.total x hx y hy with hr | hr
    · have hnot := h.asymm x hmx y hmy hr
      cases pick x y <;> simp [hr, hnot]
    · have hnot := h.asymm y hmy x hmx hr
      cases pick x y <;> simp [hr, hnot]
  constructor
  · exact fun hp y hy x hx hmeet => (hflip x hx y hy).mp (hp x hx y hy (Or.symm hmeet))
  · exact fun hp x hx y hy hmeet => (hflip x hx y hy).mpr (hp y hy x hx (Or.symm hmeet))

/-- A merge is in order exactly when the elements that meet are picked right. -/
theorem pairwise_merge_iff (xs : List α) : ∀ {ys : List α}, Orders r xs ys →
    ((xs.merge ys pick).Pairwise r ↔ PicksRight r pick xs ys) := by
  induction xs with
  | nil =>
    intro ys h
    rw [nil_merge]
    exact iff_of_true h.right fun x hx => by cases hx
  | cons x xs ihx =>
    intro ys
    induction ys with
    | nil =>
      intro h
      rw [merge_right]
      exact iff_of_true h.left fun _ _ y hy => by cases hy
    | cons y ys ihy =>
      intro h
      have hxmem : x ∈ (x :: xs) ++ (y :: ys) := mem_cons_self
      have hymem : y ∈ (x :: xs) ++ (y :: ys) := mem_append_right _ mem_cons_self
      rcases h.total x mem_cons_self y mem_cons_self with hxy | hyx
      · rw [picksRight_cons_left h hxy]
        cases hpick : pick x y with
        | true =>
          rw [cons_merge_cons_pos _ _ _ hpick, pairwise_cons, ihx h.tail_left, and_iff_right rfl]
          refine and_iff_right fun z hz => ?_
          rcases mem_merge.mp hz with hz | hz
          · exact rel_of_pairwise_cons h.left hz
          · exact h.head_before hxy z hz
        | false =>
          have hneg : ¬ pick x y = true := by rw [hpick]; exact Bool.false_ne_true
          rw [cons_merge_cons_neg _ _ _ hneg]
          refine iff_of_false (fun hp => ?_) fun hp => Bool.false_ne_true hp.1
          have hyx := rel_of_pairwise_cons hp (mem_merge_left _ mem_cons_self)
          exact h.asymm x hxmem y hymem hxy hyx
      · rw [picksRight_swap h, picksRight_cons_left h.swap hyx, ← picksRight_swap h.swap.tail_left.swap]
        cases hpick : pick x y with
        | true =>
          rw [cons_merge_cons_pos _ _ _ hpick]
          refine iff_of_false (fun hp => ?_) fun hp => Bool.false_ne_true hp.1
          have hxy := rel_of_pairwise_cons hp (mem_merge_right _ mem_cons_self)
          exact h.asymm y hymem x hxmem hyx hxy
        | false =>
          have hneg : ¬ pick x y = true := by rw [hpick]; exact Bool.false_ne_true
          rw [cons_merge_cons_neg _ _ _ hneg, pairwise_cons, ihy h.swap.tail_left.swap]
          rw [and_iff_right (show (!false) = true from rfl)]
          refine and_iff_right fun z hz => ?_
          rcases mem_merge.mp hz with hz | hz
          · exact h.swap.head_before hyx z hz
          · exact rel_of_pairwise_cons h.right hz

end MergeOrder
