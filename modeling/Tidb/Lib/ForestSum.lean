import Tidb.Lib.Digraph
import Mathlib.Algebra.BigOperators.Group.Finset.Basic

/-!
# Sums along the parents of a forest

Finitely many nodes with a parent or none, and a weight that counts what is a node's own and the weights of its
children.  Adding to a node and its ancestors changes `own` there and nowhere else; another parent takes the node's
weight from the old one.
-/

universe u v

namespace Forest

open Relation Function

variable {ι : Type u} {M : Type v} [DecidableEq ι]

def Up (parent : ι → Option ι) (a b : ι) : Prop := parent a = some b

/-- Adds to a node and its ancestors; `none` if there are more of them than `fuel`. -/
def addUp [Add M] (parent : ι → Option ι) (x : M) : ℕ → Option ι → (ι → M) → Option (ι → M)
  | _, none, w => some w
  | 0, some _, _ => none
  | fuel + 1, some t, w => addUp parent x fuel (parent t) (update w t (w t + x))

section AddUp

variable [Add M] {parent : ι → Option ι} {x : M}

theorem exists_addUp {fuel : ℕ} {t : ι} (h : Digraph.DepthLT (Up parent) fuel t) (w : ι → M) :
    ∃ w', addUp parent x fuel (some t) w = some w' := by
  induction fuel generalizing t w with
  | zero => exact h.elim
  | succ fuel ih =>
    rw [addUp]
    cases hp : parent t with
    | none => exact ⟨_, by cases fuel <;> rfl⟩
    | some p => exact ih (h p hp) _

theorem addUp_of_not_above {fuel : ℕ} {t : ι} {w w' : ι → M} (h : addUp parent x fuel (some t) w = some w') {a : ι}
    (ha : ¬ ReflTransGen (Up parent) t a) : w' a = w a := by
  induction fuel generalizing t w with
  | zero => cases h
  | succ fuel ih =>
    rw [addUp] at h
    have hne : a ≠ t := by
      rintro rfl
      exact ha .refl
    cases hp : parent t with
    | none =>
      rw [hp] at h
      cases fuel <;> cases h <;> exact update_of_ne hne _ _
    | some p =>
      rw [hp] at h
      rw [ih h fun hpa => ha (.head hp hpa)]
      exact update_of_ne hne _ _

end AddUp

variable [Fintype ι]

omit [DecidableEq ι] in
theorem depthLT_card {parent : ι → Option ι} (h : Digraph.Acyclic (Up parent)) (t : ι) :
    Digraph.DepthLT (Up parent) (Fintype.card ι + 1) t :=
  h.depthLT_of_sources (Nat.lt_succ_self _) fun y _ _ _ => Finset.mem_univ y

variable [AddCommGroup M]

def childSum (parent : ι → Option ι) (w : ι → M) (a : ι) : M := ∑ c, if parent c = some a then w c else 0

def own (parent : ι → Option ι) (w : ι → M) (a : ι) : M := w a - childSum parent w a

theorem sum_eq_of_eq_off (t : ι) {f g : ι → M} (h : ∀ c, c ≠ t → f c = g c) : ∑ c, f c = ∑ c, g c + (f t - g t) := by
  rw [← Finset.add_sum_erase _ f (Finset.mem_univ t), ← Finset.add_sum_erase _ g (Finset.mem_univ t)]
  rw [Finset.sum_congr rfl fun c hc => h c (Finset.ne_of_mem_erase hc)]
  abel

theorem own_update (parent : ι → Option ι) (w : ι → M) (t : ι) (x : M) (a : ι) : own parent (update w t (w t +
    x)) a = own parent w a + (if a = t then x else 0) - (if parent t = some a then x else 0) := by
  unfold own childSum
  have hsum : (∑ c, if parent c = some a then update w t (w t + x) c else 0) =
      (∑ c, if parent c = some a then w c else 0) + (if parent t = some a then x else 0) := by
    rw [sum_eq_of_eq_off t fun c hc => by rw [update_of_ne hc], update_self]
    by_cases hp : parent t = some a
    · rw [if_pos hp, if_pos hp, if_pos hp]
      abel
    · rw [if_neg hp, if_neg hp, if_neg hp]
      abel
  rw [hsum]
  by_cases ha : a = t
  · subst ha
    rw [update_self, if_pos rfl]
    abel
  · rw [update_of_ne ha, if_neg ha]
    abel

theorem own_addUp {parent : ι → Option ι} {x : M} {fuel : ℕ} {t : ι} {w w' : ι → M}
    (h : addUp parent x fuel (some t) w = some w') (a : ι) :
    own parent w' a = own parent w a + if a = t then x else 0 := by
  induction fuel generalizing t w with
  | zero => cases h
  | succ fuel ih =>
    rw [addUp] at h
    cases hp : parent t with
    | none =>
      rw [hp] at h
      have hw : w' = update w t (w t + x) := by cases fuel <;> cases h <;> rfl
      rw [hw, own_update, hp]
      simp
    | some p =>
      rw [hp] at h
      rw [ih h, own_update, hp]
      -- what was taken from the parent is added there
      by_cases ha : a = p
      · subst ha
        simp
      · have hne : ¬ p = a := fun heq => ha heq.symm
        simp [ha, hne]

theorem own_setParent (parent : ι → Option ι) (w : ι → M) (t : ι) (p : Option ι) (a : ι) : own (update parent t
    p) w a = own parent w a + (if parent t = some a then w t else 0) - (if p = some a then w t else 0) := by
  unfold own childSum
  rw [sum_eq_of_eq_off t fun c hc => by rw [update_of_ne hc], update_self]
  abel

/-! ## The edges -/

variable {parent : ι → Option ι} {t : ι}

omit [Fintype ι] in
theorem acyclic_setParent_none (h : Digraph.Acyclic (Up parent)) : Digraph.Acyclic (Up (update parent t none)) := by
  apply h.mono
  intro a b hab
  unfold Up at hab ⊢
  by_cases ha : a = t
  · rw [ha, update_self] at hab
    cases hab
  · rwa [update_of_ne ha] at hab

omit [Fintype ι] in
theorem acyclic_setParent_some {p : ι} (h : Digraph.Acyclic (Up parent)) (hp : ¬ ReflTransGen (Up parent) p t) :
    Digraph.Acyclic (Up (update parent t (some p))) := by
  apply (h.addEdge hp).mono
  intro a b hab
  unfold Up at hab
  by_cases ha : a = t
  · rw [ha, update_self] at hab
    exact .inr ⟨ha, (Option.some.inj hab).symm⟩
  · rw [update_of_ne ha] at hab
    exact .inl hab

omit [Fintype ι] in
theorem above_of_setParent_none {a b : ι} (h : ReflTransGen (Up (update parent t none)) a b) :
    ReflTransGen (Up parent) a b := by
  refine ReflTransGen.mono (fun x y hxy => ?_) a b h
  unfold Up at hxy ⊢
  by_cases hx : x = t
  · rw [hx, update_self] at hxy
    cases hxy
  · rwa [update_of_ne hx] at hxy

omit [Fintype ι] [DecidableEq ι] in
theorem not_above_parent (h : Digraph.Acyclic (Up parent)) {p : ι} (hp : parent t = some p) :
    ¬ ReflTransGen (Up parent) p t :=
  fun habove => h t (.head' hp habove)

end Forest
