import Mathlib.Tactic
import Mathlib.Logic.Relation

/-!
# Acyclic relations

A directed graph is the relation of its edges.  `Acyclic` is kept by taking edges away, and by adding an
edge whose end does not lead back to its beginning.  A graph of finitely many edge sources that has no
cycle bounds the length of every path, which is what a recursive search along its edges rests on.
-/

universe u

namespace Digraph

open Relation

variable {α : Type u}

def Acyclic (r : α → α → Prop) : Prop := ∀ x, ¬ TransGen r x x

def DepthLT (r : α → α → Prop) : ℕ → α → Prop
  | 0, _ => False
  | n + 1, x => ∀ y, r x y → DepthLT r n y

def addEdge (r : α → α → Prop) (u v : α) (x y : α) : Prop := r x y ∨ x = u ∧ y = v

variable {r r' : α → α → Prop}

theorem Acyclic.mono (h : Acyclic r) (hle : ∀ x y, r' x y → r x y) : Acyclic r' := by
  intro x hx
  exact h x (TransGen.mono hle x x hx)

theorem DepthLT.mono (hle : ∀ x y, r' x y → r x y) {n : ℕ} {x : α} (h : DepthLT r n x) : DepthLT r' n x := by
  induction n generalizing x with
  | zero => exact h
  | succ n ih => exact fun y hy => ih (h y (hle x y hy))

/-- A path of the larger graph runs in `r`, or it takes the new edge and ends behind its last use. -/
theorem transGen_addEdge {u v x y : α} (h : TransGen (addEdge r u v) x y) :
    TransGen r x y ∨ ReflTransGen (addEdge r u v) x u ∧ ReflTransGen r v y := by
  induction h with
  | single hxy =>
    obtain hxy | ⟨rfl, rfl⟩ := hxy
    · exact .inl (.single hxy)
    · exact .inr ⟨.refl, .refl⟩
  | tail hxy hyz ih =>
    obtain hyz | ⟨rfl, rfl⟩ := hyz
    · obtain h | ⟨hu, hv⟩ := ih
      · exact .inl (h.tail hyz)
      · exact .inr ⟨hu, hv.tail hyz⟩
    · exact .inr ⟨hxy.to_reflTransGen, .refl⟩

theorem reflTransGen_addEdge {u v x : α} (h : ReflTransGen (addEdge r u v) x u) : ReflTransGen r x u := by
  induction h using ReflTransGen.head_induction_on with
  | refl => exact .refl
  | head hxy _ ih =>
    obtain hxy | ⟨rfl, -⟩ := hxy
    · exact .head hxy ih
    · exact .refl

/-- An edge closes a cycle only where its end already leads to its beginning. -/
theorem Acyclic.addEdge {u v : α} (h : Acyclic r) (huv : ¬ ReflTransGen r v u) : Acyclic (addEdge r u v) := by
  intro x hx
  obtain hx | ⟨hxu, hvx⟩ := transGen_addEdge hx
  · exact h x hx
  · exact huv (hvx.trans (reflTransGen_addEdge hxu))

/-- The edges on a path have different sources. -/
theorem Acyclic.depthLT_of_sources (h : Acyclic r) {n : ℕ} {S : Finset α} (hn : S.card < n) {x : α}
    (hS : ∀ y z, ReflTransGen r x y → r y z → y ∈ S) : DepthLT r n x := by
  classical
  induction n generalizing S x with
  | zero => exact absurd hn (Nat.not_lt_zero _)
  | succ n ih =>
    intro y hy
    have hx : x ∈ S := hS x y .refl hy
    have hcard : (S.erase x).card < n := by
      have hpos := Finset.card_pos.mpr ⟨x, hx⟩
      rw [Finset.card_erase_of_mem hx]
      omega
    apply ih hcard
    intro w z hw hwz
    apply Finset.mem_erase.mpr
    refine ⟨?_, hS w z (.head hy hw) hwz⟩
    -- a path back to `x` would close a cycle
    rintro rfl
    exact h w (.head' hy hw)

end Digraph
