import Mathlib.Tactic
import Mathlib.Logic.Function.Basic

/-!
# Ranges reserved from a shared counter

Each node owns a range that it has reserved by raising a shared counter, and hands the numbers out from the bottom.
`Inv` keeps the numbers apart: none is owned twice, and none that was handed out is still owned.
-/

namespace Reservation

open Function

universe u

/-- The numbers above `base` up to `limit`. -/
structure Range where
  base : ℤ
  limit : ℤ
  deriving DecidableEq

def Range.Has (r : Range) (x : ℤ) : Prop := r.base < x ∧ x ≤ r.limit

variable {ι : Type u}

def After (new old : ι × Range) : Prop :=
  ∀ x, new.2.Has x → ¬old.2.Has x ∧ (new.1 = old.1 → old.2.limit < x)

/-- `node` is what each node owns, `history` what was handed out, the newest first. -/
structure Inv (counter : ℤ) (node : ι → Range) (history : List (ι × Range)) : Prop where
  own : ∀ i x, (node i).Has x → x ≤ counter
  apart : ∀ i j x, (node i).Has x → (node j).Has x → i = j
  past_le : ∀ e ∈ history, e.2.limit ≤ counter
  past_own : ∀ e ∈ history, ∀ x, e.2.Has x → ∀ j, ¬(node j).Has x
  past_lt : ∀ e ∈ history, ∀ x, (node e.1).Has x → e.2.limit < x
  ordered : history.Pairwise After

namespace Inv

variable {counter : ℤ} {node : ι → Range} {history : List (ι × Range)}

theorem init (h : ∀ i, (node i).limit ≤ (node i).base) : Inv counter node ([] : List (ι × Range)) := by
  have hempty : ∀ i x, ¬(node i).Has x := by
    rintro i x ⟨h1, h2⟩
    have := h i
    omega
  refine ⟨fun i x hx => absurd hx (hempty i x), fun i j x hx => absurd hx (hempty i x), ?_, ?_, ?_, .nil⟩ <;> simp

variable [DecidableEq ι]

theorem shrink (h : Inv counter node history) (i : ι) {r : Range}
    (hr : ∀ x, r.Has x → (node i).Has x) : Inv counter (update node i r) history := by
  have hsub : ∀ j x, (update node i r j).Has x → (node j).Has x := by
    intro j x hx
    by_cases hj : j = i
    · subst hj
      rw [update_self] at hx
      exact hr x hx
    · rwa [update_of_ne hj] at hx
  refine ⟨fun j x hx => h.own j x (hsub j x hx),
    fun j k x hj hk => h.apart j k x (hsub j x hj) (hsub k x hk), h.past_le,
    fun e he x hx j hj => h.past_own e he x hx j (hsub j x hj),
    fun e he x hx => h.past_lt e he x (hsub e.1 x hx), h.ordered⟩

theorem give (h : Inv counter node history) (i : ι) {g r : Range} (hle : g.limit ≤ counter)
    (hg : ∀ x, g.Has x → (node i).Has x) (hr : ∀ x, r.Has x → (node i).Has x ∧ g.limit < x) :
    Inv counter (update node i r) ((i, g) :: history) := by
  have hs := h.shrink i fun x hx => (hr x hx).1
  have hself : ∀ x, (update node i r i).Has x → g.limit < x := by
    intro x hx
    rw [update_self] at hx
    exact (hr x hx).2
  refine ⟨hs.own, hs.apart, ?_, ?_, ?_, ?_⟩
  · simpa [hle] using h.past_le
  · intro e he x hx j hj
    rcases List.mem_cons.mp he with rfl | he
    · -- the range handed out was owned by `i` alone, and `i` keeps what is above it
      have hji : j = i := by
        by_contra hne
        rw [update_of_ne hne] at hj
        exact hne (h.apart j i x hj (hg x hx))
      subst hji
      have := hself x hj
      have := hx.2
      simp only at this
      omega
    · exact hs.past_own e he x hx j hj
  · intro e he x hx
    rcases List.mem_cons.mp he with rfl | he
    · exact hself x hx
    · exact hs.past_lt e he x hx
  · refine List.pairwise_cons.mpr ⟨fun e he x hx => ⟨fun hold => ?_, fun hi => ?_⟩, h.ordered⟩
    · exact h.past_own e he x hold i (hg x hx)
    · subst hi
      exact h.past_lt e he x (hg x hx)

/-- A node replaces its range by one above the counter, and raises the counter to its end. -/
theorem reserve (h : Inv counter node history) (i : ι) {r : Range} (hbase : counter ≤ r.base)
    (hlim : counter ≤ r.limit) : Inv r.limit (update node i r) history := by
  refine ⟨fun j x hx => ?_, fun j k x hj hk => ?_, fun e he => (h.past_le e he).trans hlim,
    fun e he x hx j hj => ?_, fun e he x hx => ?_, h.ordered⟩
  · by_cases hj : j = i
    · subst hj
      rw [update_self] at hx
      exact hx.2
    · rw [update_of_ne hj] at hx
      exact (h.own j x hx).trans hlim
  · by_cases hji : j = i <;> by_cases hki : k = i
    · rw [hji, hki]
    · subst hji
      rw [update_self] at hj
      rw [update_of_ne hki] at hk
      have := h.own k x hk
      have := hj.1
      omega
    · subst hki
      rw [update_self] at hk
      rw [update_of_ne hji] at hj
      have := h.own j x hj
      have := hk.1
      omega
    · rw [update_of_ne hji] at hj
      rw [update_of_ne hki] at hk
      exact h.apart j k x hj hk
  · by_cases hji : j = i
    · subst hji
      rw [update_self] at hj
      have := h.past_le e he
      have := hj.1
      have := hx.2
      omega
    · rw [update_of_ne hji] at hj
      exact h.past_own e he x hx j hj
  · by_cases hei : e.1 = i
    · rw [hei, update_self] at hx
      have := h.past_le e he
      have := hx.1
      omega
    · rw [update_of_ne hei] at hx
      exact h.past_lt e he x hx

end Inv

end Reservation
