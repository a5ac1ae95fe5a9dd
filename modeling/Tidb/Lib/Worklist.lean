import Mathlib.Tactic
import Mathlib.Logic.Relation
import Mathlib.Data.Finset.Card

/-!
# Search with a worklist

Nodes are taken from a queue; one whose key has not been seen is kept, and its successors go to the end of the queue.
The successors may come in another order each time.  The search ends where finitely many keys can be seen, and
what it keeps is closed under successors up to their keys.
-/

universe u v

namespace Worklist

open Relation List

variable {α : Type u} {κ : Type v} [DecidableEq κ]

/-- The search from a queue; `succ n x` are the successors of `x`, when `x` is the `n`-th node kept. -/
def search (key : α → κ) (succ : ℕ → α → List α) : ℕ → List α → List κ → List α → Option (List α)
  | _, [], _, kept => some kept
  | 0, _ :: _, _, _ => none
  | fuel + 1, x :: queue, seen, kept =>
    if key x ∈ seen then search key succ fuel queue seen kept
    else
      let seen := key x :: seen
      search key succ fuel (queue ++ (succ kept.length x).filter fun y => key y ∉ seen) seen (kept ++ [x])

def Enumerates (succ : ℕ → α → List α) (next : α → α → Prop) : Prop := ∀ n x y, y ∈ succ n x ↔ next x y

variable {key : α → κ} {succ : ℕ → α → List α} {next : α → α → Prop} {seeds : List α}

/-! ## Termination -/

structure Bounded (key : α → κ) (succ : ℕ → α → List α) (P : α → Prop) (keys : Finset κ) (width : ℕ) : Prop where
  key_mem : ∀ x, P x → key x ∈ keys
  closed : ∀ n x y, P x → y ∈ succ n x → P y
  width : ∀ n x, P x → (succ n x).length ≤ width

theorem exists_search {P : α → Prop} {keys : Finset κ} {width : ℕ} (hb : Bounded key succ P keys width) (fuel : ℕ) : ∀
    (queue : List α) (seen : List κ) (kept : List α), (∀ x ∈ queue, P x) → (keys \ seen.toFinset).card * (width + 1) +
    queue.length ≤ fuel → ∃ out, ∀ m, fuel ≤ m → search key succ m queue seen kept = some out := by
  induction fuel with
  | zero =>
    intro queue seen kept _ hfuel
    obtain rfl : queue = [] := eq_nil_of_length_eq_zero (by omega)
    refine ⟨kept, fun m _ => ?_⟩
    rw [search]
  | succ fuel ih =>
    intro queue seen kept hP hfuel
    cases queue with
    | nil =>
      refine ⟨kept, fun m _ => ?_⟩
      rw [search]
    | cons x queue =>
      have hx : P x := hP x mem_cons_self
      have hqueue : ∀ y ∈ queue, P y := fun y hy => hP y (mem_cons_of_mem x hy)
      rw [length_cons] at hfuel
      by_cases hseen : key x ∈ seen
      · obtain ⟨out, hout⟩ := ih queue seen kept hqueue (by omega)
        refine ⟨out, fun m hm => ?_⟩
        obtain ⟨m, rfl⟩ : ∃ m', m = m' + 1 := ⟨m - 1, by omega⟩
        rw [search, if_pos hseen]
        exact hout m (by omega)
      · -- a key less can be seen, which pays for the new nodes of the queue
        let new := (succ kept.length x).filter fun y => key y ∉ key x :: seen
        have hnew : ∀ y ∈ queue ++ new, P y := by
          intro y hy
          rcases mem_append.mp hy with hy | hy
          · exact hqueue y hy
          · exact hb.closed _ x y hx (mem_of_mem_filter hy)
        have hcard : (keys \ (key x :: seen).toFinset).card + 1 = (keys \ seen.toFinset).card := by
          rw [toFinset_cons, Finset.sdiff_insert]
          apply Finset.card_erase_add_one
          rw [Finset.mem_sdiff, mem_toFinset]
          exact ⟨hb.key_mem x hx, hseen⟩
        have hlen : new.length ≤ width := (length_filter_le _ _).trans (hb.width _ x hx)
        have hmul : (keys \ seen.toFinset).card * (width + 1) =
            (keys \ (key x :: seen).toFinset).card * (width + 1) + (width + 1) := by
          rw [← hcard, Nat.add_one_mul]
        have hle : (keys \ (key x :: seen).toFinset).card * (width + 1) + (queue ++ new).length ≤ fuel := by
          rw [length_append]
          omega
        obtain ⟨out, hout⟩ := ih (queue ++ new) (key x :: seen) (kept ++ [x]) hnew hle
        refine ⟨out, fun m hm => ?_⟩
        obtain ⟨m, rfl⟩ : ∃ m', m = m' + 1 := ⟨m - 1, by omega⟩
        rw [search, if_neg hseen]
        exact hout m (by omega)

/-! ## What is kept -/

structure Inv (key : α → κ) (next : α → α → Prop) (seeds queue : List α) (seen : List κ) (kept : List α) : Prop where
  seen_iff : ∀ k, k ∈ seen ↔ k ∈ kept.map key
  nodup : (kept.map key).Nodup
  reached : ∀ x, x ∈ kept ∨ x ∈ queue → ∃ a ∈ seeds, ReflTransGen next a x
  seed : ∀ x ∈ seeds, key x ∈ seen ∨ x ∈ queue
  closed : ∀ x ∈ kept, ∀ y, next x y → key y ∈ seen ∨ y ∈ queue

omit [DecidableEq κ] in
theorem Inv.init : Inv key next seeds seeds [] [] := by
  refine ⟨fun k => Iff.rfl, nodup_nil, ?_, fun x hx => .inr hx, fun x hx => by cases hx⟩
  rintro x (hx | hx)
  · cases hx
  · exact ⟨x, hx, .refl⟩

omit [DecidableEq κ] in
theorem Inv.skip {x : α} {queue kept : List α} {seen : List κ} (h : Inv key next seeds (x :: queue) seen kept)
    (hx : key x ∈ seen) : Inv key next seeds queue seen kept := by
  have hstays : ∀ y, key y ∈ seen ∨ y ∈ x :: queue → key y ∈ seen ∨ y ∈ queue := by
    rintro y (hy | hy)
    · exact .inl hy
    · rcases mem_cons.mp hy with rfl | hy
      · exact .inl hx
      · exact .inr hy
  refine ⟨h.seen_iff, h.nodup, ?_, fun y hy => hstays y (h.seed y hy), fun y hy z hz => hstays z (h.closed y hy z hz)⟩
  intro y hy
  exact h.reached y (hy.imp id (mem_cons_of_mem x))

theorem Inv.keep {x : α} {queue kept : List α} {seen : List κ} (hsucc : Enumerates succ next)
    (h : Inv key next seeds (x :: queue) seen kept) (hx : key x ∉ seen) (n : ℕ) :
    Inv key next seeds (queue ++ (succ n x).filter fun y => key y ∉ key x :: seen) (key x :: seen) (kept ++ [x]) := by
  obtain ⟨a, ha, hax⟩ := h.reached x (.inr mem_cons_self)
  have hstays : ∀ y, key y ∈ seen ∨ y ∈ x :: queue → key y ∈ key x :: seen ∨
      y ∈ queue ++ (succ n x).filter fun y => key y ∉ key x :: seen := by
    rintro y (hy | hy)
    · exact .inl (mem_cons_of_mem _ hy)
    · rcases mem_cons.mp hy with rfl | hy
      · exact .inl mem_cons_self
      · exact .inr (mem_append_left _ hy)
  constructor
  · intro k
    rw [map_append, mem_cons, h.seen_iff, or_comm]
    simp
  · rw [map_append, nodup_append]
    refine ⟨h.nodup, nodup_singleton _, ?_⟩
    rintro k hk k' hk' rfl
    rw [map_singleton, mem_singleton] at hk'
    subst hk'
    exact hx ((h.seen_iff _).mpr hk)
  · intro y hy
    rw [mem_append, mem_append, mem_singleton] at hy
    rcases hy with (hy | rfl) | hy | hy
    · exact h.reached y (.inl hy)
    · exact ⟨a, ha, hax⟩
    · exact h.reached y (.inr (mem_cons_of_mem x hy))
    · exact ⟨a, ha, hax.tail ((hsucc n x y).mp (mem_of_mem_filter hy))⟩
  · exact fun y hy => hstays y (h.seed y hy)
  · intro y hy z hz
    rcases mem_append.mp hy with hy | hy
    · exact hstays z (h.closed y hy z hz)
    · rw [mem_singleton] at hy
      subst hy
      by_cases hseen : key z ∈ key y :: seen
      · exact .inl hseen
      · refine .inr (mem_append_right _ (mem_filter.mpr ⟨(hsucc n y z).mpr hz, ?_⟩))
        exact decide_eq_true hseen

theorem inv_of_search (hsucc : Enumerates succ next) {out : List α} (fuel : ℕ) :
    ∀ {queue : List α} {seen : List κ} {kept : List α}, Inv key next seeds queue seen kept →
      search key succ fuel queue seen kept = some out → ∃ seen, Inv key next seeds [] seen out := by
  induction fuel with
  | zero =>
    intro queue seen kept h hout
    cases queue with
    | nil =>
      cases hout
      exact ⟨seen, h⟩
    | cons x queue => cases hout
  | succ fuel ih =>
    intro queue seen kept h hout
    cases queue with
    | nil =>
      cases hout
      exact ⟨seen, h⟩
    | cons x queue =>
      rw [search] at hout
      by_cases hx : key x ∈ seen
      · rw [if_pos hx] at hout
        exact ih (h.skip hx) hout
      · rw [if_neg hx] at hout
        exact ih (h.keep hsucc hx _) hout

/-- Where keys tell the nodes apart, what is reached from the seeds is kept, each once. -/
theorem mem_search_iff (hsucc : Enumerates succ next) {fuel : ℕ} {out : List α}
    (hinj : Set.InjOn key {x | ∃ a ∈ seeds, ReflTransGen next a x})
    (hout : search key succ fuel seeds [] [] = some out) :
    out.Nodup ∧ ∀ x, x ∈ out ↔ ∃ a ∈ seeds, ReflTransGen next a x := by
  obtain ⟨seen, h⟩ := inv_of_search hsucc fuel Inv.init hout
  have hkept : ∀ x, (∃ a ∈ seeds, ReflTransGen next a x) → key x ∈ seen → x ∈ out := by
    intro x hx hseen
    obtain ⟨y, hy, hyx⟩ := mem_map.mp ((h.seen_iff _).mp hseen)
    have heq : y = x := hinj (h.reached y (.inl hy)) hx hyx
    rw [← heq]
    exact hy
  refine ⟨h.nodup.of_map key, fun x => ⟨fun hx => h.reached x (.inl hx), ?_⟩⟩
  rintro ⟨a, ha, hax⟩
  induction hax with
  | refl =>
    rcases h.seed a ha with hseen | hmem
    · exact hkept a ⟨a, ha, .refl⟩ hseen
    · cases hmem
  | tail hab hbc ih =>
    rcases h.closed _ ih _ hbc with hseen | hmem
    · exact hkept _ ⟨a, ha, hab.tail hbc⟩ hseen
    · cases hmem

end Worklist
