import Mathlib.Tactic
import Mathlib.Data.List.Lex

/-!
# Cuts of an ordered list

A list in the order of its keys is cut by a predicate that holds from some key on.  Prefixes of keys that are
themselves lists give such predicates.
-/

universe u v

namespace SortedCut

open List

variable {β : Type u} {K : Type v} [LinearOrder K] {key : β → K} {l : List β} {U V : β → Bool}

/-- The elements are in the order of their keys, which are different. -/
def Ascending (key : β → K) (l : List β) : Prop := l.Pairwise fun a b => key a < key b

def UpClosed (key : β → K) (U : β → Bool) : Prop := ∀ a b, key a ≤ key b → U a = true → U b = true

theorem Ascending.filter (h : Ascending key l) (U : β → Bool) : Ascending key (l.filter U) := List.Pairwise.filter U h

theorem filter_append_filter (h : Ascending key l) (hU : UpClosed key U) :
    l.filter (fun a => !U a) ++ l.filter U = l := by
  induction l with
  | nil => rfl
  | cons a l ih =>
    have hl : Ascending key l := List.Pairwise.of_cons h
    cases ha : U a with
    | false => rw [filter_cons_of_pos (by rw [ha]; rfl), filter_cons_of_neg (by rw [ha]; exact Bool.false_ne_true),
        cons_append, ih hl]
    | true =>
      -- everything behind `a` is behind the cut
      have hall : ∀ b ∈ l, U b = true := fun b hb => hU a b (rel_of_pairwise_cons h hb).le ha
      have hnone : l.filter (fun a => !U a) = [] := by
        rw [filter_eq_nil_iff]
        intro b hb
        rw [hall b hb]
        exact Bool.false_ne_true
      rw [filter_cons_of_neg (by rw [ha]; exact Bool.false_ne_true), hnone, nil_append, filter_eq_self.mpr]
      intro b hb
      rcases mem_cons.mp hb with rfl | hb
      · exact ha
      · exact hall b hb

theorem filter_between (h : Ascending key l) (hU : UpClosed key U) (hVU : ∀ a ∈ l, V a = true → U a = true) :
    l.filter (fun a => !V a) = l.filter (fun a => !U a) ++ l.filter fun a => U a && !V a := by
  have hsplit := filter_append_filter (h.filter fun a => !V a) hU
  rw [filter_filter, filter_filter] at hsplit
  rw [← hsplit]
  refine congrArg₂ (· ++ ·) (filter_congr fun a ha => ?_) rfl
  cases hV : V a with
  | false => simp
  | true => rw [hVU a ha hV]; rfl

theorem take_eq_filter (h : Ascending key l) {n : ℕ} {a : β} (hlast : (l.take n).getLast? = some a) :
    l.take n = l.filter fun b => decide (key b ≤ key a) := by
  have hsplit := take_append_drop n l
  have hboth : (l.take n).Pairwise (fun a b => key a < key b) ∧ (l.drop n).Pairwise (fun a b => key a < key b) ∧
      ∀ x ∈ l.take n, ∀ y ∈ l.drop n, key x < key y := by
    rw [← pairwise_append, hsplit]
    exact h
  have ha : a ∈ l.take n := mem_of_getLast? hlast
  have htake : ∀ b ∈ l.take n, key b ≤ key a := by
    intro b hb
    obtain ⟨front, hfront⟩ : ∃ front, l.take n = front ++ [a] := getLast?_eq_some_iff.mp hlast
    rw [hfront] at hb
    have hpair := hboth.1
    rw [hfront, pairwise_append] at hpair
    rcases mem_append.mp hb with hb | hb
    · exact (hpair.2.2 b hb a (mem_singleton.mpr rfl)).le
    · rw [mem_singleton.mp hb]
  conv_rhs => rw [← hsplit]
  rw [filter_append, filter_eq_self.mpr fun b hb => decide_eq_true (htake b hb), filter_eq_nil_iff.mpr,
    append_nil]
  intro b hb hle
  exact absurd (of_decide_eq_true hle) (not_le.mpr (hboth.2.2 a ha b hb))

theorem filter_eq_of_sublist {t : List β} (h : l.Nodup) (hsub : t.Sublist l) (hkeep : ∀ a ∈ l, U a = true → a ∈ t) :
    t.filter U = l.filter U := by
  induction hsub with
  | slnil => rfl
  | @cons t l a hsub ih =>
    have hl := h.of_cons
    have hna : ¬ U a = true := fun ha => (nodup_cons.mp h).1 (hsub.subset (hkeep a mem_cons_self ha))
    rw [filter_cons_of_neg hna]
    exact ih hl fun b hb => hkeep b (mem_cons_of_mem a hb)
  | @cons_cons t l a hsub ih =>
    have hrest : ∀ b ∈ l, U b = true → b ∈ t := by
      intro b hb hU
      rcases mem_cons.mp (hkeep b (mem_cons_of_mem a hb) hU) with rfl | hmem
      · exact absurd hb (nodup_cons.mp h).1
      · exact hmem
    rw [filter_cons, filter_cons, ih h.of_cons hrest]

theorem Ascending.nodup (h : Ascending key l) : l.Nodup := by
  refine List.Pairwise.imp (fun {a b} hlt heq => ?_) h
  rw [heq] at hlt
  exact lt_irrefl _ hlt

/-! ## Keys that are lists -/

section Lex

variable {R : Type v} [LinearOrder R]

theorem cons_lt_cons {x y : R} {a b : List R} : x :: a < y :: b ↔ x < y ∨ x = y ∧ a < b := cons_lt_cons_iff

theorem cons_le_cons {x y : R} {a b : List R} : x :: a ≤ y :: b ↔ x < y ∨ x = y ∧ a ≤ b := by
  rw [← not_lt, ← not_lt, cons_lt_cons]
  constructor
  · intro h
    rcases lt_trichotomy x y with hxy | hxy | hxy
    · exact .inl hxy
    · exact .inr ⟨hxy, fun hba => h (.inr ⟨hxy.symm, hba⟩)⟩
    · exact absurd (.inl hxy) h
  · rintro (h | ⟨rfl, h⟩) (h' | ⟨h', h''⟩)
    · exact lt_asymm h h'
    · exact h.ne h'.symm
    · exact lt_irrefl _ h'
    · exact h h''

theorem nil_le (a : List R) : [] ≤ a := not_lt.mp fun h => by cases h

theorem take_le_take (n : ℕ) : ∀ {a b : List R}, a ≤ b → a.take n ≤ b.take n := by
  induction n with
  | zero =>
    intro a b _
    rw [take_zero, take_zero]
  | succ n ih =>
    intro a b hab
    cases a with
    | nil => exact nil_le _
    | cons x a =>
      cases b with
      | nil => exact absurd (lt_of_lt_of_le (List.Lex.nil : [] < x :: a) hab) (lt_irrefl _)
      | cons y b =>
        rw [take_succ_cons, take_succ_cons, cons_le_cons]
        exact (cons_le_cons.mp hab).imp id fun hab => ⟨hab.1, ih hab.2⟩

theorem concat_lt_concat {x y : R} : ∀ {a b : List R}, a.length = b.length →
    (a ++ [x] < b ++ [y] ↔ a < b ∨ a = b ∧ x < y)
  | [], [], _ => by
    rw [nil_append, nil_append, cons_lt_cons]
    simp
  | u :: a, w :: b, h => by
    have ih : a ++ [x] < b ++ [y] ↔ a < b ∨ a = b ∧ x < y := concat_lt_concat (Nat.succ.inj h)
    rw [cons_append, cons_append, cons_lt_cons, cons_lt_cons, cons.injEq]
    tauto

theorem concat_le_concat {x y : R} {a b : List R} (h : a.length = b.length) :
    a ++ [x] ≤ b ++ [y] ↔ a < b ∨ a = b ∧ x ≤ y := by
  rw [← not_lt, concat_lt_concat h.symm]
  constructor
  · intro hnot
    rcases lt_trichotomy a b with hlt | heq | hgt
    · exact .inl hlt
    · exact .inr ⟨heq, not_lt.mp fun hyx => hnot (.inr ⟨heq.symm, hyx⟩)⟩
    · exact absurd (.inl hgt) hnot
  · rintro (hlt | ⟨rfl, hxy⟩) (hgt | ⟨heq, hyx⟩)
    · exact lt_asymm hlt hgt
    · exact hlt.ne heq.symm
    · exact lt_irrefl _ hgt
    · exact not_lt.mpr hxy hyx

def after (p k : List R) : Bool := decide (p < k.take p.length)

theorem after_mono {p k k' : List R} (hk : k ≤ k') (h : after p k = true) : after p k' = true :=
  decide_eq_true (lt_of_lt_of_le (of_decide_eq_true h) (take_le_take _ hk))

def atLeast (p k : List R) : Bool := decide (p ≤ k.take p.length)

theorem atLeast_mono {p k k' : List R} (hk : k ≤ k') (h : atLeast p k = true) : atLeast p k' = true :=
  decide_eq_true ((of_decide_eq_true h).trans (take_le_take _ hk))

section Concat

variable {q k : List R} {x y : R} (hy : k[q.length]? = some y)

include hy

omit [LinearOrder R] in
theorem take_concat : k.take (q ++ [x]).length = k.take q.length ++ [y] ∧ q.length = (k.take q.length).length := by
  obtain ⟨hlt, hget⟩ := List.getElem?_eq_some_iff.mp hy
  rw [length_append, length_singleton, take_succ_eq_append_getElem hlt, hget, length_take, Nat.min_eq_left hlt.le]
  exact ⟨rfl, rfl⟩

theorem after_concat : after (q ++ [x]) k = true ↔ after q k = true ∨ k.take q.length = q ∧ x < y := by
  obtain ⟨htake, hlen⟩ := take_concat (x := x) hy
  unfold after
  rw [decide_eq_true_eq, decide_eq_true_eq, htake, concat_lt_concat hlen, eq_comm]

theorem atLeast_concat : atLeast (q ++ [x]) k = true ↔ after q k = true ∨ k.take q.length = q ∧ x ≤ y := by
  obtain ⟨htake, hlen⟩ := take_concat (x := x) hy
  unfold after atLeast
  rw [decide_eq_true_eq, decide_eq_true_eq, htake, concat_le_concat hlen, eq_comm]

end Concat

theorem after_nil (k : List R) : after [] k = false := decide_eq_false (by rw [length_nil]; exact lt_irrefl _)

theorem after_of_take_eq {q k : List R} (h : k.take q.length = q) : after q k = false :=
  decide_eq_false (by rw [h]; exact lt_irrefl q)

theorem after_iff {p k : List R} (h : k.length = p.length) : after p k = true ↔ p < k := by
  unfold after
  rw [decide_eq_true_eq, ← h, take_length]

end Lex

end SortedCut
