import Mathlib.Tactic
import Mathlib.Data.List.Lex
import Mathlib.Data.Nat.Digits.Defs

/-!
# Words of several digits in lexicographic order

A word packs the digits of a number, the least first, and a list of words stands for the digits of all of them.  Two
lists are compared digit by digit, with words that are partly read on both sides.
-/

namespace PackedOrder

open List

def three {α : Type} [LinearOrder α] (a b : α) : ℤ := if a < b then -1 else if b < a then 1 else 0

section Three

variable {α : Type} [LinearOrder α] {a b : α} {x y : List α}

theorem three_self (a : α) : three a a = 0 := by rw [three, if_neg (lt_irrefl a), if_neg (lt_irrefl a)]

theorem three_of_lt (h : a < b) : three a b = -1 := if_pos h

theorem three_of_gt (h : b < a) : three a b = 1 := by rw [three, if_neg (lt_asymm h), if_pos h]

theorem three_nil_cons : three [] (a :: x) = -1 := three_of_lt List.Lex.nil

theorem three_cons_nil : three (a :: x) [] = 1 := three_of_gt List.Lex.nil

theorem three_cons_self : three (a :: x) (a :: y) = three x y := by
  rcases lt_trichotomy x y with h | h | h
  · rw [three_of_lt h, three_of_lt (List.Lex.cons h)]
  · rw [h, three_self, three_self]
  · rw [three_of_gt h, three_of_gt (List.Lex.cons h)]

theorem three_cons_of_lt (h : a < b) : three (a :: x) (b :: y) = -1 := three_of_lt (List.Lex.rel h)

theorem three_cons_of_gt (h : b < a) : three (a :: x) (b :: y) = 1 := three_of_gt (List.Lex.rel h)

theorem three_append_left (u : List α) : three (u ++ x) (u ++ y) = three x y := by
  induction u with
  | nil => rfl
  | cons a u ih => rw [cons_append, cons_append, three_cons_self, ih]

end Three

theorem three_flatMap_pair {α : Type} [LinearOrder α] {n : ℕ} (hn : 0 < n) (f : ℕ → α)
    (hf : ∀ a < n, ∀ b < n, a < b → f a < f b) {x y : List ℕ} (hx : ∀ a ∈ x, a < n * n) (hy : ∀ b ∈ y, b < n * n) :
    three (x.flatMap fun a => [f (a / n), f (a % n)]) (y.flatMap fun a => [f (a / n), f (a % n)]) = three x y := by
  induction x generalizing y with
  | nil =>
    cases y with
    | nil => rw [three_self, three_self]
    | cons b y => rw [three_nil_cons]; exact three_nil_cons
  | cons a x ih =>
    cases y with
    | nil => rw [three_cons_nil]; exact three_cons_nil
    | cons b y =>
      have ha : a / n < n := Nat.div_lt_of_lt_mul (hx a mem_cons_self)
      have hb : b / n < n := Nat.div_lt_of_lt_mul (hy b mem_cons_self)
      have hih := ih (fun a h => hx a (mem_cons_of_mem _ h)) (y := y) fun b h => hy b (mem_cons_of_mem _ h)
      have hda := Nat.div_add_mod a n
      have hdb := Nat.div_add_mod b n
      show three (f (a / n) :: f (a % n) :: _) (f (b / n) :: f (b % n) :: _) = _
      rcases lt_trichotomy (a / n) (b / n) with h | h | h
      · have hab : a < b := lt_of_not_ge fun hba => absurd (Nat.div_le_div_right (c := n) hba) (not_le.mpr h)
        rw [three_cons_of_lt (hf _ ha _ hb h), three_cons_of_lt hab]
      · rw [h, three_cons_self]
        rw [h] at hda
        rcases lt_trichotomy (a % n) (b % n) with h' | h' | h'
        · rw [three_cons_of_lt (hf _ (Nat.mod_lt _ hn) _ (Nat.mod_lt _ hn) h'), three_cons_of_lt (by omega)]
        · have hab : a = b := by omega
          rw [h', three_cons_self, hab, three_cons_self]
          exact hih
        · rw [three_cons_of_gt (hf _ (Nat.mod_lt _ hn) _ (Nat.mod_lt _ hn) h'), three_cons_of_gt (by omega)]
      · have hab : b < a := lt_of_not_ge fun hba => absurd (Nat.div_le_div_right (c := n) hba) (not_le.mpr h)
        rw [three_cons_of_gt (hf _ hb _ ha h), three_cons_of_gt hab]

/-! ## Packed digits -/

section Packed

variable {B : ℕ}

def digits (B : ℕ) (ws : List ℕ) : List ℕ := ws.flatMap (Nat.digits B)

theorem digits_cons_zero (ws : List ℕ) : digits B (0 :: ws) = digits B ws := by
  rw [digits, flatMap_cons, Nat.digits_zero, nil_append, digits]

theorem digits_append (us vs : List ℕ) : digits B (us ++ vs) = digits B us ++ digits B vs := flatMap_append

theorem digits_cons (hB : 1 < B) {w : ℕ} (hw : w ≠ 0) (ws : List ℕ) :
    digits B (w :: ws) = w % B :: digits B (w / B :: ws) := by
  rw [digits, flatMap_cons, Nat.digits_def' hB (Nat.pos_of_ne_zero hw)]
  rfl

theorem digits_cons_ne_nil (hB : 1 < B) {w : ℕ} (hw : w ≠ 0) (ws : List ℕ) : digits B (w :: ws) ≠ [] := by
  rw [digits_cons hB hw]
  exact cons_ne_nil _ _

theorem lt_of_mem_digits (hB : 1 < B) {ws : List ℕ} {d : ℕ} (h : d ∈ digits B ws) : d < B := by
  obtain ⟨w, _, hd⟩ := mem_flatMap.mp h
  exact Nat.digits_lt_base hB hd

/-- The second list ends where a word with a property begins in the first one. -/
def Meets (B : ℕ) (big : ℕ → Prop) (xs ys : List ℕ) : Prop :=
  ∃ us v vs, xs = us ++ v :: vs ∧ digits B us = digits B ys ∧ big v

variable {big : ℕ → Prop} {xs ys : List ℕ} {x y : ℕ}

theorem Meets.three_eq (hB : 1 < B) (hbig : ¬ big 0) (h : Meets B big xs ys) :
    three (digits B xs) (digits B ys) = 1 := by
  obtain ⟨us, v, vs, rfl, hdigits, hv⟩ := h
  have hv0 : v ≠ 0 := fun h0 => hbig (h0 ▸ hv)
  have hys := three_append_left (x := digits B (v :: vs)) (y := []) (digits B ys)
  rw [append_nil] at hys
  rw [digits_append, hdigits, hys, digits_cons hB hv0]
  exact three_cons_nil

theorem meets_of_digits_eq {ys' : List ℕ} (h : digits B ys = digits B ys') : Meets B big xs ys ↔
    Meets B big xs ys' := by
  unfold Meets
  rw [h]

theorem meets_cons_zero (hbig : ¬ big 0) : Meets B big (0 :: xs) ys ↔ Meets B big xs ys := by
  constructor
  · rintro ⟨us, v, vs, hxs, hdigits, hv⟩
    cases us with
    | nil =>
      obtain ⟨rfl, _⟩ := cons.inj hxs
      exact absurd hv hbig
    | cons u us =>
      obtain ⟨rfl, rfl⟩ := cons.inj hxs
      exact ⟨us, v, vs, rfl, (digits_cons_zero us).symm.trans hdigits, hv⟩
  · rintro ⟨us, v, vs, rfl, hdigits, hv⟩
    exact ⟨0 :: us, v, vs, rfl, (digits_cons_zero us).trans hdigits, hv⟩

theorem meets_nil (hB : 1 < B) (hx : x ≠ 0) (hys : digits B ys = []) : Meets B big (x :: xs) ys ↔ big x := by
  constructor
  · rintro ⟨us, v, vs, hxs, hdigits, hv⟩
    cases us with
    | nil =>
      obtain ⟨rfl, _⟩ := cons.inj hxs
      exact hv
    | cons u us =>
      obtain ⟨rfl, _⟩ := cons.inj hxs
      exact absurd (hdigits.trans hys) (digits_cons_ne_nil hB hx us)
  · intro hv
    exact ⟨[], x, xs, rfl, hys.symm, hv⟩

theorem not_meets_nil : ¬ Meets B big [] ys := by
  rintro ⟨us, v, vs, h, _⟩
  cases us <;> cases h

theorem not_meets_of_ne (hB : 1 < B) (hx : x ≠ 0) (hy : y ≠ 0) (hne : x % B ≠ y % B) :
    ¬ Meets B big (x :: xs) (y :: ys) := by
  rintro ⟨us, v, vs, hxs, hdigits, _⟩
  cases us with
  | nil => exact absurd hdigits.symm (digits_cons_ne_nil hB hy ys)
  | cons u us =>
    obtain ⟨rfl, rfl⟩ := cons.inj hxs
    rw [digits_cons hB hx, digits_cons hB hy] at hdigits
    exact hne (cons.inj hdigits).1

theorem meets_step (hB : 1 < B) (hx : x ≠ 0) (hy : y ≠ 0) (heq : x % B = y % B) (hrest : ¬ big (x / B)) :
    Meets B big (x :: xs) (y :: ys) ↔ Meets B big (x / B :: xs) (y / B :: ys) := by
  constructor
  · rintro ⟨us, v, vs, hxs, hdigits, hv⟩
    cases us with
    | nil => exact absurd hdigits.symm (digits_cons_ne_nil hB hy ys)
    | cons u us =>
      obtain ⟨rfl, rfl⟩ := cons.inj hxs
      rw [digits_cons hB hx, digits_cons hB hy] at hdigits
      exact ⟨x / B :: us, v, vs, rfl, (cons.inj hdigits).2, hv⟩
  · rintro ⟨us, v, vs, hxs, hdigits, hv⟩
    cases us with
    | nil =>
      obtain ⟨rfl, _⟩ := cons.inj hxs
      exact absurd hv hrest
    | cons u us =>
      obtain ⟨rfl, rfl⟩ := cons.inj hxs
      refine ⟨x :: us, v, vs, rfl, ?_, hv⟩
      rw [digits_cons hB hx, digits_cons hB hy, heq, hdigits]

theorem meets_cons_self (hB : 1 < B) (hx : x ≠ 0) : Meets B big (x :: xs) (x :: ys) ↔ Meets B big xs ys := by
  constructor
  · rintro ⟨us, v, vs, hxs, hdigits, hv⟩
    cases us with
    | nil => exact absurd hdigits.symm (digits_cons_ne_nil hB hx ys)
    | cons u us =>
      obtain ⟨rfl, rfl⟩ := cons.inj hxs
      exact ⟨us, v, vs, rfl, append_cancel_left hdigits, hv⟩
  · rintro ⟨us, v, vs, rfl, hdigits, hv⟩
    refine ⟨x :: us, v, vs, rfl, ?_, hv⟩
    show Nat.digits B x ++ digits B us = Nat.digits B x ++ digits B ys
    rw [hdigits]

open Classical in
/-- A comparison with the wrong sign where one list ends at the beginning of such a word of the other one. -/
noncomputable def verdict (B : ℕ) (bigX bigY : ℕ → Prop) (xs ys : List ℕ) : ℤ :=
  if Meets B bigX xs ys then -1
  else if Meets B bigY ys xs then 1
  else three (digits B xs) (digits B ys)

variable {bigX bigY : ℕ → Prop}

theorem verdict_congr {xs' ys' : List ℕ} (hx : Meets B bigX xs ys ↔ Meets B bigX xs' ys')
    (hy : Meets B bigY ys xs ↔ Meets B bigY ys' xs')
    (hd : three (digits B xs) (digits B ys) = three (digits B xs') (digits B ys')) :
    verdict B bigX bigY xs ys = verdict B bigX bigY xs' ys' := by
  classical
  unfold verdict
  rw [if_congr hx rfl rfl, if_congr hy rfl rfl, hd]

theorem three_swap {α : Type} [LinearOrder α] (a b : α) : three b a = -three a b := by
  rcases lt_trichotomy a b with h | rfl | h
  · rw [three_of_lt h, three_of_gt h]; rfl
  · rw [three_self]; rfl
  · rw [three_of_lt h, three_of_gt h]

theorem verdict_step (hB : 1 < B) (hx : x ≠ 0) (hy : y ≠ 0) (heq : x % B = y % B) (hX : ¬ bigX (x / B))
    (hY : ¬ bigY (y / B)) :
    verdict B bigX bigY (x :: xs) (y :: ys) = verdict B bigX bigY (x / B :: xs) (y / B :: ys) := by
  apply verdict_congr (meets_step hB hx hy heq hX) (meets_step hB hy hx heq.symm hY)
  rw [digits_cons hB hx, digits_cons hB hy, heq, three_cons_self]

theorem verdict_cons_self (hB : 1 < B) (hx : x ≠ 0) :
    verdict B bigX bigY (x :: xs) (x :: ys) = verdict B bigX bigY xs ys :=
  verdict_congr (meets_cons_self hB hx) (meets_cons_self hB hx) (three_append_left _)

theorem verdict_cons_zero_left (hX : ¬ bigX 0) : verdict B bigX bigY (0 :: xs) ys = verdict B bigX bigY xs ys :=
  verdict_congr (meets_cons_zero hX) (meets_of_digits_eq (digits_cons_zero xs)) (by rw [digits_cons_zero])

theorem verdict_cons_zero_right (hY : ¬ bigY 0) : verdict B bigX bigY xs (0 :: ys) = verdict B bigX bigY xs ys :=
  verdict_congr (meets_of_digits_eq (digits_cons_zero ys)) (meets_cons_zero hY) (by rw [digits_cons_zero])

theorem verdict_of_ne (hB : 1 < B) (hx : x ≠ 0) (hy : y ≠ 0) (hne : x % B ≠ y % B) :
    verdict B bigX bigY (x :: xs) (y :: ys) = if x % B < y % B then -1 else 1 := by
  rw [verdict, if_neg (not_meets_of_ne hB hx hy hne), if_neg (not_meets_of_ne hB hy hx hne.symm), digits_cons hB hx,
    digits_cons hB hy]
  by_cases hlt : x % B < y % B
  · rw [if_pos hlt, three_cons_of_lt hlt]
  · rw [if_neg hlt, three_cons_of_gt (lt_of_le_of_ne (not_lt.mp hlt) hne.symm)]

theorem verdict_nil : verdict B bigX bigY [] [] = 0 := by
  rw [verdict, if_neg not_meets_nil, if_neg not_meets_nil, three_self]

open Classical in
theorem verdict_cons_nil (hB : 1 < B) (hx : x ≠ 0) : verdict B bigX bigY (x :: xs) [] = if bigX x then -1 else 1 := by
  rw [verdict, if_neg not_meets_nil, if_congr (meets_nil hB hx rfl) rfl rfl, digits_cons hB hx]
  exact congrArg (ite _ _) three_cons_nil

open Classical in
theorem verdict_nil_cons (hB : 1 < B) (hy : y ≠ 0) : verdict B bigX bigY [] (y :: ys) = if bigY y then 1 else -1 := by
  rw [verdict, if_neg not_meets_nil, if_congr (meets_nil hB hy rfl) rfl rfl, digits_cons hB hy]
  exact congrArg (ite _ _) three_nil_cons

/-- The comparison is that of the digits unless there is such an end. -/
theorem verdict_eq_three_iff (hB : 1 < B) (hX : ¬ bigX 0) (hY : ¬ bigY 0) :
    verdict B bigX bigY xs ys = three (digits B xs) (digits B ys) ↔ ¬ Meets B bigX xs ys ∧ ¬ Meets B bigY ys xs := by
  unfold verdict
  by_cases hx : Meets B bigX xs ys
  · rw [if_pos hx, hx.three_eq hB hX]
    exact ⟨fun h => absurd h (by decide), fun h => absurd hx h.1⟩
  · rw [if_neg hx]
    by_cases hy : Meets B bigY ys xs
    · rw [if_pos hy, three_swap, hy.three_eq hB hY]
      exact ⟨fun h => absurd h (by decide), fun h => absurd hy h.2⟩
    · rw [if_neg hy]
      exact ⟨fun _ => ⟨hx, hy⟩, fun _ => rfl⟩

end Packed

end PackedOrder
