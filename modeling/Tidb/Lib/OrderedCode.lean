import Tidb.Lib.ByteNum

/-!
# Ordered codes

A code is ordered when the byte order of two code words, each followed by anything, is decided by the values first and
by what follows only where the values tie.  So no code word is a proper prefix of another one, and codes can be put
one behind the other.
-/

namespace ByteNum

open List

universe u v

variable {α : Type u} {β : Type v}

/-- `enc` is an ordered code for `cmp` on the values that satisfy `s`. -/
def OrderedCode (s : α → Prop) (enc : α → List UInt8) (cmp : α → α → Ordering) : Prop :=
  ∀ a b, s a → s b → ∀ x y : List UInt8, compare (enc a ++ x) (enc b ++ y) = (cmp a b).then (compare x y)

namespace OrderedCode

variable {s : α → Prop} {enc : α → List UInt8} {cmp : α → α → Ordering}

theorem ofLengthEq (hlen : ∀ a b, s a → s b → (enc a).length = (enc b).length)
    (hcmp : ∀ a b, s a → s b → compare (enc a) (enc b) = cmp a b) : OrderedCode s enc cmp := by
  intro a b ha hb x y
  rw [compare_append (hlen a b ha hb), hcmp a b ha hb]

theorem ofNumeral (w : Nat) (f : α → Nat) (hlt : ∀ a, s a → f a < 256 ^ w) :
    OrderedCode s (fun a => beBytes w (f a)) (fun a b => compare (f a) (f b)) :=
  ofLengthEq (fun _ _ _ _ => by simp) (fun a b ha hb => compare_beBytes (hlt a ha) (hlt b hb))

theorem congr {cmp' : α → α → Ordering} (h : OrderedCode s enc cmp)
    (hcmp : ∀ a b, s a → s b → cmp a b = cmp' a b) : OrderedCode s enc cmp' := by
  intro a b ha hb x y
  rw [h a b ha hb, hcmp a b ha hb]

theorem tag (t : UInt8) (h : OrderedCode s enc cmp) : OrderedCode s (fun a => t :: enc a) cmp := by
  intro a b ha hb x y
  rw [cons_append, cons_append, List.compare_cons_cons, Std.compare_self, Ordering.eq_then, h a b ha hb]

theorem compare_eq (h : OrderedCode s enc cmp) {a b : α} (ha : s a) (hb : s b) : compare (enc a) (enc b) = cmp a b := by
  have hh := h a b ha hb [] []
  rw [append_nil, append_nil] at hh
  rw [hh, Std.compare_self, Ordering.then_eq]

theorem compl (h : OrderedCode s enc cmp) :
    OrderedCode s (fun a => (enc a).map (~~~ ·)) (fun a b => (cmp a b).swap) := by
  -- as no code word is a proper prefix of another one, their complements differ where they do
  suffices hcodes : ∀ (a b : List UInt8) (o : Ordering), (∀ x y, compare (a ++ x) (b ++ y) = o.then (compare x y)) →
      ∀ x y, compare (a.map (~~~ ·) ++ x) (b.map (~~~ ·) ++ y) = o.swap.then (compare x y) from
    fun a b ha hb => hcodes _ _ _ (h a b ha hb)
  intro a
  induction a with
  | nil =>
    intro b o hab x y
    have ho := hab b []
    rw [nil_append, append_nil, Std.compare_self] at ho
    cases b with
    | nil =>
      cases o <;> cases ho
      rfl
    | cons d b => cases o <;> cases ho
  | cons c a ih =>
    intro b o hab x y
    cases b with
    | nil =>
      have ho := hab [] (c :: a)
      rw [nil_append, append_nil, Std.compare_self] at ho
      cases o <;> cases ho
    | cons d b =>
      have hhead : compare (~~~c) (~~~d) = (compare c d).swap := by
        have hsingle := @compare_map_compl [c] [d] rfl
        rw [← Std.OrientedOrd.eq_swap]
        simpa using hsingle
      simp only [cons_append, map_cons, List.compare_cons_cons, hhead] at hab ⊢
      cases hcd : compare c d with
      | eq =>
        simp only [hcd, Ordering.eq_then] at hab
        exact ih b o hab x y
      | lt | gt =>
        have ho := hab [] []
        rw [hcd] at ho
        cases o <;> cases ho
        rfl

end OrderedCode

theorem compare_append_left_of_lt {g b : List UInt8} (h : b.length < g.length) (x : List UInt8) :
    compare (g ++ x) b = compare g b := by
  induction g generalizing b with
  | nil => cases h
  | cons c cs ih =>
    cases b with
    | nil => rfl
    | cons d ds => rw [cons_append, List.compare_cons_cons, List.compare_cons_cons, ih (Nat.lt_of_succ_lt_succ h)]

theorem compare_append_right_of_lt {a g : List UInt8} (h : a.length < g.length) (x : List UInt8) :
    compare a (g ++ x) = compare a g := by
  rw [Std.OrientedOrd.eq_swap, compare_append_left_of_lt h, ← Std.OrientedOrd.eq_swap]

end ByteNum
