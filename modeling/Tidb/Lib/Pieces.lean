import Tidb.Lib.Outcome

/-!
# Pieces laid end to end

Pieces that are stored one after the other, with the place where each one ends.  A piece is what
stands between the end of the one in front of it and its own.
-/

namespace GoLang

open List

universe u v

variable {ε : Type u} {α : Type v}

def ends (start : Nat) : List (List α) → List Nat
  | [] => []
  | p :: ps => (start + p.length) :: ends (start + p.length) ps

@[simp] theorem length_ends (start : Nat) (ps : List (List α)) : (ends start ps).length = ps.length := by
  induction ps generalizing start with
  | nil => rfl
  | cons p ps ih => rw [ends, length_cons, length_cons, ih]

section

variable {ps : List (List α)} {i : Nat}

theorem getElem?_ends {start : Nat} (hi : i < ps.length) :
    (ends start ps)[i]? = some (start + (ps.take (i + 1)).flatten.length) := by
  induction ps generalizing i start with
  | nil => cases hi
  | cons p ps ih =>
    rw [ends]
    cases i with
    | zero => simp
    | succ i =>
      rw [length_cons] at hi
      rw [getElem?_cons_succ, ih (by omega), take_succ_cons, flatten_cons, length_append, Nat.add_assoc]

theorem flatten_split (hi : i < ps.length) :
    ps.flatten = (ps.take i).flatten ++ (ps[i] ++ (ps.drop (i + 1)).flatten) := by
  conv_lhs => rw [← take_append_drop i ps]
  rw [flatten_append, drop_eq_getElem_cons hi, flatten_cons]

theorem length_flatten_take_succ (hi : i < ps.length) :
    (ps.take (i + 1)).flatten.length = (ps.take i).flatten.length + ps[i].length := by
  rw [take_succ_eq_append_getElem hi, flatten_append, length_append, flatten_singleton]

theorem length_flatten_take_le (i : Nat) (ps : List (List α)) : (ps.take i).flatten.length ≤ ps.flatten.length := by
  conv_rhs => rw [← take_append_drop i ps, flatten_append, length_append]
  exact Nat.le_add_right _ _

theorem slice_flatten (hi : i < ps.length) (t : List α) : (slice (ps.flatten ++ t) (ps.take i).flatten.length (ps.take
    (i + 1)).flatten.length : Outcome ε (List α)) = .ok ps[i] := by
  have hle := length_flatten_take_le (i + 1) ps
  rw [slice_append _ hle]
  rw [length_flatten_take_succ hi] at hle ⊢
  rw [slice_of_le (by omega) hle, flatten_split hi, take_length_add_append, drop_left, take_left]

end

end GoLang
