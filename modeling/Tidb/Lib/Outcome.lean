import Mathlib.Tactic

/-!
# Outcomes of Go calls

A Go call returns a value, returns an error, or stops in a run-time fault (an index or a slice bound out of range, a
nil dereference).  Slices are lists whose capacity is their length, so a slice expression that reaches past the length
is a fault.
-/

namespace GoLang

open List

universe u v w

inductive Outcome (ε : Type u) (α : Type v) where
  | ok (a : α)
  | error (e : ε)
  | fault
  deriving DecidableEq, Repr

namespace Outcome

variable {ε : Type u} {α : Type v} {β : Type v}

protected def bind (x : Outcome ε α) (f : α → Outcome ε β) : Outcome ε β :=
  match x with
  | .ok a => f a
  | .error e => .error e
  | .fault => .fault

instance : Monad (Outcome ε) where
  pure := Outcome.ok
  bind := Outcome.bind

@[simp] theorem pure_eq (a : α) : (pure a : Outcome ε α) = .ok a := rfl

@[simp] theorem ok_bind (a : α) (f : α → Outcome ε β) : (Outcome.ok a >>= f) = f a := rfl

@[simp] theorem error_bind (e : ε) (f : α → Outcome ε β) : ((Outcome.error e : Outcome ε α) >>= f) = .error e := rfl

@[simp] theorem fault_bind (f : α → Outcome ε β) : ((Outcome.fault : Outcome ε α) >>= f) = .fault := rfl

theorem bind_assoc {γ : Type v} (x : Outcome ε α) (f : α → Outcome ε β) (g : β → Outcome ε γ) :
    ((x >>= f) >>= g) = x >>= fun a => f a >>= g := by
  cases x <;> rfl

theorem bind_eq_ok {x : Outcome ε α} {f : α → Outcome ε β} {b : β} :
    (x >>= f) = .ok b ↔ ∃ a, x = .ok a ∧ f a = .ok b := by
  cases x with
  | ok a => simp
  | error e => simp
  | fault => simp

theorem bind_eq_fault {x : Outcome ε α} {f : α → Outcome ε β} :
    (x >>= f) = .fault ↔ x = .fault ∨ ∃ a, x = .ok a ∧ f a = .fault := by
  cases x with
  | ok a => simp
  | error e => simp
  | fault => simp

/-- A check: the error where it fails, and a value with the property where it passes. -/
def Requires (e : ε) (good : Prop) (x : Outcome ε α) (post : α → Prop) : Prop :=
  ¬ good ∧ x = .error e ∨ good ∧ ∃ a, x = .ok a ∧ post a

namespace Requires

variable {e : ε} {good good' : Prop} {x : Outcome ε α} {f : α → Outcome ε β} {post post' : α → Prop}

theorem total (h : Requires e good x post) : x = .error e ∨ ∃ a, x = .ok a :=
  h.imp And.right fun h => h.2.imp fun _ => And.left

theorem imp (h : Requires e good x post) (hpost : ∀ a, post a → post' a) : Requires e good x post' :=
  h.imp_right (And.imp_right (Exists.imp fun a => And.imp_right (hpost a)))

theorem bind {post' : β → Prop} (h : Requires e good x post) (hf : ∀ a, post a → Requires e good' (f a) post') :
    Requires e (good ∧ good') (x >>= f) post' := by
  obtain ⟨hbad, rfl⟩ | ⟨hgood, a, rfl, ha⟩ := h
  · exact .inl ⟨fun h => hbad h.1, rfl⟩
  · exact Or.imp (And.imp_left (mt And.right)) (And.imp_left (And.intro hgood)) (hf a ha)

theorem bind_fault_iff (h : Requires e good x post) (hf : ∀ a, post a → (f a = .fault ↔ good')) :
    (x >>= f) = .fault ↔ good ∧ good' := by
  obtain ⟨hbad, rfl⟩ | ⟨hgood, a, rfl, ha⟩ := h
  · exact iff_of_false nofun fun h => hbad h.1
  · exact (hf a ha).trans (and_iff_right hgood).symm

end Requires

end Outcome

section Slices

variable {ε : Type u} {α : Type v}

def sliceFrom (b : List α) (i : Nat) : Outcome ε (List α) :=
  if i ≤ b.length then .ok (b.drop i) else .fault

def sliceTo (b : List α) (j : Nat) : Outcome ε (List α) :=
  if j ≤ b.length then .ok (b.take j) else .fault

def slice (b : List α) (i j : Nat) : Outcome ε (List α) :=
  if i ≤ j ∧ j ≤ b.length then .ok ((b.take j).drop i) else .fault

def index (b : List α) (i : Nat) : Outcome ε α :=
  match b[i]? with
  | some x => .ok x
  | none => .fault

def indexInt (b : List α) (i : Int) : Outcome ε α :=
  if i < 0 then .fault else index b i.toNat

def sliceFromInt (b : List α) (i : Int) : Outcome ε (List α) :=
  if i < 0 then .fault else sliceFrom b i.toNat

def sliceInt (b : List α) (i : Nat) (j : Int) : Outcome ε (List α) :=
  if j < 0 then .fault else slice b i j.toNat

variable {b : List α} {i : Nat}

theorem sliceFrom_of_le (h : i ≤ b.length) : (sliceFrom b i : Outcome ε (List α)) = .ok (b.drop i) := if_pos h

theorem sliceFrom_of_lt (h : b.length < i) : (sliceFrom b i : Outcome ε (List α)) = .fault := if_neg (by omega)

variable {j : Nat}

theorem sliceTo_of_le (h : j ≤ b.length) : (sliceTo b j : Outcome ε (List α)) = .ok (b.take j) := if_pos h

theorem sliceTo_of_lt (h : b.length < j) : (sliceTo b j : Outcome ε (List α)) = .fault := if_neg (by omega)

theorem slice_of_le (hij : i ≤ j) (hj : j ≤ b.length) :
    (slice b i j : Outcome ε (List α)) = .ok ((b.take j).drop i) := if_pos ⟨hij, hj⟩

theorem slice_append (i : Nat) (hj : j ≤ b.length) (t : List α) :
    (slice (b ++ t) i j : Outcome ε (List α)) = slice b i j := by
  have hlen : j ≤ (b ++ t).length := by rw [length_append]; omega
  simp only [slice, hj, hlen, take_append_of_le_length hj]

theorem index_of_lt (h : i < b.length) : (index b i : Outcome ε α) = .ok b[i] := by
  simp only [index, getElem?_eq_getElem h]

theorem index_ne_error {e : ε} : (index b i : Outcome ε α) ≠ .error e := by
  rw [index]
  split <;> simp

@[simp] theorem index_cons_zero (x : α) (b : List α) : (index (x :: b) 0 : Outcome ε α) = .ok x := rfl

@[simp] theorem index_cons_succ (x : α) (b : List α) (i : Nat) :
    (index (x :: b) (i + 1) : Outcome ε α) = index b i := rfl

@[simp] theorem sliceFrom_append (a b : List α) : (sliceFrom (a ++ b) a.length : Outcome ε (List α)) = .ok b := by
  rw [sliceFrom_of_le (by simp), drop_left]

@[simp] theorem sliceTo_append (a b : List α) : (sliceTo (a ++ b) a.length : Outcome ε (List α)) = .ok a := by
  rw [sliceTo_of_le (by simp), take_left]

theorem indexInt_natCast (b : List α) (i : Nat) : (indexInt b (i : Int) : Outcome ε α) = index b i := by
  unfold indexInt
  rw [if_neg (by omega), Int.toNat_natCast]

theorem indexInt_ne_error {i : Int} {e : ε} : (indexInt b i : Outcome ε α) ≠ .error e := by
  rw [indexInt]
  split
  · simp
  · exact index_ne_error

theorem sliceFromInt_natCast (b : List α) (i : Nat) :
    (sliceFromInt b (i : Int) : Outcome ε (List α)) = sliceFrom b i := by
  unfold sliceFromInt
  rw [if_neg (by omega), Int.toNat_natCast]

theorem sliceFromInt_eq_ok {r : List α} {i : Int} (h : (sliceFromInt b i : Outcome ε (List α)) = .ok r) :
    ∃ n : Nat, i = n ∧ n ≤ b.length ∧ r = b.drop n := by
  rw [sliceFromInt] at h
  split at h
  · cases h
  · obtain ⟨n, rfl⟩ := Int.eq_ofNat_of_zero_le (show 0 ≤ i by omega)
    rw [sliceFrom] at h
    split at h
    · rename_i hle
      cases h
      exact ⟨n, rfl, hle, rfl⟩
    · cases h

theorem sliceInt_natCast (b : List α) (i j : Nat) : (sliceInt b i (j : Int) : Outcome ε (List α)) = slice b i j := by
  unfold sliceInt
  rw [if_neg (by omega), Int.toNat_natCast]

end Slices

end GoLang
