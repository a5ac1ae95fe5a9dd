import Tidb.Lib.Outcome

/-!
# Binary search

The loop `for i < j { h := (i + j) / 2; … }` of `sort.Search`: it finds the first place of a predicate.
-/

namespace GoLang

def searchLoop (f : ℕ → Bool) : ℕ → ℕ → ℕ → ℕ
  | 0, i, _ => i
  | n + 1, i, j =>
    if i < j then
      if f ((i + j) / 2) then searchLoop f n i ((i + j) / 2) else searchLoop f n ((i + j) / 2 + 1) j
    else i

def search (n : ℕ) (f : ℕ → Bool) : ℕ := searchLoop f n 0 n

theorem first_of_split {f : ℕ → Bool} {k i : ℕ} (hi : i ≤ k) (hbelow : ∀ a < i, f a = false)
    (habove : ∀ a, i ≤ a → a < k → f a = true) : i ≤ k ∧ ∀ a < k, f a = true ↔ i ≤ a := by
  refine ⟨hi, fun a ha => ⟨fun hfa => ?_, fun hia => habove a hia ha⟩⟩
  by_contra hlt
  rw [hbelow a (Nat.lt_of_not_le hlt)] at hfa
  cases hfa

theorem searchLoop_spec {f : ℕ → Bool} {k : ℕ} (hmono : ∀ a b, a ≤ b → b < k → f a = true → f b = true)
    {n i j : ℕ} (hij : i ≤ j) (hj : j ≤ k) (hn : j - i ≤ n) (hbelow : ∀ a < i, f a = false)
    (habove : ∀ a, j ≤ a → a < k → f a = true) :
    searchLoop f n i j ≤ k ∧ ∀ a < k, f a = true ↔ searchLoop f n i j ≤ a := by
  induction n generalizing i j with
  | zero =>
    have hi : j = i := by omega
    subst hi
    exact first_of_split hj hbelow habove
  | succ n ih =>
    rw [searchLoop]
    split_ifs with hlt hmid
    · -- the place is not behind the middle
      apply ih (by omega) (by omega) (by omega) hbelow
      exact fun a ha hak => hmono _ a ha hak hmid
    · apply ih (by omega) hj (by omega) _ habove
      intro a ha
      by_contra hfa
      rw [Bool.not_eq_false] at hfa
      exact hmid (hmono a _ (by omega) (by omega) hfa)
    · have hi : j = i := by omega
      subst hi
      exact first_of_split hj hbelow habove

/-- Where `f` stays true once it is, `sort.Search` returns the first place where it is. -/
theorem search_spec {n : ℕ} {f : ℕ → Bool} (hmono : ∀ a b, a ≤ b → b < n → f a = true → f b = true) :
    search n f ≤ n ∧ ∀ a < n, f a = true ↔ search n f ≤ a :=
  searchLoop_spec hmono (Nat.zero_le n) (Nat.le_refl n) (by omega) (by omega) (by omega)

end GoLang
