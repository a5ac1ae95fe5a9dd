import Mathlib.Tactic

/-!
# UTF-8

The characters of a string of bytes.  A byte that begins no character is one by itself and stands for `U+FFFD`.
-/

namespace Utf8

open List

def runeError : ℕ := 0xFFFD

def leading (b : UInt8) : Option (ℕ × UInt8 × UInt8) :=
  if b < 0xC2 then none
  else if b < 0xE0 then some (2, 0x80, 0xBF)
  else if b = 0xE0 then some (3, 0xA0, 0xBF)
  else if b = 0xED then some (3, 0x80, 0x9F)
  else if b < 0xF0 then some (3, 0x80, 0xBF)
  else if b = 0xF0 then some (4, 0x90, 0xBF)
  else if b < 0xF4 then some (4, 0x80, 0xBF)
  else if b = 0xF4 then some (4, 0x80, 0x8F)
  else none

def isContinuation (b : UInt8) : Bool := 0x80 ≤ b && b ≤ 0xBF

def low (n : ℕ) (b : UInt8) : ℕ := b.toNat % 2 ^ n

def decodeMulti (b₀ : UInt8) (s : List UInt8) : Option (ℕ × ℕ) :=
  match leading b₀, s with
  | some (2, lo, hi), b₁ :: _ => if lo ≤ b₁ ∧ b₁ ≤ hi then some (low 5 b₀ * 2 ^ 6 + low 6 b₁, 2) else none
  | some (3, lo, hi), b₁ :: b₂ :: _ =>
    if (lo ≤ b₁ ∧ b₁ ≤ hi) ∧ isContinuation b₂ then some (low 4 b₀ * 2 ^ 12 + low 6 b₁ * 2 ^ 6 + low 6 b₂, 3) else none
  | some (4, lo, hi), b₁ :: b₂ :: b₃ :: _ =>
    if (lo ≤ b₁ ∧ b₁ ≤ hi) ∧ isContinuation b₂ ∧ isContinuation b₃ then
      some (low 3 b₀ * 2 ^ 18 + low 6 b₁ * 2 ^ 12 + low 6 b₂ * 2 ^ 6 + low 6 b₃, 4)
    else none
  | _, _ => none

def decodeRune : List UInt8 → ℕ × ℕ
  | [] => (runeError, 0)
  | b₀ :: s => if b₀ < 0x80 then (b₀.toNat, 1) else (decodeMulti b₀ s).getD (runeError, 1)

variable {b : UInt8} {n : ℕ}

theorem le_of_leading {lo hi : UInt8} (h : leading b = some (n, lo, hi)) : 0x80 ≤ lo := by
  unfold leading at h
  split_ifs at h <;> cases h <;> decide

theorem le_of_isContinuation (h : isContinuation b = true) : 0x80 ≤ b := by
  rw [isContinuation, Bool.and_eq_true, decide_eq_true_eq] at h
  exact h.1

variable {s : List UInt8} {r : ℕ}

theorem decodeMulti_bytes {b₀ : UInt8} (h : decodeMulti b₀ s = some (r, n)) :
    n ≤ s.length + 1 ∧ ∀ b ∈ s.take (n - 1), 0x80 ≤ b := by
  unfold decodeMulti at h
  split at h
  · rename_i lo hi b₁ t hl
    obtain ⟨hb₁, heq⟩ := Option.ite_none_right_eq_some.mp h
    cases heq
    have h₁ : 0x80 ≤ b₁ := UInt8.le_trans (le_of_leading hl) hb₁.1
    simp [h₁]
  · rename_i lo hi b₁ b₂ t hl
    obtain ⟨⟨hb₁, hb₂⟩, heq⟩ := Option.ite_none_right_eq_some.mp h
    cases heq
    have h₁ : 0x80 ≤ b₁ := UInt8.le_trans (le_of_leading hl) hb₁.1
    simp [h₁, le_of_isContinuation hb₂]
  · rename_i lo hi b₁ b₂ b₃ t hl
    obtain ⟨⟨hb₁, hb₂, hb₃⟩, heq⟩ := Option.ite_none_right_eq_some.mp h
    cases heq
    have h₁ : 0x80 ≤ b₁ := UInt8.le_trans (le_of_leading hl) hb₁.1
    simp [h₁, le_of_isContinuation hb₂, le_of_isContinuation hb₃]
  · cases h

theorem decodeRune_bytes {b₀ : UInt8} (hb : 0x80 ≤ b₀) (h : 1 < (decodeRune (b₀ :: s)).2) :
    (decodeRune (b₀ :: s)).2 ≤ (b₀ :: s).length ∧ ∀ b ∈ (b₀ :: s).take (decodeRune (b₀ :: s)).2, 0x80 ≤ b := by
  have hdecode : decodeRune (b₀ :: s) = (decodeMulti b₀ s).getD (runeError, 1) := by
    rw [decodeRune, if_neg (UInt8.not_lt.mpr hb)]
  rw [hdecode] at h ⊢
  cases hm : decodeMulti b₀ s with
  | none =>
    rw [hm] at h
    exact absurd h (by decide)
  | some rn =>
    obtain ⟨r, n⟩ := rn
    obtain ⟨hlen, hhigh⟩ := decodeMulti_bytes hm
    rw [hm] at h
    obtain ⟨n, rfl⟩ : ∃ n', n = n' + 1 := ⟨n - 1, (Nat.sub_add_cancel h.le).symm⟩
    refine ⟨hlen, fun b hmem => ?_⟩
    rcases mem_cons.mp hmem with rfl | hmem
    · exact hb
    · exact hhigh b hmem

def runesAfter : ℕ → List UInt8 → List ℕ
  | _, [] => []
  | skip + 1, _ :: s => runesAfter skip s
  | 0, b :: s => (decodeRune (b :: s)).1 :: runesAfter ((decodeRune (b :: s)).2 - 1) s

def runes (s : List UInt8) : List ℕ := runesAfter 0 s

theorem runesAfter_eq_drop (n : ℕ) (s : List UInt8) : runesAfter n s = runes (s.drop n) := by
  induction s generalizing n with
  | nil => cases n <;> rfl
  | cons b s ih =>
    cases n with
    | zero => rfl
    | succ n => exact ih n

/-! ## Valid strings -/

inductive Valid : List UInt8 → Prop
  | nil : Valid []
  | single {b : UInt8} {s : List UInt8} : b < 0x80 → Valid s → Valid (b :: s)
  | multi {b : UInt8} {s : List UInt8} {r n : ℕ} :
      0x80 ≤ b → decodeMulti b s = some (r, n) → Valid (s.drop (n - 1)) → Valid (b :: s)

theorem runes_single (hb : b < 0x80) : runes (b :: s) = b.toNat :: runes s := by
  have hdecode : decodeRune (b :: s) = (b.toNat, 1) := if_pos hb
  show (decodeRune (b :: s)).1 :: runesAfter ((decodeRune (b :: s)).2 - 1) s = _
  rw [hdecode]
  rfl

theorem runes_multi (hb : 0x80 ≤ b) (h : decodeMulti b s = some (r, n)) :
    runes (b :: s) = r :: runes (s.drop (n - 1)) := by
  have hdecode : decodeRune (b :: s) = (r, n) := by
    rw [decodeRune, if_neg (UInt8.not_lt.mpr hb), h]
    rfl
  show (decodeRune (b :: s)).1 :: runesAfter ((decodeRune (b :: s)).2 - 1) s = _
  rw [hdecode, runesAfter_eq_drop]

theorem decodeMulti_of_append {t u : List UInt8} (h : decodeMulti b (t ++ u) = some (r, n))
    (hn : n - 1 ≤ t.length) : decodeMulti b t = some (r, n) := by
  have hcases := h
  unfold decodeMulti at hcases
  split at hcases
  · rename_i hl hs
    obtain ⟨_, heq⟩ := Option.ite_none_right_eq_some.mp hcases
    cases heq
    match t, hn with
    | b₁ :: t, _ =>
      cases hs
      unfold decodeMulti
      rw [hl]
      exact hcases
  · rename_i hl hs
    obtain ⟨_, heq⟩ := Option.ite_none_right_eq_some.mp hcases
    cases heq
    match t, hn with
    | [_], hn => exact absurd hn (by simp)
    | b₁ :: b₂ :: t, _ =>
      cases hs
      unfold decodeMulti
      rw [hl]
      exact hcases
  · rename_i hl hs
    obtain ⟨_, heq⟩ := Option.ite_none_right_eq_some.mp hcases
    cases heq
    match t, hn with
    | [_], hn => exact absurd hn (by simp)
    | [_, _], hn => exact absurd hn (by simp)
    | b₁ :: b₂ :: b₃ :: t, _ =>
      cases hs
      unfold decodeMulti
      rw [hl]
      exact hcases
  · cases hcases

theorem Valid.of_append {u : List UInt8} (hs : Valid s) (hu : ∀ b ∈ u, b < 0x80) : ∀ t, s = t ++ u → Valid t := by
  induction hs with
  | nil =>
    intro t ht
    rw [(append_eq_nil_iff.mp ht.symm).1]
    exact .nil
  | single hb _ ih =>
    intro t ht
    cases t with
    | nil => exact .nil
    | cons c t =>
      obtain ⟨rfl, rfl⟩ := cons.inj ht
      exact .single hb (ih t rfl)
  | @multi b s r n hb h _ ih =>
    intro t ht
    cases t with
    | nil => exact .nil
    | cons c t =>
      rw [cons_append] at ht
      obtain ⟨rfl, rfl⟩ := cons.inj ht
      obtain ⟨hlen, hhigh⟩ := decodeMulti_bytes h
      -- the bytes of the character have more than seven bits, none of them is cut off
      have hn : n - 1 ≤ t.length := by
        by_contra hlt
        have hpos : 0 < u.length := by
          rw [length_append] at hlen
          omega
        have hmem : u[0] ∈ (t ++ u).take (n - 1) := by
          rw [take_append, mem_append]
          right
          rw [mem_take_iff_getElem]
          exact ⟨0, by omega, rfl⟩
        exact absurd (hu _ (getElem_mem hpos)) (UInt8.not_lt.mpr (hhigh _ hmem))
      refine .multi hb (decodeMulti_of_append h hn) (ih (t.drop (n - 1)) ?_)
      rw [drop_append_of_le_length hn]

end Utf8
