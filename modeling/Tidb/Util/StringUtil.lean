import Tidb.Lib.Utf8

/-!
# Patterns

The patterns of `LIKE`: `_` for one character, `%` for any number of them.
-/

namespace StringUtil

inductive PatType where
  | patMatch
  | patOne
  | patAny
  deriving DecidableEq, Repr

def underscore : ℕ := 0x5F

def percent : ℕ := 0x25

/-- The characters of a pattern and their types, from the characters that are left and, last first, those handled. -/
def compileRunes (escape : ℕ) : List ℕ → List (ℕ × PatType) → List (ℕ × PatType)
  | [], pat => pat.reverse
  | r :: rs, pat =>
    if r = escape then
      match rs with
      | [] => compileRunes escape [] ((r, .patMatch) :: pat)
      | r :: rs => compileRunes escape rs ((r, .patMatch) :: pat)
    else if r = underscore then
      match pat with
      -- %_ => _%
      | (_, .patAny) :: pat => compileRunes escape rs ((percent, .patAny) :: (underscore, .patOne) :: pat)
      | pat => compileRunes escape rs ((r, .patOne) :: pat)
    else if r = percent then
      match pat with
      -- %% => %
      | (c, .patAny) :: pat => compileRunes escape rs ((c, .patAny) :: pat)
      | pat => compileRunes escape rs ((r, .patAny) :: pat)
    else compileRunes escape rs ((r, .patMatch) :: pat)

def compilePatternInner (pattern : List UInt8) (escape : UInt8) : List (ℕ × PatType) :=
  compileRunes escape.toNat (Utf8.runes pattern) []

/-- Where the match stands, and where it starts again after a mismatch. -/
structure Cursor where
  rIdx : ℕ
  pIdx : ℕ
  nextRIdx : ℕ
  nextPIdx : ℕ

def Cursor.advance (c : Cursor) (runes : List ℕ) (pat : List (ℕ × PatType)) (matcher : ℕ → ℕ → Bool) : Option Cursor :=
  match pat[c.pIdx]?, runes[c.rIdx]? with
  | some (p, .patMatch), some r => if matcher r p then some { c with pIdx := c.pIdx + 1, rIdx := c.rIdx + 1 } else none
  | some (_, .patOne), some _ => some { c with pIdx := c.pIdx + 1, rIdx := c.rIdx + 1 }
  | some (_, .patAny), _ => some { c with nextPIdx := c.pIdx, nextRIdx := c.rIdx + 1, pIdx := c.pIdx + 1 }
  | _, _ => none

def Cursor.restart (c : Cursor) (runes : List ℕ) : Option Cursor :=
  if 0 < c.nextRIdx ∧ c.nextRIdx ≤ runes.length then some { c with pIdx := c.nextPIdx, rIdx := c.nextRIdx } else none

def doMatchLoop (runes : List ℕ) (pat : List (ℕ × PatType)) (matcher : ℕ → ℕ → Bool) : ℕ → Cursor → Option Bool
  | 0, _ => none
  | fuel + 1, c =>
    if c.pIdx < pat.length ∨ c.rIdx < runes.length then
      match c.advance runes pat matcher with
      | some c => doMatchLoop runes pat matcher fuel c
      | none =>
        match c.restart runes with
        | some c => doMatchLoop runes pat matcher fuel c
        | none => some false
    else some true

def loopBound (runes : List ℕ) (pat : List (ℕ × PatType)) : ℕ := (runes.length + 1) * (pat.length + 2) + pat.length + 2

def doMatchInner (str : List UInt8) (pat : List (ℕ × PatType)) (matcher : ℕ → ℕ → Bool) : Option Bool :=
  doMatchLoop (Utf8.runes str) pat matcher (loopBound (Utf8.runes str) pat) ⟨0, 0, 0, 0⟩

/-! ## Termination -/

variable {runes : List ℕ} {pat : List (ℕ × PatType)} {matcher : ℕ → ℕ → Bool} {c c' : Cursor}

/-- The match has not gone back behind its last restart, and it starts again at a `%`. -/
structure Cursor.Valid (runes : List ℕ) (pat : List (ℕ × PatType)) (c : Cursor) : Prop where
  rIdx_le : c.rIdx ≤ runes.length
  pIdx_le : c.pIdx ≤ pat.length
  next_le : c.nextRIdx ≤ c.rIdx + 1
  restart : 0 < c.nextRIdx → ∃ r, pat[c.nextPIdx]? = some (r, .patAny)

def Cursor.Fresh (c : Cursor) : Prop := 0 < c.nextRIdx ∧ c.rIdx = c.nextRIdx ∧ c.pIdx = c.nextPIdx

instance (c : Cursor) : Decidable c.Fresh := inferInstanceAs (Decidable (_ ∧ _))

/-- Each restart is behind the one before it; between restarts the match goes on in the pattern. -/
def Cursor.measure (runes : List ℕ) (pat : List (ℕ × PatType)) (c : Cursor) : ℕ :=
  (runes.length + 1 - c.nextRIdx) * (pat.length + 2) + if c.Fresh then 0 else 1 + (pat.length - c.pIdx)

theorem Cursor.measure_le (c : Cursor) : c.measure runes pat ≤
    (runes.length + 1 - c.nextRIdx) * (pat.length + 2) + (1 + (pat.length - c.pIdx)) := by
  unfold Cursor.measure
  split
  · omega
  · exact le_refl _

theorem Cursor.measure_of_not_fresh (h : ¬ c.Fresh) : c.measure runes pat =
    (runes.length + 1 - c.nextRIdx) * (pat.length + 2) + (1 + (pat.length - c.pIdx)) := by
  unfold Cursor.measure
  rw [if_neg h]

theorem Cursor.Valid.any_of_fresh (h : c.Valid runes pat) (hfresh : c.Fresh) :
    ∃ r, pat[c.pIdx]? = some (r, .patAny) := by
  rw [hfresh.2.2]
  exact h.restart hfresh.1

theorem Cursor.Valid.next (h : c.Valid runes pat) {p : ℕ} {tp : PatType} (hp : pat[c.pIdx]? = some (p, tp))
    (htp : tp ≠ .patAny) {r : ℕ} (hr : runes[c.rIdx]? = some r) {c' : Cursor}
    (hc' : c' = { c with pIdx := c.pIdx + 1, rIdx := c.rIdx + 1 }) :
    c'.Valid runes pat ∧ c'.measure runes pat < c.measure runes pat := by
  have hplt : c.pIdx < pat.length := (List.getElem?_eq_some_iff.mp hp).1
  have hrlt : c.rIdx < runes.length := (List.getElem?_eq_some_iff.mp hr).1
  have hfresh : ¬ c.Fresh := by
    intro hfresh
    obtain ⟨q, hq⟩ := h.any_of_fresh hfresh
    rw [hp] at hq
    exact htp (congrArg Prod.snd (Option.some.inj hq))
  have hle : c'.measure runes pat ≤ _ := c'.measure_le
  rw [Cursor.measure_of_not_fresh hfresh]
  subst hc'
  refine ⟨⟨hrlt, hplt, h.next_le.trans (Nat.le_succ _), h.restart⟩, hle.trans_lt ?_⟩
  dsimp only
  omega

theorem Cursor.Valid.advance (h : c.Valid runes pat) (hc : c.advance runes pat matcher = some c') :
    c'.Valid runes pat ∧ c'.measure runes pat < c.measure runes pat := by
  unfold Cursor.advance at hc
  split at hc
  · rename_i p r hp hr
    by_cases hm : matcher r p = true
    · rw [if_pos hm, Option.some.injEq] at hc
      exact h.next hp (by decide) hr hc.symm
    · rw [if_neg hm] at hc
      cases hc
  · rename_i p r hp hr
    rw [Option.some.injEq] at hc
    exact h.next hp (by decide) hr hc.symm
  · rename_i p hp
    have hplt : c.pIdx < pat.length := (List.getElem?_eq_some_iff.mp hp).1
    rw [Option.some.injEq] at hc
    subst hc
    refine ⟨⟨h.rIdx_le, hplt, le_refl _, fun _ => ⟨p, hp⟩⟩, ?_⟩
    have hnot : ¬ Cursor.Fresh { c with nextPIdx := c.pIdx, nextRIdx := c.rIdx + 1, pIdx := c.pIdx + 1 } :=
      fun hfresh => absurd hfresh.2.1 (Nat.ne_of_lt (Nat.lt_succ_self _))
    rw [Cursor.measure_of_not_fresh hnot]
    dsimp only
    rcases Nat.lt_or_eq_of_le h.next_le with hlt | heq
    · -- the next restart is behind the last one
      have hfirst : (runes.length + 1 - (c.rIdx + 1) + 1) * (pat.length + 2) ≤
          (runes.length + 1 - c.nextRIdx) * (pat.length + 2) := by
        apply Nat.mul_le_mul_right
        have := h.rIdx_le
        omega
      rw [Nat.add_one_mul] at hfirst
      unfold Cursor.measure
      omega
    · have hfresh : ¬ c.Fresh := by
        intro hfresh
        have := hfresh.2.1
        omega
      rw [Cursor.measure_of_not_fresh hfresh, heq]
      omega
  · cases hc

theorem Cursor.Valid.goBack (h : c.Valid runes pat) (hc : c.advance runes pat matcher = none)
    (hc' : c.restart runes = some c') : c'.Valid runes pat ∧ c'.measure runes pat < c.measure runes pat := by
  unfold Cursor.restart at hc'
  by_cases hnext : 0 < c.nextRIdx ∧ c.nextRIdx ≤ runes.length
  · rw [if_pos hnext, Option.some.injEq] at hc'
    subst hc'
    have hfresh : ¬ c.Fresh := by
      intro hfresh
      obtain ⟨q, hq⟩ := h.any_of_fresh hfresh
      simp [Cursor.advance, hq] at hc
    obtain ⟨r, hr⟩ := h.restart hnext.1
    have hplt : c.nextPIdx < pat.length := (List.getElem?_eq_some_iff.mp hr).1
    refine ⟨⟨hnext.2, hplt.le, Nat.le_succ _, h.restart⟩, ?_⟩
    rw [Cursor.measure_of_not_fresh hfresh]
    have hfresh' : Cursor.Fresh { c with pIdx := c.nextPIdx, rIdx := c.nextRIdx } := ⟨hnext.1, rfl, rfl⟩
    unfold Cursor.measure
    rw [if_pos hfresh']
    dsimp only
    omega
  · rw [if_neg hnext] at hc'
    cases hc'

theorem exists_doMatchLoop (fuel : ℕ) : ∀ {c : Cursor}, c.Valid runes pat → c.measure runes pat < fuel →
    ∃ b, doMatchLoop runes pat matcher fuel c = some b := by
  induction fuel with
  | zero => exact fun _ hlt => absurd hlt (Nat.not_lt_zero _)
  | succ fuel ih =>
    intro c h hlt
    rw [doMatchLoop]
    split
    · cases hadvance : c.advance runes pat matcher with
      | some c' =>
        obtain ⟨hvalid, hless⟩ := h.advance hadvance
        exact ih hvalid (by omega)
      | none =>
        cases hrestart : c.restart runes with
        | some c' =>
          obtain ⟨hvalid, hless⟩ := h.goBack hadvance hrestart
          exact ih hvalid (by omega)
        | none => exact ⟨false, rfl⟩
    · exact ⟨true, rfl⟩

theorem exists_doMatchInner (str : List UInt8) (pat : List (ℕ × PatType)) (matcher : ℕ → ℕ → Bool) :
    ∃ b, doMatchInner str pat matcher = some b := by
  apply exists_doMatchLoop
  · exact ⟨Nat.zero_le _, Nat.zero_le _, Nat.zero_le _, fun h => absurd h (Nat.lt_irrefl 0)⟩
  · refine (Cursor.measure_le _).trans_lt ?_
    unfold loopBound
    rw [Nat.sub_zero]
    omega

def matchRune (a b : ℕ) : Bool := a == b

def doMatchBytes (str : List UInt8) (pat : List (ℕ × PatType)) : Bool :=
  (doMatchInner str pat matchRune).get (Option.isSome_iff_exists.mpr (exists_doMatchInner str pat matchRune))

end StringUtil
