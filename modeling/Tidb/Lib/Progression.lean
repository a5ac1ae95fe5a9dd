import Mathlib.Data.Int.CardIntervalMod
import Mathlib.Tactic

/-!
# Members of a residue class

The numbers above `lo` up to `hi` that are congruent to `offset` modulo `increment`, and the first one
above a base.
-/

namespace Progression

open Finset

noncomputable def members (lo hi increment offset : ℤ) : Finset ℤ :=
  (Finset.Ioc lo hi).filter (· ≡ offset [ZMOD increment])

def first (base increment offset : ℤ) : ℤ :=
  (base + increment - offset) / increment * increment + offset

section

variable {base increment offset : ℤ} (hinc : 0 < increment)

theorem mem_members {lo hi x : ℤ} :
    x ∈ members lo hi increment offset ↔ lo < x ∧ x ≤ hi ∧ x ≡ offset [ZMOD increment] := by
  rw [members, mem_filter, mem_Ioc, and_assoc]

theorem first_modEq : first base increment offset ≡ offset [ZMOD increment] := by
  rw [first, Int.modEq_iff_dvd]
  exact ⟨-((base + increment - offset) / increment), by ring⟩

include hinc

variable (base offset) in
theorem lt_first : base < first base increment offset := by
  have h1 := Int.mul_ediv_add_emod (base + increment - offset) increment
  have h2 := Int.emod_lt_of_pos (base + increment - offset) hinc
  rw [first]
  linarith

variable (base offset) in
theorem first_le : first base increment offset ≤ base + increment := by
  have h1 := Int.mul_ediv_add_emod (base + increment - offset) increment
  have h2 := Int.emod_nonneg (base + increment - offset) hinc.ne'
  rw [first]
  linarith

theorem modEq_iff_eq_first {x : ℤ} (hlo : base < x) (hhi : x ≤ base + increment) :
    x ≡ offset [ZMOD increment] ↔ x = first base increment offset := by
  constructor
  · intro hmod
    have hdvd : increment ∣ x - first base increment offset :=
      Int.ModEq.dvd (first_modEq.trans hmod.symm)
    have h1 := lt_first base offset hinc
    have h2 := first_le base offset hinc
    have h0 := Int.eq_zero_of_abs_lt_dvd hdvd (abs_lt.mpr ⟨by omega, by omega⟩)
    omega
  · rintro rfl
    exact first_modEq

theorem exists_of_mem {hi x : ℤ} (h : x ∈ members base hi increment offset) :
    ∃ j : ℕ, x = first base increment offset + j * increment := by
  obtain ⟨hlo, -, hmod⟩ := mem_members.mp h
  have hdvd : increment ∣ x - first base increment offset :=
    Int.ModEq.dvd (first_modEq.trans hmod.symm)
  obtain ⟨k, hk⟩ := hdvd
  have hle := first_le base offset hinc
  have hk0 : 0 ≤ k := by
    by_contra hneg
    have hmul : increment * k ≤ increment * (-1) := by
      apply mul_le_mul_of_nonneg_left _ hinc.le
      omega
    linarith
  refine ⟨k.toNat, ?_⟩
  rw [Int.toNat_of_nonneg hk0]
  linarith

theorem first_le_of_modEq {x : ℤ} (hlo : base < x) (hmod : x ≡ offset [ZMOD increment]) :
    first base increment offset ≤ x := by
  obtain ⟨j, hj⟩ := exists_of_mem hinc (mem_members.mpr ⟨hlo, le_refl x, hmod⟩)
  have hpos : 0 ≤ (j : ℤ) * increment := by positivity
  omega

theorem members_eq_image (n : ℕ) : members base (first base increment offset + (n - 1) * increment) increment offset =
      (range n).image fun j : ℕ => first base increment offset + j * increment := by
  ext x
  rw [mem_image]
  constructor
  · intro hx
    obtain ⟨j, rfl⟩ := exists_of_mem hinc hx
    obtain ⟨-, hhi, -⟩ := mem_members.mp hx
    refine ⟨j, mem_range.mpr ?_, rfl⟩
    have hj : (j : ℤ) * increment ≤ (n - 1) * increment := by linarith
    have := le_of_mul_le_mul_right hj hinc
    omega
  · rintro ⟨j, hj, rfl⟩
    have hj' : (j : ℤ) ≤ n - 1 := by
      have := mem_range.mp hj
      omega
    have hmul := mul_le_mul_of_nonneg_right hj' hinc.le
    have hpos : 0 ≤ (j : ℤ) * increment := by positivity
    refine mem_members.mpr ⟨?_, by linarith, ?_⟩
    · have := lt_first base offset hinc
      linarith
    · exact (Int.modEq_iff_dvd.mpr ⟨-j, by ring⟩).trans first_modEq

theorem card_members (n : ℕ) :
    (members base (first base increment offset + (n - 1) * increment) increment offset).card = n := by
  rw [members_eq_image hinc n, card_image_of_injective, card_range]
  intro i j hij
  have h : (i : ℤ) * increment = j * increment := by simpa using hij
  exact_mod_cast mul_right_cancel₀ hinc.ne' h

theorem card_members_lt {n : ℕ} (hn : 0 < n) {hi : ℤ} (h : hi < first base increment offset + (n - 1) * increment) :
    (members base hi increment offset).card < n := by
  have hssub : members base hi increment offset ⊂
      members base (first base increment offset + (n - 1) * increment) increment offset := by
    rw [ssubset_iff_of_subset]
    · refine ⟨first base increment offset + (n - 1) * increment, ?_, ?_⟩
      · rw [members_eq_image hinc n, mem_image]
        exact ⟨n - 1, mem_range.mpr (by omega), by rw [Nat.cast_sub hn]; rfl⟩
      · intro hmem
        have := (mem_members.mp hmem).2.1
        omega
    · intro x hx
      obtain ⟨h1, h2, h3⟩ := mem_members.mp hx
      exact mem_members.mpr ⟨h1, by omega, h3⟩
  have := card_lt_card hssub
  rwa [card_members hinc n] at this

end

theorem members_mono {lo lo' hi hi' increment offset : ℤ} (hlo : lo' ≤ lo) (hhi : hi ≤ hi') :
    members lo hi increment offset ⊆ members lo' hi' increment offset := by
  intro x hx
  obtain ⟨h1, h2, h3⟩ := mem_members.mp hx
  exact mem_members.mpr ⟨by omega, by omega, h3⟩

end Progression
