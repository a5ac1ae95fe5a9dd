import Mathlib.Tactic

/-!
# Fixed-width numerals over bytes

Big-endian and little-endian numerals of a fixed width, and what the byte order (`compare` on
lists of bytes: unsigned, a proper prefix first) says about them.  Everything is stated for an
arbitrary width; machine words are the widths 1, 2, 4 and 8.
-/

namespace ByteNum

open List

def beBytes : Nat → Nat → List UInt8
  | 0, _ => []
  | w + 1, x => UInt8.ofNat (x / 256 ^ w) :: beBytes w x

def beNat : List UInt8 → Nat
  | [] => 0
  | b :: bs => b.toNat * 256 ^ bs.length + beNat bs

def leNat : List UInt8 → Nat
  | [] => 0
  | b :: bs => b.toNat + 256 * leNat bs

theorem uint8_toNat_ofNat (x : Nat) : (UInt8.ofNat x).toNat = x % 256 := by simp

/-! ## Lengths and bounds -/

@[simp] theorem length_beBytes (w x : Nat) : (beBytes w x).length = w := by
  induction w with
  | zero => rfl
  | succ w ih => rw [beBytes, length_cons, ih]

theorem beNat_lt (l : List UInt8) : beNat l < 256 ^ l.length := by
  induction l with
  | nil => simp [beNat]
  | cons b bs ih =>
    have hb : b.toNat + 1 ≤ 256 := b.toNat_lt
    calc b.toNat * 256 ^ bs.length + beNat bs
        < b.toNat * 256 ^ bs.length + 256 ^ bs.length := by omega
      _ = (b.toNat + 1) * 256 ^ bs.length := by ring
      _ ≤ 256 * 256 ^ bs.length := Nat.mul_le_mul_right _ hb
      _ = 256 ^ bs.length * 256 := by ring

/-! ## Round trips -/

theorem beBytes_mod (w x : Nat) {n : Nat} (h : w ≤ n) : beBytes w (x % 256 ^ n) = beBytes w x := by
  induction w with
  | zero => rfl
  | succ w ih =>
    rw [beBytes, ih (by omega)]
    congr 1
    apply UInt8.toNat_inj.mp
    rw [uint8_toNat_ofNat, uint8_toNat_ofNat]
    obtain ⟨k, rfl⟩ : ∃ k, n = w + 1 + k := ⟨n - (w + 1), by omega⟩
    rw [show 256 ^ (w + 1 + k) = 256 ^ w * (256 * 256 ^ k) by ring, Nat.mod_mul_right_div_self, Nat.mod_mul_right_mod]

theorem beNat_beBytes (w x : Nat) : beNat (beBytes w x) = x % 256 ^ w := by
  induction w with
  | zero => simp [beBytes, beNat, Nat.mod_one]
  | succ w ih =>
    rw [beBytes, beNat, length_beBytes, ih, uint8_toNat_ofNat, pow_succ, Nat.mod_mul, Nat.mul_comm, Nat.add_comm]

theorem beBytes_beNat (l : List UInt8) : beBytes l.length (beNat l) = l := by
  induction l with
  | nil => rfl
  | cons b bs ih =>
    have hlt := beNat_lt bs
    rw [length_cons, beBytes, beNat]
    congr 1
    · rw [Nat.mul_comm, Nat.mul_add_div (by positivity), Nat.div_eq_of_lt hlt, Nat.add_zero, UInt8.ofNat_toNat]
    · rw [← beBytes_mod _ _ (Nat.le_refl _), Nat.mul_comm, Nat.mul_add_mod, Nat.mod_eq_of_lt hlt]
      exact ih

theorem beNat_beBytes_of_lt {w x : Nat} (h : x < 256 ^ w) : beNat (beBytes w x) = x := by
  rw [beNat_beBytes, Nat.mod_eq_of_lt h]

theorem beBytes_add_of_lt (k : Nat) {w x : Nat} (h : x < 256 ^ w) :
    beBytes (k + w) x = replicate k 0 ++ beBytes w x := by
  induction k with
  | zero => simp
  | succ k ih =>
    rw [show k + 1 + w = k + w + 1 by omega, beBytes, replicate_succ]
    congr 1
    rw [Nat.div_eq_of_lt (lt_of_lt_of_le h (Nat.pow_le_pow_right (by norm_num) (by omega)))]
    rfl

/-! ## The byte order -/

theorem compare_append {a b : List UInt8} (h : a.length = b.length) (x y : List UInt8) :
    compare (a ++ x) (b ++ y) = (compare a b).then (compare x y) := by
  induction a generalizing b with
  | nil =>
    obtain rfl : b = [] := length_eq_zero_iff.mp h.symm
    rfl
  | cons c cs ih =>
    cases b with
    | nil => cases h
    | cons d ds =>
      rw [cons_append, cons_append, List.compare_cons_cons, List.compare_cons_cons,
        ih (Nat.succ.inj h), Ordering.then_assoc]

theorem compare_congr {γ : Type*} {δ : Type*} [LinearOrder γ] [LinearOrder δ] {a b : γ} {c d : δ}
    (hlt : a < b ↔ c < d) (hgt : b < a ↔ d < c) : compare a b = compare c d := by
  rcases lt_trichotomy a b with h | h | h
  · rw [compare_lt_iff_lt.mpr h, compare_lt_iff_lt.mpr (hlt.mp h)]
  · have hcd : c = d := le_antisymm (not_lt.mp fun hc => (hgt.mpr hc).ne' h) (not_lt.mp fun hc => (hlt.mpr hc).ne h)
    rw [compare_eq_iff_eq.mpr h, compare_eq_iff_eq.mpr hcd]
  · rw [compare_gt_iff_gt.mpr h, compare_gt_iff_gt.mpr (hgt.mp h)]

theorem compare_uint8 (a b : UInt8) : compare a b = compare a.toNat b.toNat := by
  simp only [compare, compareOfLessAndEq, UInt8.lt_iff_toNat_lt, ← UInt8.toNat_inj]

theorem compare_uint8_of_lt {a b : UInt8} (h : a < b) : compare a b = .lt := by
  rw [compare_uint8, Nat.compare_eq_lt]
  exact UInt8.lt_iff_toNat_lt.mp h

theorem compare_eq_compare_beNat {a b : List UInt8} (h : a.length = b.length) :
    compare a b = compare (beNat a) (beNat b) := by
  induction a generalizing b with
  | nil =>
    obtain rfl : b = [] := length_eq_zero_iff.mp h.symm
    rfl
  | cons c cs ih =>
    cases b with
    | nil => cases h
    | cons d ds =>
      have hl := Nat.succ.inj h
      have hc := beNat_lt cs
      have hd := beNat_lt ds
      rw [List.compare_cons_cons, ih hl, compare_uint8, beNat, beNat, hl]
      rw [hl] at hc
      rcases Nat.lt_trichotomy c.toNat d.toNat with hlt | heq | hgt
      · have hm : (c.toNat + 1) * 256 ^ ds.length ≤ d.toNat * 256 ^ ds.length :=
          Nat.mul_le_mul_right _ hlt
        rw [Nat.compare_eq_lt.mpr hlt, Ordering.lt_then, eq_comm, Nat.compare_eq_lt]
        rw [Nat.add_mul] at hm
        omega
      · rw [heq, Nat.compare_eq_eq.mpr rfl, Ordering.eq_then]
        rcases Nat.lt_trichotomy (beNat cs) (beNat ds) with h1 | h1 | h1
        · rw [Nat.compare_eq_lt.mpr h1, Nat.compare_eq_lt.mpr (by omega)]
        · rw [h1]; simp
        · rw [Nat.compare_eq_gt.mpr h1, Nat.compare_eq_gt.mpr (by omega)]
      · have hm : (d.toNat + 1) * 256 ^ ds.length ≤ c.toNat * 256 ^ ds.length :=
          Nat.mul_le_mul_right _ hgt
        rw [Nat.compare_eq_gt.mpr hgt, Ordering.gt_then, eq_comm, Nat.compare_eq_gt]
        rw [Nat.add_mul] at hm
        omega

theorem compare_beBytes {w x y : Nat} (hx : x < 256 ^ w) (hy : y < 256 ^ w) :
    compare (beBytes w x) (beBytes w y) = compare x y := by
  rw [compare_eq_compare_beNat (by simp), beNat_beBytes_of_lt hx, beNat_beBytes_of_lt hy]

/-! ## Flipped bits -/

theorem nat_xor_two_pow {k x : Nat} (h : x < 2 ^ (k + 1)) :
    x ^^^ 2 ^ k = if x < 2 ^ k then x + 2 ^ k else x - 2 ^ k := by
  have hdiv : (x ^^^ 2 ^ k) / 2 ^ k = x / 2 ^ k ^^^ 1 := by rw [Nat.xor_div_two_pow, Nat.div_self (Nat.two_pow_pos k)]
  have hmod : (x ^^^ 2 ^ k) % 2 ^ k = x % 2 ^ k := by rw [Nat.xor_mod_two_pow, Nat.mod_self, Nat.xor_zero]
  have hadd := Nat.div_add_mod (x ^^^ 2 ^ k) (2 ^ k)
  have hx := Nat.div_add_mod x (2 ^ k)
  rw [hdiv, hmod] at hadd
  split
  · rename_i hlt
    rw [Nat.div_eq_of_lt hlt, show (0 : Nat) ^^^ 1 = 1 from rfl, Nat.mod_eq_of_lt hlt] at hadd
    omega
  · have h1 : x / 2 ^ k = 1 := Nat.div_eq_of_lt_le (by omega) (by omega)
    rw [h1, show (1 : Nat) ^^^ 1 = 0 from rfl] at hadd
    rw [h1] at hx
    omega

theorem uint8_toNat_compl (b : UInt8) : (~~~b).toNat = 255 - b.toNat := by
  rw [UInt8.toNat_not]
  rfl

theorem beNat_map_compl (l : List UInt8) : beNat (l.map (~~~ ·)) = 256 ^ l.length - 1 - beNat l := by
  induction l with
  | nil => rfl
  | cons b bs ih =>
    have hb := b.toNat_lt
    have hlt := beNat_lt bs
    rw [map_cons, beNat, beNat, length_map, uint8_toNat_compl, length_cons]
    have hmul : (255 - b.toNat) * 256 ^ bs.length + b.toNat * 256 ^ bs.length = 255 * 256 ^ bs.length := by
      rw [← Nat.add_mul]
      congr 1
      omega
    omega

theorem compare_map_compl {a b : List UInt8} (h : a.length = b.length) :
    compare (a.map (~~~ ·)) (b.map (~~~ ·)) = compare b a := by
  have ha := beNat_lt a
  have hb := beNat_lt b
  rw [compare_eq_compare_beNat (by simpa using h), compare_eq_compare_beNat h.symm, beNat_map_compl, beNat_map_compl, h]
  rw [h] at ha
  rcases Nat.lt_trichotomy (beNat a) (beNat b) with h1 | h1 | h1
  · rw [Nat.compare_eq_gt.mpr h1, Nat.compare_eq_gt.mpr (by omega)]
  · rw [h1]; simp
  · rw [Nat.compare_eq_lt.mpr h1, Nat.compare_eq_lt.mpr (by omega)]

theorem compl_map_compl (l : List UInt8) : (l.map (~~~ ·)).map (~~~ ·) = l := by
  rw [map_map]
  conv_rhs => rw [← map_id l]
  congr 1
  funext b
  simp

end ByteNum
