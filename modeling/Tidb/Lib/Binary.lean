import Tidb.Lib.Outcome
import Tidb.Lib.ByteNum

/-!
# Go's `encoding/binary`

Fixed-width words, and the two varint formats: a `Uvarint` holds seven bits a byte, least significant group first; a
`Varint` is the `Uvarint` of the zig-zag of a signed value.  `uvarint` and `varint` return the number of bytes read,
`0` when the buffer is too small and a negative number on overflow.
-/

namespace GoLang

open ByteNum List

universe u

variable {ε : Type u}

/-! ## Fixed-width words -/

def putUint64BE (u : UInt64) : List UInt8 := beBytes 8 u.toNat

/-- `binary.BigEndian.Uint64(b)`: the word in the first eight bytes of `b`. -/
def uint64BE (b : List UInt8) : Outcome ε UInt64 := do
  let data ← sliceTo b 8
  return UInt64.ofNat (beNat data)

@[simp] theorem length_putUint64BE (u : UInt64) : (putUint64BE u).length = 8 := length_beBytes _ _

theorem uint64_toNat_lt_pow (u : UInt64) : u.toNat < 256 ^ 8 := u.toNat_lt

theorem beNat_putUint64BE (u : UInt64) : beNat (putUint64BE u) = u.toNat :=
  beNat_beBytes_of_lt (uint64_toNat_lt_pow u)

@[simp] theorem uint64BE_putUint64BE_append (u : UInt64) (r : List UInt8) :
    (uint64BE (putUint64BE u ++ r) : Outcome ε UInt64) = .ok u := by
  have h : (sliceTo (putUint64BE u ++ r) 8 : Outcome ε (List UInt8)) = .ok (putUint64BE u) := by
    simpa using sliceTo_append (ε := ε) (putUint64BE u) r
  rw [uint64BE, h, Outcome.ok_bind, beNat_putUint64BE, UInt64.ofNat_toNat]
  rfl

theorem putUint64BE_ofNat_beNat {l : List UInt8} (h : l.length = 8) : putUint64BE (UInt64.ofNat (beNat l)) = l := by
  have hlt := beNat_lt l
  rw [h] at hlt
  rw [putUint64BE, UInt64.toNat_ofNat_of_lt' hlt, ← h, beBytes_beNat]

theorem putUint64BE_inj {u v : UInt64} (h : putUint64BE u = putUint64BE v) : u = v := by
  apply UInt64.toNat_inj.mp
  rw [← beNat_putUint64BE u, h, beNat_putUint64BE]

/-! ## Two's complement -/

theorem int64_toInt_eq (x : Int64) : x.toInt =
    if x.toUInt64.toNat < 2 ^ 63 then (x.toUInt64.toNat : Int)
    else (x.toUInt64.toNat : Int) - 2 ^ 64 := by
  rw [← Int64.toInt_toBitVec, BitVec.toInt_eq_toNat_cond, Int64.toNat_toBitVec]
  split <;> split <;> omega

theorem int64_lt_zero_iff (x : Int64) : x < 0 ↔ 2 ^ 63 ≤ x.toUInt64.toNat := by
  have h := x.toUInt64.toNat_lt
  rw [Int64.lt_iff_toInt_lt, Int64.toInt_zero, int64_toInt_eq]
  split <;> omega

/-! ## Unsigned varints -/

def putUvarintLoop : Nat → Nat → List UInt8
  | 0, x => [UInt8.ofNat x]
  | n + 1, x =>
    if x < 128 then [UInt8.ofNat x]
    else UInt8.ofNat (x % 128 + 128) :: putUvarintLoop n (x / 128)

def putUvarint (x : UInt64) : List UInt8 := putUvarintLoop 9 x.toNat

def uvarintLoop : List UInt8 → Nat → Nat → Nat × Int
  | [], _, _ => (0, 0)
  | b :: bs, i, x =>
    if i = 10 then (0, -((i : Int) + 1))
    else if b.toNat < 128 then
      if i = 9 ∧ 1 < b.toNat then (0, -((i : Int) + 1))
      else (x + b.toNat * 2 ^ (7 * i), (i : Int) + 1)
    else uvarintLoop bs (i + 1) (x + b.toNat % 128 * 2 ^ (7 * i))

def uvarint (buf : List UInt8) : UInt64 × Int :=
  let r := uvarintLoop buf 0 0
  (UInt64.ofNat r.1, r.2)

/-- What a run of the loop can return: the value is complete after a whole number of bytes, the
buffer is too short, or the value overflows. -/
theorem uvarintLoop_cases (bs : List UInt8) (i x : Nat) (hi : i ≤ 10) (hx : x < 2 ^ (7 * i)) : (∃ k y, 0 < k ∧ k ≤
    bs.length ∧ i + k ≤ 10 ∧ y < 2 ^ 64 ∧ (∀ r, uvarintLoop (bs.take k ++ r) i x = (y, ((i + k : Nat) : Int))) ∧ (∀ j, j
    < k → uvarintLoop (bs.take j) i x = (0, 0))) ∨ (uvarintLoop bs i x = (0, 0) ∧ ∀ j, uvarintLoop (bs.take j) i x = (0,
    0)) ∨ (uvarintLoop bs i x).1 = 0 ∧ -11 ≤ (uvarintLoop bs i x).2 ∧ (uvarintLoop bs i x).2 ≤ -10 := by
  induction bs generalizing i x with
  | nil => exact Or.inr (Or.inl ⟨rfl, fun j => by simp [uvarintLoop]⟩)
  | cons b bs ih =>
    by_cases h10 : i = 10
    · subst h10
      right; right
      simp [uvarintLoop]
    · by_cases hlow : b.toNat < 128
      · by_cases hover : i = 9 ∧ 1 < b.toNat
        · right; right
          simp [uvarintLoop, hlow, hover]
        · left
          refine ⟨1, x + b.toNat * 2 ^ (7 * i), by omega, by simp, by omega, ?_, ?_, ?_⟩
          · -- seven bits a byte, and only one bit in the tenth
            have hbit : b.toNat * 2 ^ (7 * i) + 2 ^ (7 * i) ≤ 2 ^ 64 := by
              by_cases h9 : i = 9
              · subst h9
                omega
              · have h1 : b.toNat + 1 ≤ 2 ^ 7 := by omega
                calc b.toNat * 2 ^ (7 * i) + 2 ^ (7 * i) = (b.toNat + 1) * 2 ^ (7 * i) := by ring
                  _ ≤ 2 ^ 7 * 2 ^ (7 * i) := Nat.mul_le_mul_right _ h1
                  _ = 2 ^ (7 + 7 * i) := by rw [pow_add]
                  _ ≤ 2 ^ 64 := Nat.pow_le_pow_right (by norm_num) (by omega)
            omega
          · simp [uvarintLoop, h10, hlow, hover]
          · intro j hj
            obtain rfl : j = 0 := by omega
            simp [uvarintLoop]
      · have hx' : x + b.toNat % 128 * 2 ^ (7 * i) < 2 ^ (7 * (i + 1)) := by
          have h1 : b.toNat % 128 + 1 ≤ 2 ^ 7 := by omega
          calc x + b.toNat % 128 * 2 ^ (7 * i) < (b.toNat % 128 + 1) * 2 ^ (7 * i) := by rw [Nat.add_mul]; omega
            _ ≤ 2 ^ 7 * 2 ^ (7 * i) := Nat.mul_le_mul_right _ h1
            _ = 2 ^ (7 * (i + 1)) := by rw [← pow_add]; congr 1; omega
        have hstep : ∀ l, uvarintLoop (b :: l) i x = uvarintLoop l (i + 1) (x + b.toNat % 128 * 2 ^ (7 * i)) := by
          simp [uvarintLoop, h10, hlow]
        rcases ih (i + 1) _ (by omega) hx' with
          ⟨k, y, hk0, hk, hk10, hy, hfull, hshort⟩ | ⟨hz, hshort⟩ | hneg
        · left
          refine ⟨k + 1, y, by omega, by simpa using hk, by omega, hy, ?_, ?_⟩
          · intro r
            rw [take_succ_cons, cons_append, hstep, hfull]
            congr 2
            omega
          · intro j hj
            cases j with
            | zero => simp [uvarintLoop]
            | succ j => rw [take_succ_cons, hstep, hshort j (by omega)]
        · right; left
          refine ⟨by rw [hstep, hz], fun j => ?_⟩
          cases j with
          | zero => simp [uvarintLoop]
          | succ j => rw [take_succ_cons, hstep, hshort j]
        · right; right
          rw [hstep]
          exact hneg

theorem uvarint_cases (b : List UInt8) : (∃ (k : Nat) (y : UInt64), 0 < k ∧ k ≤ b.length ∧ k ≤ 10 ∧ (∀ r, uvarint
      (b.take k ++ r) = (y, (k : Int))) ∧ (∀ j, j < k → uvarint (b.take j) = (0, 0))) ∨ (uvarint b = (0, 0) ∧ ∀ j,
      uvarint (b.take j) = (0, 0)) ∨ (uvarint b).1 = 0 ∧ -11 ≤ (uvarint b).2 ∧ (uvarint b).2 ≤ -10 := by
  rcases uvarintLoop_cases b 0 0 (by omega) (by simp) with
    ⟨k, y, hk0, hk, hk10, -, hfull, hshort⟩ | ⟨hz, hshort⟩ | ⟨h1, h2⟩
  · left
    refine ⟨k, UInt64.ofNat y, hk0, hk, by omega, fun r => ?_, fun j hj => ?_⟩
    · simp [uvarint, hfull r]
    · simp [uvarint, hshort j hj]
  · right; left
    exact ⟨by simp [uvarint, hz], fun j => by simp [uvarint, hshort j]⟩
  · right; right
    exact ⟨by simp [uvarint, h1], h2⟩

theorem uvarint_of_pos {b : List UInt8} {y : UInt64} {n : Int} (h : uvarint b = (y, n)) (hn : 0 < n) :
    n.toNat ≤ b.length ∧ n ≤ 10 ∧ (∀ r, uvarint (b.take n.toNat ++ r) = (y, n)) ∧
      ∀ j, j < n.toNat → uvarint (b.take j) = (0, 0) := by
  rcases uvarint_cases b with ⟨k, z, hk0, hk, hk10, hfull, hshort⟩ | ⟨hz, -⟩ | ⟨-, -, h2⟩
  · have hb := hfull (b.drop k)
    rw [take_append_drop, h] at hb
    obtain ⟨rfl, rfl⟩ := Prod.mk.inj hb
    exact ⟨by simpa using hk, by omega, by simpa using hfull, by simpa using hshort⟩
  · rw [h] at hz
    have := (Prod.mk.inj hz).2
    omega
  · rw [h] at h2
    omega

theorem uvarint_of_nonpos {b : List UInt8} (h : (uvarint b).2 ≤ 0) :
    (uvarint b).1 = 0 ∧ ((uvarint b).2 = 0 ∨ -11 ≤ (uvarint b).2 ∧ (uvarint b).2 ≤ -10) := by
  rcases uvarint_cases b with ⟨k, z, hk0, -, -, hfull, -⟩ | ⟨hz, -⟩ | ⟨h1, h2⟩
  · have hb := hfull (b.drop k)
    rw [take_append_drop] at hb
    rw [hb] at h
    omega
  · simp [hz]
  · exact ⟨h1, Or.inr h2⟩

/-! ## Signed varints -/

/-- `uint64(x) << 1`, complemented for a negative `x`. -/
def zigzag (x : Int64) : UInt64 :=
  let ux := x.toUInt64 <<< 1
  if x < 0 then ~~~ux else ux

/-- `int64(ux >> 1)`, complemented when the low bit is set. -/
def unzigzag (ux : UInt64) : Int64 :=
  let x := (ux >>> 1).toInt64
  if ux &&& 1 ≠ 0 then ~~~x else x

def putVarint (x : Int64) : List UInt8 := putUvarint (zigzag x)

def varint (buf : List UInt8) : Int64 × Int :=
  let r := uvarint buf
  (unzigzag r.1, r.2)

theorem zigzag_toNat (x : Int64) : (zigzag x).toNat =
    if x.toUInt64.toNat < 2 ^ 63 then 2 * x.toUInt64.toNat
    else 2 ^ 65 - 1 - 2 * x.toUInt64.toNat := by
  have h := x.toUInt64.toNat_lt
  have hshift : (x.toUInt64 <<< 1).toNat = 2 * x.toUInt64.toNat % 2 ^ 64 := by
    rw [UInt64.toNat_shiftLeft, show (1 : UInt64).toNat % 64 = 1 from rfl, Nat.shiftLeft_eq, Nat.mul_comm]
  unfold zigzag
  simp only [int64_lt_zero_iff]
  split
  · rw [UInt64.toNat_not, if_neg (by omega)]
    simp
    omega
  · rw [if_pos (by omega)]
    omega

end GoLang
