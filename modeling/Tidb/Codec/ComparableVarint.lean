import Tidb.Codec.Number
import Tidb.Lib.Word64

/-!
# Comparable varints (`util/codec/number.go`)

A tag says how many bytes follow; tags are ordered as the numbers are.  The tags in the middle are numbers
themselves.
-/

namespace Tidb.Codec

open GoLang ByteNum List Outcome

def negativeTagEnd : UInt8 := 8

def positiveTagStart : UInt8 := 0xff - 8

def comparableUvarint (v : UInt64) : Bytes :=
  if v ≤ (positiveTagStart - negativeTagEnd).toUInt64 then [v.toUInt8 + negativeTagEnd]
  else if v ≤ 0xff then (positiveTagStart + 1) :: beBytes 1 v.toNat
  else if v ≤ 0xffff then (positiveTagStart + 2) :: beBytes 2 v.toNat
  else if v ≤ 0xffffff then (positiveTagStart + 3) :: beBytes 3 v.toNat
  else if v ≤ 0xffffffff then (positiveTagStart + 4) :: beBytes 4 v.toNat
  else if v ≤ 0xffffffffff then (positiveTagStart + 5) :: beBytes 5 v.toNat
  else if v ≤ 0xffffffffffff then (positiveTagStart + 6) :: beBytes 6 v.toNat
  else if v ≤ 0xffffffffffffff then (positiveTagStart + 7) :: beBytes 7 v.toNat
  else (positiveTagStart + 8) :: beBytes 8 v.toNat

def encodeComparableUvarint (b : Bytes) (v : UInt64) : Bytes := b ++ comparableUvarint v

def comparableNegative (v : Int64) : Bytes :=
  let u := v.toUInt64.toNat
  if -0xff ≤ v then (negativeTagEnd - 1) :: beBytes 1 u
  else if -0xffff ≤ v then (negativeTagEnd - 2) :: beBytes 2 u
  else if -0xffffff ≤ v then (negativeTagEnd - 3) :: beBytes 3 u
  else if -0xffffffff ≤ v then (negativeTagEnd - 4) :: beBytes 4 u
  else if -0xffffffffff ≤ v then (negativeTagEnd - 5) :: beBytes 5 u
  else if -0xffffffffffff ≤ v then (negativeTagEnd - 6) :: beBytes 6 u
  else if -0xffffffffffffff ≤ v then (negativeTagEnd - 7) :: beBytes 7 u
  else (negativeTagEnd - 8) :: beBytes 8 u

def encodeComparableVarint (b : Bytes) (v : Int64) : Bytes :=
  if v < 0 then b ++ comparableNegative v else encodeComparableUvarint b v.toUInt64

def errDecodeInvalid : Err := .new "invalid bytes to decode value"

def shiftBytes (v : UInt64) (b : Bytes) : UInt64 := b.foldl (fun v c => v <<< 8 ||| c.toUInt64) v

def decodeComparableUvarint : Bytes → Res (Bytes × UInt64)
  | [] => .error errInsufficient
  | first :: b =>
    if first < negativeTagEnd then .error errDecodeInvalid
    else if first ≤ positiveTagStart then .ok (b, first.toUInt64 - negativeTagEnd.toUInt64)
    else
      let length := first.toNat - positiveTagStart.toNat
      if b.length < length then .error errInsufficient
      else do
        let data ← sliceTo b length
        let rest ← sliceFrom b length
        return (rest, shiftBytes 0 data)

def decodeComparableTagged (first : UInt8) (length : Nat) (v : UInt64) (b : Bytes) : Res (Bytes × Int64) :=
  if b.length < length then .error errInsufficient
  else do
    let data ← sliceTo b length
    let v := shiftBytes v data
    if positiveTagStart < first ∧ 0x7FFFFFFFFFFFFFFF < v then .error errDecodeInvalid
    else if first < negativeTagEnd ∧ v ≤ 0x7FFFFFFFFFFFFFFF then .error errDecodeInvalid
    else do
      let rest ← sliceFrom b length
      return (rest, v.toInt64)

/-- The tags that are numbers themselves are not cut off. -/
def decodeComparableVarint : Bytes → Res (Bytes × Int64)
  | [] => .error errInsufficient
  | first :: b =>
    if negativeTagEnd ≤ first ∧ first ≤ positiveTagStart then
      .ok (first :: b, first.toUInt64.toInt64 - negativeTagEnd.toUInt64.toInt64)
    else if first < negativeTagEnd then
      -- negative value has all bits on by default
      decodeComparableTagged first (negativeTagEnd.toNat - first.toNat) 0xFFFFFFFFFFFFFFFF b
    else decodeComparableTagged first (first.toNat - positiveTagStart.toNat) 0 b

/-! ## Forms

The tag of a number and the bytes behind it. -/

inductive Form : ℤ → ℕ → ℕ → ℕ → Prop
  | small {x : ℕ} (hx : x < 240) : Form x (x + 8) 0 0
  | pos {x n : ℕ} (hn : 1 ≤ n) (hn8 : n ≤ 8) (hx : 240 ≤ x) (hlo : 256 ^ (n - 1) ≤ x) (hhi : x < 256 ^ n) :
      Form x (247 + n) n x
  | neg {x n p : ℕ} (hn : 1 ≤ n) (hn8 : n ≤ 8) (hlo : 256 ^ (n - 1) ≤ x) (hhi : x < 256 ^ n) (hp : p + x = 256 ^ n) :
      Form (-x) (8 - n) n p

def formBytes (tag n p : ℕ) : Bytes := UInt8.ofNat tag :: beBytes n p

theorem comparableUvarint_form (v : UInt64) :
    ∃ tag n p, Form v.toNat tag n p ∧ comparableUvarint v = formBytes tag n p := by
  have hv := v.toNat_lt
  have hfirst : (positiveTagStart - negativeTagEnd).toUInt64.toNat = 239 := rfl
  have hclass : ∀ n, 1 ≤ n ∧ n ≤ 8 → 240 ≤ v.toNat → 256 ^ (n - 1) ≤ v.toNat ∧ v.toNat < 256 ^ n →
      ∃ tag n' p, Form v.toNat tag n' p ∧ UInt8.ofNat (247 + n) :: beBytes n v.toNat = formBytes tag n' p :=
    fun n hn hx hv => ⟨_, n, _, .pos hn.1 hn.2 hx hv.1 hv.2, rfl⟩
  unfold comparableUvarint
  simp only [UInt64.le_iff_toNat_le, UInt64.reduceToNat]
  split_ifs with h0 h1 h2 h3 h4 h5 h6 h7
  · refine ⟨_, _, _, .small (x := v.toNat) (by omega), ?_⟩
    congr 1
    apply UInt8.toNat_inj.mp
    rw [uint8_toNat_ofNat]
    change (v.toNat % 256 + 8) % 256 = _
    omega
  · exact hclass 1 (by omega) (by omega) (by omega)
  · exact hclass 2 (by omega) (by omega) (by omega)
  · exact hclass 3 (by omega) (by omega) (by omega)
  · exact hclass 4 (by omega) (by omega) (by omega)
  · exact hclass 5 (by omega) (by omega) (by omega)
  · exact hclass 6 (by omega) (by omega) (by omega)
  · exact hclass 7 (by omega) (by omega) (by omega)
  · exact hclass 8 (by omega) (by omega) (by omega)

variable {v : Int64}

theorem comparableNegative_form (hneg : v.toInt < 0) :
    ∃ tag n p, Form v.toInt tag n p ∧ comparableNegative v = formBytes tag n p := by
  obtain ⟨hlo, -⟩ := isInt64_toInt v
  obtain ⟨x, hx⟩ : ∃ x : ℕ, v.toInt = -x := ⟨v.toInt.natAbs, by omega⟩
  have hword : v.toUInt64.toNat = 2 ^ 64 - x := by
    have h := toNat_toUInt64 v
    unfold uint64 at h
    omega
  -- the bytes that are written are those of the complement in the class
  have hbytes : ∀ n, n ≤ 8 → 1 ≤ x → x < 256 ^ n → beBytes n v.toUInt64.toNat = beBytes n (256 ^ n - x) := by
    intro n hn hpos hlt
    have hpow : 256 ^ n * 256 ^ (8 - n) = 2 ^ 64 := by
      rw [← pow_add, show n + (8 - n) = 8 by omega]
      norm_num
    have hone : 1 ≤ 256 ^ (8 - n) := Nat.one_le_pow _ _ (by norm_num)
    have hsplit : 2 ^ 64 - x = 256 ^ n * (256 ^ (8 - n) - 1) + (256 ^ n - x) := by
      rw [Nat.mul_sub]
      have hle : 256 ^ n * 1 ≤ 256 ^ n * 256 ^ (8 - n) := Nat.mul_le_mul_left _ hone
      omega
    rw [hword, ← beBytes_mod n (2 ^ 64 - x) le_rfl, hsplit, Nat.mul_add_mod, Nat.mod_eq_of_lt (by omega)]
  have hclass : ∀ n, 1 ≤ n ∧ n ≤ 8 → 256 ^ (n - 1) ≤ x ∧ x < 256 ^ n → ∃ tag n' p, Form (-(x : ℤ)) tag n' p ∧
        UInt8.ofNat (8 - n) :: beBytes n v.toUInt64.toNat = formBytes tag n' p := by
    intro n hn hx'
    refine ⟨8 - n, n, 256 ^ n - x, .neg hn.1 hn.2 hx'.1 hx'.2 (by omega), ?_⟩
    rw [hbytes n hn.2 (by omega) hx'.2]
    rfl
  unfold comparableNegative
  simp only [Int64.le_iff_toInt_le, Int64.reduceToInt, hx]
  split_ifs with h1 h2 h3 h4 h5 h6 h7
  · exact hclass 1 (by omega) (by omega)
  · exact hclass 2 (by omega) (by omega)
  · exact hclass 3 (by omega) (by omega)
  · exact hclass 4 (by omega) (by omega)
  · exact hclass 5 (by omega) (by omega)
  · exact hclass 6 (by omega) (by omega)
  · exact hclass 7 (by omega) (by omega)
  · exact hclass 8 (by omega) (by omega)

theorem encodeComparableVarint_form (v : Int64) :
    ∃ tag n p, Form v.toInt tag n p ∧ encodeComparableVarint [] v = formBytes tag n p := by
  have hsign : v < 0 ↔ v.toInt < 0 := Int64.lt_iff_toInt_lt
  unfold encodeComparableVarint
  by_cases hneg : v.toInt < 0
  · rw [if_pos (hsign.mpr hneg)]
    exact comparableNegative_form hneg
  · have hnat : (v.toUInt64.toNat : ℤ) = v.toInt := by
      obtain ⟨-, hhi⟩ := isInt64_toInt v
      rw [toNat_toUInt64]
      unfold uint64
      omega
    rw [if_neg (mt hsign.mp hneg), ← hnat]
    exact comparableUvarint_form v.toUInt64

/-! ## Order -/

variable {n p tag : ℕ} {x : ℤ}

theorem Form.tag_lt (h : Form x tag n p) : tag < 256 ∧ p < 256 ^ n := by
  cases h with
  | small hx => exact ⟨by omega, by norm_num⟩
  | pos hn hn8 hx hlo hhi => exact ⟨by omega, hhi⟩
  | neg hn hn8 hlo hhi hp =>
    have hpos : 0 < 256 ^ (n - 1) := Nat.pow_pos (by norm_num)
    exact ⟨by omega, by omega⟩

variable {n' p' : ℕ} {y : ℤ}

theorem Form.lt_of_tag_lt {tag' : ℕ} (h : Form x tag n p) (h' : Form y tag' n' p') (hlt : tag < tag') : x < y := by
  cases h with
  | small hx =>
    cases h' with
    | small hy => omega
    | pos hn hn8 hy hlo hhi => omega
    | neg hn hn8 hlo hhi hp => omega
  | @pos a n hn hn8 hx hlo hhi =>
    cases h' with
    | @pos b n' hn' hn8' hy hlo' hhi' =>
      have hmono : 256 ^ n ≤ 256 ^ (n' - 1) := Nat.pow_le_pow_right (by norm_num) (by omega)
      omega
    | _ => omega
  | @neg a n p hn hn8 hlo hhi hp =>
    have hpos : 0 < 256 ^ (n - 1) := Nat.pow_pos (by norm_num)
    cases h' with
    | @neg b n' p' hn' hn8' hlo' hhi' hp' =>
      have hmono : 256 ^ n' ≤ 256 ^ (n - 1) := Nat.pow_le_pow_right (by norm_num) (by omega)
      omega
    | _ => omega

theorem Form.compare_of_tag_eq (h : Form x tag n p) (h' : Form y tag n' p') : n = n' ∧ compare p p' = compare x y := by
  cases h with
  | @small a hx =>
    generalize htag : a + 8 = tag' at h'
    cases h' with
    | small hy =>
      obtain rfl : a = _ := Nat.add_right_cancel htag
      exact ⟨rfl, by simp⟩
    | _ => omega
  | @pos a n hn hn8 hx hlo hhi =>
    generalize htag : 247 + n = tag' at h'
    cases h' with
    | pos hn' hn8' hy hlo' hhi' =>
      refine ⟨by omega, ?_⟩
      apply compare_congr <;> omega
    | _ => omega
  | @neg a n p hn hn8 hlo hhi hp =>
    generalize htag : 8 - n = tag' at h'
    cases h' with
    | @neg b n' p' hn' hn8' hlo' hhi' hp' =>
      obtain rfl : n = n' := by omega
      refine ⟨rfl, ?_⟩
      apply compare_congr <;> omega
    | _ => omega

theorem Form.compare_bytes {tag' : ℕ} (h : Form x tag n p) (h' : Form y tag' n' p') :
    compare (formBytes tag n p) (formBytes tag' n' p') = compare x y := by
  rw [formBytes, formBytes, List.compare_cons_cons, compare_uint8, UInt8.toNat_ofNat_of_lt' h.tag_lt.1,
    UInt8.toNat_ofNat_of_lt' h'.tag_lt.1]
  rcases Nat.lt_trichotomy tag tag' with hlt | heq | hgt
  · rw [Nat.compare_eq_lt.mpr hlt, compare_lt_iff_lt.mpr (h.lt_of_tag_lt h' hlt)]
    rfl
  · subst heq
    obtain ⟨rfl, hcmp⟩ := h.compare_of_tag_eq h'
    rw [Nat.compare_eq_eq.mpr rfl, compare_beBytes h.tag_lt.2 h'.tag_lt.2, hcmp]
    rfl
  · rw [Nat.compare_eq_gt.mpr hgt, compare_gt_iff_gt.mpr (h'.lt_of_tag_lt h hgt)]
    rfl

/-! ## Round trips -/

theorem shiftByte_toNat (v : UInt64) (c : UInt8) :
    (v <<< 8 ||| c.toUInt64).toNat = (v.toNat * 256 + c.toNat) % 2 ^ 64 := by
  have hc := c.toNat_lt
  have hshift : (v <<< 8).toNat = 2 ^ 8 * (v.toNat % 2 ^ 56) := by
    rw [UInt64.toNat_shiftLeft, show (8 : UInt64).toNat % 64 = 8 from rfl]
    omega
  rw [UInt64.toNat_or, hshift, UInt8.toNat_toUInt64, ← Nat.two_pow_add_eq_or_of_lt hc]
  omega

theorem shiftBytes_toNat (v : UInt64) (b : Bytes) :
    (shiftBytes v b).toNat = (v.toNat * 256 ^ b.length + beNat b) % 2 ^ 64 := by
  induction b generalizing v with
  | nil =>
    have hv := v.toNat_lt
    rw [length_nil, beNat]
    show v.toNat = _
    omega
  | cons c b ih =>
    show (shiftBytes (v <<< 8 ||| c.toUInt64) b).toNat = _
    rw [ih, shiftByte_toNat, length_cons, beNat, Nat.add_mod, Nat.mod_mul_mod, ← Nat.add_mod]
    congr 1
    ring

theorem shiftBytes_pos {x : ℕ} (hx : x < 2 ^ 64) (hhi : x < 256 ^ n) : (shiftBytes 0 (beBytes n x)).toNat = x := by
  rw [shiftBytes_toNat, beNat_beBytes_of_lt hhi, show (0 : UInt64).toNat = 0 from rfl, Nat.zero_mul, Nat.zero_add,
    Nat.mod_eq_of_lt hx]

theorem shiftBytes_neg {x : ℕ} (hn8 : n ≤ 8) (hx : 0 < x) (hhi : x < 256 ^ n) (hp : p + x = 256 ^ n) :
    (shiftBytes 0xFFFFFFFFFFFFFFFF (beBytes n p)).toNat = 2 ^ 64 - x := by
  have hle : 256 ^ n ≤ 2 ^ 64 := by
    calc 256 ^ n ≤ 256 ^ 8 := Nat.pow_le_pow_right (by norm_num) hn8
      _ = 2 ^ 64 := by norm_num
  rw [shiftBytes_toNat, beNat_beBytes_of_lt (by omega), length_beBytes,
    show (0xFFFFFFFFFFFFFFFF : UInt64).toNat = 2 ^ 64 - 1 from rfl, Nat.sub_mul, Nat.one_mul]
  have hsum : 2 ^ 64 * 256 ^ n - 256 ^ n + p = 2 ^ 64 * (256 ^ n - 1) + (2 ^ 64 - x) := by omega
  rw [hsum, Nat.mul_add_mod, Nat.mod_eq_of_lt (by omega)]

theorem slices_beBytes (n p : ℕ) (r : Bytes) : (sliceTo (beBytes n p ++ r) n : Res Bytes) = .ok (beBytes n p) ∧
    (sliceFrom (beBytes n p ++ r) n : Res Bytes) = .ok r := by
  have hto := sliceTo_append (ε := Err) (beBytes n p) r
  have hfrom := sliceFrom_append (ε := Err) (beBytes n p) r
  rw [length_beBytes] at hto hfrom
  exact ⟨hto, hfrom⟩

theorem Form.decodeComparableUvarint {v : UInt64} (h : Form v.toNat tag n p) (r : Bytes) :
    decodeComparableUvarint (formBytes tag n p ++ r) = .ok (r, v) := by
  generalize hx : (v.toNat : ℤ) = x at h
  have htag := UInt8.toNat_ofNat_of_lt' h.tag_lt.1
  rw [formBytes, cons_append, Codec.decodeComparableUvarint]
  simp only [UInt8.lt_iff_toNat_lt, UInt8.le_iff_toNat_le, htag]
  cases h with
  | small hx' =>
    rw [if_neg (by change ¬ _ < 8; omega), if_pos (by change _ ≤ 247; omega)]
    congr 2
    apply UInt64.toNat_inj.mp
    rw [UInt64.toNat_sub, UInt8.toNat_toUInt64, UInt8.toNat_toUInt64, htag]
    change (2 ^ 64 - 8 + _) % 2 ^ 64 = _
    omega
  | pos hn hn8 hx' hlo hhi =>
    have hlen : 247 + n - positiveTagStart.toNat = n := by
      change 247 + n - 247 = n
      omega
    have hv := v.toNat_lt
    have hval : shiftBytes 0 (beBytes n p) = v := by
      apply UInt64.toNat_inj.mp
      rw [shiftBytes_pos (by omega) hhi]
      omega
    rw [if_neg (by change ¬ _ < 8; omega), if_neg (by change ¬ _ ≤ 247; omega), hlen,
      if_neg (by rw [length_append, length_beBytes]; omega), (slices_beBytes n _ r).1, (slices_beBytes n _ r).2,
      ok_bind, ok_bind, pure_eq, hval]
  | neg hn hn8 hlo hhi hp =>
    have hpos : 0 < 256 ^ (n - 1) := Nat.pow_pos (by norm_num)
    omega

theorem decodeComparableTagged_beBytes {first : UInt8} {w : UInt64}
    (hval : (shiftBytes w (beBytes n p)).toInt64 = v) (hpos : positiveTagStart < first → 0 ≤ v.toInt)
    (hneg : first < negativeTagEnd → v.toInt < 0) (r : Bytes) :
    decodeComparableTagged first n w (beBytes n p ++ r) = .ok (r, v) := by
  have hword := (shiftBytes w (beBytes n p)).toNat_lt
  have hint := toInt_toInt64 (shiftBytes w (beBytes n p))
  rw [hval] at hint
  unfold int64 at hint
  have hbig : ¬ (positiveTagStart < first ∧ 0x7FFFFFFFFFFFFFFF < shiftBytes w (beBytes n p)) := by
    rintro ⟨htag, hlt⟩
    have hle := hpos htag
    rw [UInt64.lt_iff_toNat_lt] at hlt
    change 2 ^ 63 - 1 < _ at hlt
    omega
  have hsmall : ¬ (first < negativeTagEnd ∧ shiftBytes w (beBytes n p) ≤ 0x7FFFFFFFFFFFFFFF) := by
    rintro ⟨htag, hle⟩
    have hlt := hneg htag
    rw [UInt64.le_iff_toNat_le] at hle
    change _ ≤ 2 ^ 63 - 1 at hle
    omega
  rw [decodeComparableTagged, if_neg (by rw [length_append, length_beBytes]; omega), (slices_beBytes n p r).1,
    (slices_beBytes n p r).2, ok_bind]
  rw [if_neg hbig, if_neg hsmall, ok_bind, pure_eq, hval]

theorem Form.decodeComparableVarint (h : Form v.toInt tag n p) (r : Bytes) : decodeComparableVarint (formBytes tag n p
    ++ r) = .ok (if 0 ≤ v.toInt ∧ v.toInt < 240 then formBytes tag n p ++ r else r, v) := by
  obtain ⟨hvlo, hvhi⟩ := isInt64_toInt v
  generalize hx : v.toInt = x at h ⊢
  have htag := UInt8.toNat_ofNat_of_lt' h.tag_lt.1
  have hend : negativeTagEnd.toNat = 8 := rfl
  have hstart : positiveTagStart.toNat = 247 := rfl
  have hmiddle : negativeTagEnd ≤ UInt8.ofNat tag ∧ UInt8.ofNat tag ≤ positiveTagStart ↔ 8 ≤ tag ∧ tag ≤ 247 := by
    rw [UInt8.le_iff_toNat_le, UInt8.le_iff_toNat_le, htag, hend, hstart]
  have hlow : UInt8.ofNat tag < negativeTagEnd ↔ tag < 8 := by rw [UInt8.lt_iff_toNat_lt, htag, hend]
  have hhigh : positiveTagStart < UInt8.ofNat tag ↔ 247 < tag := by rw [UInt8.lt_iff_toNat_lt, htag, hstart]
  rw [formBytes, cons_append, Codec.decodeComparableVarint]
  cases h with
  | @small x hx' =>
    rw [if_pos (hmiddle.mpr (by omega)), if_pos (by omega)]
    have hval : (UInt8.ofNat (x + 8)).toUInt64.toInt64 - negativeTagEnd.toUInt64.toInt64 = v := by
      apply Int64.toInt_inj.mp
      rw [toInt_sub, toInt_toInt64, UInt8.toNat_toUInt64, htag, hx]
      change int64 (int64 ((x + 8 : ℕ) : ℤ) - 8) = _
      unfold int64
      omega
    rw [hval]
  | pos hn hn8 hx' hlo hhi =>
    have hint : (shiftBytes 0 (beBytes n p)).toInt64 = v := by
      apply Int64.toInt_inj.mp
      rw [toInt_toInt64, shiftBytes_pos (by omega) hhi, hx]
      unfold int64
      omega
    rw [if_neg (mt hmiddle.mp (by omega)), if_neg (mt hlow.mp (by omega)), htag, hstart, Nat.add_sub_cancel_left,
      decodeComparableTagged_beBytes hint (fun _ => by omega) (fun hlt => absurd (hlow.mp hlt) (by omega)),
      if_neg (by omega)]
  | neg hn hn8 hlo hhi hp =>
    have hpos : 0 < 256 ^ (n - 1) := Nat.pow_pos (by norm_num)
    have hint : (shiftBytes 0xFFFFFFFFFFFFFFFF (beBytes n p)).toInt64 = v := by
      apply Int64.toInt_inj.mp
      rw [toInt_toInt64, shiftBytes_neg hn8 (by omega) hhi hp, hx]
      unfold int64
      omega
    rw [if_neg (mt hmiddle.mp (by omega)), if_pos (hlow.mpr (by omega)), htag, hend, Nat.sub_sub_self hn8,
      decodeComparableTagged_beBytes hint (fun hlt => absurd (hhigh.mp hlt) (by omega)) (fun _ => by omega),
      if_neg (by omega)]

/-! ## The number formats -/

theorem decodeComparableUvarint_encode (v : UInt64) (r : Bytes) :
    decodeComparableUvarint (encodeComparableUvarint [] v ++ r) = .ok (r, v) := by
  obtain ⟨tag, n, p, hform, henc⟩ := comparableUvarint_form v
  rw [encodeComparableUvarint, henc]
  exact hform.decodeComparableUvarint r

theorem decodeComparableVarint_encode (v : Int64) (r : Bytes) :
    decodeComparableVarint (encodeComparableVarint [] v ++ r) =
      .ok (if 0 ≤ v.toInt ∧ v.toInt < 240 then encodeComparableVarint [] v ++ r else r, v) := by
  obtain ⟨tag, n, p, hform, henc⟩ := encodeComparableVarint_form v
  rw [henc]
  exact hform.decodeComparableVarint r

theorem compare_encodeComparableUvarint (v w : UInt64) :
    compare (encodeComparableUvarint [] v) (encodeComparableUvarint [] w) = compare v.toNat w.toNat := by
  obtain ⟨tag, n, p, hform, henc⟩ := comparableUvarint_form v
  obtain ⟨tag', n', p', hform', henc'⟩ := comparableUvarint_form w
  rw [encodeComparableUvarint, encodeComparableUvarint, nil_append, nil_append, henc, henc', hform.compare_bytes hform']
  apply compare_congr <;> omega

theorem compare_encodeComparableVarint (v w : Int64) :
    compare (encodeComparableVarint [] v) (encodeComparableVarint [] w) = compare v.toInt w.toInt := by
  obtain ⟨tag, n, p, hform, henc⟩ := encodeComparableVarint_form v
  obtain ⟨tag', n', p', hform', henc'⟩ := encodeComparableVarint_form w
  rw [henc, henc']
  exact hform.compare_bytes hform'

/-- Both formats keep the value, the rest and the order, except that the signed decoder does not cut off a number of
one byte. -/
theorem comparableVarint_iff (v w : Int64) (u t : UInt64) (r : Bytes) :
    (decodeComparableVarint (encodeComparableVarint [] v ++ r) = .ok (r, v) ∧
      decodeComparableUvarint (encodeComparableUvarint [] u ++ r) = .ok (r, u) ∧
      compare (encodeComparableVarint [] v) (encodeComparableVarint [] w) = compare v.toInt w.toInt ∧
      compare (encodeComparableUvarint [] u) (encodeComparableUvarint [] t) = compare u.toNat t.toNat) ↔
    ¬ (0 ≤ v.toInt ∧ v.toInt ≤ 239) := by
  have hrest : (0 ≤ v.toInt ∧ v.toInt < 240) ↔ (0 ≤ v.toInt ∧ v.toInt ≤ 239) := by omega
  rw [decodeComparableVarint_encode]
  constructor
  · rintro ⟨hdecode, _⟩ hsmall
    rw [if_pos (hrest.mpr hsmall), ok.injEq, Prod.mk.injEq] at hdecode
    -- the encoding is not empty
    obtain ⟨tag, n, p, _, henc⟩ := encodeComparableVarint_form v
    have hlen := congrArg length hdecode.1
    rw [henc, formBytes, cons_append, length_cons, length_append] at hlen
    omega
  · intro hnot
    rw [if_neg (mt hrest.mp hnot)]
    exact ⟨rfl, decodeComparableUvarint_encode u r, compare_encodeComparableVarint v w,
      compare_encodeComparableUvarint u t⟩

/-- Zero is one byte, which is left. -/
theorem decodeComparableVarint_zero : encodeComparableVarint [] 0 = [8] ∧
    decodeComparableVarint (encodeComparableVarint [] 0 ++ []) = .ok ([8], 0) := by decide +kernel

end Tidb.Codec
