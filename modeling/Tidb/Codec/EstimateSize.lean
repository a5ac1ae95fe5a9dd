import Tidb.Codec.Order
import Tidb.Lib.Word64

/-!
# The size of an encoded value (`EstimateValueSize` of `util/codec/codec.go`)

The size of the bytes that `EncodeValue` writes is computed without writing them: the bytes of a varint are counted by
shifts, and those of a decimal by its precision and scale.
-/

namespace Tidb.Codec

open GoLang ByteNum Tidb.Types List Outcome

def valueSizeLoop (size v : ℕ) : ℕ :=
  if 0 < v then valueSizeLoop (size + 1) (v / 128) else size
  termination_by v

/-- The number is not negative after the first step, and its shifts are divisions. -/
def valueSizeOfSignedInt (v : Int64) : ℕ :=
  let v := if v < 0 then 0 - v - 1 else v
  valueSizeLoop 2 (v.toInt.toNat / 64)

def valueSizeOfUnsignedInt (v : UInt64) : ℕ := valueSizeLoop 2 (v.toNat / 128)

def valueSizeOfBytes (v : Bytes) : ℕ := valueSizeOfSignedInt (Int64.ofNat v.length) + v.length

def givenScale (dec : MyDecimal) (precision frac : Int) : Res (Int × Int) :=
  if precision = 0 then precisionAndFrac dec else .ok (precision, frac)

def valueSizeOfDecimal (dec : MyDecimal) (precision frac : Int) : Res Int := do
  let (precision, frac) ← givenScale dec precision frac
  let binSize ← decimalBinSize precision frac
  return binSize + 2

def estimateValueSize (sc : Option StatementContext) : Datum → Res Int
  | .int64 i => .ok (valueSizeOfSignedInt i)
  | .uint64 u => .ok (valueSizeOfUnsignedInt u)
  | .float32 _ | .float64 _ | .mysqlTime _ | .mysqlDuration _ => .ok 9
  | .string b _ | .bytes b => .ok (valueSizeOfBytes b)
  | .mysqlDecimal d length frac => do
    let l ← valueSizeOfDecimal d length frac
    return l + 1
  | .mysqlEnum e _ => .ok (valueSizeOfUnsignedInt e.value)
  | .mysqlSet s _ => .ok (valueSizeOfUnsignedInt s.value)
  | .mysqlBit l | .binaryLiteral l => .ok (valueSizeOfUnsignedInt (binaryLiteralToInt l sc).1)
  | .mysqlJSON j => .ok (2 + j.value.length)
  | .null | .minNotNull | .maxValue => .ok 1
  | .interface => .error (.errorf "unsupported encode type %d" [.num Datum.interface.kind])
  | .raw s => .error (.errorf "unsupported encode type %d" [.num (Datum.raw s).kind])

/-! ## Varints -/

theorem valueSizeLoop_add (k size v : ℕ) : valueSizeLoop (size + k) v = valueSizeLoop size v + k := by
  induction size, v using valueSizeLoop.induct with
  | case1 size v hpos ih =>
    rw [valueSizeLoop, if_pos hpos, show size + k + 1 = size + 1 + k by omega, ih]
    conv_rhs => rw [valueSizeLoop, if_pos hpos]
  | case2 size v hzero =>
    rw [valueSizeLoop, if_neg hzero]
    conv_rhs => rw [valueSizeLoop, if_neg hzero]

theorem length_putUvarintLoop_eq (n x : ℕ) (hx : x < 128 ^ (n + 1)) :
    (putUvarintLoop n x).length = valueSizeLoop 1 (x / 128) := by
  induction n generalizing x with
  | zero =>
    rw [valueSizeLoop, if_neg (by omega)]
    rfl
  | succ n ih =>
    rw [putUvarintLoop]
    split
    · rw [valueSizeLoop, if_neg (by omega)]
      rfl
    · rw [length_cons, ih (x / 128) (by omega)]
      conv_rhs => rw [valueSizeLoop, if_pos (by omega), valueSizeLoop_add 1 1]

theorem length_putUvarint_eq (u : UInt64) : (putUvarint u).length = valueSizeLoop 1 (u.toNat / 128) := by
  have hu := u.toNat_lt
  exact length_putUvarintLoop_eq 9 u.toNat (by omega)

theorem valueSizeOfUnsignedInt_eq (u : UInt64) : valueSizeOfUnsignedInt u = (putUvarint u).length + 1 := by
  rw [length_putUvarint_eq]
  exact valueSizeLoop_add 1 1 _

theorem valueSizeOfSignedInt_eq (v : Int64) : valueSizeOfSignedInt v = (putVarint v).length + 1 := by
  have hzigzag := zigzag_toNat v
  have hword := int64_toInt_eq v
  have hlt := v.toUInt64.toNat_lt
  have hsign := int64_lt_zero_iff v
  rw [valueSizeOfSignedInt, putVarint, length_putUvarint_eq, ← valueSizeLoop_add 1 1]
  congr 1
  by_cases hneg : v < 0
  · have hge := hsign.mp hneg
    rw [if_neg (by omega)] at hzigzag hword
    rw [if_pos hneg, toInt_sub, toInt_sub]
    change (int64 (int64 (0 - _) - 1)).toNat / 64 = _
    unfold int64
    omega
  · have hge := mt hsign.mpr hneg
    rw [if_pos (by omega)] at hzigzag hword
    rw [if_neg hneg]
    omega

/-! ## Decimals -/

def digitsSize (n : ℤ) : ℤ := (4 * n + 8) / 9

theorem dig2bytes_of_lt {x : ℤ} (h0 : 0 ≤ x) (h9 : x < 9) : dig2bytes x = .ok ((x + 1) / 2) := by
  interval_cases x <;> rfl

theorem digits_split (n : ℤ) : (n - n.tdiv 9 * 9 < 0 ↔ ¬ (0 ≤ n ∨ 9 ∣ n)) ∧ n - n.tdiv 9 * 9 < 9 ∧
    (0 ≤ n - n.tdiv 9 * 9 → n.tdiv 9 * 4 + (n - n.tdiv 9 * 9 + 1) / 2 = digitsSize n) := by
  unfold digitsSize
  rcases le_or_gt 0 n with hn | hn
  · rw [Int.tdiv_eq_ediv_of_nonneg hn]
    omega
  · obtain ⟨m, rfl⟩ : ∃ m, n = -m := ⟨-n, (neg_neg n).symm⟩
    rw [Int.neg_tdiv, Int.tdiv_eq_ediv_of_nonneg (by omega)]
    omega

theorem decimalBinSize_digitsSize {p f : ℤ} (hf : 0 ≤ f) :
    decimalBinSize p f = if f ≤ p ∨ 9 ∣ p - f then .ok
      (digitsSize (p - f) + digitsSize f) else .error .errBadNumber := by
  obtain ⟨hneg, hlt, hsize⟩ := digits_split (p - f)
  obtain ⟨hnegf, hltf, hsizef⟩ := digits_split f
  unfold decimalBinSize digitsPerWord wordSize
  by_cases hwhole : f ≤ p ∨ 9 ∣ p - f
  · rw [if_neg (by omega), if_pos hwhole, dig2bytes_of_lt (by omega) hlt, dig2bytes_of_lt (by omega) hltf,
      ok_bind, ok_bind, pure_eq, add_assoc, hsize (by omega), hsizef (by omega)]
  · rw [if_neg hwhole, if_pos (.inl (hneg.mpr fun h => hwhole (h.imp_left fun h => by omega)))]

/-! ## Sizes -/

/-- The encoder writes no more than thirty digits of a fraction; the size must be the same without that. -/
def SizeKept (p f : ℤ) : Prop :=
  f ≤ maxDecimalScale ∨ (f ≤ p ∨ 9 ∣ p - f) ∧
    digitsSize (p - f) + digitsSize f = digitsSize (p - maxDecimalScale) + digitsSize maxDecimalScale

theorem decimalScale_eq (d : MyDecimal) (precision frac : Int) : decimalScale d precision frac =
    givenScale d precision frac >>= fun r => .ok (r.1, if maxDecimalScale < r.2 then maxDecimalScale else r.2) := by
  unfold decimalScale givenScale
  split <;> rfl

theorem estimateValueSize_decimal {d : MyDecimal} {length frac : ℕ} {p f : ℤ} {out : Bytes} {err : Option Err}
    (hscale : givenScale d length frac = .ok (p, f))
    (hwrite : writeBin d p (if maxDecimalScale < f then maxDecimalScale else f) [] [] = .ok (out, err))
    (herr : err ≠ some .errBadNumber) (sc : Option StatementContext) :
    estimateValueSize sc (.mysqlDecimal d length frac) = .ok ((out.length + 3 : ℕ) : ℤ) ↔ SizeKept p f := by
  obtain ⟨-, hsize⟩ := (writeBin_size hwrite).resolve_left fun h => herr h.2
  have hest : estimateValueSize sc (.mysqlDecimal d length frac) = decimalBinSize p f >>= fun n => .ok (n + 2 + 1) := by
    rw [estimateValueSize, valueSizeOfDecimal, hscale]
    simp only [ok_bind, bind_assoc, pure_eq]
  rw [hest]
  unfold SizeKept
  by_cases hle : f ≤ maxDecimalScale
  · rw [if_neg (not_lt.mpr hle)] at hsize
    rw [hsize, ok_bind]
    exact iff_of_true (by push_cast; ring_nf) (.inl hle)
  · rw [if_pos (not_le.mp hle)] at hsize
    rw [maxDecimalScale] at hsize hle ⊢
    rw [decimalBinSize_digitsSize (by norm_num)] at hsize
    rw [decimalBinSize_digitsSize (by omega), or_iff_right hle]
    split at hsize
    · rw [ok.injEq] at hsize
      by_cases hwhole : f ≤ p ∨ 9 ∣ p - f
      · rw [if_pos hwhole, ok_bind, ok.injEq, and_iff_right hwhole]
        push_cast
        constructor <;> intro h <;> linarith
      · rw [if_neg hwhole]
        exact iff_of_false (by simp) fun h => hwhole h.1
    · cases hsize

theorem length_encodeSignedInt (v : Int64) : (encodeSignedInt [] v false).length = valueSizeOfSignedInt v := by
  rw [valueSizeOfSignedInt_eq]
  simp [encodeSignedInt, encodeVarint]

theorem length_encodeUnsignedInt (u : UInt64) : (encodeUnsignedInt [] u false).length = valueSizeOfUnsignedInt u := by
  rw [valueSizeOfUnsignedInt_eq]
  simp [encodeUnsignedInt, encodeUvarint]

theorem length_encodeFlaggedBytes (v : Bytes) : (encodeFlaggedBytes [] v false).length = valueSizeOfBytes v := by
  rw [valueSizeOfBytes, valueSizeOfSignedInt_eq]
  simp [encodeFlaggedBytes, encodeCompactBytes, encodeVarint]
  ring

section Value

variable {env : Env} {sc : Option StatementContext} {d : Datum} {b : Bytes}

theorem encodeStep_of_encodeValue (h : encodeValue env sc [] [d] = .ok b) :
    encodeStep env sc false [] none d = .ok (b, none) := by
  unfold encodeValue encode encodeLoop at h
  simp only [bind_eq_ok] at h
  obtain ⟨⟨b₁, err⟩, ⟨⟨b₂, err₂⟩, hstep, hloop⟩, h⟩ := h
  cases hloop
  cases err₂ with
  | some e => cases h
  | none =>
    cases h
    exact hstep

theorem estimateValueSize_of_encodeStep {err : Option Err} (h : encodeStep env sc false [] none d = .ok (b, err))
    (hne : ∀ dec length frac, d ≠ .mysqlDecimal dec length frac) : estimateValueSize sc d = .ok (b.length : Int) := by
  cases d with
  | mysqlDecimal dec length frac => exact absurd rfl (hne dec length frac)
  | int64 i =>
    cases h
    rw [estimateValueSize, length_encodeSignedInt]
  | uint64 | mysqlEnum | mysqlSet =>
    cases h
    rw [estimateValueSize, length_encodeUnsignedInt]
  | mysqlBit l | binaryLiteral l =>
    rw [encodeStep, ok.injEq, Prod.mk.injEq] at h
    rw [estimateValueSize, ← h.1, length_encodeUnsignedInt]
  | bytes s =>
    cases h
    rw [estimateValueSize, length_encodeFlaggedBytes]
  | string s c =>
    cases h
    rw [estimateValueSize, encodeString, if_neg (by simp), length_encodeFlaggedBytes]
  | mysqlTime t =>
    simp only [encodeStep, encodeMySQLTime, bind_eq_ok] at h
    obtain ⟨b', ⟨t', _, hb'⟩, hb⟩ := h
    cases hb'
    cases hb
    rfl
  | mysqlJSON j =>
    cases h
    rw [estimateValueSize]
    simp
    ring
  | interface => cases h
  | raw s => cases h
  | _ =>
    cases h
    simp [estimateValueSize, encodeFloat, length_encodeUint, length_encodeInt]

/-- The estimate is the size of the value that is written, unless it is a decimal whose size the longer fraction
changes. -/
theorem estimateValueSize_iff (h : encodeValue env sc [] [d] = .ok b) :
    estimateValueSize sc d = .ok (b.length : Int) ↔
      ∀ dec length frac p f, d = .mysqlDecimal dec length frac → givenScale dec length frac = .ok (p, f) →
        SizeKept p f := by
  have hstep := encodeStep_of_encodeValue h
  by_cases hdec : ∃ dec length frac, d = .mysqlDecimal dec length frac
  · obtain ⟨dec, length, frac, rfl⟩ := hdec
    rw [encodeStep, encodeDecimal, decimalScale_eq] at hstep
    simp only [bind_eq_ok] at hstep
    obtain ⟨⟨out, err⟩, ⟨⟨p', f'⟩, ⟨⟨p, f⟩, hscale, hclamp⟩, hwrite⟩, err', herr, hout⟩ := hstep
    cases hclamp
    rw [writeBin_append, bind_eq_ok] at hwrite
    obtain ⟨⟨bin, err₁⟩, hwrite, hbin⟩ := hwrite
    cases hbin
    cases hout
    have hok : err₁ ≠ some .errBadNumber := by
      rintro rfl
      cases herr
    -- the flag, the precision and the scale are in front
    have hlen : ((([] ++ [decimalFlag] ++ [UInt8.ofNat (p % 256).toNat, UInt8.ofNat ((if maxDecimalScale < f then
        maxDecimalScale else f) % 256).toNat] ++ bin).length : ℕ) : ℤ) = ((bin.length + 3 : ℕ) : ℤ) := by
      simp
      ring
    rw [hlen, estimateValueSize_decimal hscale hwrite hok sc]
    constructor
    · rintro hkept dec' length' frac' p' f' hd hscale'
      cases hd
      rw [hscale] at hscale'
      obtain ⟨rfl, rfl⟩ := hscale'
      exact hkept
    · intro hall
      exact hall dec length frac p f rfl hscale
  · have hne : ∀ dec length frac, d ≠ .mysqlDecimal dec length frac :=
      fun dec length frac hd => hdec ⟨dec, length, frac, hd⟩
    exact iff_of_true (estimateValueSize_of_encodeStep hstep hne) fun dec length frac _ _ hd =>
      absurd hd (hne dec length frac)

end Value

def truncates : StatementContext := ⟨.utc, true, false, false⟩

/-- `1 + 1e-31` is written with two digits in front of the point, which take one byte like the one digit it has. -/
theorem estimateValueSize_iff_oneDigit :
    let d : MyDecimal := ⟨1, 31, 31, false, ⟨[1, 0, 0, 0, 100000, 0, 0, 0, 0], rfl⟩⟩
    ∃ b, encodeValue fixedEnv (some truncates) [] [.mysqlDecimal d 0 0] = .ok b ∧ SizeKept 32 31 ∧
      estimateValueSize (some truncates) (.mysqlDecimal d 0 0) = .ok (b.length : Int) := by
  intro d
  have hscale : givenScale d 0 0 = .ok (32, 31) := by decide +kernel
  have hkept : SizeKept 32 31 := by
    unfold SizeKept
    decide
  have henc : encodeValue fixedEnv (some truncates) [] [.mysqlDecimal d 0 0] =
      .ok [6, 32, 30, 0x81, 0, 0, 0, 0, 0, 0, 0, 0, 0, 0, 0, 0, 0, 0] := by decide +kernel
  refine ⟨_, henc, hkept, (estimateValueSize_iff henc).mpr ?_⟩
  rintro dec length frac p f ⟨⟩ hgiven
  cases hscale.symm.trans hgiven
  exact hkept

/-- `1e-31`, the least decimal with 31 digits behind the point. -/
def tinyDecimal : MyDecimal := ⟨0, 31, 31, false, ⟨[0, 0, 0, 100000, 0, 0, 0, 0, 0], rfl⟩⟩

/-- Thirty digits and one in front of the point take a byte more than thirty-one digits. -/
theorem estimateValueSize_tinyDecimal :
    encodeValue fixedEnv (some truncates) [] [.mysqlDecimal tinyDecimal 0 0] =
        .ok [6, 31, 30, 0x80, 0, 0, 0, 0, 0, 0, 0, 0, 0, 0, 0, 0, 0, 0] ∧
      estimateValueSize (some truncates) (.mysqlDecimal tinyDecimal 0 0) = .ok 17 := by decide +kernel

end Tidb.Codec
