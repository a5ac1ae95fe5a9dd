import Tidb.Codec.Codec
import Tidb.Types.WriteBin

/-!
# What `encode` appends

`encode` appends the code of each datum in turn.  The code depends on the datum alone: neither on the
bytes in front of it nor on the error that the loop carries along.
-/

namespace Tidb.Codec

open GoLang ByteNum Tidb.Types List Outcome

variable {env : Env} {sc : Option StatementContext} {comparable : Bool}

/-! ## The helpers append -/

theorem encodeSignedInt_append (b : Bytes) (v : Int64) :
    encodeSignedInt b v comparable = b ++ encodeSignedInt [] v comparable := by
  cases comparable <;> simp [encodeSignedInt, encodeInt, encodeVarint]

theorem encodeUnsignedInt_append (b : Bytes) (v : UInt64) :
    encodeUnsignedInt b v comparable = b ++ encodeUnsignedInt [] v comparable := by
  cases comparable <;> simp [encodeUnsignedInt, encodeUint, encodeUvarint]

theorem encodeFlaggedBytes_append (b v : Bytes) :
    encodeFlaggedBytes b v comparable = b ++ encodeFlaggedBytes [] v comparable := by
  cases comparable <;>
    simp [encodeFlaggedBytes, encodeBytes, encodeCompactBytes, encodeVarint]

theorem encodeString_append (b v : Bytes) (c : Collation) :
    encodeString env b v c comparable = b ++ encodeString env [] v c comparable := by
  simp only [encodeString]
  split <;> exact encodeFlaggedBytes_append _ _

theorem encodeDecimal_append (b spare : Bytes) (d : MyDecimal) (precision frac : Int) : encodeDecimal b spare d
    precision frac = encodeDecimal [] spare d precision frac >>= fun r => .ok (b ++ r.1, r.2) := by
  simp only [encodeDecimal, bind_assoc]
  congr 1
  funext r
  rw [writeBin_append, writeBin_append _ _ _ ([] ++ _)]
  simp only [bind_assoc, ok_bind, nil_append, append_assoc]

theorem encodeStep_append (b : Bytes) (err : Option Err) (d : Datum) : encodeStep env sc comparable b err d =
      encodeStep env sc comparable [] err d >>= fun r => .ok (b ++ r.1, r.2) := by
  cases d with
  | mysqlDecimal d length frac =>
    simp only [encodeStep]
    rw [encodeDecimal_append, encodeDecimal_append ([] ++ _)]
    simp only [bind_assoc, pure_eq, ok_bind, nil_append, append_assoc]
  | mysqlTime t =>
    simp only [encodeStep, encodeMySQLTime, bind_assoc, pure_eq, ok_bind, encodeUint, nil_append, append_assoc]
  | int64 | uint64 | mysqlEnum | mysqlSet | mysqlBit | binaryLiteral | bytes | string =>
    simp only [encodeStep, ok_bind]
    first
    | rw [encodeSignedInt_append]
    | rw [encodeUnsignedInt_append]
    | rw [encodeFlaggedBytes_append]
    | rw [encodeString_append]
  | _ => simp [encodeStep, encodeFloat, encodeUint, encodeInt]

/-! ## Codes -/

def Code (env : Env) (sc : Option StatementContext) (comparable : Bool) (d : Datum) (code : Bytes) : Prop :=
  ∃ err err', encodeStep env sc comparable [] err d = .ok (code, err')

theorem encodeLoop_codes {ds : List Datum} {b b' : Bytes} {err err' : Option Err}
    (h : encodeLoop env sc comparable ds b err = .ok (b', err')) :
    ∃ cs, List.Forall₂ (Code env sc comparable) ds cs ∧ b' = b ++ cs.flatten := by
  induction ds generalizing b err with
  | nil =>
    cases h
    exact ⟨[], .nil, by simp⟩
  | cons d ds ih =>
    rw [encodeLoop, encodeStep_append, bind_assoc, bind_eq_ok] at h
    obtain ⟨⟨c, err₁⟩, hc, h⟩ := h
    obtain ⟨cs, hcs, rfl⟩ := ih h
    exact ⟨c :: cs, .cons ⟨err, err₁, hc⟩ hcs, by simp⟩

theorem encode_codes {ds : List Datum} {b b' : Bytes} (h : encode env sc b ds comparable = .ok b') :
    ∃ cs, List.Forall₂ (Code env sc comparable) ds cs ∧ b' = b ++ cs.flatten := by
  rw [encode, bind_eq_ok] at h
  obtain ⟨⟨b₁, err⟩, hloop, h⟩ := h
  cases err with
  | some e => cases h
  | none =>
    cases h
    exact encodeLoop_codes hloop

section Kinds

variable {c : Bytes}

theorem code_null : Code env sc comparable .null c ↔ c = [nilFlag] := by simp [Code, encodeStep, eq_comm]

theorem code_minNotNull : Code env sc comparable .minNotNull c ↔ c = [bytesFlag] := by simp [Code, encodeStep, eq_comm]

theorem code_maxValue : Code env sc comparable .maxValue c ↔ c = [maxFlag] := by simp [Code, encodeStep, eq_comm]

theorem code_int64 {i : Int64} : Code env sc true (.int64 i) c ↔ c = intFlag :: encodeInt [] i := by
  simp [Code, encodeStep, encodeSignedInt, encodeInt, eq_comm]

theorem code_uint64 {u : UInt64} : Code env sc true (.uint64 u) c ↔ c = uintFlag :: encodeUint [] u := by
  simp [Code, encodeStep, encodeUnsignedInt, encodeUint, eq_comm]

variable {l : Collation}

theorem code_mysqlEnum {e : Named} : Code env sc true (.mysqlEnum e l) c ↔ c = uintFlag :: encodeUint [] e.value := by
  simp [Code, encodeStep, encodeUnsignedInt, encodeUint, eq_comm]

theorem code_mysqlSet {e : Named} : Code env sc true (.mysqlSet e l) c ↔ c = uintFlag :: encodeUint [] e.value := by
  simp [Code, encodeStep, encodeUnsignedInt, encodeUint, eq_comm]

theorem code_mysqlDuration {d : Duration} :
    Code env sc comparable (.mysqlDuration d) c ↔ c = durationFlag :: encodeInt [] d.duration := by
  simp [Code, encodeStep, encodeInt, eq_comm]

theorem code_bytes {s : Bytes} : Code env sc true (.bytes s) c ↔ c = bytesFlag :: encodeBytes [] s := by
  simp [Code, encodeStep, encodeFlaggedBytes, encodeBytes, eq_comm]

theorem code_string {s : Bytes} :
    Code env sc true (.string s l) c ↔ c = bytesFlag :: encodeBytes [] (env.collatorKey l s) := by
  cases h : env.newCollationEnabled <;>
    simp [Code, encodeStep, encodeString, encodeFlaggedBytes, encodeBytes, Env.collatorKey, h, eq_comm]

theorem code_float32 {bits : UInt64} :
    Code env sc comparable (.float32 bits) c ↔ c = floatFlag :: encodeFloat [] bits := by
  simp [Code, encodeStep, encodeFloat, encodeUint, eq_comm]

theorem code_float64 {bits : UInt64} :
    Code env sc comparable (.float64 bits) c ↔ c = floatFlag :: encodeFloat [] bits := by
  simp [Code, encodeStep, encodeFloat, encodeUint, eq_comm]

theorem code_mysqlBit {l : Bytes} : Code env sc true (.mysqlBit l) c ↔
      c = uintFlag :: encodeUint [] (binaryLiteralToInt l sc).1 := by
  simp [Code, encodeStep, encodeUnsignedInt, encodeUint, eq_comm]

theorem code_binaryLiteral {l : Bytes} : Code env sc true (.binaryLiteral l) c ↔
      c = uintFlag :: encodeUint [] (binaryLiteralToInt l sc).1 := by
  simp [Code, encodeStep, encodeUnsignedInt, encodeUint, eq_comm]

theorem code_mysqlJSON {j : BinaryJSON} :
    Code env sc comparable (.mysqlJSON j) c ↔ c = jsonFlag :: j.typeCode :: j.value := by
  simp [Code, encodeStep, eq_comm]

variable {t : Time}

theorem code_mysqlTime : Code env sc comparable (.mysqlTime t) c ↔ ∃ u, timeToPack env sc t .unspecified = .ok u ∧
        c = uintFlag :: encodeUint [] u.toPackedUint := by
  cases h : timeToPack env sc t .unspecified <;>
    simp [Code, encodeStep, encodeMySQLTime, encodeUint, h, eq_comm]

theorem timeToPack_cases {u : Time} {tp : MysqlType} (h : timeToPack env sc t tp = .ok u) :
    u = t ∨ ∃ l, t.convertTimeZone l env.utc = .ok u := by
  simp only [timeToPack] at h
  generalize (if tp = .unspecified then t.type else tp) = tp' at h
  split at h
  · cases sc with
    | none => cases h
    | some sc =>
      cases hz : sc.timeZone with
      | utc =>
        simp only [hz] at h
        cases h
        exact .inl rfl
      | loc l =>
        simp only [hz] at h
        exact .inr ⟨l, h⟩
  · cases h
    exact .inl rfl

theorem timeToPack_month {u : Time} {tp : MysqlType} (h : timeToPack env sc t tp = .ok u)
    (ht : t.coreTime.month.val ≤ 12) : u.coreTime.month.val ≤ 12 := by
  obtain rfl | ⟨l, hl⟩ := timeToPack_cases h
  · exact ht
  · exact Time.convertTimeZone_month hl ht

variable {d : MyDecimal} {length frac : Nat}

theorem decimalScale_of_pos (h : 0 < length) :
    decimalScale d length frac = .ok ((length : Int), ((min frac 30 : Nat) : Int)) := by
  rw [decimalScale, if_neg (by omega), ok_bind, maxDecimalScale]
  simp only [pure_eq, ok.injEq, Prod.mk.injEq, true_and]
  split <;> omega

theorem code_decimalScale (h : Code env sc comparable (.mysqlDecimal d length frac) c) :
    ∃ p f b err, decimalScale d length frac = .ok (p, f) ∧ writeBin d p f [] [] = .ok (b, err) ∧
      c = decimalFlag :: UInt8.ofNat (p % 256).toNat :: UInt8.ofNat (f % 256).toNat :: b := by
  obtain ⟨err, err', h⟩ := h
  rw [encodeStep, encodeDecimal] at h
  simp only [bind_eq_ok] at h
  obtain ⟨⟨b, e⟩, ⟨⟨p, f⟩, hscale, hw⟩, e₂, -, hc⟩ := h
  rw [writeBin_append, bind_eq_ok] at hw
  obtain ⟨⟨b', e'⟩, hw, hb⟩ := hw
  cases hb
  cases hc
  exact ⟨p, f, b', e', hscale, hw, rfl⟩

theorem code_mysqlDecimal (hpos : 0 < length) (h : Code env sc comparable (.mysqlDecimal d length frac) c) :
    ∃ b err, writeBin d length (min frac 30 : Nat) [] [] = .ok (b, err) ∧
      c = decimalFlag :: UInt8.ofNat (length % 256) :: UInt8.ofNat (min frac 30 % 256) :: b := by
  obtain ⟨p, f, b, err, hscale, hw, rfl⟩ := code_decimalScale h
  rw [decimalScale_of_pos hpos, ok.injEq] at hscale
  obtain ⟨rfl, rfl⟩ := hscale
  exact ⟨b, err, hw, rfl⟩

theorem decimalScale_range (hd : d.WellFormed)
    (hlen : length ≤ 81) {p f : Int} (h : decimalScale d length frac = .ok (p, f)) :
    0 ≤ p ∧ p ≤ 81 ∧ 0 ≤ f ∧ f ≤ 30 := by
  by_cases hpos : 0 < length
  · rw [decimalScale_of_pos hpos, ok.injEq, Prod.mk.injEq] at h
    omega
  · obtain rfl : length = 0 := by omega
    obtain ⟨k, n, x, ws, hz, hwords, hws, -, -⟩ := removeLeadingZeros_spec hd
    have hlen := congrArg length hwords
    have hfrac := hd.digitsFrac_nonneg
    have hwle := hd.words_le
    rw [hd.length_intWords, length_append] at hlen
    rw [hd.wordsFrac_eq, maxWordBufLen] at hwle
    have hn : n ≤ 9 * d.wordsInt := by
      split at hlen
      · omega
      · rw [length_cons] at hlen
        omega
    rw [decimalScale, precisionAndFrac, hz] at h
    simp only [maxDecimalScale] at h
    obtain ⟨rfl, rfl⟩ := h
    split <;> split_ifs <;> omega

end Kinds

end Tidb.Codec
