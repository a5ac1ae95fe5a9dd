import Tidb.Codec.Peek

/-!
# The columns of a key

`EncodeKey` writes the codes of the columns one after the other and nothing in between.  `CutOne`
finds the codes again: each one is an item that ends where the next one starts, whatever follows.
-/

namespace Tidb.Codec

open GoLang ByteNum Tidb.Types List

variable {env : Env} {sc : Option StatementContext}

/-- A value that a column can hold: neither NULL nor a sentinel. Decimals are well formed with at most 81 digits, and
the type code of a JSON value tells where it ends. -/
def IsValue : Datum → Prop
  | .null | .minNotNull | .maxValue => False
  | .mysqlDecimal d length _ => d.WellFormed ∧ length ≤ 81
  | .mysqlJSON j => ∀ r, peekBytesAsJSON (j.typeCode :: (j.value ++ r)) = .ok ((j.value.length + 1 : Nat) : Int)
  | _ => True

/-- An item that `CutOne` splits off whatever follows it, and that does not start like NULL. -/
structure IsItem (c : Bytes) : Prop where
  head : ∃ flag y, c = flag :: y ∧ flag ≠ nilFlag
  cut : ∀ r : Bytes, (c ++ r).length < 2 ^ 63 → cutOne (c ++ r) = .ok (c, r)

theorem isItem_of_reads {flag : UInt8} {y : Bytes} (hflag : flag ≠ nilFlag)
    (h : ∀ r, Reads flag (y ++ r) r) : IsItem (flag :: y) where
  head := ⟨flag, y, rfl, hflag⟩
  cut r hlen := by
    rw [cons_append] at hlen ⊢
    obtain ⟨y', hy, hcut⟩ := cutOne_of_reads hlen (h r)
    rw [hcut, append_cancel_right hy]

theorem isItem_fixed {flag : UInt8} (u : UInt64)
    (h : flag = intFlag ∨ flag = uintFlag ∨ flag = floatFlag ∨ flag = durationFlag) :
    IsItem (flag :: putUint64BE u) := by
  refine isItem_of_reads ?_ fun r => .fixed u r h
  rcases h with rfl | rfl | rfl | rfl <;> decide

theorem isItem_bytes (s : Bytes) : IsItem (bytesFlag :: encodeBytes [] s) :=
  isItem_of_reads (by decide) fun r => .bytes s r

theorem isItem_decimal {p f : Int} {b : Bytes} (hp : 0 ≤ p) (hp' : p ≤ 81) (hf : 0 ≤ f)
    (hf' : f ≤ 30) (hne : b ≠ []) (hsize : decimalBinSize p f = .ok (b.length : Int)) :
    IsItem (decimalFlag :: UInt8.ofNat (p % 256).toNat :: UInt8.ofNat (f % 256).toNat :: b) := by
  -- the two bytes hold the precision and the scale
  have hbyte : ∀ {x : Int}, 0 ≤ x → x < 256 → ((UInt8.ofNat (x % 256).toNat).toNat : Int) = x := by
    intro x hx hx'
    rw [UInt8.toNat_ofNat_of_lt' (by simp only [UInt8.size]; omega)]
    omega
  refine isItem_of_reads (by decide) fun r => ?_
  have h := @Reads.decimal (UInt8.ofNat (p % 256).toNat) (UInt8.ofNat (f % 256).toNat) (b ++ r)
    b.length (by simp [hne]) (by rw [hbyte hp (by omega), hbyte hf (by omega), hsize]) (by simp)
  rwa [drop_left] at h

theorem isItem_code {d : Datum} {c : Bytes} (hd : IsValue d) (hc : Code env sc true d c) : IsItem c := by
  cases d with
  | null | minNotNull | maxValue => cases hd
  | int64 i =>
    rw [code_int64.mp hc]
    exact isItem_fixed _ (.inl rfl)
  | uint64 u =>
    rw [code_uint64.mp hc]
    exact isItem_fixed _ (.inr (.inl rfl))
  | float32 u =>
    rw [code_float32.mp hc]
    exact isItem_fixed _ (.inr (.inr (.inl rfl)))
  | float64 u =>
    rw [code_float64.mp hc]
    exact isItem_fixed _ (.inr (.inr (.inl rfl)))
  | string s l =>
    rw [code_string.mp hc]
    exact isItem_bytes _
  | bytes s =>
    rw [code_bytes.mp hc]
    exact isItem_bytes _
  | binaryLiteral l =>
    rw [code_binaryLiteral.mp hc]
    exact isItem_fixed _ (.inr (.inl rfl))
  | mysqlBit l =>
    rw [code_mysqlBit.mp hc]
    exact isItem_fixed _ (.inr (.inl rfl))
  | mysqlEnum e l =>
    rw [code_mysqlEnum.mp hc]
    exact isItem_fixed _ (.inr (.inl rfl))
  | mysqlSet s l =>
    rw [code_mysqlSet.mp hc]
    exact isItem_fixed _ (.inr (.inl rfl))
  | mysqlDuration d =>
    rw [code_mysqlDuration.mp hc]
    exact isItem_fixed _ (.inr (.inr (.inr rfl)))
  | mysqlTime t =>
    obtain ⟨u, -, rfl⟩ := code_mysqlTime.mp hc
    exact isItem_fixed _ (.inr (.inl rfl))
  | mysqlDecimal d length frac =>
    obtain ⟨p, f, b, err, hscale, hw, rfl⟩ := code_decimalScale hc
    obtain ⟨hp, hp', hf, hf'⟩ := decimalScale_range hd.1 hd.2 hscale
    obtain ⟨hne, hsize⟩ := (writeBin_size hw).resolve_left fun h => h.1 ⟨hp, hp', hf, hf'⟩
    exact isItem_decimal hp hp' hf hf' hne hsize
  | mysqlJSON j =>
    rw [code_mysqlJSON.mp hc]
    refine isItem_of_reads (by decide) fun r => ?_
    have h := Reads.json (hd r) (by omega) (by simp)
    rwa [drop_succ_cons, drop_left] at h
  | interface | raw =>
    obtain ⟨err, err', h⟩ := hc
    cases h

theorem IsItem.ne_nil {c : Bytes} (h : IsItem c) : c ≠ [] := by
  obtain ⟨flag, y, rfl, -⟩ := h.head
  exact cons_ne_nil _ _

end Tidb.Codec
