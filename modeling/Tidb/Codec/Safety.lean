import Tidb.Codec.Peek

/-!
# Decoding untrusted bytes

`DecodeOne` takes sizes out of the bytes that it reads.  It stays inside them in every branch but two:
the size of a decimal and the size of a JSON value are not compared with what is left.  `InBounds` says
on the bytes alone when these two are safe.
-/

namespace Tidb.Codec

open GoLang ByteNum Tidb.Types List Outcome

/-! ## Decimals -/

/-- The size of the binary form that a precision and a scale announce.  A scale above the precision has
one when it is a whole number of words above it. -/
def announcedSize (p f : Nat) : Option Nat :=
  if f ≤ p then some (digitBytes (p - f) + digitBytes f)
  else if (f - p) % 9 = 0 then some (digitBytes p)
  else none

/-- The binary form with the sign taken off: the complement of a negative number and the flipped top
bit. -/
def unsignedBin (bin : Bytes) : Bytes := mask (decide (bin.headD 0 &&& 0x80 = 0)) (flipTop bin)

/-- Reading more words than there are places stops at a word that is not a group of nine digits, before
it goes out of bounds. -/
def StopsAtBadWord (p f : Nat) (u : Bytes) : Prop :=
  if p < f then ∃ j, j < min 9 (u.length / 4) ∧ 10 ^ 9 ≤ numAt u (4 * j) 4
  else if (p - f) % 9 = 0 then ∃ j, j < 9 ∧ 10 ^ 9 ≤ numAt u (4 + 4 * j) 4
  else
    let d := digWidth ((p - f) % 9)
    leadingLimit ((p - f) % 9) ≤ numAt u d d ∨ (∃ j, j < 8 ∧ 10 ^ 9 ≤ numAt u (2 * d + 4 * j) 4) ∨
      numAt u d d = 0 ∧ d ≤ digWidth (f % 9) ∧ 10 ^ 9 ≤ numAt u (2 * d + 32) 4

/-- The bytes hold a binary form of the announced size, with at most nine words of integer digits. -/
def DecimalInBounds (p f : Nat) (bin : Bytes) : Prop :=
  ∀ size, announcedSize p f = some size → size ≤ 40 → 0 < size ∧ size ≤ bin.length ∧ (f ≤ p ∧ p - f ≤ 81 ∨
    StopsAtBadWord p f (unsignedBin (bin.take size)))

theorem decimalBinSize_eq (p f : Nat) : decimalBinSize p f = match announcedSize p f with
      | some size => .ok (size : Int)
      | none => .error .errBadNumber := by
  rw [announcedSize]
  by_cases h : f ≤ p
  · rw [if_pos h, decimalBinSize_of_le h]
  · rw [decimalBinSize_of_lt (by omega)]
    split <;> rfl

theorem unsignedBin_take {bin : Bytes} {size : Nat} (hpos : 0 < size) : unsignedBin (bin.take size) =
      mask (decide (bin.headD 0 &&& 0x80 = 0)) (flipTop (bin.take size)) := by
  obtain ⟨n, rfl⟩ : ∃ n, size = n + 1 := ⟨size - 1, by omega⟩
  cases bin <;> rfl

section ReadBin

variable {d : MyDecimal} {bin : Bytes} {p f size : Nat} {m : Bool}

theorem readBin_fault_iff_of_overflow (h : f ≤ p) (h81 : 81 < p - f) (hpos : 0 < size)
    (hle : size ≤ bin.length) (h40 : size ≤ 40) (hsize : size = digitBytes (p - f) + digitBytes f) :
    readBin d bin size p f m = .fault ↔ ¬ StopsAtBadWord p f (mask m (flipTop (bin.take size))) := by
  have hlen := length_flipTop_take hle
  rw [StopsAtBadWord, if_neg (by omega)]
  have hfit := @fitWords_overflow (digWidth ((p - f) % 9)) ((p - f) / 9 : Nat) (f / 9 : Nat)
    (f % 9 : Nat) (wordsFor (p - f)) (wordsFor f)
    (by rw [wordsFor]; split <;> omega) (by rw [wordsFor]; split <;> omega)
  rw [readBin_of_le h hpos hle hfit, binResult_eq_fault]
  rw [digitBytes, digitBytes] at hsize
  by_cases h9 : (p - f) % 9 = 0
  · -- ninety digits and no fraction
    have hf0 : f = 0 := by
      by_contra hne
      have := digitBytes_pos (show 0 < f by omega)
      rw [digitBytes] at this
      omega
    subst hf0
    have h90 : p = 90 := by omega
    subst h90
    have hread := @readInt_fault_iff d.wordBuf m (flipTop (bin.take size)) (int8 (90 - 0 : Nat))
      (by rw [hlen, hsize]; rfl)
    refine hread.trans ?_
    simp [GoodWords]
  · rw [if_neg h9]
    have hd := digWidth_pos (show 0 < (p - f) % 9 by omega)
    have hwi : (p - f) / 9 = 9 := by omega
    have hf9 : f / 9 = 0 := by omega
    have hread := @readLead_fault_iff d.wordBuf m (flipTop (bin.take size)) (int8 (p - f : Nat))
      ((p - f) % 9) (f % 9) (by omega) (by omega) (by omega) (by rw [hlen, hsize]; omega)
    simp only [hwi, hf9]
    refine hread.trans ?_
    simp [GoodWords]

/-- Behind the check of the size, `FromBin` is in bounds exactly when it reads nine words at most or
stops early. -/
theorem readBin_eq_fault_iff (hsize : announcedSize p f = some size) (h40 : size ≤ 40)
    (hpos : 0 < size) (hle : size ≤ bin.length) (hm : m = decide (bin.headD 0 &&& 0x80 = 0)) :
    readBin d bin size p f m = .fault ↔ ¬ (f ≤ p ∧ p - f ≤ 81 ∨ StopsAtBadWord p f (unsignedBin (bin.take size))) := by
  rw [unsignedBin_take hpos, ← hm]
  rw [announcedSize] at hsize
  by_cases h : f ≤ p
  · rw [if_pos h, Option.some.injEq] at hsize
    by_cases h81 : p - f ≤ 81
    · exact iff_of_false (readBin_ne_fault h h81 hpos hle hsize.symm) (fun hn => hn (.inl ⟨h, h81⟩))
    · rw [readBin_fault_iff_of_overflow h (by omega) hpos hle h40 hsize.symm]
      simp only [h81, and_false, false_or]
  · rw [if_neg h] at hsize
    split at hsize
    · rename_i h9
      rw [Option.some.injEq] at hsize
      rw [readBin_fault_iff_of_lt (by omega) h9 hpos hle hsize.symm, StopsAtBadWord,
        if_pos (by omega), length_mask, length_flipTop_take hle]
      simp only [h, false_and, false_or, not_exists, not_and, not_le]
    · cases hsize

end ReadBin

theorem fromBin_slice_fault_iff {bin : Bytes} (hne : bin ≠ []) (p f : Nat) : (fromBin zeroMyDecimal bin p f = .fault ∨
      ∃ size dec err, fromBin zeroMyDecimal bin p f = .ok (size, dec, err) ∧
        (sliceFromInt bin size : Res Bytes) = .fault) ↔ ¬ DecimalInBounds p f bin := by
  obtain ⟨first, rest, rfl⟩ := exists_cons_of_ne_nil hne
  rw [fromBin, decimalBinSize_eq, DecimalInBounds]
  cases hs : announcedSize p f with
  | none =>
    refine iff_of_false ?_ (by simp)
    rintro (h | ⟨size, dec, err, h, hslice⟩)
    · cases h
    · cases h
      cases hslice
  | some size =>
    simp only
    by_cases h40 : 40 < size
    · -- refused before it is read
      rw [if_pos (by omega)]
      refine iff_of_false ?_ ?_
      · rintro (h | ⟨size, dec, err, h, hslice⟩)
        · cases h
        · cases h
          cases hslice
      · intro h
        refine h fun size' hsize' h' => ?_
        cases hsize'
        omega
    · rw [if_neg (by omega)]
      simp only [Option.some.injEq, forall_eq', show size ≤ 40 by omega, forall_const]
      by_cases hpos : 0 < size
      · by_cases hle : size ≤ (first :: rest).length
        · have hread := @readBin_eq_fault_iff zeroMyDecimal (first :: rest) p f size
            (decide (first &&& 0x80 = 0)) hs (by omega) hpos hle rfl
          simp only [hpos, hle, true_and, ← hread]
          constructor
          · rintro (h | ⟨size', dec, err, h, hslice⟩)
            · exact h
            · rcases @readBin_cases zeroMyDecimal (first :: rest) size p f
                (decide (first &&& 0x80 = 0)) with hf | ⟨dec', err', hok⟩
              · exact hf
              · rw [hok] at h
                cases h
                rw [sliceFromInt_natCast, sliceFrom_of_le hle] at hslice
                cases hslice
          · exact .inl
        · -- the slice behind the number is out of bounds, whatever was read
          refine iff_of_true ?_ (fun h => hle h.2.1)
          rcases @readBin_cases zeroMyDecimal (first :: rest) size p f
            (decide (first &&& 0x80 = 0)) with hf | ⟨dec, err, hok⟩
          · exact .inl hf
          · refine .inr ⟨_, _, _, hok, ?_⟩
            rw [sliceFromInt_natCast, sliceFrom_of_lt (by omega)]
      · obtain rfl : size = 0 := by omega
        refine iff_of_true (.inl ?_) (fun h => hpos h.1)
        simp only [readBin, Int.toNat_natCast, Nat.zero_sub]
        rfl

theorem decodeDecimal_eq_fault_iff {b : Bytes} : decodeDecimal b = .fault ↔
      ∃ p f bin, b = p :: f :: bin ∧ bin ≠ [] ∧ ¬ DecimalInBounds p.toNat f.toNat bin := by
  rw [decodeDecimal]
  by_cases hlen : b.length < 3
  · rw [if_pos hlen]
    refine iff_of_false (by simp) ?_
    rintro ⟨p, f, bin, rfl, hne, -⟩
    have := length_pos_iff.mpr hne
    simp at hlen
    omega
  · obtain ⟨p, f, bin, rfl, hne⟩ : ∃ p f bin, b = p :: f :: bin ∧ bin ≠ [] := by
      rcases b with _ | ⟨p, _ | ⟨f, _ | ⟨x, bin⟩⟩⟩
      iterate 3 · simp at hlen
      exact ⟨p, f, x :: bin, rfl, by simp⟩
    rw [if_neg hlen, index_cons_zero, index_cons_succ, index_cons_zero, sliceFrom_of_le (by simp)]
    simp only [ok_bind]
    rw [bind_eq_fault]
    have hiff := fromBin_slice_fault_iff hne p.toNat f.toNat
    constructor
    · intro h
      refine ⟨p, f, bin, rfl, hne, hiff.mp ?_⟩
      rcases h with h | ⟨⟨size, dec, err⟩, hok, h⟩
      · exact .inl h
      · simp only [bind_eq_fault] at h
        rcases h with h | ⟨rest, -, h⟩
        · exact .inr ⟨size, dec, err, hok, h⟩
        · cases err <;> cases h
    · rintro ⟨p', f', bin', heq, -, h⟩
      cases heq
      rcases hiff.mpr h with h | ⟨size, dec, err, hok, hslice⟩
      · exact .inl h
      · refine .inr ⟨_, hok, ?_⟩
        simp only [drop_succ_cons, drop_zero, hslice, fault_bind]

/-! ## JSON -/

def fixedJsonSize : Bytes → Option Nat
  | [] => none
  | c :: bs =>
    if c = jsonTypeCodeObject ∨ c = jsonTypeCodeArray then
      if 8 ≤ bs.length then some (1 + leNat ((bs.drop 4).take 4)) else none
    else if c = jsonTypeCodeInt64 ∨ c = jsonTypeCodeUint64 ∨ c = jsonTypeCodeFloat64 ∨
        c = jsonTypeCodeDate ∨ c = jsonTypeCodeDatetime ∨ c = jsonTypeCodeTimestamp then some 9
    else if c = jsonTypeCodeLiteral then some 2
    else if c = jsonTypeCodeDuration then some 13
    else none

/-- The bytes hold a JSON value of the size that it says.  A length beyond 64 bits wraps around to a
size inside its own varint. -/
def JsonInBounds (b : Bytes) : Prop :=
  b ≠ [jsonTypeCodeOpaque] ∧ (∀ n, fixedJsonSize b = some n → n ≤ b.length) ∧ ∀ h rest, lengthVarint b = some (h, rest)
    → 0 ≤ (uvarint rest).2 ∧ (h + (uvarint rest).1.toNat + (uvarint rest).2 ≤ b.length ∨ 2 ^ 64 < h + (uvarint
    rest).1.toNat + (uvarint rest).2)

theorem fixedJsonSize_of_some {b : Bytes} {p : Nat × Bytes} (hb : lengthVarint b = some p) :
    fixedJsonSize b = none := by
  cases b with
  | nil => rfl
  | cons c bs =>
    have hc : c = jsonTypeCodeString ∨ c = jsonTypeCodeOpaque := by
      rw [lengthVarint] at hb
      by_contra hc
      rw [if_neg (fun h => hc (.inl h)), if_neg (fun h => hc (.inr h.1))] at hb
      cases hb
    rcases hc with rfl | rfl <;> rfl

theorem decodeOne_json_fault_iff {b : Bytes} : decodeOne (jsonFlag :: b) = .fault ↔ peekBytesAsJSON b = .fault ∨
        ∃ n, peekBytesAsJSON b = .ok n ∧ ¬ (1 ≤ n ∧ n ≤ b.length) := by
  change (peekBytesAsJSON b >>= fun size => _) = _ ↔ _
  rw [bind_eq_fault]
  refine or_congr_right (exists_congr fun n => and_congr_right fun hn => ?_)
  cases b with
  | nil => cases hn
  | cons c b =>
    by_cases hneg : n < 0
    · rw [sliceInt, if_pos hneg]
      exact iff_of_true rfl (by omega)
    · obtain ⟨n, rfl⟩ := Int.eq_ofNat_of_zero_le (show 0 ≤ n by omega)
      rw [sliceInt_natCast]
      by_cases hin : 1 ≤ n ∧ n ≤ (c :: b).length
      · rw [slice_of_le hin.1 hin.2, sliceFromInt_natCast, sliceFrom_of_le hin.2]
        exact iff_of_false (by simp) (by omega)
      · rw [slice, if_neg hin]
        exact iff_of_true rfl (by omega)

theorem peekBytesAsJSON_of_none {b : Bytes} (hb : lengthVarint b = none) : (b = [jsonTypeCodeOpaque] ∧ peekBytesAsJSON b
    = .fault) ∨ b ≠ [jsonTypeCodeOpaque] ∧ ((∃ e, peekBytesAsJSON b = .error e ∧ fixedJsonSize b = none) ∨ ∃ n : Nat,
    peekBytesAsJSON b = .ok (n : Int) ∧ fixedJsonSize b = some n ∧ 1 ≤ n) := by
  cases b with
  | nil => exact .inr ⟨by simp, .inl ⟨_, rfl, rfl⟩⟩
  | cons c bs =>
    have hstr : c ≠ jsonTypeCodeString := by
      intro hc
      rw [lengthVarint, if_pos hc] at hb
      cases hb
    rw [lengthVarint, if_neg hstr] at hb
    by_cases hop : c = jsonTypeCodeOpaque
    · -- an opaque value without its type byte
      subst hop
      have hnil : bs = [] := by
        by_contra hne
        have hpos := length_pos_iff.mpr hne
        rw [if_pos ⟨rfl, hpos⟩] at hb
        cases hb
      subst hnil
      exact .inl ⟨rfl, rfl⟩
    refine .inr ⟨by simp [hop], ?_⟩
    unfold peekBytesAsJSON fixedJsonSize
    simp only [hstr, if_false, length_cons]
    by_cases hobj : c = jsonTypeCodeObject ∨ c = jsonTypeCodeArray
    · rw [if_pos hobj, if_pos hobj]
      by_cases hlen : 8 ≤ bs.length
      · have hslice : (slice (c :: bs) (valTypeSize + dataSizeOff) (valTypeSize + dataSizeOff + 4) :
            Res Bytes) = .ok ((bs.drop 4).take 4) := by
          rw [slice_of_le (by decide) (by simp [valTypeSize, dataSizeOff]; omega)]
          simp [valTypeSize, dataSizeOff, drop_take]
        rw [if_pos (by rw [valTypeSize, headerSize]; omega), if_pos hlen, hslice]
        exact .inr ⟨1 + leNat ((bs.drop 4).take 4), rfl, rfl, by omega⟩
      · rw [if_neg (by rw [valTypeSize, headerSize]; omega), if_neg hlen]
        exact .inl ⟨_, rfl, rfl⟩
    · rw [if_neg hobj]
      split
      · exact .inr ⟨9, rfl, rfl, by omega⟩
      · split
        · exact .inr ⟨2, rfl, rfl, by omega⟩
        · split
          · exact .inr ⟨13, rfl, rfl, by omega⟩
          · exact .inl ⟨_, rfl, rfl⟩

theorem varint_size_inBounds_iff {rest : Bytes} {h n : Nat} (hh : 1 ≤ h) (hh2 : h ≤ 2)
    (hn : n = h + rest.length) (hlen : n < 2 ^ 63) :
    (1 ≤ (h + ((uvarint rest).1.toNat : Int) + (uvarint rest).2).bmod (2 ^ 64) ∧
      (h + ((uvarint rest).1.toNat : Int) + (uvarint rest).2).bmod (2 ^ 64) ≤ n) ↔
    0 ≤ (uvarint rest).2 ∧ (h + (uvarint rest).1.toNat + (uvarint rest).2 ≤ n ∨
      2 ^ 64 < h + (uvarint rest).1.toNat + (uvarint rest).2) := by
  have hv := (uvarint rest).1.toNat_lt
  by_cases hcount : 0 < (uvarint rest).2
  · obtain ⟨hle, h10, -, -⟩ := uvarint_of_pos (Prod.eta (uvarint rest)).symm hcount
    by_cases hwrap : h + ((uvarint rest).1.toNat : Int) + (uvarint rest).2 < 2 ^ 63
    · rw [bmod_of_range (by omega) hwrap]
      omega
    · rw [bmod_of_ge (by omega) (by omega)]
      omega
  · obtain ⟨hv0, h0⟩ := uvarint_of_nonpos (show (uvarint rest).2 ≤ 0 by omega)
    rw [hv0, bmod_of_zero_length (by omega) (by omega), show (0 : UInt64).toNat = 0 from rfl]
    omega

theorem json_fault_iff {b : Bytes} (hlen : b.length < 2 ^ 63) :
    decodeOne (jsonFlag :: b) = .fault ↔ ¬ JsonInBounds b := by
  rw [decodeOne_json_fault_iff, JsonInBounds]
  cases hb : lengthVarint b with
  | none =>
    rcases peekBytesAsJSON_of_none hb with ⟨hop, hpeek⟩ | ⟨hop, ⟨e, hpeek, hsize⟩ | ⟨n, hpeek, hsize, hn⟩⟩
    · exact iff_of_true (.inl hpeek) (fun h => h.1 hop)
    · simp [hpeek, hop, hsize]
    · simp only [hpeek, hop, hsize, reduceCtorEq, ok.injEq, Option.some.injEq, false_or,
        exists_eq_left', forall_eq', IsEmpty.forall_iff, implies_true, and_true, ne_eq, not_false_eq_true, true_and]
      omega
  | some p =>
    obtain ⟨h, rest⟩ := p
    obtain ⟨hh, -, hblen, hpeek⟩ := lengthVarint_eq_some hb
    have hop : b ≠ [jsonTypeCodeOpaque] := by
      rintro rfl
      cases hb
    have hiff := @varint_size_inBounds_iff rest h b.length (by omega) (by omega) hblen hlen
    constructor
    · rintro (hf | ⟨n, hn, hout⟩) ⟨-, -, hin⟩
      · rw [hpeek] at hf
        cases hf
      · rw [hpeek, ok.injEq] at hn
        subst hn
        exact hout (hiff.mpr (hin h rest rfl))
    · intro hout
      refine .inr ⟨_, hpeek, fun hin => hout ⟨hop, fun n hn => ?_, fun h' rest' heq => ?_⟩⟩
      · rw [fixedJsonSize_of_some hb] at hn
        cases hn
      · cases heq
        exact hiff.mp hin

/-! ## All flags -/

/-- What is decoded stays inside the bytes, and what is left is a suffix of them. -/
def StaysInside (b : Bytes) : Prop :=
  decodeOne b ≠ .fault ∧ ∀ r d, decodeOne b = .ok (r, d) → r <:+ b

def InBounds : Bytes → Prop
  | [] => True
  | flag :: b =>
    (flag = decimalFlag → ∀ p f bin, b = p :: f :: bin → bin ≠ [] →
      DecimalInBounds p.toNat f.toNat bin) ∧ (flag = jsonFlag → JsonInBounds b)

theorem bind_pure_ne_fault {α β : Type} {x : Res α} (hx : x ≠ .fault) (f : α → β) :
    (x >>= fun a => pure (f a)) ≠ .fault := by
  cases x with
  | fault => exact absurd rfl hx
  | _ => simp

theorem decodeOne_fault_cases {flag : UInt8} {b : Bytes} (h : decodeOne (flag :: b) = .fault) :
    flag = decimalFlag ∧ decodeDecimal b = .fault ∨ flag = jsonFlag := by
  by_contra hno
  rw [not_or] at hno
  rw [decodeOne] at h
  by_cases hflag : flag = intFlag
  · rw [if_pos hflag] at h
    exact bind_pure_ne_fault (decodeFixed_ne_fault _ b) _ h
  rw [if_neg hflag] at h
  by_cases hflag : flag = uintFlag
  · rw [if_pos hflag] at h
    exact bind_pure_ne_fault (decodeFixed_ne_fault _ b) _ h
  rw [if_neg hflag] at h
  by_cases hflag : flag = varintFlag
  · rw [if_pos hflag] at h
    exact bind_pure_ne_fault (decodeVar_ne_fault unzigzag b) _ h
  rw [if_neg hflag] at h
  by_cases hflag : flag = uvarintFlag
  · rw [if_pos hflag] at h
    exact bind_pure_ne_fault (decodeVar_ne_fault id b) _ h
  rw [if_neg hflag] at h
  by_cases hflag : flag = floatFlag
  · rw [if_pos hflag] at h
    exact bind_pure_ne_fault (bind_pure_ne_fault (decodeFixed_ne_fault _ b) _) _ h
  rw [if_neg hflag] at h
  by_cases hflag : flag = bytesFlag
  · rw [if_pos hflag] at h
    exact bind_pure_ne_fault (decodeBytes_ne_fault b []) _ h
  rw [if_neg hflag] at h
  by_cases hflag : flag = compactBytesFlag
  · rw [if_pos hflag] at h
    exact bind_pure_ne_fault (decodeCompactBytes_ne_fault b) _ h
  rw [if_neg hflag] at h
  by_cases hflag : flag = decimalFlag
  · rw [if_pos hflag] at h
    exact bind_pure_ne_fault (fun hd => hno.1 ⟨hflag, hd⟩) _ h
  rw [if_neg hflag] at h
  by_cases hflag : flag = durationFlag
  · rw [if_pos hflag] at h
    exact bind_pure_ne_fault (decodeFixed_ne_fault _ b) _ h
  rw [if_neg hflag, if_neg hno.2] at h
  split at h <;> cases h

/-- `DecodeOne` stays inside the bytes exactly when the sizes that a decimal and a JSON value announce
do; the length of a slice is an `int`. -/
theorem staysInside_iff {b : Bytes} (hlen : b.length < 2 ^ 63) : StaysInside b ↔ InBounds b := by
  cases b with
  | nil => exact iff_of_true ⟨by simp [decodeOne], fun r d h => by cases h⟩ trivial
  | cons flag b =>
    rw [length_cons] at hlen
    have hsuffix : ∀ r d, decodeOne (flag :: b) = .ok (r, d) → r <:+ flag :: b := by
      intro r d h
      obtain ⟨y, rfl, -⟩ := peekItem_of_reads (by omega) (reads_of_decodeOne h)
      exact ⟨flag :: y, rfl⟩
    have hjson := @json_fault_iff b (by omega)
    constructor
    · rintro ⟨hsafe, -⟩
      refine ⟨?_, ?_⟩
      · rintro rfl p f bin rfl hne
        by_contra hout
        have hdec := decodeDecimal_eq_fault_iff.mpr ⟨p, f, bin, rfl, hne, hout⟩
        refine hsafe ?_
        change (decodeDecimal (p :: f :: bin) >>= fun r => _) = _
        rw [hdec]
        rfl
      · rintro rfl
        by_contra hout
        exact hsafe (hjson.mpr hout)
    · rintro ⟨hdec, hjs⟩
      refine ⟨fun hf => ?_, hsuffix⟩
      rcases decodeOne_fault_cases hf with ⟨rfl, hd⟩ | rfl
      · obtain ⟨p, f, bin, rfl, hne, hout⟩ := decodeDecimal_eq_fault_iff.mp hd
        exact hout (hdec rfl p f bin rfl hne)
      · exact hjson.mp hf (hjs rfl)

theorem staysInside_decimal : StaysInside [6, 2, 1, 0x81, 5] := by
  refine (staysInside_iff (by decide)).mpr ⟨fun _ p f bin hb _ => ?_, fun h => by cases h⟩
  cases hb
  intro size hsize _
  cases hsize
  exact ⟨by decide, by decide, .inl (by decide)⟩

/-- A decimal of ten digits that is cut off after its first byte. -/
theorem not_staysInside_truncated : ¬ StaysInside [6, 10, 2, 0x80] := by
  rintro ⟨h, -⟩
  exact h (by decide)

end Tidb.Codec
