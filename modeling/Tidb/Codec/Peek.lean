import Tidb.Codec.Encode
import Tidb.Types.FromBin

/-!
# Walking an encoded row (`DecodeOne` and `CutOne` of `util/codec/codec.go`)

Wherever `DecodeOne` succeeds `CutOne` cuts at the same place.  The converse rests on decoders that do not look behind
their item; the length of a JSON string or of an opaque JSON value is the exception.
-/

namespace Tidb.Codec

open GoLang ByteNum Tidb.Types List Outcome

/-! ## Grouped bytes -/

theorem peekBytesLoop_group {g : Bytes} (hg : g.length = 8) (n : Nat) (pre t : Bytes) (m : UInt8) :
    peekBytesLoop (n + 1) (pre ++ (g ++ m :: t)) pre.length =
      if encMarker - m ≠ 0 then .ok ((pre.length + 9 : Nat) : Int)
      else peekBytesLoop n (pre ++ (g ++ m :: t)) (pre.length + 9) := by
  have hindex : (index (pre ++ (g ++ m :: t)) (pre.length + encGroupSize) : Res UInt8) = .ok m := by
    rw [index_of_lt (by simp [encGroupSize, hg])]
    simp [encGroupSize, hg]
  rw [peekBytesLoop, if_neg (by simp [encGroupSize, hg]), hindex]
  rfl

variable {n : Nat}

theorem peekBytesLoop_encodeBytes (d r pre : Bytes) (hn : d.length / 8 < n) : peekBytesLoop n (pre ++ (encodeBytes [] d
    ++ r)) pre.length = .ok ((pre.length + (encodeBytes [] d).length : Nat) : Int) := by
  obtain ⟨n, rfl⟩ : ∃ m, n = m + 1 := ⟨n - 1, by omega⟩
  -- along the groups: a full one moves into the prefix, the short one ends the loop
  induction d using groups_induction generalizing pre n with
  | short d h =>
    have hpad : UInt8.ofNat (8 - d.length) ≠ 0 := by
      intro h0
      have h1 := congrArg UInt8.toNat h0
      simp at h1
      omega
    rw [encodeBytes_short h, length_shortGroup h, shortGroup, append_assoc,
      singleton_append, peekBytesLoop_group (by simp; omega), marker_sub_sub, if_pos hpad]
  | full g d hg ih =>
    obtain ⟨n, rfl⟩ : ∃ m, n = m + 1 := ⟨n - 1, by rw [length_append] at hn; omega⟩
    have hih := ih (pre ++ (g ++ [encMarker])) n (by rw [length_append] at hn; omega)
    rw [encodeBytes_full hg, append_assoc, cons_append, peekBytesLoop_group hg, if_neg (by simp)]
    simp only [append_assoc, length_append, length_cons, length_nil, hg, cons_append, nil_append] at hih ⊢
    rw [hih]
    congr 2
    omega

theorem peekBytes_encodeBytes (d r : Bytes) :
    peekBytes (encodeBytes [] d ++ r) = .ok ((encodeBytes [] d).length : Int) := by
  have hlen := length_encodeBytes d
  have hfuel : d.length / 8 < (encodeBytes [] d ++ r).length / (encGroupSize + 1) + 1 := by
    rw [length_append, hlen, encodedBytesLength, encGroupSize]
    omega
  simpa [peekBytes] using peekBytesLoop_encodeBytes d r [] hfuel

/-! ## What a decoder has read -/

inductive Reads : UInt8 → Bytes → Bytes → Prop
  | fixed {flag : UInt8} (u : UInt64) (r : Bytes)
      (h : flag = intFlag ∨ flag = uintFlag ∨ flag = floatFlag ∨ flag = durationFlag) :
      Reads flag (putUint64BE u ++ r) r
  | var {flag : UInt8} {b : Bytes} {y : UInt64} {k : Nat} (h : flag = varintFlag ∨ flag = uvarintFlag)
      (hb : uvarint b = (y, (k : Int))) (hpos : 0 < k) (hle : k ≤ b.length) :
      Reads flag b (b.drop k)
  | bytes (d r : Bytes) : Reads bytesFlag (encodeBytes [] d ++ r) r
  | compactBytes {b : Bytes} {y : UInt64} {k n : Nat} (hb : uvarint b = (y, (k : Int)))
      (hpos : 0 < k) (hn : (unzigzag y).toInt = n) (hle : k + n ≤ b.length) :
      Reads compactBytesFlag b (b.drop (k + n))
  | decimal {p f : UInt8} {b : Bytes} {n : Nat} (hne : b ≠ [])
      (hsize : decimalBinSize p.toNat f.toNat = .ok (n : Int)) (hle : n ≤ b.length) :
      Reads decimalFlag (p :: f :: b) (b.drop n)
  | json {b : Bytes} {n : Nat} (hsize : peekBytesAsJSON b = .ok (n : Int)) (hpos : 1 ≤ n)
      (hle : n ≤ b.length) :
      Reads jsonFlag b (b.drop n)
  | null (b : Bytes) : Reads nilFlag b b

variable {b r : Bytes}

theorem reads_decimal {dec : MyDecimal} {precision frac : Int}
    (h : decodeDecimal b = .ok (r, dec, precision, frac)) : Reads decimalFlag b r := by
  rw [decodeDecimal] at h
  split at h
  · cases h
  · rename_i hlen
    obtain ⟨p, f, bin, rfl⟩ : ∃ p f bin, b = p :: f :: bin := by
      match b, hlen with
      | p :: f :: bin, _ => exact ⟨p, f, bin, rfl⟩
      | [_], hlen | [], hlen => simp at hlen
    rw [index_cons_zero, index_cons_succ, index_cons_zero, sliceFrom_of_le (by simp)] at h
    simp only [ok_bind, bind_eq_ok] at h
    obtain ⟨⟨size, dec', err⟩, hbin, rest, hrest, h⟩ := h
    cases err with
    | some e => cases h
    | none =>
      cases h
      obtain ⟨n, rfl, hle, rfl⟩ := sliceFromInt_eq_ok hrest
      obtain ⟨hne, hsize, -⟩ := fromBin_size hbin
      exact .decimal hne hsize hle

theorem reads_json {d : Datum} (h : decodeOne (jsonFlag :: b) = .ok (r, d)) : Reads jsonFlag b r := by
  change (peekBytesAsJSON b >>= fun size => _) = _ at h
  rw [bind_eq_ok] at h
  obtain ⟨size, hsize, h⟩ := h
  simp only [bind_eq_ok] at h
  obtain ⟨c, -, v, hv, rest, hrest, h⟩ := h
  cases h
  obtain ⟨n, rfl, hle, rfl⟩ := sliceFromInt_eq_ok hrest
  refine .json hsize ?_ hle
  -- the value starts behind the type code
  by_contra hzero
  rw [sliceInt_natCast, slice, if_neg (by omega)] at hv
  cases hv

variable {flag : UInt8}

theorem reads_of_decodeOne {d : Datum} (h : decodeOne (flag :: b) = .ok (r, d)) : Reads flag b r := by
  have hfixed : ∀ {α : Type} {f : UInt64 → α} {v : α}, decodeFixed f b = .ok (r, v) → (flag = intFlag ∨ flag = uintFlag
      ∨ flag = floatFlag ∨ flag = durationFlag) → Reads flag b r := by
    intro α f v hdec hflag
    obtain ⟨u, -, rfl⟩ := (decodeFixed_eq_ok_iff f).mp hdec
    exact .fixed u r hflag
  rw [decodeOne] at h
  -- one case for each flag, in the order of the source
  by_cases hflag : flag = intFlag
  · rw [if_pos hflag, bind_eq_ok] at h
    obtain ⟨⟨r', v⟩, hdec, h⟩ := h
    cases h
    exact hfixed hdec (.inl hflag)
  rw [if_neg hflag] at h
  by_cases hflag : flag = uintFlag
  · rw [if_pos hflag, bind_eq_ok] at h
    obtain ⟨⟨r', v⟩, hdec, h⟩ := h
    cases h
    exact hfixed hdec (.inr (.inl hflag))
  rw [if_neg hflag] at h
  by_cases hflag : flag = varintFlag
  · rw [if_pos hflag, bind_eq_ok] at h
    obtain ⟨⟨r', v⟩, hdec, h⟩ := h
    cases h
    obtain ⟨y, k, hb, hpos, hle, -, rfl⟩ := decodeVarint_eq_ok_iff.mp hdec
    exact .var (.inl hflag) hb hpos hle
  rw [if_neg hflag] at h
  by_cases hflag : flag = uvarintFlag
  · rw [if_pos hflag, bind_eq_ok] at h
    obtain ⟨⟨r', v⟩, hdec, h⟩ := h
    cases h
    obtain ⟨y, k, hb, hpos, hle, -, rfl⟩ := decodeUvarint_eq_ok_iff.mp hdec
    exact .var (.inr hflag) hb hpos hle
  rw [if_neg hflag] at h
  by_cases hflag : flag = floatFlag
  · rw [if_pos hflag, bind_eq_ok] at h
    obtain ⟨⟨r', v⟩, hdec, h⟩ := h
    cases h
    rw [decodeFloat, bind_eq_ok] at hdec
    obtain ⟨⟨r', u⟩, hdec, h⟩ := hdec
    cases h
    exact hfixed hdec (.inr (.inr (.inl hflag)))
  rw [if_neg hflag] at h
  by_cases hflag : flag = bytesFlag
  · rw [if_pos hflag, bind_eq_ok] at h
    obtain ⟨⟨r', v⟩, hdec, h⟩ := h
    cases h
    obtain rfl := decodeBytes_eq_ok_iff.mp hdec
    rw [hflag]
    exact .bytes v _
  rw [if_neg hflag] at h
  by_cases hflag : flag = compactBytesFlag
  · rw [if_pos hflag, bind_eq_ok] at h
    obtain ⟨⟨r', v⟩, hdec, h⟩ := h
    cases h
    obtain ⟨y, k, n, hb, hpos, hn, hle, rfl, -⟩ := decodeCompactBytes_eq_ok hdec
    rw [hflag]
    exact .compactBytes hb hpos hn hle
  rw [if_neg hflag] at h
  by_cases hflag : flag = decimalFlag
  · rw [if_pos hflag, bind_eq_ok] at h
    obtain ⟨⟨r', dec, precision, frac⟩, hdec, h⟩ := h
    cases h
    rw [hflag]
    exact reads_decimal hdec
  rw [if_neg hflag] at h
  by_cases hflag : flag = durationFlag
  · rw [if_pos hflag, bind_eq_ok] at h
    obtain ⟨⟨r', v⟩, hdec, h⟩ := h
    cases h
    exact hfixed hdec (.inr (.inr (.inr hflag)))
  rw [if_neg hflag] at h
  by_cases hflag : flag = jsonFlag
  · rw [if_pos hflag] at h
    rw [hflag]
    exact reads_json h
  rw [if_neg hflag] at h
  by_cases hflag : flag = nilFlag
  · rw [if_pos hflag] at h
    cases h
    rw [hflag]
    exact .null b
  · rw [if_neg hflag] at h
    cases h

/-! ## Peeking finds the end of what was read -/

theorem peekCompactBytes_of_reads {y : UInt64} {k : Nat}
    (hlen : b.length < 2 ^ 63) (hb : uvarint b = (y, (k : Int))) (hpos : 0 < k)
    (hn : (unzigzag y).toInt = n) (hle : k + n ≤ b.length) : peekCompactBytes b = .ok ((k + n : Nat) : Int) := by
  have hsum : addInt n k = ((k + n : Nat) : Int) := by rw [addInt_of_range] <;> omega
  have hsum' : addInt k n = ((k + n : Nat) : Int) := by rw [addInt_of_range] <;> omega
  simp only [peekCompactBytes, varint, hb, hn]
  rw [if_neg (by omega), if_neg (by omega), if_neg (by omega), hsum']

theorem peekItem_of_reads (hlen : b.length < 2 ^ 63)
    (h : Reads flag b r) : ∃ y, b = y ++ r ∧ peekItem flag b = .ok (y.length : Int) := by
  have hdrop : ∀ {k : Nat}, k ≤ b.length → ∃ y, b = y ++ b.drop k ∧ y.length = k :=
    fun {k} hk => ⟨b.take k, (take_append_drop k b).symm, by rw [length_take]; omega⟩
  cases h with
  | fixed u r hflag =>
    refine ⟨putUint64BE u, rfl, ?_⟩
    rcases hflag with rfl | rfl | rfl | rfl <;> rfl
  | @var _ _ y k hflag hb hpos hle =>
    obtain ⟨x, hx, hxlen⟩ := hdrop hle
    refine ⟨x, hx, ?_⟩
    rw [hxlen]
    rcases hflag with rfl | rfl
    · change peekVarint b = _
      rw [peekVarint, varint, hb]
      exact if_neg (by omega)
    · change peekUvarint b = _
      rw [peekUvarint, hb]
      exact if_neg (by omega)
  | bytes d r => exact ⟨encodeBytes [] d, rfl, peekBytes_encodeBytes d r⟩
  | compactBytes hb hpos hn hle =>
    obtain ⟨y, hy, hylen⟩ := hdrop hle
    exact ⟨y, hy, by rw [hylen]; exact peekCompactBytes_of_reads hlen hb hpos hn hle⟩
  | @decimal p f b n hne hsize hle =>
    refine ⟨p :: f :: b.take n, by simp, ?_⟩
    have hpos := length_pos_iff.mpr hne
    change decimalPeak (p :: f :: b) = _
    rw [decimalPeak, if_neg (by simp; omega), index_cons_zero, index_cons_succ, index_cons_zero]
    simp only [ok_bind, hsize, length_cons, length_take]
    congr 1
    omega
  | json hsize hpos hle =>
    obtain ⟨y, hy, hylen⟩ := hdrop hle
    exact ⟨y, hy, by rw [hylen]; exact hsize⟩
  | null => exact ⟨[], rfl, rfl⟩

theorem checkLength_eq_ok {length m : Int} : checkLength n length = .ok m ↔ m = length ∧ 0 < length ∧ length ≤ n := by
  unfold checkLength
  split
  · simp; omega
  · split
    · simp; omega
    · simp; omega

theorem cutOne_eq_ok_iff {x : Bytes} : cutOne b = .ok (x, r) ↔ b = x ++ r ∧ ∃ flag y l, x = flag :: y ∧
      peekItem flag (y ++ r) = .ok l ∧ addInt 1 l = ((y.length + 1 : Nat) : Int) := by
  constructor
  · intro h
    rw [cutOne, bind_eq_ok] at h
    obtain ⟨n, hpeek, h⟩ := h
    cases b with
    | nil => cases hpeek
    | cons flag b =>
      rw [peek, bind_eq_ok] at hpeek
      obtain ⟨l, hl, hn⟩ := hpeek
      obtain ⟨rfl, hpos, hle⟩ := checkLength_eq_ok.mp hn
      obtain ⟨k, hk⟩ := Int.eq_ofNat_of_zero_le hpos.le
      obtain ⟨k, rfl⟩ : ∃ m, k = m + 1 := ⟨k - 1, by omega⟩
      rw [hk] at h hle
      have hle' : k + 1 ≤ (flag :: b).length := by omega
      rw [sliceInt_natCast, slice_of_le (by omega) hle', sliceFromInt_natCast, sliceFrom_of_le hle'] at h
      cases h
      rw [length_cons] at hle'
      refine ⟨by simp, flag, b.take k, l, by simp, by simpa using hl, ?_⟩
      rw [length_take]
      omega
  · rintro ⟨rfl, flag, y, l, rfl, hl, hadd⟩
    have hcheck : checkLength (flag :: y ++ r).length (addInt 1 l) = .ok ((y.length + 1 : Nat) : Int) := by
      rw [checkLength_eq_ok, length_append, length_cons]
      omega
    rw [cutOne, cons_append, peek, hl, ok_bind, ← cons_append, hcheck,
      ok_bind, sliceInt_natCast, slice_of_le (by omega) (by simp), sliceFromInt_natCast, sliceFrom_of_le (by simp)]
    simp

theorem cutOne_of_reads (hlen : (flag :: b).length < 2 ^ 63)
    (h : Reads flag b r) : ∃ y, b = y ++ r ∧ cutOne (flag :: b) = .ok (flag :: y, r) := by
  rw [length_cons] at hlen
  obtain ⟨y, rfl, hpeek⟩ := peekItem_of_reads (by omega) h
  refine ⟨y, rfl, cutOne_eq_ok_iff.mpr ⟨by simp, flag, y, _, rfl, hpeek, ?_⟩⟩
  rw [length_append] at hlen
  rw [addInt_of_range] <;> omega

/-! ## What follows an item -/

def TruncatedLength (b : Bytes) : Prop :=
  ∃ h rest, lengthVarint b = some (h, rest) ∧ (uvarint rest).2 = 0

theorem uvarint_append {y : UInt64} {n : Int} (h : uvarint b = (y, n)) (hn : 0 < n)
    (t : Bytes) : uvarint (b ++ t) = (y, n) := by
  obtain ⟨hle, -, hfull, -⟩ := uvarint_of_pos h hn
  have hsplit : b ++ t = b.take n.toNat ++ (b.drop n.toNat ++ t) := by rw [← append_assoc, take_append_drop]
  rw [hsplit]
  exact hfull _

theorem peekBytesAsJSON_append_of_pos (ht : ¬ TruncatedLength b) (h : peekBytesAsJSON b = .ok (n : Int)) (t : Bytes) :
    peekBytesAsJSON (b ++ t) = .ok (n : Int) := by
  cases hb : lengthVarint b with
  | none => exact peekBytesAsJSON_append hb h t
  | some p =>
    obtain ⟨k, rest⟩ := p
    obtain ⟨hk, -, -, hsize⟩ := lengthVarint_eq_some hb
    obtain ⟨pre, rfl, -, hpre⟩ := lengthVarint_front hb
    have hcount : 0 < (uvarint rest).2 := by
      by_contra hnp
      obtain ⟨hv, h0 | hneg⟩ := uvarint_of_nonpos (show (uvarint rest).2 ≤ 0 by omega)
      · exact ht ⟨k, rest, hb, h0⟩
      · -- a length that overflows gives a negative size
        rw [h, hv, bmod_of_zero_length (by omega) (by omega), ok.injEq] at hsize
        omega
    obtain ⟨-, -, -, hsize'⟩ := lengthVarint_eq_some (hpre (rest ++ t))
    rw [append_assoc, hsize', uvarint_append (Prod.eta _).symm hcount t, ← hsize, h]

theorem Reads.append (h : Reads flag b r)
    (hjson : flag = jsonFlag → ¬ TruncatedLength b) (t : Bytes) : Reads flag (b ++ t) (r ++ t) := by
  cases h with
  | fixed u r hflag => exact .fixed u _ hflag
  | @var _ _ y k hflag hb hpos hle =>
    rw [← drop_append_of_le_length hle]
    exact .var hflag (uvarint_append hb (by omega) t) hpos (by rw [length_append]; omega)
  | bytes d r =>
    rw [append_assoc]
    exact .bytes d _
  | compactBytes hb hpos hn hle =>
    rw [← drop_append_of_le_length hle]
    exact .compactBytes (uvarint_append hb (by omega) t) hpos hn (by rw [length_append]; omega)
  | @decimal p f b n hne hsize hle =>
    rw [← drop_append_of_le_length hle]
    rw [cons_append, cons_append]
    exact .decimal (by simp [hne]) hsize (by rw [length_append]; omega)
  | json hsize hpos hle =>
    rw [← drop_append_of_le_length hle]
    exact .json (peekBytesAsJSON_append_of_pos (hjson rfl) hsize t) hpos (by rw [length_append]; omega)
  | null => exact .null _

/-! ## The two walks -/

/-- `DecodeOne` and `CutOne` split the bytes at the same place: what is decoded is cut, and what is
cut is used up when it is decoded. -/
def SplitsAlike (b : Bytes) : Prop :=
  (∀ r d, decodeOne b = .ok (r, d) → ∃ x, b = x ++ r ∧ cutOne b = .ok (x, r)) ∧
    ∀ x t, cutOne b = .ok (x, t) → ∀ r d, decodeOne x = .ok (r, d) → r = []

/-- The length of a JSON string or an opaque JSON value and the bytes that it takes do not go beyond
64 bits together. -/
def LengthFits (b : Bytes) : Prop :=
  ∀ b' h rest, b = jsonFlag :: b' → lengthVarint b' = some (h, rest) →
    (uvarint rest).1.toNat + (uvarint rest).2 ≤ 2 ^ 64

theorem decodeOne_json (hsize : peekBytesAsJSON b = .ok (n : Int))
    (hpos : 1 ≤ n) (hle : n ≤ b.length) : ∃ d, decodeOne (jsonFlag :: b) = .ok (b.drop n, d) := by
  cases b with
  | nil => simp at hle; omega
  | cons c b =>
    change ∃ d, (peekBytesAsJSON (c :: b) >>= fun size => _) = _
    rw [hsize, index_cons_zero, ok_bind, sliceInt_natCast,
      slice_of_le hpos hle, sliceFromInt_natCast, sliceFrom_of_le hle]
    exact ⟨_, rfl⟩

theorem cut_inside_length {b' rest : Bytes} {h : Nat} (hb : lengthVarint b' = some (h, rest))
    (hbig : 2 ^ 64 < (uvarint rest).1.toNat + (uvarint rest).2) :
    ∃ x t r d, cutOne (jsonFlag :: b') = .ok (x, t) ∧ decodeOne x = .ok (r, d) ∧ r ≠ [] := by
  have hv := (uvarint rest).1.toNat_lt
  have hcount : 0 < (uvarint rest).2 := by omega
  obtain ⟨hle, h10, -, hshort⟩ := uvarint_of_pos (Prod.eta (uvarint rest)).symm hcount
  obtain ⟨hh, -, -, hsize⟩ := lengthVarint_eq_some hb
  obtain ⟨pre, rfl, hprelen, hpre⟩ := lengthVarint_front hb
  -- `j` bytes of the varint are cut off with the front
  obtain ⟨j, hj⟩ : ∃ j : Nat, ((uvarint rest).1.toNat : Int) + (uvarint rest).2 = 2 ^ 64 + j :=
    ⟨((uvarint rest).1.toNat + (uvarint rest).2 - 2 ^ 64).toNat, by omega⟩
  have hjlt : j < (uvarint rest).2.toNat := by omega
  have hsize' : peekBytesAsJSON (pre ++ rest) = .ok ((h + j : Nat) : Int) := by
    rw [hsize, bmod_of_ge (by omega) (by omega)]
    congr 1
    omega
  have hcut : cutOne (jsonFlag :: (pre ++ rest)) = .ok (jsonFlag :: (pre ++ rest.take j), rest.drop j) := by
    refine cutOne_eq_ok_iff.mpr ⟨by simp, jsonFlag, _, ((h + j : Nat) : Int), rfl, ?_, ?_⟩
    · rw [append_assoc, take_append_drop]
      exact hsize'
    · rw [length_append, length_take, addInt_of_range] <;> omega
  have htrunc : peekBytesAsJSON (pre ++ rest.take j) = .ok (h : Int) := by
    obtain ⟨-, -, -, hs⟩ := lengthVarint_eq_some (hpre (rest.take j))
    rw [hs, hshort j hjlt, bmod_of_zero_length (by omega) (by omega), Int.add_zero]
  obtain ⟨d, hd⟩ := decodeOne_json htrunc (by omega) (by rw [length_append]; omega)
  refine ⟨_, _, _, d, hcut, hd, ?_⟩
  rw [← hprelen, drop_left]
  intro hnil
  have hlen := congrArg length hnil
  rw [length_take, length_nil] at hlen
  omega

theorem eq_nil_of_cut_inside_length {rest t : Bytes} {h : Nat}
    (hb : lengthVarint b = some (h, rest)) (hzero : (uvarint rest).2 = 0)
    (hfits : (uvarint (rest ++ t)).1.toNat + (uvarint (rest ++ t)).2 ≤ 2 ^ 64) {l : Int}
    (hpeek : peekBytesAsJSON (b ++ t) = .ok l) (hl : addInt 1 l = ((b.length + 1 : Nat) : Int)) : rest = [] := by
  obtain ⟨hh, -, hlen, -⟩ := lengthVarint_eq_some hb
  obtain ⟨pre, rfl, hprelen, hpre⟩ := lengthVarint_front hb
  obtain ⟨-, -, -, hsize⟩ := lengthVarint_eq_some (hpre (rest ++ t))
  rw [← append_assoc, hpeek, ok.injEq] at hsize
  subst hsize
  have hrange := bmod_range (h + ((uvarint (rest ++ t)).1.toNat : Int) + (uvarint (rest ++ t)).2)
  have hl' := eq_of_addInt_one hrange.1 hrange.2 hl
  apply eq_nil_of_length_eq_zero
  by_cases hcount : 0 < (uvarint (rest ++ t)).2
  · -- the whole varint is longer than what was cut
    obtain ⟨hle, h10, hfull, -⟩ := uvarint_of_pos (Prod.eta (uvarint (rest ++ t))).symm hcount
    have hshort : rest.length < (uvarint (rest ++ t)).2.toNat := by
      by_contra hlong
      have hsame := hfull (rest.drop (uvarint (rest ++ t)).2.toNat)
      rw [take_append_of_le_length (by omega), take_append_drop] at hsame
      rw [hsame] at hzero
      omega
    by_cases hwrap : h + ((uvarint (rest ++ t)).1.toNat : Int) + (uvarint (rest ++ t)).2 < 2 ^ 63
    · rw [bmod_of_range (by omega) hwrap] at hl'
      omega
    · rw [bmod_of_ge (by omega) (by omega)] at hl'
      omega
  · obtain ⟨hv0, h0⟩ := uvarint_of_nonpos (show (uvarint (rest ++ t)).2 ≤ 0 by omega)
    rw [hv0, bmod_of_zero_length (by omega) (by omega)] at hl'
    omega

/-- The two walks agree exactly on the bytes that are no JSON value with an overlong length; the length
of a slice is an `int`. -/
theorem splitsAlike_iff {b : Bytes} (hlen : b.length < 2 ^ 63) : SplitsAlike b ↔ LengthFits b := by
  constructor
  · rintro ⟨-, hcut⟩ b' h rest rfl hb
    by_contra hbig
    obtain ⟨x, t, r, d, hx, hd, hr⟩ := cut_inside_length hb (by omega)
    exact hr (hcut x t hx r d hd)
  · intro hfits
    constructor
    · intro r d hdec
      cases b with
      | nil => cases hdec
      | cons flag b =>
        obtain ⟨y, rfl, hcut⟩ := cutOne_of_reads hlen (reads_of_decodeOne hdec)
        exact ⟨flag :: y, rfl, hcut⟩
    · intro x t hcut r d hdec
      obtain ⟨rfl, flag, y, l, rfl, hpeek, hl⟩ := cutOne_eq_ok_iff.mp hcut
      rw [cons_append] at hlen hfits hcut
      have hreads := reads_of_decodeOne hdec
      by_cases htrunc : flag = jsonFlag ∧ TruncatedLength y
      · obtain ⟨rfl, h, rest, hy, hzero⟩ := htrunc
        have hfits' : (uvarint (rest ++ t)).1.toNat + (uvarint (rest ++ t)).2 ≤ 2 ^ 64 := by
          obtain ⟨pre, rfl, -, hpre⟩ := lengthVarint_front hy
          exact hfits _ h _ rfl (by rw [append_assoc]; exact hpre _)
        obtain rfl := eq_nil_of_cut_inside_length hy hzero hfits' hpeek hl
        -- all that was cut is the front
        obtain ⟨hh, -, hylen, hsize⟩ := lengthVarint_eq_some hy
        rw [show uvarint [] = (0, 0) from rfl, bmod_of_zero_length (by omega) (by omega)] at hsize
        cases hreads with
        | fixed u r hflag => exact absurd hflag (by decide)
        | var hflag => exact absurd hflag (by decide)
        | json hsize' hpos hle =>
          rw [hsize, ok.injEq] at hsize'
          exact drop_eq_nil_of_le (by rw [hylen, length_nil]; omega)
      · have happ := hreads.append (fun hf htr => htrunc ⟨hf, htr⟩) t
        obtain ⟨y', -, hcut'⟩ := cutOne_of_reads hlen happ
        rw [hcut', ok.injEq, Prod.mk.injEq] at hcut
        simpa using hcut.2

theorem splitsAlike_json_string : SplitsAlike [10, 0x0c, 1, 97] := by
  refine (splitsAlike_iff (by decide)).mpr ?_
  intro b' h rest hb hl
  cases hb
  cases hl
  decide

/-- The size of a string of `2^64 - 1` bytes wraps around, and the cut is inside the varint. -/
theorem not_splitsAlike_overlong : ¬ SplitsAlike [10, 0x0c, 255, 255, 255, 255, 255, 255, 255, 255, 255, 1] := by
  rintro ⟨-, h⟩
  have h' := h [10, 0x0c, 255, 255, 255, 255, 255, 255, 255, 255, 255] [1] (by decide)
    [255, 255, 255, 255, 255, 255, 255, 255, 255] (.mysqlJSON ⟨0x0c, []⟩) (by decide)
  cases h'

end Tidb.Codec
