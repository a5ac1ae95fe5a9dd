import Tidb.Codec.Number

/-!
# Byte strings (`util/codec/bytes.go`)

The memory-comparable form is a row of 9-byte groups: eight bytes of data, padded with zeros in the last group, and a
marker that counts the padding down from `0xFF`.  A string whose length is a multiple of eight ends in a group that is
all padding.
-/

namespace Tidb.Codec

open GoLang ByteNum List Outcome Ordering

def encGroupSize : Nat := 8

def encMarker : UInt8 := 0xFF

def encPad : UInt8 := 0x0

def reverseBytes (b : Bytes) : Bytes := b.map (~~~ ·)

def encodeGroups : Nat → Bytes → Bytes
  | 0, _ => []
  | n + 1, data =>
    if encGroupSize ≤ data.length then
      data.take encGroupSize ++ encMarker :: encodeGroups n (data.drop encGroupSize)
    else
      let padCount := encGroupSize - data.length
      data ++ replicate padCount encPad ++ [encMarker - UInt8.ofNat padCount]

def encodeBytes (b data : Bytes) : Bytes :=
  b ++ encodeGroups (data.length / encGroupSize + 1) data

def encodeBytesDesc (b data : Bytes) : Bytes :=
  let e := encodeBytes b data
  e.take b.length ++ reverseBytes (e.drop b.length)

def encodedBytesLength (dataLen : Nat) : Nat :=
  let mod := dataLen % encGroupSize
  let padCount := encGroupSize - mod
  dataLen + padCount + 1 + dataLen / encGroupSize

/-- The loop of `decodeBytes`. It drops nine bytes each time round, so `b.length / 9 + 1` rounds are enough. -/
def decodeGroups (reverse : Bool) : Nat → Bytes → Bytes → Res (Bytes × Bytes)
  | 0, _, _ => .error errInsufficient
  | n + 1, b, buf =>
    if b.length < encGroupSize + 1 then .error errInsufficient
    else do
      let groupBytes ← sliceTo b (encGroupSize + 1)
      let group ← sliceTo groupBytes encGroupSize
      let marker ← index groupBytes encGroupSize
      let padCount := if reverse then marker else encMarker - marker
      if encGroupSize < padCount.toNat then
        .error (.errorf "invalid marker byte, group bytes %q" [.bytes groupBytes])
      else do
        let realGroupSize := encGroupSize - padCount.toNat
        let real ← sliceTo group realGroupSize
        let buf := buf ++ real
        let b ← sliceFrom b (encGroupSize + 1)
        if padCount ≠ 0 then do
          let padByte := if reverse then encMarker else encPad
          let padding ← sliceFrom group realGroupSize
          if padding.all (· == padByte) then return (b, buf)
          else .error (.errorf "invalid padding byte, group bytes %q" [.bytes groupBytes])
        else decodeGroups reverse n b buf

def decodeBytesWith (b buf : Bytes) (reverse : Bool) : Res (Bytes × Bytes) := do
  let (b, buf) ← decodeGroups reverse (b.length / (encGroupSize + 1) + 1) b (buf.take 0)
  return (b, if reverse then reverseBytes buf else buf)

def decodeBytes (b buf : Bytes) : Res (Bytes × Bytes) := decodeBytesWith b buf false

def decodeBytesDesc (b buf : Bytes) : Res (Bytes × Bytes) := decodeBytesWith b buf true

def encodeCompactBytes (b data : Bytes) : Bytes :=
  encodeVarint b (Int64.ofNat data.length) ++ data

def decodeCompactBytes (b : Bytes) : Res (Bytes × Bytes) := do
  let (b, n) ← decodeVarint b
  if n < 0 ∨ (b.length : Int) < n.toInt then
    .error (.errorf "insufficient bytes to decode value, expected length: %v" [.num n.toInt])
  else do
    let rest ← sliceFromInt b n.toInt
    let data ← sliceInt b 0 n.toInt
    return (rest, data)

/-! ## The groups of a string -/

theorem groups_induction {P : Bytes → Prop} (short : ∀ d, d.length < 8 → P d)
    (full : ∀ g d, g.length = 8 → P d → P (g ++ d)) (d : Bytes) : P d := by
  generalize hn : d.length = n
  induction n using Nat.strong_induction_on generalizing d with
  | _ n ih =>
    by_cases h : d.length < 8
    · exact short d h
    · have hd := ih (d.drop 8).length (by rw [length_drop]; omega) (d.drop 8) rfl
      have hg : (d.take 8).length = 8 := by rw [length_take]; omega
      rw [← take_append_drop 8 d]
      exact full _ _ hg hd

def shortGroup (d : Bytes) : Bytes :=
  d ++ replicate (8 - d.length) encPad ++ [encMarker - UInt8.ofNat (8 - d.length)]

theorem encodeBytes_append (b data : Bytes) : encodeBytes b data = b ++ encodeBytes [] data := rfl

variable {d : Bytes}

theorem encodeBytes_short (h : d.length < 8) : encodeBytes [] d = shortGroup d := by
  rw [encodeBytes, encodeGroups, if_neg (by rw [encGroupSize]; omega)]
  rfl

variable {g : Bytes}

theorem encodeBytes_full (h : g.length = 8) (d : Bytes) :
    encodeBytes [] (g ++ d) = g ++ encMarker :: encodeBytes [] d := by
  have hlen : (g ++ d).length / encGroupSize + 1 = (d.length / encGroupSize + 1) + 1 := by
    rw [length_append, encGroupSize]
    omega
  rw [encodeBytes, hlen, encodeGroups, if_pos (by rw [encGroupSize, length_append]; omega), take_left' (show g.length =
    encGroupSize from h), drop_left' (show g.length = encGroupSize from h)]
  rfl

theorem length_shortGroup (h : d.length < 8) : (shortGroup d).length = 9 := by
  simp [shortGroup]
  omega

theorem length_encodeBytes (data : Bytes) : (encodeBytes [] data).length = encodedBytesLength data.length := by
  induction data using groups_induction with
  | short d h =>
    rw [encodeBytes_short h, length_shortGroup h, encodedBytesLength, encGroupSize]
    omega
  | full g d hg ih =>
    rw [encodeBytes_full hg, length_append, length_cons, ih, length_append]
    simp only [encodedBytesLength, encGroupSize]
    omega

/-! ## Decoding -/

def decodeFrom (reverse : Bool) (b buf : Bytes) : Res (Bytes × Bytes) :=
  decodeGroups reverse (b.length / (encGroupSize + 1) + 1) b buf

variable {b : Bytes}

theorem decodeFrom_of_lt (h : b.length < 9) (reverse : Bool) (buf : Bytes) :
    decodeFrom reverse b buf = .error errInsufficient := by
  rw [decodeFrom, decodeGroups, if_pos (by rw [encGroupSize]; omega)]

theorem decodeFrom_group (hg : g.length = 8) (m : UInt8) (t buf : Bytes) (reverse : Bool) : decodeFrom reverse (g ++ m
    :: t) buf = (let padCount := if reverse then m else encMarker - m
       if 8 < padCount.toNat then
         .error (.errorf "invalid marker byte, group bytes %q" [.bytes (g ++ [m])])
       else if padCount ≠ 0 then
         if (g.drop (8 - padCount.toNat)).all (· == if reverse then encMarker else encPad) then
           .ok (t, buf ++ g.take (8 - padCount.toNat))
         else .error (.errorf "invalid padding byte, group bytes %q" [.bytes (g ++ [m])])
       else decodeFrom reverse t (buf ++ g)) := by
  have hlen : (g ++ m :: t).length / (encGroupSize + 1) + 1 = (t.length / (encGroupSize + 1) + 1) + 1 := by
    rw [length_append, length_cons, hg, encGroupSize]
    omega
  have hgroup : (sliceTo (g ++ m :: t) (encGroupSize + 1) : Res Bytes) = .ok (g ++ [m]) := by
    have h := sliceTo_append (ε := Err) (g ++ [m]) t
    rwa [append_assoc, length_append, hg] at h
  have hdata : (sliceTo (g ++ [m]) encGroupSize : Res Bytes) = .ok g := by
    have h := sliceTo_append (ε := Err) g [m]
    rwa [hg] at h
  have hmarker : (index (g ++ [m]) encGroupSize : Res UInt8) = .ok m := by
    rw [index_of_lt (by simp [encGroupSize, hg])]
    simp [encGroupSize, hg]
  have hrest : (sliceFrom (g ++ m :: t) (encGroupSize + 1) : Res Bytes) = .ok t := by
    have h := sliceFrom_append (ε := Err) (g ++ [m]) t
    rwa [append_assoc, length_append, hg] at h
  have hreal : ∀ k, (sliceTo g (encGroupSize - k) : Res Bytes) = .ok (g.take (8 - k)) :=
    fun k => sliceTo_of_le (by rw [hg, encGroupSize]; omega)
  have hpadding : ∀ k, (sliceFrom g (encGroupSize - k) : Res Bytes) = .ok (g.drop (8 - k)) :=
    fun k => sliceFrom_of_le (by rw [hg, encGroupSize]; omega)
  rw [decodeFrom, hlen, decodeGroups, if_neg (by simp [encGroupSize, hg]; omega)]
  simp only [hgroup, hdata, hmarker, hrest, hreal, hpadding, ok_bind, pure_eq]
  generalize (if reverse = true then m else encMarker - m) = padCount
  by_cases hbig : 8 < padCount.toNat
  · rw [if_pos (show encGroupSize < padCount.toNat from hbig), if_pos hbig]
  · rw [if_neg (show ¬ encGroupSize < padCount.toNat from hbig), if_neg hbig]
    by_cases hzero : padCount = 0
    · subst hzero
      rw [if_neg (by simp), if_neg (by simp), decodeFrom,
        take_of_length_le (show g.length ≤ 8 - (0 : UInt8).toNat from hg.le)]
    · rw [if_pos hzero, if_pos hzero]

theorem group_cases (b : Bytes) : b.length < 9 ∨ ∃ g m t, g.length = 8 ∧ b = g ++ m :: t := by
  by_cases h : b.length < 9
  · exact Or.inl h
  · right
    have hdrop : 0 < (b.drop 8).length := by rw [length_drop]; omega
    obtain ⟨m, t, hmt⟩ := exists_cons_of_length_pos hdrop
    exact ⟨b.take 8, m, t, by rw [length_take]; omega, by rw [← hmt, take_append_drop]⟩

theorem encoded_induction {P : Bytes → Prop} (short : ∀ b, b.length < 9 → P b)
    (group : ∀ g m t, g.length = 8 → P t → P (g ++ m :: t)) (b : Bytes) : P b := by
  generalize hn : b.length = n
  induction n using Nat.strong_induction_on generalizing b with
  | _ n ih =>
    rcases group_cases b with h | ⟨g, m, t, hg, rfl⟩
    · exact short b h
    · exact group g m t hg (ih t.length (by rw [← hn]; simp; omega) t rfl)

theorem marker_sub_sub (m : UInt8) : encMarker - (encMarker - m) = m := by grind

theorem eq_replicate_of_all {l : Bytes} {x : UInt8} (h : l.all (· == x) = true) : l = replicate l.length x := by
  rw [eq_replicate_iff]
  exact ⟨rfl, by simpa using all_eq_true.mp h⟩

/-- The forward loop accepts only what the encoder writes. -/
theorem decodeFrom_sound (b : Bytes) (buf r d : Bytes) (h : decodeFrom false b buf = .ok (r, d)) :
    ∃ d', d = buf ++ d' ∧ b = encodeBytes [] d' ++ r := by
  induction b using encoded_induction generalizing buf with
  | short b hb =>
    rw [decodeFrom_of_lt hb] at h
    cases h
  | group g m t hg ih =>
    rw [decodeFrom_group hg] at h
    simp only [Bool.false_eq_true, if_false] at h
    split at h
    · cases h
    · split at h
      · rename_i hne
        split at h
        · rename_i hpad
          cases h
          -- the last group: what is in front of the padding is the data
          have hpos : 0 < (encMarker - m).toNat := by
            rw [Nat.pos_iff_ne_zero]
            exact fun h0 => hne (UInt8.toNat_inj.mp h0)
          have hlen : (g.take (8 - (encMarker - m).toNat)).length = 8 - (encMarker - m).toNat := by
            rw [length_take]
            omega
          refine ⟨_, rfl, ?_⟩
          rw [encodeBytes_short (by omega), shortGroup, hlen,
            show 8 - (8 - (encMarker - m).toNat) = (encMarker - m).toNat by omega,
            UInt8.ofNat_toNat, marker_sub_sub]
          have hdrop := eq_replicate_of_all hpad
          rw [length_drop, hg,
            show 8 - (8 - (encMarker - m).toNat) = (encMarker - m).toNat by omega] at hdrop
          rw [← hdrop, take_append_drop, append_assoc, singleton_append]
        · cases h
      · rename_i hzero
        obtain ⟨d', rfl, rfl⟩ := ih _ h
        have hm : m = encMarker := by
          have h0 := marker_sub_sub m
          rw [not_not.mp hzero] at h0
          rw [← h0]
          rfl
        refine ⟨g ++ d', by rw [append_assoc], ?_⟩
        rw [encodeBytes_full hg, hm, append_assoc, cons_append]

theorem decodeFrom_encodeBytes (d r buf : Bytes) :
    decodeFrom false (encodeBytes [] d ++ r) buf = .ok (r, buf ++ d) := by
  induction d using groups_induction generalizing buf with
  | short d hd =>
    -- one group of eight bytes and a marker below `0xFF`
    have hmarker : encMarker - (encMarker - UInt8.ofNat (8 - d.length)) = UInt8.ofNat (8 - d.length) := marker_sub_sub _
    have hcount : (UInt8.ofNat (8 - d.length)).toNat = 8 - d.length := by
      rw [uint8_toNat_ofNat]
      omega
    have hreal : 8 - (8 - d.length) = d.length := by omega
    rw [encodeBytes_short hd, shortGroup, append_assoc, singleton_append, decodeFrom_group (by simp; omega)]
    simp only [Bool.false_eq_true, if_false, hmarker, hcount, hreal, take_left]
    rw [if_neg (by omega), if_pos, if_pos (by simp)]
    intro h0
    rw [h0] at hcount
    change 0 = _ at hcount
    omega
  | full g d hg ih =>
    rw [encodeBytes_full hg, append_assoc, cons_append, decodeFrom_group hg]
    rw [if_neg (by decide), if_neg (by decide), ih, append_assoc]

variable {r : Bytes}

theorem decodeFrom_eq_ok_iff : decodeFrom false b [] = .ok (r, d) ↔ b = encodeBytes [] d ++ r := by
  constructor
  · intro h
    obtain ⟨d', rfl, rfl⟩ := decodeFrom_sound b [] r d h
    rfl
  · rintro rfl
    exact decodeFrom_encodeBytes d r []

/-! ## The reversed form -/

@[simp] theorem reverseBytes_reverseBytes (b : Bytes) : reverseBytes (reverseBytes b) = b :=
  compl_map_compl b

@[simp] theorem reverseBytes_append (a b : Bytes) :
    reverseBytes (a ++ b) = reverseBytes a ++ reverseBytes b := map_append

@[simp] theorem length_reverseBytes (b : Bytes) : (reverseBytes b).length = b.length :=
  length_map _

variable {a : Bytes}

theorem reverseBytes_inj (h : reverseBytes a = reverseBytes b) : a = b := by
  rw [← reverseBytes_reverseBytes a, h, reverseBytes_reverseBytes]

theorem marker_sub_compl (m : UInt8) : encMarker - ~~~m = m := by
  apply UInt8.toNat_inj.mp
  have h := m.toNat_lt
  rw [UInt8.toNat_sub, uint8_toNat_compl, show encMarker.toNat = 255 from rfl]
  omega

theorem all_reverseBytes (l : Bytes) : (reverseBytes l).all (· == encPad) = l.all (· == encMarker) := by
  rw [reverseBytes, all_map]
  congr 1
  funext x
  rw [Function.comp, Bool.eq_iff_iff, beq_iff_eq, beq_iff_eq]
  constructor
  · intro h
    rw [← UInt8.not_not (a := x), h]
    rfl
  · rintro rfl
    rfl

/-- The reversed loop does on a string what the forward loop does on the complement, and returns
the complements. -/
theorem decodeFrom_reverse (b buf r d : Bytes) : decodeFrom true b buf = .ok (r, d) ↔
      decodeFrom false (reverseBytes b) (reverseBytes buf) = .ok (reverseBytes r, reverseBytes d) := by
  induction b using encoded_induction generalizing buf with
  | short b hb =>
    rw [decodeFrom_of_lt hb, decodeFrom_of_lt (by simpa using hb)]
    simp
  | group g m t hg ih =>
    have hsplit : reverseBytes (g ++ m :: t) = reverseBytes g ++ (~~~m) :: reverseBytes t := by simp [reverseBytes]
    rw [hsplit, decodeFrom_group hg, decodeFrom_group (by simpa using hg)]
    simp only [if_true, Bool.false_eq_true, if_false, marker_sub_compl]
    split
    · simp
    · split
      · have hall : ((reverseBytes g).drop (8 - m.toNat)).all (· == encPad) =
            (g.drop (8 - m.toNat)).all (· == encMarker) := by
          rw [← all_reverseBytes, reverseBytes, reverseBytes, map_drop]
        have htake : (reverseBytes g).take (8 - m.toNat) = reverseBytes (g.take (8 - m.toNat)) :=
          map_take.symm
        rw [hall, htake, ← reverseBytes_append]
        split
        · simp only [ok.injEq, Prod.mk.injEq]
          constructor
          · rintro ⟨rfl, rfl⟩
            exact ⟨rfl, rfl⟩
          · rintro ⟨h1, h2⟩
            exact ⟨reverseBytes_inj h1, reverseBytes_inj h2⟩
        · simp
      · rw [ih, reverseBytes_append]

theorem encodeBytesDesc_nil (d : Bytes) : encodeBytesDesc [] d = reverseBytes (encodeBytes [] d) := rfl

theorem decodeBytes_eq_ok_iff {buf : Bytes} : decodeBytes b buf = .ok (r, d) ↔ b = encodeBytes [] d ++ r := by
  rw [← decodeFrom_eq_ok_iff]
  change (decodeFrom false b [] >>= fun x => .ok (x.1, x.2)) = _ ↔ _
  rw [bind_eq_ok]
  constructor
  · rintro ⟨⟨r', d'⟩, h, heq⟩
    cases heq
    exact h
  · intro h
    exact ⟨(r, d), h, rfl⟩

theorem decodeBytesDesc_eq_ok_iff {buf : Bytes} :
    decodeBytesDesc b buf = .ok (r, d) ↔ b = encodeBytesDesc [] d ++ r := by
  change (decodeFrom true b [] >>= fun x => .ok (x.1, reverseBytes x.2)) = _ ↔ _
  rw [bind_eq_ok, encodeBytesDesc_nil]
  constructor
  · rintro ⟨⟨r', d'⟩, h, heq⟩
    cases heq
    have hb := decodeFrom_eq_ok_iff.mp ((decodeFrom_reverse b [] _ _).mp h)
    rw [← reverseBytes_reverseBytes b, hb]
    simp
  · rintro rfl
    refine ⟨(r, reverseBytes d), ?_, by simp⟩
    rw [decodeFrom_reverse]
    change decodeFrom false _ [] = _
    rw [decodeFrom_eq_ok_iff]
    simp

/-- Both decoders accept exactly the image of their encoder, followed by anything, and return
what follows unchanged. -/
theorem decodeBytes_exact (b buf r d : Bytes) : (decodeBytes b buf = .ok (r, d) ↔ b = encodeBytes [] d ++ r) ∧
      (decodeBytesDesc b buf = .ok (r, d) ↔ b = encodeBytesDesc [] d ++ r) :=
  ⟨decodeBytes_eq_ok_iff, decodeBytesDesc_eq_ok_iff⟩

/-! ## Order -/

theorem compare_zeros_lt (b : Bytes) (k : Nat) {m n : UInt8} (hmn : m < n) (hb : b.length ≤ k) :
    compare (replicate k encPad ++ [m]) (b ++ replicate (k - b.length) encPad ++ [n]) = .lt := by
  induction b generalizing k with
  | nil =>
    rw [nil_append, length_nil, Nat.sub_zero, compare_append rfl, Std.compare_self,
      eq_then, List.compare_cons_cons, compare_uint8_of_lt hmn, lt_then]
  | cons c cs ih =>
    obtain ⟨k, rfl⟩ : ∃ j, k = j + 1 := ⟨k - 1, by rw [length_cons] at hb; omega⟩
    rw [length_cons] at hb
    rw [replicate_succ, length_cons, Nat.add_sub_add_right, cons_append,
      cons_append, cons_append, List.compare_cons_cons, ih k (by omega)]
    by_cases h : c = encPad
    · rw [h, Std.compare_self, eq_then]
    · have hpos : encPad < c := by exact Nat.pos_of_ne_zero fun h0 => h (UInt8.toNat_inj.mp h0)
      rw [compare_uint8_of_lt hpos, lt_then]

theorem compare_padded (a b : Bytes) (k : Nat) (m n : UInt8) (ha : a.length ≤ k)
    (hb : b.length ≤ k) (hlt : a.length < b.length → m < n) (heq : a.length = b.length → m = n)
    (hgt : b.length < a.length → n < m) : compare (a ++ replicate (k - a.length) encPad ++ [m])
      (b ++ replicate (k - b.length) encPad ++ [n]) = compare a b := by
  induction a generalizing b k with
  | nil =>
    cases b with
    | nil => rw [heq rfl, Std.compare_self, Std.compare_self]
    | cons d ds => exact compare_zeros_lt (d :: ds) k (hlt (by simp)) hb
  | cons c cs ih =>
    cases b with
    | nil =>
      rw [Std.OrientedOrd.eq_swap]
      have h := compare_zeros_lt (c :: cs) k (hgt (by simp)) ha
      rw [show (([] : Bytes) ++ replicate (k - ([] : Bytes).length) encPad ++ [n]) =
        replicate k encPad ++ [n] from rfl, h]
      rfl
    | cons d ds =>
      obtain ⟨k, rfl⟩ : ∃ j, k = j + 1 := ⟨k - 1, by rw [length_cons] at hb; omega⟩
      simp only [length_cons] at ha hb hlt heq hgt
      simp only [cons_append, List.compare_cons_cons, length_cons, Nat.add_sub_add_right]
      rw [ih ds k (by omega) (by omega) (fun h => hlt (by omega)) (fun h => heq (by omega)) (fun h => hgt (by omega))]

theorem marker_lt {i j : Nat} (hij : i < j) (hj : j ≤ 8) :
    encMarker - UInt8.ofNat (8 - i) < encMarker - UInt8.ofNat (8 - j) := by
  rw [UInt8.lt_iff_toNat_lt, UInt8.toNat_sub, UInt8.toNat_sub, uint8_toNat_ofNat,
    uint8_toNat_ofNat, show encMarker.toNat = 255 from rfl]
  omega

theorem compare_shortGroup (ha : a.length < 8) (hb : b.length < 8) :
    compare (shortGroup a) (shortGroup b) = compare a b :=
  compare_padded a b 8 _ _ (by omega) (by omega) (fun h => marker_lt h (by omega))
    (fun h => by rw [h]) (fun h => marker_lt h (by omega))

theorem compare_shortGroup_full (ha : a.length < 8) (hg : g.length = 8) (x y : Bytes) :
    compare (shortGroup a ++ x) (g ++ encMarker :: y) = compare a g := by
  have hm : encMarker - UInt8.ofNat (8 - a.length) < encMarker := by
    have h := marker_lt (j := 8) ha le_rfl
    rwa [show encMarker - UInt8.ofNat (8 - 8) = encMarker from rfl] at h
  have hpad := compare_padded a g 8 (encMarker - UInt8.ofNat (8 - a.length)) encMarker (by omega)
    (by omega) (fun _ => hm) (fun h => by omega) (fun h => by omega)
  have hlen : (a ++ replicate (8 - a.length) encPad).length = g.length := by
    simp
    omega
  rw [hg, replicate_zero, append_nil, compare_append hlen,
    List.compare_cons_cons, compare_uint8_of_lt hm, lt_then] at hpad
  rw [shortGroup, append_assoc, compare_append hlen, singleton_append,
    List.compare_cons_cons, compare_uint8_of_lt hm, lt_then, hpad]

theorem compare_ne_eq_of_length (h : a.length ≠ b.length) : compare a b ≠ .eq :=
  fun he => h (congrArg length (Std.compare_eq_iff_eq.mp he))

theorem compare_encodeBytes_short_full (ha : a.length < 8) (hg : g.length = 8) (b x y : Bytes) :
    compare (encodeBytes [] a ++ x) (encodeBytes [] (g ++ b) ++ y) = (compare a (g ++ b)).then (compare x y) := by
  rw [encodeBytes_short ha, encodeBytes_full hg, append_assoc, cons_append,
    compare_shortGroup_full ha hg, compare_append_right_of_lt (by omega)]
  have hne : compare a g ≠ .eq := compare_ne_eq_of_length (by omega)
  cases h : compare a g with
  | lt => rfl
  | gt => rfl
  | eq => exact absurd h hne

/-- The memory-comparable form of byte strings is an ordered code. -/
theorem orderedCode_encodeBytes : OrderedCode (fun _ => True) (encodeBytes []) compare := by
  intro a b _ _ x y
  induction a using groups_induction generalizing b with
  | short a ha =>
    induction b using groups_induction with
    | short b hb =>
      rw [encodeBytes_short ha, encodeBytes_short hb,
        compare_append ((length_shortGroup ha).trans (length_shortGroup hb).symm), compare_shortGroup ha hb]
    | full g b hg _ => exact compare_encodeBytes_short_full ha hg b x y
  | full g a hg ih =>
    induction b using groups_induction with
    | short b hb =>
      rw [Std.OrientedOrd.eq_swap, compare_encodeBytes_short_full hb hg, swap_then, ← Std.OrientedOrd.eq_swap,
        ← Std.OrientedOrd.eq_swap]
    | full g' b hg' _ =>
      rw [encodeBytes_full hg, encodeBytes_full hg', append_assoc, append_assoc, compare_append (hg.trans hg'.symm),
        cons_append, cons_append, List.compare_cons_cons, Std.compare_self, eq_then, ih b, compare_append (hg.trans
        hg'.symm), then_assoc]

/-- The descending forms reverse the order, whatever follows them, and those of integers are read back. -/
theorem descending_order (x y : Bytes) :
    (∀ v w, compare (encodeIntDesc [] v ++ x) (encodeIntDesc [] w ++ y) =
      (compare w.toInt v.toInt).then (compare x y)) ∧
    (∀ v w, compare (encodeUintDesc [] v ++ x) (encodeUintDesc [] w ++ y) =
      (compare w.toNat v.toNat).then (compare x y)) ∧
    (∀ v w, compare (encodeBytesDesc [] v ++ x) (encodeBytesDesc [] w ++ y) = (compare w v).then (compare x y)) ∧
    (∀ b r v, decodeIntDesc b = .ok (r, v) ↔ b = encodeIntDesc [] v ++ r) ∧
    ∀ b r v, decodeUintDesc b = .ok (r, v) ↔ b = encodeUintDesc [] v ++ r := by
  refine ⟨fun v w => ?_, fun v w => orderedCode_encodeUintDesc v w trivial trivial x y, fun v w => ?_, fun b r v => ?_,
    fun b r v => ?_⟩
  · have hv := encodeIntToCmpUint_toNat v
    have hw := encodeIntToCmpUint_toNat w
    have hcmp : compare (encodeIntToCmpUint w).toNat (encodeIntToCmpUint v).toNat = compare w.toInt v.toInt := by
      refine compare_congr ?_ ?_ <;> omega
    rw [← hcmp]
    exact orderedCode_encodeUintDesc (encodeIntToCmpUint v) (encodeIntToCmpUint w) trivial trivial x y
  · rw [Std.OrientedOrd.eq_swap (a := w)]
    exact orderedCode_encodeBytes.compl v w trivial trivial x y
  · rw [decodeIntDesc, decodeFixed_eq_ok_iff]
    constructor
    · rintro ⟨u, rfl, rfl⟩
      simp [encodeIntDesc]
    · rintro rfl
      exact ⟨~~~encodeIntToCmpUint v, by simp, by simp [encodeIntDesc]⟩
  · rw [decodeUintDesc, decodeFixed_eq_ok_iff]
    constructor
    · rintro ⟨u, rfl, rfl⟩
      simp [encodeUintDesc]
    · rintro rfl
      exact ⟨~~~v, by simp, by simp [encodeUintDesc]⟩

/-! ## Compact byte strings -/

theorem decodeFrom_ne_fault (b buf : Bytes) : decodeFrom false b buf ≠ .fault := by
  induction b using encoded_induction generalizing buf with
  | short b h =>
    rw [decodeFrom_of_lt h]
    simp
  | group g m t hg ih =>
    rw [decodeFrom_group hg]
    simp only [Bool.false_eq_true, if_false]
    split
    · simp
    · split
      · split <;> simp
      · exact ih _

theorem decodeBytes_ne_fault (b buf : Bytes) : decodeBytes b buf ≠ .fault := by
  change (decodeFrom false b [] >>= fun x => .ok (x.1, x.2)) ≠ _
  rw [Ne, bind_eq_fault]
  rintro (h | ⟨x, -, h⟩)
  · exact decodeFrom_ne_fault _ _ h
  · cases h

theorem decodeCompactBytes_ne_fault (b : Bytes) : decodeCompactBytes b ≠ .fault := by
  rw [decodeCompactBytes, Ne, bind_eq_fault]
  rintro (h | ⟨⟨b', v⟩, -, h⟩)
  · exact decodeVar_ne_fault unzigzag b h
  · simp only at h
    split at h
    · cases h
    · rename_i hcond
      have hnn : 0 ≤ v.toInt := by
        rw [Int64.lt_iff_toInt_lt] at hcond
        simp at hcond
        omega
      obtain ⟨n, hn⟩ := Int.eq_ofNat_of_zero_le hnn
      rw [hn] at h hcond
      have hlen : n ≤ b'.length := by omega
      rw [sliceFromInt_natCast, sliceFrom_of_le hlen, sliceInt_natCast, slice_of_le (by omega) hlen] at h
      cases h

theorem decodeCompactBytes_eq_ok (h : decodeCompactBytes b = .ok (r, d)) : ∃ (y : UInt64) (k n : Nat), uvarint b = (y,
    (k : Int)) ∧ 0 < k ∧ (unzigzag y).toInt = n ∧ k + n ≤ b.length ∧ r = b.drop (k + n) ∧ d = (b.drop k).take n := by
  rw [decodeCompactBytes, bind_eq_ok] at h
  obtain ⟨⟨b', v⟩, hdec, h⟩ := h
  obtain ⟨y, k, hb, hpos, hle, rfl, rfl⟩ := decodeVarint_eq_ok_iff.mp hdec
  simp only at h
  split at h
  · cases h
  · rename_i hcond
    have hnn : 0 ≤ (unzigzag y).toInt := by
      rw [Int64.lt_iff_toInt_lt] at hcond
      simp at hcond
      omega
    obtain ⟨n, hn⟩ := Int.eq_ofNat_of_zero_le hnn
    rw [hn] at h
    have hlen : n ≤ (b.drop k).length := by omega
    rw [sliceFromInt_natCast, sliceFrom_of_le hlen, sliceInt_natCast, slice_of_le (by omega) hlen] at h
    cases h
    rw [length_drop] at hlen
    exact ⟨y, k, n, hb, hpos, hn, by omega, by rw [drop_drop], by simp⟩

end Tidb.Codec
