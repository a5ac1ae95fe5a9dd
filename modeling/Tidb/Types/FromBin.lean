import Tidb.Types.WriteBin

/-!
# Reading the binary form of a decimal

The size that `FromBin` reports is the one that the precision and the scale give; it does not depend on
the bytes.
-/

namespace Tidb.Types

open GoLang ByteNum List Outcome BinReader

/-! ## Reading words -/

def numAt (b : Bytes) (off size : Nat) : Nat := beNat ((b.drop off).take size)

theorem numAt_lt {b : Bytes} {off size : Nat} : numAt b off size < 256 ^ size := by
  refine Nat.lt_of_lt_of_le (beNat_lt _) (Nat.pow_le_pow_right (by norm_num) ?_)
  rw [length_take]
  omega

theorem bmod_two_mul {x k : Nat} (h : x < 2 * k) :
    (x : Int).bmod (2 * k) = if x < k then (x : Int) else x - (2 * k : Nat) := by
  have hmod : (x : Int) % ((2 * k : Nat) : Int) = x := Int.emod_eq_of_lt (by omega) (by exact_mod_cast h)
  rw [Int.bmod_def]
  split <;> split <;> omega

theorem pow_eq_two_mul {n : Nat} (h : 0 < n) : 256 ^ n = 2 * (128 * 256 ^ (n - 1)) := by
  obtain ⟨n, rfl⟩ : ∃ m, n = m + 1 := ⟨n - 1, by omega⟩
  rw [Nat.add_sub_cancel]
  ring

theorem xorMask_bmod {bs : Bytes} (h : bs ≠ []) (m : Bool) : xorMask ((beNat bs : Int).bmod (256 ^ bs.length)) m =
      (beNat (mask m bs) : Int).bmod (256 ^ bs.length) := by
  cases m with
  | false => rfl
  | true =>
    have hlt := beNat_lt bs
    have hcompl := beNat_map_compl bs
    rw [pow_eq_two_mul (length_pos_iff.mpr h)] at hlt hcompl ⊢
    simp only [mask, xorMask, if_true]
    rw [bmod_two_mul hlt, bmod_two_mul (by omega)]
    split <;> split <;> omega

theorem mask_drop (m : Bool) (l : Bytes) (n : Nat) : (mask m l).drop n = mask m (l.drop n) := by cases m <;> simp [mask]

theorem mask_take (m : Bool) (l : Bytes) (n : Nat) : (mask m l).take n = mask m (l.take n) := by cases m <;> simp [mask]

theorem next_of_le {r : BinReader} {bin : Bytes} {m : Bool} {size : Nat} (hpos : 0 < size)
    (h : r.binIdx + size ≤ bin.length) :
    r.next bin m size = .ok ((numAt (mask m bin) r.binIdx size : Int).bmod (256 ^ size)) := by
  have hlen : ((bin.drop r.binIdx).take size).length = size := by
    rw [length_take, length_drop]
    omega
  have hne : (bin.drop r.binIdx).take size ≠ [] := by
    rw [← length_pos_iff]
    omega
  have hx := xorMask_bmod hne m
  rw [hlen] at hx
  rw [BinReader.next, sliceFrom_of_le (by omega), ok_bind, readWord, sliceTo_of_le (by rw [length_drop]; omega)]
  simp only [ok_bind, pure_eq, Int.toNat_natCast, numAt, mask_drop, mask_take, hx]

theorem next_of_lt {r : BinReader} {bin : Bytes} {m : Bool} {size : Nat}
    (h : bin.length < r.binIdx + size) : r.next bin m size = .fault := by
  rw [BinReader.next]
  by_cases hidx : r.binIdx ≤ bin.length
  · rw [sliceFrom_of_le hidx, ok_bind, readWord, sliceTo_of_lt (by rw [length_drop]; omega)]
    rfl
  · rw [sliceFrom_of_lt (by omega)]
    rfl

theorem badWord_bmod {x : Nat} (h : x < 256 ^ 4) : badWord ((x : Int).bmod (256 ^ 4)) ↔ 10 ^ 9 ≤ x := by
  norm_num at h ⊢
  rw [show (4294967296 : Nat) = 2 * 2147483648 from rfl, bmod_two_mul h, badWord, wordMax]
  split <;> omega

theorem bmod_of_good {x : Nat} (h : x < 10 ^ 9) : (x : Int).bmod (256 ^ 4) = x := by
  rw [show (256 : Nat) ^ 4 = 2 * 2147483648 from rfl, bmod_two_mul (by omega), if_pos (by omega)]

variable {words : WordBuf}

theorem wordBuf_set {i : Nat} (h : i < 9) (x : Int) : ∃ words', words.set i x = .ok words' :=
  ⟨_, if_pos h⟩

theorem wordBuf_set_fault {i : Nat} (h : 9 ≤ i) (x : Int) : words.set i x = .fault :=
  if_neg (by rw [maxWordBufLen]; omega)

/-- The `n` words from the offset on have at most nine digits. -/
def GoodWords (b : Bytes) (off n : Nat) : Prop := ∀ j < n, numAt b (off + 4 * j) 4 < 10 ^ 9

theorem goodWords_add {b : Bytes} {off i k : Nat} :
    GoodWords b off (i + k) ↔ GoodWords b off i ∧ GoodWords b (off + 4 * i) k := by
  have hoff : ∀ j, off + 4 * i + 4 * j = off + 4 * (i + j) := fun j => by omega
  refine ⟨fun h => ⟨fun j hj => h j (by omega), fun j hj => hoff j ▸ h (i + j) (by omega)⟩, fun h j hj => ?_⟩
  by_cases hji : j < i
  · exact h.1 j hji
  · have hw := h.2 (j - i) (by omega)
    rwa [hoff, Nat.add_sub_cancel' (by omega)] at hw

section Words

variable {bin : Bytes} {m : Bool} {advance : BinReader → WordBuf → Int → BinReader}

theorem readWords_one {r : BinReader} (hbin : r.binIdx + 4 ≤ bin.length) (hidx : r.wordIdx < 9) :
    Requires .errBadNumber (numAt (mask m bin) r.binIdx 4 < 10 ^ 9) (readWords bin m advance 1 r) fun r' =>
      ∃ words, r.words.set r.wordIdx (numAt (mask m bin) r.binIdx 4 : Nat) = .ok words ∧
        r' = advance r words (numAt (mask m bin) r.binIdx 4 : Nat) := by
  have hnext := @next_of_le r bin m 4 (by omega) hbin
  rw [readWords, show (4 : Int) = ((4 : Nat) : Int) from rfl, hnext, ok_bind]
  by_cases hgood : numAt (mask m bin) r.binIdx 4 < 10 ^ 9
  · obtain ⟨words, hset⟩ := @wordBuf_set r.words _ hidx (numAt (mask m bin) r.binIdx 4 : Nat)
    refine .inr ⟨hgood, _, ?_, words, hset, rfl⟩
    have hword : ¬ badWord (numAt (mask m bin) r.binIdx 4 : Nat) := by
      rw [badWord, wordMax]
      omega
    rw [bmod_of_good hgood, hset, ok_bind, if_neg hword, readWords]
  · obtain ⟨words, hset⟩ := @wordBuf_set r.words _ hidx ((numAt (mask m bin) r.binIdx 4 : Int).bmod (256 ^ 4))
    rw [hset, ok_bind, if_pos ((badWord_bmod numAt_lt).mpr (not_lt.mp hgood))]
    exact .inl ⟨hgood, rfl⟩

theorem readWords_add (n k : Nat) (r : BinReader) :
    readWords bin m advance (n + k) r = readWords bin m advance n r >>= readWords bin m advance k := by
  induction n generalizing r with
  | zero =>
    rw [Nat.zero_add]
    rfl
  | succ n ih =>
    rw [Nat.succ_add, readWords, readWords]
    cases r.next bin m 4 with
    | ok w =>
      rw [ok_bind, ok_bind]
      cases r.words.set r.wordIdx w with
      | ok words =>
        rw [ok_bind, ok_bind, ih]
        split <;> rfl
      | _ => rfl
    | _ => rfl

theorem readWords_fault {r : BinReader} (h : bin.length < r.binIdx + 4 ∨ 9 ≤ r.wordIdx) {n : Nat}
    (hn : 0 < n) : readWords bin m advance n r = .fault := by
  obtain ⟨n, rfl⟩ : ∃ k, n = k + 1 := ⟨n - 1, by omega⟩
  rw [readWords, show (4 : Int) = ((4 : Nat) : Int) from rfl]
  by_cases hbin : r.binIdx + 4 ≤ bin.length
  · rw [next_of_le (by omega) hbin, ok_bind, wordBuf_set_fault (by omega)]
    rfl
  · rw [next_of_lt (by omega)]
    rfl

/-- A run of the loop over `n` words that are there stops at a bad one or keeps the invariant; `inv j` is about the
reader in front of word `j`. -/
theorem readWords_checked {inv : Nat → BinReader → Prop} {off n : Nat}
    (hinv : ∀ j r, inv j r → r.binIdx = off + 4 * j ∧ (j < n → r.wordIdx < 9))
    (hstep : ∀ j r words, inv j r → j < n →
      r.words.set r.wordIdx (numAt (mask m bin) (off + 4 * j) 4 : Nat) = .ok words →
      inv (j + 1) (advance r words (numAt (mask m bin) (off + 4 * j) 4 : Nat)))
    (hbin : off + 4 * n ≤ bin.length) {r : BinReader} (h0 : inv 0 r) :
    Requires .errBadNumber (GoodWords (mask m bin) off n) (readWords bin m advance n r) (inv n) := by
  suffices hrun : ∀ i ≤ n, Requires .errBadNumber (GoodWords (mask m bin) off i)
    (readWords bin m advance i r) (inv i) by
    exact hrun n le_rfl
  intro i
  induction i with
  | zero => exact fun _ => .inr ⟨fun j hj => absurd hj (Nat.not_lt_zero j), r, rfl, h0⟩
  | succ i ih =>
    intro hi
    have hsplit : GoodWords (mask m bin) off (i + 1) ↔
        GoodWords (mask m bin) off i ∧ numAt (mask m bin) (off + 4 * i) 4 < 10 ^ 9 := Nat.forall_lt_succ_right
    rw [hsplit, readWords_add]
    refine (ih (by omega)).bind fun r hr => ?_
    obtain ⟨hidx, hword⟩ := hinv i r hr
    have hone := @readWords_one bin m advance r (by omega) (hword hi)
    rw [hidx] at hone
    refine hone.imp fun r' hr' => ?_
    obtain ⟨words, hset, rfl⟩ := hr'
    exact hstep i r words hr hi hset

end Words

/-! ## The digits in front of the first word and after the last one -/

/-- The leading digits are refused from here on: as a signed number they are negative, or they have
more than one digit too many. -/
def leadingLimit (l : Nat) : Nat := min (128 * 256 ^ (digWidth l - 1)) (10 ^ (l + 1))

section Partial

variable {bin : Bytes} {m : Bool}

theorem readLeading_checked {r : BinReader} {l : Nat} (hl : 0 < l) (hl8 : l ≤ 8)
    (hbin : r.binIdx + digWidth l ≤ bin.length) (hidx : r.wordIdx < 9) :
    Requires .errBadNumber (numAt (mask m bin) r.binIdx (digWidth l) < leadingLimit l) (readLeading bin m l r) fun r' =>
      ∃ words, r.words.set r.wordIdx (numAt (mask m bin) r.binIdx (digWidth l) : Nat) = .ok words ∧
        r' = r.keep words (numAt (mask m bin) r.binIdx (digWidth l) : Nat) (int8 l) (digWidth l) := by
  have hd := digWidth_pos hl
  have hnext := @next_of_le r bin m (digWidth l) hd hbin
  have hlt := @numAt_lt (mask m bin) r.binIdx (digWidth l)
  rw [pow_eq_two_mul hd] at hlt hnext
  rw [bmod_two_mul hlt] at hnext
  have hpow : powers10 ((l : Int) + 1) = .ok (10 ^ (l + 1)) := by exact_mod_cast @powers10_natCast (l + 1) (by omega)
  rw [readLeading, if_pos (by omega), dig2bytes_natCast (by omega), ok_bind, hnext,
    ok_bind, hpow, leadingLimit, lt_min_iff]
  have hcast : ((10 ^ (l + 1) : Nat) : Int) = 10 ^ (l + 1) := by push_cast; rfl
  rw [← hcast]
  generalize numAt (mask m bin) r.binIdx (digWidth l) = w at hlt ⊢
  generalize 128 * 256 ^ (digWidth l - 1) = k at hlt ⊢
  generalize 10 ^ (l + 1) = lim
  by_cases hgood : w < k ∧ w < lim
  · obtain ⟨words, hset⟩ := @wordBuf_set r.words _ hidx (w : Int)
    refine .inr ⟨hgood, _, ?_, words, hset, rfl⟩
    rw [if_pos hgood.1, hset, ok_bind, ok_bind, if_neg (by omega)]
    rfl
  · obtain ⟨words, hset⟩ := @wordBuf_set r.words _ hidx (if w < k then (w : Int) else w - (2 * k : Nat))
    rw [hset, ok_bind, ok_bind, if_pos (by split <;> omega)]
    exact .inl ⟨hgood, rfl⟩

/-- The word of the trailing digits `x`: a product of 32 bits. -/
def trailingWord (t x : Nat) : Int := int32 ((x : Int).bmod (256 ^ digWidth t) * 10 ^ (9 - t))

theorem readTrailing_of_le {r : BinReader} {t : Nat} (ht : 0 < t) (ht8 : t ≤ 8)
    (hbin : r.binIdx + digWidth t ≤ bin.length) (hidx : r.wordIdx < 9) :
    ∃ words, r.words.set r.wordIdx (trailingWord t (numAt (mask m bin) r.binIdx (digWidth t))) = .ok words ∧
      readTrailing bin m t r = if badWord (trailingWord t (numAt (mask m bin) r.binIdx (digWidth t)))
        then .error .errBadNumber else .ok { r with words := words } := by
  have hpow : powers10 (digitsPerWord - (t : Int)) = .ok (10 ^ (9 - t)) := by
    rw [show (digitsPerWord : Int) - t = ((9 - t : Nat) : Int) by rw [digitsPerWord]; omega]
    exact powers10_natCast (by omega)
  obtain ⟨words, hset⟩ := @wordBuf_set r.words _ hidx (trailingWord t (numAt (mask m bin) r.binIdx (digWidth t)))
  refine ⟨words, hset, ?_⟩
  rw [trailingWord] at hset
  rw [readTrailing, if_pos (by omega), dig2bytes_natCast (by omega), ok_bind, next_of_le (digWidth_pos ht) hbin, hpow]
  simp only [hset, ok_bind]
  rfl

theorem readTrailing_fault {r : BinReader} {t : Nat} (ht : 0 < t) (ht8 : t ≤ 8)
    (hbin : bin.length < r.binIdx + digWidth t) : readTrailing bin m t r = .fault := by
  rw [readTrailing, if_pos (by omega), dig2bytes_natCast (by omega), ok_bind, next_of_lt hbin]
  rfl

end Partial

/-! ## The words of a reader -/

def Buffered (ws : List Nat) (words : WordBuf) : Prop := ∃ post, words.1 = ws.map Nat.cast ++ post

theorem Buffered.set {ws : List Nat} {words' : WordBuf} (h : Buffered ws words)
    (hlen : ws.length < 9) {w : Nat} (hset : words.set ws.length (w : Nat) = .ok words') :
    Buffered (ws ++ [w]) words' := by
  rw [WordBuf.set, if_pos (show ws.length < maxWordBufLen from hlen)] at hset
  cases hset
  obtain ⟨post, hpost⟩ := h
  have hroom := words.2
  rw [hpost, length_append, length_map, maxWordBufLen] at hroom
  obtain ⟨x, post', rfl⟩ := exists_cons_of_length_pos (show 0 < post.length by omega)
  refine ⟨post', ?_⟩
  simp only [hpost]
  simp

theorem Buffered.of_concat {ws : List Nat} {w : Nat} (h : Buffered (ws ++ [w]) words) : Buffered ws words := by
  obtain ⟨post, hpost⟩ := h
  exact ⟨(w : Int) :: post, by rw [hpost]; simp⟩

structure BinReader.Holds (ws : List Nat) (digits off : Nat) (r : BinReader) : Prop where
  words : Buffered ws r.words
  wordIdx : r.wordIdx = ws.length
  digitsInt : r.digitsInt = digits
  binIdx : r.binIdx = off

theorem int8_natCast {n : Nat} (h : n < 128) : int8 n = n := by
  rw [int8, Int.bmod_def]
  split <;> omega

theorem keep_holds {r : BinReader} {ws : List Nat} {digits off k size w : Nat}
    (h : r.Holds ws digits off) (hlen : ws.length < 9) (hdigits : digits < 128)
    (hset : r.words.set r.wordIdx (w : Nat) = .ok words) :
    ((0 < ws.length ∨ w ≠ 0) → (r.keep words w k size).Holds (ws ++ [w]) digits (off + size)) ∧
      (ws = [] → w = 0 → k ≤ digits → (r.keep words w k size).Holds [] (digits - k) (off + size)) := by
  rw [h.wordIdx] at hset
  have hbuf := h.words.set hlen hset
  constructor
  · intro hkeep
    rw [keep, if_pos (by rw [h.wordIdx]; omega)]
    exact ⟨hbuf, by simp [h.wordIdx], h.digitsInt, by rw [h.binIdx]⟩
  · rintro rfl rfl hk
    rw [keep, if_neg (by rw [h.wordIdx]; simp)]
    refine ⟨hbuf.of_concat, h.wordIdx, ?_, by rw [h.binIdx]⟩
    simp only [h.digitsInt]
    rw [← Nat.cast_sub hk]
    exact int8_natCast (by omega)

/-- The reader has read the words `done` of an integer part of `D` digits, with `left` words in front of the point to
go: it has dropped the zeros in front, and their digits. -/
def IntRead (D : Nat) (done : List Nat) (left off : Nat) (r : BinReader) : Prop :=
  r.Holds (done.dropWhile (· == 0)) (min D (9 * ((done.dropWhile (· == 0)).length + left))) off

theorem IntRead.wordIdx_le {D left off : Nat} {done : List Nat} {r : BinReader} (h : IntRead D done left off r) :
    r.wordIdx ≤ done.length := by
  rw [h.wordIdx]
  exact (dropWhile_sublist _).length_le

/-- A word of `k` digits is kept, or dropped with them. -/
theorem IntRead.keep {D left off k size w : Nat} {done : List Nat} {r : BinReader} (h : IntRead D done (left + 1) off r)
    (hk : min D (9 * (left + 1)) = k + 9 * left) (hlen : done.length < 9) (hD : D < 128)
    (hset : r.words.set r.wordIdx (w : Nat) = .ok words) :
    IntRead D (done ++ [w]) left (off + size) (r.keep words w k size) := by
  unfold IntRead at h ⊢
  have hle := (dropWhile_sublist (l := done) (· == 0)).length_le
  have hkeep := @keep_holds words r _ _ off k size w h (by omega) (by omega) hset
  rw [dropWhile_append]
  by_cases hnil : done.dropWhile (· == 0) = []
  · rw [if_pos (by rw [hnil, isEmpty_nil]), dropWhile_cons, dropWhile_nil]
    rw [hnil, length_nil, Nat.zero_add, nil_append] at hkeep
    split
    · rename_i hw
      have hdrop := hkeep.2 rfl (beq_iff_eq.mp hw) (by omega)
      rwa [length_nil, Nat.zero_add, show min D (9 * left) = min D (9 * (left + 1)) - k by omega]
    · rename_i hw
      rw [length_singleton, Nat.add_comm 1]
      exact hkeep.1 (.inr fun h => hw (beq_iff_eq.mpr h))
  · rw [if_neg (by rwa [List.isEmpty_iff]), length_append, length_singleton, Nat.add_assoc, Nat.add_comm 1]
    exact hkeep.1 (.inl (length_pos_iff.mpr hnil))

/-! ## Reading the digits -/

def wordsAt (b : Bytes) (off n : Nat) : List Nat := (range n).map fun j => numAt b (off + 4 * j) 4

@[simp] theorem length_wordsAt (b : Bytes) (off n : Nat) : (wordsAt b off n).length = n := by simp [wordsAt]

theorem wordsAt_succ (b : Bytes) (off n : Nat) :
    wordsAt b off (n + 1) = wordsAt b off n ++ [numAt b (off + 4 * n) 4] := by
  rw [wordsAt, range_succ, map_append]
  rfl

/-- The word of the digits in front of the first full one. -/
def leadAt (b : Bytes) (l : Nat) : List Nat := if l = 0 then [] else [numAt b 0 (digWidth l)]

theorem length_leadAt (b : Bytes) (l : Nat) : (leadAt b l).length = if 0 < l then 1 else 0 := by
  rw [leadAt]
  split <;> split <;> first | rfl | omega

def intsAt (b : Bytes) (l wi : Nat) : List Nat := leadAt b l ++ wordsAt b (digWidth l) wi

def fracsAt (b : Bytes) (off wf t : Nat) : List Nat :=
  wordsAt b off wf ++ if t = 0 then [] else [(trailingWord t (numAt b (off + 4 * wf) (digWidth t))).toNat]

/-- The checks of the reader: the digits in front of the first word may have one digit too many, and those behind the
last one are compared with the largest word after their product. -/
structure Passes (b : Bytes) (l n t : Nat) : Prop where
  leading : 0 < l → numAt b 0 (digWidth l) < leadingLimit l
  words : GoodWords b (digWidth l) n
  trailing : 0 < t → ¬ badWord (trailingWord t (numAt b (digWidth l + 4 * n) (digWidth t)))

/-- The reader at the end: the integer words without the zeros in front, and those of the fraction. -/
structure BinReader.Done (b : Bytes) (l wi wf t : Nat) (r : BinReader) : Prop where
  digitsInt : r.digitsInt = (min (9 * wi + l) (9 * ((intsAt b l wi).dropWhile (· == 0)).length) : Nat)
  words : Buffered ((intsAt b l wi).dropWhile (· == 0) ++ fracsAt b (digWidth l + 4 * wi) wf t) r.words

section Digits

variable {bin : Bytes} {m : Bool} {l wi wf t : Nat}

theorem readLeading_cases (hl8 : l ≤ 8) (hbin : digWidth l ≤ bin.length) (hwi : wi ≤ 9) :
    Requires .errBadNumber (0 < l → numAt (mask m bin) 0 (digWidth l) < leadingLimit l)
      (readLeading bin m l ⟨words, 0, (9 * wi + l : Nat), 0⟩)
      (IntRead (9 * wi + l) (leadAt (mask m bin) l) wi (digWidth l)) := by
  by_cases hl : l = 0
  · subst hl
    refine .inr ⟨fun h => absurd h (lt_irrefl 0), _, rfl, ⟨words.1, rfl⟩, rfl, ?_, rfl⟩
    simp
  · have hstart : IntRead (9 * wi + l) [] (wi + 1) 0 ⟨words, 0, (9 * wi + l : Nat), 0⟩ := by
      refine ⟨⟨words.1, rfl⟩, rfl, ?_, rfl⟩
      rw [dropWhile_nil, length_nil, Nat.min_eq_left (by omega)]
    rw [leadAt, if_neg hl, imp_iff_right (Nat.pos_of_ne_zero hl)]
    refine (@readLeading_checked bin m ⟨words, 0, (9 * wi + l : Nat), 0⟩ l (by omega) hl8 (by simp only; omega)
      (by simp only; omega)).imp fun r' hr' => ?_
    obtain ⟨words', hset, rfl⟩ := hr'
    rw [int8_natCast (by omega)]
    have hread := @IntRead.keep words' _ wi 0 l (digWidth l) _ [] _ hstart (by omega) (Nat.zero_lt_succ 8) (by omega)
      hset
    rwa [Nat.zero_add, nil_append] at hread

theorem readIntWords_cases {r : BinReader} (h : IntRead (9 * wi + l) (leadAt (mask m bin) l) wi (digWidth l) r)
    (hl8 : l ≤ 8) (hlen : (if 0 < l then 1 else 0) + wi ≤ 9) (hbin : digWidth l + 4 * wi ≤ bin.length) :
    Requires .errBadNumber (GoodWords (mask m bin) (digWidth l) wi) (readIntWords bin m wi r)
      (IntRead (9 * wi + l) (intsAt (mask m bin) l wi) 0 (digWidth l + 4 * wi)) := by
  have hlead := length_leadAt (mask m bin) l
  have hrun := @readWords_checked bin m (fun r words w => r.keep words w digitsPerWord 4)
    (fun j r => IntRead (9 * wi + l) (leadAt (mask m bin) l ++ wordsAt (mask m bin) (digWidth l) j) (wi - j)
      (digWidth l + 4 * j) r) (digWidth l) wi
    (fun j r hr => ⟨hr.binIdx, fun hj => by
      have hidx := hr.wordIdx_le
      rw [length_append, length_wordsAt] at hidx
      omega⟩)
    (fun j r words hr hj hset => by
      rw [show wi - j = wi - (j + 1) + 1 by omega] at hr
      rw [wordsAt_succ, ← append_assoc]
      exact @IntRead.keep words _ _ _ 9 4 _ _ r hr (by omega) (by rw [length_append, length_wordsAt]; omega)
        (by omega) hset)
    hbin r (by simpa [wordsAt] using h)
  rwa [Nat.sub_self] at hrun

theorem readFracWords_cases {r : BinReader} {ks : List Nat} {digits off : Nat} (h : r.Holds ks digits off)
    (hlen : ks.length + wf ≤ 9) (hbin : off + 4 * wf ≤ bin.length) :
    Requires .errBadNumber (GoodWords (mask m bin) off wf) (readFracWords bin m wf r)
      (Holds (ks ++ wordsAt (mask m bin) off wf) digits (off + 4 * wf)) := by
  have hroom : ∀ j, j < wf → (ks ++ wordsAt (mask m bin) off j).length < 9 := fun j hj => by
    rw [length_append, length_wordsAt]
    omega
  exact @readWords_checked bin m (fun r words _ => ⟨words, r.wordIdx + 1, r.digitsInt, r.binIdx + 4⟩)
    (fun j => Holds (ks ++ wordsAt (mask m bin) off j) digits (off + 4 * j)) off wf
    (fun j r hr => ⟨hr.binIdx, fun hj => hr.wordIdx ▸ hroom j hj⟩)
    (fun j r words hr hj hset => by
      rw [hr.wordIdx] at hset
      rw [wordsAt_succ, ← append_assoc]
      exact ⟨hr.words.set (hroom j hj) hset, by simp only [hr.wordIdx, length_append, length_singleton],
        hr.digitsInt, by simp only [hr.binIdx]; omega⟩)
    hbin r (by simpa [wordsAt] using h)

theorem readTrailing_cases {r : BinReader} {ks : List Nat} {digits off : Nat}
    (h : r.Holds (ks ++ wordsAt (mask m bin) off wf) digits (off + 4 * wf)) (ht8 : t ≤ 8)
    (hlen : ks.length + wf + (if 0 < t then 1 else 0) ≤ 9) (hbin : off + 4 * wf + digWidth t ≤ bin.length) :
    Requires .errBadNumber (0 < t → ¬ badWord (trailingWord t (numAt (mask m bin) (off + 4 * wf) (digWidth t))))
      (readTrailing bin m t r) fun r' =>
        r'.digitsInt = digits ∧ Buffered (ks ++ fracsAt (mask m bin) off wf t) r'.words := by
  by_cases ht : t = 0
  · subst ht
    refine .inr ⟨fun h => absurd h (lt_irrefl 0), r, rfl, h.digitsInt, ?_⟩
    simpa [fracsAt] using h.words
  · rw [imp_iff_right (Nat.pos_of_ne_zero ht)]
    have hroom : (ks ++ wordsAt (mask m bin) off wf).length < 9 := by
      rw [if_pos (by omega)] at hlen
      rw [length_append, length_wordsAt]
      omega
    obtain ⟨words, hset, hread⟩ := @readTrailing_of_le bin m r t (by omega) ht8 (by rw [h.binIdx]; omega)
      (h.wordIdx ▸ hroom)
    rw [h.binIdx] at hset hread
    rw [hread]
    split
    · rename_i hbad
      exact .inl ⟨fun hgood => hgood hbad, rfl⟩
    · rename_i hgood
      refine .inr ⟨hgood, _, rfl, h.digitsInt, ?_⟩
      rw [h.wordIdx, ← Int.toNat_of_nonneg (not_lt.mp fun h => hgood (.inl h))] at hset
      rw [fracsAt, if_neg ht, ← append_assoc]
      exact h.words.set hroom hset

theorem passes_iff {b : Bytes} : Passes b l (wi + wf) t ↔ (0 < l → numAt b 0 (digWidth l) < leadingLimit l) ∧
    GoodWords b (digWidth l) wi ∧ GoodWords b (digWidth l + 4 * wi) wf ∧
      (0 < t → ¬ badWord (trailingWord t (numAt b (digWidth l + 4 * wi + 4 * wf) (digWidth t)))) := by
  rw [Nat.add_assoc (digWidth l), ← Nat.mul_add, ← and_assoc (a := GoodWords b _ wi), ← goodWords_add]
  exact ⟨fun h => ⟨h.1, h.2, h.3⟩, fun h => ⟨h.1, h.2.1, h.2.2⟩⟩

/-- Where the bytes are there and there is a place for each word, the reader stops at a check that fails, or has all the
digits. -/
theorem readDigits_cases (words : WordBuf) {D : Nat} (hD : 9 * wi + l = D) (hl8 : l ≤ 8) (ht8 : t ≤ 8)
    (hwords : (if 0 < l then 1 else 0) + wi + wf + (if 0 < t then 1 else 0) ≤ 9)
    (hbin : digWidth l + 4 * (wi + wf) + digWidth t ≤ bin.length) :
    Requires .errBadNumber (Passes (mask m bin) l (wi + wf) t)
      (readDigits bin m l wi wf t ⟨words, 0, D, 0⟩) (Done (mask m bin) l wi wf t) := by
  subst hD
  rw [readDigits, Int.toNat_natCast, Int.toNat_natCast, passes_iff]
  refine (@readLeading_cases words bin m l wi hl8 (by omega) (by omega)).bind fun r₁ hr₁ => ?_
  refine (readIntWords_cases hr₁ hl8 (by omega) (by omega)).bind fun r₂ hr₂ => ?_
  have hks : ((intsAt (mask m bin) l wi).dropWhile (· == 0)).length ≤ (if 0 < l then 1 else 0) + wi := by
    have hle := (dropWhile_sublist (l := intsAt (mask m bin) l wi) (· == 0)).length_le
    rwa [intsAt, length_append, length_leadAt, length_wordsAt] at hle
  refine (@readFracWords_cases bin m wf r₂ _ _ _ hr₂ (by omega) (by omega)).bind fun r₃ hr₃ => ?_
  exact (@readTrailing_cases bin m wf t r₃ _ _ _ hr₃ ht8 (by omega) (by omega)).imp fun _ h => ⟨h.1, h.2⟩

end Digits

/-! ## Staying in bounds -/

theorem keep_binIdx (r : BinReader) (words : WordBuf) (w digits : Int) (size : Nat) :
    (r.keep words w digits size).binIdx = r.binIdx + size := by
  rw [keep]
  split <;> rfl

theorem keep_wordIdx (r : BinReader) (words : WordBuf) (w digits : Int) (size : Nat) :
    (r.keep words w digits size).wordIdx = r.wordIdx + if 0 < r.wordIdx ∨ w ≠ 0 then 1 else 0 := by
  rw [keep]
  split <;> rfl

/-! ## The size and the words of a precision and a scale -/

theorem decimalBinSize_of_le {p f : Nat} (h : f ≤ p) :
    decimalBinSize p f = .ok ((digitBytes (p - f) + digitBytes f : Nat) : Int) := by
  have hsub : (p : Int) - f = ((p - f : Nat) : Int) := by omega
  simp only [decimalBinSize, hsub, tdiv_digitsPerWord, sub_div_digitsPerWord]
  rw [if_neg (by omega), dig2bytes_natCast (by omega), ok_bind,
    dig2bytes_natCast (by omega), ok_bind, digitBytes, digitBytes, wordSize]
  congr 1
  omega

theorem decimalBinSize_of_lt {p f : Nat} (h : p < f) : decimalBinSize p f =
      if (f - p) % 9 = 0 then .ok (digitBytes p : Int) else .error .errBadNumber := by
  have hdiv : ((p : Int) - f).tdiv digitsPerWord = -(((f - p) / 9 : Nat) : Int) := by
    rw [show (p : Int) - f = -((f - p : Nat) : Int) by omega, Int.neg_tdiv, tdiv_digitsPerWord]
  simp only [decimalBinSize, hdiv, tdiv_digitsPerWord, sub_div_digitsPerWord]
  have hsub : (p : Int) - f - -(((f - p) / 9 : Nat) : Int) * digitsPerWord = -(((f - p) % 9 : Nat) : Int) := by
    rw [digitsPerWord]
    omega
  rw [hsub]
  split
  · rw [if_neg (by omega)]
  · have hzero : (f - p) % 9 = 0 := by omega
    -- the words that the integer part lacks come from the fraction
    have hf9 : f % 9 = p % 9 := by omega
    rw [hzero, Nat.cast_zero, neg_zero, show (0 : Int) = ((0 : Nat) : Int) from rfl, dig2bytes_natCast (by omega),
      ok_bind, dig2bytes_natCast (by omega), ok_bind, hf9, digitBytes, wordSize, show digWidth 0 = 0 from rfl]
    congr 1
    omega

section Fit

variable {lb wi wf t wiTo wfTo : Int}

theorem fitWords_regular (h : wiTo + wfTo ≤ 9) : fitWords lb wi wf t wiTo wfTo = (0, wf, t, none) := by
  rw [fitWords, fixWordCntError, if_neg (by rw [maxWordBufLen]; omega)]

theorem fitWords_truncated (hi : wiTo ≤ 9) (h : 9 < wiTo + wfTo) :
    fitWords lb wi wf t wiTo wfTo = (0, 9 - wiTo, 0, some .errTruncated) := by
  rw [fitWords, fixWordCntError, if_pos (by rw [maxWordBufLen]; omega), if_neg (by rw [maxWordBufLen]; omega)]
  exact if_neg (lt_irrefl wiTo)

theorem fitWords_overflow (hi : 9 < wiTo) (h : 9 < wiTo + wfTo) :
    fitWords lb wi wf t wiTo wfTo = (lb + (wi - 9) * 4, wf, t, some .errOverflow) := by
  rw [fitWords, fixWordCntError, if_pos (by rw [maxWordBufLen]; omega), if_pos (by rw [maxWordBufLen]; omega)]
  exact if_pos hi

end Fit

theorem binResult_of_read (size frac digitsFrac : Int) (mask : Bool) (err : Option Err) {x : Res BinReader}
    (h : x = .error .errBadNumber ∨ ∃ r, x = .ok r) : ∃ dec err',
      binResult size frac digitsFrac mask err x = .ok (size, dec, err') ∧ (err' = some .errBadNumber ∨ err' = err) := by
  obtain rfl | ⟨r, rfl⟩ := h
  · exact ⟨_, _, rfl, .inl rfl⟩
  · rw [binResult]
    split <;> exact ⟨_, _, rfl, .inr rfl⟩

theorem binResult_eq_fault {size frac digitsFrac : Int} {mask : Bool} {err : Option Err}
    {r : Res BinReader} : binResult size frac digitsFrac mask err r = .fault ↔ r = .fault := by
  cases r with
  | ok r =>
    rw [binResult]
    split <;> simp
  | _ => simp [binResult]

def wordsFor (n : Nat) : Nat := n / 9 + if 0 < n % 9 then 1 else 0

theorem wordsFor_cast (n : Nat) : (if 0 < ((n % 9 : Nat) : Int) then ((n / 9 : Nat) : Int) + 1 else ((n / 9 : Nat) :
    Int)) = wordsFor n := by
  rw [wordsFor]
  split <;> split <;> omega

section ReadBin

variable {d : MyDecimal} {bin : Bytes} {p f size : Nat} {m : Bool}

theorem index_take (hpos : 0 < size) (hle : size ≤ bin.length) :
    ∃ x, (index (bin.take size ++ replicate (size - bin.length) 0) 0 : Res UInt8) = .ok x := by
  refine ⟨_, index_of_lt ?_⟩
  rw [length_append, length_take]
  omega

theorem readBin_of_le (h : f ≤ p) (hpos : 0 < size) (hle : size ≤ bin.length) {fit : Int × Int × Int × Option Err}
    (hfit : fitWords (digWidth ((p - f) % 9)) ((p - f) / 9 : Nat) (f / 9 : Nat) (f % 9 : Nat)
      (wordsFor (p - f)) (wordsFor f) = fit) : readBin d bin size p f m =
      binResult size f (int8 (fit.2.1 * digitsPerWord + fit.2.2.1)) m fit.2.2.2
        (readDigits (flipTop (bin.take size)) m ((p - f) % 9 : Nat) ((p - f) / 9 : Nat) fit.2.1
          fit.2.2.1 ⟨d.wordBuf, 0, int8 (p - f : Nat), fit.1.toNat⟩) := by
  have hsub : (p : Int) - f = ((p - f : Nat) : Int) := by omega
  obtain ⟨x, hx⟩ := index_take hpos hle
  have hdigits : ((((p - f) / 9 : Nat) : Int) * digitsPerWord + (((p - f) % 9 : Nat) : Int)) =
      ((p - f : Nat) : Int) := by
    rw [digitsPerWord]
    omega
  simp only [readBin, hsub, tdiv_digitsPerWord, sub_div_digitsPerWord, Int.toNat_natCast, hx,
    ok_bind, dig2bytes_natCast (show (p - f) % 9 < 10 by omega), wordsFor_cast, hfit, hdigits]
  rw [show size - bin.length = 0 by omega, replicate_zero, append_nil]

theorem readBin_of_lt (h : p < f) (h9 : (f - p) % 9 = 0) (hpos : 0 < size) (hle : size ≤ bin.length)
    {fit : Int × Int × Int × Option Err} (hfit : fitWords 0 (-((f - p) / 9 : Nat)) (f / 9 : Nat) (f % 9 : Nat)
      (-((f - p) / 9 : Nat)) (wordsFor f) = fit) : ∃ digitsInt, readBin d bin size p f m =
      binResult size f (int8 (fit.2.1 * digitsPerWord + fit.2.2.1)) m fit.2.2.2
        (readFracWords (flipTop (bin.take size)) m fit.2.1.toNat
          ⟨d.wordBuf, 0, digitsInt, fit.1.toNat⟩ >>= readTrailing (flipTop (bin.take size)) m fit.2.2.1) := by
  have hdiv : ((p : Int) - f).tdiv digitsPerWord = -(((f - p) / 9 : Nat) : Int) := by
    rw [show (p : Int) - f = -((f - p : Nat) : Int) by omega, Int.neg_tdiv, tdiv_digitsPerWord]
  have hsub : (p : Int) - f - -(((f - p) / 9 : Nat) : Int) * digitsPerWord = 0 := by
    rw [digitsPerWord]
    omega
  obtain ⟨x, hx⟩ := index_take hpos hle
  refine ⟨int8 (-(((f - p) / 9 : Nat) : Int) * digitsPerWord + 0), ?_⟩
  have hlead : dig2bytes 0 = .ok 0 := rfl
  have hlead' : ∀ r, readLeading (flipTop (bin.take size)) m 0 r = .ok r := fun r => rfl
  have hint : (-(((f - p) / 9 : Nat) : Int)).toNat = 0 := by omega
  have hint' : ∀ r, readIntWords (flipTop (bin.take size)) m 0 r = .ok r := fun r => rfl
  simp only [readBin, hdiv, hsub, tdiv_digitsPerWord, sub_div_digitsPerWord, Int.toNat_natCast, hx,
    ok_bind, hlead, wordsFor_cast, lt_irrefl, if_false, hfit]
  rw [show size - bin.length = 0 by omega, replicate_zero, append_nil, readDigits, hlead',
    ok_bind, hint, hint', ok_bind]

theorem length_flipTop_take (hle : size ≤ bin.length) : (flipTop (bin.take size)).length = size := by
  rw [length_flipTop, length_take]
  omega

/-- With at most nine words of integer digits nothing goes wrong: a word is refused, or digits of the fraction are left
out, or all of them are read. -/
theorem readBin_result (h : f ≤ p) (h81 : p - f ≤ 81) (hpos : 0 < size) (hle : size ≤ bin.length)
    (hsize : size = digitBytes (p - f) + digitBytes f) : ∃ dec err, readBin d bin size p f m = .ok (size, dec, err) ∧
      (err = some .errBadNumber ∨ wordsFor (p - f) + wordsFor f ≤ 9 ∧ err = none ∨
        9 < wordsFor (p - f) + wordsFor f ∧ err = some .errTruncated) := by
  have hlen := length_flipTop_take hle
  have hwords : wordsFor (p - f) ≤ 9 := by
    rw [wordsFor]
    split <;> omega
  rw [digitBytes, digitBytes] at hsize
  have hdigits := Nat.div_add_mod (p - f) 9
  by_cases hfit : wordsFor (p - f) + wordsFor f ≤ 9
  · rw [readBin_of_le h hpos hle (fitWords_regular (by omega)), int8_natCast (by omega)]
    obtain ⟨dec, err, hres, herr⟩ := binResult_of_read size f
      (int8 ((f / 9 : Nat) * digitsPerWord + (f % 9 : Nat))) m none
      (@readDigits_cases (flipTop (bin.take size)) m _ _ (f / 9) (f % 9) d.wordBuf _ hdigits (by omega) (by omega)
        (by rw [wordsFor, wordsFor] at hfit; omega) (by omega)).total
    refine ⟨dec, err, hres, ?_⟩
    tauto
  · -- the fraction is cut to the words that are left
    rw [readBin_of_le h hpos hle (fitWords_truncated (by omega) (by omega)), int8_natCast (by omega)]
    rw [show (9 : Int) - (wordsFor (p - f) : Int) = ((9 - wordsFor (p - f) : Nat) : Int) by omega]
    obtain ⟨dec, err, hres, herr⟩ := binResult_of_read size f
      (int8 ((9 - wordsFor (p - f) : Nat) * digitsPerWord + (0 : Nat))) m (some .errTruncated)
      (@readDigits_cases (flipTop (bin.take size)) m _ _ (9 - wordsFor (p - f)) 0 d.wordBuf _ hdigits
        (by omega) (by omega) (by
          rw [wordsFor] at hwords ⊢
          rw [if_neg (lt_irrefl 0)]
          omega)
        (by
          have hone : (if 0 < f % 9 then 1 else 0) ≤ 1 := by split <;> omega
          rw [wordsFor, wordsFor] at hfit
          rw [wordsFor, show digWidth 0 = 0 from rfl]
          omega)).total
    refine ⟨dec, err, hres, ?_⟩
    have hmany : 9 < wordsFor (p - f) + wordsFor f := by omega
    tauto

theorem readBin_ne_fault (h : f ≤ p) (h81 : p - f ≤ 81) (hpos : 0 < size) (hle : size ≤ bin.length)
    (hsize : size = digitBytes (p - f) + digitBytes f) : readBin d bin size p f m ≠ .fault := by
  obtain ⟨dec, err, hres, -⟩ := @readBin_result d bin p f size m h h81 hpos hle hsize
  rw [hres]
  nofun

/-- Reading more fraction words than the `n` that there are bytes and places for stops only at a bad
one. -/
theorem readFrac_fault_iff {bin : Bytes} {digitsInt : Int} {n k t : Nat}
    (ht8 : t ≤ 8) (h9 : n ≤ 9) (hbin : 4 * n ≤ bin.length)
    (hend : 0 < k ∧ (9 ≤ n ∨ bin.length < 4 * n + 4) ∨ k = 0 ∧ bin.length = 4 * n ∧ 0 < t) :
    (readFracWords bin m (n + k) ⟨words, 0, digitsInt, 0⟩ >>= readTrailing bin m t) = .fault ↔
      ∀ j, j < n → numAt (mask m bin) (4 * j) 4 < 10 ^ 9 := by
  have hrun := @readWords_checked bin m (fun r words _ => ⟨words, r.wordIdx + 1, r.digitsInt, r.binIdx + 4⟩)
    (fun j r => r.binIdx = 4 * j ∧ r.wordIdx = j) 0 n
    (fun j r hj => ⟨by omega, fun hlt => by omega⟩)
    (fun j r words hj _ _ => ⟨by simp only; omega, by simp only; omega⟩) (by omega)
    ⟨words, 0, digitsInt, 0⟩ ⟨rfl, rfl⟩
  simp only [GoodWords, Nat.zero_add] at hrun
  rw [readFracWords, readWords_add, Outcome.bind_assoc]
  refine (hrun.bind_fault_iff fun r' hr' => iff_true_intro ?_).trans (and_iff_left trivial)
  rcases hend with ⟨hk, hend⟩ | ⟨rfl, hlen, ht⟩
  · rw [readWords_fault (by omega) hk]
    rfl
  · have := digWidth_pos ht
    exact readTrailing_fault ht ht8 (by omega)

theorem readBin_fault_iff_of_lt (h : p < f) (h9 : (f - p) % 9 = 0) (hpos : 0 < size)
    (hle : size ≤ bin.length) (hsize : size = digitBytes p) :
    readBin d bin size p f m = .fault ↔ ∀ j, j < min 9 (size / 4) →
      numAt (mask m (flipTop (bin.take size))) (4 * j) 4 < 10 ^ 9 := by
  have hlen := length_flipTop_take hle
  have hdig : digWidth (p % 9) ≤ 4 := digWidth_le (by omega)
  have hmod : f % 9 = p % 9 := by omega
  have hnone : digWidth (p % 9) = 4 → 0 < p % 9 := by
    intro h4
    by_contra h0
    rw [show p % 9 = 0 by omega] at h4
    cases h4
  rw [digitBytes] at hsize
  -- the words that are there: all of the integer part's are missing
  obtain ⟨n, hn⟩ : ∃ n, min 9 (size / 4) = n := ⟨_, rfl⟩
  rw [hn]
  by_cases hfit : wordsFor p ≤ 9
  · have hsum : -(((f - p) / 9 : Nat) : Int) + (wordsFor f : Int) ≤ 9 := by
      rw [wordsFor] at hfit ⊢
      rw [hmod]
      omega
    obtain ⟨di, heq⟩ := @readBin_of_lt d bin p f size m h h9 hpos hle _ (fitWords_regular hsum)
    rw [heq, binResult_eq_fault]
    obtain ⟨k, hk⟩ : ∃ k, f / 9 = n + k := ⟨f / 9 - n, by omega⟩
    rw [hk]
    exact readFrac_fault_iff (by omega) (by omega) (by omega) (by omega)
  · have hsum : 9 < -(((f - p) / 9 : Nat) : Int) + (wordsFor f : Int) := by
      rw [wordsFor] at hfit ⊢
      rw [hmod]
      omega
    obtain ⟨di, heq⟩ := @readBin_of_lt d bin p f size m h h9 hpos hle _ (fitWords_truncated (by omega) hsum)
    rw [heq, binResult_eq_fault]
    obtain ⟨k, hk⟩ : ∃ k, ((9 : Int) - -(((f - p) / 9 : Nat) : Int)).toNat = n + k :=
      ⟨9 + (f - p) / 9 - n, by omega⟩
    simp only [hk]
    exact readFrac_fault_iff (t := 0) (by omega) (by omega) (by omega) (by omega)

/-- Ten words of integer digits: the first is skipped and the eleventh is not there. -/
theorem readInt_fault_iff {bin : Bytes} {digitsInt : Int} (hlen : bin.length = 40) :
    readDigits bin m 0 10 0 0 ⟨words, 0, digitsInt, 4⟩ = .fault ↔ GoodWords (mask m bin) 4 9 := by
  have hrun := @readWords_checked bin m (fun r words w => r.keep words w digitsPerWord 4)
    (fun j r => r.binIdx = 4 + 4 * j ∧ r.wordIdx ≤ j) 4 9 (fun j r hj => ⟨hj.1, fun hlt => by omega⟩)
    (fun j r words hj _ _ => by
      rw [keep_binIdx, keep_wordIdx]
      exact ⟨by omega, by split <;> omega⟩) (by omega) ⟨words, 0, digitsInt, 4⟩ ⟨rfl, le_rfl⟩
  have hread : readDigits bin m 0 10 0 0 ⟨words, 0, digitsInt, 4⟩ =
      readIntWords bin m (9 + 1) ⟨words, 0, digitsInt, 4⟩ >>= fun r =>
        readFracWords bin m 0 r >>= readTrailing bin m 0 := rfl
  rw [hread, readIntWords, readWords_add, Outcome.bind_assoc]
  refine (hrun.bind_fault_iff fun r' hr' => iff_true_intro ?_).trans (and_iff_left trivial)
  rw [readWords_fault (.inl (by omega)) (by omega)]
  rfl

/-- Nine words of integer digits behind leading ones, which are read from behind their own bytes. -/
theorem readLead_fault_iff {bin : Bytes} {digitsInt : Int} {l t : Nat}
    (hl : 0 < l) (hl8 : l ≤ 8) (ht8 : t ≤ 8) (hlen : bin.length = digWidth l + 36 + digWidth t) :
    readDigits bin m l 9 0 t ⟨words, 0, digitsInt, digWidth l⟩ = .fault ↔
      numAt (mask m bin) (digWidth l) (digWidth l) < leadingLimit l ∧
      GoodWords (mask m bin) (2 * digWidth l) 8 ∧
      (numAt (mask m bin) (digWidth l) (digWidth l) = 0 → digWidth l ≤ digWidth t →
        numAt (mask m bin) (2 * digWidth l + 32) 4 < 10 ^ 9) := by
  have hd := digWidth_pos hl
  have hd4 : digWidth l ≤ 4 := digWidth_le (by omega)
  have hread : readDigits bin m l 9 0 t ⟨words, 0, digitsInt, digWidth l⟩ =
      readLeading bin m l ⟨words, 0, digitsInt, digWidth l⟩ >>= fun r =>
        readIntWords bin m (8 + 1) r >>= readTrailing bin m t := rfl
  rw [hread]
  refine (@readLeading_checked bin m ⟨words, 0, digitsInt, digWidth l⟩ l hl hl8 (by simp only; omega)
    (by simp only; omega)).bind_fault_iff fun r hr => ?_
  obtain ⟨words', -, rfl⟩ := hr
  simp only
  generalize numAt (mask m bin) (digWidth l) (digWidth l) = w
  -- leading digits that are zero are dropped, so there is a place for each of the nine words; others take the first
  have hrun := @readWords_checked bin m (fun r words w => r.keep words w digitsPerWord 4)
    (fun j r => r.binIdx = 2 * digWidth l + 4 * j ∧ r.wordIdx ≤ 1 + j ∧
      (w = 0 → r.wordIdx ≤ j) ∧ (w ≠ 0 → r.wordIdx = 1 + j)) (2 * digWidth l) 8
    (fun j r hj => ⟨hj.1, fun hlt => by omega⟩)
    (fun j r words hj _ _ => by
      rw [keep_binIdx, keep_wordIdx]
      refine ⟨by omega, ?_⟩
      split <;> omega) (by omega)
    (keep ⟨words, 0, digitsInt, digWidth l⟩ words' (w : Nat) (int8 l) (digWidth l)) (by
      rw [keep_binIdx, keep_wordIdx]
      dsimp only
      refine ⟨by omega, ?_⟩
      split <;> omega)
  rw [readIntWords, readWords_add, Outcome.bind_assoc]
  refine hrun.bind_fault_iff fun r' hr' => ?_
  by_cases hmore : w = 0 ∧ digWidth l ≤ digWidth t
  · have ht : 0 < t := by
      by_contra h0
      rw [show t = 0 by omega, show digWidth 0 = 0 from rfl] at hmore
      omega
    have hlast := @readWords_one bin m (fun r words w => r.keep words w digitsPerWord 4) r' (by omega) (by omega)
    rw [hr'.1] at hlast
    rw [imp_iff_right hmore.1, imp_iff_right hmore.2]
    refine (hlast.bind_fault_iff fun r'' hr'' => iff_true_intro ?_).trans (and_iff_left trivial)
    obtain ⟨words'', -, rfl⟩ := hr''
    exact readTrailing_fault ht ht8 (by rw [keep_binIdx]; omega)
  · rw [readWords_fault (by omega) (by omega)]
    exact iff_of_true rfl fun h0 hdt => absurd ⟨h0, hdt⟩ hmore

end ReadBin

theorem readBin_cases {d : MyDecimal} {bin : Bytes} {size p f : Int} {m : Bool} : readBin d bin size p f m = .fault ∨
      ∃ dec err, readBin d bin size p f m = .ok (size, dec, err) := by
  have hresult : ∀ {digitsFrac : Int} {err : Option Err} (r : Res BinReader), binResult size f digitsFrac m err r =
      .fault ∨ ∃ dec err', binResult size f digitsFrac m err r = .ok (size, dec, err') := by
    intro digitsFrac err r
    cases r with
    | fault => exact .inl rfl
    | error e => exact .inr ⟨_, _, rfl⟩
    | ok r =>
      rw [binResult]
      split <;> exact .inr ⟨_, _, rfl⟩
  unfold readBin
  simp only
  generalize hx : (index (bin.take size.toNat ++ replicate (size.toNat - bin.length) 0) 0 : Res UInt8) = x
  cases x with
  | fault => exact .inl rfl
  | error e => exact absurd hx index_ne_error
  | ok first =>
    generalize hl : dig2bytes ((p - f) - (p - f).tdiv digitsPerWord * digitsPerWord) = l
    cases l with
    | fault => exact .inl rfl
    | error e => exact absurd hl indexInt_ne_error
    | ok lb => exact hresult _

theorem fromBin_size {d dec : MyDecimal} {bin : Bytes} {p f n : Int} (h : fromBin d bin p f = .ok (n, dec, none)) :
    bin ≠ [] ∧ decimalBinSize p f = .ok n ∧ 0 ≤ n := by
  cases bin with
  | nil => cases h
  | cons first rest =>
    rw [fromBin] at h
    refine ⟨by simp, ?_⟩
    cases hsize : decimalBinSize p f with
    | ok size =>
      rw [hsize] at h
      simp only at h
      split at h
      · cases h
      · obtain hfault | ⟨_, _, hok⟩ := @readBin_cases d (first :: rest) size p f (decide (first &&& 0x80 = 0))
        · rw [hfault] at h
          cases h
        · rw [hok] at h
          cases h
          exact ⟨rfl, by omega⟩
    | _ => rw [hsize] at h; cases h

end Tidb.Types
