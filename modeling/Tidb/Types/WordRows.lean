import Tidb.Types.Arith

/-!
# Rows of words and the loops over them

A loop goes down a row of words of each operand and writes a row of the same length.  What it has written
is the sum or the difference of what it has read, up to the carry that it leaves for the next loop.
-/

namespace Tidb.Types

open GoLang ByteNum List

/-! ## Sums of rows -/

/-- `cs` and the carry `c'` in front of it are the sum of `as`, `bs` and the carry `c`; for `σ = -1` they
are the difference, and the carries are borrowed. -/
structure Sums (σ : ℤ) (as bs : List Nat) (c : Nat) (cs : List Nat) (c' : Nat) : Prop where
  length_fst : as.length = cs.length
  length_snd : bs.length = cs.length
  word_lt : ∀ w ∈ cs, w < 1000000000
  carry_le : c' ≤ 1
  value : (ofWords cs : ℤ) + σ * (c' * 10 ^ (9 * cs.length)) = ofWords as + σ * (ofWords bs + c)

namespace Sums

variable {σ : ℤ} {as bs cs as' bs' cs' : List Nat} {c c' c'' : Nat}

theorem nil (hc : c ≤ 1) : Sums σ [] [] c [] c :=
  ⟨rfl, rfl, by simp, hc, by simp⟩

theorem append (high : Sums σ as bs c' cs c'') (low : Sums σ as' bs' c cs' c') :
    Sums σ (as ++ as') (bs ++ bs') c (cs ++ cs') c'' := by
  refine ⟨by simp [high.length_fst, low.length_fst], by simp [high.length_snd, low.length_snd], ?_, high.carry_le, ?_⟩
  · intro w hw
    rcases mem_append.mp hw with h | h
    · exact high.word_lt w h
    · exact low.word_lt w h
  · have h1 := high.value
    have h0 := low.value
    rw [ofWords_append, ofWords_append, ofWords_append, low.length_fst, low.length_snd, length_append]
    push_cast
    linear_combination (10 : ℤ) ^ (9 * cs'.length) * h1 + h0

theorem copy (h : ∀ w ∈ as, w < 1000000000) : Sums σ as (replicate as.length 0) 0 as 0 :=
  ⟨rfl, by simp, h, by omega, by simp [ofWords_replicate_zero]⟩

end Sums

def Digit (σ : ℤ) (f : Int → Int → Int → Int × Int) : Prop :=
  ∀ a b c : Nat, a < 1000000000 → b < 1000000000 → c ≤ 1 →
    ∃ d c' : Nat, f a b c = ((d : Int), (c' : Int)) ∧ Sums σ [a] [b] c [d] c'

theorem int32_of_bounds {x : Int} (hlo : -2 ^ 31 ≤ x) (hhi : x < 2 ^ 31) : int32 x = x := by
  rw [int32, Int.bmod_eq_of_le (by norm_num; omega) (by norm_num; omega)]

theorem ofWords_singleton (w : Nat) : ofWords [w] = w := by simp [ofWords_cons]

theorem digit_add : Digit 1 add := by
  intro a b c ha hb hc
  have h32 : int32 ((a : Int) + b + c) = ((a + b + c : Nat) : Int) := by
    rw [int32_of_bounds (by omega) (by omega)]
    push_cast
    ring
  simp only [add, h32, wordBase]
  by_cases h : 1000000000 ≤ a + b + c
  · refine ⟨a + b + c - 1000000000, 1, ?_, by simp, by simp, by simp; omega, le_rfl, ?_⟩
    · rw [if_pos (by omega), Nat.cast_sub h, Nat.cast_one, Nat.cast_ofNat]
    · simp only [ofWords_singleton, length_singleton]
      push_cast [Nat.cast_sub h]
      ring
  · refine ⟨a + b + c, 0, by rw [if_neg (by omega)]; rfl, by simp, by simp, by simp; omega, by omega, ?_⟩
    simp only [ofWords_singleton]
    push_cast
    ring

theorem digit_sub : Digit (-1) sub := by
  intro a b c ha hb hc
  have h32 : int32 ((a : Int) - b - c) = (a : Int) - b - c := int32_of_bounds (by omega) (by omega)
  simp only [sub, h32, wordBase]
  by_cases h : (a : Int) - b - c < 0
  · refine ⟨a + 1000000000 - b - c, 1, ?_, by simp, by simp, by simp; omega, le_rfl, ?_⟩
    · rw [if_pos h]
      congr 1
      omega
    · simp only [ofWords_singleton, length_singleton]
      rw [Nat.cast_sub (by omega), Nat.cast_sub (by omega)]
      push_cast
      ring
  · refine ⟨a - b - c, 0, ?_, by simp, by simp, by simp; omega, by omega, ?_⟩
    · rw [if_neg h]
      congr 1
      omega
    · simp only [ofWords_singleton]
      rw [Nat.cast_sub (by omega), Nat.cast_sub (by omega)]
      ring

/-! ## Reading and writing -/

def Reads (src : Option WordBuf) (idx : Int) (as : List Nat) (idx' : Int) : Prop :=
  match src with
  | none => as = replicate as.length 0 ∧ idx' = idx
  | some w => ∃ (pre : List Nat) (post : List Int), w.1 = (pre ++ as).map Nat.cast ++ post ∧
      idx' = pre.length ∧ idx = (pre ++ as).length

theorem Reads.zeros (n : Nat) (idx : Int) : Reads none idx (replicate n 0) idx := by simp [Reads]

variable {src : Option WordBuf} {idx' idx : Int} {as : List Nat}

theorem takeWord_concat {a : Nat} (h : Reads src idx (as ++ [a]) idx') :
    ∃ idx₁, takeWord src idx = .ok ((a : Int), idx₁) ∧ Reads src idx₁ as idx' := by
  cases src with
  | none =>
    obtain ⟨hzero, rfl⟩ := h
    have hmem : ∀ w ∈ as ++ [a], w = 0 := by
      intro w hw
      rw [hzero] at hw
      exact eq_of_mem_replicate hw
    refine ⟨idx', ?_, ?_, rfl⟩
    · rw [hmem a (by simp)]
      rfl
    · exact eq_replicate_of_mem fun w hw => hmem w (by simp [hw])
  | some w =>
    obtain ⟨pre, post, hw, rfl, rfl⟩ := h
    have hidx : (((pre ++ (as ++ [a])).length : Nat) : Int) - 1 = ((pre ++ as).length : Nat) := by
      simp
      omega
    have hget : w.get ((pre ++ as).length : Nat) = .ok (a : Int) := by
      rw [WordBuf.get, indexInt_natCast, hw, index_of_lt (by simp)]
      congr 1
      simp
    refine ⟨((pre ++ as).length : Nat), ?_, pre, (a : Int) :: post, ?_, rfl, rfl⟩
    · rw [takeWord, hidx, hget]
      rfl
    · rw [hw]
      simp

theorem Reads.nil (h : Reads src idx [] idx') : idx = idx' := by
  cases src with
  | none => exact h.2.symm
  | some w =>
    obtain ⟨pre, post, -, rfl, rfl⟩ := h
    rw [append_nil]

variable {w : WordBuf}

theorem Reads.split {bs : List Nat} (h : Reads (some w) idx (as ++ bs) idx') :
    Reads (some w) idx bs (idx' + as.length) ∧ Reads (some w) (idx' + as.length) as idx' := by
  obtain ⟨pre, post, hw, rfl, rfl⟩ := h
  exact ⟨⟨pre ++ as, post, by rw [hw, append_assoc], by simp, by simp⟩,
    pre, bs.map Nat.cast ++ post, by rw [hw]; simp, rfl, by simp⟩

theorem Reads.toNat_sub (h : Reads (some w) idx as idx') : (idx - idx').toNat = as.length := by
  obtain ⟨pre, post, -, rfl, rfl⟩ := h
  rw [length_append]
  omega

theorem put_of_lt {i : Nat} (h : i < maxWordBufLen) (x : Int) : ∃ w', w.put i x = .ok w' ∧ w'.1 = w.1.set i x :=
  ⟨⟨w.1.set i x, by rw [length_set]; exact w.2⟩,
    by rw [WordBuf.put, if_neg (by omega), Int.toNat_natCast, WordBuf.set, if_pos h], rfl⟩

/-- A lane that has `m` words of `dst` to go.  What it has written behind them is the sum of the rows `as`
and `bs`, up to the carry. -/
structure Lane.Holds (σ : ℤ) (dst : WordBuf) (m : Nat) (as bs : List Nat) (l : Lane) : Prop where
  idxTo : l.idxTo = m
  room : m + as.length ≤ maxWordBufLen
  row : ∃ (cs : List Nat) (c : Nat), l.carry = c ∧ Sums σ as bs 0 cs c ∧
    l.words.1 = dst.1.take m ++ (cs.map Nat.cast ++ dst.1.drop (m + as.length))

section Loops

variable {σ : ℤ} {dst : WordBuf} {from1 from2 : Option WordBuf} {as bs xs ys : List Nat}
  {i1 i2 j1 j2 : Int} {m n M : Nat} {l : Lane}

theorem Lane.holds_start (h : m ≤ maxWordBufLen) (idx1 idx2 : Int) : Lane.Holds σ dst m [] [] ⟨m, idx1, idx2, 0, dst⟩ :=
  ⟨rfl, h, [], 0, rfl, .nil (by omega), (take_append_drop m dst.1).symm⟩

/-- One turn; the words that it reads are the last ones of their rows. -/
theorem Lane.Holds.turn {f : Int → Int → Int → Int × Int} {x y : Nat} (h : l.Holds σ dst (m + 1) as bs)
    (h1 : Reads from1 l.idx1 (xs ++ [x]) i1) (h2 : Reads from2 l.idx2 (ys ++ [y]) i2)
    (hf : ∀ c : Nat, l.carry = c → c ≤ 1 →
      ∃ d c' : Nat, f x y l.carry = ((d : Int), (c' : Int)) ∧ Sums σ [x] [y] c [d] c') (n : Nat) :
    ∃ l', turns from1 from2 f (n + 1) l = turns from1 from2 f n l' ∧ l'.Holds σ dst m (x :: as) (y :: bs) ∧ Reads from1
      l'.idx1 xs i1 ∧ Reads from2 l'.idx2 ys i2 ∧ l'.carry = (f x y l.carry).2 := by
  obtain ⟨hidx, hroom, cs, c, hc, hsums, hw⟩ := h
  obtain ⟨d, c', hfd, hsum⟩ := hf c hc hsums.carry_le
  obtain ⟨j1, ht1, hr1⟩ := takeWord_concat h1
  obtain ⟨j2, ht2, hr2⟩ := takeWord_concat h2
  have hfront : l.idxTo - 1 = m := by omega
  obtain ⟨words', hput, hw'⟩ := @put_of_lt l.words m (by omega) d
  refine ⟨⟨m, j1, j2, c', words'⟩, ?_, ⟨rfl, ?_, d :: cs, c', rfl, hsum.append hsums, ?_⟩, hr1, hr2, ?_⟩
  · simp only [turns, ht1, ht2, Outcome.ok_bind, hfd, hfront, hput]
  · rw [length_cons]
    omega
  · have hlen : (dst.1.take (m + 1)).length = m + 1 := by
      rw [length_take]
      omega
    rw [hw', hw, set_append_left _ _ (by omega), set_eq_take_append_cons_drop, if_pos (by omega),
      take_take, drop_of_length_le (by omega), Nat.min_eq_left (by omega), append_assoc, Nat.add_assoc, Nat.add_comm 1]
    rfl
  · rw [hfd]

theorem exists_concat {α : Type} {n : Nat} {l : List α} (h : l.length = n + 1) :
    ∃ l' a, l = l' ++ [a] ∧ l'.length = n := by
  have hne : l ≠ [] := by
    rintro rfl
    cases h
  refine ⟨l.dropLast, l.getLast hne, (dropLast_append_getLast hne).symm, ?_⟩
  rw [length_dropLast, h, Nat.add_sub_cancel]

theorem turns_spec {f : Int → Int → Int → Int × Int} (hf : Digit σ f) (h : l.Holds σ dst M as bs)
    (hM : m + n = M) (hxs : xs.length = n) (hys : ys.length = n) (hj1 : l.idx1 = j1) (hj2 : l.idx2 = j2)
    (h1 : Reads from1 j1 xs i1) (h2 : Reads from2 j2 ys i2) (hlt1 : ∀ w ∈ xs, w < 1000000000)
    (hlt2 : ∀ w ∈ ys, w < 1000000000) :
    ∃ l', turns from1 from2 f n l = .ok l' ∧ l'.Holds σ dst m (xs ++ as) (ys ++ bs) ∧ l'.idx1 = i1 ∧ l'.idx2 = i2 := by
  subst hj1 hj2
  induction n generalizing as bs xs ys l M with
  | zero =>
    rw [length_eq_zero_iff] at hxs hys
    subst hM hxs hys
    exact ⟨l, rfl, h, h1.nil, h2.nil⟩
  | succ n ih =>
    subst hM
    obtain ⟨xs, x, rfl, hxs'⟩ := exists_concat hxs
    obtain ⟨ys, y, rfl, hys'⟩ := exists_concat hys
    obtain ⟨l₁, hturn, hl₁, hr1, hr2, -⟩ := h.turn h1 h2
      (fun c hc hle => hc ▸ hf x y c (hlt1 x (by simp)) (hlt2 y (by simp)) hle) n
    obtain ⟨l', hrun, hl', hi⟩ := ih hl₁ rfl hxs' hys' (fun w hw => hlt1 w (by simp [hw]))
      (fun w hw => hlt2 w (by simp [hw])) hr1 hr2
    exact ⟨l', hturn.trans hrun, by simpa using hl', hi⟩

theorem copies_spec (h : l.Holds σ dst M as bs) (hM : m + n = M)
    (hcarry : l.carry = 0) (hxs : xs.length = n) (hj1 : l.idx1 = j1) (h1 : Reads src j1 xs i1)
    (hlt : ∀ w ∈ xs, w < 1000000000) :
    ∃ l', copies src n l = .ok l' ∧ l'.Holds σ dst m (xs ++ as) (replicate n 0 ++ bs) ∧ l'.idx1 = i1 ∧
      l'.idx2 = l.idx2 ∧ l'.carry = 0 := by
  subst hj1
  induction n generalizing as bs xs l M with
  | zero =>
    rw [length_eq_zero_iff] at hxs
    subst hM hxs
    exact ⟨l, rfl, h, h1.nil, rfl, hcarry⟩
  | succ n ih =>
    subst hM
    obtain ⟨xs, x, rfl, hxs'⟩ := exists_concat hxs
    have h2 := Reads.zeros 1 l.idx2
    obtain ⟨l₁, hturn, hl₁, hr1, hr2, hc⟩ := @Lane.Holds.turn σ dst src none as bs xs [] i1 l.idx2 (m + n) l
      (fun a _ carry => (a, carry)) x 0 h h1 h2 (fun c hc _ => by
        obtain rfl : c = 0 := by omega
        exact ⟨x, 0, by rw [hc], Sums.copy fun w hw => hlt w (mem_append_right _ hw)⟩) n
    obtain ⟨l', hrun, hl', hi1, hi2, hc'⟩ := ih hl₁ rfl (hc.trans hcarry) hxs' (fun w hw => hlt w (by simp [hw])) hr1
    refine ⟨l', hturn.trans hrun, ?_, hi1, hi2.trans hr2.nil, hc'⟩
    rw [replicate_succ', append_assoc, append_assoc]
    exact hl'

theorem zeros_spec (h : l.Holds σ dst M as bs) (hM : m + n = M) (hcarry : l.carry = 0) : ∃ l', copies none n l = .ok l'
    ∧ l'.Holds σ dst m (replicate n 0 ++ as) (replicate n 0 ++ bs) ∧ l'.idx1 = l.idx1 ∧ l'.idx2 = l.idx2 ∧
    l'.carry = 0 :=
  copies_spec h hM hcarry length_replicate rfl (Reads.zeros n l.idx1) (by simp)

/-- What is left of the first operand when the second one has no more words is lowered as long as there is something to
borrow, then copied. -/
theorem borrows_spec {w1 : WordBuf} (h : l.Holds (-1) dst M as bs) (hM : m + n = M) (hxs : xs.length = n)
    (hj1 : l.idx1 = j1) (h1 : Reads (some w1) j1 xs i1) (hlt : ∀ w ∈ xs, w < 1000000000) :
    ∃ l', (borrows w1 n l >>= fun l => copies (some w1) (l.idx1 - i1).toNat l) = .ok l' ∧
      l'.Holds (-1) dst m (xs ++ as) (replicate n 0 ++ bs) := by
  subst hj1
  induction n generalizing as bs xs l M with
  | zero =>
    rw [length_eq_zero_iff] at hxs
    subst hM hxs
    refine ⟨l, ?_, h⟩
    simp [borrows, copies, turns, h1.nil]
  | succ n ih =>
    by_cases hpos : 0 < l.carry
    · subst hM
      obtain ⟨xs, x, rfl, hxs'⟩ := exists_concat hxs
      have h2 := Reads.zeros 1 l.idx2
      obtain ⟨l₁, hturn, hl₁, hr1, -⟩ := @Lane.Holds.turn (-1) dst (some w1) none as bs xs [] i1 l.idx2 (m + n) l
        sub x 0 h h1 h2 (fun c hc hle => hc ▸ digit_sub x 0 c (hlt x (by simp)) (by norm_num) hle) 0
      obtain ⟨l', hrun, hl'⟩ := ih hl₁ rfl hxs' (fun w hw => hlt w (by simp [hw])) hr1
      refine ⟨l', ?_, ?_⟩
      · rw [borrows, if_pos hpos, hturn]
        exact hrun
      · rw [replicate_succ', append_assoc, append_assoc]
        exact hl'
    · have hcarry : l.carry = 0 := by
        obtain ⟨-, c, hc, -⟩ := h.row
        omega
      obtain ⟨l', hrun, hl', -⟩ := copies_spec h hM hcarry hxs rfl h1 hlt
      refine ⟨l', ?_, hl'⟩
      rw [borrows, if_neg hpos, Outcome.ok_bind, h1.toNat_sub, hxs]
      exact hrun

end Loops

end Tidb.Types
