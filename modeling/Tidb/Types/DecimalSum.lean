import Mathlib.Algebra.Order.Floor.Semifield
import Tidb.Types.DecimalCompare

/-!
# Sums and differences of decimals

The operands are laid out in words with the same weight, with zeros where one of them has none, and cut
off behind the last word that there is room for.  The result is the sum or the difference of what is
left of them.
-/

namespace Tidb.Types

open GoLang ByteNum List Outcome

/-! ## Rows -/

/-- `K` words of `w` are written over `dst`, and make up the number `V`. -/
def Spells (dst w : WordBuf) (K V : Nat) : Prop :=
  ∃ cs : List Nat, w.1 = cs.map Nat.cast ++ dst.1.drop K ∧ cs.length = K ∧ (∀ x ∈ cs, x < 1000000000) ∧ ofWords cs = V

theorem exists_split {α : Type} {l : List α} {n : Nat} (h : n ≤ l.length) : ∃ x y, l = x ++ y ∧ x.length = n :=
  ⟨l.take n, l.drop n, (take_append_drop n l).symm, length_take_of_le h⟩

theorem forall_mem_append {P : Nat → Prop} {x y : List Nat} (h : ∀ w ∈ x ++ y, P w) : (∀ w ∈ x, P w) ∧ ∀ w ∈ y, P w :=
  ⟨fun w hw => h w (mem_append_left _ hw), fun w hw => h w (mem_append_right _ hw)⟩

/-- The words `v` of a decimal that has `n` of them in front of the point, laid out in `m` words in front
of the point and `F` behind it. -/
def layOut (m n F : Nat) (v : List Nat) : List Nat :=
  replicate (m - n) 0 ++ (v ++ replicate (n + F - v.length) 0)

theorem Sums.sub_eq {as bs cs : List Nat} {c : Nat} (h : Sums (-1) as bs 0 cs c)
    (hle : ofWords bs ≤ ofWords as) : ofWords cs + ofWords bs = ofWords as := by
  have hval := h.value
  have hlt := ofWords_lt h.word_lt
  have hc := h.carry_le
  have hzero : c = 0 := by
    by_contra hne
    obtain rfl : c = 1 := by omega
    push_cast at hval
    linarith
  subst hzero
  push_cast at hval
  have hint : (ofWords cs : ℤ) + ofWords bs = ofWords as := by linarith
  exact_mod_cast hint

section Rows

variable {w1 w2 dst : WordBuf}

theorem subHigh_spec {q r p as bs : List Nat} {idx1 idx2 start1 start2 : Int} {l : Lane}
    (h : l.Holds (-1) dst (q ++ r).length as bs) (hj1 : l.idx1 = idx1) (hj2 : l.idx2 = idx2)
    (h1 : Reads (some w1) idx1 (q ++ r) start1) (h2 : Reads (some w2) idx2 p start2) (hlen : r.length = p.length)
    (hlt1 : ∀ w ∈ q ++ r, w < 1000000000) (hlt2 : ∀ w ∈ p, w < 1000000000) :
    ∃ l' : Lane, subHigh w1 w2 start1 start2 l = .ok l'.words ∧
      l'.Holds (-1) dst 0 (q ++ r ++ as) (replicate q.length 0 ++ p ++ bs) := by
  obtain ⟨hr, hq⟩ := h1.split
  obtain ⟨hltq, hltr⟩ := forall_mem_append hlt1
  obtain ⟨l₁, hrun₁, hl₁, hi₁, -⟩ := turns_spec digit_sub h (by rw [length_append, hlen]) hlen rfl hj1
    hj2 hr h2 hltr hlt2
  obtain ⟨l', hrun', hl'⟩ := borrows_spec hl₁ (Nat.zero_add _) rfl hi₁ hq hltq
  refine ⟨l', ?_, by simpa using hl'⟩
  rw [subHigh, hj2, h2.toNat_sub, hrun₁, ok_bind, hi₁, hq.toNat_sub, ← bind_assoc, hrun', ok_bind, hl'.idxTo]
  rfl

theorem subWords_spec {v1 v2 : List Nat} {start1 start2 : Int} {n1 n2 F : Nat}
    (h1 : Reads (some w1) (start1 + v1.length) v1 start1) (h2 : Reads (some w2) (start2 + v2.length) v2 start2)
    (hlt1 : ∀ w ∈ v1, w < 1000000000) (hlt2 : ∀ w ∈ v2, w < 1000000000)
    (hlen1 : v1.length ≤ n1 + F) (hlen2 : v2.length ≤ n2 + F) (hn : n2 ≤ n1)
    (hlow : n1 - n2 ≤ v1.length) (hroom : n1 + F ≤ 9)
    (hle : ofWords (layOut n1 n2 F v2) ≤ ofWords (layOut n1 n1 F v1)) :
    ∃ words' V, subWords w1 w2 ⟨start1, n1, v1.length - n1⟩ ⟨start2, n2, v2.length - n2⟩ F dst = .ok words' ∧
      Spells dst words' (n1 + F) V ∧ V + ofWords (layOut n1 n2 F v2) = ofWords (layOut n1 n1 F v1) := by
  -- it is enough to find the lane behind the loops
  suffices hmain : ∃ l : Lane, subWords w1 w2 ⟨start1, n1, v1.length - n1⟩ ⟨start2, n2, v2.length - n2⟩ F dst =
      .ok l.words ∧ l.Holds (-1) dst 0 (layOut n1 n1 F v1) (layOut n1 n2 F v2) by
    obtain ⟨l, hrun, -, -, cs, c, -, hsums, hw⟩ := hmain
    have hlen : (layOut n1 n1 F v1).length = n1 + F := by
      rw [layOut]
      simp
      omega
    rw [Nat.zero_add, hlen] at hw
    exact ⟨l.words, ofWords cs, hrun, ⟨cs, hw, hsums.length_fst.symm.trans hlen, hsums.word_lt, rfl⟩, hsums.sub_eq hle⟩
  have hend1 : start1 + n1 + ((v1.length : Int) - n1) = start1 + v1.length := by omega
  have hend2 : start2 + n2 + ((v2.length : Int) - n2) = start2 + v2.length := by omega
  have h0 := @Lane.holds_start (-1) dst (n1 + F) hroom (start1 + v1.length) (start2 + v2.length)
  rw [Nat.cast_add] at h0
  rw [subWords]
  simp only [hend1, hend2]
  by_cases hfrac : (v2.length : Int) - n2 < (v1.length : Int) - n1
  · -- the first one has the longer fraction: `s` is what it has more
    obtain ⟨p, s, rfl, hp⟩ := @exists_split _ v1 (n1 + v2.length - n2) (by omega)
    obtain ⟨q, r, rfl, hq⟩ := @exists_split _ p (n1 - n2) (by omega)
    obtain ⟨hs1, hqr⟩ := h1.split
    obtain ⟨hlt, hlts⟩ := forall_mem_append hlt1
    simp only [length_append] at hp hlen1
    obtain ⟨k, hk⟩ : ∃ k, k = n1 + F - (q ++ r ++ s).length := ⟨_, rfl⟩
    obtain ⟨l₁, hrun₁, hl₁, hi₁, hj₁, hc₁⟩ := zeros_spec h0
      (show (q ++ r ++ s).length + k = n1 + F by simp only [length_append] at hk ⊢; omega) rfl
    obtain ⟨l₂, hrun₂, hl₂, hi₂, hj₂, -⟩ := copies_spec hl₁ length_append.symm hc₁ rfl hi₁ hs1 hlts
    obtain ⟨l₃, hrun₃, hl₃⟩ := subHigh_spec hl₂ hi₂ (hj₂.trans hj₁) hqr h2 (by omega) hlt hlt2
    refine ⟨l₃, ?_, ?_⟩
    · have hk1 : ((F : Int) - (((q ++ r ++ s).length : Nat) - n1)).toNat = k := by omega
      have hk2 : ((((q ++ r ++ s).length : Nat) : Int) - n1 - (v2.length - n2)).toNat = s.length := by
        simp only [length_append]
        omega
      rw [if_pos hfrac, hk1, hrun₁, ok_bind, hk2, hrun₂, ok_bind, hrun₃]
    · have hrow2 : n2 + F - v2.length = s.length + k := by
        simp only [length_append] at hk
        omega
      rw [layOut, layOut, ← hk, hrow2, ← hq]
      simpa using hl₃
  · -- the second one has the longer fraction: `s` is what it has more
    obtain ⟨p, s, rfl, hp⟩ := @exists_split _ v2 (n2 + v1.length - n1) (by omega)
    obtain ⟨q, r, rfl, hq⟩ := @exists_split _ v1 (n1 - n2) hlow
    obtain ⟨hs2, hp2⟩ := h2.split
    obtain ⟨hlt, hlts⟩ := forall_mem_append hlt2
    simp only [length_append] at hp hlen2
    obtain ⟨k, hk⟩ : ∃ k, k = n2 + F - (p ++ s).length := ⟨_, rfl⟩
    obtain ⟨l₁, hrun₁, hl₁, hi₁, hj₁, -⟩ := zeros_spec h0
      (show (q ++ r).length + s.length + k = n1 + F by simp only [length_append] at hk hp ⊢; omega) rfl
    obtain ⟨l₂, hrun₂, hl₂, hi₂, hj₂⟩ := turns_spec digit_sub hl₁ rfl length_replicate rfl hi₁
      hj₁ (Reads.zeros s.length _) hs2 (by simp) hlts
    obtain ⟨l₃, hrun₃, hl₃⟩ := subHigh_spec hl₂ hi₂ hj₂ h1 hp2 (by omega) hlt1 hlt
    refine ⟨l₃, ?_, ?_⟩
    · have hk1 : ((F : Int) - (((p ++ s).length : Nat) - n2)).toNat = k := by omega
      have hk2 : ((((p ++ s).length : Nat) : Int) - n2 - (((q ++ r).length : Nat) - n1)).toNat = s.length := by
        simp only [length_append] at hp ⊢
        omega
      rw [if_neg hfrac, hk1, hrun₁, ok_bind, hk2, hrun₂, ok_bind, hrun₃]
    · have hrow1 : n1 + F - (q ++ r).length = s.length + k := by
        simp only [length_append] at hk hp ⊢
        omega
      rw [layOut, layOut, ← hk, hrow1, ← hq]
      simpa using hl₃

/-- The loops of `doAdd`, for the rows `r1 ++ s1` and `r2` and the words `q` that only one of the decimals has in front;
in front of the sum there are `b` words for a carry. -/
theorem addWords_spec {top : WordBuf} {r1 s1 r2 q : List Nat} {idx1 idx2 stop1 stop2 : Int} {b : Nat}
    (h1 : Reads (some w1) idx1 (r1 ++ s1) stop1) (h2 : Reads (some w2) idx2 r2 stop2)
    (htop : Reads (some top) q.length q 0) (hlen : r1.length = r2.length)
    (hlt1 : ∀ w ∈ r1 ++ s1, w < 1000000000) (hlt2 : ∀ w ∈ r2, w < 1000000000)
    (hltq : ∀ w ∈ q, w < 1000000000) (hb : b ≤ 1) (hzero : dst.1.take b = replicate b 0)
    (hroom : b + (q ++ (r1 ++ s1)).length ≤ 9)
    (hcarry : b = 0 → ofWords (q ++ (r1 ++ s1)) + ofWords r2 * 10 ^ (9 * s1.length) <
      10 ^ (9 * (q ++ (r1 ++ s1)).length)) : ∃ words', addWords w1 w2 top idx1 (stop1 + r1.length) idx2 stop1 q.length
        ((b + (q ++ (r1 ++ s1)).length : Nat) : Int) dst = .ok words' ∧ Spells dst words' (b + (q ++ (r1 ++ s1)).length)
        (ofWords (q ++ (r1 ++ s1)) + ofWords r2 * 10 ^ (9 * s1.length)) := by
  obtain ⟨hs1, hr1⟩ := h1.split
  obtain ⟨hltr, hlts⟩ := forall_mem_append hlt1
  obtain ⟨l₁, hrun₁, hl₁, hi₁, hj₁, -⟩ := copies_spec (Lane.holds_start hroom idx1 idx2)
    (show b + (q.length + r1.length) + s1.length = _ by simp only [length_append]; omega) rfl rfl rfl hs1 hlts
  obtain ⟨l₂, hrun₂, hl₂, -⟩ := turns_spec digit_add hl₁ (by rw [Nat.add_assoc]) rfl hlen.symm hi₁ hj₁ hr1 h2
    hltr hlt2
  have hl₂' : Lane.Holds 1 dst (b + q.length) (r1 ++ (s1 ++ [])) (r2 ++ (replicate s1.length 0 ++ []))
      { l₂ with idx1 := q.length } := ⟨hl₂.idxTo, hl₂.room, hl₂.row⟩
  obtain ⟨l₃, hrun₃, hl₃, -⟩ := turns_spec digit_add hl₂' rfl rfl length_replicate rfl rfl htop
    (Reads.zeros q.length _) hltq (by simp)
  rw [append_nil, append_nil] at hl₃
  obtain ⟨hidx, -, cs, c, hc, hsums, hw⟩ := hl₃
  have hclen := hsums.length_fst.symm
  -- the sum with the carry in front
  have hvalue : ofWords cs + c * 10 ^ (9 * (q ++ (r1 ++ s1)).length) =
      ofWords (q ++ (r1 ++ s1)) + ofWords r2 * 10 ^ (9 * s1.length) := by
    have hval := hsums.value
    rw [hclen, ofWords_append (replicate q.length 0), ofWords_append r2, ofWords_replicate_zero,
      ofWords_replicate_zero, length_replicate] at hval
    push_cast at hval
    zify
    linarith
  have hrun : addWords w1 w2 top idx1 (stop1 + r1.length) idx2 stop1 q.length
      ((b + (q ++ (r1 ++ s1)).length : Nat) : Int) dst =
      if 0 < (c : Int) then l₃.words.put ((b : Int) - 1) 1 else .ok l₃.words := by
    rw [addWords, hs1.toNat_sub, hrun₁, ok_bind, hi₁, hr1.toNat_sub, hrun₂, ok_bind,
      Int.toNat_natCast, hrun₃, ok_bind, hc, hidx]
    rfl
  have hc1 := hsums.carry_le
  have hc0 : b = 0 → c = 0 := fun hb0 => by
    by_contra hne
    obtain rfl : c = 1 := by omega
    omega
  rw [hrun]
  rcases Nat.le_one_iff_eq_zero_or_eq_one.mp hb with rfl | rfl
  · obtain rfl := hc0 rfl
    refine ⟨l₃.words, by simp, cs, ?_, by omega, hsums.word_lt, by omega⟩
    simpa using hw
  · rw [hzero] at hw
    -- the carry is written over the zero in front
    obtain ⟨words', hput, hw'⟩ : ∃ words', (if 0 < (c : Int) then l₃.words.put (((1 : Nat) : Int) - 1) 1
        else .ok l₃.words) = .ok words' ∧ words'.1 = l₃.words.1.set 0 c := by
      rcases Nat.le_one_iff_eq_zero_or_eq_one.mp hc1 with rfl | rfl
      · exact ⟨l₃.words, by simp, by rw [hw]; rfl⟩
      · exact @put_of_lt l₃.words 0 (by decide) 1
    rw [hw] at hw'
    refine ⟨words', hput, c :: cs, hw', by rw [length_cons]; omega, ?_, ?_⟩
    · intro w hw
      rcases mem_cons.mp hw with rfl | hw
      · omega
      · exact hsums.word_lt w hw
    · rw [ofWords_cons, hclen, ← hvalue, Nat.add_comm]

end Rows

/-! ## What is left of an operand -/

theorem ofWords_take {u : List Nat} (hlt : ∀ w ∈ u, w < 1000000000) (m : Nat) :
    ofWords (u.take m) = ofWords u / 10 ^ (9 * (u.length - m)) := by
  have hdrop : ofWords (u.drop m) < 10 ^ (9 * (u.length - m)) := by
    rw [← length_drop]
    exact ofWords_lt fun w hw => hlt w (mem_of_mem_drop hw)
  conv_rhs => rw [← take_append_drop m u, ofWords_append, length_drop, take_append_drop]
  rw [Nat.mul_comm, Nat.mul_add_div (by positivity), Nat.div_eq_of_lt hdrop, Nat.add_zero]

theorem ofWords_layOut (m n F : Nat) (v : List Nat) :
    ofWords (layOut m n F v) = ofWords v * 10 ^ (9 * (n + F - v.length)) := by
  rw [layOut, ofWords_append, ofWords_replicate_zero, ofWords_append, ofWords_replicate_zero, length_replicate]
  omega

theorem ofWords_layOut_take {u : List Nat} (hlt : ∀ w ∈ u, w < 1000000000) {n z wf : Nat}
    (hlen : u.length + z = n + wf) (m F : Nat) :
    ofWords (layOut m n F (u.take (n + F))) = ofWords u * 10 ^ (9 * z) * 10 ^ (9 * F) / 10 ^ (9 * wf) := by
  rw [ofWords_layOut]
  by_cases hcut : u.length ≤ n + F
  · have hpow : 10 ^ (9 * z) * 10 ^ (9 * F) = 10 ^ (9 * (n + F - u.length)) * 10 ^ (9 * wf) := by
      rw [← pow_add, ← pow_add]
      congr 1
      omega
    rw [take_of_length_le hcut, Nat.mul_assoc, hpow, ← Nat.mul_assoc, Nat.mul_div_cancel _ (by positivity)]
  · have hpow : 10 ^ (9 * wf) = 10 ^ (9 * (u.length - (n + F))) * (10 ^ (9 * z) * 10 ^ (9 * F)) := by
      rw [← pow_add, ← pow_add]
      congr 1
      omega
    rw [length_take, Nat.min_eq_left (by omega), Nat.sub_self, pow_zero, Nat.mul_one,
      ofWords_take hlt, hpow, Nat.mul_assoc, Nat.mul_div_mul_right _ _ (by positivity)]

theorem Covers.ofWords_layOut {d : MyDecimal} {e : Extent} {u : List Nat} {n : Nat} (h : Covers d e u n)
    (m F : Nat) : ofWords (layOut m n F (u.take (n + F))) = d.scaled (9 * F) := by
  obtain ⟨z, hlen, hdigits⟩ := h.digits
  rw [ofWords_layOut_take h.word_lt hlen, MyDecimal.scaled, hdigits]

namespace MyDecimal

variable (d : MyDecimal)

theorem scaled_eq_floor (f : Nat) : d.scaled f = ⌊d.magnitude * 10 ^ f⌋₊ := by
  have h := @Nat.floor_div_eq_div ℚ _ _ _ _ (d.digits * 10 ^ f) (10 ^ (9 * d.wordsFrac))
  push_cast at h
  rw [scaled, ← h, magnitude, div_mul_eq_mul_div]

theorem scaled_mono {d e : MyDecimal} (h : d.magnitude ≤ e.magnitude) (f : Nat) : d.scaled f ≤ e.scaled f := by
  rw [scaled_eq_floor, scaled_eq_floor]
  exact Nat.floor_mono (mul_le_mul_of_nonneg_right h (by positivity))

theorem scaled_of_le {F : Nat} (h : d.wordsFrac ≤ F) : (d.scaled (9 * F) : ℚ) / 10 ^ (9 * F) = d.magnitude := by
  have hpow : 10 ^ (9 * F) = 10 ^ (9 * (F - d.wordsFrac)) * 10 ^ (9 * d.wordsFrac) := by
    rw [← pow_add]
    congr 1
    omega
  have hpow' : (10 ^ (9 * F) : ℚ) = 10 ^ (9 * (F - d.wordsFrac)) * 10 ^ (9 * d.wordsFrac) := by exact_mod_cast hpow
  rw [scaled, hpow, ← Nat.mul_assoc, Nat.mul_div_cancel _ (by positivity), magnitude, hpow']
  push_cast
  rw [div_eq_div_iff (by positivity) (by positivity)]
  ring

theorem digits_of_row {cs : List Nat} {rest : List Int} (hbuf : d.wordBuf.1 = cs.map Nat.cast ++ rest)
    (hlen : cs.length = d.wordsInt + d.wordsFrac) : d.digits = ofWords cs := by
  rw [digits, used_eq, words, hbuf, map_append, ← hlen, take_left' (by simp), map_map]
  congr 1
  exact map_id'' (fun _ => Int.toNat_natCast _) cs

end MyDecimal

theorem int8_nine_mul {n : Nat} (h : n ≤ 9) : int8 ((n : Int) * digitsPerWord) = 9 * n := by
  rw [int8, digitsPerWord, Int.bmod_eq_of_le (by omega) (by omega)]
  ring

theorem digitsToWords_nine_mul (n : Nat) : (digitsToWords (9 * n)).toNat = n := by
  rw [digitsToWords, digitsPerWord, Int.tdiv_eq_ediv_of_nonneg (by omega)]
  omega

theorem digitsToWords_max {m n : Int} (hm : 0 ≤ m) (hn : 0 ≤ n) :
    digitsToWords (max m n) = max (digitsToWords m) (digitsToWords n) := by
  rw [digitsToWords, digitsToWords, digitsToWords, digitsPerWord, Int.tdiv_eq_ediv_of_nonneg (by omega),
    Int.tdiv_eq_ediv_of_nonneg (by omega), Int.tdiv_eq_ediv_of_nonneg (by omega)]
  omega

end Tidb.Types
