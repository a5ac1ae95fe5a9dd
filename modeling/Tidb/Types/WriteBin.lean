import Tidb.Types.DecimalBin

/-!
# What `WriteBin` writes

A decimal whose integer part fits the precision and the scale is written, cut off at the scale, in the
cells of the precision and the scale.  The order of the bytes is then the order of the numbers.
-/

namespace Tidb.Types

open GoLang ByteNum Outcome Cursor
open List hiding span

/-! ## Masked bytes -/

@[simp] theorem length_mask (m : Bool) (l : Bytes) : (mask m l).length = l.length := by cases m <;> simp [mask]

@[simp] theorem mask_nil (m : Bool) : mask m [] = [] := by cases m <;> rfl

theorem mask_append (m : Bool) (a b : Bytes) : mask m (a ++ b) = mask m a ++ mask m b := by cases m <;> simp [mask]

theorem mask_replicate_zero (m : Bool) (n : Nat) : mask m (replicate n 0) = replicate n (maskByte m) := by
  cases m
  · rfl
  · simp only [mask, map_replicate]
    rfl

variable {x : Nat}

theorem wordBytes_xorMask (hx : x < 2 ^ 32) (m : Bool) {size : Nat} (hs : size ≤ 4) :
    wordBytes (xorMask x m) size = mask m (beBytes size x) := by
  cases m
  · simp only [wordBytes, xorMask, Bool.false_eq_true, if_false]
    congr 1
    omega
  · have hpow : (256 : Nat) ^ size ∣ 2 ^ 32 := by exact pow_dvd_pow 256 hs
    have hx32 : ((-(x : Int) - 1) % 2 ^ 32).toNat = 2 ^ 32 - 1 - x := by omega
    have hnum : beNat ((beBytes size x).map (~~~ ·)) = 256 ^ size - 1 - x % 256 ^ size := by
      rw [beNat_map_compl, length_beBytes, beNat_beBytes]
    simp only [wordBytes, xorMask, mask, if_true, Int.toNat_natCast, hx32]
    have hback := beBytes_beNat ((beBytes size x).map (~~~ ·))
    rw [length_map, length_beBytes, hnum] at hback
    rw [← hback, ← beBytes_mod size (2 ^ 32 - 1 - x) le_rfl]
    congr 1
    obtain ⟨q, hq⟩ := hpow
    have hdiv := Nat.div_add_mod x (256 ^ size)
    have hdlt : x / 256 ^ size < q := Nat.div_lt_of_lt_mul (by rw [← hq]; exact hx)
    -- `2 ^ 32 - 1 - x` splits into its quotient and this remainder
    have hsplit : 2 ^ 32 - 1 - x = 256 ^ size * (q - 1 - x / 256 ^ size) + (256 ^ size - 1 - x % 256 ^ size) := by
      have hmul : 256 ^ size * (q - 1 - x / 256 ^ size) + 256 ^ size * (x / 256 ^ size) + 256 ^ size = 2 ^ 32 := by
        rw [hq, ← Nat.mul_add, ← Nat.mul_succ]
        congr 1
        omega
      omega
    rw [hsplit, Nat.mul_add_mod, Nat.mod_eq_of_lt (by omega)]

/-! ## The cursor -/

namespace Cursor

def behind (done rest : Bytes) : Cursor := ⟨done ++ rest, done.length⟩

def Appends {β : Type} (step : Cursor → Res β) (bs : Bytes) (next : Cursor → β) : Prop :=
  ∀ done rest, bs.length ≤ rest.length →
    step (behind done rest) = .ok (next (behind (done ++ bs) (rest.drop bs.length)))

theorem put_appends (bs : Bytes) : Appends (·.put bs) bs fun c => c := by
  intro done rest h
  have htake : (done ++ rest).take done.length = done := take_left
  have hdrop : (done ++ rest).drop (done.length + bs.length) = rest.drop bs.length := by rw [← drop_drop, drop_left]
  show (behind done rest).put bs = _
  rw [put, behind, if_pos (by simp; omega)]
  simp only [htake, hdrop]
  rw [behind, length_append]

theorem pure_appends {β : Type} (next : Cursor → β) : Appends (fun c => .ok (next c)) [] next := by
  intro done rest _
  rw [append_nil]
  rfl

theorem Appends.bind {β γ : Type} {step : Cursor → Res β} {bs bs' : Bytes} {next : Cursor → β}
    {g : β → Res γ} {next' : Cursor → γ} (h : Appends step bs next) (h' : Appends (fun c => g (next c)) bs' next') :
    Appends (fun c => step c >>= g) (bs ++ bs') next' := by
  intro done rest hlen
  rw [length_append] at hlen
  show step (behind done rest) >>= g = _
  rw [h done rest (by omega), length_append, ← drop_drop, ← append_assoc]
  exact h' _ _ (by rw [length_drop]; omega)

theorem behind_binIdx (done rest : Bytes) : (behind done rest).binIdx = done.length := rfl

theorem behind_bin (done rest : Bytes) : (behind done rest).bin = done ++ rest := rfl

end Cursor

/-! ## Copying digits -/

variable {words : WordBuf}

theorem wordBuf_get {pre post : List Nat} {w : Nat} (h : words.1 = (pre ++ w :: post).map Nat.cast) :
    words.get (pre.length : Int) = .ok (w : Int) := by
  rw [WordBuf.get, indexInt_natCast, h, index_of_lt (by simp)]
  simp

theorem writeWords_spec (words : WordBuf) (m : Bool) (pre ws post : List Nat)
    (hbuf : words.1 = (pre ++ (ws ++ post)).map Nat.cast) (hlt : ∀ w ∈ ws, w < 1000000000) :
    Cursor.Appends (writeWords words m ws.length (pre.length : Int)) (mask m (ws.flatMap (beBytes 4)))
      fun c => (((pre.length + ws.length : Nat) : Int), c) := by
  induction ws generalizing pre with
  | nil =>
    rw [flatMap_nil, mask_nil]
    exact pure_appends _
  | cons w ws ih =>
    have hw : w < 1000000000 := hlt w mem_cons_self
    have hbytes : wordBytes (xorMask (w : Int) m) 4 = mask m (beBytes 4 w) :=
      wordBytes_xorMask (by omega) m le_rfl
    have hstep : writeWords words m (w :: ws).length (pre.length : Int) = fun c =>
        c.put (mask m (beBytes 4 w)) >>= writeWords words m ws.length ((pre ++ [w]).length : Nat) := by
      funext c
      rw [length_cons, writeWords, wordBuf_get hbuf, ok_bind, hbytes, length_append]
      rfl
    have hih := ih (pre ++ [w]) (by rw [hbuf, append_assoc]; rfl)
      (fun v hv => hlt v (mem_cons_of_mem _ hv))
    rw [hstep, flatMap_cons, mask_append]
    refine (put_appends _).bind ?_
    rw [length_append, length_singleton, Nat.add_assoc, Nat.add_comm 1] at hih
    rw [length_append]
    exact hih

theorem extendTrailing_self (t : Int) (i : Int) (n : Nat) : extendTrailing t i n t = .ok t := by
  cases n with
  | zero => rfl
  | succ n => rw [extendTrailing, if_neg (lt_irrefl t)]

theorem writeLeading_spec (words : WordBuf) (m : Bool) (pre post : List Nat) (lf x : Nat)
    (hlf : lf < 10) (hx : x < 10 ^ lf)
    (hbuf : words.1 = (pre ++ ((if lf = 0 then [] else [x]) ++ post)).map Nat.cast) :
    Cursor.Appends (writeLeading words m (pre.length : Int) (lf : Int))
      (mask m (beBytes (digWidth lf) x))
      fun c => ((((pre ++ if lf = 0 then [] else [x]).length : Nat) : Int), c) := by
  unfold writeLeading
  by_cases h0 : lf = 0
  · subst h0
    rw [show digWidth 0 = 0 from rfl, beBytes, mask_nil, if_pos rfl, append_nil]
    exact pure_appends _
  · have hpow : (10 : Nat) ^ lf ≤ 10 ^ 9 := Nat.pow_le_pow_right (by norm_num) (by omega)
    have hmod : ((x : Int)).tmod (10 ^ lf) = (x : Int) := by
      rw [Int.tmod_eq_emod_of_nonneg (by omega)]
      exact Int.emod_eq_of_lt (by omega) (by exact_mod_cast hx)
    have hget : words.get (pre.length : Int) = .ok (x : Int) :=
      @wordBuf_get _ _ post _ (by rw [hbuf, if_neg h0]; rfl)
    simp only [if_pos (show (0 : Int) < lf by omega), dig2bytes_natCast hlf, ok_bind, hget,
      powers10_natCast hlf, hmod, wordBytes_xorMask (show x < 2 ^ 32 by omega) m (digWidth_le hlf)]
    have happ := (put_appends (mask m (beBytes (digWidth lf) x))).bind
      (pure_appends fun c => ((pre.length : Int) + 1, c))
    rw [append_nil] at happ
    rw [if_neg h0, length_append]
    exact happ

theorem writeTrailing_spec (words : WordBuf) (m : Bool) (pre post : List Nat) (t y : Nat)
    (lim : Int) (ht : t < 10) (hy : y < 1000000000) (hlim : 0 < t → lim = t)
    (hbuf : 0 < t → words.1 = (pre ++ y :: post).map Nat.cast) :
    Cursor.Appends (writeTrailing words m (pre.length : Int) (t : Int) lim)
      (mask m (beBytes (digWidth t) (y / 10 ^ (9 - t)))) fun c => c := by
  unfold writeTrailing
  by_cases h0 : t = 0
  · subst h0
    rw [show digWidth 0 = 0 from rfl, beBytes, mask_nil]
    exact pure_appends _
  · have hpos : 0 < t := by omega
    have hp : powers10 (digitsPerWord - (t : Int)) = .ok (10 ^ (9 - t)) := by
      rw [digitsPerWord, show (9 : Int) - t = ((9 - t : Nat) : Int) by omega]
      exact powers10_natCast (by omega)
    have hdiv : ((y : Int)).tdiv (10 ^ (9 - t)) = ((y / 10 ^ (9 - t) : Nat) : Int) := rfl
    have hylt : y / 10 ^ (9 - t) < 2 ^ 32 :=
      lt_of_le_of_lt (Nat.div_le_self _ _) (hy.trans (by norm_num))
    simp only [if_pos (show (0 : Int) < t by omega), dig2bytes_natCast ht, ok_bind, hlim hpos, extendTrailing_self,
      wordBuf_get (hbuf hpos), hp, hdiv, wordBytes_xorMask hylt m (digWidth_le ht)]
    exact put_appends _

/-! ## The cells of a precision and a scale -/

def intCells (n : Nat) : List Cell := digitCell (n % 9) :: replicate (n / 9) wordCell

def fracCells (f : Nat) : List Cell := replicate (f / 9) wordCell ++ [digitCell (f % 9)]

def binCells (precision frac : Nat) : List Cell := intCells (precision - frac) ++ fracCells frac

def digitBytes (n : Nat) : Nat := 4 * (n / 9) + digWidth (n % 9)

theorem writeCells_words {ws : List Nat} :
    writeCells (replicate ws.length wordCell) ws = ws.flatMap (beBytes 4) := by
  induction ws with
  | nil => rfl
  | cons w ws ih =>
    rw [length_cons, replicate_succ, writeCells, ih]
    rfl

theorem totalWidth_append (cs ds : List Cell) : totalWidth (cs ++ ds) = totalWidth cs + totalWidth ds := by
  simp [totalWidth]

theorem totalWidth_replicate_wordCell (n : Nat) : totalWidth (replicate n wordCell) = 4 * n := by
  simp [totalWidth]
  omega

theorem totalWidth_intCells (n : Nat) : totalWidth (intCells n) = digitBytes n := by
  have h : totalWidth (intCells n) = digWidth (n % 9) + totalWidth (replicate (n / 9) wordCell) := rfl
  rw [h, totalWidth_replicate_wordCell, digitBytes, Nat.add_comm]

theorem totalWidth_fracCells (f : Nat) : totalWidth (fracCells f) = digitBytes f := by
  rw [fracCells, totalWidth_append, totalWidth_replicate_wordCell]
  rfl

theorem totalWidth_binCells (p f : Nat) : totalWidth (binCells p f) = digitBytes (p - f) + digitBytes f := by
  rw [binCells, totalWidth_append, totalWidth_intCells, totalWidth_fracCells]

variable {n : Nat}

theorem digitBytes_pos (h : 0 < n) : 0 < digitBytes n := by
  rw [digitBytes]
  by_cases h9 : n % 9 = 0
  · omega
  · have := digWidth_pos (show 0 < n % 9 by omega)
    omega

theorem digitBytes_mono {m : Nat} (h : m ≤ n) : digitBytes m ≤ digitBytes n := by
  have hm : digWidth (m % 9) ≤ 4 := digWidth_le (by omega)
  rw [digitBytes, digitBytes]
  by_cases hdiv : m / 9 = n / 9
  · have := digWidth_mono (show m % 9 ≤ n % 9 by omega) (by omega)
    omega
  · omega

variable {p f : Nat}

theorem totalWidth_binCells_pos (hp : 0 < p) : 0 < totalWidth (binCells p f) := by
  have hint := digitBytes_pos (n := p - f)
  have hfrac := digitBytes_pos (n := f)
  rw [totalWidth_binCells]
  omega

theorem span_fracCells (f : Nat) : span (fracCells f) = 10 ^ f := by
  rw [fracCells, span_append, span_replicate_wordCell, span, span, Nat.mul_one]
  change 10 ^ (9 * (f / 9)) * 10 ^ (f % 9) = 10 ^ f
  rw [← pow_add, Nat.div_add_mod]

theorem lt_pow_digWidth {k : Nat} (h : x < 10 ^ k) : x < 256 ^ digWidth k :=
  lt_of_lt_of_le h (digitCell k).radix_le

theorem intCells_digits {D : Nat} {ws : List Nat} (hn : n ≤ D) (hx : x < 10 ^ (n % 9))
    (hlen : ws.length = n / 9) (hws : ∀ w ∈ ws, w < 1000000000) : ∃ xs, Fits (intCells D) xs ∧ value (intCells D) xs = x
      * 10 ^ (9 * ws.length) + ofWords ws ∧ writeCells (intCells D) xs = replicate (digitBytes D - digitBytes n) 0
      ++ (beBytes (digWidth (n % 9)) x ++ ws.flatMap (beBytes 4)) := by
  have hfits := fits_words hws
  by_cases hdiv : D / 9 = n / 9
  · have hle : n % 9 ≤ D % 9 := by omega
    have hcells : intCells D = digitCell (D % 9) :: replicate ws.length wordCell := by rw [intCells, hdiv, hlen]
    refine ⟨x :: ws, ?_, ?_, ?_⟩
    · rw [hcells]
      exact ⟨lt_of_lt_of_le hx (Nat.pow_le_pow_right (by norm_num) hle), hfits⟩
    · rw [hcells, value, span_replicate_wordCell, ofWords]
    · have hsize : digitBytes D - digitBytes n = digWidth (D % 9) - digWidth (n % 9) := by
        rw [digitBytes, digitBytes]
        omega
      rw [hcells, writeCells, writeCells_words, hsize, ← append_assoc]
      congr 1
      exact beBytes_of_le (digWidth_mono hle (by omega)) (lt_pow_digWidth hx)
  · -- the leading word of the digits gets a full cell
    have hcells : intCells D = (digitCell (D % 9) :: replicate (D / 9 - n / 9 - 1) wordCell) ++
        (wordCell :: replicate ws.length wordCell) := by
      rw [intCells, cons_append, ← replicate_succ, ← replicate_add]
      congr 2
      omega
    have hx9 : x < 1000000000 :=
      lt_of_lt_of_le hx (Nat.pow_le_pow_right (by norm_num) (show n % 9 ≤ 9 by omega))
    have hzero := fits_zero (digitCell (D % 9) :: replicate (D / 9 - n / 9 - 1) wordCell)
    have htail : Fits (wordCell :: replicate ws.length wordCell) (x :: ws) := ⟨hx9, hfits⟩
    refine ⟨_, by rw [hcells]; exact fits_append hzero htail, ?_, ?_⟩
    · rw [hcells, value_append hzero, value_zero, Nat.zero_mul, Nat.zero_add, value, span_replicate_wordCell, ofWords]
    · have hwidth : totalWidth (digitCell (D % 9) :: replicate (D / 9 - n / 9 - 1) wordCell) =
          digWidth (D % 9) + 4 * (D / 9 - n / 9 - 1) := by
        rw [← totalWidth_replicate_wordCell]
        rfl
      have hle4 : digWidth (n % 9) ≤ 4 := digWidth_le (by omega)
      have hsize : digitBytes D - digitBytes n =
          digWidth (D % 9) + 4 * (D / 9 - n / 9 - 1) + (4 - digWidth (n % 9)) := by
        rw [digitBytes, digitBytes]
        omega
      rw [hcells, writeCells_append hzero, writeCells_zero, hwidth, writeCells, writeCells_words,
        hsize, wordCell_width, beBytes_of_le hle4 (lt_pow_digWidth hx)]
      simp only [replicate_add, append_assoc]

theorem length_flatMap_beBytes (w : Nat) (ws : List Nat) : (ws.flatMap (beBytes w)).length = w * ws.length := by
  simp
  exact Nat.mul_comm _ _

variable {fw : List Nat}

theorem fracCells_take (hfw : ∀ w ∈ fw, w < 1000000000) (hle : f / 9 ≤ fw.length) :
    ∃ ys, Fits (fracCells f) ys ∧ value (fracCells f) ys = ofWords fw * 10 ^ f / 10 ^ (9 * fw.length) ∧
      writeCells (fracCells f) ys = (fw.take (f / 9)).flatMap (beBytes 4) ++
        beBytes (digWidth (f % 9)) (fw.getD (f / 9) 0 / 10 ^ (9 - f % 9)) := by
  have htake : (fw.take (f / 9)).length = f / 9 := by rw [length_take]; omega
  have hcells : fracCells f = replicate (fw.take (f / 9)).length wordCell ++ [digitCell (f % 9)] := by
    rw [htake, fracCells]
  have hlt : fw.getD (f / 9) 0 < 1000000000 := by
    rw [getD_eq_getElem?_getD]
    cases hget : fw[f / 9]? with
    | none => norm_num
    | some y => exact hfw y (mem_of_getElem? hget)
  have hpow : 10 ^ (9 - f % 9) * 10 ^ (f % 9) = 1000000000 := by
    rw [← pow_add]
    norm_num
  have hlast : fw.getD (f / 9) 0 / 10 ^ (9 - f % 9) < 10 ^ (f % 9) :=
    Nat.div_lt_of_lt_mul (by rwa [hpow])
  have hwords := @fits_words (fw.take (f / 9)) fun w hw => hfw w (mem_of_mem_take hw)
  refine ⟨fw.take (f / 9) ++ [fw.getD (f / 9) 0 / 10 ^ (9 - f % 9)], ?_, ?_, ?_⟩
  · rw [hcells]
    exact fits_append hwords ⟨hlast, trivial⟩
  · -- split the words at the cut
    rw [hcells, value_append hwords]
    change ofWords (fw.take (f / 9)) * (10 ^ (f % 9) * 1) + (fw.getD (f / 9) 0 / 10 ^ (9 - f % 9) * 1 + 0) = _
    rw [Nat.mul_one, Nat.mul_one, Nat.add_zero]
    have hf := (Nat.div_add_mod f 9).symm
    conv_rhs => rw [← take_append_drop (f / 9) fw]
    cases hdrop : fw.drop (f / 9) with
    | nil =>
      have hnone : fw.getD (f / 9) 0 = 0 := by
        rw [getD_eq_getElem?_getD, getElem?_eq_none (drop_eq_nil_iff.mp hdrop)]
        rfl
      rw [hnone, Nat.zero_div, Nat.add_zero, append_nil, htake]
      conv_rhs => rw [show (10 : Nat) ^ f = 10 ^ (9 * (f / 9)) * 10 ^ (f % 9) by rw [← pow_add, ← hf]]
      rw [show ofWords (fw.take (f / 9)) * (10 ^ (9 * (f / 9)) * 10 ^ (f % 9)) = 10 ^ (9 * (f / 9)) * (ofWords (fw.take
        (f / 9)) * 10 ^ (f % 9)) by ring, Nat.mul_div_cancel_left _ (by positivity)]
    | cons y c =>
      have hsome : fw.getD (f / 9) 0 = y := by
        rw [getD_eq_getElem?_getD, ← head?_drop, hdrop]
        rfl
      have hc : ofWords c < 10 ^ (9 * c.length) := by
        refine ofWords_lt fun w hw => hfw w (mem_of_mem_drop (i := f / 9) ?_)
        rw [hdrop]
        exact mem_cons_of_mem _ hw
      have hexp : 10 ^ (9 * (fw.take (f / 9) ++ y :: c).length) =
          10 ^ f * (10 ^ (9 * c.length) * 10 ^ (9 - f % 9)) := by
        rw [← pow_add, ← pow_add, length_append, length_cons]
        congr 1
        omega
      have hnum : ofWords (fw.take (f / 9) ++ y :: c) = 10 ^ (9 * c.length) * (y + 10 ^ (9 - f % 9) *
            (ofWords (fw.take (f / 9)) * 10 ^ (f % 9))) + ofWords c := by
        rw [ofWords_append, ofWords_cons, length_cons,
          show 9 * (c.length + 1) = 9 * c.length + 9 by omega, pow_add,
          show (10 : Nat) ^ 9 = 1000000000 by norm_num, ← hpow]
        ring
      rw [hsome, hexp, Nat.mul_comm _ (10 ^ f), Nat.mul_div_mul_left _ _ (by positivity),
        ← Nat.div_div_eq_div_mul, hnum, Nat.mul_add_div (by positivity), Nat.div_eq_of_lt hc,
        Nat.add_zero, Nat.add_mul_div_left _ _ (by positivity), Nat.add_comm]
  · rw [hcells, writeCells_append hwords, writeCells_words]
    simp [writeCells, digitCell]

theorem fracCells_pad (hfw : ∀ w ∈ fw, w < 1000000000) (hle : fw.length ≤ f / 9) :
    ∃ ys, Fits (fracCells f) ys ∧ value (fracCells f) ys = ofWords fw * 10 ^ f / 10 ^ (9 * fw.length) ∧
      writeCells (fracCells f) ys = fw.flatMap (beBytes 4) ++ replicate (digitBytes f - 4 * fw.length) 0 := by
  have hcells : fracCells f = replicate fw.length wordCell ++
      (replicate (f / 9 - fw.length) wordCell ++ [digitCell (f % 9)]) := by
    rw [fracCells, ← append_assoc, ← replicate_add]
    congr 2
    omega
  have hwords := fits_words hfw
  have hzero := fits_zero (replicate (f / 9 - fw.length) wordCell ++ [digitCell (f % 9)])
  have hspan : span (replicate (f / 9 - fw.length) wordCell ++ [digitCell (f % 9)]) =
      10 ^ (f - 9 * fw.length) := by
    rw [span_append, span_replicate_wordCell]
    change 10 ^ (9 * (f / 9 - fw.length)) * (10 ^ (f % 9) * 1) = _
    rw [Nat.mul_one, ← pow_add]
    congr 1
    omega
  have hwidth : totalWidth (replicate (f / 9 - fw.length) wordCell ++ [digitCell (f % 9)]) =
      digitBytes f - 4 * fw.length := by
    have h := totalWidth_fracCells f
    rw [hcells, totalWidth_append, totalWidth_replicate_wordCell] at h
    omega
  refine ⟨_, by rw [hcells]; exact fits_append hwords hzero, ?_, ?_⟩
  · rw [hcells, value_append hwords, value_zero, Nat.add_zero, hspan, ← ofWords,
      show (10 : Nat) ^ f = 10 ^ (9 * fw.length) * 10 ^ (f - 9 * fw.length) by rw [← pow_add]; congr 1; omega,
      Nat.mul_left_comm, Nat.mul_div_cancel_left _ (by positivity)]
  · rw [hcells, writeCells_append hwords, writeCells_words, writeCells_zero, hwidth]

/-! ## `WriteBin` -/

/-- The fraction is cut at the scale, or all of its words are copied and zeros follow. -/
theorem planFrac_spec {wf t wff tf : Nat} (ht : t < 9) (htf : tf < 9) :
    ∃ plan, planFrac wf t (wf * wordSize + digWidth t) wff tf (wff * wordSize + digWidth tf) = plan ∧
      ((plan.words = wf ∧ plan.trailingDigits = t ∧ wf ≤ wff + (if tf = 0 then 0 else 1) ∧
          (0 < t → wf < wff + (if tf = 0 then 0 else 1)) ∧ plan.fracSize ≤ wff * wordSize + digWidth tf ∧
          (plan.truncated = false → 9 * wff + tf ≤ 9 * wf + t)) ∨
        (plan.words = ((wff + (if tf = 0 then 0 else 1) : Nat) : Int) ∧ plan.trailingDigits = 0 ∧
          plan.fracSize = wf * wordSize + digWidth t ∧ plan.truncated = false ∧
          wff + (if tf = 0 then 0 else 1) ≤ wf)) := by
  have hd : digWidth t ≤ 4 := digWidth_le (by omega)
  have hdf : digWidth tf ≤ 4 := digWidth_le (by omega)
  have hpos : 0 < t → 0 < digWidth t := digWidth_pos
  have hzero : tf = 0 → digWidth tf = 0 := by rintro rfl; rfl
  have hmono : t ≤ tf → digWidth t ≤ digWidth tf := fun h => digWidth_mono h (by omega)
  refine ⟨_, rfl, ?_⟩
  rw [planFrac, wordSize]
  split
  · left
    refine ⟨rfl, rfl, by split <;> omega, fun h => by split <;> omega, by dsimp only; omega, ?_⟩
    intro htr
    simp only [decide_eq_false_iff_not] at htr
    omega
  · split
    · split
      · left
        refine ⟨by dsimp only; omega, rfl, by split <;> omega, fun h => by split <;> omega, le_rfl, fun _ => by omega⟩
      · right
        refine ⟨by dsimp only; split <;> omega, rfl, rfl, rfl, by split <;> omega⟩
    · right
      have htf0 : tf = 0 := by omega
      refine ⟨by dsimp only; rw [if_pos htf0]; omega, by dsimp only; omega, rfl, rfl, by rw [if_pos htf0]; omega⟩

theorem writeRegion_spec (words : WordBuf) (m : Bool) (pre ws fw post : List Nat) (lf x mf t : Nat)
    (lim : Int) (pad : Nat) (fracPadding : Int) (bin : Bytes) (hlf : lf < 10) (ht : t < 10)
    (hx : x < 10 ^ lf) (hws : ∀ w ∈ ws, w < 1000000000) (hfw : ∀ w ∈ fw, w < 1000000000)
    (hbuf : words.1 = (pre ++ ((if lf = 0 then [] else [x]) ++ (ws ++ (fw ++ post)))).map Nat.cast)
    (hmf : mf ≤ fw.length) (htf : 0 < t → mf < fw.length) (hlim : 0 < t → lim = t)
    (hlen : pad + digWidth lf + 4 * (ws.length + mf) + digWidth t ≤ bin.length)
    (hpadding : (min fracPadding ((bin.length - (pad + digWidth lf + 4 * (ws.length + mf) + digWidth t) : Nat) :
      Int)).toNat = bin.length - (pad + digWidth lf + 4 * (ws.length + mf) + digWidth t)) :
    writeRegion words m (pre.length : Int) lf ((ws.length + mf : Nat) : Int) t lim pad fracPadding
        bin =
      .ok (mask m (replicate pad 0 ++ (beBytes (digWidth lf) x ++ ws.flatMap (beBytes 4)) ++ ((fw.take mf).flatMap
        (beBytes 4) ++ beBytes (digWidth t) (fw.getD mf 0 / 10 ^ (9 - t)) ++ replicate (bin.length - (pad +
        digWidth lf + 4 * (ws.length + mf) + digWidth t)) 0))) := by
  have htake : (fw.take mf).length = mf := by rw [length_take]; omega
  have hrest : fw ++ post = fw.take mf ++ (fw.drop mf ++ post) := by rw [← append_assoc, take_append_drop]
  have hy : fw.getD mf 0 < 1000000000 := by
    rw [getD_eq_getElem?_getD]
    cases hget : fw[mf]? with
    | none => norm_num
    | some y => exact hfw y (mem_of_getElem? hget)
  have hlead := writeLeading_spec words m pre (ws ++ (fw ++ post)) lf x hlf hx hbuf
  have hwords := writeWords_spec words m (pre ++ if lf = 0 then [] else [x]) (ws ++ fw.take mf)
    (fw.drop mf ++ post) (by rw [hbuf, hrest]; simp)
    (fun w hw => (mem_append.mp hw).elim (hws w) fun h => hfw w (mem_of_mem_take h))
  have htrail := writeTrailing_spec words m (pre ++ (if lf = 0 then [] else [x]) ++
    (ws ++ fw.take mf)) (fw.drop (mf + 1) ++ post) t (fw.getD mf 0) lim ht hy hlim (by
      intro hpos
      have hdrop : fw.drop mf = fw.getD mf 0 :: fw.drop (mf + 1) := by
        rw [drop_eq_getElem_cons (htf hpos), getD_eq_getElem?_getD,
          getElem?_eq_getElem (htf hpos), Option.getD_some]
      rw [hbuf, hrest, hdrop]
      simp)
  rw [@length_append _ ws _, htake] at hwords
  rw [@length_append _ (pre ++ _) _, @length_append _ ws _, htake] at htrail
  have hall := (Cursor.put_appends (mask m (replicate pad 0))).bind
    (hlead.bind (g := fun p => writeWords words m (ws.length + mf) p.1 p.2 >>= fun p =>
      writeTrailing words m p.1 t lim p.2) (hwords.bind htrail))
  rw [← mask_append, ← mask_append, ← mask_append] at hall
  generalize hbs : replicate pad 0 ++ (beBytes (digWidth lf) x ++ ((ws ++ fw.take mf).flatMap (beBytes 4) ++
      beBytes (digWidth t) (fw.getD mf 0 / 10 ^ (9 - t)))) = bs at hall
  have hdone : bs.length = pad + digWidth lf + 4 * (ws.length + mf) + digWidth t := by
    rw [← hbs]
    simp only [length_append, length_replicate, length_beBytes, length_flatMap_beBytes]
    omega
  rw [← hdone] at hlen hpadding ⊢
  have hsteps := congrArg (fun r : Res Cursor => r >>= fun c => c.put (replicate
    (min fracPadding (bin.length - c.binIdx)).toNat (maskByte m)) >>= fun c => (.ok c.bin : Res Bytes))
    (hall [] bin (by rwa [length_mask]))
  simp only [bind_assoc, ok_bind] at hsteps
  rw [writeRegion, ← mask_replicate_zero]
  refine hsteps.trans ?_
  -- the fill behind takes what is left of the region
  rw [Cursor.behind_binIdx, nil_append, length_mask, ← Nat.cast_sub hlen, hpadding, ← mask_replicate_zero]
  refine ((Cursor.put_appends _).bind (Cursor.pure_appends Cursor.bin) _ _ (by simp)).trans ?_
  rw [Cursor.behind_bin, drop_eq_nil_of_le (by simp), ← hbs]
  simp only [mask_append, flatMap_append, append_assoc, append_nil]

theorem writeBin_append (d : MyDecimal) (p f : Int) (buf spare : Bytes) :
    writeBin d p f buf spare = writeBin d p f [] spare >>= fun r => .ok (buf ++ r.1, r.2) := by
  unfold writeBin
  split
  · simp
  · simp only [bind_assoc, pure_eq, ok_bind, nil_append]

theorem tdiv_digitsPerWord (n : Nat) : ((n : Int)).tdiv digitsPerWord = ((n / 9 : Nat) : Int) := by
  rw [digitsPerWord, Int.tdiv_eq_ediv_of_nonneg (by omega)]
  omega

theorem sub_div_digitsPerWord (n : Nat) :
    (n : Int) - ((n / 9 : Nat) : Int) * digitsPerWord = ((n % 9 : Nat) : Int) := by
  rw [digitsPerWord]
  omega

theorem binRegion_ok (n : Nat) (spare : Bytes) : ∃ bin, binRegion (n : Int) spare = .ok bin ∧ bin.length = n := by
  rw [binRegion, if_neg (by omega)]
  split
  · exact ⟨_, rfl, by rw [length_take]; omega⟩
  · exact ⟨_, rfl, by simp⟩

variable {d : MyDecimal}

theorem digits_scaled (h : d.WellFormed) (f : Nat) : d.digits * 10 ^ f / 10 ^ (9 * d.wordsFrac) =
      ofWords d.intWords * 10 ^ f + ofWords d.fracWords * 10 ^ f / 10 ^ (9 * d.wordsFrac) := by
  rw [MyDecimal.digits, ofWords_append, h.length_fracWords, Nat.add_mul,
    show ofWords d.intWords * 10 ^ (9 * d.wordsFrac) * 10 ^ f =
      10 ^ (9 * d.wordsFrac) * (ofWords d.intWords * 10 ^ f) by ring,
    Nat.mul_add_div (by positivity)]

theorem planFrac_digits {F : Nat} (hfw : ∀ w ∈ fw, w < 1000000000)
    (hlen : fw.length = F / 9 + (if F % 9 = 0 then 0 else 1)) :
    ∃ (plan : FracPlan) (mf t : Nat) (ys : List Nat),
      planFrac (f / 9 : Nat) (f % 9 : Nat) ((f / 9 : Nat) * wordSize + digWidth (f % 9))
        (F / 9 : Nat) (F % 9 : Nat) ((F / 9 : Nat) * wordSize + digWidth (F % 9)) = plan ∧
      plan.words = mf ∧ plan.trailingDigits = t ∧ t < 10 ∧ mf ≤ fw.length ∧
      (0 < t → mf < fw.length) ∧
      (0 < t → (if plan.words < ((f / 9 : Nat) : Int) then digitsPerWord else ((f % 9 : Nat) : Int)) = (t : Int)) ∧
      4 * mf + digWidth t ≤ digitBytes f ∧
      (min (plan.fracSize - ((F / 9 : Nat) * wordSize + digWidth (F % 9))) ((digitBytes f - (4 * mf + digWidth t) : Nat)
        : Int)).toNat = digitBytes f - (4 * mf + digWidth t) ∧
      Fits (fracCells f) ys ∧
      value (fracCells f) ys = ofWords fw * 10 ^ f / 10 ^ (9 * fw.length) ∧
      writeCells (fracCells f) ys = (fw.take mf).flatMap (beBytes 4) ++ beBytes (digWidth t) (fw.getD mf 0 / 10 ^ (9 -
        t)) ++ replicate (digitBytes f - (4 * mf + digWidth t)) 0 ∧
      (plan.truncated = false → F ≤ f) := by
  obtain ⟨plan, hplan, hcut | hall⟩ := @planFrac_spec (f / 9) (f % 9) (F / 9) (F % 9) (by omega)
    (by omega)
  · obtain ⟨hw, ht, hle, hlt, hsize, htr⟩ := hcut
    rw [← hlen] at hle hlt
    obtain ⟨ys, hfits, hval, hbytes⟩ := fracCells_take hfw hle
    refine ⟨plan, f / 9, f % 9, ys, hplan, hw, ht, by omega, hle, hlt, fun _ => ?_, le_rfl, ?_,
      hfits, hval, ?_, fun hf => ?_⟩
    · rw [hw, if_neg (lt_irrefl _)]
    · rw [digitBytes]
      omega
    · rw [hbytes, digitBytes, Nat.sub_self, replicate_zero, append_nil]
    · have := htr hf
      omega
  · obtain ⟨hw, ht, hsize, htr, hle⟩ := hall
    rw [← hlen] at hw hle
    obtain ⟨ys, hfits, hval, hbytes⟩ := fracCells_pad hfw hle
    have hd : digWidth (F % 9) ≤ 4 := digWidth_le (by omega)
    have hz : F % 9 = 0 → digWidth (F % 9) = 0 := fun h0 => by rw [h0]; rfl
    have hzero : digWidth 0 = 0 := rfl
    refine ⟨plan, fw.length, 0, ys, hplan, hw, ht, by omega, le_rfl, by omega, by omega, ?_, ?_,
      hfits, hval, ?_, fun _ => ?_⟩
    · rw [digitBytes]
      omega
    · rw [hsize, digitBytes, wordSize]
      split at hlen <;> omega
    · rw [hbytes, take_length, hzero, beBytes, append_nil, Nat.add_zero]
    · split at hlen <;> omega

theorem planFrac_same (words digits size : Int) : (planFrac words digits size words digits size).truncated = false := by
  rw [planFrac]
  simp

/-- The digits, cut off at the scale, are written in the cells, whatever the spare capacity held, and at most that is
reported. -/
structure BinWritten (d : MyDecimal) (neg : Bool) (p f : Nat) (xs : List Nat) (err : Option Err) : Prop where
  fits : Fits (binCells p f) xs
  value_eq : value (binCells p f) xs = d.digits * 10 ^ f / 10 ^ (9 * d.wordsFrac)
  bytes : ∀ buf spare,
    writeBin { d with negative := neg } p f buf spare = .ok (buf ++ writeSigned neg (binCells p f) xs, err)
  report : err = none ∨ err = some .errTruncated
  frac_le : err = none → d.digitsFrac ≤ f
  same : d.digitsFrac = f → err = none

theorem writeBin_signed (h : d.WellFormed) (hp : 0 < p) (hp81 : p ≤ 81) (hf : f ≤ 30) (hfp : f ≤ p)
    (hfit : ofWords d.intWords < 10 ^ (p - f)) {neg : Bool} (hsign : neg = true → d.digits = 0 → 0 < d.digitsFrac) :
    ∃ xs err, BinWritten d neg p f xs err := by
  obtain ⟨k, n, x, ws, hrlz, hiw, hwslen, hx, hlow⟩ := removeLeadingZeros_spec h
  obtain ⟨F, hF⟩ := Int.eq_ofNat_of_zero_le h.digitsFrac_nonneg
  have hWf : d.wordsFrac = F / 9 + (if F % 9 = 0 then 0 else 1) := by
    rw [h.wordsFrac_eq, hF]
    split <;> omega
  have hn : n ≤ p - f := by
    by_contra hc
    have hle : 10 ^ (p - f) ≤ 10 ^ (n - 1) := Nat.pow_le_pow_right (by norm_num) (by omega)
    omega
  have hwsmem : ∀ w ∈ ws, w ∈ d.intWords := by
    intro w hw
    rw [hiw]
    apply mem_append_right
    split
    · exact hw
    · exact mem_cons_of_mem _ hw
  have hws : ∀ w ∈ ws, w < 1000000000 := fun w hw => h.intWord_lt (hwsmem w hw)
  have hfw : ∀ w ∈ d.fracWords, w < 1000000000 := fun w hw => h.fracWord_lt hw
  -- the integer part
  obtain ⟨xs, hxs, hxsval, hxsbytes⟩ := intCells_digits hn hx hwslen hws
  have hintval : value (intCells (p - f)) xs = ofWords d.intWords := by
    rw [hxsval, hiw, ofWords_append, ofWords_replicate_zero, Nat.zero_mul, Nat.zero_add]
    split
    · rename_i h0
      rw [h0, pow_zero, Nat.lt_one_iff] at hx
      rw [hx, Nat.zero_mul, Nat.zero_add]
    · rw [ofWords_cons]
  -- the fraction
  obtain ⟨plan, mf, t, ys, hplan, hpw, hpt, ht10, hmf, hmft, hlim, hsize, hpadding, hys, hysval,
    hysbytes, htrunc⟩ := planFrac_digits (f := f) (F := F) hfw (by rw [h.length_fracWords, hWf])
  rw [h.length_fracWords] at hysval
  have hvalue : value (binCells p f) (xs ++ ys) = d.digits * 10 ^ f / 10 ^ (9 * d.wordsFrac) := by
    rw [binCells, value_append hxs, span_fracCells, hintval, hysval, digits_scaled h]
  have hfits : Fits (binCells p f) (xs ++ ys) := fits_append hxs hys
  -- a decimal that is written without its sign has none
  have hmask : (!decide ((n : Int) + ((F / 9 : Nat) * wordSize + digWidth (F % 9)) = 0) && neg) = neg := by
    cases neg with
    | false => rw [Bool.and_false]
    | true =>
      rw [Bool.and_true, Bool.not_eq_true', decide_eq_false_iff_not, wordSize]
      intro hz
      have hF0 : F % 9 = 0 := by
        by_contra hne
        have := digWidth_pos (Nat.pos_of_ne_zero hne)
        omega
      have hn0 : n = 0 := by omega
      have hWf0 : d.wordsFrac = 0 := by rw [hWf, if_pos hF0]; omega
      have hpos : d.digits = 0 → False := fun h0 => by
        have := hsign rfl h0
        omega
      apply hpos
      rw [MyDecimal.digits, ofWords_append, ← hintval, hxsval, h.length_fracWords, hWf0,
        eq_nil_of_length_eq_zero (h.length_fracWords.trans hWf0)]
      rw [hn0, pow_zero, Nat.lt_one_iff] at hx
      have hws0 : ws = [] := eq_nil_of_length_eq_zero (by rw [hwslen, hn0])
      rw [hx, hws0]
      rfl
  refine ⟨xs ++ ys, if plan.truncated then some .errTruncated else none, hfits, hvalue, ?_, ?_, ?_, ?_⟩
  · intro buf spare
    obtain ⟨bin, hbin, hbinlen⟩ := binRegion_ok (digitBytes (p - f) + digitBytes f) spare
    have hbuf : d.wordBuf.1 = (replicate k 0 ++ ((if n % 9 = 0 then [] else [x]) ++
        (ws ++ (d.fracWords ++ d.words.drop (d.wordsInt + d.wordsFrac))))).map Nat.cast := by
      rw [h.wordBuf_eq]
      conv_lhs => rw [d.words_eq, hiw]
      split <;> simp
    have hmono := digitBytes_mono hn
    have hnbytes : digitBytes n = 4 * (n / 9) + digWidth (n % 9) := rfl
    have hspace : bin.length - (digitBytes (p - f) - digitBytes n + digWidth (n % 9) +
        4 * (ws.length + mf) + digWidth t) = digitBytes f - (4 * mf + digWidth t) := by
      omega
    have hregion := writeRegion_spec d.wordBuf neg (replicate k 0) ws d.fracWords
      (d.words.drop (d.wordsInt + d.wordsFrac)) (n % 9) x mf t
      (if plan.words < ((f / 9 : Nat) : Int) then digitsPerWord else ((f % 9 : Nat) : Int))
      (digitBytes (p - f) - digitBytes n)
      (plan.fracSize - ((F / 9 : Nat) * wordSize + digWidth (F % 9))) bin
      (by omega) ht10 hx hws hfw hbuf hmf hmft hlim (by omega) (by rw [hspace]; exact hpadding)
    rw [hspace, ← hxsbytes, ← hysbytes, ← writeCells_append hxs, length_replicate] at hregion
    rw [← binCells] at hregion
    have hne : 0 < (mask neg (writeCells (binCells p f) (xs ++ ys))).length := by
      rw [length_mask, length_writeCells hfits]
      exact totalWidth_binCells_pos hp
    have hpf : (p : Int) - f = ((p - f : Nat) : Int) := by omega
    have hd1 := dig2bytes_natCast (k := (p - f) % 9) (by omega)
    have hd2 := dig2bytes_natCast (k := f % 9) (by omega)
    have hd3 := dig2bytes_natCast (k := F % 9) (by omega)
    have hd4 := dig2bytes_natCast (k := n % 9) (by omega)
    have hregsize : ((((p - f) / 9 : Nat) : Int) * wordSize + digWidth ((p - f) % 9)) + (((f / 9 : Nat) : Int) *
        wordSize + digWidth (f % 9)) = ((digitBytes (p - f) + digitBytes f : Nat) : Int) := by
      rw [digitBytes, digitBytes, wordSize]
      omega
    have hplanI : ∀ isZero : Bool, (isZero = true → n = 0) →
        ¬ (if isZero = true then (1 : Int) else ((p - f : Nat) : Int)) < n := by
      intro isZero hz
      cases isZero with
      | true => rw [hz rfl]; omega
      | false => rw [if_neg Bool.false_ne_true]; omega
    have hplanI' := hplanI (decide ((n : Int) + ((F / 9 : Nat) * wordSize + digWidth (F % 9)) = 0)) (by
        rw [decide_eq_true_iff, wordSize]; omega)
    have hpadI : ((((p - f) / 9 : Nat) : Int) * wordSize + digWidth ((p - f) % 9)) -
        (((n / 9 : Nat) : Int) * wordSize + digWidth (n % 9)) = ((digitBytes (p - f) - digitBytes n : Nat) : Int) := by
      rw [Nat.cast_sub hmono, digitBytes, wordSize]
      omega
    have hwords : ((n / 9 : Nat) : Int) + (mf : Int) = ((ws.length + mf : Nat) : Int) := by omega
    rw [hpw] at hregion
    have hrlz' : removeLeadingZeros ⟨d.digitsInt, (F : Int), d.resultFrac, neg, d.wordBuf⟩ =
      .ok ((k : Int), (n : Int)) := by
      rw [← hrlz]
      rfl
    rw [writeBin, if_neg (by rw [digitsPerWord, maxWordBufLen, maxDecimalScale]; omega)]
    simp only [hpf, hF, tdiv_digitsPerWord, sub_div_digitsPerWord, hd1, hd2, hd3, ok_bind,
      hregsize, hbin, hrlz', hmask, hd4, hplan, planInt, if_neg hplanI', hpadI, hpw, hpt, hwords]
    rw [hregion, ok_bind, index_of_lt hne, ok_bind]
    rfl
  · split <;> simp
  · intro hnone
    rw [hF]
    have : plan.truncated = false := by
      by_contra hc
      rw [if_pos (by simpa using hc)] at hnone
      cases hnone
    exact_mod_cast htrunc this
  · intro hsame
    obtain rfl : F = f := by omega
    rw [← hplan, planFrac_same, if_neg Bool.false_ne_true]

theorem writeBin_any (h : d.WellFormed) (hp : 0 < p) (hp81 : p ≤ 81) (hf : f ≤ 30) (hfp : f ≤ p)
    (hfit : ofWords d.intWords < 10 ^ (p - f)) : ∃ xs err, BinWritten d d.negative p f xs err :=
  writeBin_signed h hp hp81 hf hfp hfit fun hneg h0 => absurd h0 (h.zero_sign hneg)

/-! ## Order -/

namespace MyDecimal

structure FitsIn (d : MyDecimal) (p f : Nat) : Prop where
  wellFormed : d.WellFormed
  int : |d.toRat| < 10 ^ (p - f)
  frac : ∃ m : ℤ, d.toRat * 10 ^ f = m

def scaled (d : MyDecimal) (f : Nat) : Nat := d.digits * 10 ^ f / 10 ^ (9 * d.wordsFrac)

theorem abs_toRat (d : MyDecimal) : |d.toRat| = d.digits / 10 ^ (9 * d.wordsFrac) := by
  have hnn : (0 : ℚ) ≤ d.digits / 10 ^ (9 * d.wordsFrac) := by positivity
  rw [toRat]
  split
  · rw [abs_neg, abs_of_nonneg hnn]
  · rw [abs_of_nonneg hnn]

namespace FitsIn

variable {d e : MyDecimal} {p f : Nat}

theorem intWords_lt (h : d.FitsIn p f) : ofWords d.intWords < 10 ^ (p - f) := by
  have hlt := h.int
  have hpos : (0 : ℚ) < 10 ^ (9 * d.wordsFrac) := by positivity
  rw [abs_toRat, div_lt_iff₀ hpos] at hlt
  have hnat : d.digits < 10 ^ (p - f) * 10 ^ (9 * d.wordsFrac) := by exact_mod_cast hlt
  rw [digits, ofWords_append, h.wellFormed.length_fracWords] at hnat
  exact lt_of_mul_lt_mul_right (lt_of_le_of_lt (Nat.le_add_right _ _) hnat) (Nat.zero_le _)

theorem scaled_eq (h : d.FitsIn p f) : (d.scaled f : ℚ) = |d.toRat| * 10 ^ f := by
  obtain ⟨m, hm⟩ := h.frac
  have hpos : (0 : ℚ) < 10 ^ (9 * d.wordsFrac) := by positivity
  have habs : |d.toRat| * 10 ^ f = (m.natAbs : ℚ) := by
    rw [← abs_of_pos (show (0 : ℚ) < 10 ^ f by positivity), ← abs_mul, hm, Nat.cast_natAbs, Int.cast_abs]
  have hnat : d.digits * 10 ^ f = m.natAbs * 10 ^ (9 * d.wordsFrac) := by
    rw [abs_toRat, div_mul_eq_mul_div, div_eq_iff hpos.ne'] at habs
    exact_mod_cast habs
  rw [habs, scaled, hnat, Nat.mul_div_cancel _ (by positivity)]

theorem toRat_eq (h : d.FitsIn p f) :
    d.toRat * 10 ^ f = (if d.negative then -(d.scaled f : ℤ) else d.scaled f : ℤ) := by
  have hs := h.scaled_eq
  rw [abs_toRat] at hs
  rw [toRat]
  cases d.negative
  · simp only [Bool.false_eq_true, if_false, Int.cast_natCast, hs]
  · simp only [if_true, Int.cast_neg, Int.cast_natCast, hs, neg_mul]

theorem signed_scaled (h : d.FitsIn p f) : (if d.negative then -1 else 1) * ((d.scaled f : ℚ) / 10 ^ f) = d.toRat := by
  have hexact := h.toRat_eq
  have hne : (10 : ℚ) ^ f ≠ 0 := by positivity
  rw [← mul_left_inj' hne, hexact]
  cases d.negative
  · push_cast
    field_simp
  · simp only [if_true]
    push_cast
    field_simp

theorem scaled_pos (h : d.FitsIn p f) (hneg : d.negative = true) : 0 < d.scaled f := by
  have hdig : (0 : ℚ) < d.digits := by exact_mod_cast Nat.pos_of_ne_zero (h.wellFormed.zero_sign hneg)
  have : (0 : ℚ) < d.scaled f := by
    rw [h.scaled_eq, abs_toRat]
    positivity
  exact_mod_cast this

theorem compare_signedKey (hd : d.FitsIn p f) (he : e.FitsIn p f) :
    compare (signedKey d.negative (d.scaled f)) (signedKey e.negative (e.scaled f)) = compare d.toRat e.toRat := by
  have hpos : (0 : ℚ) < 10 ^ f := by positivity
  have hlt : ∀ {a b : MyDecimal}, a.FitsIn p f → b.FitsIn p f →
      (signedKey a.negative (a.scaled f) < signedKey b.negative (b.scaled f) ↔ a.toRat < b.toRat) := by
    intro a b ha hb
    have hap := ha.scaled_pos
    have hbp := hb.scaled_pos
    rw [← mul_lt_mul_iff_left₀ hpos, ha.toRat_eq, hb.toRat_eq, Int.cast_lt, signedKey, signedKey]
    cases ha' : a.negative <;> cases hb' : b.negative <;>
      simp only [ha', forall_const, Bool.false_eq_true, if_true, if_false] at hap hbp ⊢ <;>
      omega
  exact compare_congr (hlt hd he) (hlt he hd)

end FitsIn

end MyDecimal

theorem writeBin_order {e : MyDecimal} (hp : 0 < p) (hp81 : p ≤ 81) (hf : f ≤ 30)
    (hfp : f ≤ p) (hd : d.FitsIn p f) (he : e.FitsIn p f) (buf spare buf' spare' : Bytes) :
    ∃ bd be errd erre, writeBin d p f buf spare = .ok (buf ++ bd, errd) ∧
      writeBin e p f buf' spare' = .ok (buf' ++ be, erre) ∧
      bd.length = be.length ∧ compare bd be = compare d.toRat e.toRat := by
  obtain ⟨xs, errd, hx⟩ := writeBin_any hd.wellFormed hp hp81 hf hfp hd.intWords_lt
  obtain ⟨ys, erre, hy⟩ := writeBin_any he.wellFormed hp hp81 hf hfp he.intWords_lt
  refine ⟨_, _, errd, erre, hx.bytes buf spare, hy.bytes buf' spare', ?_, ?_⟩
  · simp only [writeSigned, length_flipTop, length_mask, length_writeCells hx.fits, length_writeCells hy.fits]
  · rw [compare_writeSigned hx.fits hy.fits (totalWidth_binCells_pos hp), hx.value_eq, hy.value_eq]
    exact hd.compare_signedKey he

/-! ## The length of what is written -/

variable {c : Cursor}

theorem Cursor.length_put {c' : Cursor} {bs : Bytes} (h : c.put bs = .ok c') : c'.bin.length = c.bin.length := by
  unfold put at h
  split at h
  · cases h
    simp only [length_append, length_take, length_drop]
    omega
  · cases h

variable {wordIdx : Int} {mask : Bool}

theorem length_writeLeading {k : Int} {r : Int × Cursor} (h : writeLeading words mask wordIdx k c = .ok r) :
    r.2.bin.length = c.bin.length := by
  unfold writeLeading at h
  split at h
  · simp only [bind_eq_ok] at h
    obtain ⟨i, -, w, -, p, -, c', hput, h⟩ := h
    cases h
    exact length_put hput
  · cases h
    rfl

theorem length_writeWords {r : Int × Cursor} (h : writeWords words mask n wordIdx c = .ok r) :
    r.2.bin.length = c.bin.length := by
  induction n generalizing wordIdx c with
  | zero =>
    cases h
    rfl
  | succ n ih =>
    simp only [writeWords, bind_eq_ok] at h
    obtain ⟨x, -, c', hput, h⟩ := h
    rw [ih h, length_put hput]

theorem length_writeTrailing {k lim : Int} {c' : Cursor}
    (h : writeTrailing words mask wordIdx k lim c = .ok c') : c'.bin.length = c.bin.length := by
  unfold writeTrailing at h
  split at h
  · simp only [bind_eq_ok] at h
    obtain ⟨i, -, k', -, w, -, p, -, hput⟩ := h
    exact length_put hput
  · cases h
    rfl

theorem length_writeRegion {leading nWords trailing lim pad pad' : Int} {bin bin' : Bytes}
    (h : writeRegion words mask wordIdx leading nWords trailing lim pad pad' bin = .ok bin') :
    bin'.length = bin.length := by
  simp only [writeRegion, bind_eq_ok] at h
  obtain ⟨c₁, h₁, ⟨i, c₂⟩, h₂, ⟨j, c₃⟩, h₃, c₄, h₄, c₅, h₅, h⟩ := h
  cases h
  rw [length_put h₅, length_writeTrailing h₄, length_writeWords h₃, length_writeLeading h₂, length_put h₁]

theorem length_binRegion {size : Int} {spare bin : Bytes} (h : binRegion size spare = .ok bin) :
    (bin.length : Int) = size := by
  unfold binRegion at h
  split at h
  · cases h
  · split at h
    · cases h
      rw [length_take]
      omega
    · cases h
      rw [length_replicate]
      omega

theorem dig2bytes_range {i n : Int} (h : dig2bytes i = .ok n) : 0 ≤ i ∧ i < 10 := by
  unfold dig2bytes indexInt at h
  split at h
  · cases h
  · by_contra hge
    rw [index, getElem?_eq_none (by simp; omega)] at h
    cases h

/-- Whatever the decimal is, the bytes that are written are as many as `decimalBinSize` says. -/
theorem writeBin_size {p f : Int} {spare b : Bytes} {err : Option Err} (h : writeBin d p f [] spare = .ok (b, err)) :
    (¬(0 ≤ p ∧ p ≤ 81 ∧ 0 ≤ f ∧ f ≤ 30) ∧ err = some .errBadNumber) ∨
      (b ≠ [] ∧ decimalBinSize p f = .ok (b.length : Int)) := by
  unfold writeBin at h
  split at h
  · cases h
    rename_i hrange
    simp only [digitsPerWord, maxWordBufLen, maxDecimalScale] at hrange
    exact .inl ⟨by omega, rfl⟩
  simp only [bind_eq_ok] at h
  obtain ⟨lead, hlead, trail, htrail, _, -, region, hregion, _, -, _, -, bin, hbin, x, hx, h⟩ := h
  cases h
  have hl := dig2bytes_range hlead
  have ht := dig2bytes_range htrail
  have hlen := length_binRegion hregion
  rw [← length_writeRegion hbin] at hlen
  have hne : flipTop bin ≠ [] := by
    rintro hnil
    have hlen0 := congrArg length hnil
    rw [length_flipTop, length_nil, length_eq_zero_iff] at hlen0
    rw [hlen0] at hx
    cases hx
  refine .inr ⟨hne, ?_⟩
  simp only [decimalBinSize, nil_append]
  rw [if_neg (by omega), hlead, ok_bind, htrail, ok_bind, length_flipTop]
  congr 1
  omega

end Tidb.Types
