import Mathlib.Computability.Language
import Tidb.Util.StringUtil

/-!
# What `LIKE` matches

The characters that a pattern matches are a language: one character after the other, each with the
characters it stands for.  The compiled pattern has the same language as the pattern, and the loop of the
match, which only remembers the last `%`, finds out whether the string is in it.
-/

namespace StringUtil

open List

def oneChar : Language ℕ := {s | s.length = 1}

def unescaped (r : ℕ) : Language ℕ :=
  if r = underscore then oneChar else if r = percent then ⊤ else {[r]}

def like (escape : ℕ) : List ℕ → Language ℕ
  | [] => 1
  | r :: rs =>
    if r = escape then
      match rs with
      -- a trailing escape is literal
      | [] => {[r]}
      | c :: rs => {[c]} * like escape rs
    else unescaped r * like escape rs

def charLang : ℕ × PatType → Language ℕ
  | (c, .patMatch) => {[c]}
  | (_, .patOne) => oneChar
  | (_, .patAny) => ⊤

def patLang (pat : List (ℕ × PatType)) : Language ℕ := (pat.map charLang).prod

section Languages

variable {L : Language ℕ} {s : List ℕ}

theorem mem_singleton_mul {c : ℕ} : s ∈ {[c]} * L ↔ ∃ t, s = c :: t ∧ t ∈ L := by
  constructor
  · rintro ⟨_, rfl, t, ht, rfl⟩
    exact ⟨t, rfl, ht⟩
  · rintro ⟨t, rfl, ht⟩
    exact ⟨[c], rfl, t, ht, rfl⟩

theorem mem_oneChar_mul : s ∈ oneChar * L ↔ ∃ c t, s = c :: t ∧ t ∈ L := by
  constructor
  · rintro ⟨u, hu, t, ht, rfl⟩
    obtain ⟨c, rfl⟩ := length_eq_one_iff.mp hu
    exact ⟨c, t, rfl, ht⟩
  · rintro ⟨c, t, rfl, ht⟩
    exact ⟨[c], rfl, t, ht, rfl⟩

theorem mem_top_mul : s ∈ ⊤ * L ↔ ∃ k ≤ s.length, s.drop k ∈ L := by
  constructor
  · rintro ⟨u, -, t, ht, rfl⟩
    exact ⟨u.length, by simp, by rwa [drop_left]⟩
  · rintro ⟨k, -, hk⟩
    exact ⟨s.take k, trivial, s.drop k, hk, take_append_drop k s⟩

theorem top_mul_top : (⊤ * ⊤ : Language ℕ) = ⊤ :=
  top_unique fun _ _ => mem_top_mul.mpr ⟨0, Nat.zero_le _, trivial⟩

theorem top_mul_oneChar : ⊤ * oneChar = oneChar * ⊤ := by
  ext s
  rw [mem_top_mul, mem_oneChar_mul]
  constructor
  · rintro ⟨k, -, hk⟩
    cases s with
    | nil =>
      rw [drop_nil] at hk
      cases hk
    | cons c t => exact ⟨c, t, rfl, trivial⟩
  · rintro ⟨c, t, rfl, -⟩
    refine ⟨t.length, Nat.le_succ _, ?_⟩
    show ((c :: t).drop t.length).length = 1
    simp

end Languages

/-! ## The compiled pattern -/

theorem patLang_reverse_cons (e : ℕ × PatType) (pat : List (ℕ × PatType)) :
    patLang (e :: pat).reverse = patLang pat.reverse * charLang e := by
  simp [patLang]

theorem like_cons_of_ne {escape r : ℕ} (h : r ≠ escape) (rs : List ℕ) :
    like escape (r :: rs) = unescaped r * like escape rs := by
  rw [like.eq_def]
  exact if_neg h

theorem patLang_compileRunes (escape : ℕ) (rs : List ℕ) (pat : List (ℕ × PatType)) :
    patLang (compileRunes escape rs pat) = patLang pat.reverse * like escape rs := by
  fun_induction compileRunes escape rs pat with
  | case1 pat => rw [like, mul_one]
  | case2 pat ih =>
    rw [ih, like, like, if_pos rfl, patLang_reverse_cons, mul_one]
    rfl
  | case3 pat c rs ih =>
    rw [ih, like, if_pos rfl, patLang_reverse_cons, mul_assoc]
    rfl
  | case4 rs c pat hne ih =>
    rw [ih, like_cons_of_ne hne, unescaped, if_pos rfl]
    simp only [patLang_reverse_cons, charLang, mul_assoc]
    rw [← mul_assoc ⊤, top_mul_oneChar, mul_assoc]
  | case5 rs pat hpat hne ih =>
    rw [ih, like_cons_of_ne hne, unescaped, if_pos rfl, patLang_reverse_cons, mul_assoc]
    rfl
  | case6 rs c pat hne hne' ih =>
    rw [ih, like_cons_of_ne hne, unescaped, if_neg hne', if_pos rfl]
    simp only [patLang_reverse_cons, charLang, mul_assoc]
    rw [← mul_assoc ⊤ ⊤, top_mul_top]
  | case7 rs pat hpat hne hne' ih =>
    rw [ih, like_cons_of_ne hne, unescaped, if_neg hne', if_pos rfl, patLang_reverse_cons, mul_assoc]
    rfl
  | case8 r rs pat h1 h2 h3 ih =>
    rw [ih, like_cons_of_ne h1, unescaped, if_neg h2, if_neg h3, patLang_reverse_cons, mul_assoc]
    rfl

/-! ## The loop -/

section Loop

variable {runes : List ℕ} {pat : List (ℕ × PatType)} {c c' : Cursor}

theorem drop_of_getElem? {α : Type} {l : List α} {i : ℕ} {a : α} (h : l[i]? = some a) :
    l.drop i = a :: l.drop (i + 1) := by
  obtain ⟨hi, rfl⟩ := List.getElem?_eq_some_iff.mp h
  exact drop_eq_getElem_cons hi

def Cursor.Here (runes : List ℕ) (pat : List (ℕ × PatType)) (c : Cursor) : Prop :=
  runes.drop c.rIdx ∈ patLang (pat.drop c.pIdx)

def Cursor.Later (runes : List ℕ) (pat : List (ℕ × PatType)) (c : Cursor) : Prop :=
  0 < c.nextRIdx ∧ ∃ k, c.nextRIdx ≤ k ∧ k ≤ runes.length ∧ runes.drop k ∈ patLang (pat.drop (c.nextPIdx + 1))

/-- Since the last `%` as many characters of the pattern as of the string have been read, none of them a
`%`. -/
def Cursor.Steady (pat : List (ℕ × PatType)) (c : Cursor) : Prop :=
  0 < c.nextRIdx → ∃ seg : List (ℕ × PatType), (∀ e ∈ seg, e.2 ≠ .patAny) ∧
    pat.drop (c.nextPIdx + 1) = seg ++ pat.drop c.pIdx ∧ c.nextRIdx + seg.length = c.rIdx + 1

/-- What the loop keeps: whether the string matches is decided by where the match stands, or by where it can
start again. -/
structure Cursor.Decides (runes : List ℕ) (pat : List (ℕ × PatType)) (c : Cursor) : Prop where
  valid : c.Valid runes pat
  iff : runes ∈ patLang pat ↔ c.Here runes pat ∨ c.Later runes pat
  steady : c.Fresh ∨ c.Steady pat

theorem cons_mem_charLang_mul {e : ℕ × PatType} (he : e.2 ≠ .patAny) {L : Language ℕ} {r : ℕ} {s : List ℕ} :
    r :: s ∈ charLang e * L ↔ [r] ∈ charLang e ∧ s ∈ L := by
  obtain ⟨x, _ | _ | _⟩ := e
  · refine mem_singleton_mul.trans ⟨?_, fun ⟨hr, hs⟩ => ⟨s, congrArg (· ++ s) (show [r] = [x] from hr), hs⟩⟩
    rintro ⟨t, ⟨⟩, ht⟩
    exact ⟨rfl, ht⟩
  · refine mem_oneChar_mul.trans ⟨?_, fun ⟨_, hs⟩ => ⟨r, s, rfl, hs⟩⟩
    rintro ⟨d, t, ⟨⟩, ht⟩
    exact ⟨rfl, ht⟩
  · exact absurd rfl he

theorem nil_notMem_charLang_mul {e : ℕ × PatType} (he : e.2 ≠ .patAny) {L : Language ℕ} : [] ∉ charLang e * L := by
  obtain ⟨x, _ | _ | _⟩ := e
  · exact fun h => by simp [charLang, mem_singleton_mul] at h
  · exact fun h => by simp [charLang, mem_oneChar_mul] at h
  · exact absurd rfl he

theorem drop_mem_of_segment {seg : List (ℕ × PatType)} (h : ∀ e ∈ seg, e.2 ≠ .patAny) {L : Language ℕ}
    {s : List ℕ} (hs : s ∈ patLang seg * L) : seg.length ≤ s.length ∧ s.drop seg.length ∈ L := by
  induction seg generalizing s with
  | nil => exact ⟨Nat.zero_le _, by rwa [patLang, map_nil, prod_nil, one_mul] at hs⟩
  | cons e seg ih =>
    have he := h e mem_cons_self
    rw [patLang, map_cons, prod_cons, mul_assoc] at hs
    cases s with
    | nil => exact absurd hs (nil_notMem_charLang_mul he)
    | cons r s =>
      obtain ⟨hlen, hdrop⟩ := ih (fun e he => h e (mem_cons_of_mem _ he)) ((cons_mem_charLang_mul he).mp hs).2
      exact ⟨Nat.succ_le_succ hlen, hdrop⟩

theorem drop_mem_any {pIdx rIdx x : ℕ} (hp : pat[pIdx]? = some (x, .patAny)) (hr : rIdx ≤ runes.length) :
    runes.drop rIdx ∈ patLang (pat.drop pIdx) ↔
      ∃ k, rIdx ≤ k ∧ k ≤ runes.length ∧ runes.drop k ∈ patLang (pat.drop (pIdx + 1)) := by
  rw [drop_of_getElem? hp]
  refine mem_top_mul.trans ⟨?_, ?_⟩
  · rintro ⟨j, hj, hmem⟩
    rw [length_drop] at hj
    rw [drop_drop] at hmem
    exact ⟨rIdx + j, Nat.le_add_right _ _, by omega, hmem⟩
  · rintro ⟨k, hle, hk, hmem⟩
    refine ⟨k - rIdx, by rw [length_drop]; omega, ?_⟩
    rwa [drop_drop, Nat.add_sub_cancel' hle]

theorem Cursor.Decides.next (h : c.Decides runes pat) (hvalid : c'.Valid runes pat) {e : ℕ × PatType}
    (hp : pat[c.pIdx]? = some e) (he : e.2 ≠ .patAny) {r : ℕ} (hr : runes[c.rIdx]? = some r)
    (hmatch : [r] ∈ charLang e) (hc' : c' = { c with pIdx := c.pIdx + 1, rIdx := c.rIdx + 1 }) :
    c'.Decides runes pat := by
  have hhere : c.Here runes pat ↔ c'.Here runes pat := by
    rw [Cursor.Here, drop_of_getElem? hp, drop_of_getElem? hr, hc']
    exact (cons_mem_charLang_mul he).trans (and_iff_right hmatch)
  refine ⟨hvalid, ?_, .inr fun hpos => ?_⟩
  · rw [h.iff, hhere, hc']
    rfl
  · subst hc'
    rcases h.steady with hfresh | hsteady
    · obtain ⟨q, hq⟩ := h.valid.any_of_fresh hfresh
      rw [hp, Option.some.injEq] at hq
      exact absurd (congrArg Prod.snd hq) he
    · obtain ⟨seg, hseg, hdrop, hlen⟩ := hsteady hpos
      refine ⟨seg ++ [e], ?_, ?_, by rw [length_append, length_singleton]; dsimp only; omega⟩
      · intro x hx
        rcases mem_append.mp hx with hx | hx
        · exact hseg x hx
        · rwa [mem_singleton.mp hx]
      · rw [append_assoc, hdrop, drop_of_getElem? hp]
        rfl

/-- At a `%` nothing is lost by forgetting the one before it: more characters for that one are more characters for this
one. -/
theorem Cursor.Decides.here_of_later (h : c.Decides runes pat) {x : ℕ} (hp : pat[c.pIdx]? = some (x, .patAny))
    (hlater : c.Later runes pat) : c.Here runes pat := by
  obtain ⟨hpos, k, hle, hk, hmem⟩ := hlater
  refine (drop_mem_any hp h.valid.rIdx_le).mpr ?_
  rcases h.steady with ⟨-, hr, hpIdx⟩ | hsteady
  · exact ⟨k, hr.trans_le hle, hk, by rwa [hpIdx]⟩
  · obtain ⟨seg, hseg, hdrop, hlen⟩ := hsteady hpos
    rw [hdrop, patLang, map_append, prod_append] at hmem
    obtain ⟨hlong, hrest⟩ := drop_mem_of_segment hseg hmem
    rw [length_drop] at hlong
    rw [drop_drop] at hrest
    obtain ⟨k', hle', hk', hmem'⟩ := (drop_mem_any hp (by omega)).mp hrest
    exact ⟨k', by omega, hk', hmem'⟩

theorem Cursor.Decides.advance (h : c.Decides runes pat) (hc : c.advance runes pat matchRune = some c') :
    c'.Decides runes pat := by
  have hvalid := (h.valid.advance hc).1
  unfold Cursor.advance at hc
  split at hc
  · rename_i p r hp hr
    by_cases hm : matchRune r p = true
    · rw [if_pos hm, Option.some.injEq] at hc
      exact h.next hvalid hp (by simp) hr (congrArg (fun x => [x]) (beq_iff_eq.mp hm)) hc.symm
    · rw [if_neg hm] at hc
      cases hc
  · rename_i p r hp hr
    rw [Option.some.injEq] at hc
    exact h.next hvalid hp (by simp) hr rfl hc.symm
  · rename_i p hp
    have hany := @drop_mem_any runes pat c.pIdx c.rIdx p hp h.valid.rIdx_le
    rw [Option.some.injEq] at hc
    subst hc
    refine ⟨hvalid, ?_, .inr fun _ => ⟨[], by simp, rfl, rfl⟩⟩
    rw [h.iff, or_iff_left_of_imp (h.here_of_later hp), Cursor.Here, hany]
    constructor
    · rintro ⟨k, hle, hk, hmem⟩
      rcases Nat.eq_or_lt_of_le hle with rfl | hlt
      · exact .inl hmem
      · exact .inr ⟨Nat.succ_pos _, k, hlt, hk, hmem⟩
    · rintro (hmem | ⟨-, k, hle, hk, hmem⟩)
      · exact ⟨c.rIdx, le_rfl, h.valid.rIdx_le, hmem⟩
      · exact ⟨k, Nat.le_of_succ_le hle, hk, hmem⟩
  · cases hc

theorem Cursor.not_here (hc : c.advance runes pat matchRune = none)
    (hmore : c.pIdx < pat.length ∨ c.rIdx < runes.length) : ¬ c.Here runes pat := by
  unfold Cursor.Here
  unfold Cursor.advance at hc
  cases hp : pat[c.pIdx]? with
  | none =>
    have hlen := getElem?_eq_none_iff.mp hp
    rw [drop_of_length_le hlen]
    intro hnil
    have := drop_eq_nil_iff.mp (show runes.drop c.rIdx = [] from hnil)
    omega
  | some e =>
    obtain ⟨p, tp⟩ := e
    rw [drop_of_getElem? hp]
    cases hr : runes[c.rIdx]? with
    | none =>
      rw [drop_of_length_le (getElem?_eq_none_iff.mp hr)]
      have htp : tp ≠ .patAny := by
        rintro rfl
        rw [hp] at hc
        cases hc
      exact nil_notMem_charLang_mul htp
    | some r =>
      rw [drop_of_getElem? hr]
      rw [hp, hr] at hc
      cases tp with
      | patMatch =>
        have hne : ¬ matchRune r p = true := fun hm => by simp [hm] at hc
        intro hmem
        have hr := ((cons_mem_charLang_mul (by simp)).mp hmem).1
        exact hne (beq_iff_eq.mpr (cons.inj hr).1)
      | _ => cases hc

theorem Cursor.Decides.goBack (h : c.Decides runes pat) (hc : c.advance runes pat matchRune = none)
    (hnot : ¬ c.Here runes pat) (hc' : c.restart runes = some c') : c'.Decides runes pat := by
  have hvalid := (h.valid.goBack hc hc').1
  unfold Cursor.restart at hc'
  by_cases hnext : 0 < c.nextRIdx ∧ c.nextRIdx ≤ runes.length
  · rw [if_pos hnext, Option.some.injEq] at hc'
    subst hc'
    obtain ⟨x, hx⟩ := h.valid.restart hnext.1
    refine ⟨hvalid, ?_, .inl ⟨hnext.1, rfl, rfl⟩⟩
    rw [h.iff, or_iff_right hnot, Cursor.Here, drop_mem_any hx hnext.2]
    exact ⟨fun hlater => .inr hlater, fun hor => hor.elim (fun hex => ⟨hnext.1, hex⟩) id⟩
  · rw [if_neg hnext] at hc'
    cases hc'

theorem Cursor.not_later (hc : c.restart runes = none) : ¬ c.Later runes pat := by
  rintro ⟨hpos, k, hle, hk, -⟩
  rw [Cursor.restart, if_pos ⟨hpos, hle.trans hk⟩] at hc
  cases hc

theorem doMatchLoop_iff (fuel : ℕ) : ∀ {c : Cursor} {b : Bool}, c.Decides runes pat →
    doMatchLoop runes pat matchRune fuel c = some b → (b = true ↔ runes ∈ patLang pat) := by
  induction fuel with
  | zero =>
    intro c b _ hrun
    cases hrun
  | succ fuel ih =>
    intro c b h hrun
    rw [doMatchLoop] at hrun
    split at hrun
    · rename_i hmore
      cases hadvance : c.advance runes pat matchRune with
      | some c' =>
        rw [hadvance] at hrun
        exact ih (h.advance hadvance) hrun
      | none =>
        have hnot := Cursor.not_here hadvance hmore
        rw [hadvance] at hrun
        cases hrestart : c.restart runes with
        | some c' =>
          rw [hrestart] at hrun
          exact ih (h.goBack hadvance hnot hrestart) hrun
        | none =>
          rw [hrestart] at hrun
          cases hrun
          rw [h.iff, or_iff_right hnot]
          exact ⟨(by cases ·), fun hlater => absurd hlater (Cursor.not_later hrestart)⟩
    · rename_i hdone
      rw [not_or, not_lt, not_lt] at hdone
      cases hrun
      rw [h.iff]
      refine ⟨fun _ => .inl ?_, fun _ => rfl⟩
      rw [Cursor.Here, drop_of_length_le hdone.1, drop_of_length_le hdone.2]
      exact rfl

end Loop

def compilePattern (pattern : List UInt8) (escape : UInt8) : List (ℕ × PatType) :=
  compilePatternInner pattern escape

def doMatch (str : List UInt8) (pat : List (ℕ × PatType)) : Option Bool := doMatchInner str pat matchRune

/-- `LIKE` is decided for every string, pattern and escape character, and the loop ends.  Characters are those of
`[]rune`, in which each byte that is no part of valid UTF-8 is U+FFFD. -/
theorem doMatch_compilePattern (str pattern : List UInt8) (escape : UInt8) :
    ∃ b, doMatch str (compilePattern pattern escape) = some b ∧
      (b = true ↔ Utf8.runes str ∈ like escape.toNat (Utf8.runes pattern)) := by
  obtain ⟨b, hb⟩ := exists_doMatchInner str (compilePattern pattern escape) matchRune
  refine ⟨b, hb, ?_⟩
  have hlang : patLang (compilePattern pattern escape) = like escape.toNat (Utf8.runes pattern) :=
    (patLang_compileRunes _ _ []).trans (one_mul _)
  rw [← hlang]
  refine doMatchLoop_iff _ ⟨⟨Nat.zero_le _, Nat.zero_le _, Nat.zero_le _, fun h => absurd h (Nat.lt_irrefl 0)⟩,
    ?_, .inr fun h => absurd h (Nat.lt_irrefl 0)⟩ hb
  exact (or_iff_left fun h => absurd h.1 (Nat.lt_irrefl 0)).symm

end StringUtil
