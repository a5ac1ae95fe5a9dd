import Tidb.Ttl.ScanQuery

/-!
# A scan task returns the expired rows of its range

A query reads the rows between two cuts of the table: behind the prefix on top of the stack, and not behind the prefix
that is one column shorter.  What has been returned before it is what is before the first cut.
-/

namespace Ttl

open SortedCut List ScanQueryGenerator

variable {D R : Type} [LinearOrder R]

/-! ## Prefixes -/

theorem length_prefixes (p : List D) : (prefixes p).length = p.length := by rw [prefixes, length_map, length_range]

theorem prefixes_concat (q : List D) (x : D) : prefixes (q ++ [x]) = prefixes q ++ [q ++ [x]] := by
  unfold prefixes
  rw [length_append, length_singleton, range_succ, map_append]
  refine congrArg₂ (· ++ ·) (map_congr_left fun i hi => ?_) ?_
  · exact take_append_of_le_length (mem_range.mp hi)
  · rw [map_singleton, take_of_length_le (by rw [length_append, length_singleton])]

theorem prefixes_dropLast (p : List D) : (prefixes p).dropLast = prefixes p.dropLast := by
  induction p using reverseRecOn with
  | nil => rfl
  | append_singleton q x => rw [prefixes_concat, dropLast_concat, dropLast_concat]

theorem prefixes_isEmpty (p : List D) : (prefixes p).isEmpty = p.isEmpty := by
  induction p using reverseRecOn with
  | nil => rfl
  | append_singleton q x =>
    rw [prefixes_concat]
    cases prefixes q <;> cases q <;> rfl

/-! ## Conditions -/

section Conditions

variable {rank : ℕ → D → R} {key : List D}

omit [LinearOrder R] in
theorem length_ranks (rank : ℕ → D → R) (key : List D) : (ranks rank key).length = key.length := length_mapIdx

omit [LinearOrder R] in
theorem ranks_concat (q : List D) (x : D) : ranks rank (q ++ [x]) = ranks rank q ++ [rank q.length x] := by
  rw [ranks, mapIdx_append, mapIdx_singleton, Nat.zero_add]
  rfl

theorem holds_single {op : Op} {i : ℕ} {d : D} {y : R} (hy : (ranks rank key)[i]? = some y) :
    Cond.holds rank key ⟨i, op, [d]⟩ = op.holds [y] [rank i d] := by
  obtain ⟨hlt, hget⟩ := List.getElem?_eq_some_iff.mp hy
  show op.holds (((ranks rank key).drop i).take 1) [rank (i + 0) d] = _
  rw [drop_eq_getElem_cons hlt, take_succ_cons, take_zero, hget, Nat.add_zero]

theorem all_eq_iff (q : List D) (hq : q.length ≤ key.length) :
    (q.zipIdx.map fun d => (⟨d.2, .eq, [d.1]⟩ : Cond D)).all (Cond.holds rank key) =
      decide ((ranks rank key).take q.length = ranks rank q) := by
  induction q using reverseRecOn with
  | nil => exact (decide_eq_true rfl).symm
  | append_singleton q x ih =>
    rw [length_append] at hq
    have hlt : q.length < (ranks rank key).length := by
      rw [length_ranks]
      exact hq
    have hy := getElem?_eq_getElem hlt
    rw [zipIdx_append, map_append, all_append, ih (by omega), ranks_concat, length_append,
      length_singleton, take_succ_eq_append_getElem hlt, Nat.zero_add]
    show (decide _ && (Cond.holds rank key ⟨q.length, .eq, [x]⟩ && true)) = _
    rw [holds_single hy, Bool.and_true]
    show (decide _ && decide ([_] = [_])) = _
    rw [← Bool.decide_and]
    refine decide_eq_decide.mpr ?_
    rw [append_singleton_inj]
    simp

/-- The cut of a prefix: at the start key the rows from it on, later the rows behind it. -/
def behind (rank : ℕ → D → R) (first : Bool) (p key : List D) : Bool :=
  if first then atLeast (ranks rank p) (ranks rank key) else after (ranks rank p) (ranks rank key)

theorem behind_upClosed (first : Bool) (p : List D) : UpClosed (ranks rank) (behind rank first p) := by
  intro a b hab ha
  cases first with
  | true => exact atLeast_mono hab ha
  | false => exact after_mono hab ha

theorem behind_nil (key : List D) : behind rank true [] key = true ∧ behind rank false [] key = false := by
  refine ⟨?_, after_nil (ranks rank key)⟩
  show atLeast [] (ranks rank key) = true
  exact decide_eq_true (nil_le _)

theorem behind_concat (first : Bool) {q : List D} {x : D} {y : R} (hy : (ranks rank key)[q.length]? = some y) : behind
    rank first (q ++ [x]) key = true ↔ behind rank false q key = true ∨ (ranks rank key).take q.length = ranks rank q ∧
    (if first then Op.ge else Op.gt).holds [y] [rank q.length x] = true := by
  rw [← length_ranks rank q] at hy
  have hge : Op.ge.holds [y] [rank q.length x] = true ↔ rank q.length x ≤ y := by
    simp [Op.holds, cons_lt_cons, le_iff_lt_or_eq]
  have hgt : Op.gt.holds [y] [rank q.length x] = true ↔ rank q.length x < y := by simp [Op.holds, cons_lt_cons]
  cases first with
  | true =>
    show atLeast (ranks rank (q ++ [x])) _ = true ↔ _ ∨ _ ∧ Op.ge.holds _ _ = true
    rw [hge, ranks_concat, atLeast_concat hy, length_ranks]
    rfl
  | false =>
    show after (ranks rank (q ++ [x])) _ = true ↔ _ ∨ _ ∧ Op.gt.holds _ _ = true
    rw [hgt, ranks_concat, after_concat hy, length_ranks]
    rfl

theorem behind_of_dropLast (first : Bool) {p : List D} (hp : p.length ≤ key.length)
    (h : behind rank false p.dropLast key = true) : behind rank first p key = true := by
  induction p using reverseRecOn with
  | nil => rw [dropLast_nil] at h; cases h
  | append_singleton q x =>
    rw [length_append] at hp
    have hlt : q.length < (ranks rank key).length := by
      rw [length_ranks]
      exact hp
    rw [dropLast_concat] at h
    rw [behind_concat first (getElem?_eq_getElem hlt)]
    exact .inl h

theorem stackConds_iff (g : ScanQueryGenerator D) {p : List D} (hg : g.stack = prefixes p)
    (hp : p.length ≤ key.length) (hfirst : p = [] → g.firstBuild = true) : g.stackConds.all (Cond.holds rank key) =
      (behind rank g.firstBuild p key && !behind rank false p.dropLast key) := by
  unfold stackConds
  rw [hg]
  induction p using reverseRecOn with
  | nil => rw [hfirst rfl, dropLast_nil]; rfl
  | append_singleton q x =>
    rw [length_append] at hp
    have hlt : q.length < (ranks rank key).length := by
      rw [length_ranks]
      exact hp
    have hy := getElem?_eq_getElem hlt
    have hlen : g.stack.length - 1 = q.length := by
      rw [hg, length_prefixes, length_append]
      rfl
    have hfront : q.zipIdx.map (fun d => g.stackCond d.1 d.2) = q.zipIdx.map fun d => ⟨d.2, .eq, [d.1]⟩ := by
      apply map_congr_left
      intro d hd
      have hd : d.2 < q.length := by simpa using snd_lt_of_mem_zipIdx hd
      rw [stackCond, hlen, if_pos hd]
    have hback : g.stackCond x q.length = ⟨q.length, if g.firstBuild then .ge else .gt, [x]⟩ := by
      rw [stackCond, hlen, if_neg (lt_irrefl _)]
      cases g.firstBuild <;> rfl
    rw [prefixes_concat, getLast?_concat]
    show ((q ++ [x]).zipIdx.map fun d => g.stackCond d.1 d.2).all _ = _
    rw [zipIdx_append, map_append, hfront, all_append, all_eq_iff q (by omega), Nat.zero_add]
    show (_ && (Cond.holds rank key (g.stackCond x q.length) && true)) = _
    rw [hback, holds_single hy, Bool.and_true, dropLast_concat, Bool.eq_iff_iff, Bool.and_eq_true, Bool.and_eq_true,
      behind_concat g.firstBuild hy, decide_eq_true_eq, Bool.not_eq_true']
    constructor
    · intro h
      refine ⟨.inr h, after_of_take_eq ?_⟩
      rw [length_ranks]
      exact h.1
    · rintro ⟨h | h, hnot⟩
      · rw [hnot] at h; cases h
      · exact h

end Conditions

/-! ## Queries -/

def fromStart (rank : ℕ → D → R) (start : Option (List D)) (key : List D) : Bool :=
  match start with
  | none => true
  | some start => decide (ranks rank start ≤ (ranks rank key).take start.length)

def beforeEnd (rank : ℕ → D → R) (stop key : List D) : Bool :=
  stop.isEmpty || decide ((ranks rank key).take stop.length < ranks rank stop)

def expiredRows (rank : ℕ → D → R) (expired : List D → Bool) (start : Option (List D)) (stop : List D)
    (rows : List (List D)) : List (List D) :=
  rows.filter fun key => (fromStart rank start key && beforeEnd rank stop key) && expired key

/-- The rows have keys of as many columns, in key order, and only rows that have been returned disappear. -/
structure Answers (rank : ℕ → D → R) (keyColumns : ℕ) (rows : List (List D))
    (table : ℕ → List (List D) → List (List D)) : Prop where
  keyed : ∀ key ∈ rows, key.length = keyColumns
  ascending : Ascending (ranks rank) rows
  sublist : ∀ n returned, (table n returned).Sublist rows
  kept : ∀ n returned, ∀ key ∈ rows, key ∉ returned → key ∈ table n returned

section Scan

variable {rank : ℕ → D → R} {expired : List D → Bool} {keyColumns : ℕ} {rows : List (List D)}
  {table : ℕ → List (List D) → List (List D)} {start : Option (List D)} {stop : List D}

theorem endConds_iff (g : ScanQueryGenerator D) (key : List D) :
    g.endConds.all (Cond.holds rank key) = beforeEnd rank g.keyRangeEnd key := by
  unfold endConds beforeEnd
  cases hstop : g.keyRangeEnd with
  | nil => rfl
  | cons d stop =>
    show (Op.holds .lt (((ranks rank key).drop 0).take (d :: stop).length)
      ((d :: stop).mapIdx fun i d => rank (0 + i) d) && true) = _
    have hranks : ((d :: stop).mapIdx fun i d => rank (0 + i) d) = ranks rank (d :: stop) := by
      simp only [Nat.zero_add]
      rfl
    rw [hranks, Bool.and_true]
    rfl

/-- What a generator asks for when it continues behind a prefix. -/
structure Asks (rank : ℕ → D → R) (keyColumns : ℕ) (start : Option (List D)) (stop : List D)
    (g : ScanQueryGenerator D) (p : List D) : Prop where
  columns : g.keyColumns = keyColumns
  rangeStart : g.keyRangeStart = start
  rangeEnd : g.keyRangeEnd = stop
  stack : g.stack = prefixes p
  limit : 0 < g.limit
  exhausted : g.exhausted = false
  short : p.length ≤ keyColumns
  first : p = [] → g.firstBuild = true
  inRange : ∀ key, key.length = keyColumns → behind rank g.firstBuild p key = true → fromStart rank start key = true

/-- The rows of the range behind a prefix, but not behind the prefix that is one column shorter. -/
def level (rank : ℕ → D → R) (first : Bool) (p : List D) (rows : List (List D)) : List (List D) :=
  rows.filter fun key => behind rank first p key && !behind rank false p.dropLast key

def before (rank : ℕ → D → R) (first : Bool) (p : List D) (rows : List (List D)) : List (List D) :=
  rows.filter fun key => !behind rank first p key

theorem Asks.answer {g : ScanQueryGenerator D} {p : List D} (h : Asks rank keyColumns start stop g p)
    (henv : Answers rank keyColumns rows table) (n : ℕ) :
    Query.answer rank expired (table n (before rank g.firstBuild p (expiredRows rank expired start stop rows)))
        ⟨g.stackConds ++ g.endConds, g.limit⟩ =
      (level rank g.firstBuild p (expiredRows rank expired start stop rows)).take g.limit.toNat := by
  refine congrArg (take g.limit.toNat) ?_
  have hconds : ∀ key ∈ rows, ((g.stackConds ++ g.endConds).all (Cond.holds rank key) && expired key) = (((behind rank
      g.firstBuild p key && !behind rank false p.dropLast key) && beforeEnd rank stop key) && expired key) := by
    intro key hkey
    have hlen : p.length ≤ key.length := (henv.keyed key hkey).symm ▸ h.short
    rw [all_append, stackConds_iff g h.stack hlen h.first, endConds_iff, h.rangeEnd]
  -- the rows behind the prefix have not been returned, the table still has them
  rw [filter_eq_of_sublist henv.ascending.nodup (henv.sublist n _), level, expiredRows, filter_filter]
  · apply filter_congr
    intro key hkey
    rw [hconds key hkey]
    cases hb : behind rank g.firstBuild p key with
    | false => simp
    | true =>
      rw [h.inRange key (henv.keyed key hkey) hb]
      simp [Bool.and_assoc]
  · intro key hkey hsel
    rw [hconds key hkey] at hsel
    apply henv.kept n _ key hkey
    intro hreturned
    have hnot := (mem_filter.mp hreturned).2
    simp only [Bool.and_eq_true] at hsel
    rw [hsel.1.1.1] at hnot
    cases hnot

theorem expiredRows_ascending (henv : Answers rank keyColumns rows table) :
    Ascending (ranks rank) (expiredRows rank expired start stop rows) := henv.ascending.filter _

theorem before_level {first : Bool} {p : List D} {T : List (List D)} (hT : Ascending (ranks rank) T)
    (hlen : ∀ key ∈ T, p.length ≤ key.length) :
    before rank first p T ++ level rank first p T = before rank false p.dropLast T :=
  (filter_between hT (behind_upClosed first p) fun key hkey => behind_of_dropLast first (hlen key hkey)).symm

theorem before_take_level {first : Bool} {p v : List D} {T : List (List D)} {limit : ℕ} (hT : Ascending (ranks rank) T)
    (hlen : ∀ key ∈ T, key.length = v.length) (hlast : ((level rank first p T).take limit).getLast? = some v) :
    before rank first p T ++ (level rank first p T).take limit = before rank false v T := by
  have hv := mem_of_mem_take (mem_of_getLast? hlast)
  have hv' := (mem_filter.mp hv).2
  simp only [Bool.and_eq_true, Bool.not_eq_true'] at hv'
  have hafter : ∀ key ∈ T, behind rank false v key = true ↔ ranks rank v < ranks rank key := by
    intro key hkey
    apply after_iff
    rw [length_ranks, length_ranks]
    exact hlen key hkey
  have hbetween := filter_between (V := behind rank false v) hT (behind_upClosed first p) fun key hkey h =>
    behind_upClosed first p v key ((hafter key hkey).mp h).le hv'.1
  rw [before, before, hbetween, take_eq_filter (l := level rank first p T) (hT.filter _) hlast]
  refine congrArg₂ (· ++ ·) rfl ?_
  rw [level, filter_filter]
  apply filter_congr
  intro key hkey
  rw [Bool.eq_iff_iff]
  simp only [Bool.and_eq_true, Bool.not_eq_true', decide_eq_true_eq]
  -- a key up to the last one is not behind the shorter prefix, as the last one is not
  have hshort : ranks rank key ≤ ranks rank v → behind rank false p.dropLast key = false := by
    intro hle
    rw [Bool.eq_false_iff]
    intro hkey
    have hcontra := behind_upClosed false p.dropLast key v hle hkey
    rw [hv'.2] at hcontra
    cases hcontra
  have hnot : behind rank false v key = false ↔ ranks rank key ≤ ranks rank v := by
    rw [← not_lt, ← hafter key hkey, Bool.not_eq_true]
  tauto

def work (rank : ℕ → D → R) (keyColumns : ℕ) (first : Bool) (p : List D) (T : List (List D)) : ℕ :=
  (T.length - (before rank first p T).length) * (keyColumns + 1) + p.length

theorem length_before_le (rank : ℕ → D → R) (first : Bool) (p : List D) (T : List (List D)) :
    (before rank first p T).length ≤ T.length := length_filter_le _ _

theorem work_lt {first first' : Bool} {p p' : List D} {T : List (List D)}
    (hle : (before rank first p T).length ≤ (before rank first' p' T).length)
    (hlt : (before rank first p T).length < (before rank first' p' T).length ∧ p'.length ≤ keyColumns ∨
      p'.length < p.length) : work rank keyColumns first' p' T < work rank keyColumns first p T := by
  have hbound := length_before_le rank first' p' T
  unfold work
  rcases hlt with ⟨hlt, hp'⟩ | hp'
  · have hrows : T.length - (before rank first' p' T).length + 1 ≤ T.length - (before rank first p T).length := by omega
    have hmul := Nat.mul_le_mul_right (keyColumns + 1) hrows
    rw [Nat.add_mul] at hmul
    omega
  · have hrows : T.length - (before rank first' p' T).length ≤ T.length - (before rank first p T).length := by omega
    have hmul := Nat.mul_le_mul_right (keyColumns + 1) hrows
    omega

section Next

variable {g : ScanQueryGenerator D} {p : List D} {T : List (List D)} {limit : ℤ}

theorem Asks.next_full (h : Asks rank keyColumns start stop g p) (hT : Ascending (ranks rank) T)
    (hkey : ∀ key ∈ T, key.length = keyColumns ∧ fromStart rank start key = true) (hcolumns : 0 < keyColumns)
    (hlimit : 0 < limit) (hfull : g.limit ≤ ((level rank g.firstBuild p T).take g.limit.toNat).length) :
    ∃ g' v, Asks rank keyColumns start stop g' v ∧ { g with firstBuild := false }.nextSQL ((level rank g.firstBuild p
      T).take g.limit.toNat) limit = .ok (some ⟨g'.stackConds ++ g'.endConds, g'.limit⟩, { g' with firstBuild := false
      }) ∧ before rank g.firstBuild p T ++ (level rank g.firstBuild p T).take g.limit.toNat = before rank g'.firstBuild
      v T ∧ work rank keyColumns g'.firstBuild v T < work rank keyColumns g.firstBuild p T := by
  have hpos := h.limit
  obtain ⟨v, hlast⟩ : ∃ v, ((level rank g.firstBuild p T).take g.limit.toNat).getLast? = some v := by
    apply Option.ne_none_iff_exists'.mp
    rw [Ne, getLast?_eq_none_iff]
    intro hnil
    rw [hnil, length_nil] at hfull
    omega
  have hvT : v ∈ T := mem_of_mem_filter (mem_of_mem_take (mem_of_getLast? hlast))
  obtain ⟨hvlen, hvstart⟩ := hkey v hvT
  have hbefore := before_take_level hT (fun key hk => (hkey key hk).1.trans hvlen.symm) hlast
  refine ⟨{ g with stack := prefixes v, limit := limit, firstBuild := false }, v, ?_, ?_, hbefore, ?_⟩
  · refine ⟨h.columns, h.rangeStart, h.rangeEnd, rfl, hlimit, h.exhausted, hvlen.le, ?_, ?_⟩
    · rintro rfl
      exact absurd hvlen.symm hcolumns.ne'
    · -- a key behind the last one is behind the start, as the last one is
      intro key hklen hbehind
      have hlt : ranks rank v < ranks rank key := by
        rw [← after_iff (by rw [length_ranks, length_ranks, hklen, hvlen])]
        exact hbehind
      cases start with
      | none => rfl
      | some start => exact decide_eq_true ((of_decide_eq_true hvstart).trans (take_le_take _ hlt.le))
  · have hvalid : validateKeyPrefix g.keyColumns v = .ok () := by rw [validateKeyPrefix, h.columns, if_neg (by omega)]
    rw [nextSQL, if_neg (by rw [h.exhausted]; exact Bool.false_ne_true), if_neg (by omega),
      advance, if_pos hfull, hlast, setStack, Option.some_or]
    dsimp only
    rw [hvalid]
    dsimp only
    rw [buildSQL, if_neg (by show ¬ limit ≤ 0; omega),
      if_neg (by show ¬ g.exhausted = true; rw [h.exhausted]; exact Bool.false_ne_true)]
  · have hlen := congrArg length hbefore
    rw [length_append] at hlen
    apply work_lt
    · show _ ≤ (before rank false v T).length
      omega
    · refine .inl ⟨?_, hvlen.le⟩
      show _ < (before rank false v T).length
      omega

theorem Asks.next_short (h : Asks rank keyColumns start stop g p) (hT : Ascending (ranks rank) T)
    (hkey : ∀ key ∈ T, key.length = keyColumns) (hlimit : 0 < limit)
    (hshort : ¬ g.limit ≤ ((level rank g.firstBuild p T).take g.limit.toNat).length) :
    before rank g.firstBuild p T ++ (level rank g.firstBuild p T).take g.limit.toNat = before rank false p.dropLast T ∧
      { g with firstBuild := false }.nextSQL ((level rank g.firstBuild p T).take g.limit.toNat) limit =
        let g' := { g with stack := prefixes p.dropLast, limit := limit, firstBuild := false }
        if p.dropLast = [] then .ok (none, { g' with exhausted := true })
        else .ok (some ⟨g'.stackConds ++ g'.endConds, g'.limit⟩, g') := by
  have hall : (level rank g.firstBuild p T).take g.limit.toNat = level rank g.firstBuild p T := by
    rw [length_take] at hshort
    rw [take_of_length_le]
    omega
  refine ⟨?_, ?_⟩
  · rw [hall]
    exact before_level hT fun key hk => (hkey key hk).symm ▸ h.short
  · rw [nextSQL, if_neg (by rw [h.exhausted]; exact Bool.false_ne_true), if_neg (by omega), advance, if_neg hshort]
    dsimp only
    rw [h.stack, prefixes_dropLast, prefixes_isEmpty, buildSQL, if_neg (by show ¬ limit ≤ 0; omega)]
    cases hp : p.dropLast with
    | nil => rfl
    | cons d q =>
      have hstill : (d :: q).isEmpty = g.exhausted := h.exhausted.symm
      rw [hstill, if_neg (by show ¬ g.exhausted = true; rw [h.exhausted]; exact Bool.false_ne_true),
        if_neg (cons_ne_nil d q)]

end Next

theorem mem_expiredRows (henv : Answers rank keyColumns rows table) {key : List D}
    (hkey : key ∈ expiredRows rank expired start stop rows) :
    key.length = keyColumns ∧ fromStart rank start key = true := by
  obtain ⟨hmem, hsel⟩ := mem_filter.mp hkey
  simp only [Bool.and_eq_true] at hsel
  exact ⟨henv.keyed key hmem, hsel.1.1⟩

variable {limits : ℕ → ℤ}

/-- From a query on, the scan reads what is not before it.  The induction is on the steps that are left. -/
theorem doScan_asks (henv : Answers rank keyColumns rows table) (hcolumns : 0 < keyColumns)
    (hlimits : ∀ n, 0 < limits n) (fuel : ℕ) :
    ∀ (n : ℕ) (g : ScanQueryGenerator D) (p : List D), Asks rank keyColumns start stop g p →
      work rank keyColumns g.firstBuild p (expiredRows rank expired start stop rows) < fuel →
      ∀ last, last = (level rank g.firstBuild p (expiredRows rank expired start stop rows)).take g.limit.toNat →
      doScan rank expired table limits fuel n { g with firstBuild := false } last
        (before rank g.firstBuild p (expiredRows rank expired start stop rows) ++ last) =
          some (.ok (expiredRows rank expired start stop rows)) := by
  have hT : Ascending (ranks rank) (expiredRows rank expired start stop rows) := expiredRows_ascending henv
  induction fuel with
  | zero => intro n g p _ hwork; omega
  | succ fuel ih =>
    rintro n g p h hwork last rfl
    by_cases hfull : g.limit ≤ ((level rank g.firstBuild p (expiredRows rank expired start stop rows)).take
        g.limit.toNat).length
    · obtain ⟨g', v, h', hnext, hreturned, hless⟩ :=
        h.next_full hT (fun key hk => mem_expiredRows henv hk) hcolumns (hlimits n) hfull
      rw [doScan, hnext, hreturned]
      exact ih (n + 1) g' v h' (by omega) _ (h'.answer henv n)
    · obtain ⟨hreturned, hnext⟩ := h.next_short hT (fun key hk => (mem_expiredRows henv hk).1) (hlimits n) hfull
      rw [doScan, hnext, hreturned]
      by_cases hp : p.dropLast = []
      · rw [if_pos hp, hp]
        rw [before, filter_eq_self.mpr fun key _ => by rw [(behind_nil key).2]; rfl]
      · rw [if_neg hp]
        have h' : Asks rank keyColumns start stop
            { g with stack := prefixes p.dropLast, limit := limits n, firstBuild := false } p.dropLast := by
          refine ⟨h.columns, h.rangeStart, h.rangeEnd, rfl, hlimits n, h.exhausted, ?_, fun hnil => absurd hnil hp, ?_⟩
          · rw [length_dropLast]
            exact (Nat.sub_le _ _).trans h.short
          · intro key hlen hbehind
            exact h.inRange key hlen (behind_of_dropLast g.firstBuild (hlen.symm ▸ h.short) hbehind)
        refine ih (n + 1) _ p.dropLast h' (lt_of_lt_of_le (work_lt ?_ ?_) (Nat.le_of_lt_succ hwork)) _
          (h'.answer henv n)
        · have hlen := congrArg length hreturned
          rw [length_append] at hlen
          show _ ≤ (before rank false p.dropLast _).length
          omega
        · right
          rw [length_dropLast]
          have hne : p ≠ [] := fun hnil => hp (by rw [hnil]; rfl)
          have hpos := length_pos_iff.mpr hne
          omega

theorem fromStart_eq (key : List D) : fromStart rank start key = behind rank true (start.getD []) key := by
  cases start with
  | none => exact (behind_nil key).1.symm
  | some start =>
    show decide (_ ≤ (ranks rank key).take start.length) = atLeast (ranks rank start) (ranks rank key)
    rw [atLeast, length_ranks]

theorem asks_first {limit : ℤ} (hlimit : 0 < limit) (hstart : (start.getD []).length ≤ keyColumns) :
    Asks rank keyColumns start stop ⟨keyColumns, start, stop, prefixes (start.getD []), limit, true, false⟩
      (start.getD []) := by
  refine ⟨rfl, rfl, rfl, rfl, hlimit, rfl, hstart, fun _ => rfl, fun key _ hbehind => ?_⟩
  rw [fromStart_eq]
  exact hbehind

omit [LinearOrder R] in
theorem nextSQL_first {limit : ℤ} (hlimit : 0 < limit) (hstart : (start.getD []).length ≤ keyColumns) :
    (⟨keyColumns, start, stop, [], 0, true, false⟩ : ScanQueryGenerator D).nextSQL [] limit =
      let g : ScanQueryGenerator D := ⟨keyColumns, start, stop, prefixes (start.getD []), limit, true, false⟩
      .ok (some ⟨g.stackConds ++ g.endConds, g.limit⟩, { g with firstBuild := false }) := by
  have hset : (⟨keyColumns, start, stop, [], 0, true, false⟩ : ScanQueryGenerator D).setStack none =
      .ok ⟨keyColumns, start, stop, prefixes (start.getD []), 0, true, false⟩ := by
    cases start with
    | none => rfl
    | some start =>
      have hvalid : validateKeyPrefix keyColumns start = .ok () := if_neg (not_lt.mpr hstart)
      rw [setStack]
      dsimp only [Option.none_or]
      rw [hvalid]
      rfl
  rw [nextSQL, if_neg Bool.false_ne_true, if_neg (by omega), advance,
    if_pos (by exact le_refl _), getLast?_nil, hset]
  dsimp only
  rw [buildSQL, if_neg (by show ¬ limit ≤ 0; omega), if_neg Bool.false_ne_true]

theorem before_first (rows : List (List D)) :
    before rank true (start.getD []) (expiredRows rank expired start stop rows) = [] := by
  rw [before, filter_eq_nil_iff]
  intro key hkey
  have hsel := (mem_filter.mp hkey).2
  simp only [Bool.and_eq_true] at hsel
  rw [← fromStart_eq, hsel.1.1]
  exact Bool.false_ne_true

/-- The queries of a scan task end, and return the expired rows of the range, each once and in key order. -/
theorem doScan_returns_expired (henv : Answers rank keyColumns rows table) (hcolumns : 0 < keyColumns)
    (hlimits : ∀ n, 0 < limits n) (hstart : (start.getD []).length ≤ keyColumns) (hstop : stop.length ≤ keyColumns) :
    ∃ g, newScanQueryGenerator keyColumns start stop = .ok g ∧
      (∃ enough, ∀ fuel ≥ enough,
        doScan rank expired table limits fuel 0 g [] [] = some (.ok (expiredRows rank expired start stop rows))) ∧
      (expiredRows rank expired start stop rows).Pairwise fun a b => ranks rank a < ranks rank b := by
  have hnew : newScanQueryGenerator keyColumns start stop = .ok ⟨keyColumns, start, stop, [], 0, true, false⟩ := by
    rw [newScanQueryGenerator, validateKeyPrefix, if_neg (by omega), validateKeyPrefix, if_neg (by omega)]
    rfl
  refine ⟨_, hnew, ⟨work rank keyColumns true (start.getD []) (expiredRows rank expired start stop rows) + 2,
    fun fuel hfuel => ?_⟩, expiredRows_ascending henv⟩
  obtain ⟨fuel, rfl⟩ : ∃ m, fuel = m + 1 := ⟨fuel - 1, by omega⟩
  have hasks : Asks rank keyColumns start stop ⟨keyColumns, start, stop, prefixes (start.getD []), limits 0,
    true, false⟩
      (start.getD []) := asks_first (hlimits 0) hstart
  have hnone : before rank true (start.getD []) (expiredRows rank expired start stop rows) = [] := before_first rows
  have hfuel : work rank keyColumns true (start.getD []) (expiredRows rank expired start stop rows) < fuel := by omega
  have hrun := doScan_asks henv hcolumns hlimits fuel 1 _ _ hasks hfuel _ (hasks.answer henv 0)
  rw [hnone] at hrun
  rw [doScan, nextSQL_first (hlimits 0) hstart]
  exact hrun

end Scan

/-- Keys of two columns from `(1)` on and before `(2, 2)`, two and three rows at a time. -/
theorem doScan_returns_expired_pairs :
    let table := fun (_ : _) (_ : _) => [[0, 1], [1, 1], [1, 2], [1, 3], [2, 1], [2, 2]]
    ∃ g, newScanQueryGenerator 2 (some [1]) [2, 2] = .ok g ∧
      (∃ enough, ∀ fuel ≥ enough, doScan (fun _ d => d) (fun key => key ≠ [1, 2]) table (fun n => n % 2 + 2) fuel 0 g
        [] [] = some (.ok [[1, 1], [1, 3], [2, 1]])) ∧
      [[1, 1], [1, 3], [2, 1]].Pairwise fun a b : List ℕ => ranks (fun _ d => d) a < ranks (fun _ d => d) b := by
  have henv : Answers (fun _ (d : ℕ) => d) 2 [[0, 1], [1, 1], [1, 2], [1, 3], [2, 1], [2, 2]]
      (fun _ _ => [[0, 1], [1, 1], [1, 2], [1, 3], [2, 1], [2, 2]]) := by
    refine ⟨by decide, by unfold Ascending; decide, fun _ _ => List.Sublist.refl _, fun _ _ key hkey _ => hkey⟩
  exact doScan_returns_expired henv (by decide) (fun n => by omega) (by decide) (by decide)

end Ttl
