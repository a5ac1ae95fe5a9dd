import Tidb.Br.Rtree

/-!
# The gaps of a backup

The stored ranges never overlap, and the incomplete ranges of a request are the keys of the request that no stored
range has.
-/

universe u v

namespace Br

open KeyRange BTree List Range

variable {K : Type u} {File : Type v} [LinearOrder K] [OrderBot K]

theorem Range.contains_iff {rg : Range K File} {key : K} : rg.contains key = true ↔ rg.toKeyRange.Contains key := by
  unfold contains KeyRange.Contains
  rw [decide_eq_true_iff, or_comm]

namespace RangeTree

variable {lib : RangeLib K File} {rangeTree : RangeTree lib} {rg : Range K File}

abbrev Disjoint (rangeTree : RangeTree lib) : Prop := @NonOverlapping _ _ _ _ Range.toKeyRange lib rangeTree

/-! ## Looking for a range -/

theorem find_eq_some (h : rangeTree.Disjoint) {key : K} :
    rangeTree.find key = some rg ↔ rg ∈ rangeTree.items ∧ rg.toKeyRange.Contains key := by
  unfold find
  constructor
  · intro hfind
    cases hlast : rangeTree.lastLessOrEqual key with
    | none =>
      rw [hlast] at hfind
      cases hfind
    | some ret =>
      rw [hlast] at hfind
      rw [Option.ite_none_right_eq_some, Option.some.injEq] at hfind
      obtain ⟨hcontains, rfl⟩ := hfind
      exact ⟨(lastLessOrEqual_eq_some hlast).1, contains_iff.mp hcontains⟩
  · rintro ⟨hmem, hcontains⟩
    rw [h.lastLessOrEqual_of_contains hmem hcontains]
    exact if_pos (contains_iff.mpr hcontains)

theorem pivot_le (h : rangeTree.Disjoint) (key : K) : rangeTree.pivot key ≤ key := by
  unfold pivot
  cases hfind : rangeTree.find key with
  | some first => exact ((find_eq_some h).mp hfind).2.1
  | none => exact le_refl key

theorem pivot_le_of_contains (h : rangeTree.Disjoint) {key k : K} (hrg : rg ∈ rangeTree.items)
    (hk : rg.toKeyRange.Contains k) (hle : key ≤ k) : rangeTree.pivot key ≤ rg.startKey := by
  by_contra hlt
  have hkey := hk.of_le ((not_le.mp hlt).le.trans (pivot_le h key)) hle
  unfold pivot at hlt
  rw [(find_eq_some h).mpr ⟨hrg, hkey⟩] at hlt
  exact hlt (le_refl _)

theorem start_of_pivot_le (h : rangeTree.Disjoint) {key : K} (hrg : rg ∈ rangeTree.items)
    (hle : rangeTree.pivot key ≤ rg.startKey) : key ≤ rg.startKey ∨ rg.toKeyRange.Contains key := by
  unfold pivot at hle
  cases hfind : rangeTree.find key with
  | none =>
    rw [hfind] at hle
    exact .inl hle
  | some first =>
    rw [hfind] at hle
    obtain ⟨hfirst, hkey⟩ := (find_eq_some h).mp hfind
    rcases hle.lt_or_eq with hlt | heq
    · have hbefore := h.before hfirst hrg hlt
      exact .inl ((hkey.2.resolve_right hbefore.1).le.trans hbefore.2)
    · rw [← eq_of_key_eq hfirst hrg heq]
      exact .inr hkey

/-! ## Putting a range in -/

theorem mem_getOverlaps (h : rangeTree.Disjoint) (hrg : rg.NonEmpty) {item : Range K File} :
    item ∈ rangeTree.getOverlaps rg ↔ item ∈ rangeTree.items ∧ item.toKeyRange.Overlaps rg.toKeyRange := by
  have hfound : ((rangeTree.find rg.startKey).getD rg).startKey = rangeTree.pivot rg.startKey := by
    unfold pivot
    cases rangeTree.find rg.startKey <;> rfl
  unfold getOverlaps
  dsimp only
  rw [hfound, takeWhile_eq_filter, mem_filter, mem_ascendGreaterOrEqual]
  · simp only [Bool.not_eq_true', decide_eq_false_iff_not, not_and, not_le]
    constructor
    · rintro ⟨⟨hmem, hpivot⟩, hend⟩
      refine ⟨hmem, (overlaps_iff (h.nonEmpty hmem) hrg).mpr ⟨?_, ?_⟩⟩
      · rcases start_of_pivot_le h hmem hpivot with hle | hcontains
        · exact (h.nonEmpty hmem).imp_left hle.trans_lt
        · exact hcontains.2
      · by_cases hbot : rg.endKey = ⊥
        · exact .inr hbot
        · exact .inl (hend hbot)
    · rintro ⟨hmem, hover⟩
      obtain ⟨-, hend⟩ := (overlaps_iff (h.nonEmpty hmem) hrg).mp hover
      obtain ⟨k, hitem, hk⟩ := hover
      exact ⟨⟨hmem, pivot_le_of_contains h hmem hitem hk.1⟩, hend.resolve_right⟩
  · apply (sorted_ascendGreaterOrEqual rangeTree _).imp
    intro a b hlt
    simp only [Bool.not_eq_true', decide_eq_false_iff_not, not_and, not_le]
    exact fun hb hbot => hlt.trans (hb hbot)

theorem mem_update (h : rangeTree.Disjoint) (hrg : rg.NonEmpty) {item : Range K File} : item ∈ (rangeTree.update
    rg).items ↔ item = rg ∨ item ∈ rangeTree.items ∧ ¬ item.toKeyRange.Overlaps rg.toKeyRange := by
  unfold update
  rw [mem_replaceOrInsert, mem_deleteAll]
  constructor
  · rintro (rfl | ⟨⟨hmem, hdeleted⟩, -⟩)
    · exact .inl rfl
    · refine .inr ⟨hmem, fun hover => ?_⟩
      exact hdeleted item ((mem_getOverlaps h hrg).mpr ⟨hmem, hover⟩) rfl
  · rintro (rfl | ⟨hmem, hdisjoint⟩)
    · exact .inl rfl
    · refine .inr ⟨⟨hmem, fun found hfound heq => ?_⟩, fun heq => ?_⟩
      · obtain ⟨hfoundmem, hover⟩ := (mem_getOverlaps h hrg).mp hfound
        rw [eq_of_key_eq hmem hfoundmem heq] at hdisjoint
        exact hdisjoint hover
      · -- ranges with one start key overlap there
        apply hdisjoint
        refine ⟨item.startKey, (h.nonEmpty hmem).contains_start, ?_⟩
        rw [heq]
        exact hrg.contains_start

theorem Disjoint.update (h : rangeTree.Disjoint) (hrg : rg.NonEmpty) : (rangeTree.update rg).Disjoint := by
  obtain ⟨hne, hdisjoint⟩ := nonOverlapping_iff.mp h
  apply nonOverlapping_iff.mpr
  constructor
  · intro a ha
    rcases (mem_update h hrg).mp ha with rfl | ⟨ha, -⟩
    · exact hrg
    · exact hne a ha
  · intro a ha b hb hab
    rcases (mem_update h hrg).mp ha with rfl | ⟨ha, hanot⟩
    · rcases (mem_update h hrg).mp hb with rfl | ⟨-, hbnot⟩
      · exact absurd rfl hab
      · exact fun hover => hbnot hover.symm
    · rcases (mem_update h hrg).mp hb with rfl | ⟨hb, -⟩
      · exact hanot
      · exact hdisjoint a ha b hb hab

/-! ## The missing ranges -/

section Missing

variable {requestRange : Range K File} {lastEndKey : K} {rest : List (Range K File)}

abbrev InRequest (requestRange : Range K File) (lastEndKey : K) : Prop :=
  requestRange.startKey ≤ lastEndKey ∧ (lastEndKey < requestRange.endKey ∨ requestRange.endKey = ⊥)

/-- The ranges `out` are the keys of the request from the cursor on that the ranges `rest` do not have. -/
structure Fills (requestRange : Range K File) (lastEndKey : K) (rest out : List (Range K File)) : Prop where
  ascending : Ascending (out.map Range.toKeyRange)
  has_iff : ∀ k, Has (out.map Range.toKeyRange) k ↔
    (mk lastEndKey requestRange.endKey).Contains k ∧ ¬ Has (rest.map Range.toKeyRange) k

theorem missing_eq (hlast : InRequest requestRange lastEndKey) {stop : K} (hstop : lastEndKey < stop ∨ stop = ⊥) : ∃
    subEnd, missing requestRange lastEndKey stop = [{ startKey := lastEndKey, endKey := subEnd, files := [] }] ∧ (∀ k,
    (mk lastEndKey subEnd).Contains k ↔ (mk lastEndKey requestRange.endKey).Contains k ∧ (k < stop ∨
    stop = ⊥)) ∧ (stop ≠ ⊥ → subEnd ≠ ⊥ ∧ subEnd ≤ stop) := by
  obtain ⟨hstart, hend⟩ := hlast
  have hbefore : ¬ (requestRange.endKey ≠ ⊥ ∧ requestRange.endKey ≤ lastEndKey) := by
    rintro ⟨hbot, hle⟩
    exact absurd (hend.resolve_right hbot) (not_lt.mpr hle)
  have hafter : ¬ (stop ≠ ⊥ ∧ stop ≤ requestRange.startKey) := by
    rintro ⟨hbot, hle⟩
    exact absurd (hstop.resolve_right hbot) (not_lt.mpr (hle.trans hstart))
  unfold missing intersect
  rw [if_neg hbefore, if_neg hafter]
  rw [if_pos hstart]
  refine ⟨_, rfl, ?_⟩
  unfold KeyRange.Contains
  by_cases hunbounded : stop = ⊥
  · simp [hunbounded]
  · rw [if_neg hunbounded]
    by_cases hbot : requestRange.endKey = ⊥
    · simp [hbot]
    · rw [if_neg hbot]
      by_cases hlt : stop < requestRange.endKey
      · rw [if_pos hlt]
        refine ⟨fun k => ?_, fun _ => ⟨hunbounded, le_refl _⟩⟩
        have htrans : k < stop → k < requestRange.endKey := fun hk => hk.trans hlt
        tauto
      · rw [if_neg hlt]
        refine ⟨fun k => ?_, fun _ => ⟨hbot, not_lt.mp hlt⟩⟩
        have htrans : k < requestRange.endKey → k < stop := fun hk => hk.trans_le (not_lt.mp hlt)
        tauto

theorem fills_nil (hlast : InRequest requestRange lastEndKey) :
    Fills requestRange lastEndKey [] (missing requestRange lastEndKey requestRange.endKey) := by
  obtain ⟨subEnd, hmissing, hcontains, -⟩ := missing_eq hlast hlast.2
  have hnonEmpty := ((hcontains lastEndKey).mpr ⟨⟨le_refl _, hlast.2⟩, hlast.2⟩).2
  rw [hmissing]
  refine ⟨ascending_cons.mpr ⟨hnonEmpty, .nil, by simp⟩, fun k => ?_⟩
  rw [map_singleton, has_cons, hcontains k]
  simp only [map_nil, has_nil, or_false, not_false_eq_true, and_true, and_iff_left_iff_imp]
  exact fun hk => hk.2

theorem gap_before (hlast : InRequest requestRange lastEndKey) : ∃ gap, (if lastEndKey < rg.startKey then missing
    requestRange lastEndKey rg.startKey else []) = gap ∧ Ascending (gap.map toKeyRange) ∧ (∀ a ∈ gap.map toKeyRange,
    a.endKey ≠ ⊥ ∧ a.endKey ≤ rg.startKey) ∧ ∀ k, Has (gap.map toKeyRange) k ↔ (mk lastEndKey
    requestRange.endKey).Contains k ∧ k < rg.startKey := by
  by_cases hlt : lastEndKey < rg.startKey
  · obtain ⟨subEnd, hmissing, hcontains, hsubEnd⟩ := missing_eq hlast (.inl hlt)
    have hbot : rg.startKey ≠ ⊥ := (bot_le.trans_lt hlt).ne'
    have hnonEmpty := ((hcontains lastEndKey).mpr ⟨⟨le_refl _, hlast.2⟩, .inl hlt⟩).2
    rw [if_pos hlt]
    refine ⟨_, hmissing, ascending_cons.mpr ⟨hnonEmpty, .nil, by simp⟩, by simpa using hsubEnd hbot, fun k => ?_⟩
    rw [map_singleton, has_cons, hcontains k, or_iff_left hbot]
    simp
  · rw [if_neg hlt]
    refine ⟨_, rfl, .nil, by simp, fun k => ?_⟩
    simp only [map_nil, has_nil, false_iff, not_and, not_lt]
    exact fun hk => (not_lt.mp hlt).trans hk.1

/-- What the walk does behind a range of the tree: it ends in a range that has no end or ends with the request. -/
def Behind (requestRange rg : Range K File) (rest out : List (Range K File)) : Prop :=
  if rg.endKey ≠ ⊥ ∧ (requestRange.endKey = ⊥ ∨ rg.endKey < requestRange.endKey) then
    Fills requestRange rg.endKey rest out
  else out = []

theorem Behind.ascending {out : List (Range K File)} (h : Behind requestRange rg rest out) :
    Ascending (out.map toKeyRange) := by
  unfold Behind at h
  split at h
  · exact h.ascending
  · rw [h]
    exact .nil

theorem Behind.has_iff {out : List (Range K File)} (h : Behind requestRange rg rest out) {k : K} :
    Has (out.map toKeyRange) k ↔ rg.endKey ≠ ⊥ ∧ rg.endKey ≤ k ∧
      (k < requestRange.endKey ∨ requestRange.endKey = ⊥) ∧ ¬ Has (rest.map toKeyRange) k := by
  unfold Behind at h
  split at h
  next hmore =>
    rw [h.has_iff]
    simp only [KeyRange.Contains, ne_eq, hmore.1, not_false_eq_true, true_and, and_assoc]
  next hdone =>
    rw [h]
    simp only [map_nil, has_nil, false_iff]
    rintro ⟨hbot, hle, hk, -⟩
    apply hdone
    refine ⟨hbot, ?_⟩
    rcases hk with hk | hk
    · exact .inr (hle.trans_lt hk)
    · exact .inl hk

theorem fills_cons (hlast : InRequest requestRange lastEndKey) (hrest : Ascending ((rg :: rest).map toKeyRange))
    (hstart : lastEndKey ≤ rg.startKey ∨ rg.toKeyRange.Contains lastEndKey) {out : List (Range K File)}
    (hout : Behind requestRange rg rest out) : Fills requestRange lastEndKey (rg :: rest)
      ((if lastEndKey < rg.startKey then missing requestRange lastEndKey rg.startKey else []) ++ out) := by
  obtain ⟨hrg, -, hbefore⟩ := ascending_cons.mp hrest
  obtain ⟨gap, hgap, hgapAscending, hgapEnd, hgapHas⟩ := @gap_before _ _ _ _ rg _ _ hlast
  have hlastEnd : rg.endKey ≠ ⊥ → lastEndKey ≤ rg.endKey := by
    intro hbot
    rcases hstart with hle | hcontains
    · exact hle.trans (hrg.resolve_right hbot).le
    · exact (hcontains.2.resolve_right hbot).le
  rw [hgap]
  constructor
  · rw [map_append, ascending_append]
    refine ⟨hgapAscending, hout.ascending, fun a ha b hb => ?_⟩
    have hbstart : Has (out.map toKeyRange) b.startKey :=
      ⟨b, hb, (hout.ascending.nonEmpty b hb).contains_start⟩
    obtain ⟨hbot, hle, -, -⟩ := hout.has_iff.mp hbstart
    refine ⟨(hgapEnd a ha).1, ?_⟩
    exact (hgapEnd a ha).2.trans ((hrg.resolve_right hbot).le.trans hle)
  · intro k
    rw [map_append, has_append, hgapHas, hout.has_iff, map_cons, has_cons, not_or]
    constructor
    · rintro (⟨hk, hlt⟩ | ⟨hbot, hle, hend, hnot⟩)
      · refine ⟨hk, fun hin => absurd hin.1 (not_le.mpr hlt), ?_⟩
        rintro ⟨b, hb, hbk⟩
        exact absurd (((hbefore b hb).start_lt hrg).trans_le hbk.1) hlt.asymm
      · refine ⟨⟨(hlastEnd hbot).trans hle, hend⟩, fun hin => ?_, hnot⟩
        exact absurd (hin.2.resolve_right hbot) (not_lt.mpr hle)
    · rintro ⟨hk, hnotIn, hnot⟩
      rcases lt_or_ge k rg.startKey with hlt | hge
      · exact .inl ⟨hk, hlt⟩
      · have hout : ¬ (k < rg.endKey ∨ rg.endKey = ⊥) := fun hin => hnotIn ⟨hge, hin⟩
        rw [not_or, not_lt] at hout
        exact .inr ⟨hout.2, hout.1, hk.2, hnot⟩

abbrev Unfinished (requestRange : Range K File) (lastEndKey : K) : Prop :=
  lastEndKey ≠ requestRange.endKey ∧ lastEndKey ≠ ⊥ ∧ (requestRange.endKey = ⊥ ∨ lastEndKey < requestRange.endKey)

def gapsAndLast (requestRange : Range K File) (lastEndKey : K) (visited : List (Range K File)) : List (Range K File) :=
  let (incomplete, lastEndKey) := gaps requestRange lastEndKey visited
  if Unfinished requestRange lastEndKey then incomplete ++ missing requestRange lastEndKey requestRange.endKey
  else incomplete

theorem gapsAndLast_cons : gapsAndLast requestRange lastEndKey (rg :: rest) =
      (if lastEndKey < rg.startKey then missing requestRange lastEndKey rg.startKey else []) ++
        if requestRange.endKey = ⊥ ∨ rg.endKey < requestRange.endKey then gapsAndLast requestRange rg.endKey rest
        else [] := by
  unfold gapsAndLast
  rw [gaps]
  by_cases hmore : requestRange.endKey = ⊥ ∨ rg.endKey < requestRange.endKey
  · rw [if_pos hmore]
    dsimp only
    split <;> simp
  · rw [if_neg hmore, if_neg hmore]
    dsimp only
    rw [if_neg fun h => hmore h.2.2, append_nil]

theorem gapsAndLast_bot : gapsAndLast requestRange ⊥ [] = [] := by exact if_neg fun h => h.2.1 rfl

theorem behind_gapsAndLast (hrest : Ascending ((rg :: rest).map toKeyRange))
    (hfills : rg.endKey ≠ ⊥ → (requestRange.endKey = ⊥ ∨ rg.endKey < requestRange.endKey) →
      Fills requestRange rg.endKey rest (gapsAndLast requestRange rg.endKey rest)) : Behind requestRange rg rest
      (if requestRange.endKey = ⊥ ∨ rg.endKey < requestRange.endKey then gapsAndLast requestRange rg.endKey rest
        else []) := by
  unfold Behind
  by_cases hmore : requestRange.endKey = ⊥ ∨ rg.endKey < requestRange.endKey
  · rw [if_pos hmore]
    by_cases hbot : rg.endKey = ⊥
    · -- no range starts behind one without an end
      cases rest with
      | nil =>
        rw [if_neg fun h => h.1 hbot, hbot]
        exact gapsAndLast_bot
      | cons b rest => exact absurd hbot ((ascending_cons.mp hrest).2.2 _ mem_cons_self).1
    · rw [if_pos ⟨hbot, hmore⟩]
      exact hfills hbot hmore
  · rw [if_neg hmore, if_neg fun h => hmore h.2]

theorem fills_gapsAndLast (hlast : InRequest requestRange lastEndKey) (hbot : lastEndKey ≠ ⊥)
    (hrest : Ascending (rest.map toKeyRange)) (hstart : ∀ b ∈ rest, lastEndKey ≤ b.startKey) :
    Fills requestRange lastEndKey rest (gapsAndLast requestRange lastEndKey rest) := by
  induction rest generalizing lastEndKey with
  | nil =>
    have hunfinished : Unfinished requestRange lastEndKey := by
      refine ⟨?_, hbot, hlast.2.symm⟩
      rintro rfl
      exact hlast.2.elim (fun hlt => hlt.false) hbot
    unfold gapsAndLast gaps
    dsimp only
    rw [if_pos hunfinished]
    exact fills_nil hlast
  | cons rg rest ih =>
    obtain ⟨hrg, hascending, hbefore⟩ := ascending_cons.mp hrest
    have hrgStart := hstart rg mem_cons_self
    rw [gapsAndLast_cons]
    apply fills_cons hlast hrest (.inl hrgStart)
    apply behind_gapsAndLast hrest
    intro hend hmore
    refine ih ⟨?_, hmore.symm⟩ hend hascending ?_
    · exact hlast.1.trans (hrgStart.trans (hrg.resolve_right hend).le)
    · intro b hb
      exact (hbefore b.toKeyRange (mem_map_of_mem hb)).2

end Missing

theorem has_visited (h : rangeTree.Disjoint) {key k : K} (hk : key ≤ k) : Has ((rangeTree.ascendGreaterOrEqual
    (rangeTree.pivot key)).map toKeyRange) k ↔ Has (rangeTree.items.map toKeyRange) k := by
  unfold Has
  simp only [mem_map, exists_exists_and_eq_and, mem_ascendGreaterOrEqual]
  constructor
  · rintro ⟨rg, ⟨hrg, -⟩, hcontains⟩
    exact ⟨rg, hrg, hcontains⟩
  · rintro ⟨rg, hrg, hcontains⟩
    exact ⟨rg, ⟨hrg, pivot_le_of_contains h hrg hcontains hk⟩, hcontains⟩

theorem fills_getIncompleteRange (h : rangeTree.Disjoint) {startKey endKey : K}
    (hrequest : (mk startKey endKey).NonEmpty) :
    Fills { startKey, endKey, files := [] } startKey (rangeTree.ascendGreaterOrEqual (rangeTree.pivot startKey))
      (rangeTree.getIncompleteRange startKey endKey) := by
  have hne : ¬ (startKey ≠ ⊥ ∧ startKey = endKey) := by
    rintro ⟨hbot, rfl⟩
    exact hrequest.elim (fun hlt => hlt.false) hbot
  have hin : InRequest ({ startKey, endKey, files := [] } : Range K File) startKey := ⟨le_refl _, hrequest⟩
  have hvisited : ∀ rg ∈ rangeTree.ascendGreaterOrEqual (rangeTree.pivot startKey),
      startKey ≤ rg.startKey ∨ rg.toKeyRange.Contains startKey := by
    intro rg hrg
    obtain ⟨hmem, hpivot⟩ := mem_ascendGreaterOrEqual.mp hrg
    exact start_of_pivot_le h hmem hpivot
  have hascending : Ascending ((rangeTree.ascendGreaterOrEqual (rangeTree.pivot startKey)).map toKeyRange) := by
    rw [ascendGreaterOrEqual_eq]
    exact h.sublist (filter_sublist.map _)
  unfold getIncompleteRange
  rw [if_neg hne]
  cases hlist : rangeTree.ascendGreaterOrEqual (rangeTree.pivot startKey) with
  | nil => exact fills_nil hin
  | cons rg rest =>
    rw [hlist] at hvisited hascending
    obtain ⟨hrg, hrest, hbefore⟩ := ascending_cons.mp hascending
    have hwalk := @gapsAndLast_cons _ _ _ _ rg { startKey, endKey, files := [] } startKey rest
    unfold gapsAndLast at hwalk
    dsimp only at hwalk ⊢
    simp only [reduceCtorEq, false_or]
    rw [hwalk]
    apply fills_cons hin hascending (hvisited rg mem_cons_self)
    apply behind_gapsAndLast hascending
    intro hend hmore
    refine fills_gapsAndLast ⟨?_, hmore.symm⟩ hend hrest ?_
    · rcases hvisited rg mem_cons_self with hle | hcontains
      · exact hle.trans (hrg.resolve_right hend).le
      · exact (hcontains.2.resolve_right hend).le
    · intro b hb
      exact (hbefore b.toKeyRange (mem_map_of_mem hb)).2

/-! ## Whole runs -/

def putAll (rangeTree : RangeTree lib) (calls : List (Range K File)) : RangeTree lib :=
  calls.foldl (fun tree call => tree.put call.startKey call.endKey call.files) rangeTree

theorem Disjoint.putAll {calls : List (Range K File)} (h : rangeTree.Disjoint)
    (hcalls : ∀ call ∈ calls, call.NonEmpty) : (rangeTree.putAll calls).Disjoint := by
  induction calls generalizing rangeTree with
  | nil => exact h
  | cons call calls ih =>
    rw [forall_mem_cons] at hcalls
    exact ih (Disjoint.update h hcalls.1) hcalls.2

/-- The stored ranges are sorted and disjoint, a further call removes exactly those that overlap, and the incomplete
ranges of a request have exactly its keys that are not stored. -/
structure Tracks (rangeTree : RangeTree lib) : Prop where
  ascending : Ascending (rangeTree.items.map toKeyRange)
  put : ∀ call : Range K File, call.NonEmpty → ∀ item,
    item ∈ (rangeTree.put call.startKey call.endKey call.files).items ↔
      item = call ∨ item ∈ rangeTree.items ∧ ¬ item.toKeyRange.Overlaps call.toKeyRange
  incomplete : ∀ startKey endKey : K, (mk startKey endKey).NonEmpty →
    let out := (rangeTree.getIncompleteRange startKey endKey).map toKeyRange
    Ascending out ∧ ∀ k, Has out k ↔
      (mk startKey endKey).Contains k ∧ ¬ Has (rangeTree.items.map toKeyRange) k

/-- After any `Put` of non-empty ranges into any tree that does what the package documents. -/
theorem putAll_spec (lib : RangeLib K File) (calls : List (Range K File))
    (hcalls : ∀ call ∈ calls, call.NonEmpty) :
    ((newRangeTree : RangeTree lib).putAll calls).Tracks := by
  have hnew : (newRangeTree : RangeTree lib).Disjoint := by
    show Ascending ((BTree.new : BTree lib).items.map toKeyRange)
    rw [items_new]
    exact .nil
  have h := Disjoint.putAll hnew hcalls
  refine ⟨h, fun call hcall item => mem_update h hcall, fun startKey endKey hrequest => ?_⟩
  have hfills := fills_getIncompleteRange h hrequest
  refine ⟨hfills.ascending, fun k => ?_⟩
  rw [hfills.has_iff]
  apply and_congr_right
  intro hk
  rw [has_visited h hk.1]

section Bytes

open scoped ByteOrder

/-- Two ranges with a gap between them, and a third over the first. -/
theorem putAll_three :
    let calls : List (Range (List UInt8) String) := [⟨⟨[1], [4]⟩, ["a"]⟩, ⟨⟨[6], []⟩, ["b"]⟩, ⟨⟨[2], [5]⟩, ["c"]⟩]
    let rangeTree := (newRangeTree : RangeTree (sortedList _)).putAll calls
    (rangeTree.getIncompleteRange [] [9]).map toKeyRange = [⟨[], [2]⟩, ⟨[5], [6]⟩] ∧ rangeTree.Tracks := by
  refine ⟨by decide, putAll_spec _ _ ?_⟩
  unfold KeyRange.NonEmpty
  decide

end Bytes

end RangeTree

end Br
