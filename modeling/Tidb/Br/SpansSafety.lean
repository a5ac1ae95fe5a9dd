import Tidb.Br.SpansMerge

/-!
# The two trees of the checkpoint spans

Where no span is empty, the stored spans stay sorted and disjoint over the initial keys, each key has the greatest
value of the spans merged over it, and the index by value holds the stored spans.
-/

universe u

namespace Br

open KeyRange BTree List

variable {K : Type u} [LinearOrder K] [OrderBot K]

variable {lib : StartLib K} {idxLib : ValueLib K}

abbrev ValuedFull.Disjoint (inner : ValuedFull lib) : Prop := @NonOverlapping _ _ _ _ Valued.key lib inner

variable {inner : ValuedFull lib} {k : Span K} {val x y : Valued K}

/-! ## The overlapped spans -/

def firstKey (inner : ValuedFull lib) (k : Span K) : K :=
  match inner.lastLessOrEqual k.startKey with
  | some item => if overlaps item.key k then item.key.startKey else k.startKey
  | none => k.startKey

theorem overlapped_eq : overlapped inner k =
    (inner.ascendGreaterOrEqual (firstKey inner k)).takeWhile fun r => overlaps r.key k := by
  unfold overlapped firstKey
  cases inner.lastLessOrEqual k.startKey with
  | none => rfl
  | some item =>
    dsimp only
    split <;> rfl

theorem last_of_overlaps (h : inner.Disjoint) (hx : x ∈ inner.items) (hover : x.key.Overlaps k)
    (hlt : x.key.startKey < k.startKey) : inner.lastLessOrEqual k.startKey = some x := by
  obtain ⟨m, hxm, hm⟩ := hover
  exact h.lastLessOrEqual_of_contains hx (hxm.of_le hlt.le hm.1)

theorem firstKey_le (h : inner.Disjoint) (hk : k.NonEmpty) (hx : x ∈ inner.items) (hover : x.key.Overlaps k) :
    firstKey inner k ≤ x.key.startKey := by
  unfold firstKey
  rcases lt_or_ge x.key.startKey k.startKey with hlt | hge
  · rw [last_of_overlaps h hx hover hlt]
    dsimp only
    rw [if_pos ((overlaps_eq_true (h.nonEmpty hx) hk).mpr hover)]
  · cases hlast : inner.lastLessOrEqual k.startKey with
    | none => exact hge
    | some item =>
      dsimp only
      split
      · exact (lastLessOrEqual_eq_some hlast).2.1.trans hge
      · exact hge

theorem overlaps_of_firstKey_le (h : inner.Disjoint) (hk : k.NonEmpty) (hx : x ∈ inner.items)
    (hle : firstKey inner k ≤ x.key.startKey) : k.startKey ≤ x.key.startKey ∨ x.key.Overlaps k := by
  unfold firstKey at hle
  cases hlast : inner.lastLessOrEqual k.startKey with
  | none =>
    rw [hlast] at hle
    exact .inl hle
  | some item =>
    obtain ⟨hitem, -, -⟩ := lastLessOrEqual_eq_some hlast
    rw [hlast] at hle
    dsimp only at hle
    split at hle
    next hover =>
      have hover := (overlaps_eq_true (h.nonEmpty hitem) hk).mp hover
      rcases hle.lt_or_eq with hlt | heq
      · obtain ⟨m, him, hm⟩ := hover
        have hbefore := h.before hitem hx hlt
        exact .inl (hm.1.trans ((him.2.resolve_right hbefore.1).le.trans hbefore.2))
      · rw [← eq_of_key_eq hitem hx heq]
        exact .inr hover
    next => exact .inl hle

theorem mem_overlapped (h : inner.Disjoint) (hk : k.NonEmpty) :
    x ∈ overlapped inner k ↔ x ∈ inner.items ∧ x.key.Overlaps k := by
  have hwalk : (inner.ascendGreaterOrEqual (firstKey inner k)).Pairwise fun a b =>
      overlaps b.key k = true → overlaps a.key k = true := by
    apply (sorted_ascendGreaterOrEqual inner _).imp_of_mem
    intro a b ha hb hlt hover
    obtain ⟨ha, hale⟩ := mem_ascendGreaterOrEqual.mp ha
    obtain ⟨hb, -⟩ := mem_ascendGreaterOrEqual.mp hb
    apply (overlaps_eq_true (h.nonEmpty ha) hk).mpr
    rcases overlaps_of_firstKey_le h hk ha hale with hle | hover'
    · obtain ⟨m, hbm, hm⟩ := (overlaps_eq_true (h.nonEmpty hb) hk).mp hover
      exact ⟨a.key.startKey, (h.nonEmpty ha).contains_start, hm.of_le hle (hlt.le.trans hbm.1)⟩
    · exact hover'
  rw [overlapped_eq, takeWhile_eq_filter hwalk, mem_filter, mem_ascendGreaterOrEqual]
  constructor
  · rintro ⟨⟨hx, -⟩, hover⟩
    exact ⟨hx, (overlaps_eq_true (h.nonEmpty hx) hk).mp hover⟩
  · rintro ⟨hx, hover⟩
    exact ⟨⟨hx, firstKey_le h hk hx hover⟩, (overlaps_eq_true (h.nonEmpty hx) hk).mpr hover⟩

theorem crossed_overlapped (h : inner.Disjoint) (hval : val.key.NonEmpty) : Crossed val (overlapped inner val.key) := by
  constructor
  · apply h.sublist
    rw [overlapped_eq, ascendGreaterOrEqual_eq]
    exact ((takeWhile_sublist _).trans filter_sublist).map _
  · exact fun x hx => ((mem_overlapped h hval).mp hx).2

/-! ## One merge -/

structure Sound (f : ValueSortedFull lib idxLib) : Prop where
  disjoint : f.inner.Disjoint
  mem_valueIdx : ∀ x, x ∈ f.valueIdx.items ↔ x ∈ f.inner.items

section Merge

variable {overlapped cut newItems : List (Valued K)}

theorem Replacement.has_iff (h : Replacement val overlapped cut newItems) {key : K} :
    Has (newItems.map Valued.key) key ↔ Has (overlapped.map Valued.key) key := by
  rw [has_iff_at, has_iff_at]
  constructor
  · rintro ⟨v, hv⟩
    obtain ⟨w, hw, -⟩ := (h.at_iff key v).mp hv
    exact ⟨w, hw⟩
  · rintro ⟨w, hw⟩
    exact ⟨_, (h.at_iff key _).mpr ⟨w, hw, rfl⟩⟩

theorem Replacement.new_start (h : Replacement val overlapped cut newItems) (hy : y ∈ newItems) :
    Has (overlapped.map Valued.key) y.key.startKey := by
  have hkey : y.key ∈ newItems.map Valued.key := mem_map_of_mem hy
  exact h.has_iff.mp ⟨y.key, hkey, (h.ascending.nonEmpty y.key hkey).contains_start⟩

theorem Replacement.start_ne (h : Replacement val overlapped cut newItems) :
    newItems.Pairwise fun a b => a.key.startKey ≠ b.key.startKey := by
  have hbefore := h.ascending.before
  rw [pairwise_map] at hbefore
  apply hbefore.imp_of_mem
  intro a b ha _ hab
  exact (hab.start_lt (h.ascending.nonEmpty a.key (mem_map_of_mem ha))).ne

theorem start_ne_of_not_overlapped (h : inner.Disjoint) (hsub : ∀ x ∈ overlapped, x ∈ inner.items)
    (hx : x ∈ inner.items) (hnot : x ∉ overlapped) {key : K} (hkey : Has (overlapped.map Valued.key) key) :
    ¬ x.key.Contains key := by
  obtain ⟨r, hr, hrk⟩ := hkey
  obtain ⟨z, hz, rfl⟩ := mem_map.mp hr
  intro hxk
  rw [h.eq_of_contains hx (hsub z hz) hxk hrk] at hnot
  exact hnot hz

theorem mem_inner_replaced (h : inner.Disjoint) (hsub : ∀ x ∈ overlapped, x ∈ inner.items)
    (hr : Replacement val overlapped cut newItems) : x ∈ ((inner.deleteAll overlapped).insertAll newItems).items ↔
      x ∈ newItems ∨ x ∈ inner.items ∧ x ∉ overlapped := by
  rw [mem_insertAll hr.start_ne, mem_deleteAll]
  apply or_congr_right
  constructor
  · rintro ⟨⟨hx, hdeleted⟩, -⟩
    exact ⟨hx, fun hmem => hdeleted x hmem rfl⟩
  · rintro ⟨hx, hnot⟩
    have hstart : ∀ key, Has (overlapped.map Valued.key) key → x.key.startKey ≠ key := by
      rintro key hkey rfl
      exact start_ne_of_not_overlapped h hsub hx hnot hkey (h.nonEmpty hx).contains_start
    refine ⟨⟨hx, fun z hz => ?_⟩, fun y hy => hstart _ (hr.new_start hy)⟩
    exact hstart _ ⟨z.key, mem_map_of_mem hz, (h.nonEmpty (hsub z hz)).contains_start⟩

/-- The tree by value after the merge: although the first overlapped span has been cut, its old entry goes. -/
theorem mem_valueIdx_replaced {f : ValueSortedFull lib idxLib} (h : Sound f)
    (hsub : ∀ x ∈ overlapped, x ∈ f.inner.items)
    (hr : Replacement val overlapped cut newItems) : x ∈ ((f.valueIdx.deleteAll cut).insertAll newItems).items ↔
      x ∈ newItems ∨ x ∈ f.inner.items ∧ x ∉ overlapped := by
  have hdistinct : newItems.Pairwise fun a b => sortedByValueThenStartKey a ≠ sortedByValueThenStartKey b :=
    hr.start_ne.imp fun hne heq => hne (congrArg (fun p => (ofLex p).2) heq)
  rw [mem_insertAll hdistinct, mem_deleteAll, h.mem_valueIdx]
  apply or_congr_right
  constructor
  · rintro ⟨⟨hx, hdeleted⟩, hinserted⟩
    refine ⟨hx, fun hmem => ?_⟩
    rcases hr.entry x hmem with ⟨o, ho, hstart, hvalue⟩ | ⟨y, hy, hstart, hvalue⟩
    · exact hdeleted o ho (by unfold sortedByValueThenStartKey; rw [hstart, hvalue])
    · exact hinserted y hy (by unfold sortedByValueThenStartKey; rw [hstart, hvalue])
  · rintro ⟨hx, hnot⟩
    have hentry : ∀ z : Valued K, Has (overlapped.map Valued.key) z.key.startKey →
        sortedByValueThenStartKey x ≠ sortedByValueThenStartKey z := by
      intro z hz heq
      have hstart : x.key.startKey = z.key.startKey := congrArg (fun p => (ofLex p).2) heq
      rw [← hstart] at hz
      exact start_ne_of_not_overlapped h.disjoint hsub hx hnot hz (h.disjoint.nonEmpty hx).contains_start
    exact ⟨⟨hx, fun o ho => hentry o (hr.cut_start o ho)⟩, fun y hy => hentry y (hr.new_start hy)⟩

theorem disjoint_replaced (h : inner.Disjoint) (hsub : ∀ x ∈ overlapped, x ∈ inner.items)
    (hr : Replacement val overlapped cut newItems) :
    ValuedFull.Disjoint ((inner.deleteAll overlapped).insertAll newItems) := by
  -- an old span next to a new one
  have hmixed : ∀ a ∈ newItems, ∀ b ∈ inner.items, b ∉ overlapped → ¬ a.key.Overlaps b.key := by
    rintro a ha b hb hnot ⟨key, hak, hbk⟩
    have hkey : Has (newItems.map Valued.key) key := ⟨a.key, mem_map_of_mem ha, hak⟩
    exact start_ne_of_not_overlapped h hsub hb hnot (hr.has_iff.mp hkey) hbk
  apply nonOverlapping_iff.mpr
  constructor
  · intro a ha
    rcases (mem_inner_replaced h hsub hr).mp ha with ha | ⟨ha, -⟩
    · exact hr.ascending.nonEmpty a.key (mem_map_of_mem ha)
    · exact h.nonEmpty ha
  · intro a ha b hb hab
    rcases (mem_inner_replaced h hsub hr).mp ha with ha | ⟨ha, hanot⟩
    · rcases (mem_inner_replaced h hsub hr).mp hb with hb | ⟨hb, hbnot⟩
      · exact hr.ascending.not_overlaps ha hb hab
      · exact hmixed a ha b hb hbnot
    · rcases (mem_inner_replaced h hsub hr).mp hb with hb | ⟨hb, -⟩
      · exact fun hover => hmixed b hb a ha hanot hover.symm
      · exact h.not_overlaps ha hb hab

theorem at_replaced (h : inner.Disjoint) (hval : val.key.NonEmpty)
    (hr : Replacement val (Br.overlapped inner val.key) cut newItems) {key : K} {v : ℕ} :
    At ((inner.deleteAll (Br.overlapped inner val.key)).insertAll newItems).items key v ↔
      ∃ w, At inner.items key w ∧ v = mergedValue val key w := by
  have hsub : ∀ x ∈ Br.overlapped inner val.key, x ∈ inner.items := fun x hx => ((mem_overlapped h hval).mp hx).1
  -- a merge gives no value to the keys of the other spans
  have hkeep : ∀ x ∈ inner.items, x ∉ Br.overlapped inner val.key → x.key.Contains key →
      mergedValue val key x.value = x.value := by
    intro x hx hnot hxk
    apply if_neg
    intro hk
    exact hnot ((mem_overlapped h hval).mpr ⟨hx, key, hxk, hk⟩)
  constructor
  · rintro ⟨x, hx, hxk, rfl⟩
    rcases (mem_inner_replaced h hsub hr).mp hx with hx | ⟨hx, hnot⟩
    · obtain ⟨w, ⟨z, hz, hzk, hzw⟩, hv⟩ := (hr.at_iff key x.value).mp ⟨x, hx, hxk, rfl⟩
      exact ⟨w, ⟨z, hsub z hz, hzk, hzw⟩, hv⟩
    · exact ⟨x.value, ⟨x, hx, hxk, rfl⟩, (hkeep x hx hnot hxk).symm⟩
  · rintro ⟨w, ⟨x, hx, hxk, rfl⟩, rfl⟩
    by_cases hmem : x ∈ Br.overlapped inner val.key
    · obtain ⟨y, hy, hyk, hyv⟩ := (hr.at_iff key _).mpr ⟨x.value, ⟨x, hmem, hxk, rfl⟩, rfl⟩
      exact ⟨y, (mem_inner_replaced h hsub hr).mpr (.inl hy), hyk, hyv⟩
    · refine ⟨x, (mem_inner_replaced h hsub hr).mpr (.inr ⟨hx, hmem⟩), hxk, ?_⟩
      exact (hkeep x hx hmem hxk).symm

end Merge

theorem merge_of_overlapped_eq_nil {f : ValueSortedFull lib idxLib} (hnone : overlapped f.inner val.key = []) :
    f.merge val = f := by
  unfold ValueSortedFull.merge mergeWithOverlap
  rw [hnone]
  rfl

theorem Sound.merge {f : ValueSortedFull lib idxLib} (h : Sound f) (hval : val.key.NonEmpty) :
    Sound (f.merge val) ∧ ∀ key v,
      At (f.merge val).inner.items key v ↔ ∃ w, At f.inner.items key w ∧ v = mergedValue val key w := by
  by_cases hnone : overlapped f.inner val.key = []
  · rw [merge_of_overlapped_eq_nil hnone]
    refine ⟨h, fun key v => ?_⟩
    have hkeep : ∀ w, At f.inner.items key w → mergedValue val key w = w := by
      rintro w ⟨x, hx, hxk, rfl⟩
      apply if_neg
      intro hk
      have hmem := (mem_overlapped h.disjoint hval).mpr ⟨hx, key, hxk, hk⟩
      rw [hnone] at hmem
      cases hmem
    constructor
    · intro hv
      exact ⟨v, hv, (hkeep v hv).symm⟩
    · rintro ⟨w, hw, rfl⟩
      rw [hkeep w hw]
      exact hw
  · obtain ⟨cut, newItems, heq, hr⟩ :=
      mergeWithOverlap_spec (crossed_overlapped h.disjoint hval) hval hnone f.inner
    have hsub : ∀ x ∈ overlapped f.inner val.key, x ∈ f.inner.items :=
      fun x hx => ((mem_overlapped h.disjoint hval).mp hx).1
    unfold ValueSortedFull.merge
    rw [heq]
    refine ⟨⟨disjoint_replaced h.disjoint hsub hr, fun x => ?_⟩, fun key v => at_replaced h.disjoint hval hr⟩
    exact (mem_valueIdx_replaced h hsub hr).trans (mem_inner_replaced h.disjoint hsub hr).symm

/-! ## Collapsing the initial spans -/

def spanKey (a : Span K) : K ×ₗ WithTop K := toLex (a.startKey, if a.endKey = ⊥ then ⊤ else ↑a.endKey)

theorem spanLess_iff {a b : Span K} : spanLess a b = true ↔ spanKey a < spanKey b := by
  unfold spanLess spanKey compareBytesExt
  rw [Prod.Lex.toLex_lt_toLex]
  rcases lt_trichotomy a.startKey b.startKey with hlt | heq | hgt
  · simp [hlt, compare_lt_iff_lt.mpr hlt]
  · by_cases ha : a.endKey = ⊥ <;> by_cases hb : b.endKey = ⊥ <;> simp [heq, ha, hb, compare_lt_iff_lt]
  · simp [hgt.not_gt, hgt.ne', compare_gt_iff_gt.mpr hgt]

theorem collapseFrom_spec {item : Span K} {frs : List (Span K)} (hitem : item.NonEmpty)
    (hfrs : ∀ fr ∈ frs, fr.NonEmpty) (hsorted : (item :: frs).Pairwise fun a b => a.startKey ≤ b.startKey) :
    Ascending (collapseFrom item frs) ∧ ∀ key, Has (collapseFrom item frs) key ↔ Has (item :: frs) key := by
  induction frs generalizing item with
  | nil => exact ⟨ascending_cons.mpr ⟨hitem, .nil, by simp⟩, fun key => Iff.rfl⟩
  | cons fr frs ih =>
    rw [forall_mem_cons] at hfrs
    obtain ⟨hfr, hfrs⟩ := hfrs
    obtain ⟨hle, hsorted⟩ := pairwise_cons.mp hsorted
    obtain ⟨hfrle, htail⟩ := pairwise_cons.mp hsorted
    rw [forall_mem_cons] at hle
    -- one span in the place of the first two
    have hgrow : ∀ grown : Span K, grown.startKey = item.startKey → (∀ key, grown.Contains key ↔ item.Contains key ∨
        fr.Contains key) → Ascending (collapseFrom grown frs) ∧ ∀ key, Has (collapseFrom grown frs) key ↔ Has (item ::
        fr :: frs) key := by
      intro grown hstart hcontains
      have hgrown : grown.NonEmpty := by
        have hin := (hcontains item.startKey).mpr (.inl hitem.contains_start)
        rw [← hstart] at hin
        exact hin.2
      have hagain : (grown :: frs).Pairwise fun a b => a.startKey ≤ b.startKey := by
        refine pairwise_cons.mpr ⟨fun b hb => ?_, htail⟩
        rw [hstart]
        exact hle.2 b hb
      obtain ⟨hasc, hhas⟩ := ih hgrown hfrs hagain
      refine ⟨hasc, fun key => ?_⟩
      rw [hhas, has_cons, has_cons, has_cons, hcontains, or_assoc]
    rw [collapseFrom]
    by_cases hbreak : item.endKey ≠ ⊥ ∧ item.endKey < fr.startKey
    · rw [if_pos hbreak]
      obtain ⟨hasc, hhas⟩ := ih hfr hfrs hsorted
      refine ⟨ascending_cons.mpr ⟨hitem, hasc, fun b hb => ⟨hbreak.1, ?_⟩⟩, fun key => ?_⟩
      · obtain ⟨r, hr, hrk⟩ := (hhas b.startKey).mp ⟨b, hb, (hasc.nonEmpty b hb).contains_start⟩
        have hrstart : fr.startKey ≤ r.startKey := by
          rcases mem_cons.mp hr with rfl | hr
          · exact le_refl _
          · exact hfrle r hr
        exact hbreak.2.le.trans (hrstart.trans hrk.1)
      · rw [has_cons, has_cons, hhas]
    · rw [if_neg hbreak]
      rw [not_and_or, not_not, not_lt] at hbreak
      by_cases hextend : item.endKey ≠ ⊥ ∧ item.endKey < fr.endKey ∨ fr.endKey = ⊥
      · rw [if_pos hextend]
        apply hgrow ⟨item.startKey, fr.endKey⟩ rfl
        intro key
        constructor
        · rintro ⟨hstart, hend⟩
          rcases le_or_gt fr.startKey key with hfrk | hfrk
          · exact .inr ⟨hfrk, hend⟩
          · exact .inl ⟨hstart, hbreak.symm.imp_left hfrk.trans_le⟩
        · rintro (⟨hstart, hend⟩ | ⟨hstart, hend⟩)
          · refine ⟨hstart, ?_⟩
            rcases hextend with ⟨hbot, hlt⟩ | hbot
            · exact .inl ((hend.resolve_right hbot).trans hlt)
            · exact .inr hbot
          · exact ⟨hle.1.trans hstart, hend⟩
      · rw [if_neg hextend]
        rw [not_or, not_and_or, not_not, not_lt] at hextend
        apply hgrow _ rfl
        intro key
        constructor
        · exact .inl
        · rintro (hk | ⟨hstart, hend⟩)
          · exact hk
          · refine ⟨hle.1.trans hstart, ?_⟩
            exact hextend.1.symm.imp_left (hend.resolve_right hextend.2).trans_le

theorem spanLess_eq_false_iff {a b : Span K} : spanLess b a = false ↔ spanKey a ≤ spanKey b := by
  rw [← Bool.not_eq_true, spanLess_iff, not_lt]

instance : Std.Total fun a b : Span K => spanLess b a = false where
  total a b := by
    rw [spanLess_eq_false_iff, spanLess_eq_false_iff]
    exact le_total _ _

instance : IsTrans (Span K) fun a b => spanLess b a = false where
  trans a b c := by
    simp only [spanLess_eq_false_iff]
    exact le_trans

theorem collapse_spec {spans : List (Span K)} (h : ∀ r ∈ spans, r.NonEmpty) :
    Ascending (collapse spans) ∧ ∀ key, Has (collapse spans) key ↔ Has spans key := by
  have hperm := perm_insertionSort (fun a b : Span K => spanLess b a = false) spans
  have hsorted : (spans.insertionSort fun a b => spanLess b a = false).Pairwise fun a b => a.startKey ≤ b.startKey := by
    apply (pairwise_insertionSort _ spans).imp
    intro a b hab
    rw [spanLess_eq_false_iff, spanKey, spanKey, Prod.Lex.toLex_le_toLex] at hab
    rcases hab with hlt | ⟨heq, -⟩
    · exact hlt.le
    · exact heq.le
  have hhas : ∀ key, Has (spans.insertionSort fun a b => spanLess b a = false) key ↔ Has spans key := by
    unfold Has
    simp
  have hne : ∀ r ∈ spans.insertionSort fun a b => spanLess b a = false, r.NonEmpty :=
    fun r hr => h r (hperm.mem_iff.mp hr)
  unfold collapse
  cases hlist : spans.insertionSort fun a b => spanLess b a = false with
  | nil =>
    rw [hlist] at hhas
    exact ⟨.nil, hhas⟩
  | cons item frs =>
    rw [hlist] at hhas hsorted hne
    rw [forall_mem_cons] at hne
    obtain ⟨hasc, hcollapse⟩ := collapseFrom_spec hne.1 hne.2 hsorted
    exact ⟨hasc, fun key => (hcollapse key).trans (hhas key)⟩

variable (lib idxLib) in
abbrev sortedFullWith (initSpans : List (Span K)) (init : ℕ) : ValueSortedFull lib idxLib :=
  sorted (newFullWith initSpans init)

theorem sortedFullWith_spec {initSpans : List (Span K)} (h : ∀ r ∈ initSpans, r.NonEmpty) (init : ℕ) :
    Sound (sortedFullWith lib idxLib initSpans init) ∧ ∀ key v,
      At (sortedFullWith lib idxLib initSpans init).inner.items key v ↔ Has initSpans key ∧ v = init := by
  obtain ⟨hasc, hhas⟩ := collapse_spec h
  have hkeys : ((collapse initSpans).map fun r => ({ value := init, key := r } : Valued K)).map Valued.key =
      collapse initSpans := by
    rw [map_map]
    exact map_id _
  have hdistinct : ((collapse initSpans).map fun r => ({ value := init, key := r } : Valued K)).Pairwise
      fun a b => a.key.startKey ≠ b.key.startKey := by
    rw [pairwise_map]
    apply hasc.before.imp_of_mem
    exact fun ha _ hab => (hab.start_lt (hasc.nonEmpty _ ha)).ne
  have hitems : ∀ x, x ∈ (newFullWith initSpans init : ValuedFull lib).items ↔
      x ∈ (collapse initSpans).map fun r => ({ value := init, key := r } : Valued K) := by
    intro x
    unfold newFullWith
    rw [mem_insertAll hdistinct]
    simp [items_new]
  rw [← hkeys] at hasc
  refine ⟨⟨?_, ?_⟩, ?_⟩
  · apply nonOverlapping_iff.mpr
    constructor
    · intro a ha
      exact hasc.nonEmpty a.key (mem_map_of_mem ((hitems a).mp ha))
    · intro a ha b hb hab
      exact hasc.not_overlaps ((hitems a).mp ha) ((hitems b).mp hb) hab
  · intro x
    have hidx : (newFullWith initSpans init : ValuedFull lib).items.Pairwise fun a b =>
        sortedByValueThenStartKey a ≠ sortedByValueThenStartKey b := by
      apply (newFullWith initSpans init : ValuedFull lib).sorted.imp
      exact fun hlt heq => hlt.ne (congrArg (fun p => (ofLex p).2) heq)
    show x ∈ ((BTree.new : BTree idxLib).insertAll (newFullWith initSpans init : ValuedFull lib).items).items ↔
      x ∈ (newFullWith initSpans init : ValuedFull lib).items
    rw [mem_insertAll hidx]
    simp [items_new]
  · intro key v
    show At (newFullWith initSpans init : ValuedFull lib).items key v ↔ _
    rw [← hhas key]
    unfold At Has
    simp only [hitems, mem_map]
    constructor
    · rintro ⟨x, ⟨r, hr, rfl⟩, hk, rfl⟩
      exact ⟨⟨r, hr, hk⟩, rfl⟩
    · rintro ⟨⟨r, hr, hk⟩, rfl⟩
      exact ⟨_, ⟨r, hr, rfl⟩, hk, rfl⟩

/-! ## Whole runs -/

theorem Sound.minValue {f : ValueSortedFull lib idxLib} (h : Sound f) :
    f.minValue = (f.inner.items.map Valued.value).min? := by
  unfold ValueSortedFull.minValue
  cases hmin : f.valueIdx.min with
  | none =>
    have hempty : f.inner.items = [] := by
      apply eq_nil_iff_forall_not_mem.mpr
      intro x hx
      have hidx := (h.mem_valueIdx x).mpr hx
      have hnone : f.valueIdx.items = [] := head?_eq_none_iff.mp ((idxLib.min_eq f.valueIdx).symm.trans hmin)
      rw [hnone] at hidx
      cases hidx
    rw [hempty]
    rfl
  | some x =>
    obtain ⟨hx, hleast⟩ := min_eq_some hmin
    symm
    apply min?_eq_some_iff.mpr
    refine ⟨mem_map_of_mem ((h.mem_valueIdx x).mp hx), ?_⟩
    rw [forall_mem_map]
    intro y hy
    have hle := hleast y ((h.mem_valueIdx y).mpr hy)
    unfold sortedByValueThenStartKey at hle
    rw [Prod.Lex.toLex_le_toLex] at hle
    rcases hle with hlt | ⟨heq, -⟩
    · exact hlt.le
    · exact heq.le

/-- The greatest of the initial value and the values of the merged spans that have the key. -/
def IsJoin (init : ℕ) (merged : List (Valued K)) (key : K) (v : ℕ) : Prop :=
  IsGreatest {w | w = init ∨ ∃ item ∈ merged, item.key.Contains key ∧ item.value = w} v

theorem isJoin_append {init : ℕ} {merged : List (Valued K)} {key : K} {w : ℕ} (h : IsJoin init merged key w)
    (val : Valued K) : IsJoin init (merged ++ [val]) key (mergedValue val key w) := by
  obtain ⟨hmem, hle⟩ := h
  have hold : ∀ u, (u = init ∨ ∃ item ∈ merged, item.key.Contains key ∧ item.value = u) → u ≤ w := fun u hu => hle hu
  unfold mergedValue
  constructor
  · by_cases hk : val.key.Contains key
    · rw [if_pos hk, join_eq_max]
      rcases le_total val.value w with hle' | hle'
      · rw [max_eq_right hle']
        exact hmem.imp_right fun ⟨item, hitem, h⟩ => ⟨item, mem_append_left _ hitem, h⟩
      · rw [max_eq_left hle']
        exact .inr ⟨val, by simp, hk, rfl⟩
    · rw [if_neg hk]
      exact hmem.imp_right fun ⟨item, hitem, h⟩ => ⟨item, mem_append_left _ hitem, h⟩
  · have hgrows : w ≤ if val.key.Contains key then join val.value w else w := by
      rw [join_eq_max]
      split
      · exact le_max_right _ _
      · exact le_refl _
    rintro u (hu | ⟨item, hitem, hik, rfl⟩)
    · exact (hold u (.inl hu)).trans hgrows
    · rcases mem_append.mp hitem with hitem | hitem
      · exact (hold _ (.inr ⟨item, hitem, hik, rfl⟩)).trans hgrows
      · rw [mem_singleton.mp hitem] at hik ⊢
        rw [if_pos hik, join_eq_max]
        exact le_max_left _ _

/-! ### Empty spans -/

/-- A span that goes over the ends of the other: where that is empty, it is strictly inside. -/
def Spans (x k : Span K) : Prop := x.startKey < k.endKey ∧ (k.startKey < x.endKey ∨ x.endKey = ⊥)

instance (x k : Span K) : Decidable (Spans x k) := inferInstanceAs (Decidable (_ ∧ _))

/-- Each merged span is non-empty, or there is no stored span around it when it is merged. -/
def Harmless : ValueSortedFull lib idxLib → List (Valued K) → Prop
  | _, [] => True
  | f, val :: rest => (val.key.NonEmpty ∨ ∀ x ∈ f.inner.items, ¬ Spans x.key val.key) ∧ Harmless (f.merge val) rest

theorem harmless_append {f : ValueSortedFull lib idxLib} {merged : List (Valued K)} : Harmless f (merged ++ [val]) ↔
    Harmless f merged ∧ (val.key.NonEmpty ∨ ∀ x ∈ (f.mergeAll merged).inner.items, ¬ Spans x.key val.key) := by
  induction merged generalizing f with
  | nil => exact and_comm
  | cons item merged ih => exact (and_congr_right' ih).trans and_assoc.symm

theorem merge_of_not_spans {f : ValueSortedFull lib idxLib} (hempty : ¬ val.key.NonEmpty)
    (h : ∀ x ∈ f.inner.items, ¬ Spans x.key val.key) : f.merge val = f := by
  have hend : val.key.endKey ≠ ⊥ := fun hbot => hempty (.inr hbot)
  apply merge_of_overlapped_eq_nil
  rw [overlapped_eq]
  apply eq_nil_iff_forall_not_mem.mpr
  intro x hx
  have hover : overlaps x.key val.key = true := all_eq_true.mp all_takeWhile x hx
  apply h x (mem_ascendGreaterOrEqual.mp ((takeWhile_sublist _).subset hx)).1
  unfold overlaps at hover
  rw [if_neg hend] at hover
  unfold Spans
  by_cases hbot : x.key.endKey = ⊥
  · simpa [hbot, hend] using hover
  · simpa [hbot] using hover

/-- The stored spans are sorted and disjoint and have the initial keys, the value of a key is the greatest merged over
it, and the index by value has the same spans. -/
structure Checkpoint (initSpans : List (Span K)) (init : ℕ) (merged : List (Valued K))
    (f : ValueSortedFull lib idxLib) : Prop where
  ascending : Ascending (f.inner.items.map Valued.key)
  has_iff : ∀ key, Has (f.inner.items.map Valued.key) key ↔ Has initSpans key
  value : ∀ x ∈ f.inner.items, ∀ key, x.key.Contains key → IsJoin init merged key x.value
  mem_valueIdx : ∀ x, x ∈ f.valueIdx.items ↔ x ∈ f.inner.items
  minValue : f.minValue = (f.inner.items.map Valued.value).min?

theorem checkpoint_iff {initSpans : List (Span K)} {init : ℕ} {merged : List (Valued K)}
    {f : ValueSortedFull lib idxLib} : Checkpoint initSpans init merged f ↔ Sound f ∧
      (∀ key, Has (f.inner.items.map Valued.key) key ↔ Has initSpans key) ∧
      ∀ key v, At f.inner.items key v → IsJoin init merged key v := by
  constructor
  · rintro ⟨hasc, hhas, hvalue, hidx, -⟩
    refine ⟨⟨hasc, hidx⟩, hhas, ?_⟩
    rintro key v ⟨x, hx, hk, rfl⟩
    exact hvalue x hx key hk
  · rintro ⟨h, hhas, hvalues⟩
    exact ⟨h.disjoint, hhas, fun x hx key hk => hvalues key x.value ⟨x, hx, hk, rfl⟩, h.mem_valueIdx, h.minValue⟩

theorem checkpoint_init {initSpans : List (Span K)} (hinit : ∀ r ∈ initSpans, r.NonEmpty) (init : ℕ) :
    Checkpoint initSpans init [] (sortedFullWith lib idxLib initSpans init) := by
  obtain ⟨hsound, hat⟩ := @sortedFullWith_spec _ _ _ lib idxLib _ hinit init
  refine checkpoint_iff.mpr ⟨hsound, fun key => ?_, fun key v hv => ?_⟩
  · rw [has_iff_at]
    constructor
    · rintro ⟨v, hv⟩
      exact ((hat key v).mp hv).1
    · exact fun hkey => ⟨init, (hat key init).mpr ⟨hkey, rfl⟩⟩
  · rw [((hat key v).mp hv).2]
    refine ⟨.inl rfl, ?_⟩
    rintro u (hu | ⟨item, hitem, -⟩)
    · exact hu.le
    · cases hitem

theorem Checkpoint.merge {initSpans : List (Span K)} {init : ℕ} {merged : List (Valued K)}
    {f : ValueSortedFull lib idxLib} (h : Checkpoint initSpans init merged f)
    (hval : val.key.NonEmpty ∨ ∀ x ∈ f.inner.items, ¬ Spans x.key val.key) :
    Checkpoint initSpans init (merged ++ [val]) (f.merge val) := by
  obtain ⟨hsound, hhas, hvalues⟩ := checkpoint_iff.mp h
  apply checkpoint_iff.mpr
  by_cases hne : val.key.NonEmpty
  · obtain ⟨hsound', hat⟩ := hsound.merge hne
    refine ⟨hsound', fun key => ?_, fun key v hv => ?_⟩
    · rw [← hhas key, has_iff_at, has_iff_at]
      constructor
      · rintro ⟨v, hv⟩
        obtain ⟨w, hw, -⟩ := (hat key v).mp hv
        exact ⟨w, hw⟩
      · rintro ⟨w, hw⟩
        exact ⟨_, (hat key _).mpr ⟨w, hw, rfl⟩⟩
    · obtain ⟨w, hw, rfl⟩ := (hat key v).mp hv
      exact isJoin_append (hvalues key w hw) val
  · -- nothing is done for an empty span, which has no key
    rw [merge_of_not_spans hne (hval.resolve_left hne)]
    refine ⟨hsound, hhas, fun key v hv => ?_⟩
    have hnot : ¬ val.key.Contains key := fun hk => hne (hk.2.imp_left hk.1.trans_lt)
    have hjoin := isJoin_append (hvalues key v hv) val
    rwa [mergedValue, if_neg hnot] at hjoin

/-- After any merges of which none is that of an empty span inside of a stored one. -/
theorem mergeAll_spec (lib : StartLib K) (idxLib : ValueLib K) (initSpans : List (Span K)) (init : ℕ)
    (merged : List (Valued K)) (hinit : ∀ r ∈ initSpans, r.NonEmpty)
    (hmerged : Harmless (sortedFullWith lib idxLib initSpans init) merged) :
    Checkpoint initSpans init merged ((sortedFullWith lib idxLib initSpans init).mergeAll merged) := by
  induction merged using reverseRecOn with
  | nil => exact checkpoint_init hinit init
  | append_singleton merged val ih =>
    obtain ⟨hmerged, hval⟩ := harmless_append.mp hmerged
    have hstep : (sortedFullWith lib idxLib initSpans init).mergeAll (merged ++ [val]) =
        ((sortedFullWith lib idxLib initSpans init).mergeAll merged).merge val := foldl_append
    rw [hstep]
    exact (ih hmerged).merge hval

section Bytes

open scoped ByteOrder

/-- A span over the gap between two others, and an empty span where one of them ends. -/
theorem mergeAll_across :
    let f := sortedFullWith (sortedList _) (sortedList _) [⟨[1], [4]⟩, ⟨[6], ([] : List UInt8)⟩] 1
    let g := f.mergeAll [⟨⟨[2], [7]⟩, 5⟩, ⟨⟨[4], [4]⟩, 9⟩]
    g.inner.items = [⟨⟨[1], [2]⟩, 1⟩, ⟨⟨[2], [4]⟩, 5⟩, ⟨⟨[6], [7]⟩, 5⟩, ⟨⟨[7], []⟩, 1⟩] ∧ g.minValue = some 1 := by
  intro f g
  have hg : Checkpoint _ _ _ g := mergeAll_spec _ _ _ _ _ (by unfold KeyRange.NonEmpty; decide)
    ⟨.inl (.inl (by decide)), .inr (by decide), trivial⟩
  exact ⟨by decide, hg.minValue.trans (by decide)⟩

/-- An empty span merged inside of a stored one stays in the index by value: after the whole has got the value 9,
`MinValue` is 7. An empty initial span ends the walk: the merge of `[5, 8)` does not reach the key 7. -/
theorem mergeAll_empty_span :
    let f := (sortedFullWith (sortedList _) (sortedList _) [⟨[1], ([9] : List UInt8)⟩] 1).mergeAll
      [⟨⟨[5], [5]⟩, 7⟩, ⟨⟨[1], [9]⟩, 9⟩]
    let g := (sortedFullWith (sortedList _) (sortedList _) [⟨[5], [5]⟩, ⟨[7], ([9] : List UInt8)⟩] 1).mergeAll
      [⟨⟨[5], [8]⟩, 7⟩]
    (f.inner.items = [⟨⟨[1], [9]⟩, 9⟩] ∧ f.valueIdx.items = [⟨⟨[5], [5]⟩, 7⟩, ⟨⟨[1], [9]⟩, 9⟩] ∧
      f.minValue = some 7) ∧
    g.inner.items = [⟨⟨[5], [5]⟩, 1⟩, ⟨⟨[7], [9]⟩, 1⟩] := by
  decide

end Bytes

end Br
