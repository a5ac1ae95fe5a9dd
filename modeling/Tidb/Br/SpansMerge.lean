import Tidb.Br.Spans

/-!
# Merging a span

A merge cuts the overlapped spans at the ends of the new one and joins neighbours of equal value.  The spans that it
puts into the tree have the keys of the overlapped ones, and at each key the value that the merge is for.
-/

universe u

namespace Br

open KeyRange BTree List Br.Valued

variable {K : Type u} [LinearOrder K] [OrderBot K]

/-! ## Comparing keys -/

theorem overlaps_eq_true {a b : Span K} (ha : a.NonEmpty) (hb : b.NonEmpty) : overlaps a b = true ↔ a.Overlaps b := by
  rw [overlaps_iff ha hb]
  unfold overlaps
  by_cases hbend : b.endKey = ⊥
  · simp [hbend, or_comm]
  · by_cases haend : a.endKey = ⊥
    · simp [hbend, haend]
    · simp [hbend, haend, and_comm]

theorem compareBytesExt_eq_gt {a b : K} : compareBytesExt a true b true = .gt ↔ b ≠ ⊥ ∧ (a = ⊥ ∨ b < a) := by
  unfold compareBytesExt
  by_cases ha : a = ⊥
  · by_cases hb : b = ⊥ <;> simp [ha]
  · by_cases hb : b = ⊥
    · simp [ha, hb]
    · simp [ha, hb, compare_gt_iff_gt]

theorem compareBytesExt_eq_eq {a b : K} : compareBytesExt a true b false = .eq ↔ a ≠ ⊥ ∧ a = b := by
  unfold compareBytesExt
  by_cases ha : a = ⊥
  · simp [ha]
  · simp [ha]

theorem join_eq_max (a b : ℕ) : join a b = max a b := by
  unfold join
  split <;> omega

/-! ## Values at keys -/

def At (l : List (Valued K)) (k : K) (v : ℕ) : Prop := ∃ x ∈ l, x.key.Contains k ∧ x.value = v

def mergedValue (val : Valued K) (k : K) (w : ℕ) : ℕ := if val.key.Contains k then join val.value w else w

variable {l l₁ l₂ : List (Valued K)} {k : K} {v : ℕ} {x c val : Valued K}

theorem at_cons : At (x :: l) k v ↔ x.key.Contains k ∧ x.value = v ∨ At l k v := by simp [At]

@[simp] theorem at_nil : ¬ At [] k v := by simp [At]

theorem at_append : At (l₁ ++ l₂) k v ↔ At l₁ k v ∨ At l₂ k v := by simp only [At, mem_append, or_and_right, exists_or]

theorem has_iff_at : Has (l.map key) k ↔ ∃ v, At l k v := by
  constructor
  · rintro ⟨r, hr, hk⟩
    obtain ⟨x, hx, rfl⟩ := mem_map.mp hr
    exact ⟨x.value, x, hx, hk, rfl⟩
  · rintro ⟨v, x, hx, hk, -⟩
    exact ⟨x.key, mem_map_of_mem hx, hk⟩

/-! ## Joining neighbours -/

def coalesceFrom (c : Valued K) : List (Valued K) → List (Valued K)
  | [] => [c]
  | x :: rest =>
    if x.value = c.value ∧ compareBytesExt c.key.endKey true x.key.startKey false = .eq then
      coalesceFrom { c with key.endKey := x.key.endKey } rest
    else c :: coalesceFrom x rest

def emittedValue (value : ℕ) (emitted : Valued K × Bool) : Valued K :=
  { emitted.1 with value := if emitted.2 then emitted.1.value else join value emitted.1.value }

omit [LinearOrder K] [OrderBot K] in
theorem map_emittedValue_true (value : ℕ) (l : List (Valued K)) : (l.map (·, true)).map (emittedValue value) = l := by
  rw [map_map]
  exact map_id l

omit [LinearOrder K] [OrderBot K] in
theorem map_emittedValue_false (value : ℕ) (l : List (Valued K)) :
    (l.map (·, false)).map (emittedValue value) = l.map fun x => { x with value := join value x.value } := by
  rw [map_map]
  rfl

theorem emitToCollected_some (value : ℕ) (newItems : List (Valued K)) (c : Valued K) (e : Valued K × Bool) :
    emitToCollected value ⟨newItems, some c⟩ e =
      if (emittedValue value e).value = c.value ∧
          compareBytesExt c.key.endKey true (emittedValue value e).key.startKey false = .eq then
        ⟨newItems, some { c with key.endKey := (emittedValue value e).key.endKey }⟩
      else ⟨newItems ++ [c], some (emittedValue value e)⟩ := rfl

theorem emit_collected (value : ℕ) (emitted : List (Valued K × Bool)) (newItems : List (Valued K)) (c : Valued K) :
    (emitted.foldl (emitToCollected value) ⟨newItems, some c⟩).flushCollected =
      newItems ++ coalesceFrom c (emitted.map (emittedValue value)) := by
  induction emitted generalizing newItems c with
  | nil => rfl
  | cons e emitted ih =>
    rw [foldl_cons, map_cons, coalesceFrom, emitToCollected_some]
    split
    · rw [ih]
    · rw [ih, append_assoc, singleton_append]

theorem emit_cons (value : ℕ) (e : Valued K × Bool) (emitted : List (Valued K × Bool)) :
    ((e :: emitted).foldl (emitToCollected value) ⟨[], none⟩).flushCollected =
      coalesceFrom (emittedValue value e) (emitted.map (emittedValue value)) := by
  exact emit_collected value emitted [] _

/-- Joining changes no value at a key, and leaves the start and the value of the first span as they are. -/
theorem coalesceFrom_spec (h : Ascending ((c :: l).map key)) :
    Ascending ((coalesceFrom c l).map key) ∧ (∀ k v, At (coalesceFrom c l) k v ↔ At (c :: l) k v) ∧
      ∃ x ∈ coalesceFrom c l, x.key.startKey = c.key.startKey ∧ x.value = c.value := by
  induction l generalizing c with
  | nil => exact ⟨h, fun k v => Iff.rfl, c, mem_singleton_self c, rfl, rfl⟩
  | cons x l ih =>
    obtain ⟨hc, hxl, hbefore⟩ := ascending_cons.mp h
    obtain ⟨hx, hl, hafter⟩ := ascending_cons.mp hxl
    have hcx := hbefore x.key mem_cons_self
    rw [coalesceFrom]
    by_cases hjoin : x.value = c.value ∧ compareBytesExt c.key.endKey true x.key.startKey false = .eq
    · rw [if_pos hjoin]
      obtain ⟨hvalue, htouch⟩ := hjoin
      obtain ⟨-, htouch⟩ := compareBytesExt_eq_eq.mp htouch
      have hcut : (mk c.key.startKey x.key.endKey).CutBy x.key.startKey := ⟨hcx.start_lt hc, hx⟩
      have hnonEmpty := hx.imp_left hcut.1.trans
      obtain ⟨hasc, hat, y, hy, hstart, hval⟩ :=
        @ih { c with key.endKey := x.key.endKey } (ascending_cons.mpr ⟨hnonEmpty, hl, hafter⟩)
      refine ⟨hasc, fun k v => ?_, y, hy, hstart, hval⟩
      have hckey : mk c.key.startKey x.key.startKey = c.key := by rw [← htouch]
      have hsplit := @contains_cut _ _ _ _ k _ hcut
      rw [hckey] at hsplit
      rw [hat, at_cons, at_cons, at_cons, hvalue, ← or_assoc, ← or_and_right]
      exact or_congr_left (and_congr_left fun _ => hsplit.symm)
    · rw [if_neg hjoin]
      obtain ⟨hasc, hat, -⟩ := ih hxl
      refine ⟨ascending_cons.mpr ⟨hc, hasc, fun b hb => ⟨hcx.1, ?_⟩⟩, fun k v => ?_, c, mem_cons_self, rfl, rfl⟩
      · -- a joined span starts at a key of the spans behind `c`
        have hstart : Has ((coalesceFrom x l).map key) b.startKey :=
          ⟨b, hb, (hasc.nonEmpty b hb).contains_start⟩
        obtain ⟨w, hw⟩ := has_iff_at.mp hstart
        obtain ⟨y, hy, hyk, -⟩ := (hat _ _).mp hw
        exact (hbefore y.key (mem_map_of_mem hy)).2.trans hyk.1
      · rw [at_cons, at_cons, hat]

/-! ## Cutting the overlapped spans -/

/-- Spans that are sorted and disjoint and overlap the new one. -/
structure Crossed (val : Valued K) (l : List (Valued K)) : Prop where
  ascending : Ascending (l.map Valued.key)
  overlaps : ∀ x ∈ l, x.key.Overlaps val.key

def clipStart (val x : Valued K) : Valued K :=
  if x.key.startKey < val.key.startKey then { x with key.startKey := val.key.startKey } else x

def clipEnd (val x : Valued K) : Valued K :=
  if compareBytesExt x.key.endKey true val.key.endKey true = .gt then { x with key.endKey := val.key.endKey } else x

omit [OrderBot K] in
@[simp] theorem value_clipStart : (clipStart val x).value = x.value := by
  unfold clipStart
  split <;> rfl

@[simp] theorem value_clipEnd : (clipEnd val x).value = x.value := by
  unfold clipEnd
  split <;> rfl

theorem clipStart_contains : (clipStart val x).key.Contains k ↔ x.key.Contains k ∧ val.key.startKey ≤ k := by
  unfold clipStart KeyRange.Contains
  split
  next hlt =>
    have hle : val.key.startKey ≤ k → x.key.startKey ≤ k := hlt.le.trans
    tauto
  next hge =>
    have hle : x.key.startKey ≤ k → val.key.startKey ≤ k := (not_lt.mp hge).trans
    tauto

theorem clipEnd_contains : (clipEnd val x).key.Contains k ↔
    x.key.Contains k ∧ (k < val.key.endKey ∨ val.key.endKey = ⊥) := by
  unfold clipEnd KeyRange.Contains
  split
  next hgt =>
    obtain ⟨hbot, hend⟩ := compareBytesExt_eq_gt.mp hgt
    have hlt : k < val.key.endKey → k < x.key.endKey ∨ x.key.endKey = ⊥ := fun hk =>
      hend.symm.imp_left hk.trans
    tauto
  next hgt =>
    rw [compareBytesExt_eq_gt, not_and_or, not_not, not_or, not_lt] at hgt
    have hlt : k < x.key.endKey ∨ x.key.endKey = ⊥ → k < val.key.endKey ∨ val.key.endKey = ⊥ := by
      intro hk
      rcases hgt with hbot | ⟨hbot, hle⟩
      · exact .inr hbot
      · exact .inl ((hk.resolve_right hbot).trans_le hle)
    tauto

theorem clipStart_inside : (clipStart val x).key.Inside x.key := by
  unfold clipStart
  split
  next hlt => exact ⟨hlt.le, (Inside.refl x.key).2⟩
  next => exact .refl _

theorem clipEnd_inside : (clipEnd val x).key.Inside x.key := by
  unfold clipEnd
  split
  next hgt =>
    obtain ⟨hbot, hend⟩ := compareBytesExt_eq_gt.mp hgt
    exact ⟨le_refl _, hend.imp_right fun hlt => ⟨hbot, hlt.le⟩⟩
  next => exact .refl _

theorem Crossed.start_le (h : Crossed val (x :: l)) {y : Valued K} (hy : y ∈ l) :
    val.key.startKey < y.key.startKey := by
  obtain ⟨-, -, hbefore⟩ := ascending_cons.mp h.ascending
  have hxy := hbefore y.key (mem_map_of_mem hy)
  obtain ⟨k, hxk, hk⟩ := h.overlaps x mem_cons_self
  exact (hk.1.trans_lt (hxk.2.resolve_right hxy.1)).trans_le hxy.2

theorem cutLeft_snd (h : Crossed val l) : (cutLeft val l).2 = l.map (clipStart val) := by
  cases l with
  | nil => rfl
  | cons x l =>
    have hrest : l.map (clipStart val) = l.map id :=
      map_congr_left fun y hy => if_neg (h.start_le hy).not_gt
    rw [map_cons, hrest, map_id]
    unfold cutLeft clipStart
    dsimp only
    split <;> rfl

theorem at_cutLeft_fst (h : Crossed val l) : At (cutLeft val l).1.toList k v ↔ At l k v ∧ k < val.key.startKey := by
  cases l with
  | nil => simp [cutLeft]
  | cons x l =>
    have hrest : At l k v → ¬ k < val.key.startKey := by
      rintro ⟨y, hy, hk, -⟩
      exact ((h.start_le hy).trans_le hk.1).not_gt
    obtain ⟨m, hxm, hm⟩ := h.overlaps x mem_cons_self
    unfold cutLeft
    dsimp only
    rw [at_cons]
    by_cases hlt : x.key.startKey < val.key.startKey
    · have hbot : val.key.startKey ≠ ⊥ := (bot_le.trans_lt hlt).ne'
      rw [if_pos hlt]
      show At [_] k v ↔ _
      rw [at_cons]
      simp only [at_nil, or_false]
      constructor
      · rintro ⟨⟨hle, hk⟩, hv⟩
        have hk := hk.resolve_right hbot
        exact ⟨.inl ⟨hxm.of_le hle (hk.le.trans hm.1), hv⟩, hk⟩
      · rintro ⟨⟨hxk, hv⟩ | hl, hk⟩
        · exact ⟨⟨hxk.1, .inl hk⟩, hv⟩
        · exact absurd hk (hrest hl)
    · rw [if_neg hlt]
      show At [] k v ↔ _
      simp only [at_nil, false_iff]
      rintro ⟨⟨hxk, -⟩ | hl, hk⟩
      · exact hlt (hxk.1.trans_lt hk)
      · exact hrest hl hk

theorem cutLeft_fst_key (h : Crossed val l) {a : Valued K} (ha : a ∈ (cutLeft val l).1) :
    a.key.NonEmpty ∧ val.key.startKey ≠ ⊥ ∧ a.key.endKey = val.key.startKey := by
  cases l with
  | nil => cases ha
  | cons x l =>
    unfold cutLeft at ha
    dsimp only at ha
    split at ha
    next hlt =>
      cases ha
      exact ⟨.inl hlt, (bot_le.trans_lt hlt).ne', rfl⟩
    next => cases ha

/-- What the spans have to be for the cut at the end of the new one. -/
structure StartInside (val : Valued K) (l : List (Valued K)) : Prop where
  before : (l.map Valued.key).Pairwise Before
  start_lt : ∀ x ∈ l, x.key.startKey < val.key.endKey ∨ val.key.endKey = ⊥

theorem StartInside.of_cons (h : StartInside val (x :: l)) : StartInside val l :=
  ⟨(pairwise_cons.mp h.before).2, fun y hy => h.start_lt y (mem_cons_of_mem x hy)⟩

theorem StartInside.end_le {y : Valued K} (h : StartInside val (x :: y :: l)) :
    x.key.endKey ≠ ⊥ ∧ (x.key.endKey < val.key.endKey ∨ val.key.endKey = ⊥) := by
  have hxy := (pairwise_cons.mp h.before).1 y.key mem_cons_self
  exact ⟨hxy.1, (h.start_lt y (by simp)).imp_left hxy.2.trans_lt⟩

theorem cutRight_snd (h : StartInside val l) : (cutRight val l).2 = l.map (clipEnd val) := by
  fun_induction cutRight val l with
  | case1 => rfl
  | case2 x hgt => rw [map_singleton, clipEnd, if_pos hgt]
  | case3 x hgt => rw [map_singleton, clipEnd, if_neg hgt]
  | case4 x l hl ih =>
    cases l with
    | nil => exact absurd rfl hl
    | cons y l =>
      obtain ⟨hbot, hend⟩ := h.end_le
      have hkeep : ¬ compareBytesExt x.key.endKey true val.key.endKey true = .gt := by
        rw [compareBytesExt_eq_gt]
        rintro ⟨hval, hx | hx⟩
        · exact hbot hx
        · exact hx.asymm (hend.resolve_right hval)
      rw [map_cons, ih h.of_cons, clipEnd, if_neg hkeep]

theorem at_cutRight_fst (h : StartInside val l) :
    At (cutRight val l).1.toList k v ↔ At l k v ∧ val.key.endKey ≠ ⊥ ∧ val.key.endKey ≤ k := by
  fun_induction cutRight val l with
  | case1 => simp
  | case2 x hgt =>
    obtain ⟨hbot, hend⟩ := compareBytesExt_eq_gt.mp hgt
    have hstart := (h.start_lt x mem_cons_self).resolve_right hbot
    show At [_] k v ↔ _
    simp only [at_cons, at_nil, or_false]
    constructor
    · rintro ⟨⟨hle, hk⟩, hv⟩
      exact ⟨⟨⟨hstart.le.trans hle, hk⟩, hv⟩, hbot, hle⟩
    · rintro ⟨⟨hk, hv⟩, -, hle⟩
      exact ⟨⟨hle, hk.2⟩, hv⟩
  | case3 x hgt =>
    rw [compareBytesExt_eq_gt, not_and_or, not_not, not_or, not_lt] at hgt
    show At [] k v ↔ _
    simp only [at_cons, at_nil, or_false, false_iff]
    rintro ⟨⟨hk, -⟩, hbot, hle⟩
    obtain ⟨hxbot, hxle⟩ := hgt.resolve_left hbot
    exact absurd ((hk.2.resolve_right hxbot).trans_le hxle) hle.not_gt
  | case4 x l hl ih =>
    cases l with
    | nil => exact absurd rfl hl
    | cons y l =>
      obtain ⟨hxbot, hend⟩ := h.end_le
      rw [ih h.of_cons]
      constructor
      · rintro ⟨hk, hrest⟩
        exact ⟨at_cons.mpr (.inr hk), hrest⟩
      · rintro ⟨hk, hbot, hle⟩
        rcases at_cons.mp hk with ⟨hk, -⟩ | hk
        · exact absurd ((hk.2.resolve_right hxbot).trans (hend.resolve_right hbot)) hle.not_gt
        · exact ⟨hk, hbot, hle⟩

theorem cutRight_fst_key {a : Valued K} (ha : a ∈ (cutRight val l).1) :
    a.key.NonEmpty ∧ a.key.startKey = val.key.endKey ∧ val.key.endKey ≠ ⊥ := by
  fun_induction cutRight val l with
  | case1 => cases ha
  | case2 x hgt =>
    obtain ⟨hbot, hend⟩ := compareBytesExt_eq_gt.mp hgt
    cases ha
    exact ⟨hend.symm, rfl, hbot⟩
  | case3 x hgt => cases ha
  | case4 x l hl ih => exact ih ha

/-! ## The pieces -/

def pieces (val : Valued K) (overlapped : List (Valued K)) : List (Valued K) :=
  (cutLeft val overlapped).1.toList ++
    ((overlapped.map (clipStart val)).map (clipEnd val)).map (fun x => { x with value := join val.value x.value }) ++
    (cutRight val (overlapped.map (clipStart val))).1.toList

theorem clip_contains : (clipEnd val (clipStart val x)).key.Contains k ↔ x.key.Contains k ∧ val.key.Contains k := by
  rw [clipEnd_contains, clipStart_contains, and_assoc]
  rfl

theorem clip_inside : (clipEnd val (clipStart val x)).key.Inside val.key := by
  have hstart : val.key.startKey ≤ (clipStart val x).key.startKey := by
    unfold clipStart
    split
    next => exact le_refl _
    next hge => exact not_lt.mp hge
  unfold clipEnd
  split
  next hgt =>
    obtain ⟨hbot, -⟩ := compareBytesExt_eq_gt.mp hgt
    exact ⟨hstart, .inr ⟨hbot, le_refl _⟩⟩
  next hgt =>
    rw [compareBytesExt_eq_gt, not_and_or, not_not, not_or, not_lt] at hgt
    exact ⟨hstart, hgt⟩

theorem Crossed.startInside (h : Crossed val l) : StartInside val (l.map (clipStart val)) := by
  constructor
  · have hbefore := h.ascending.before
    rw [pairwise_map] at hbefore
    rw [pairwise_map, pairwise_map]
    exact hbefore.imp fun hxy => hxy.of_inside clipStart_inside clipStart_inside
  · intro y hy
    obtain ⟨x, hx, rfl⟩ := mem_map.mp hy
    obtain ⟨k, hxk, hk⟩ := h.overlaps x hx
    have hstart : (clipStart val x).key.startKey ≤ k := (clipStart_contains.mpr ⟨hxk, hk.1⟩).1
    exact hk.2.imp_left hstart.trans_lt

theorem at_middle : At (((l.map (clipStart val)).map (clipEnd val)).map
      (fun x => { x with value := join val.value x.value })) k v ↔
    ∃ w, At l k w ∧ val.key.Contains k ∧ v = join val.value w := by
  unfold At
  simp only [mem_map, exists_exists_and_eq_and, clip_contains, value_clipEnd, value_clipStart]
  constructor
  · rintro ⟨x, hx, ⟨hxk, hk⟩, rfl⟩
    exact ⟨x.value, ⟨x, hx, hxk, rfl⟩, hk, rfl⟩
  · rintro ⟨w, ⟨x, hx, hxk, rfl⟩, hk, rfl⟩
    exact ⟨x, hx, ⟨hxk, hk⟩, rfl⟩

theorem at_pieces (h : Crossed val l) : At (pieces val l) k v ↔ ∃ w, At l k w ∧ v = mergedValue val k w := by
  have hclipped : At (l.map (clipStart val)) k v ↔ At l k v ∧ val.key.startKey ≤ k := by
    unfold At
    simp only [mem_map, exists_exists_and_eq_and, clipStart_contains, value_clipStart]
    constructor
    · rintro ⟨x, hx, ⟨hxk, hk⟩, hv⟩
      exact ⟨⟨x, hx, hxk, hv⟩, hk⟩
    · rintro ⟨⟨x, hx, hxk, hv⟩, hk⟩
      exact ⟨x, hx, ⟨hxk, hk⟩, hv⟩
  unfold pieces mergedValue
  rw [at_append, at_append, at_cutLeft_fst h, at_middle, at_cutRight_fst h.startInside, hclipped]
  constructor
  · rintro ((⟨hv, hlt⟩ | ⟨w, hw, hk, rfl⟩) | ⟨⟨hv, -⟩, hbot, hle⟩)
    · exact ⟨v, hv, (if_neg fun hk => hk.1.not_gt hlt).symm⟩
    · exact ⟨w, hw, (if_pos hk).symm⟩
    · exact ⟨v, hv, (if_neg fun hk => hle.not_gt (hk.2.resolve_right hbot)).symm⟩
  · rintro ⟨w, hw, hv⟩
    by_cases hk : val.key.Contains k
    · rw [if_pos hk] at hv
      exact .inl (.inr ⟨w, hw, hk, hv⟩)
    · rw [if_neg hk] at hv
      subst hv
      -- a key outside of the new span is before it or behind it
      rcases lt_or_ge k val.key.startKey with hlt | hge
      · exact .inl (.inl ⟨hw, hlt⟩)
      · have hout : ¬ (k < val.key.endKey ∨ val.key.endKey = ⊥) := fun hin => hk ⟨hge, hin⟩
        rw [not_or, not_lt] at hout
        exact .inr ⟨⟨hw, hge⟩, hout.2, hout.1⟩

theorem ascending_toList {o : Option (Valued K)} (h : ∀ a ∈ o, a.key.NonEmpty) :
    Ascending (o.toList.map key) := by
  cases o with
  | none => exact .nil
  | some a => exact ascending_cons.mpr ⟨h a rfl, .nil, by simp⟩

theorem ascending_middle (h : Crossed val l) : Ascending ((((l.map (clipStart val)).map (clipEnd val)).map
      (fun x => { x with value := join val.value x.value })).map key) := by
  have hbefore := h.ascending.before
  simp only [map_map]
  constructor
  · rw [forall_mem_map]
    intro x hx
    obtain ⟨k, hxk, hk⟩ := h.overlaps x hx
    have hclip := @clip_contains _ _ _ k x val |>.mpr ⟨hxk, hk⟩
    exact hclip.2.imp_left hclip.1.trans_lt
  · rw [pairwise_map] at hbefore ⊢
    exact hbefore.imp fun hxy =>
      hxy.of_inside (clipEnd_inside.trans clipStart_inside) (clipEnd_inside.trans clipStart_inside)

theorem ascending_pieces (h : Crossed val l) (hval : val.key.NonEmpty) : Ascending ((pieces val l).map key) := by
  have hmiddle : ∀ b ∈ (((l.map (clipStart val)).map (clipEnd val)).map
      (fun x => { x with value := join val.value x.value })).map key, b.Inside val.key := by
    simp only [forall_mem_map]
    exact fun x _ => clip_inside
  unfold pieces
  rw [map_append, map_append, ascending_append, ascending_append]
  refine ⟨⟨ascending_toList fun a ha => (cutLeft_fst_key h ha).1, ascending_middle h, ?_⟩,
    ascending_toList fun a ha => (cutRight_fst_key ha).1, ?_⟩
  · intro a ha b hb
    obtain ⟨x, hx, rfl⟩ := mem_map.mp ha
    obtain ⟨-, hbot, hend⟩ := cutLeft_fst_key h (Option.mem_toList.mp hx)
    rw [← hend] at hbot
    exact ⟨hbot, hend.le.trans (hmiddle b hb).1⟩
  · intro a ha b hb
    obtain ⟨y, hy, rfl⟩ := mem_map.mp hb
    obtain ⟨-, hstart, hbot⟩ := cutRight_fst_key (Option.mem_toList.mp hy)
    rw [Before, hstart]
    rcases mem_append.mp ha with ha | ha
    · obtain ⟨x, hx, rfl⟩ := mem_map.mp ha
      obtain ⟨-, hbot', hend⟩ := cutLeft_fst_key h (Option.mem_toList.mp hx)
      rw [hend]
      exact ⟨hbot', (hval.resolve_right hbot).le⟩
    · exact (hmiddle a ha).2.resolve_left hbot

/-! ## What a merge puts into the tree -/

theorem head_pieces (hlt : x.key.startKey < val.key.startKey) :
    ∃ p, (pieces val (x :: l)).head? = some p ∧ p.key.startKey = x.key.startKey ∧ p.value = x.value := by
  unfold pieces cutLeft
  dsimp only
  rw [if_pos hlt]
  exact ⟨_, rfl, rfl, rfl⟩

theorem flushCollected_spec {value : ℕ} {emitted : List (Valued K × Bool)}
    (h : Ascending ((emitted.map (emittedValue value)).map key)) {newItems : List (Valued K)}
    (hnew : newItems = (emitted.foldl (emitToCollected value) ⟨[], none⟩).flushCollected) :
    Ascending (newItems.map key) ∧ (∀ k v, At newItems k v ↔ At (emitted.map (emittedValue value)) k v) ∧
      ∀ p, (emitted.map (emittedValue value)).head? = some p →
        ∃ y ∈ newItems, y.key.startKey = p.key.startKey ∧ y.value = p.value := by
  cases emitted with
  | nil =>
    rw [hnew]
    refine ⟨.nil, fun k v => Iff.rfl, fun p hp => ?_⟩
    cases hp
  | cons e emitted =>
    rw [emit_cons] at hnew
    obtain ⟨hasc, hat, hhead⟩ := coalesceFrom_spec h
    rw [hnew]
    refine ⟨hasc, hat, fun p hp => ?_⟩
    cases hp
    exact hhead

/-- The spans that are put into the tree for the overlapped ones, and these as they are cut. -/
structure Replacement (val : Valued K) (overlapped cut newItems : List (Valued K)) : Prop where
  ascending : Ascending (newItems.map Valued.key)
  at_iff : ∀ k v, At newItems k v ↔ ∃ w, At overlapped k w ∧ v = mergedValue val k w
  cut_start : ∀ o ∈ cut, Has (overlapped.map Valued.key) o.key.startKey
  entry : ∀ x ∈ overlapped, (∃ o ∈ cut, o.key.startKey = x.key.startKey ∧ o.value = x.value) ∨
    ∃ y ∈ newItems, y.key.startKey = x.key.startKey ∧ y.value = x.value

theorem mergeWithOverlap_spec (h : Crossed val l) (hval : val.key.NonEmpty) (hl : l ≠ [])
    {lib : StartLib K} (inner : ValuedFull lib) :
    ∃ cut newItems, mergeWithOverlap inner val l = ((inner.deleteAll l).insertAll newItems, cut, newItems) ∧
      Replacement val l cut newItems := by
  unfold mergeWithOverlap
  rw [if_neg hl]
  refine ⟨(cutRight val (cutLeft val l).2).2, _, rfl, ?_⟩
  have hemitted : ((cutLeft val l).1.toList.map (·, true) ++ (cutRight val (cutLeft val l).2).2.map (·, false) ++
      (cutRight val (cutLeft val l).2).1.toList.map (·, true)).map (emittedValue val.value) = pieces val l := by
    rw [cutLeft_snd h, cutRight_snd h.startInside, map_append, map_append, map_emittedValue_true,
      map_emittedValue_false, map_emittedValue_true]
    rfl
  have hascending := ascending_pieces h hval
  rw [← hemitted] at hascending
  obtain ⟨hasc, hat, hhead⟩ := flushCollected_spec hascending rfl
  rw [hemitted] at hat hhead
  refine ⟨hasc, fun k v => (hat k v).trans (at_pieces h), ?_, ?_⟩
  · rw [cutLeft_snd h, cutRight_snd h.startInside, map_map, forall_mem_map]
    intro x hx
    obtain ⟨k, hxk, hk⟩ := h.overlaps x hx
    have hclip := (clip_contains (x := x)).mpr ⟨hxk, hk⟩
    have hstart := (clip_contains (x := x)).mp ⟨le_refl _, hclip.2.imp_left hclip.1.trans_lt⟩
    exact ⟨x.key, mem_map_of_mem hx, hstart.1⟩
  · intro x hx
    by_cases hlt : x.key.startKey < val.key.startKey
    · -- only the first span starts before the new one
      right
      cases l with
      | nil => cases hx
      | cons x₀ l =>
        have hfirst : x = x₀ := by
          rcases mem_cons.mp hx with rfl | hx
          · rfl
          · exact absurd hlt (h.start_le hx).not_gt
        subst hfirst
        obtain ⟨p, hp, hpstart, hpvalue⟩ := @head_pieces _ _ _ l x val hlt
        obtain ⟨y, hy, hystart, hyvalue⟩ := hhead p hp
        exact ⟨y, hy, hystart.trans hpstart, hyvalue.trans hpvalue⟩
    · left
      rw [cutLeft_snd h, cutRight_snd h.startInside, map_map]
      refine ⟨_, mem_map_of_mem hx, ?_, ?_⟩
      · show (clipEnd val (clipStart val x)).key.startKey = x.key.startKey
        rw [clipStart, if_neg hlt]
        unfold clipEnd
        split <;> rfl
      · show (clipEnd val (clipStart val x)).value = x.value
        rw [value_clipEnd, value_clipStart]

end Br
