import Mathlib.Data.Prod.Lex
import Mathlib.Tactic

/-!
# Points of ranges (`util/ranger/points.go`)

A condition on a column is a list of points, a start and an end in turn.  Two lists are merged in order, and a sweep
that counts the open ranges keeps the points where their union or intersection starts or ends.  A value has its place
between the inclusive starts and ends at it: it is in the ranges if one more start than ends are in front.
-/

universe u v w

namespace Tidb.Ranger

open List

structure Point (α : Type u) where
  value : α
  excl : Bool
  start : Bool
  deriving DecidableEq

structure Column (α : Type u) (ε : Type v) where
  isEnum : α → Bool
  getInt64 : α → ℤ
  compare : α → α → Except ε Ordering

variable {α : Type u} {ε : Type v}

def rangePointEqualValueLess (a b : Point α) : Bool :=
  if a.start && b.start then !a.excl && b.excl
  else if a.start then !a.excl && !b.excl
  else if b.start then a.excl || b.excl
  else a.excl && !b.excl

def lessBy (o : Ordering) (a b : Point α) : Bool :=
  match o with
  | .lt => true
  | .gt => false
  | .eq => rangePointEqualValueLess a b

def rangePointEnumLess (c : Column α ε) (a b : Point α) : Bool :=
  lessBy (compareOfLessAndEq (c.getInt64 a.value) (c.getInt64 b.value)) a b

def rangePointLess (c : Column α ε) (a b : Point α) : Except ε Bool :=
  if c.isEnum a.value && c.isEnum b.value then .ok (rangePointEnumLess c a b)
  else (c.compare a.value b.value).map fun o => lessBy o a b

def mergeSorted (c : Column α ε) : List (Point α) → List (Point α) → Except ε (List (Point α))
  | [], b => .ok b
  | p :: a, [] => .ok (p :: a)
  | p :: a, q :: b =>
    match rangePointLess c p q with
    | .error e => .error e
    | .ok true => (mergeSorted c a (q :: b)).map (p :: ·)
    | .ok false => (mergeSorted c (p :: a) b).map (q :: ·)
termination_by a b => a.length + b.length

/-- The loop over `mergedPoints`, which it overwrites from the front. -/
def mergeLoop (requiredInRangeCount : ℤ) : ℕ → List (Point α) → ℕ → ℕ → ℤ → List (Point α) × ℕ
  | 0, mergedPoints, _, curTail, _ => (mergedPoints, curTail)
  | n + 1, mergedPoints, i, curTail, inRangeCount =>
    match mergedPoints[i]? with
    | none => (mergedPoints, curTail)
    | some val =>
      if val.start then
        if inRangeCount + 1 = requiredInRangeCount then
          mergeLoop requiredInRangeCount n (mergedPoints.set curTail val) (i + 1) (curTail + 1)
            (inRangeCount + 1)
        else mergeLoop requiredInRangeCount n mergedPoints (i + 1) curTail (inRangeCount + 1)
      else
        if inRangeCount = requiredInRangeCount then
          mergeLoop requiredInRangeCount n (mergedPoints.set curTail val) (i + 1) (curTail + 1)
            (inRangeCount - 1)
        else mergeLoop requiredInRangeCount n mergedPoints (i + 1) curTail (inRangeCount - 1)

def merge (c : Column α ε) (a b : List (Point α)) (union : Bool) : Except ε (List (Point α)) :=
  (mergeSorted c a b).map fun mergedPoints =>
    let (mergedPoints, curTail) :=
      mergeLoop (if union then 1 else 2) mergedPoints.length mergedPoints 0 0 0
    mergedPoints.take curTail

def intersection (c : Column α ε) (a b : List (Point α)) : Except ε (List (Point α)) :=
  merge c a b false

def union (c : Column α ε) (a b : List (Point α)) : Except ε (List (Point α)) :=
  merge c a b true

/-! ## The sweep -/

def Point.step (p : Point α) : ℤ := if p.start then 1 else -1

open Point

theorem Point.step_cases (p : Point α) : p.start = true ∧ p.step = 1 ∨ p.start = false ∧ p.step = -1 := by
  unfold step
  cases p.start
  · exact .inr ⟨rfl, rfl⟩
  · exact .inl ⟨rfl, rfl⟩

def depth (pts : List (Point α)) : ℤ := (pts.map Point.step).sum

@[simp] theorem depth_nil : depth ([] : List (Point α)) = 0 := rfl

@[simp] theorem depth_cons (p : Point α) (pts : List (Point α)) : depth (p :: pts) = p.step + depth pts :=
  sum_cons

theorem depth_append (xs ys : List (Point α)) : depth (xs ++ ys) = depth xs + depth ys := by
  rw [depth, map_append, sum_append]
  rfl

theorem depth_perm {xs ys : List (Point α)} (h : xs.Perm ys) : depth xs = depth ys :=
  (h.map step).sum_eq

def sweep (required : ℤ) : ℤ → List (Point α) → List (Point α)
  | _, [] => []
  | count, p :: pts =>
    if max count (count + p.step) = required then p :: sweep required (count + p.step) pts
    else sweep required (count + p.step) pts

theorem mergeLoop_eq (required : ℤ) {n : ℕ} {pts : List (Point α)} {i tail : ℕ} {count : ℤ}
    (hn : pts.length ≤ i + n) (htail : tail ≤ i) :
    (mergeLoop required n pts i tail count).1.take (mergeLoop required n pts i tail count).2 =
      pts.take tail ++ sweep required count (pts.drop i) := by
  induction n generalizing pts i tail count with
  | zero => rw [mergeLoop, drop_eq_nil_of_le (show pts.length ≤ i from hn), sweep, append_nil]
  | succ n ih =>
    rw [mergeLoop]
    cases hval : pts[i]? with
    | none => rw [drop_eq_nil_of_le (getElem?_eq_none_iff.mp hval), sweep, append_nil]
    | some val =>
      obtain ⟨hi, rfl⟩ := List.getElem?_eq_some_iff.mp hval
      have hskip := fun count => @ih pts (i + 1) tail count (by omega) (by omega)
      -- the point is written in front of the ones that are still to be read
      have hkeep := fun count => @ih (pts.set tail pts[i]) (i + 1) (tail + 1) count
        (by rw [length_set]; omega) (by omega)
      have htake : (pts.set tail pts[i]).take (tail + 1) = pts.take tail ++ [pts[i]] := by
        rw [take_succ_eq_append_getElem (by rw [length_set]; omega), getElem_set_self, take_set_of_le le_rfl]
      have hdrop : (pts.set tail pts[i]).drop (i + 1) = pts.drop (i + 1) := by rw [drop_set_of_lt (by omega)]
      simp only [htake, hdrop, append_assoc] at hkeep
      rw [drop_eq_getElem_cons hi, sweep]
      rcases pts[i].step_cases with ⟨hs, hstep⟩ | ⟨hs, hstep⟩
      · simp only [hs, hstep, if_true, show max count (count + 1) = count + 1 by omega]
        split
        · exact hkeep _
        · exact hskip _
      · simp only [hs, hstep, Bool.false_eq_true, if_false, show max count (count + -1) = count by omega]
        split
        · exact hkeep _
        · exact hskip _

theorem sweep_sublist (required count : ℤ) (pts : List (Point α)) : (sweep required count pts).Sublist pts := by
  induction pts generalizing count with
  | nil => exact List.Sublist.refl _
  | cons p pts ih =>
    rw [sweep]
    split
    · exact (ih _).cons_cons p
    · exact (ih _).cons p

/-- The points are a start and an end in turn; `inRange` says whether a range is open in front of them. -/
def Alternating : Bool → List (Point α) → Prop
  | inRange, [] => inRange = false
  | inRange, p :: pts => p.start = !inRange ∧ Alternating (!inRange) pts

theorem Point.kept_iff (p : Point α) (required count : ℤ) :
    (max count (count + p.step) = required ∧ p.start = !decide (required ≤ count) ∧
      decide (required ≤ count + p.step) = !decide (required ≤ count) ∧
      (if required ≤ count then 1 else 0) + p.step = if required ≤ count + p.step then 1 else 0) ∨
    (max count (count + p.step) ≠ required ∧
      decide (required ≤ count + p.step) = decide (required ≤ count)) := by
  rcases p.step_cases with ⟨hp, hstep⟩ | ⟨hp, hstep⟩ <;> rw [hp] <;> grind

theorem alternating_sweep {required count : ℤ} {pts : List (Point α)} (h : count + depth pts < required) :
    Alternating (decide (required ≤ count)) (sweep required count pts) := by
  induction pts generalizing count with
  | nil => exact decide_eq_false (by simpa using h)
  | cons p pts ih =>
    rw [depth_cons, ← add_assoc] at h
    have ih := ih h
    rw [sweep]
    rcases p.kept_iff required count with ⟨hkeep, hp, hnext, -⟩ | ⟨hskip, hnext⟩
    · rw [if_pos hkeep]
      exact ⟨hp, hnext ▸ ih⟩
    · rw [if_neg hskip]
      exact hnext ▸ ih

theorem depth_sweep (required count : ℤ) (pts : List (Point α)) :
    (if required ≤ count then 1 else 0) + depth (sweep required count pts) =
      if required ≤ count + depth pts then 1 else 0 := by
  induction pts generalizing count with
  | nil => simp [sweep]
  | cons p pts ih =>
    rw [depth_cons, ← add_assoc, ← ih, sweep]
    rcases p.kept_iff required count with ⟨hkeep, -, -, hadd⟩ | ⟨hskip, hnext⟩
    · rw [if_pos hkeep, depth_cons, ← add_assoc, hadd]
    · rw [if_neg hskip]
      simp only [decide_eq_decide.mp hnext]

/-! ## The order of the points -/

section Order

variable {κ : Type w} [LinearOrder κ] {key : α → κ} {c : Column α ε}

def Column.ComparesBy (c : Column α ε) (key : α → κ) : Prop :=
  ∀ a b : Point α, rangePointLess c a b = .ok (lessBy (Ord.compare (key a.value) (key b.value)) a b)

def Point.rank (p : Point α) : ℕ :=
  match p.start, p.excl with
  | false, true => 0
  | true, false => 1
  | false, false => 2
  | true, true => 3

def Point.place (key : α → κ) (p : Point α) : κ ×ₗ ℕ := toLex (key p.value, p.rank)

theorem rangePointEqualValueLess_iff (a b : Point α) : rangePointEqualValueLess a b = true ↔ a.rank < b.rank := by
  unfold rangePointEqualValueLess rank
  cases a.start <;> cases a.excl <;> cases b.start <;> cases b.excl <;> decide

theorem lessBy_iff (a b : Point α) :
    lessBy (compare (key a.value) (key b.value)) a b = true ↔ a.place key < b.place key := by
  rw [place, place, Prod.Lex.toLex_lt_toLex, ← rangePointEqualValueLess_iff]
  rcases lt_trichotomy (key a.value) (key b.value) with h | h | h
  · rw [compare_lt_iff_lt.mpr h]
    exact iff_of_true rfl (.inl h)
  · simp [lessBy, h]
  · rw [compare_gt_iff_gt.mpr h]
    exact iff_of_false Bool.false_ne_true (by simp [h.not_gt, h.ne'])

theorem Column.ComparesBy.less_iff (hc : c.ComparesBy key) (a b : Point α) (r : Bool) :
    rangePointLess c a b = .ok r ↔ (r = true ↔ a.place key < b.place key) := by
  rw [hc, Except.ok.injEq, ← lessBy_iff, Bool.eq_iff_iff]
  exact iff_comm

def Sorted (c : Column α ε) (pts : List (Point α)) : Prop :=
  pts.Pairwise fun a b => rangePointLess c b a = .ok false

theorem Column.ComparesBy.sorted_iff (hc : c.ComparesBy key) (pts : List (Point α)) :
    Sorted c pts ↔ pts.Pairwise fun a b => a.place key ≤ b.place key := by
  unfold Sorted
  simp only [hc.less_iff, Bool.false_eq_true, false_iff, not_lt]

theorem mergeSorted_spec (hc : c.ComparesBy key) (a b : List (Point α))
    (ha : a.Pairwise fun p q => p.place key ≤ q.place key) (hb : b.Pairwise fun p q => p.place key ≤ q.place key) :
    ∃ r, mergeSorted c a b = .ok r ∧ r.Perm (a ++ b) ∧ r.Pairwise fun p q => p.place key ≤ q.place key := by
  fun_induction mergeSorted c a b with
  | case1 b => exact ⟨b, rfl, .refl _, hb⟩
  | case2 p a => exact ⟨_, rfl, by rw [append_nil], ha⟩
  | case3 p a q b e h =>
    rw [hc] at h
    cases h
  | case4 p a q b h ih =>
    obtain ⟨r, hr, hperm, hsorted⟩ := ih ha.of_cons hb
    refine ⟨p :: r, by rw [hr]; rfl, hperm.cons p, pairwise_cons.mpr ⟨fun x hx => ?_, hsorted⟩⟩
    have hpq : p.place key < q.place key := by simpa using (hc.less_iff _ _ _).mp h
    rcases mem_append.mp (hperm.subset hx) with hx | hx
    · exact rel_of_pairwise_cons ha hx
    · rcases mem_cons.mp hx with rfl | hx
      · exact hpq.le
      · exact hpq.le.trans (rel_of_pairwise_cons hb hx)
  | case5 p a q b h ih =>
    obtain ⟨r, hr, hperm, hsorted⟩ := ih ha hb.of_cons
    refine ⟨q :: r, by rw [hr]; rfl, (hperm.cons q).trans perm_middle.symm,
      pairwise_cons.mpr ⟨fun x hx => ?_, hsorted⟩⟩
    have hqp : q.place key ≤ p.place key := by simpa using (hc.less_iff _ _ _).mp h
    rcases mem_append.mp (hperm.subset hx) with hx | hx
    · rcases mem_cons.mp hx with rfl | hx
      · exact hqp
      · exact hqp.trans (rel_of_pairwise_cons ha hx)
    · exact rel_of_pairwise_cons hb hx

/-! ## The values of a list -/

def Point.above (key : α → κ) (p : Point α) : Set α :=
  {x | if p.excl then key p.value < key x else key p.value ≤ key x}

def Point.below (key : α → κ) (p : Point α) : Set α :=
  {x | if p.excl then key x < key p.value else key x ≤ key p.value}

def denotes (key : α → κ) : List (Point α) → Set α
  | s :: e :: pts => s.above key ∩ e.below key ∪ denotes key pts
  | _ => ∅

def NoEmpty (key : α → κ) : List (Point α) → Prop
  | s :: e :: pts =>
    (key s.value < key e.value ∨ key s.value = key e.value ∧ s.excl = false ∧ e.excl = false) ∧ NoEmpty key pts
  | _ => True

def Point.passed (key : α → κ) (x : α) (p : Point α) : Bool :=
  decide (p.place key ≤ toLex (key x, 1))

theorem Point.passed_start (p : Point α) (hp : p.start = true) (x : α) : p.passed key x = true ↔ x ∈ p.above key := by
  rw [passed, decide_eq_true_eq, place, Prod.Lex.toLex_le_toLex, rank, hp, above]
  cases p.excl with
  | true => simp
  | false => simp [le_iff_lt_or_eq]

theorem Point.passed_end (p : Point α) (hp : p.start = false) (x : α) : p.passed key x = true ↔ x ∉ p.below key := by
  rw [passed, decide_eq_true_eq, place, Prod.Lex.toLex_le_toLex, rank, hp, below]
  cases p.excl with
  | true => simp [le_iff_lt_or_eq]
  | false => simp

theorem Point.passed_of_le {p q : Point α} {x : α} (h : p.place key ≤ q.place key)
    (hq : q.passed key x = true) : p.passed key x = true :=
  decide_eq_true (h.trans (of_decide_eq_true hq))

theorem filter_passed_eq_nil {p : Point α} {pts : List (Point α)} {x : α}
    (h : (p :: pts).Pairwise fun p q => p.place key ≤ q.place key) (hp : p.passed key x = false) :
    (p :: pts).filter (passed key x) = [] := by
  refine filter_eq_nil_iff.mpr fun q hq hpass => ?_
  rcases mem_cons.mp hq with rfl | hq
  · exact Bool.false_ne_true (hp.symm.trans hpass)
  · exact Bool.false_ne_true (hp.symm.trans (passed_of_le (rel_of_pairwise_cons h hq) hpass))

theorem filter_sweep {pts : List (Point α)} (h : pts.Pairwise fun p q => p.place key ≤ q.place key)
    (required count : ℤ) (x : α) : (sweep required count pts).filter (passed key x) =
      sweep required count (pts.filter (passed key x)) := by
  induction pts generalizing count with
  | nil => rfl
  | cons p pts ih =>
    cases hp : p.passed key x with
    | true =>
      rw [filter_cons_of_pos hp, sweep, sweep, ← ih h.of_cons]
      split
      · rw [filter_cons_of_pos hp]
      · rfl
    | false =>
      have hnone := filter_passed_eq_nil h hp
      have hsub := (sweep_sublist required count (p :: pts)).filter (passed key x)
      rw [hnone] at hsub ⊢
      exact sublist_nil.mp hsub

theorem depth_passed (x : α) : ∀ {pts : List (Point α)}, Alternating false pts → pts.Pairwise (fun p q => p.place key ≤
    q.place key) → (x ∈ denotes key pts ∧ depth (pts.filter (passed key x)) = 1) ∨ (x ∉ denotes key pts ∧ depth
    (pts.filter (passed key x)) = 0)
  | [], _, _ => .inr ⟨fun h => h, rfl⟩
  | [_], h, _ => by cases h.2
  | s :: e :: pts, ⟨hs, he, hpts⟩, h => by
    have ih := depth_passed x hpts h.of_cons.of_cons
    have habove : s.passed key x = true ↔ x ∈ s.above key := s.passed_start hs x
    have hbelow : e.passed key x = true ↔ x ∉ e.below key := e.passed_end he x
    rw [denotes, Set.mem_union, Set.mem_inter_iff, ← habove, ← not_iff_not.mpr hbelow |>.trans not_not]
    have hstep : s.step = 1 ∧ e.step = -1 := ⟨if_pos hs, if_neg (by rw [he]; exact Bool.false_ne_true)⟩
    cases hsp : s.passed key x with
    | false =>
      have hnone := filter_passed_eq_nil h hsp
      have hrest : pts.filter (passed key x) = [] := filter_eq_nil_iff.mpr fun q hq =>
        filter_eq_nil_iff.mp hnone q (mem_cons_of_mem s (mem_cons_of_mem e hq))
      rw [hrest] at ih
      rw [hnone]
      simpa using ih
    | true =>
      rw [filter_cons_of_pos hsp, depth_cons, hstep.1]
      cases hep : e.passed key x with
      | false =>
        rw [filter_passed_eq_nil h.of_cons hep]
        exact .inl ⟨.inl ⟨rfl, Bool.false_ne_true⟩, rfl⟩
      | true =>
        rw [filter_cons_of_pos hep, depth_cons, hstep.2, ← add_assoc, add_neg_cancel, zero_add]
        simp only [not_true_eq_false, and_false, false_or]
        exact ih

theorem noEmpty_of_sorted : ∀ {pts : List (Point α)}, Alternating false pts →
    pts.Pairwise (fun p q => p.place key ≤ q.place key) → NoEmpty key pts
  | [], _, _ => trivial
  | [_], h, _ => by cases h.2
  | s :: e :: pts, ⟨hs, he, hpts⟩, h => by
    refine ⟨?_, noEmpty_of_sorted hpts h.of_cons.of_cons⟩
    have hle := rel_of_pairwise_cons h mem_cons_self
    rw [place, place, Prod.Lex.toLex_le_toLex, rank, rank, hs, he] at hle
    refine hle.imp_right fun ⟨heq, hrank⟩ => ⟨heq, ?_⟩
    cases hse : s.excl <;> cases hee : e.excl <;> simp [hse, hee] at hrank ⊢

theorem depth_eq_zero : ∀ {inRange : Bool} {pts : List (Point α)}, Alternating inRange pts →
    (if inRange then 1 else 0) + depth pts = 0
  | inRange, [], h => by rw [show inRange = false from h]; rfl
  | inRange, p :: pts, ⟨hp, h⟩ => by
    have ih := depth_eq_zero h
    rw [depth_cons, step, hp]
    cases inRange
    · simpa using ih
    · simpa using ih

theorem merge_spec (hc : c.ComparesBy key) {a b : List (Point α)} (ha : Sorted c a)
    (ha' : Alternating false a) (hb : Sorted c b) (hb' : Alternating false b) (u : Bool) :
    ∃ r, merge c a b u = .ok r ∧ Sorted c r ∧ Alternating false r ∧ NoEmpty key r ∧ ∀ x, x ∈ denotes key r ↔
        if u then x ∈ denotes key a ∨ x ∈ denotes key b else x ∈ denotes key a ∧ x ∈ denotes key b := by
  rw [hc.sorted_iff] at ha hb
  obtain ⟨m, hm, hperm, hsorted⟩ := mergeSorted_spec hc a b ha hb
  generalize hreq : (if u then 1 else 2 : ℤ) = required
  have hdepth : depth m = 0 := by
    have h1 : 0 + depth a = 0 := depth_eq_zero ha'
    have h2 : 0 + depth b = 0 := depth_eq_zero hb'
    rw [depth_perm hperm, depth_append]
    omega
  have hrsorted := hsorted.sublist (sweep_sublist required 0 m)
  have hralt : Alternating false (sweep required 0 m) := by
    have h := @alternating_sweep _ required 0 m (by omega)
    rwa [decide_eq_false (by omega)] at h
  refine ⟨sweep required 0 m, ?_, (hc.sorted_iff _).mpr hrsorted, hralt, noEmpty_of_sorted hralt hrsorted, fun x => ?_⟩
  · rw [merge, hm, hreq]
    exact congrArg Except.ok (mergeLoop_eq required (by omega) le_rfl)
  · -- the number of lists that have `x` is the number of ranges that are open at it
    have hsum : depth (m.filter (passed key x)) =
        depth (a.filter (passed key x)) + depth (b.filter (passed key x)) := by
      rw [depth_perm (hperm.filter _), filter_append, depth_append]
    have hsweep := depth_sweep required 0 (m.filter (passed key x))
    rw [← filter_sweep hsorted] at hsweep
    have hiff : x ∈ denotes key (sweep required 0 m) ↔ required ≤
        depth (a.filter (passed key x)) + depth (b.filter (passed key x)) := by
      rcases depth_passed x hralt hrsorted with ⟨hx, hd⟩ | ⟨hx, hd⟩
      · refine iff_of_true hx (by_contra fun hlt => ?_)
        omega
      · refine iff_of_false hx fun hle => ?_
        omega
    rw [hiff, ← hreq]
    rcases depth_passed x ha' ha with ⟨hxa, hda⟩ | ⟨hxa, hda⟩ <;>
      rcases depth_passed x hb' hb with ⟨hxb, hdb⟩ | ⟨hxb, hdb⟩ <;>
      cases u <;> simp [hxa, hxb, hda, hdb]

/-- Lists of points are united and intersected as the sets of values that they stand for. -/
theorem union_intersection_spec (hc : c.ComparesBy key) {a b : List (Point α)} (ha : Sorted c a)
    (ha' : Alternating false a) (hb : Sorted c b) (hb' : Alternating false b) :
    (∃ r, union c a b = .ok r ∧ Sorted c r ∧ Alternating false r ∧ NoEmpty key r ∧
      denotes key r = denotes key a ∪ denotes key b) ∧
    ∃ r, intersection c a b = .ok r ∧ Sorted c r ∧ Alternating false r ∧ NoEmpty key r ∧
      denotes key r = denotes key a ∩ denotes key b := by
  obtain ⟨r, hr, h1, h2, h3, h4⟩ := merge_spec hc ha ha' hb hb' true
  obtain ⟨r', hr', h1', h2', h3', h4'⟩ := merge_spec hc ha ha' hb hb' false
  exact ⟨⟨r, hr, h1, h2, h3, Set.ext h4⟩, ⟨r', hr', h1', h2', h3', Set.ext h4'⟩⟩

end Order

def intColumn : Column ℤ Empty where
  isEnum _ := false
  getInt64 := id
  compare a b := .ok (compare a b)

def belowOne : List (Point ℤ) := [⟨0, false, true⟩, ⟨1, true, false⟩]

def fromOne : List (Point ℤ) := [⟨1, false, true⟩, ⟨2, false, false⟩]

theorem union_intersection_at_one : (∃ r, union intColumn belowOne fromOne = .ok r ∧
      denotes id r = denotes id belowOne ∪ denotes id fromOne) ∧ ∃ r, intersection intColumn belowOne fromOne = .ok r ∧
      denotes id r = denotes id belowOne ∩ denotes id fromOne := by
  have hc : intColumn.ComparesBy (id : ℤ → ℤ) := fun _ _ => rfl
  obtain ⟨⟨r, hr, -, -, -, hden⟩, ⟨r', hr', -, -, -, hden'⟩⟩ :=
    union_intersection_spec hc (a := belowOne) (b := fromOne) (pairwise_pair.mpr rfl)
      ⟨rfl, rfl, rfl⟩ (pairwise_pair.mpr rfl) ⟨rfl, rfl, rfl⟩
  exact ⟨⟨r, hr, hden⟩, ⟨r', hr', hden'⟩⟩

end Tidb.Ranger
