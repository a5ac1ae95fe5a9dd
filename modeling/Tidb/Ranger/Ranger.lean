import Tidb.Codec.Order
import Tidb.Lib.ByteOrder
import Tidb.Structure.TxStructure
import Mathlib.Order.CompletePartialOrder

/-!
# Unions of ranges (`util/ranger/ranger.go`)

Ranges of rows are united as intervals of their keys: they are sorted by the keys that they start at, and each one
that reaches into the last is merged with it.  A merged range takes its end, values and all, from one of the two.
-/

namespace Tidb.Ranger

open GoLang Tidb.Codec Tidb.Types Tidb.Structure ByteOrder Outcome
open List hiding Disjoint

structure Range where
  lowVal : List Datum
  highVal : List Datum
  lowExclude : Bool
  highExclude : Bool

structure SortRange where
  originalValue : Range
  encodedStart : Bytes
  encodedEnd : Bytes

def Range.encode (env : Env) (sc : StatementContext) (ran : Range) : Res SortRange := do
  let left ← encodeKey env (some sc) [] ran.lowVal
  let left := if ran.lowExclude then prefixNext left else left
  let right ← encodeKey env (some sc) [] ran.highVal
  let right := if !ran.highExclude then prefixNext right else right
  return ⟨ran, left, right⟩

def encodeRanges (env : Env) (sc : StatementContext) : List Range → Res (List SortRange)
  | [] => return []
  | ran :: ranges => do
    let object ← ran.encode env sc
    let objects ← encodeRanges env sc ranges
    return object :: objects

def SortRange.Meets (mergeConsecutive : Bool) (a b : SortRange) : Prop :=
  mergeConsecutive = true ∧ b.encodedStart ≤ a.encodedEnd ∨ mergeConsecutive = false ∧ b.encodedStart < a.encodedEnd

instance (mergeConsecutive : Bool) (a b : SortRange) : Decidable (a.Meets mergeConsecutive b) :=
  inferInstanceAs (Decidable (_ ∨ _))

def SortRange.merge (a b : SortRange) : SortRange :=
  if a.encodedEnd < b.encodedEnd then
    { a with
      encodedEnd := b.encodedEnd
      originalValue := { a.originalValue with
        highVal := b.originalValue.highVal
        highExclude := b.originalValue.highExclude } }
  else a

def unionLoop (mergeConsecutive : Bool) (lastRange : SortRange) : List SortRange → List SortRange
  | [] => [lastRange]
  | object :: objects =>
    if lastRange.Meets mergeConsecutive object then unionLoop mergeConsecutive (lastRange.merge object) objects
    else lastRange :: unionLoop mergeConsecutive object objects

/-- The order that `sort` gives to ranges with the same start is not fixed. -/
def unionRanges (env : Env) (sc : StatementContext) (sort : List SortRange → List SortRange)
    (ranges : List Range) (mergeConsecutive : Bool) : Res (List Range) := do
  match sort (← encodeRanges env sc ranges) with
  | [] => return []
  | object :: objects => return (unionLoop mergeConsecutive object objects).map SortRange.originalValue

/-! ## The keys of the ranges -/

def SortRange.keys (o : SortRange) : Set Bytes := Set.Ico o.encodedStart o.encodedEnd

variable {env : Env} {sc : StatementContext} {m : Bool} {a b : SortRange}

def SortRange.Encodes (env : Env) (sc : StatementContext) (o : SortRange) : Prop :=
  o.originalValue.encode env sc = .ok o

theorem encode_eq_ok {ran : Range} {o : SortRange} : ran.encode env sc = .ok o ↔ ∃ left right,
    encodeKey env (some sc) [] ran.lowVal = .ok left ∧ encodeKey env (some sc) [] ran.highVal = .ok right ∧
      o = ⟨ran, if ran.lowExclude then prefixNext left else left,
        if !ran.highExclude then prefixNext right else right⟩ := by
  simp only [Range.encode, bind_eq_ok, pure_eq, ok.injEq, exists_and_left, @eq_comm _ _ o]

theorem SortRange.encodes_of_encode {ran : Range} {o : SortRange} (h : ran.encode env sc = .ok o) :
    o.Encodes env sc := by
  obtain ⟨_, _, -, -, rfl⟩ := encode_eq_ok.mp h
  exact h

theorem SortRange.Encodes.merge (ha : a.Encodes env sc) (hb : b.Encodes env sc) : (a.merge b).Encodes env sc := by
  rw [SortRange.merge]
  split
  · obtain ⟨left, _, hleft, _, hareq⟩ := encode_eq_ok.mp ha
    obtain ⟨_, right, _, hright, hbeq⟩ := encode_eq_ok.mp hb
    refine encode_eq_ok.mpr ⟨left, right, hleft, hright, ?_⟩
    rw [hareq, hbeq]
  · exact ha

theorem SortRange.Meets.keys_merge (hmeets : a.Meets m b) (hle : a.encodedStart ≤ b.encodedStart) :
    (a.merge b).keys = a.keys ∪ b.keys := by
  have hreach : b.encodedStart ≤ a.encodedEnd := hmeets.elim And.right fun h => h.2.le
  rw [SortRange.merge]
  split
  · rename_i hlt
    have h := Set.Ico_union_Ico' hreach (hle.trans (hreach.trans hlt.le))
    rw [min_eq_left hle, max_eq_right hlt.le] at h
    exact h.symm
  · rename_i hlt
    exact (Set.union_eq_left.mpr (Set.Ico_subset_Ico hle (not_lt.mp hlt))).symm

def SortRange.Before (m : Bool) (a b : SortRange) : Prop :=
  a.encodedStart ≤ b.encodedStart ∧ ¬ a.Meets m b

theorem SortRange.Before.disjoint (h : a.Before m b) : Disjoint a.keys b.keys := by
  refine Set.disjoint_left.mpr fun k ha hb => h.2 ?_
  have hlt := hb.1.trans_lt ha.2
  cases m
  · exact .inr ⟨rfl, hlt⟩
  · exact .inl ⟨rfl, hlt.le⟩

theorem SortRange.Before.trans_le {c : SortRange} (h : a.Before m b)
    (hle : b.encodedStart ≤ c.encodedStart) : a.Before m c :=
  ⟨h.1.trans hle, fun hmeets => h.2 (hmeets.imp (And.imp_right hle.trans) (And.imp_right hle.trans_lt))⟩

theorem unionLoop_spec {last : SortRange} {objects : List SortRange}
    (hsorted : (last :: objects).Pairwise (·.encodedStart ≤ ·.encodedStart))
    (hmade : ∀ o ∈ last :: objects, o.Encodes env sc) :
    (∀ o ∈ unionLoop m last objects, o.Encodes env sc ∧ last.encodedStart ≤ o.encodedStart) ∧
      (unionLoop m last objects).Pairwise (·.Before m ·) ∧
      ∀ k, (∃ o ∈ unionLoop m last objects, k ∈ o.keys) ↔ ∃ o ∈ last :: objects, k ∈ o.keys := by
  induction objects generalizing last with
  | nil => simpa [unionLoop] using hmade last mem_cons_self
  | cons object objects ih =>
    have hlast := hmade last mem_cons_self
    have hle := rel_of_pairwise_cons hsorted mem_cons_self
    rw [unionLoop]
    split
    · rename_i hmeets
      have hstart : (last.merge object).encodedStart = last.encodedStart := by
        rw [SortRange.merge]
        split <;> rfl
      obtain ⟨hall, hpair, hkeys⟩ := @ih (last.merge object)
        (pairwise_cons.mpr ⟨fun o ho => hstart ▸ rel_of_pairwise_cons hsorted (.tail _ ho), hsorted.of_cons.of_cons⟩)
        (forall_mem_cons.mpr ⟨hlast.merge (hmade object (by simp)), fun o ho => hmade o (by simp [ho])⟩)
      refine ⟨hstart ▸ hall, hpair, fun k => ?_⟩
      rw [hkeys, exists_mem_cons_iff, hmeets.keys_merge hle, Set.mem_union, or_assoc,
        exists_mem_cons_iff, exists_mem_cons_iff]
    · rename_i hnot
      obtain ⟨hall, hpair, hkeys⟩ := ih hsorted.of_cons fun o ho => hmade o (.tail _ ho)
      refine ⟨forall_mem_cons.mpr ⟨⟨hlast, le_rfl⟩, fun o ho => ⟨(hall o ho).1, hle.trans (hall o ho).2⟩⟩,
        pairwise_cons.mpr ⟨fun o ho => SortRange.Before.trans_le ⟨hle, hnot⟩ (hall o ho).2, hpair⟩, fun k => ?_⟩
      rw [exists_mem_cons_iff, hkeys, exists_mem_cons_iff _ last]

theorem encodeRanges_spec {ranges : List Range} (h : ∀ ran ∈ ranges, ∃ o, ran.encode env sc = .ok o) : ∃ objects,
    encodeRanges env sc ranges = .ok objects ∧ ∀ o, o ∈ objects ↔ ∃ ran ∈ ranges, ran.encode env sc = .ok o := by
  induction ranges with
  | nil => exact ⟨[], rfl, by simp⟩
  | cons ran ranges ih =>
    obtain ⟨⟨object, ho⟩, hrest⟩ := forall_mem_cons.mp h
    obtain ⟨objects, hobjects, hmem⟩ := ih hrest
    refine ⟨object :: objects, by rw [encodeRanges, ho, hobjects]; rfl, fun o => ?_⟩
    rw [mem_cons, hmem, exists_mem_cons_iff, ho, ok.injEq, eq_comm]

/-- Ranges are united as sets of keys, into ranges in order with no key in common. -/
theorem unionRanges_spec {sort : List SortRange → List SortRange}
    (hsort : ∀ l, (sort l).Perm l ∧ (sort l).Pairwise (·.encodedStart ≤ ·.encodedStart)) {ranges : List Range}
    (h : ∀ ran ∈ ranges, ∃ o, ran.encode env sc = .ok o) (mergeConsecutive : Bool) :
    ∃ objects : List SortRange,
      unionRanges env sc sort ranges mergeConsecutive = .ok (objects.map SortRange.originalValue) ∧
      (∀ o ∈ objects, o.originalValue.encode env sc = .ok o) ∧
      objects.Pairwise (fun a b => a.encodedStart ≤ b.encodedStart ∧ Disjoint a.keys b.keys ∧
        (mergeConsecutive = true → a.encodedEnd < b.encodedStart)) ∧
      ∀ k, (∃ o ∈ objects, k ∈ o.keys) ↔ ∃ ran ∈ ranges, ∃ o, ran.encode env sc = .ok o ∧ k ∈ o.keys := by
  obtain ⟨objects, hobjects, hmem⟩ := encodeRanges_spec h
  obtain ⟨hperm, hsorted⟩ := hsort objects
  have hkeys : ∀ k, (∃ ran ∈ ranges, ∃ o, ran.encode env sc = .ok o ∧ k ∈ o.keys) ↔
      ∃ o ∈ sort objects, k ∈ o.keys := by grind
  simp only [unionRanges, hobjects, ok_bind, hkeys]
  cases hcase : sort objects with
  | nil => exact ⟨[], rfl, by simp⟩
  | cons object objects' =>
    rw [hcase] at hsorted
    obtain ⟨hall, hpair, hunion⟩ := @unionLoop_spec env sc mergeConsecutive _ _ hsorted fun o ho => by
        obtain ⟨_, _, h⟩ := (hmem o).mp (hperm.subset (hcase ▸ ho))
        exact SortRange.encodes_of_encode h
    refine ⟨_, rfl, fun o ho => (hall o ho).1, hpair.imp fun hbefore => ⟨hbefore.1, hbefore.disjoint, ?_⟩, hunion⟩
    exact fun hmerge => not_le.mp fun hle => hbefore.2 (.inl ⟨hmerge, hle⟩)

def sortByStart (l : List SortRange) : List SortRange := l.mergeSort fun a b => decide (a.encodedStart ≤ b.encodedStart)

/-- From `(1, 2)` to `(1, 3)`, and all rows that start with `1`. -/
def mixedWidths : List Range :=
  [⟨[.int64 1, .int64 2], [.int64 1, .int64 3], false, true⟩, ⟨[.int64 1], [.int64 1], false, false⟩]

theorem unionRanges_mixedWidths :
    let sc : StatementContext := ⟨.utc, true, false, false⟩
    ∃ objects : List SortRange,
      unionRanges fixedEnv sc sortByStart mixedWidths true = .ok (objects.map SortRange.originalValue) ∧
      ∀ k, (∃ o ∈ objects, k ∈ o.keys) ↔ ∃ ran ∈ mixedWidths, ∃ o, ran.encode fixedEnv sc = .ok o ∧ k ∈ o.keys := by
  intro sc
  have hsort : ∀ l, (sortByStart l).Perm l ∧ (sortByStart l).Pairwise (·.encodedStart ≤ ·.encodedStart) := by
    intro l
    have hpair := @pairwise_mergeSort SortRange (fun a b => decide (a.encodedStart ≤ b.encodedStart))
      (by simpa using fun a b c => le_trans) (by simpa using fun a b => le_total _ _) l
    exact ⟨l.mergeSort_perm _, hpair.imp of_decide_eq_true⟩
  obtain ⟨objects, hunion, -, -, hkeys⟩ := @unionRanges_spec fixedEnv sc _ hsort mixedWidths
    (by simpa [mixedWidths] using ⟨⟨_, rfl⟩, ⟨_, rfl⟩⟩) true
  exact ⟨objects, hunion, hkeys⟩

end Tidb.Ranger
