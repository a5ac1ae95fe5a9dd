import Tidb.Lib.RangeCut
import Tidb.Lib.BinarySearch

/-!
# Key ranges with detachable ends

`KeyRanges` of `store/copr/key_ranges.go`: a slice of ranges with an extra element at either end, so that a cut shares
the slice.  Of keys only the order and the empty string as the least one matter.
-/

universe u

namespace Copr

open GoLang List Option

structure KeyRanges (K : Type u) where
  first : Option (KeyRange K)
  mid : List (KeyRange K)
  last : Option (KeyRange K)
  deriving DecidableEq, Repr

namespace KeyRanges

variable {K : Type u}

def newKeyRanges (ranges : List (KeyRange K)) : KeyRanges K := ⟨none, ranges, none⟩

def len (r : KeyRanges K) : ℕ :=
  (if r.first.isSome then 1 else 0) + r.mid.length + (if r.last.isSome then 1 else 0)

def at? (r : KeyRanges K) (i : ℕ) : Option (KeyRange K) :=
  if r.first.isSome ∧ i = 0 then r.first
  else
    let i := if r.first.isSome then i - 1 else i
    if i < r.mid.length then r.mid[i]? else r.last

def slice (r : KeyRanges K) (lo hi : ℕ) : KeyRanges K :=
  let first := if r.first.isSome ∧ lo = 0 ∧ hi > 0 then r.first else none
  let lo := if r.first.isSome ∧ lo > 0 then lo - 1 else lo
  let hi := if r.first.isSome ∧ hi > 0 then hi - 1 else hi
  if hi ≤ r.mid.length then ⟨first, (r.mid.take hi).drop lo, none⟩
  else ⟨first, if lo ≤ r.mid.length then r.mid.drop lo else [], if lo < hi then r.last else none⟩

def toList (r : KeyRanges K) : List (KeyRange K) := r.first.toList ++ r.mid ++ r.last.toList

section Split

variable [LinearOrder K] [OrderBot K]

def split (r : KeyRanges K) (key : K) : KeyRanges K × KeyRanges K :=
  let n := search r.len fun i =>
    match r.at? i with
    | none => false
    | some cur => decide (cur.endKey = ⊥ ∨ cur.endKey > key)
  match if n < r.len then r.at? n else none with
  | some p =>
    -- If a range p contains the key, it will split to 2 parts.
    if key > p.startKey then
      ({ r.slice 0 n with last := some ⟨p.startKey, key⟩ },
        { r.slice (n + 1) r.len with first := some ⟨key, p.endKey⟩ })
    else (r.slice 0 n, r.slice n r.len)
  | none => (r.slice 0 n, r.slice n r.len)

end Split

/-! ## The list of the ranges -/

@[simp] theorem length_toList (r : KeyRanges K) : r.toList.length = r.len := by
  obtain ⟨first, mid, last⟩ := r
  cases first <;> cases last <;> simp [toList, len] <;> omega

theorem at?_eq (r : KeyRanges K) {i : ℕ} (h : i < r.len) : r.at? i = r.toList[i]? := by
  obtain ⟨first, mid, last⟩ := r
  -- behind the first element, if there is one
  have hrest : ∀ j, j < mid.length + last.toList.length →
      (if j < mid.length then mid[j]? else last) = (mid ++ last.toList)[j]? := by
    intro j hj
    split_ifs with hmid
    · rw [getElem?_append_left hmid]
    · cases last with
      | none => simp only [toList_none, length_nil] at hj; omega
      | some x =>
        have hj0 : j - mid.length = 0 := by
          simp only [toList_some, length_singleton] at hj
          omega
        rw [getElem?_append_right (Nat.le_of_not_lt hmid), hj0]
        rfl
  have hlen := length_toList ⟨first, mid, last⟩
  rw [← hlen] at h
  cases first with
  | none =>
    simp only [toList, toList_none, nil_append, length_append] at h
    simpa [at?, toList] using hrest i h
  | some x =>
    cases i with
    | zero => simp [at?, toList]
    | succ i =>
      simp only [toList, toList_some, length_append, length_singleton] at h
      simpa [at?, toList] using hrest i (by omega)

theorem ite_at?_eq (ranges : KeyRanges K) (i : ℕ) :
    (if i < ranges.len then ranges.at? i else none) = ranges.toList[i]? := by
  split_ifs with h
  · exact at?_eq ranges h
  · rw [getElem?_eq_none (by rw [length_toList]; omega)]

theorem slice_tail (mid : List (KeyRange K)) (last : Option (KeyRange K)) {lo hi : ℕ} (hlo : lo ≤ hi)
    (hhi : hi ≤ mid.length + last.toList.length) :
    (if hi ≤ mid.length then (⟨none, (mid.take hi).drop lo, none⟩ : KeyRanges K)
      else ⟨none, if lo ≤ mid.length then mid.drop lo else [], if lo < hi then last else none⟩).toList
      = ((mid ++ last.toList).take hi).drop lo := by
  split_ifs with hmid hlom hlt hlt
  · simp [toList, take_append_of_le_length hmid]
  · have hall : (mid ++ last.toList).take hi = mid ++ last.toList := by
      apply take_of_length_le
      rw [length_append]
      have : last.toList.length ≤ 1 := by cases last <;> simp
      omega
    rw [hall, drop_append_of_le_length hlom]
    simp [toList]
  · omega
  · have : last.toList.length ≤ 1 := by cases last <;> simp
    omega
  · have hnil : ((mid ++ last.toList).take hi).drop lo = [] := by
      apply drop_eq_nil_of_le
      rw [length_take]
      omega
    rw [hnil]
    rfl

theorem toList_slice (r : KeyRanges K) {lo hi : ℕ} (hlo : lo ≤ hi) (hhi : hi ≤ r.len) :
    (r.slice lo hi).toList = (r.toList.take hi).drop lo := by
  obtain ⟨first, mid, last⟩ := r
  rw [← length_toList] at hhi
  cases first with
  | none =>
    simp only [toList, toList_none, nil_append, length_append] at hhi
    have htail := slice_tail mid last hlo hhi
    simpa [slice, toList] using htail
  | some x =>
    simp only [toList, toList_some, length_append, length_singleton] at hhi
    cases hi with
    | zero => simp [slice, toList]
    | succ hi =>
      cases lo with
      | zero =>
        have htail := slice_tail mid last (Nat.zero_le hi) (by omega)
        have hslice : (slice ⟨some x, mid, last⟩ 0 (hi + 1)).toList = x :: ((mid ++ last.toList).take hi).drop 0 := by
          rw [← htail]
          simp only [slice, isSome_some, true_and, Nat.succ_pos, Nat.add_sub_cancel]
          split_ifs <;> rfl
        rw [hslice]
        simp [toList]
      | succ lo =>
        have htail := slice_tail mid last (show lo ≤ hi by omega) (by omega)
        have hslice : (slice ⟨some x, mid, last⟩ (lo + 1) (hi + 1)).toList
            = ((mid ++ last.toList).take hi).drop lo := by
          rw [← htail]
          simp only [slice, isSome_some, true_and, Nat.succ_pos, if_true,
            Nat.add_sub_cancel, Nat.succ_ne_zero, false_and, if_false]
        rw [hslice]
        simp [toList]

theorem slice_last (r : KeyRanges K) (lo : ℕ) {hi : ℕ} (hhi : hi < r.len) : (r.slice lo hi).last = none := by
  obtain ⟨first, mid, last⟩ := r
  cases last with
  | none =>
    simp only [slice]
    split_ifs <;> rfl
  | some y =>
    have hle : (if first.isSome ∧ hi > 0 then hi - 1 else hi) ≤ mid.length := by
      simp only [len] at hhi
      split_ifs at hhi ⊢ <;> first | omega | simp_all
    simp only [slice, if_pos hle]

theorem slice_first (r : KeyRanges K) (lo hi : ℕ) : (r.slice (lo + 1) hi).first = none := by
  simp only [slice, Nat.succ_ne_zero, false_and, and_false, if_false]
  split_ifs <;> rfl

theorem toList_setLast (r : KeyRanges K) {hi : ℕ} (hhi : hi < r.len) (x : KeyRange K) :
    ({ r.slice 0 hi with last := some x } : KeyRanges K).toList = r.toList.take hi ++ [x] := by
  have hslice := toList_slice r (Nat.zero_le hi) hhi.le
  rw [toList, slice_last r 0 hhi] at hslice
  simp only [toList, toList_some, drop_zero, toList_none, append_nil] at hslice ⊢
  rw [hslice]

theorem toList_setFirst (r : KeyRanges K) {lo : ℕ} (hlo : lo < r.len) (x : KeyRange K) :
    ({ r.slice (lo + 1) r.len with first := some x } : KeyRanges K).toList = x :: r.toList.drop (lo + 1) := by
  have hslice := toList_slice r (Nat.succ_le_of_lt hlo) (Nat.le_refl r.len)
  rw [toList, slice_first r lo r.len, take_of_length_le (length_toList r).le] at hslice
  rw [← hslice]
  rfl

/-! ## Splitting by a key -/

section Split

variable [LinearOrder K] [OrderBot K]

open KeyRange

theorem search_end (r : KeyRanges K) (hr : Ascending r.toList) (key : K) : ∃ n ≤ r.len, (search r.len fun i =>
        match r.at? i with
        | none => false
        | some cur => decide (cur.endKey = ⊥ ∨ cur.endKey > key)) = n ∧
      (∀ a ∈ r.toList.take n, a.endKey ≠ ⊥ ∧ a.endKey ≤ key) ∧
      ∀ b ∈ r.toList.drop n, b.endKey = ⊥ ∨ key < b.endKey := by
  have hf : ∀ i (hi : i < r.toList.length), (match r.at? i with
      | none => false
      | some cur => decide (cur.endKey = ⊥ ∨ cur.endKey > key)) = true ↔
        (r.toList[i].endKey = ⊥ ∨ key < r.toList[i].endKey) := by
    intro i hi
    rw [at?_eq r (length_toList r ▸ hi), getElem?_eq_getElem hi]
    exact decide_eq_true_iff
  generalize hg : (fun i => match r.at? i with
      | none => false
      | some cur => decide (cur.endKey = ⊥ ∨ cur.endKey > key)) = f at hf ⊢
  replace hf : ∀ i (hi : i < r.toList.length), f i = true ↔ (r.toList[i].endKey = ⊥ ∨ key < r.toList[i].endKey) := by
    intro i hi
    rw [← hg]
    exact hf i hi
  have hmono : ∀ i j, i ≤ j → j < r.len → f i = true → f j = true := by
    intro i j hij hj hi
    rw [← length_toList] at hj
    have hi' := (hf i (by omega)).mp hi
    apply (hf j hj).mpr
    rcases Nat.eq_or_lt_of_le hij with rfl | hlt
    · exact hi'
    · have hbefore := pairwise_iff_getElem.mp hr.before i j (by omega) hj hlt
      have hend := hi'.resolve_left hbefore.1
      rcases hr.nonEmpty _ (getElem_mem hj) with hne | hbot
      · exact .inr ((hend.trans_le hbefore.2).trans hne)
      · exact .inl hbot
  obtain ⟨hle, hiff⟩ := search_spec hmono
  refine ⟨_, hle, rfl, ?_, ?_⟩
  · intro a ha
    obtain ⟨i, hi, rfl⟩ := getElem_of_mem ha
    rw [length_take] at hi
    rw [getElem_take]
    have hnot : ¬ f i = true := fun h => absurd ((hiff i (by omega)).mp h) (by omega)
    rw [hf i (by omega), not_or] at hnot
    exact ⟨hnot.1, not_lt.mp hnot.2⟩
  · intro b hb
    obtain ⟨i, hi, rfl⟩ := getElem_of_mem hb
    rw [length_drop, length_toList] at hi
    rw [getElem_drop]
    exact (hf _ (by rw [length_toList]; omega)).mp ((hiff _ (by omega)).mpr (by omega))

theorem split_spec (r : KeyRanges K) (hr : Ascending r.toList) (key : K) : Ascending ((r.split key).1.toList ++ (r.split
    key).2.toList) ∧ (∀ k, Has (r.split key).1.toList k ↔ Has r.toList k ∧ k < key) ∧ (∀ k, Has (r.split key).2.toList k
    ↔ Has r.toList k ∧ key ≤ k) := by
  obtain ⟨n, hn, hsearch, hleft, hright⟩ := search_end r hr key
  have hlist := take_append_drop n r.toList
  have hslice₁ : (r.slice 0 n).toList = r.toList.take n := by rw [toList_slice r (Nat.zero_le n) hn, drop_zero]
  have hslice₂ : (r.slice n r.len).toList = r.toList.drop n := by
    rw [toList_slice r hn (Nat.le_refl _), take_of_length_le (length_toList r).le]
  -- no range contains the key in its inside
  have hplain : (∀ b ∈ r.toList.drop n, key ≤ b.startKey) → Ascending ((r.slice 0 n).toList ++ (r.slice n r.len).toList)
      ∧ (∀ k, Has (r.slice 0 n).toList k ↔ Has r.toList k ∧ k < key) ∧ (∀ k, Has (r.slice n r.len).toList k ↔ Has
      r.toList k ∧ key ≤ k) := by
    intro hstart
    have hhas := fun k => has_of_split (k := k) hleft hstart
    rw [hlist] at hhas
    rw [hslice₁, hslice₂, hlist]
    exact ⟨hr, fun k => (hhas k).1, fun k => (hhas k).2⟩
  rw [split, hsearch]
  by_cases hlt : n < r.len
  · have hlt' : n < r.toList.length := by rwa [length_toList]
    have hdrop := drop_eq_getElem_cons hlt'
    rw [if_pos hlt, at?_eq r hlt, getElem?_eq_getElem hlt']
    generalize hp : r.toList[n] = p at hdrop
    have hpmem : p ∈ r.toList.drop n := hdrop ▸ mem_cons_self
    have hsplit : r.toList.take n ++ p :: r.toList.drop (n + 1) = r.toList := by rw [← hdrop, hlist]
    have hr' : Ascending (r.toList.take n ++ p :: r.toList.drop (n + 1)) := hsplit.symm ▸ hr
    obtain ⟨-, hpr, -⟩ := ascending_append.mp hr'
    obtain ⟨hpne, -, hafter⟩ := ascending_cons.mp hpr
    dsimp only
    split_ifs with hkey
    · have hcut : p.CutBy key := ⟨hkey, (hright p hpmem).symm⟩
      have hasc := hr'.cut hcut
      have hfront : ∀ a ∈ r.toList.take n ++ [⟨p.startKey, key⟩], a.endKey ≠ ⊥ ∧ a.endKey ≤ key := by
        intro a ha
        rcases mem_append.mp ha with ha | ha
        · exact hleft a ha
        · rw [mem_singleton.mp ha]
          exact ⟨hcut.ne_bot, le_refl _⟩
      have hback : ∀ b ∈ (⟨key, p.endKey⟩ :: r.toList.drop (n + 1) : List (KeyRange K)), key ≤ b.startKey := by
        intro b hb
        rcases mem_cons.mp hb with rfl | hb
        · exact le_refl _
        · have hb' := hafter b hb
          exact ((hright p hpmem).resolve_left hb'.1).le.trans hb'.2
      have hhas := fun k => has_of_split (k := k) hfront hback
      rw [append_assoc, singleton_append] at hhas
      rw [toList_setLast r hlt, toList_setFirst r hlt, append_assoc, singleton_append]
      refine ⟨hasc, fun k => (hhas k).1.trans ?_, fun k => (hhas k).2.trans ?_⟩
      · rw [has_cut hcut, hsplit]
      · rw [has_cut hcut, hsplit]
    · apply hplain
      intro b hb
      rw [hdrop] at hb
      rcases mem_cons.mp hb with rfl | hb
      · exact not_lt.mp hkey
      · exact (not_lt.mp hkey).trans ((hafter b hb).start_lt hpne).le
  · rw [if_neg hlt]
    apply hplain
    intro b hb
    rw [drop_eq_nil_of_le (by rw [length_toList]; omega)] at hb
    cases hb

end Split

end KeyRanges

end Copr
