import Mathlib.Tactic
import Mathlib.Data.List.Sort

/-!
# Maps in the order of their keys

A finite map as the list of its entries, which is strictly sorted by key.  The order of the entries is
part of the map, so that a scan over a range of keys is a part of this list.
-/

universe u v

def SortedKeys {α : Type u} {β : Type v} [Ord α] (l : List (α × β)) : Prop :=
  l.Pairwise fun a b => compare a.1 b.1 = .lt

structure SortedMap (α : Type u) (β : Type v) [Ord α] where
  entries : List (α × β)
  sorted : SortedKeys entries

namespace SortedMap

open List Option

variable {α : Type u} {β : Type v} [Ord α]

def empty : SortedMap α β := ⟨[], .nil⟩

def findIn (k : α) : List (α × β) → Option β
  | [] => none
  | e :: rest => if compare e.1 k = .eq then some e.2 else findIn k rest

def find (m : SortedMap α β) (k : α) : Option β := findIn k m.entries

def putIn (k : α) (v : β) : List (α × β) → List (α × β)
  | [] => [(k, v)]
  | e :: rest =>
    match compare k e.1 with
    | .lt => (k, v) :: e :: rest
    | .eq => (k, v) :: rest
    | .gt => e :: putIn k v rest

def between (m : SortedMap α β) (lo hi : α) : List (α × β) :=
  m.entries.filter fun e => (compare lo e.1).isLE && (compare e.1 hi).isLT

def belowReverse (m : SortedMap α β) (hi : α) : List (α × β) :=
  (m.entries.filter fun e => (compare e.1 hi).isLT).reverse

def last (m : SortedMap α β) : Option (α × β) := m.entries.getLast?

def lastAtMost (m : SortedMap α β) (k : α) : Option (α × β) :=
  (m.entries.filter fun e => (compare e.1 k).isLE).getLast?

@[simp] theorem find_empty (k : α) : (empty : SortedMap α β).find k = none := rfl

variable [Std.TransOrd α] [Std.LawfulEqOrd α]

variable {l : List (α × β)} {e : α × β} {k : α} {v : β}

theorem mem_putIn (hl : SortedKeys l) : e ∈ putIn k v l ↔ e = (k, v) ∨ e ∈ l ∧ e.1 ≠ k := by
  induction l with
  | nil => simp [putIn]
  | cons d rest ih =>
    obtain ⟨hd, hrest⟩ := pairwise_cons.mp hl
    -- an entry behind `d` has another key than `d`
    have hne : ∀ x ∈ rest, compare k d.1 ≠ .gt → x.1 ≠ k := by
      intro x hx hk heq
      have hlt := hd x hx
      rw [heq, Std.OrientedOrd.eq_swap] at hlt
      apply hk
      cases hc : compare k d.1 with
      | gt => rfl
      | _ => rw [hc] at hlt; cases hlt
    rw [putIn]
    cases hc : compare k d.1 with
    | lt =>
      have hdk : d.1 ≠ k := by
        intro heq
        rw [heq, Std.compare_self] at hc
        cases hc
      have hrestk : ∀ x ∈ rest, x.1 ≠ k := fun x hx => hne x hx (by rw [hc]; decide)
      simp only [mem_cons]
      constructor
      · rintro (h | h | h)
        · exact .inl h
        · exact .inr ⟨.inl h, h ▸ hdk⟩
        · exact .inr ⟨.inr h, hrestk e h⟩
      · rintro (h | ⟨h, -⟩)
        · exact .inl h
        · exact .inr h
    | eq =>
      have hkd : k = d.1 := Std.compare_eq_iff_eq.mp hc
      have hrestk : ∀ x ∈ rest, x.1 ≠ k := fun x hx => hne x hx (by rw [hc]; decide)
      simp only [mem_cons]
      constructor
      · rintro (h | h)
        · exact .inl h
        · exact .inr ⟨.inr h, hrestk e h⟩
      · rintro (h | ⟨h | h, hk⟩)
        · exact .inl h
        · exact absurd (h ▸ hkd.symm) hk
        · exact .inr h
    | gt =>
      have hdk : d.1 ≠ k := by
        intro heq
        rw [heq, Std.compare_self] at hc
        cases hc
      simp only [mem_cons, ih hrest]
      constructor
      · rintro (h | h | ⟨h, hk⟩)
        · exact .inr ⟨.inl h, h ▸ hdk⟩
        · exact .inl h
        · exact .inr ⟨.inr h, hk⟩
      · rintro (h | ⟨h | h, hk⟩)
        · exact .inr (.inl h)
        · exact .inl h
        · exact .inr (.inr ⟨h, hk⟩)

theorem sorted_putIn (k : α) (v : β) (hl : SortedKeys l) : SortedKeys (putIn k v l) := by
  induction l with
  | nil => exact pairwise_singleton _ _
  | cons d rest ih =>
    obtain ⟨hd, hrest⟩ := pairwise_cons.mp hl
    rw [putIn]
    cases hc : compare k d.1 with
    | lt =>
      apply pairwise_cons.mpr
      refine ⟨fun x hx => ?_, hl⟩
      rcases mem_cons.mp hx with rfl | hx
      · exact hc
      · exact Std.TransCmp.lt_trans hc (hd x hx)
    | eq =>
      apply pairwise_cons.mpr
      refine ⟨fun x hx => ?_, hrest⟩
      rw [Std.compare_eq_iff_eq.mp hc]
      exact hd x hx
    | gt =>
      apply pairwise_cons.mpr
      refine ⟨fun x hx => ?_, ih hrest⟩
      rcases (mem_putIn hrest).mp hx with rfl | ⟨hx, -⟩
      · rw [Std.OrientedOrd.eq_swap, hc]
        rfl
      · exact hd x hx

def insert (m : SortedMap α β) (k : α) (v : β) : SortedMap α β :=
  ⟨putIn k v m.entries, sorted_putIn k v m.sorted⟩

def erase (m : SortedMap α β) (k : α) : SortedMap α β :=
  ⟨m.entries.filter fun e => compare e.1 k != .eq, m.sorted.filter _⟩

omit [Std.TransOrd α] in
theorem findIn_eq_some (hl : SortedKeys l) : findIn k l = some v ↔ (k, v) ∈ l := by
  induction l with
  | nil => simp [findIn]
  | cons d rest ih =>
    obtain ⟨hd, hrest⟩ := pairwise_cons.mp hl
    rw [findIn, mem_cons]
    by_cases hk : compare d.1 k = .eq
    · rw [if_pos hk]
      have hdk : d.1 = k := Std.compare_eq_iff_eq.mp hk
      constructor
      · intro h
        left
        rw [← hdk, ← some.inj h]
      · rintro (h | h)
        · rw [← h]
        · -- the key would stand behind itself
          have := hd _ h
          rw [hdk, Std.compare_self] at this
          cases this
    · rw [if_neg hk, ih hrest]
      constructor
      · exact .inr
      · rintro (h | h)
        · rw [← h, Std.compare_self] at hk
          exact absurd rfl hk
        · exact h

omit [Std.TransOrd α] in
theorem find_eq_some (m : SortedMap α β) : m.find k = some v ↔ (k, v) ∈ m.entries :=
  findIn_eq_some m.sorted

@[simp] theorem find_insert_self (m : SortedMap α β) (k : α) (v : β) : (m.insert k v).find k = some v :=
  (find_eq_some _).mpr ((mem_putIn m.sorted).mpr (.inl rfl))

theorem find_insert_of_ne (m : SortedMap α β) {k' : α} (h : k' ≠ k) (v : β) : (m.insert k v).find k' = m.find k' := by
  apply ext
  intro w
  rw [find_eq_some, find_eq_some]
  show (k', w) ∈ putIn k v m.entries ↔ _
  rw [mem_putIn m.sorted]
  constructor
  · rintro (heq | ⟨hmem, -⟩)
    · exact absurd (congrArg Prod.fst heq) h
    · exact hmem
  · exact fun hmem => .inr ⟨hmem, h⟩

omit [Std.TransOrd α] in
@[simp] theorem find_erase_self (m : SortedMap α β) (k : α) : (m.erase k).find k = none := by
  apply eq_none_iff_forall_ne_some.mpr
  intro w hw
  rw [find_eq_some] at hw
  have h := (mem_filter.mp hw).2
  simp at h

omit [Std.TransOrd α] in
theorem find_erase_of_ne (m : SortedMap α β) {k' : α} (h : k' ≠ k) : (m.erase k).find k' = m.find k' := by
  apply ext
  intro w
  rw [find_eq_some, find_eq_some]
  show (k', w) ∈ m.entries.filter _ ↔ _
  rw [mem_filter]
  constructor
  · exact fun hmem => hmem.1
  · refine fun hmem => ⟨hmem, ?_⟩
    simpa using h

theorem eq_of_mem_iff {l₁ l₂ : List (α × β)} (h₁ : SortedKeys l₁) (h₂ : SortedKeys l₂)
    (h : ∀ e, e ∈ l₁ ↔ e ∈ l₂) : l₁ = l₂ := by
  have : Std.Irrefl fun a b : α × β => compare a.1 b.1 = .lt :=
    ⟨fun a ha => by rw [Std.compare_self] at ha; cases ha⟩
  have : Std.Antisymm fun a b : α × β => compare a.1 b.1 = .lt := by
    constructor
    intro a b hab hba
    rw [Std.OrientedOrd.eq_swap, hba] at hab
    cases hab
  exact List.Pairwise.eq_of_mem_iff h₁ h₂ h

omit [Std.LawfulEqOrd α] in
theorem filter_below_append (lo : α) (hl : SortedKeys l) :
    l.filter (fun e => (compare e.1 lo).isLT) ++ l.filter (fun e => (compare lo e.1).isLE) = l := by
  induction l with
  | nil => rfl
  | cons d rest ih =>
    obtain ⟨hd, hrest⟩ := pairwise_cons.mp hl
    by_cases hlt : compare d.1 lo = .lt
    · have hgt : compare lo d.1 = .gt := Std.OrientedCmp.gt_of_lt hlt
      simp only [filter_cons, hlt, hgt, Ordering.isLT_lt, Ordering.isLE_gt, Bool.false_eq_true,
        if_true, if_false, cons_append, ih hrest]
    · -- nothing behind `d` is below `lo` either
      have hall : ∀ e ∈ d :: rest, compare e.1 lo ≠ .lt := by
        intro e he hlt'
        rcases mem_cons.mp he with rfl | he
        · exact hlt hlt'
        · exact hlt (Std.TransCmp.lt_trans (hd e he) hlt')
      have hnone : (d :: rest).filter (fun e => (compare e.1 lo).isLT) = [] := by
        rw [filter_eq_nil_iff]
        intro e he
        rw [Ordering.isLT_iff_eq_lt]
        exact hall e he
      have hrest : (d :: rest).filter (fun e => (compare lo e.1).isLE) = d :: rest := by
        rw [filter_eq_self]
        intro e he
        rw [Ordering.isLE_iff_ne_gt]
        exact fun hgt => hall e he (Std.OrientedCmp.lt_of_gt hgt)
      rw [hnone, hrest, nil_append]

omit [Std.LawfulEqOrd α] in
theorem belowReverse_eq (m : SortedMap α β) {lo hi : α} (h : (compare lo hi).isLE = true) :
    m.belowReverse hi = (m.between lo hi).reverse ++ m.belowReverse lo := by
  have hsplit := filter_below_append lo (m.sorted.filter fun e => (compare e.1 hi).isLT)
  have hlow : (m.entries.filter fun e => (compare e.1 lo).isLT && (compare e.1 hi).isLT) =
      m.entries.filter fun e => (compare e.1 lo).isLT := by
    refine filter_congr fun e _ => Bool.eq_iff_iff.mpr ?_
    rw [Bool.and_eq_true, Ordering.isLT_iff_eq_lt, Ordering.isLT_iff_eq_lt]
    exact and_iff_left_of_imp fun hlt => Std.TransCmp.lt_of_lt_of_isLE hlt h
  rw [List.filter_filter, List.filter_filter, hlow] at hsplit
  rw [belowReverse, ← hsplit, reverse_append]
  rfl

@[ext] theorem ext {m₁ m₂ : SortedMap α β} (h : ∀ k, m₁.find k = m₂.find k) : m₁ = m₂ := by
  obtain ⟨l₁, h₁⟩ := m₁
  obtain ⟨l₂, h₂⟩ := m₂
  have heq : l₁ = l₂ := by
    apply eq_of_mem_iff h₁ h₂
    rintro ⟨k, v⟩
    rw [← findIn_eq_some h₁, ← findIn_eq_some h₂]
    show find ⟨l₁, h₁⟩ k = _ ↔ find ⟨l₂, h₂⟩ k = _
    rw [h k]
  subst heq
  rfl

/-! ## Sums over the entries -/

def total (f : β → ℕ) (m : SortedMap α β) : ℕ := (m.entries.map fun e => f e.2).sum

omit [Std.TransOrd α] in
theorem sum_filter_ne (f : β → ℕ) (k : α) (hl : SortedKeys l) :
    ((l.filter fun e => compare e.1 k != .eq).map fun e => f e.2).sum + (findIn k l).elim 0 f
      = (l.map fun e => f e.2).sum := by
  induction l with
  | nil => rfl
  | cons d rest ih =>
    obtain ⟨hd, hrest⟩ := pairwise_cons.mp hl
    rw [findIn]
    by_cases hk : compare d.1 k = .eq
    · -- the entry of `k` is the only one
      have hrestk : findIn k rest = none := by
        apply eq_none_iff_forall_ne_some.mpr
        intro v hv
        have hlt := hd _ ((findIn_eq_some hrest).mp hv)
        rw [hk] at hlt
        cases hlt
      have ih := ih hrest
      rw [hrestk] at ih
      simp only [filter_cons, hk, bne_self_eq_false, Bool.false_eq_true, if_false, if_true,
        map_cons, sum_cons, elim_some]
      rw [← ih, elim_none]
      omega
    · have hne : (compare d.1 k != .eq) = true := by simpa using hk
      simp only [filter_cons, hne, if_true, hk, if_false, map_cons, sum_cons]
      rw [← ih hrest]
      omega

omit [Std.TransOrd α] in
theorem total_erase (f : β → ℕ) (m : SortedMap α β) (k : α) : (m.erase k).total f + (m.find k).elim 0 f = m.total f :=
  sum_filter_ne f k m.sorted

theorem erase_insert (m : SortedMap α β) (k : α) (v : β) : (m.insert k v).erase k = m.erase k := by
  ext1 k'
  by_cases h : k' = k
  · rw [h, find_erase_self, find_erase_self]
  · rw [find_erase_of_ne _ h, find_erase_of_ne _ h, find_insert_of_ne _ h]

theorem total_insert (f : β → ℕ) (m : SortedMap α β) (k : α) (v : β) :
    (m.insert k v).total f + (m.find k).elim 0 f = m.total f + f v := by
  have hinsert := total_erase f (m.insert k v) k
  have hold := total_erase f m k
  rw [erase_insert, find_insert_self, elim_some] at hinsert
  omega

/-! ## The last entry -/

omit [Std.TransOrd α] [Std.LawfulEqOrd α] in
theorem compare_le_getLast [Std.OrientedOrd α] (hl : SortedKeys l)
    (h : l.getLast? = some e) {x : α × β} (hx : x ∈ l) : (compare x.1 e.1).isLE := by
  obtain ⟨front, rfl⟩ := getLast?_eq_some_iff.mp h
  rcases mem_append.mp hx with hx | hx
  · rw [(pairwise_append.mp hl).2.2 x hx e mem_cons_self]
    rfl
  · rw [mem_singleton.mp hx, Std.ReflOrd.compare_self]
    rfl

variable {m : SortedMap α β}

theorem last_eq_some (h : m.last = some e) :
    m.find e.1 = some e.2 ∧ ∀ k v, m.find k = some v → (compare k e.1).isLE := by
  refine ⟨(find_eq_some m).mpr (mem_of_getLast? h), fun k v hk => ?_⟩
  exact compare_le_getLast m.sorted h ((find_eq_some m).mp hk)

omit [Std.TransOrd α] in
theorem last_eq_none (h : m.last = none) (k : α) : m.find k = none := by
  apply eq_none_iff_forall_ne_some.mpr
  intro v hk
  have hmem := (find_eq_some m).mp hk
  rw [getLast?_eq_none_iff.mp h] at hmem
  cases hmem

theorem lastAtMost_eq_some {ts : α} (h : m.lastAtMost ts = some e) : m.find e.1 = some e.2 ∧ (compare e.1 ts).isLE ∧
      ∀ k v, m.find k = some v → (compare k ts).isLE → (compare k e.1).isLE := by
  have hmem := mem_filter.mp (mem_of_getLast? h)
  refine ⟨(find_eq_some m).mpr hmem.1, hmem.2, fun k v hk hle => ?_⟩
  exact compare_le_getLast (m.sorted.filter _) h (mem_filter.mpr ⟨(find_eq_some m).mp hk, hle⟩)

omit [Std.TransOrd α] in
theorem lastAtMost_eq_none {ts : α} (h : m.lastAtMost ts = none) (hk : m.find k = some v) : ¬ (compare k ts).isLE := by
  intro hle
  have hmem : (k, v) ∈ m.entries.filter fun e => (compare e.1 ts).isLE :=
    mem_filter.mpr ⟨(find_eq_some m).mp hk, hle⟩
  rw [getLast?_eq_none_iff.mp h] at hmem
  cases hmem

end SortedMap
