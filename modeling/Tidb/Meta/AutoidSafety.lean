import Tidb.Meta.Autoid

/-!
# What the allocators give out

Over every interleaving no ID is given out twice, each allocator's IDs rise, and a rebase is kept:
an allocator's `(base, end]` is reserved in the counter, and each transaction reserves a range above
it.  The arithmetic of the batch sizes is exact as long as a request is short of the 64-bit range,
and refuses near the largest number of the type.
-/

namespace Tidb.Autoid

open GoLang Interleaving Reservation Progression

/-! ## The size of a batch -/

/-- The requests whose batch size is an `int64`, with an increment and an offset that the system
variables can have. -/
structure AllocReq.Fits (req : AllocReq) : Prop where
  n_pos : 0 < req.n
  increment_pos : 1 ≤ req.increment
  increment_le : req.increment ≤ maxIncrement
  offset_pos : 1 ≤ req.offset
  offset_le : req.offset ≤ maxIncrement
  size : (req.n + 1) * req.increment < 2 ^ 63
  nextStep_ge : minStep ≤ req.nextStep
  nextStep_le : req.nextStep ≤ maxStep

/-- The size `n1` reaches from the base to the last of the `n` IDs, or is too large for what is left
up to `top`. -/
structure Needed (top base n1 : ℤ) (req : AllocReq) : Prop where
  pos : 0 < n1
  lt : n1 < 2 ^ 63
  exact_or : n1 = first base req.increment req.offset + (req.n - 1) * req.increment - base ∨
    top - base < req.increment ∧ top - base < n1

variable {req : AllocReq}

theorem AllocReq.Fits.int64_n (h : req.Fits) : int64 req.n = req.n := by
  have h1 := h.size
  have h2 := h.increment_pos
  have h3 : (req.n : ℤ) ≤ (req.n + 1) * req.increment := by nlinarith
  apply int64_of_isInt64
  unfold IsInt64
  omega

variable {base : ℤ}

theorem needed_one {top : ℤ} (h : req.Fits) (hone : req.increment = 1) :
    Needed top base req.n req := by
  have hn := h.n_pos
  have hs := h.size
  rw [hone] at hs
  refine ⟨by omega, by omega, .inl ?_⟩
  rw [first, hone]
  simp

/-- From the first ID of a request to the last one. -/
theorem AllocReq.Fits.exists_span (h : req.Fits) :
    ∃ P, (req.n - 1 : ℤ) * req.increment = P ∧ 0 ≤ P ∧ P + 2 * req.increment < 2 ^ 63 := by
  have hinc := h.increment_pos
  have hn := h.n_pos
  have hsize := h.size
  have hsplit : (req.n + 1 : ℤ) * req.increment =
      (req.n - 1) * req.increment + 2 * req.increment := by ring
  exact ⟨_, rfl, mul_nonneg (by omega) (by omega), by omega⟩

theorem needed_exact {top P : ℤ} (h : req.Fits) (hP : (req.n - 1 : ℤ) * req.increment = P)
    (hP0 : 0 ≤ P) (hlt : P + 2 * req.increment < 2 ^ 63) :
    Needed top base (first base req.increment req.offset + P - base) req := by
  have hinc := h.increment_pos
  have hlo := lt_first base req.offset (show 0 < req.increment by omega)
  have hhi := first_le base req.offset (show 0 < req.increment by omega)
  exact ⟨by omega, by omega, .inl (by rw [hP])⟩

theorem needed_signed (h : req.Fits) (h0 : 0 ≤ base) (hM : base ≤ maxInt64)
    (hoff : req.offset - 1 ≤ base) :
    Needed maxInt64 base (calcNeededBatchSize base (int64 req.n) req.increment req.offset false)
      req := by
  rw [calcNeededBatchSize, h.int64_n]
  by_cases hone : req.increment = 1
  · rw [if_pos hone]
    exact needed_one h hone
  have hinc := h.increment_pos
  have hoffpos := h.offset_pos
  obtain ⟨P, hP, hP0, hlt⟩ := h.exists_span
  have hhi := first_le base req.offset (show 0 < req.increment by omega)
  have hneed := @needed_exact req base maxInt64 P h hP hP0 hlt
  rw [if_neg hone]
  simp only [Bool.false_eq_true, if_false, seekToFirstAutoIDSigned, hP]
  unfold maxInt64 at *
  by_cases hx : base + req.increment - req.offset < 2 ^ 63
  · rw [int64_of_isInt64 ⟨by omega, hx⟩, Int.tdiv_eq_ediv_of_nonneg (by omega), ← first]
    have hpos := hneed.pos
    have hexact : int64 (int64 (int64 (first base req.increment req.offset) + P) - base) =
        first base req.increment req.offset + P - base := by
      unfold int64
      omega
    rwa [hexact]
  · -- the sum wraps around, and the quotient of the negative number is rounded up
    have hxi : int64 (base + req.increment - req.offset) =
        -(2 ^ 64 - (base + req.increment - req.offset)) := by
      unfold int64
      omega
    have hy : 0 ≤ 2 ^ 64 - (base + req.increment - req.offset) := by omega
    have hdiv := Int.mul_ediv_add_emod (2 ^ 64 - (base + req.increment - req.offset)) req.increment
    have hm1 := Int.emod_lt_of_pos (2 ^ 64 - (base + req.increment - req.offset))
      (show 0 < req.increment by omega)
    have hm0 := Int.emod_nonneg (2 ^ 64 - (base + req.increment - req.offset))
      (show req.increment ≠ 0 by omega)
    rw [hxi, Int.neg_tdiv, Int.tdiv_eq_ediv_of_nonneg hy, Int.neg_mul, Int.mul_comm _ req.increment]
    generalize
      req.increment * ((2 ^ 64 - (base + req.increment - req.offset)) / req.increment) = q at *
    generalize (2 ^ 64 - (base + req.increment - req.offset)) % req.increment = m at *
    have hwrap : int64 (int64 (int64 (-q + req.offset) + P) - base) = req.increment + m + P := by
      unfold int64
      omega
    exact ⟨by omega, by omega, .inr ⟨by omega, by omega⟩⟩

theorem needed_unsigned (h : req.Fits) (hoff : req.offset - 1 ≤ uint64 base) :
    Needed maxUint64 (uint64 base)
      (calcNeededBatchSize base (int64 req.n) req.increment req.offset true) req := by
  rw [calcNeededBatchSize, h.int64_n]
  by_cases hone : req.increment = 1
  · rw [if_pos hone]
    exact needed_one h hone
  have hinc := h.increment_pos
  have hincle := h.increment_le
  have hoffpos := h.offset_pos
  have hoffle := h.offset_le
  have hM := uint64_le base
  have hn : (req.n : ℤ) ≤ (req.n + 1) * req.increment := by nlinarith
  have hsize := h.size
  obtain ⟨P, hP, hP0, hlt⟩ := h.exists_span
  unfold maxIncrement at hincle hoffle
  have hu : ∀ x : ℤ, 0 ≤ x → x < 2 ^ 63 → uint64 x = x := fun x h0 h1 =>
    uint64_of_nonneg h0 (by unfold maxUint64; omega)
  rw [if_neg hone]
  simp only [if_true, seekToFirstAutoIDUnSigned, hu req.increment (by omega) (by omega),
    hu req.offset (by omega) (by omega), hu req.n (by omega) (by omega), hP]
  have hneed := @needed_exact req (uint64 base) maxUint64 P h hP hP0 hlt
  have hhi := first_le (uint64 base) req.offset (show 0 < req.increment by omega)
  generalize uint64 base = B at *
  unfold maxUint64 at *
  by_cases hx : B + req.increment - req.offset < 2 ^ 64
  · rw [uint64_of_nonneg (x := B + req.increment - req.offset) (by omega)
      (by unfold maxUint64; omega), ← first]
    have hpos := hneed.pos
    have hexact : int64 (uint64 (uint64 (first B req.increment req.offset) + P) - B) =
        first B req.increment req.offset + P - B := by
      unfold int64 uint64
      omega
    rwa [hexact]
  · have hxi : uint64 (B + req.increment - req.offset) =
        B + req.increment - req.offset - 2 ^ 64 := by
      unfold uint64
      omega
    have hq : (B + req.increment - req.offset - 2 ^ 64) / req.increment = 0 :=
      Int.ediv_eq_zero_of_lt (by omega) (by omega)
    have hwrap : int64 (uint64 (uint64 (0 * req.increment + req.offset) + P) - B) =
        req.offset + P + 2 ^ 64 - B := by
      unfold int64 uint64
      omega
    rw [hxi, hq]
    exact ⟨by omega, by omega, .inr ⟨by omega, by omega⟩⟩

section Needed

variable {top base n1 : ℤ} (hreq : req.Fits) (h : Needed top base n1 req)

include hreq h

theorem Needed.card_eq (hle : n1 ≤ top - base) :
    (members base (base + n1) req.increment req.offset).card = req.n := by
  have hinc : 0 < req.increment := by have := hreq.increment_pos; omega
  rcases h.exact_or with hex | ⟨-, hlt⟩
  · rw [show base + n1 = first base req.increment req.offset + (req.n - 1) * req.increment by omega]
    exact card_members hinc req.n
  · omega

theorem Needed.card_lt (hle : top - base ≤ n1) :
    (members base (top - req.increment) req.increment req.offset).card < req.n := by
  have hinc : 0 < req.increment := by have := hreq.increment_pos; omega
  rcases h.exact_or with hex | ⟨hnear, -⟩
  · exact card_members_lt hinc hreq.n_pos (by omega)
  · have hempty : members base (top - req.increment) req.increment req.offset = ∅ := by
      rw [members, Finset.Ioc_eq_empty (by omega), Finset.filter_empty]
    rw [hempty]
    exact hreq.n_pos

end Needed

/-! ## The range of an allocator -/

def value (isUnsigned : Bool) (x : ℤ) : ℤ := if isUnsigned then uint64 x else x

def top (isUnsigned : Bool) : ℤ := if isUnsigned then maxUint64 else maxInt64

/-- Above the base there are less IDs than asked for, up to an increment below the largest. -/
def FewLeft (isUnsigned : Bool) (req : AllocReq) (base : ℤ) : Prop :=
  (members base (top isUnsigned - req.increment) req.increment req.offset).card < req.n

def CellOk (isUnsigned : Bool) (s : ℤ) : Prop := IsInt64 s ∧ 0 ≤ value isUnsigned s

def own (isUnsigned : Bool) (alloc : Allocator) : Range :=
  ⟨value isUnsigned alloc.base, value isUnsigned alloc.end_⟩

/-- The cached range is one of numbers of the type, and is reserved in a counter of `c`. -/
structure Good (isUnsigned : Bool) (alloc : Allocator) (c : ℤ) : Prop where
  kind : alloc.isUnsigned = isUnsigned
  base_int64 : IsInt64 alloc.base
  end_int64 : IsInt64 alloc.end_
  base_nonneg : 0 ≤ value isUnsigned alloc.base
  base_le : value isUnsigned alloc.base ≤ value isUnsigned alloc.end_
  end_le : value isUnsigned alloc.end_ ≤ c
  step_nonneg : 0 ≤ alloc.step
  step_lt : alloc.step < 2 ^ 63

variable {u : Bool} {c' c : ℤ}

theorem Good.mono {alloc : Allocator} (hc : c ≤ c') (h : Good u alloc c) : Good u alloc c' :=
  ⟨h.kind, h.base_int64, h.end_int64, h.base_nonneg, h.base_le, h.end_le.trans hc,
    h.step_nonneg, h.step_lt⟩

def Rebased (u : Bool) (required : ℤ) (x : Allocator × Except AllocErr Unit) (nd : Range)
    (c : ℤ) : Prop :=
  Good u x.1 c ∧ (∀ y, (own u x.1).Has y → nd.Has y) ∧
    match x.2 with
    | .ok () => required ≤ value u x.1.base
    | .error e => e = .storage

/-- A transaction on a counter of `s` reserves a range that starts at the larger of `s` and the
required base. -/
def Reserves {ε : Type} (u : Bool) (s required : ℤ) (r : Except ε (ℤ × Captured)) : Prop :=
  ∃ s' v, r = .ok (s', v) ∧ CellOk u s' ∧ IsInt64 v.newBase ∧ IsInt64 v.newEnd ∧
    value u v.newBase = max (value u s) required ∧ value u v.newBase ≤ value u v.newEnd ∧
    value u v.newEnd = value u s'

section Rebase

variable {u : Bool} {a : Allocator} {c : ℤ}

variable {required : ℤ}

theorem keeps_rebaseWith (hg : Good u a c) {base' : ℤ} (hb : IsInt64 base')
    (hv : value u a.base < required → value u base' = required)
    {body : ℤ → Except AllocErr (ℤ × Captured)}
    (hbody : ∀ s, CellOk u s → Reserves u s required (body s)) : Keeps (CellOk u) (value u) .storage
      (if required ≤ value u a.base then .ret (a, .ok ())
        else if required ≤ value u a.end_ then .ret ({ a with base := base' }, .ok ())
        else .txn body (afterRebase a)) (own u a) c (Rebased u required) := by
  have hb0 := hg.base_nonneg
  by_cases h1 : required ≤ value u a.base
  · rw [if_pos h1]
    exact ⟨hg, fun y hy => hy, h1⟩
  by_cases h2 : required ≤ value u a.end_
  · rw [if_neg h1, if_pos h2]
    have hval := hv (by omega)
    refine ⟨⟨hg.kind, hb, hg.end_int64, ?_, ?_, hg.end_le, hg.step_nonneg, hg.step_lt⟩,
      fun y hy => ⟨?_, hy.2⟩, hval.ge⟩
    · simp only [hval]
      omega
    · simp only [hval]
      exact h2
    · have hlt : value u base' < y := hy.1
      simp only [own]
      omega
  · rw [if_neg h1, if_neg h2]
    intro s hs hcs
    obtain ⟨s', v, hok, hcell, hnb, hne, hbase, hbe, hend⟩ := hbody s hs
    rw [hok]
    refine ⟨⟨hg.mono hcs, fun y hy => hy, rfl⟩, fun e he => (by cases he), fun s₁ b hb => ?_⟩
    cases hb
    refine ⟨hcell, value u v.newBase, by omega, by omega, ?_⟩
    exact ⟨⟨hg.kind, hnb, hne, by have := hs.2; simp only; omega, hbe, hend.le, hg.step_nonneg,
      hg.step_lt⟩, fun y hy => ⟨hy.1, hend ▸ hy.2⟩, by simp only; omega⟩

theorem reserves_signed (hs0 : 0 ≤ a.step) (hs1 : a.step < 2 ^ 63) (hr : IsInt64 required)
    (allocIDs : Bool) {s : ℤ}
    (hs : CellOk false s) : Reserves false s required (rebaseTxnSigned a required allocIDs s) := by
  simp only [CellOk, value, Bool.false_eq_true, if_false, IsInt64] at hs
  unfold IsInt64 at hr
  unfold rebaseTxnSigned inc
  cases allocIDs with
  | true =>
    have hend : int64 (min (int64 (maxInt64 - a.step)) (max s required) + a.step) =
        min (maxInt64 - a.step) (max s required) + a.step := by
      unfold int64 maxInt64
      omega
    simp only [hend]
    have hcell : int64 (s + int64 (min (maxInt64 - a.step) (max s required) + a.step - s)) =
        min (maxInt64 - a.step) (max s required) + a.step := by
      unfold int64 maxInt64
      omega
    refine ⟨_, _, rfl, ?_⟩
    simp only [hcell, CellOk, value, Bool.false_eq_true, if_false, IsInt64, and_true, true_and]
    unfold maxInt64
    omega
  | false =>
    by_cases h : required ≤ s
    · rw [if_pos h]
      refine ⟨_, _, rfl, ?_⟩
      simp only [CellOk, value, Bool.false_eq_true, if_false, IsInt64, and_true]
      omega
    · rw [if_neg h]
      have hcell : int64 (s + int64 (required - s)) = required := by
        unfold int64
        omega
      refine ⟨_, _, rfl, ?_⟩
      simp only [CellOk, value, Bool.false_eq_true, if_false, IsInt64]
      omega

theorem reserves_unsigned (hs0 : 0 ≤ a.step) (hs1 : a.step < 2 ^ 63) (hr0 : 0 ≤ required)
    (hr : required ≤ maxUint64) (allocIDs : Bool) {s : ℤ} (hs : IsInt64 s) :
    Reserves true s required (rebaseTxnUnsigned a required allocIDs s) := by
  have hcell : ∀ x, uint64 (int64 (s + int64 (x - uint64 s))) = uint64 x := by
    unfold int64 uint64
    omega
  have hc0 := uint64_nonneg s
  have hcM := uint64_le s
  unfold rebaseTxnUnsigned inc
  cases allocIDs with
  | true =>
    have hstep : uint64 a.step = a.step :=
      uint64_of_nonneg hs0 (by unfold maxUint64; omega)
    have hmax : uint64 (maxUint64 - a.step) = maxUint64 - a.step :=
      uint64_of_nonneg (by unfold maxUint64; omega) (by omega)
    have hend : uint64 (min (maxUint64 - a.step) (max (uint64 s) required) + a.step) =
        min (maxUint64 - a.step) (max (uint64 s) required) + a.step :=
      uint64_of_nonneg (by unfold maxUint64; omega) (by omega)
    have hbase : uint64 (max (uint64 s) required) = max (uint64 s) required :=
      uint64_of_nonneg (by omega) (by omega)
    simp only [hstep, hmax]
    refine ⟨_, _, rfl, ⟨isInt64_int64 _, ?_⟩, isInt64_int64 _, isInt64_int64 _, ?_⟩
    · exact uint64_nonneg _
    · simp only [value, if_true, uint64_int64, hcell, hend, and_true]
      omega
  | false =>
    by_cases h : required ≤ uint64 s
    · rw [if_pos h]
      refine ⟨_, _, rfl, ⟨hs, hc0⟩, hs, hs, ?_⟩
      simp only [value, if_true, and_true]
      omega
    · rw [if_neg h]
      have hreq := uint64_of_nonneg hr0 hr
      refine ⟨_, _, rfl, ⟨isInt64_int64 _, uint64_nonneg _⟩, isInt64_int64 _, isInt64_int64 _, ?_⟩
      simp only [value, if_true, uint64_int64, hcell, hreq, and_true]
      omega

theorem keeps_rebase4Signed (hg : Good false a c) (hr : IsInt64 required) (allocIDs : Bool) :
    Keeps (CellOk false) (value false) .storage (rebase4Signed a required allocIDs) (own false a) c
      (Rebased false required) :=
  keeps_rebaseWith hg hr (fun _ => rfl) fun _ hs =>
    reserves_signed hg.step_nonneg hg.step_lt hr allocIDs hs

theorem keeps_rebase4Unsigned (hg : Good true a c) (hr0 : 0 ≤ required) (hr : required ≤ maxUint64)
    (allocIDs : Bool) :
    Keeps (CellOk true) (value true) .storage (rebase4Unsigned a required allocIDs) (own true a) c
      (Rebased true required) :=
  keeps_rebaseWith hg (isInt64_int64 required)
    (fun _ => (uint64_int64 required).trans (uint64_of_nonneg hr0 hr))
    fun _ hs => reserves_unsigned hg.step_nonneg hg.step_lt hr0 hr allocIDs hs.1

end Rebase

/-! ## Allocation -/

/-- What the reply to a request says: the range holds the `n` IDs, or there are too few of them
left. -/
def AllocPost (u : Bool) (req : AllocReq) (r : AllocResult) (a : Allocator) (c : ℤ) : Prop :=
  match r with
  | .ok (lo, hi) => value u lo < value u hi ∧ value u hi ≤ top u ∧
      (members (value u lo) (value u hi) req.increment req.offset).card = req.n
  | .error .autoincReadFailed => FewLeft u req (value u a.base) ∨ FewLeft u req c
  | .error _ => True

def Allocated (u : Bool) (req : AllocReq) (x : Allocator × AllocResult) (nd : Range)
    (c : ℤ) : Prop :=
  Good u x.1 c ∧ AllocPost u req x.2 x.1 c ∧
    match x.2 with
    | .ok (lo, hi) => value u hi ≤ c ∧ (∀ y, (⟨value u lo, value u hi⟩ : Range).Has y → nd.Has y) ∧
        ∀ y, (own u x.1).Has y → nd.Has y ∧ value u hi < y
    | .error _ => ∀ y, (own u x.1).Has y → nd.Has y

section Alloc

variable {u : Bool} {a : Allocator} {c : ℤ} {nd : Range} (hreq : req.Fits)

theorem value_le_top {x : ℤ} (h : IsInt64 x) : value u x ≤ top u := by
  cases u with
  | true => exact uint64_le x
  | false =>
    have := h.2
    simp only [value, top, maxInt64, Bool.false_eq_true, if_false]
    omega

variable {nextStep : ℤ}

theorem good_storeStep (hg : Good u a c) {base' end' : ℤ} (h0 : 0 ≤ nextStep)
    (h1 : nextStep < 2 ^ 63) (hb : CellOk u base') (he : IsInt64 end')
    (hle : value u base' ≤ value u end') (hc : value u end' ≤ c') :
    Good u { a.storeStep nextStep with base := base', end_ := end' } c' := by
  unfold Allocator.storeStep
  split
  · exact ⟨hg.kind, hb.1, he, hb.2, hle, hc, hg.step_nonneg, hg.step_lt⟩
  · exact ⟨hg.kind, hb.1, he, hb.2, hle, hc, h0, h1⟩

include hreq

theorem allocated_take (hg : Good u a c) (hnd : ∀ y, (own u a).Has y → nd.Has y) {n1 base' : ℤ}
    (hneed : Needed (top u) (value u a.base) n1 req) (hfit : value u a.base + n1 ≤ value u a.end_)
    (hb : IsInt64 base') (hv : value u base' = value u a.base + n1) :
    Allocated u req ({ a with base := base' }, .ok (a.base, base')) nd c := by
  have hpos := hneed.pos
  have h0 := hg.base_nonneg
  have hec := hg.end_le
  have htop := @value_le_top u a.end_ hg.end_int64
  refine ⟨⟨hg.kind, hb, hg.end_int64, ?_, ?_, hec, hg.step_nonneg, hg.step_lt⟩, ⟨?_, ?_, ?_⟩,
    ?_, ?_, ?_⟩
  · simp only [hv]
    omega
  · simp only [hv]
    exact hfit
  · omega
  · omega
  · rw [hv]
    exact hneed.card_eq hreq (by omega)
  · omega
  · intro y hy
    refine hnd y ⟨hy.1, ?_⟩
    have h2 := hy.2
    simp only [own] at h2 ⊢
    omega
  · intro y hy
    have h1 : value u base' < y := hy.1
    refine ⟨hnd y ⟨?_, hy.2⟩, h1⟩
    simp only [own]
    omega

theorem allocated_refused (hg : Good u a c) (hnd : ∀ y, (own u a).Has y → nd.Has y) {n1 : ℤ}
    (hneed : Needed (top u) (value u a.base) n1 req) (hle : top u - value u a.base ≤ n1) :
    Allocated u req (a, .error .autoincReadFailed) nd c :=
  ⟨hg, .inl (hneed.card_lt hreq hle), hnd⟩

def Batches (u : Bool) (req : AllocReq) (s : ℤ) (r : Except AllocErr (ℤ × Captured)) : Prop :=
  (r = .error .autoincReadFailed ∧ FewLeft u req (value u s)) ∨
  ∃ s' v, r = .ok (s', v) ∧ CellOk u s' ∧ v.newBase = s ∧ v.newEnd = s' ∧
    Needed (top u) (value u s) v.n1 req ∧ value u s + v.n1 ≤ value u s' ∧ 0 ≤ v.nextStep ∧
    v.nextStep < 2 ^ 63

theorem batches_signed (hkind : a.isUnsigned = false) {s : ℤ} (hs : CellOk false s)
    (hoff : req.offset - 1 ≤ s) (h0 : 0 ≤ nextStep) (h1 : nextStep < 2 ^ 63) :
    Batches false req s (batchSigned a req nextStep s) := by
  obtain ⟨⟨hlo, hhi⟩, hs0⟩ := hs
  simp only [value, Bool.false_eq_true, if_false] at hs0
  have hneed := needed_signed hreq hs0 (by unfold maxInt64; omega) hoff
  unfold Batches batchSigned inc
  rw [hkind]
  simp only [value, top, Bool.false_eq_true, if_false]
  generalize calcNeededBatchSize s (int64 req.n) req.increment req.offset false = n1 at *
  have hpos := hneed.pos
  have hlt := hneed.lt
  have hroom : int64 (maxInt64 - s) = maxInt64 - s :=
    int64_of_isInt64 ⟨by unfold maxInt64; omega, by unfold maxInt64; omega⟩
  rw [hroom]
  generalize hnext : (if nextStep < n1 then n1 else nextStep) = next
  have hnext0 : 0 ≤ next ∧ next < 2 ^ 63 ∧ n1 ≤ next := by
    rw [← hnext]
    split <;> omega
  by_cases htmp : min (maxInt64 - s) next < n1
  · rw [if_pos htmp]
    exact .inl ⟨rfl, hneed.card_lt hreq (show maxInt64 - s ≤ n1 by omega)⟩
  · rw [if_neg htmp]
    have hcell : int64 (s + min (maxInt64 - s) next) = s + min (maxInt64 - s) next :=
      int64_of_isInt64 ⟨by unfold maxInt64; omega, by unfold maxInt64; omega⟩
    refine .inr ⟨_, _, rfl, ?_, rfl, rfl, hneed, ?_, hnext0.1, hnext0.2.1⟩
    · refine ⟨isInt64_int64 _, ?_⟩
      simp only [value, Bool.false_eq_true, if_false]
      omega
    · change s + n1 ≤ _
      omega

theorem batches_unsigned (hkind : a.isUnsigned = true) {s : ℤ}
    (hoff : req.offset - 1 ≤ uint64 s) (h0 : 0 ≤ nextStep) (h1 : nextStep < 2 ^ 63) :
    Batches true req s (batchUnsigned a req nextStep s) := by
  have hneed := needed_unsigned hreq hoff
  unfold Batches batchUnsigned inc
  rw [hkind]
  simp only [value, top, if_true]
  generalize calcNeededBatchSize s (int64 req.n) req.increment req.offset true = n1 at *
  have hlt := hneed.lt
  have hcM := uint64_le s
  generalize hnext : (if nextStep < n1 then n1 else nextStep) = next
  have hnext0 : 0 ≤ next ∧ next < 2 ^ 63 ∧ n1 ≤ next := by
    rw [← hnext]
    split <;> omega
  have hun : uint64 next = next := uint64_of_nonneg hnext0.1 (by unfold maxUint64; omega)
  have htmp64 : int64 (min (maxUint64 - uint64 s) next) = min (maxUint64 - uint64 s) next :=
    int64_of_isInt64 ⟨by omega, by omega⟩
  rw [hun, htmp64]
  by_cases htmp : min (maxUint64 - uint64 s) next < n1
  · rw [if_pos htmp]
    exact .inl ⟨rfl, hneed.card_lt hreq (show maxUint64 - uint64 s ≤ n1 by omega)⟩
  · rw [if_neg htmp]
    have hcell : uint64 (int64 (s + min (maxUint64 - uint64 s) next)) =
        uint64 s + min (maxUint64 - uint64 s) next := by
      generalize hm : min (maxUint64 - uint64 s) next = m at *
      have hm1 : uint64 s + m ≤ maxUint64 := by omega
      unfold maxUint64 at hm1
      unfold uint64 int64 at *
      omega
    refine .inr ⟨_, _, rfl, ⟨isInt64_int64 _, uint64_nonneg _⟩, rfl, rfl, hneed, ?_, hnext0.1,
      hnext0.2.1⟩
    change uint64 s + n1 ≤ _
    omega

theorem keeps_batch (hg : Good u a c) (hnd : ∀ y, (own u a).Has y → nd.Has y)
    {body : ℤ → Except AllocErr (ℤ × Captured)}
    (hbody : ∀ s, CellOk u s → c ≤ value u s → Batches u req s (body s))
    {next : Except AllocErr Captured → Call (Allocator × AllocResult)}
    (herr : ∀ e, next (.error e) = .ret (a, .error e))
    (hok : ∀ v, CellOk u v.newBase → IsInt64 v.newEnd →
      value u v.newBase + v.n1 ≤ value u v.newEnd → 0 < v.n1 →
      ∃ base', IsInt64 base' ∧ value u base' = value u v.newBase + v.n1 ∧ next (.ok v) =
        .ret ({ a.storeStep v.nextStep with base := base', end_ := v.newEnd },
          .ok (v.newBase, base'))) :
    Keeps (CellOk u) (value u) .storage (.txn body next) nd c (Allocated u req) := by
  intro s hs hcs
  have hg' := hg.mono hcs
  rw [herr]
  refine ⟨⟨hg', trivial, hnd⟩, fun e he => ?_, fun s' v hv => ?_⟩
  · rw [herr]
    rcases hbody s hs hcs with ⟨hr, hfew⟩ | ⟨s', v, hr, -⟩
    · rw [hr] at he
      cases he
      exact ⟨hg', .inr hfew, hnd⟩
    · rw [hr] at he
      cases he
  · rcases hbody s hs hcs with ⟨hr, -⟩ | ⟨s₁, v₁, hr, hcell, hnb, hne, hneed, hfit, hn0, hn1⟩
    · rw [hr] at hv
      cases hv
    rw [hr] at hv
    cases hv
    subst hnb hne
    have hpos := hneed.pos
    obtain ⟨base', hb64, hbv, hnext⟩ := hok v hs hcell.1 hfit hpos
    refine ⟨hcell, value u v.newBase, le_rfl, by omega, ?_⟩
    rw [hnext]
    -- the IDs come off the range that was just reserved
    have hnew := good_storeStep hg hn0 hn1 hs hcell.1 (by omega) le_rfl
    exact allocated_take hreq hnew (fun y hy => hy) hneed hfit hb64 hbv

omit hreq in
theorem taken_signed {v : Captured} (hb : CellOk false v.newBase) (he : IsInt64 v.newEnd)
    (hpos : 0 < v.n1) (hfit : value false v.newBase + v.n1 ≤ value false v.newEnd) :
    v.newBase ≠ maxInt64 ∧ value false (int64 (v.newBase + v.n1)) =
      value false v.newBase + v.n1 := by
  have hb0 : 0 ≤ v.newBase := hb.2
  have hfit' : v.newBase + v.n1 ≤ v.newEnd := hfit
  have he1 := he.2
  exact ⟨by unfold maxInt64; omega, int64_of_isInt64 ⟨by omega, by omega⟩⟩

omit hreq in
theorem taken_unsigned {v : Captured} (hpos : 0 < v.n1)
    (hfit : value true v.newBase + v.n1 ≤ value true v.newEnd) :
    uint64 v.newBase ≠ maxUint64 ∧
      value true (int64 (uint64 v.newBase + uint64 v.n1)) = value true v.newBase + v.n1 := by
  have hfit' : uint64 v.newBase + v.n1 ≤ uint64 v.newEnd := hfit
  have he1 := uint64_le v.newEnd
  have hb0 := uint64_nonneg v.newBase
  refine ⟨by omega, ?_⟩
  change uint64 (int64 _) = uint64 v.newBase + v.n1
  rw [uint64_int64, uint64_of_nonneg hpos.le (by omega), uint64_of_nonneg (by omega) (by omega)]

theorem nextStep_range (hg : Good u a c) (b : Bool) :
    0 ≤ (if b then req.nextStep else a.step) ∧ (if b then req.nextStep else a.step) < 2 ^ 63 := by
  have hstep := hreq.nextStep_ge
  have hstep' := hreq.nextStep_le
  have h0 := hg.step_nonneg
  have h1 := hg.step_lt
  unfold minStep at hstep
  unfold maxStep at hstep'
  split <;> omega

theorem keeps_allocRestSigned (hg : Good false a c) (hnd : ∀ y, (own false a).Has y → nd.Has y)
    (hoff : req.offset - 1 ≤ a.base) :
    Keeps (CellOk false) (value false) .storage (allocRestSigned a req) nd c
      (Allocated false req) := by
  have hb0 : 0 ≤ a.base := hg.base_nonneg
  have hbe : a.base ≤ a.end_ := hg.base_le
  have hec : a.end_ ≤ c := hg.end_le
  have he1 := hg.end_int64.2
  have hneed := needed_signed hreq hb0 (by unfold maxInt64; omega) hoff
  rw [← hg.kind] at hneed
  unfold allocRestSigned
  generalize
    calcNeededBatchSize a.base (int64 req.n) req.increment req.offset a.isUnsigned = n1 at *
  have hpos := hneed.pos
  have hroom : int64 (maxInt64 - a.base) = maxInt64 - a.base :=
    int64_of_isInt64 ⟨by unfold maxInt64; omega, by unfold maxInt64; omega⟩
  simp only [hroom]
  by_cases h1 : maxInt64 - a.base ≤ n1
  · rw [if_pos h1]
    exact allocated_refused hreq hg hnd hneed h1
  have hsum : int64 (a.base + n1) = a.base + n1 :=
    int64_of_isInt64 ⟨by omega, by unfold maxInt64 at h1; omega⟩
  rw [if_neg h1, hsum]
  by_cases h2 : a.end_ < a.base + n1
  · rw [if_pos h2]
    refine keeps_batch hreq hg hnd (fun s hs hcs => ?_) (fun e => rfl)
      (fun v hnb hne hfit hpos => ?_)
    · have hcs' : c ≤ s := hcs
      have hstep := nextStep_range hreq hg (!a.customStep && decide (0 < a.end_))
      exact batches_signed hreq hg.kind hs (by omega) hstep.1 hstep.2
    · obtain ⟨hroom, hbase⟩ := taken_signed hnb hne hpos hfit
      exact ⟨_, isInt64_int64 _, hbase, if_neg hroom⟩
  · rw [if_neg h2]
    unfold takeSigned
    rw [hsum]
    exact allocated_take hreq hg hnd hneed (not_lt.mp h2) ⟨by omega, by omega⟩ rfl

theorem keeps_allocRestUnsigned (hg : Good true a c) (hnd : ∀ y, (own true a).Has y → nd.Has y)
    (hoff : req.offset - 1 ≤ uint64 a.base) :
    Keeps (CellOk true) (value true) .storage (allocRestUnsigned a req) nd c
      (Allocated true req) := by
  have hb0 := uint64_nonneg a.base
  have hbe : uint64 a.base ≤ uint64 a.end_ := hg.base_le
  have hec : uint64 a.end_ ≤ c := hg.end_le
  have hneed := needed_unsigned hreq hoff
  rw [← hg.kind] at hneed
  unfold allocRestUnsigned
  generalize
    calcNeededBatchSize a.base (int64 req.n) req.increment req.offset a.isUnsigned = n1 at *
  have hpos := hneed.pos
  have hlt := hneed.lt
  have hn1 : uint64 n1 = n1 := uint64_of_nonneg hpos.le (by unfold maxUint64; omega)
  simp only [hn1]
  by_cases h1 : maxUint64 - uint64 a.base ≤ n1
  · rw [if_pos h1]
    exact allocated_refused hreq hg hnd hneed h1
  have hsum : uint64 (uint64 a.base + n1) = uint64 a.base + n1 :=
    uint64_of_nonneg (by omega) (by omega)
  rw [if_neg h1, hsum]
  by_cases h2 : uint64 a.end_ < uint64 a.base + n1
  · rw [if_pos h2]
    refine keeps_batch hreq hg hnd (fun s hs hcs => ?_) (fun e => rfl)
      (fun v hnb hne hfit hpos => ?_)
    · have hcs' : c ≤ uint64 s := hcs
      have hstep := nextStep_range hreq hg (!a.customStep)
      exact batches_unsigned hreq hg.kind (by omega) hstep.1 hstep.2
    · obtain ⟨hroom, hbase⟩ := taken_unsigned hpos hfit
      exact ⟨_, isInt64_int64 _, hbase, if_neg hroom⟩
  · rw [if_neg h2]
    unfold takeUnsigned
    rw [hn1]
    refine allocated_take hreq hg hnd hneed (not_lt.mp h2) (isInt64_int64 _) ?_
    change uint64 (int64 (uint64 a.base + n1)) = _
    rw [uint64_int64, hsum]
    rfl

omit hreq in
theorem keeps_afterRebase {required : ℤ} {p : Call (Allocator × Except AllocErr Unit)}
    {rest : Allocator → Call (Allocator × AllocResult)}
    (hp : Keeps (CellOk u) (value u) .storage p nd c (Rebased u required))
    (hrest : ∀ a' nd' c', Good u a' c' → (∀ y, (own u a').Has y → nd'.Has y) →
      required ≤ value u a'.base →
      Keeps (CellOk u) (value u) .storage (rest a') nd' c' (Allocated u req)) :
    Keeps (CellOk u) (value u) .storage (p >>= fun
      | (a', .error e) => .ret (a', .error e)
      | (a', .ok ()) => rest a') nd c (Allocated u req) := by
  refine hp.bind fun x nd' c' hx => ?_
  obtain ⟨a', r⟩ := x
  obtain ⟨hg, hnd, hr⟩ := hx
  cases r with
  | error e =>
    obtain rfl : e = .storage := hr
    exact ⟨hg, trivial, hnd⟩
  | ok _ => exact hrest a' nd' c' hg hnd hr

theorem keeps_alloc4Signed (hg : Good false a c) :
    Keeps (CellOk false) (value false) .storage (alloc4Signed a req) (own false a) c
      (Allocated false req) := by
  have hoff := hreq.offset_pos
  have hoff' := hreq.offset_le
  unfold maxIncrement at hoff'
  have h64 : IsInt64 (req.offset - 1) := ⟨by omega, by omega⟩
  unfold alloc4Signed
  rw [int64_of_isInt64 h64]
  split
  · exact keeps_afterRebase (keeps_rebase4Signed hg h64 true) fun a' nd' c' hg' hnd' hr =>
      keeps_allocRestSigned hreq hg' hnd' hr
  · rename_i hle
    exact keeps_allocRestSigned hreq hg (fun y hy => hy) (not_lt.mp hle)

theorem keeps_alloc4Unsigned (hg : Good true a c) :
    Keeps (CellOk true) (value true) .storage (alloc4Unsigned a req) (own true a) c
      (Allocated true req) := by
  have hoff := hreq.offset_pos
  have hoff' := hreq.offset_le
  unfold maxIncrement at hoff'
  have hmax : req.offset - 1 ≤ maxUint64 := by
    unfold maxUint64
    omega
  unfold alloc4Unsigned
  rw [uint64_of_nonneg (by omega) hmax]
  split
  · exact keeps_afterRebase (keeps_rebase4Unsigned hg (by omega) hmax true)
      fun a' nd' c' hg' hnd' hr => keeps_allocRestUnsigned hreq hg' hnd' hr
  · rename_i hle
    exact keeps_allocRestUnsigned hreq hg (fun y hy => hy) (not_lt.mp hle)

theorem keeps_alloc (hg : Good u a c) :
    Keeps (CellOk u) (value u) .storage (alloc a req) (own u a) c (Allocated u req) := by
  unfold alloc
  split
  · exact ⟨hg, trivial, fun y hy => hy⟩
  rw [if_neg hreq.n_pos.ne']
  split
  · exact ⟨hg, trivial, fun y hy => hy⟩
  rw [hg.kind]
  cases u with
  | true => exact keeps_alloc4Unsigned hreq hg
  | false => exact keeps_alloc4Signed hreq hg

end Alloc

/-! ## Runs -/

def Request.Fits : Request → Prop
  | .alloc req => req.Fits
  | .rebase requiredBase _ => IsInt64 requiredBase

/-- A rebase that succeeds is read as an empty range at the required base. -/
def reading (u : Bool) : Reading ℤ Allocator Request Reply where
  cellOk := CellOk u
  value := value u
  own := own u
  good := Good u
  gave
    | .alloc _, .alloc (.ok (lo, hi)) => some ⟨value u lo, value u hi⟩
    | .rebase r _, .rebase (.ok ()) => some ⟨value u r, value u r⟩
    | _, _ => none
  post
    | .alloc req, .alloc r => AllocPost u req r
    | _, _ => fun _ _ => True

theorem AllocPost.mono {r : AllocResult} {a : Allocator} (hc : c ≤ c')
    (h : AllocPost u req r a c) : AllocPost u req r a c' := by
  match r, h with
  | .ok _, h => exact h
  | .error .autoincReadFailed, .inl h => exact .inl h
  | .error .autoincReadFailed, .inr h =>
    exact .inr (lt_of_le_of_lt (Finset.card_le_card (members_mono hc le_rfl)) h)
  | .error .invalidTableID, _ => trivial
  | .error (.invalidIncrementAndOffset _ _), _ => trivial
  | .error .storage, _ => trivial

theorem keeps_serve (k : Request) (a : Allocator) (c : ℤ) (hk : k.Fits) (hg : Good u a c) :
    Keeps (CellOk u) (value u) .storage (serve k a) (own u a) c ((reading u).Finishes k) := by
  cases k with
  | alloc req =>
    refine (keeps_alloc hk hg).bind fun x nd c' hx => ?_
    obtain ⟨a', r⟩ := x
    obtain ⟨hg', hpost, hgave⟩ := hx
    cases r with
    | ok lohi => exact ⟨hg', hpost, hgave⟩
    | error e => exact ⟨hg', hpost, hgave⟩
  | rebase requiredBase allocIDs =>
    have hrebase : Keeps (CellOk u) (value u) .storage (rebase a requiredBase allocIDs) (own u a) c
        (Rebased u (value u requiredBase)) := by
      unfold rebase
      rw [hg.kind]
      cases u with
      | true => exact keeps_rebase4Unsigned hg (uint64_nonneg _) (uint64_le _) allocIDs
      | false => exact keeps_rebase4Signed hg hk allocIDs
    refine hrebase.bind fun x nd c' hx => ?_
    obtain ⟨a', r⟩ := x
    obtain ⟨hg', hnd, hr⟩ := hx
    cases r with
    | error e => exact ⟨hg', trivial, hnd⟩
    | ok _ =>
      have hr' : value u requiredBase ≤ value u a'.base := hr
      refine ⟨hg', trivial, ?_, ?_, ?_⟩
      · have h1 := hg'.base_le
        have h2 := hg'.end_le
        simp only
        omega
      · rintro y ⟨h1, h2⟩
        simp only at h1 h2
        omega
      · intro y hy
        refine ⟨hnd y hy, ?_⟩
        have h1 : value u a'.base < y := hy.1
        simp only
        omega

def discipline (u : Bool) : Discipline serve (fun _ _ => Request.Fits) .storage where
  toReading := reading u
  good_mono hc h := h.mono hc
  post_mono {k r} _ _ _ hc h := by
    match k, r, h with
    | .alloc _, .alloc _, h => exact AllocPost.mono hc h
    | .alloc _, .rebase _, _ => trivial
    | .rebase _ _, .alloc _, _ => trivial
    | .rebase _ _, .rebase _, _ => trivial
  keeps k a s _ hk hg := keeps_serve k a _ hk hg

section Theorem

variable {ι : Type}

abbrev System (ι : Type) := Sys ι ℤ AllocErr Captured Allocator Request Reply

/-- All allocators are new, on a counter of any value that the type has. -/
def Start (u : Bool) (s : System ι) : Prop :=
  CellOk u s.cell ∧ s.log = [] ∧ ∀ i, ∃ tbID allocType cache, 0 ≤ cache ∧ cache < 2 ^ 63 ∧
    s.node i = .idle (newAllocator tbID u allocType cache)

noncomputable def ids (u : Bool) (e : Entry ι ℤ Allocator Request Reply) : Finset ℤ :=
  match e.call, e.result with
  | .alloc req, .alloc (.ok (lo, hi)) => members (value u lo) (value u hi) req.increment req.offset
  | _, _ => ∅

theorem good_newAllocator (u : Bool) {tbID cache : ℤ} {allocType : AllocatorType} (h0 : 0 ≤ cache)
    (h1 : cache < 2 ^ 63) (hc : 0 ≤ c) : Good u (newAllocator tbID u allocType cache) c := by
  have hzero : value u 0 = 0 := by cases u <;> rfl
  unfold newAllocator
  split
  · refine ⟨rfl, ⟨by norm_num, by norm_num⟩, ⟨by norm_num, by norm_num⟩, hzero.ge, le_rfl,
      ?_, by norm_num, by norm_num⟩
    exact hzero.trans_le hc
  · refine ⟨rfl, ⟨by norm_num, by norm_num⟩, ⟨by norm_num, by norm_num⟩, hzero.ge, le_rfl,
      ?_, h0, h1⟩
    exact hzero.trans_le hc

theorem Start.discipline {s : System ι} (h : Start u s) : (discipline u).Start s := by
  obtain ⟨hcell, hlog, hnode⟩ := h
  refine ⟨hcell, hlog, fun i => ?_⟩
  obtain ⟨tbID, allocType, cache, h0, h1, hi⟩ := hnode i
  refine ⟨_, hi, good_newAllocator u h0 h1 hcell.2, ?_⟩
  unfold newAllocator
  split <;> exact le_rfl

theorem mem_ids {e : Entry ι ℤ Allocator Request Reply} {x : ℤ} (h : x ∈ ids u e) :
    ∃ g, (reading u).gave e.call e.result = some g ∧ g.Has x := by
  unfold ids at h
  split at h
  · rename_i req lo hi hcall hres
    obtain ⟨h1, h2, -⟩ := mem_members.mp h
    exact ⟨⟨value u lo, value u hi⟩, by rw [hcall, hres]; rfl, h1, h2⟩
  · cases h

/-- What an earlier call means for a later one: other IDs, and larger ones where the allocator is
the same. -/
structure Follows (u : Bool) (new old : Entry ι ℤ Allocator Request Reply) : Prop where
  disjoint : Disjoint (ids u new) (ids u old)
  rises : new.node = old.node → ∀ x ∈ ids u new, ∀ y ∈ ids u old, y < x
  rebased : new.node = old.node → ∀ x ∈ ids u new, ∀ r allocIDs, old.call = .rebase r allocIDs →
    old.result = .rebase (.ok ()) → value u r < x

/-- The bounds hold the `n` IDs, and IDs are refused only near the largest number. -/
structure Answers (u : Bool) (req : AllocReq) (e : Entry ι ℤ Allocator Request Reply) : Prop where
  given : ∀ lo hi, e.result = .alloc (.ok (lo, hi)) →
    value u lo < value u hi ∧ value u hi ≤ top u ∧ (ids u e).card = req.n
  refused : e.result = .alloc (.error .autoincReadFailed) →
    FewLeft u req (value u e.after.base) ∨ FewLeft u req (value u e.cell)

variable [DecidableEq ι]

/-- Over every interleaving of the calls of allocators on one counter, each request short of the
64-bit range: no ID is given twice, those of one allocator rise and are above what it was rebased
to, and every answer is right. -/
theorem alloc_interleaved (u : Bool) {s : System ι}
    (h : Reachable serve (fun _ _ => Request.Fits) .storage (Start u) s) :
    s.log.Pairwise (Follows u) ∧ ∀ e ∈ s.log, ∀ req, e.call = .alloc req → Answers u req e := by
  have hreach : Reachable serve (fun _ _ => Request.Fits) .storage (discipline u).Start s := by
    induction h with
    | start hs => exact .start hs.discipline
    | step _ hst ih => exact .step ih hst
  obtain ⟨-, hpost, node, hinv, -⟩ := (discipline u).reachable_safe hreach
  refine ⟨(List.pairwise_filterMap.mp hinv.ordered).imp fun {new old} hafter => ?_,
    fun e he req hcall => ?_⟩
  · have hgave : ∀ g g', (reading u).gave new.call new.result = some g →
        (reading u).gave old.call old.result = some g' → After (new.node, g) (old.node, g') :=
      fun g g' hg hg' => hafter _ (by simpa [discipline] using hg) _
        (by simpa [discipline] using hg')
    refine ⟨Finset.disjoint_left.mpr fun x hx hy => ?_, fun hnode x hx y hy => ?_,
      fun hnode x hx r allocIDs hcall hres => ?_⟩
    · obtain ⟨g, hg, hgx⟩ := mem_ids hx
      obtain ⟨g', hg', hgy⟩ := mem_ids hy
      exact (hgave g g' hg hg' x hgx).1 hgy
    · obtain ⟨g, hg, hgx⟩ := mem_ids hx
      obtain ⟨g', hg', hgy⟩ := mem_ids hy
      exact lt_of_le_of_lt hgy.2 ((hgave g g' hg hg' x hgx).2 hnode)
    · obtain ⟨g, hg, hgx⟩ := mem_ids hx
      exact (hgave g ⟨value u r, value u r⟩ hg (by rw [hcall, hres]; rfl) x hgx).2 hnode
  · have hp := hpost e he
    constructor
    · intro lo hi hres
      have hids : ids u e = members (value u lo) (value u hi) req.increment req.offset := by
        rw [ids, hcall, hres]
      rw [hids]
      rw [hcall, hres] at hp
      exact hp
    · intro hres
      rw [hcall, hres] at hp
      exact hp

def newAllocators : System ι := ⟨0, fun _ => .idle (newAllocator 1 false .rowID 0), []⟩

omit [DecidableEq ι] in
theorem start_newAllocators : Start false (newAllocators : System ι) :=
  ⟨show CellOk false 0 from ⟨⟨by decide, by decide⟩, by decide⟩, rfl,
    fun _ => ⟨1, .rowID, 0, le_rfl, by norm_num, rfl⟩⟩

end Theorem

def oneID : AllocReq := ⟨1, 1, 1, 30000⟩

theorem fits_oneID : Request.Fits (.alloc oneID) := by constructor <;> decide

/-- Of two allocators one is rebased to 5; then both ask for an ID, and the other one gets to the
counter first. -/
theorem alloc_interleaved_two : ∃ s : System Bool,
    Reachable serve (fun _ _ => Request.Fits) .storage (Start false) s ∧
      s.log.map (fun e => (e.node, e.result)) =
        [(true, .alloc (.ok (30005, 30006))), (false, .alloc (.ok (5, 6))),
          (true, .rebase (.ok ()))] ∧
      s.log.Pairwise (Follows false) := by
  have h1 : Reachable serve (fun _ _ => Request.Fits) .storage (Start false)
      (newAllocators : System Bool) :=
    .start start_newAllocators
  have h2 := h1.step (.call (i := true) (.rebase 5 false) rfl
    (show Request.Fits (.rebase 5 false) from ⟨by decide, by decide⟩))
  have hrebase : rebaseTxnSigned (newAllocator 1 false .rowID 0) 5 false 0 =
      .ok (5, ⟨5, 5, 0, 0⟩) := by decide
  have h3 := (h2.step (.commit (i := true) rfl hrebase)).step (.return (i := true) rfl)
  have h4 := (h3.step (.call (i := false) (.alloc oneID) rfl fits_oneID)).step
    (.call (i := true) (.alloc oneID) rfl fits_oneID)
  have hfirst : batchSigned (newAllocator 1 false .rowID 0) oneID 30000 5 =
      .ok (30005, ⟨5, 30005, 1, 30000⟩) := by
    decide +kernel
  have h5 := h4.step (.commit (i := false) rfl hfirst)
  have hsecond : batchSigned ⟨5, 5, 1, false, 30000, false, .rowID⟩ oneID 30000 30005 =
      .ok (60005, ⟨30005, 60005, 1, 30000⟩) := by decide +kernel
  have h6 := h5.step (.commit (i := true) rfl hsecond)
  have h7 := (h6.step (.return (i := false) (a := ⟨6, 30005, 1, false, 30000, false, .rowID⟩)
    (r := .alloc (.ok (5, 6))) rfl)).step (.return (i := true)
    (a := ⟨30006, 60005, 1, false, 30000, false, .rowID⟩) (r := .alloc (.ok (30005, 30006))) rfl)
  exact ⟨_, h7, rfl, (alloc_interleaved false h7).1⟩

/-- The largest number of the type is reserved for the allocator and left, and refused. -/
theorem alloc_refuses_largest : ∃ s : System Unit,
    Reachable serve (fun _ _ => Request.Fits) .storage (Start false) s ∧
      ∃ e ∈ s.log, e.call = .alloc oneID ∧ e.result = .alloc (.error .autoincReadFailed) ∧
        value false e.after.base = maxInt64 - 1 ∧ value false e.after.end_ = maxInt64 ∧
        (members (value false e.after.base) (value false e.after.end_) 1 1).card = oneID.n := by
  have h1 : Reachable serve (fun _ _ => Request.Fits) .storage (Start false) _ :=
    .step (.start start_newAllocators) (.call (i := ()) (.rebase (maxInt64 - 1) true) rfl
      (show Request.Fits (.rebase (maxInt64 - 1) true) from ⟨by decide, by decide⟩))
  have h2 := h1.step (.commit (i := ()) rfl rfl)
  have h3 := h2.step (.return (i := ()) rfl)
  have h4 := h3.step (.call (i := ()) (.alloc oneID) rfl fits_oneID)
  have h5 := h4.step (.return (i := ()) rfl)
  refine ⟨_, h5, _, List.mem_cons_self, rfl, rfl, rfl, rfl, ?_⟩
  have hcard := @card_members (maxInt64 - 1) 1 1 (by decide) 1
  exact hcard

end Tidb.Autoid
