import Tidb.AutoidService.Autoid

/-!
# What the service gives out

As long as an entry's `(base, end]` is reserved in the counter, the service gives each ID once and keeps
to every rebase, over restarts too.  Two branches of the source break that, and so do sizes that do not
fit in 64 bits; `Sound` says when a request does not get there.
-/

namespace Tidb.AutoidService

open GoLang Interleaving Progression
open Autoid (value top CellOk AllocReq Needed Reserves Batches Captured inc)

/-! ## The range of an entry -/

/-- What holds of an entry and the counters when everything up to `m` may have been given out.  A `base`
of 0 stands for an entry that was not read yet. -/
structure Kept (u : Bool) (val : AutoIDValue) (store : Storage) (m : ℤ) : Prop where
  kind : val.isUnsigned = u
  base_int64 : IsInt64 val.base
  end_int64 : IsInt64 val.end_
  row_int64 : IsInt64 store.rowID
  cell : CellOk u store.incrementID
  mark : m ≤ value u store.incrementID
  own : val.base = 0 ∧ value u val.end_ ≤ 0 ∨ 0 < value u val.base ∧ m ≤ value u val.base ∧ value u val.base ≤ value u
    val.end_ ∧ value u val.end_ ≤ value u store.incrementID

theorem value_zero (u : Bool) : value u 0 = 0 := by cases u <;> rfl

section Kept

variable {u : Bool} {a : AutoIDValue} {s : Storage} {m : ℤ}

theorem Kept.anti {m' : ℤ} (h : Kept u a s m) (hm : m' ≤ m) : Kept u a s m' := by
  refine ⟨h.kind, h.base_int64, h.end_int64, h.row_int64, h.cell, hm.trans h.mark, ?_⟩
  rcases h.own with h0 | ⟨h1, h2, h3, h4⟩
  · exact .inl h0
  · exact .inr ⟨h1, hm.trans h2, h3, h4⟩

theorem Kept.base_nonneg (h : Kept u a s m) : 0 ≤ value u a.base := by
  rcases h.own with ⟨h0, -⟩ | ⟨h1, -⟩
  · rw [h0, value_zero]
  · exact h1.le

theorem Kept.base_le_cell (h : Kept u a s m) : value u a.base ≤ value u s.incrementID := by
  rcases h.own with ⟨h0, -⟩ | ⟨-, -, h3, h4⟩
  · rw [h0, value_zero]
    exact h.cell.2
  · exact h3.trans h4

theorem Kept.read (h : Kept u a s m) (h0 : a.base ≠ 0) : m ≤ value u a.base ∧ value u a.base ≤ value u a.end_ ∧
      value u a.end_ ≤ value u s.incrementID := by
  rcases h.own with ⟨h1, -⟩ | ⟨-, h2⟩
  · exact absurd h1 h0
  · exact h2

theorem kept_new (hrow : IsInt64 s.rowID) (hcell : CellOk u s.incrementID)
    (hm : m ≤ value u s.incrementID) : Kept u ⟨0, 0, u⟩ s m :=
  ⟨rfl, ⟨by norm_num, by norm_num⟩, ⟨by norm_num, by norm_num⟩, hrow, hcell, hm, .inl ⟨rfl, (value_zero u).le⟩⟩

end Kept

/-! ## Rebase -/

/-- The transaction is that of an allocator with the batch as its step. -/
theorem reserves_signed {c required : ℤ} (hc : CellOk false c) (hr : IsInt64 required) :
    Reserves false c required (rebaseTxnSigned required c) := by
  obtain ⟨c', v, hok, hrest⟩ := Autoid.reserves_signed (a := Autoid.newAllocator 0 false .rowID batch)
    (by decide) (by decide) hr true hc
  cases hok
  exact ⟨_, _, rfl, hrest⟩

theorem reserves_unsigned {c required : ℤ} (hc : IsInt64 c) (hr0 : 0 ≤ required) (hr : required ≤ maxUint64) :
    Reserves true c required (rebaseTxnUnsigned required c) := by
  obtain ⟨c', v, hok, hrest⟩ := Autoid.reserves_unsigned (a := Autoid.newAllocator 0 true .rowID batch)
    (by decide) (by decide) hr0 hr true hc
  cases hok
  exact ⟨_, _, rfl, hrest⟩

/-- What a rebase leaves; `c` is the value of the counter before it. -/
def Rebased (u : Bool) (a : AutoIDValue) (c m required : ℤ) (x : AutoIDValue × Except String Unit)
    (s : Storage) : Prop :=
  match x.2 with
  | .ok () => Kept u x.1 s (max m required) ∧ required ≤ value u x.1.base ∧
      value u x.1.base ≤ max (value u a.base) (max c required)
  | .error _ => Kept u x.1 s m

section Rebase

variable {lost : String} {u : Bool} {a : AutoIDValue} {s : Storage} {m : ℤ}

theorem onIncrementID_ok {f : ℤ → Except String (ℤ × Captured)} {c : ℤ} {v : Captured}
    (h : f s.incrementID = .ok (c, v)) : onIncrementID f s = .ok ({ s with incrementID := c }, v) := by
  simp only [onIncrementID, h]

theorem onIncrementID_error {f : ℤ → Except String (ℤ × Captured)} {e : String}
    (h : f s.incrementID = .error e) : onIncrementID f s = .error e := by
  simp only [onIncrementID, h]

theorem Kept.raise (h : Kept u a s m) {required : ℤ} (hr : required ≤ value u a.base) :
    Kept u a s (max m required) := by
  have hcell := h.base_le_cell
  refine ⟨h.kind, h.base_int64, h.end_int64, h.row_int64, h.cell, max_le h.mark (by omega), ?_⟩
  rcases h.own with h0 | ⟨h1, h2, h3⟩
  · exact .inl h0
  · exact .inr ⟨h1, max_le h2 hr, h3⟩

theorem Kept.raise_cell (h : Kept u a s m) {c' : ℤ} (hcell : CellOk u c')
    (hle : value u s.incrementID ≤ value u c') : Kept u a { s with incrementID := c' } m := by
  refine ⟨h.kind, h.base_int64, h.end_int64, h.row_int64, hcell, h.mark.trans hle, ?_⟩
  exact h.own.imp_right fun ⟨h1, h2, h3, h4⟩ => ⟨h1, h2, h3, h4.trans hle⟩

theorem always_rebaseWith (h : Kept u a s m) {required base' : ℤ} (hb : IsInt64 base')
    (hv : value u a.base < required → value u base' = required) {body : ℤ → Except String (ℤ × Captured)}
    (hbody : Reserves u s.incrementID required (body s.incrementID)) : Always lost
      (if required ≤ value u a.base then .ret (a, .ok ())
        else if required ≤ value u a.end_ then .ret ({ a with base := base' }, .ok ())
        else .txn (onIncrementID body) (afterRebase a)) s
      (Rebased u a (value u s.incrementID) m required) := by
  have hb0 := h.base_nonneg
  by_cases h1 : required ≤ value u a.base
  · rw [if_pos h1]
    exact ⟨h.raise h1, h1, le_max_left _ _⟩
  by_cases h2 : required ≤ value u a.end_
  · rw [if_neg h1, if_pos h2]
    have hval := hv (by omega)
    -- the end of an entry that was not read yet is not above 0
    have hread : m ≤ value u a.base ∧ value u a.end_ ≤ value u s.incrementID := by
      rcases h.own with ⟨-, h0⟩ | ⟨-, h3, -, h4⟩
      · omega
      · exact ⟨h3, h4⟩
    have hnew : Kept u { a with base := base' } s (max m required) := by
      refine ⟨h.kind, hb, h.end_int64, h.row_int64, h.cell, by omega, .inr ?_⟩
      simp only [hval]
      omega
    exact ⟨hnew, hval.ge, by simp only [hval]; omega⟩
  · rw [if_neg h1, if_neg h2]
    obtain ⟨c', v, hok, hcell, hnb, hne, hbase, hbe, hend⟩ := hbody
    have hmark := h.mark
    refine ⟨h, fun e he => ?_, fun s₁ b hb => ?_⟩
    · rw [onIncrementID_ok hok] at he
      cases he
    · rw [onIncrementID_ok hok] at hb
      cases hb
      have hnew : Kept u { a with base := v.newBase, end_ := v.newEnd } { s with incrementID := c' } (max m required) :=
        ⟨h.kind, hnb, hne, h.row_int64, hcell, by simp only; omega, .inr (by simp only; omega)⟩
      exact ⟨⟨hnew, by simp only; omega, by simp only; omega⟩, h.raise_cell hcell (by omega)⟩

theorem always_rebase4Signed (h : Kept false a s m) {required : ℤ} (hr : IsInt64 required) :
    Always lost (rebase4Signed a required) s (Rebased false a (value false s.incrementID) m required) :=
  always_rebaseWith h hr (fun _ => rfl) (reserves_signed h.cell hr)

theorem always_rebase4Unsigned (h : Kept true a s m) {required : ℤ} (hr0 : 0 ≤ required) (hr : required ≤ maxUint64) :
    Always lost (rebase4Unsigned a required) s (Rebased true a (value true s.incrementID) m required) :=
  always_rebaseWith h (isInt64_int64 required)
    (fun _ => (uint64_int64 required).trans (uint64_of_nonneg hr0 hr))
    (reserves_unsigned h.cell.1 hr0 hr)

theorem always_close {val : Option AutoIDValue} (h : Kept u (getAlloc val u) s m) :
    Always lost (close val) s fun _ s' => Kept u ⟨0, 0, u⟩ s' m := by
  cases val with
  | none => exact kept_new h.row_int64 h.cell h.mark
  | some v =>
    have h' : Kept u v s m := h
    unfold close
    simp only
    split
    · have hcell : inc s.incrementID (if (!v.isUnsigned) = true then int64 (v.base - s.incrementID)
          else int64 (uint64 v.base - uint64 s.incrementID)) = v.base := by
        have hb := h'.base_int64
        unfold IsInt64 at hb
        unfold inc int64 uint64
        split <;> omega
      have hback : Kept u ⟨0, 0, u⟩ { s with incrementID := v.base } m :=
        kept_new h'.row_int64 ⟨h'.base_int64, h'.base_nonneg⟩ (h'.read (by omega)).1
      refine ⟨kept_new h'.row_int64 h'.cell h'.mark, fun e he => ?_, fun s₁ b hb => ?_⟩
      · cases he
      · cases hb
        simp only [hcell]
        exact ⟨hback, hback⟩
    · exact kept_new h'.row_int64 h'.cell h'.mark

end Rebase

/-! ## Allocation -/

def AutoIDRequest.toAllocReq (req : AutoIDRequest) : AllocReq :=
  ⟨req.n, req.increment, req.offset, Autoid.minStep⟩

/-- What an allocation leaves: the IDs are above the mark, which goes up to the last of them. -/
def Given (u : Bool) (req : AutoIDRequest) (m : ℤ) (x : AutoIDValue × AllocResult) (s : Storage) : Prop :=
  match x.2 with
  | .ok (lo, hi) => Kept u x.1 s (value u hi) ∧ m ≤ value u lo ∧ value u lo < value u hi ∧
      value u hi ≤ top u ∧ (members (value u lo) (value u hi) req.increment req.offset).card = req.n
  | .error _ => Kept u x.1 s m

theorem batchSigned_eq (a : Autoid.Allocator) (req : AutoIDRequest) (c : ℤ) :
    batchSigned a.isUnsigned req.n req.increment req.offset c =
      (Autoid.batchSigned a req.toAllocReq batch c).mapError fun _ => errAutoincReadFailed := by
  unfold Autoid.batchSigned AutoIDRequest.toAllocReq
  simp only [apply_ite (Except.mapError fun _ => errAutoincReadFailed)]
  rfl

theorem batchUnsigned_eq (a : Autoid.Allocator) (req : AutoIDRequest) (c : ℤ) :
    batchUnsigned a.isUnsigned req.n req.increment req.offset c =
      (Autoid.batchUnsigned a req.toAllocReq batch c).mapError fun _ => errAutoincReadFailed := by
  unfold Autoid.batchUnsigned AutoIDRequest.toAllocReq
  simp only [apply_ite (Except.mapError fun _ => errAutoincReadFailed)]
  rfl

section Alloc

variable {lost : String} {u : Bool} {a : AutoIDValue} {s : Storage} {m : ℤ} {req : AutoIDRequest}
  (hreq : req.toAllocReq.Fits)

include hreq

theorem given_take (hkind : a.isUnsigned = u) (hbase : 0 ≤ value u a.base) (hend : IsInt64 a.end_)
    (hrow : IsInt64 s.rowID) (hcell : CellOk u s.incrementID) (hm : m ≤ value u a.base)
    (hle : value u a.end_ ≤ value u s.incrementID) {n1 base' : ℤ}
    (hneed : Needed (top u) (value u a.base) n1 req.toAllocReq)
    (hfit : value u a.base + n1 ≤ value u a.end_) (hb : IsInt64 base') (hv : value u base' = value u a.base + n1) :
    Given u req m ({ a with base := base' }, .ok (a.base, base')) s := by
  have hpos := hneed.pos
  have htop := @Autoid.value_le_top u a.end_ hend
  refine ⟨⟨hkind, hb, hend, hrow, hcell, ?_, .inr ⟨?_, le_rfl, ?_, hle⟩⟩, hm, ?_, ?_, ?_⟩
  · omega
  · simp only [hv]
    omega
  · simp only [hv]
    exact hfit
  · omega
  · omega
  · rw [hv]
    exact hneed.card_eq hreq (by omega)

theorem always_batch (h : Kept u a s m) {body : ℤ → Except Autoid.AllocErr (ℤ × Captured)}
    (hbody : Batches u req.toAllocReq s.incrementID (body s.incrementID)) {f : ℤ → Except String (ℤ × Captured)}
    (hf : f s.incrementID = (body s.incrementID).mapError fun _ => errAutoincReadFailed)
    {next : Except String Captured → Call (AutoIDValue × AllocResult)}
    (herr : ∀ e, next (.error e) = .ret (a, .error e))
    (hok : ∀ v, CellOk u v.newBase → IsInt64 v.newEnd → value u v.newBase + v.n1 ≤ value u v.newEnd →
      0 < v.n1 → ∃ base', IsInt64 base' ∧ value u base' = value u v.newBase + v.n1 ∧ next (.ok v) =
        .ret ({ a with base := base', end_ := v.newEnd }, .ok (v.newBase, base'))) :
    Always lost (.txn (onIncrementID f) next) s (Given u req m) := by
  have herr' : ∀ e, Always lost (next (.error e)) s (Given u req m) := fun e => by
    rw [herr]
    exact h
  refine ⟨herr' _, fun e _ => herr' e, fun s₁ v hv => ?_⟩
  rcases hbody with ⟨hr, -⟩ | ⟨c', v₁, hr, hcell, hnb, hne, hneed, hfit, -, -⟩
  · rw [onIncrementID_error (hf.trans (by rw [hr]; rfl))] at hv
    cases hv
  · rw [onIncrementID_ok (hf.trans (by rw [hr]; rfl))] at hv
    cases hv
    obtain ⟨rowID, counter⟩ := s
    subst hnb hne
    obtain ⟨base', hb64, hbv, hnext⟩ := hok v h.cell hcell.1 hfit hneed.pos
    rw [hnext, herr]
    have hle : value u v.newBase ≤ value u v.newEnd := (Int.le_add_of_nonneg_right hneed.pos.le).trans hfit
    exact ⟨@given_take u { a with base := v.newBase, end_ := v.newEnd } ⟨rowID, v.newEnd⟩ m req hreq h.kind
      h.cell.2 hcell.1 h.row_int64 hcell h.mark le_rfl _ _ hneed hfit hb64 hbv, h.raise_cell hcell hle⟩

theorem always_allocRestSigned (h : Kept false a s m) (hoff : req.offset - 1 ≤ a.base) :
    Always lost (allocRestSigned a false req.n req.increment req.offset) s (Given false req m) := by
  have hb0 : 0 ≤ a.base := h.base_nonneg
  have hb1 := h.base_int64.2
  have hbc := h.base_le_cell
  have hneed := Autoid.needed_signed hreq hb0 (by unfold maxInt64; omega) hoff
  change Needed _ _ (calcNeededBatchSize a.base (int64 req.n) req.increment req.offset false) _ at hneed
  unfold allocRestSigned
  generalize calcNeededBatchSize a.base (int64 req.n) req.increment req.offset false = n1 at *
  have hpos := hneed.pos
  have hroom : int64 (maxInt64 - a.base) = maxInt64 - a.base :=
    int64_of_isInt64 ⟨by unfold maxInt64; omega, by unfold maxInt64; omega⟩
  simp only [hroom]
  by_cases h1 : maxInt64 - a.base ≤ n1
  · rw [if_pos h1]
    exact h
  have hsum : int64 (a.base + n1) = a.base + n1 :=
    int64_of_isInt64 ⟨by omega, by unfold maxInt64 at h1; omega⟩
  rw [if_neg h1, hsum]
  by_cases h2 : a.end_ < a.base + n1 ∨ a.base = 0
  · rw [if_pos h2]
    refine always_batch hreq h
      (Autoid.batches_signed (a := Autoid.newAllocator 0 false .rowID 0) hreq rfl h.cell
        (hoff.trans hbc) (by decide) (by decide))
      (batchSigned_eq (Autoid.newAllocator 0 false .rowID 0) req s.incrementID) (fun e => rfl)
      fun v hnb hne hfit hpos => ?_
    obtain ⟨hroom, hbase⟩ := Autoid.taken_signed hnb hne hpos hfit
    exact ⟨_, isInt64_int64 _, hbase, if_neg hroom⟩
  · rw [if_neg h2]
    obtain ⟨h3, h4⟩ := not_or.mp h2
    obtain ⟨hm, -, hle⟩ := h.read h4
    unfold takeSigned
    rw [hsum]
    exact given_take hreq h.kind hb0 h.end_int64 h.row_int64 h.cell hm hle hneed (not_lt.mp h3)
      (hsum ▸ isInt64_int64 _) rfl

theorem needed_room {base n1 : ℤ} (hneed : Needed maxUint64 base n1 req.toAllocReq)
    (hroom : base + (req.n + 1) * req.increment < 2 ^ 64) : base + n1 ≤ maxUint64 := by
  have hinc : 1 ≤ req.increment := hreq.increment_pos
  have hn : 0 < req.n := hreq.n_pos
  have hmul : (req.n + 1 : ℤ) * req.increment = (req.n - 1) * req.increment + 2 * req.increment := by ring
  have hmul0 : 0 ≤ (req.n - 1 : ℤ) * req.increment := mul_nonneg (by omega) (by omega)
  have hle := first_le base req.offset (show 0 < req.increment by omega)
  unfold maxUint64 at *
  rcases hneed.exact_or with hex | ⟨hnear, -⟩
  · simp only [AutoIDRequest.toAllocReq] at hex
    omega
  · simp only [AutoIDRequest.toAllocReq] at hnear
    omega

theorem always_allocRestUnsigned (h : Kept true a s m) (hoff : req.offset - 1 ≤ uint64 a.base)
    (hroom : uint64 a.base + (req.n + 1) * req.increment < 2 ^ 64) :
    Always lost (allocRestUnsigned a true req.n req.increment req.offset) s (Given true req m) := by
  have hb0 := uint64_nonneg a.base
  have hbc := h.base_le_cell
  have hneed := Autoid.needed_unsigned hreq hoff
  change Needed _ _ (calcNeededBatchSize a.base (int64 req.n) req.increment req.offset true) _ at hneed
  unfold allocRestUnsigned
  generalize calcNeededBatchSize a.base (int64 req.n) req.increment req.offset true = n1 at *
  have hpos := hneed.pos
  have hlt := hneed.lt
  have hn1 : uint64 n1 = n1 := uint64_of_nonneg hpos.le (by unfold maxUint64; omega)
  have hsum : uint64 (uint64 a.base + n1) = uint64 a.base + n1 :=
    uint64_of_nonneg (by omega) (needed_room hreq hneed hroom)
  simp only [hn1, hsum]
  by_cases h2 : uint64 a.end_ < uint64 a.base + n1 ∨ a.base = 0
  · rw [if_pos h2]
    refine always_batch hreq h
      (Autoid.batches_unsigned (a := Autoid.newAllocator 0 true .rowID 0) hreq rfl
        (hoff.trans hbc) (by decide) (by decide))
      (batchUnsigned_eq (Autoid.newAllocator 0 true .rowID 0) req s.incrementID) (fun e => rfl)
      fun v hnb hne hfit hpos => ?_
    obtain ⟨hroom, hbase⟩ := Autoid.taken_unsigned hpos hfit
    exact ⟨_, isInt64_int64 _, hbase, if_neg hroom⟩
  · rw [if_neg h2]
    obtain ⟨h3, h4⟩ := not_or.mp h2
    obtain ⟨hm, -, hle⟩ := h.read h4
    unfold takeUnsigned
    rw [hn1]
    refine given_take hreq h.kind hb0 h.end_int64 h.row_int64 h.cell hm hle hneed (not_lt.mp h3)
      (isInt64_int64 _) ?_
    change uint64 (int64 (uint64 a.base + n1)) = _
    rw [uint64_int64, hsum]
    rfl

theorem always_alloc4Signed (h : Kept false a s m) :
    Always lost (alloc4Signed a false req.n req.increment req.offset) s (Given false req m) := by
  have hoff : 1 ≤ req.offset := hreq.offset_pos
  have hoff' : req.offset ≤ 65535 := hreq.offset_le
  have h64 : IsInt64 (req.offset - 1) := ⟨by omega, by omega⟩
  unfold alloc4Signed
  rw [int64_of_isInt64 h64]
  split
  · refine (always_rebase4Signed h h64).bind fun x s' hx => ?_
    obtain ⟨a', r⟩ := x
    cases r with
    | error e => exact hx
    | ok _ => exact always_allocRestSigned hreq (hx.1.anti (le_max_left _ _)) hx.2.1
  · rename_i hle
    exact always_allocRestSigned hreq h (not_lt.mp hle)

theorem always_alloc4Unsigned (h : Kept true a s m) (hroom : uint64 a.base + (req.n + 1) * req.increment < 2 ^ 64)
    (hroom' : uint64 a.base < req.offset - 1 → uint64 s.incrementID + (req.n + 1) * req.increment < 2 ^ 64) :
    Always lost (alloc4Unsigned a true req.n req.increment req.offset) s (Given true req m) := by
  have hoff : 1 ≤ req.offset := hreq.offset_pos
  have hoff' : req.offset ≤ 65535 := hreq.offset_le
  have hsize : (req.n + 1 : ℤ) * req.increment < 2 ^ 63 := hreq.size
  have hmax : req.offset - 1 ≤ maxUint64 := by
    unfold maxUint64
    omega
  unfold alloc4Unsigned
  rw [uint64_of_nonneg (by omega) hmax]
  split
  · refine (always_rebase4Unsigned h (by omega) hmax).bind fun x s' hx => ?_
    obtain ⟨a', r⟩ := x
    cases r with
    | error e => exact hx
    | ok _ =>
      obtain ⟨hk, hreach, hle⟩ := hx
      have hle' : uint64 a'.base ≤ max (uint64 a.base) (max (uint64 s.incrementID) (req.offset - 1)) :=
        hle
      exact always_allocRestUnsigned hreq (hk.anti (le_max_left _ _)) hreach (by omega)
  · rename_i hle
    exact always_allocRestUnsigned hreq h (not_lt.mp hle) hroom

end Alloc

/-! ## Runs -/

def Event.Valid (u : Bool) : Event → Prop
  | .alloc _ req => req.isUnsigned = u ∧ req.n < 2 ^ 64 ∧ 1 ≤ req.increment ∧
      req.increment ≤ Autoid.maxIncrement ∧ 1 ≤ req.offset ∧ req.offset ≤ Autoid.maxIncrement
  | .rebase _ req => req.isUnsigned = u ∧ req.force = false ∧ IsInt64 req.base
  | .lose => True
  | .close => True
  | .rowID r => IsInt64 r

/-- What keeps a request out of the branches that go wrong: a query finds an entry that was read, or a counter for row
IDs at 0; an allocation fits in an `int64`, and an unsigned one in what is left. -/
def Sound (u : Bool) (s : Service) : Event → Prop
  | .alloc _ req =>
    if req.n = 0 then (getAlloc s.val u).base = 0 → value u s.store.rowID ≤ 0
    else (req.n + 1) * req.increment < 2 ^ 63 ∧ (u = true → uint64 (getAlloc s.val u).base + (req.n + 1) * req.increment
      < 2 ^ 64 ∧ (uint64 (getAlloc s.val u).base < req.offset - 1 → uint64 s.store.incrementID + (req.n + 1) *
      req.increment < 2 ^ 64))
  | _ => True

def Start (u : Bool) (s : Service) : Prop :=
  CellOk u s.store.incrementID ∧ IsInt64 s.store.rowID ∧ s.val = none ∧ s.log = []

def Record.Gives (u : Bool) (x : ℤ) : Record → Prop
  | .alloc req (.ok ⟨lo, hi, none⟩) => req.n ≠ 0 ∧ x ∈ members (value u lo) (value u hi) req.increment req.offset
  | _ => False

def Record.Bounded (u : Bool) : Record → Prop
  | .alloc req (.ok ⟨lo, hi, none⟩) => req.n ≠ 0 → value u lo < value u hi ∧ value u hi ≤ top u ∧
      (members (value u lo) (value u hi) req.increment req.offset).card = req.n
  | _ => True

def Record.limit (u : Bool) : Record → Option ℤ
  | .alloc req (.ok ⟨_, hi, none⟩) => if req.n = 0 then none else some (value u hi)
  | .rebase req (.ok ⟨none⟩) => some (value u req.base)
  | _ => none

theorem Record.Gives.limit {u : Bool} {x : ℤ} {r : Record} (h : r.Gives u x) : ∃ b ∈ r.limit u, x ≤ b := by
  unfold Record.Gives at h
  split at h
  · rename_i req lo hi
    refine ⟨value u hi, ?_, (mem_members.mp h.2).2.1⟩
    simp [Record.limit, h.1]
  · exact h.elim

def Above (u : Bool) (new old : Record) : Prop :=
  ∀ x, new.Gives u x → ∀ b ∈ old.limit u, b < x

def Answered (u : Bool) (m : ℤ) (r : Record) (val : Option AutoIDValue) (store : Storage) : Prop :=
  r.Bounded u ∧ (∀ x, r.Gives u x → m < x) ∧ ∃ m', m ≤ m' ∧ (∀ b ∈ r.limit u, b ≤ m') ∧ Kept u (getAlloc val u) store m'

section Requests

variable {lost : String} {u : Bool} {s : Storage} {m : ℤ} {val : Option AutoIDValue}

theorem answered_nothing {r : Record} (hb : r.Bounded u) (hl : r.limit u = none)
    (h : Kept u (getAlloc val u) s m) : Answered u m r val s := by
  refine ⟨hb, fun x hx => ?_, m, le_rfl, by simp [hl], h⟩
  obtain ⟨b, hb', -⟩ := hx.limit
  rw [hl] at hb'
  cases hb'

/-- The end that a query sets is not above 0 if the counter for row IDs is not. -/
theorem always_queryAutoID {a : AutoIDValue} (h : Kept u a s m) (hrow : a.base = 0 → value u s.rowID ≤ 0) :
    Always lost (queryAutoID a) s fun x s' => Kept u x.1 s' m := by
  unfold queryAutoID
  split
  · exact h
  · rename_i h0
    have h0' : a.base = 0 := not_not.mp h0
    have hset : Kept u { a with end_ := s.rowID } s m :=
      ⟨h.kind, h.base_int64, h.row_int64, h.row_int64, h.cell, h.mark, .inl ⟨h0', hrow h0'⟩⟩
    refine ⟨h, fun e he => ?_, fun s₁ b hb => ?_⟩
    · cases he
    · cases hb
      exact ⟨hset, h⟩

theorem always_allocAutoID {isOwner : Bool} {req : AutoIDRequest}
    (h : Kept u (getAlloc val u) s m) (hv : (Event.alloc isOwner req).Valid u) {log : List Record}
    (hs : Sound u ⟨s, val, log⟩ (.alloc isOwner req)) :
    Always lost (allocAutoID isOwner req val) s fun x s' => Answered u m (.alloc req x.2) x.1 s' := by
  obtain ⟨rfl, -, hinc, hinc', hoff, hoff'⟩ := hv
  unfold allocAutoID
  split
  · exact answered_nothing trivial rfl h
  simp only [Sound] at hs
  by_cases hn : req.n = 0
  · rw [if_pos hn] at hs ⊢
    refine (always_queryAutoID h hs).bind fun x s' hx => ?_
    obtain ⟨a', ⟨lo, hi, err⟩⟩ := x
    cases err with
    | some e => exact answered_nothing trivial rfl hx
    | none => exact answered_nothing (absurd hn) (by simp [Record.limit, hn]) hx
  rw [if_neg hn] at hs ⊢
  have hfits : req.toAllocReq.Fits :=
    ⟨Nat.pos_of_ne_zero hn, hinc, hinc', hoff, hoff', hs.1, le_rfl,
      show Autoid.minStep ≤ Autoid.maxStep by decide⟩
  have halloc : Always lost
      (if req.isUnsigned = true then
        alloc4Unsigned (getAlloc val req.isUnsigned) req.isUnsigned req.n req.increment req.offset
      else alloc4Signed (getAlloc val req.isUnsigned) req.isUnsigned req.n req.increment req.offset)
      s (Given req.isUnsigned req m) := by
    have hs2 := hs.2
    generalize hu : req.isUnsigned = w at h hs2 ⊢
    cases w with
    | true =>
      obtain ⟨hroom, hroom'⟩ := hs2 rfl
      exact always_alloc4Unsigned hfits h hroom hroom'
    | false => exact always_alloc4Signed hfits h
  refine halloc.bind fun x s' hx => ?_
  obtain ⟨a', r⟩ := x
  cases r with
  | error e => exact answered_nothing trivial rfl hx
  | ok lohi =>
    obtain ⟨hk, hm, hlt, htop, hcard⟩ := hx
    refine ⟨fun _ => ⟨hlt, htop, hcard⟩, fun x hx => ?_, _, hm.trans hlt.le, ?_, hk⟩
    · exact lt_of_le_of_lt hm (mem_members.mp hx.2).1
    · simp [Record.limit]

theorem always_rebase {isOwner : Bool} {req : RebaseRequest} (h : Kept u (getAlloc val u) s m)
    (hv : (Event.rebase isOwner req).Valid u) :
    Always lost (rebase isOwner req val) s fun x s' => Answered u m (.rebase req x.2) x.1 s' := by
  obtain ⟨rfl, hforce, hbase⟩ := hv
  unfold rebase
  split
  · exact answered_nothing trivial rfl h
  rw [hforce]
  have hrebase : Always lost
      (if req.isUnsigned = true then rebase4Unsigned (getAlloc val req.isUnsigned) (uint64 req.base)
        else rebase4Signed (getAlloc val req.isUnsigned) req.base) s
      (Rebased req.isUnsigned (getAlloc val req.isUnsigned) (value req.isUnsigned s.incrementID) m
        (value req.isUnsigned req.base)) := by
    generalize req.isUnsigned = w at h ⊢
    cases w with
    | true => exact always_rebase4Unsigned h (uint64_nonneg _) (uint64_le _)
    | false => exact always_rebase4Signed h hbase
  refine hrebase.bind fun x s' hx => ?_
  obtain ⟨a', r⟩ := x
  cases r with
  | error e => exact answered_nothing trivial rfl hx
  | ok _ =>
    refine ⟨trivial, fun x hx => hx.elim, _, le_max_left _ _, ?_, hx.1⟩
    simp [Record.limit]

end Requests

structure Inv (u : Bool) (s : Service) : Prop where
  bounded : ∀ r ∈ s.log, r.Bounded u
  ordered : s.log.Pairwise (Above u)
  kept : ∃ m, (∀ r ∈ s.log, ∀ b ∈ r.limit u, b ≤ m) ∧ Kept u (getAlloc s.val u) s.store m

section Runs

variable {lost : String} {u : Bool} {s s' : Service}

theorem Inv.answered (h : Inv u s) {r : Record} {val : Option AutoIDValue} {store : Storage}
    (ha : ∀ m, Kept u (getAlloc s.val u) s.store m → Answered u m r val store) : Inv u ⟨store, val, r :: s.log⟩ := by
  obtain ⟨m, hm, hk⟩ := h.kept
  obtain ⟨hb, hg, m', hm', hl, hk'⟩ := ha m hk
  refine ⟨List.forall_mem_cons.mpr ⟨hb, h.bounded⟩, List.pairwise_cons.mpr ⟨?_, h.ordered⟩, m',
    List.forall_mem_cons.mpr ⟨hl, fun r hr b hbr => (hm r hr b hbr).trans hm'⟩, hk'⟩
  intro old hold x hx b hb
  exact lt_of_le_of_lt (hm old hold b hb) (hg x hx)

theorem Inv.step {e : Event} (h : Inv u s) (hv : e.Valid u) (hs : Sound u s e) (hst : Step lost e s s') : Inv u s' := by
  cases hst with
  | alloc hr => exact h.answered fun m hk => (always_allocAutoID hk hv hs).runs hr
  | rebase hr => exact h.answered fun m hk => (always_rebase hk hv).runs hr
  | lose =>
    obtain ⟨m, hm, hk⟩ := h.kept
    exact ⟨h.bounded, h.ordered, m, hm, kept_new hk.row_int64 hk.cell hk.mark⟩
  | close hr =>
    obtain ⟨m, hm, hk⟩ := h.kept
    exact ⟨h.bounded, h.ordered, m, hm, (always_close hk).runs hr⟩
  | rowID =>
    obtain ⟨m, hm, hk⟩ := h.kept
    exact ⟨h.bounded, h.ordered, m, hm, ⟨hk.kind, hk.base_int64, hk.end_int64, hv, hk.cell, hk.mark, hk.own⟩⟩

theorem inv_reachable (h : Reachable lost (fun s e => e.Valid u ∧ Sound u s e) (Start u) s) : Inv u s := by
  induction h with
  | @start s hs =>
    obtain ⟨hcell, hrow, hval, hlog⟩ := hs
    refine ⟨by simp [hlog], by simp [hlog], value u s.store.incrementID, by simp [hlog], ?_⟩
    rw [hval]
    exact kept_new hrow hcell le_rfl
  | step _ hallowed hst ih => exact ih.step hallowed.1 hallowed.2 hst

/-- No ID is given that an earlier answer has given, or that is not above an earlier rebase. -/
structure Follows (u : Bool) (new old : Record) : Prop where
  fresh : ∀ x, new.Gives u x → ¬ old.Gives u x
  rebased : ∀ x, new.Gives u x → ∀ req, old = .rebase req (.ok {}) → value u req.base < x

/-- Over every run of `Sound` requests: no ID is given twice, one given after a rebase is above it, and the bounds of an
answer are in the range of the type and hold as many IDs as were asked for. -/
theorem service_gives_once (h : Reachable lost (fun s e => e.Valid u ∧ Sound u s e) (Start u) s) :
    s.log.Pairwise (Follows u) ∧ ∀ r ∈ s.log, r.Bounded u := by
  have hinv := inv_reachable h
  refine ⟨hinv.ordered.imp fun {new old} habove => ⟨fun x hx hold => ?_, fun x hx req hreq => ?_⟩, hinv.bounded⟩
  · obtain ⟨b, hb, hle⟩ := hold.limit
    have := habove x hx b hb
    omega
  · exact habove x hx _ (by rw [hreq]; rfl)

end Runs

def newService (rowID : ℤ) : Service := ⟨⟨rowID, 0⟩, none, []⟩

theorem start_newService {rowID : ℤ} (h : IsInt64 rowID) : Start false (newService rowID) :=
  ⟨⟨⟨by norm_num [newService], by norm_num [newService]⟩, le_rfl⟩, h, rfl, rfl⟩

def fiveIDs : AutoIDRequest := ⟨false, 5, 1, 1⟩

/-- A leader is rebased to 3 and goes down; the next one gives out five IDs above what is reserved. -/
theorem service_gives_once_restarted : ∃ s,
    Reachable "" (fun s e => e.Valid false ∧ Sound false s e) (Start false) s ∧
      s.log = [.alloc fiveIDs (.ok { min := 4003, max := 4008 }), .rebase ⟨3, false, false⟩ (.ok {})] ∧
      s.log.Pairwise (Follows false) ∧ ∀ r ∈ s.log, r.Bounded false := by
  have hrebase : rebaseTxnSigned 3 0 = .ok (4003, ⟨3, 4003, 0, 0⟩) := by decide +kernel
  have hbatch : batchSigned false 5 1 1 4003 = .ok (8003, ⟨4003, 8003, 5, 4000⟩) := by decide +kernel
  have hgiven : Runs "" (allocAutoID true fiveIDs none) ⟨0, 4003⟩
      (some ⟨4008, 8003, false⟩, .ok { min := 4003, max := 4008 }) ⟨0, 8003⟩ :=
    .commit (onIncrementID_ok hbatch) .ret
  have h1 : Reachable "" (fun s e => e.Valid false ∧ Sound false s e) (Start false) (newService 0) :=
    .start (start_newService ⟨by norm_num, by norm_num⟩)
  have h2 := (h1.step (e := .rebase true ⟨3, false, false⟩) ⟨⟨rfl, rfl, by norm_num, by norm_num⟩, trivial⟩
    (.rebase (.commit (onIncrementID_ok hrebase) .ret))).step (e := .lose) ⟨trivial, trivial⟩ .lose
  have h3 := h2.step (e := .alloc true fiveIDs)
    ⟨⟨rfl, by decide, by decide, by decide, by decide, by decide⟩, by decide, by decide⟩ (.alloc hgiven)
  exact ⟨_, h3, rfl, service_gives_once h3⟩

theorem step_fiveIDs (lost : String) (rowID : ℤ) : Step lost (.alloc true fiveIDs) (newService rowID)
      ⟨⟨rowID, 4000⟩, some ⟨5, 4000, false⟩, [.alloc fiveIDs (.ok { min := 0, max := 5 })]⟩ := by
  have hbatch : batchSigned false 5 1 1 0 = .ok (4000, ⟨0, 4000, 5, 4000⟩) := by decide
  exact .alloc (.commit (onIncrementID_ok hbatch) .ret)

/-- The leader gives out 1 to 5 and goes down. The next one, asked for the current value, takes 10 from the counter for
row IDs; it is rebased to 1, and gives out 2 again. -/
theorem service_gives_twice :
    ∃ s, Reachable "" (fun _ e => e.Valid false) (Start false) s ∧
      ¬s.log.Pairwise fun new old => ∀ x, new.Gives false x → ¬old.Gives false x := by
  have hvalid : ∀ n < 2 ^ 64, (Event.alloc true ⟨false, n, 1, 1⟩).Valid false :=
    fun n hn => ⟨rfl, hn, le_rfl, by norm_num [Autoid.maxIncrement], le_rfl, by norm_num [Autoid.maxIncrement]⟩
  have h1 : Reachable "" (fun _ e => e.Valid false) (Start false) _ :=
    .step (.start (start_newService ⟨by norm_num, by norm_num⟩)) (hvalid 5 (by decide))
      (step_fiveIDs "" 10)
  have h2 := h1.step (e := .lose) trivial .lose
  have hquery : Runs "" (allocAutoID true ⟨false, 0, 1, 1⟩ none) ⟨10, 4000⟩
      (some ⟨0, 10, false⟩, .ok { min := 10, max := 10 }) ⟨10, 4000⟩ := .commit rfl .ret
  have h3 := h2.step (hvalid 0 (by decide)) (.alloc hquery)
  have hrebase : Runs "" (rebase true ⟨1, false, false⟩ (some ⟨0, 10, false⟩)) ⟨10, 4000⟩
      (some ⟨1, 10, false⟩, .ok {}) ⟨10, 4000⟩ := .ret
  have h4 := h3.step (e := .rebase true ⟨1, false, false⟩) ⟨rfl, rfl, by norm_num, by norm_num⟩
    (.rebase hrebase)
  have halloc : Runs "" (allocAutoID true ⟨false, 1, 1, 1⟩ (some ⟨1, 10, false⟩)) ⟨10, 4000⟩
      (some ⟨2, 10, false⟩, .ok { min := 1, max := 2 }) ⟨10, 4000⟩ := .ret
  have h5 := h4.step (hvalid 1 (by decide)) (.alloc halloc)
  refine ⟨_, h5, fun hp => ?_⟩
  have htwice := (List.pairwise_cons.mp hp).1 (.alloc fiveIDs (.ok { min := 0, max := 5 })) (by simp) 2
  refine htwice ⟨by decide, ?_⟩ ⟨by decide, ?_⟩
  · exact mem_members.mpr ⟨by decide, by decide, by decide⟩
  · exact mem_members.mpr ⟨by decide, by decide, by decide⟩

end Tidb.AutoidService
