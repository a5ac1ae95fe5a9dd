import Tidb.Table.SequenceBatch

/-!
# What a sequence gives

The values are the members of a residue class in ranges that are reserved in the counter.  What does not fit is the
cache of a node that has not taken anything yet: its `base` and `end` are 0, and `setval` compares with them.
-/

namespace Tidb.Sequence

open GoLang Interleaving Reservation Progression

/-! ## The range of a node -/

structure Valid (seq : SequenceInfo) : Prop where
  options : validateSequenceOptions seq = true
  noCycle : seq.cycle = false
  start_int64 : IsInt64 seq.start
  min_int64 : IsInt64 seq.minValue
  max_int64 : IsInt64 seq.maxValue
  increment_int64 : IsInt64 seq.increment
  cache_int64 : IsInt64 seq.cacheValue

variable {seq : SequenceInfo}

theorem Valid.accepted (hv : Valid seq) : Accepted seq :=
  ⟨hv.options, hv.start_int64, hv.min_int64, hv.max_int64, hv.increment_int64, hv.cache_int64⟩

def CellOk (seq : SequenceInfo) (s : SeqStore) : Prop :=
  IsInt64 s.value ∧ place seq seq.start - 1 ≤ place seq s.value

/-- The cache of a node is reserved in a counter at `c`.  If there are values in it, they are between
the start and the last value. -/
structure Cached (seq : SequenceInfo) (a : SequenceCommon) (c : ℤ) : Prop where
  base_int64 : IsInt64 a.base
  end_int64 : IsInt64 a.end_
  base_le : place seq a.base ≤ place seq a.end_
  end_le : place seq a.end_ ≤ c
  inside : a.base ≠ a.end_ → place seq seq.start - 1 ≤ place seq a.base ∧ place seq a.end_ ≤ place seq seq.last

/-- A node that has not taken anything yet has a `base` and an `end` of 0. -/
def Good (seq : SequenceInfo) (a : SequenceCommon) (c : ℤ) : Prop :=
  a.base = 0 ∧ a.end_ = 0 ∨ Cached seq a c

def own (seq : SequenceInfo) (a : SequenceCommon) : Range := ⟨place seq a.base, place seq a.end_⟩

variable {a : SequenceCommon} {c : ℤ}

theorem Cached.mono {c' : ℤ} (hc : c ≤ c') (h : Cached seq a c) : Cached seq a c' :=
  ⟨h.base_int64, h.end_int64, h.base_le, h.end_le.trans hc, h.inside⟩

theorem Good.mono {c' : ℤ} (hc : c ≤ c') (h : Good seq a c) : Good seq a c' :=
  h.imp_right (Cached.mono hc)

theorem Good.cached (h : Good seq a c) (hne : a.base ≠ a.end_) : Cached seq a c := by
  rcases h with ⟨h1, h2⟩ | h
  · exact absurd (h1.trans h2.symm) hne
  · exact h

section Node

variable {seq : SequenceInfo} (hv : Valid seq)

include hv

theorem Valid.offset_eq (round : ℤ) : seq.offset round = seq.start := by
  rw [SequenceInfo.offset, hv.noCycle]
  exact if_neg fun h => by cases h.1

theorem Valid.seek_place {x : ℤ} (ha : Cached seq a c) (hne : a.base ≠ a.end_) (h : a.seek seq = some x) :
    place seq a.base < place seq x ∧ place seq x ≤ place seq a.end_ ∧ IsInt64 x ∧
      seq.minValue ≤ x ∧ x ≤ seq.maxValue ∧ x ≡ seq.start [ZMOD seq.increment] := by
  obtain ⟨-, hmin, hmax, -⟩ := hv.accepted.range
  obtain ⟨hlo, hhi⟩ := ha.inside hne
  have hle := ha.base_le
  have hbounds := hv.accepted.bounds
  have hend : -2 ^ 63 < a.end_ ∧ a.end_ < 2 ^ 63 := by
    unfold place at hlo hhi hle
    unfold SequenceInfo.last at hhi
    split at hlo <;> omega
  have hseek : a.seek seq = if seq.firstPlace a.base seq.start ≤ place seq a.end_
      then some (place seq (seq.firstPlace a.base seq.start)) else none := by
    unfold SequenceCommon.seek
    rw [show a.getOffset seq = seq.start from hv.offset_eq a.round]
    split
    · exact hv.accepted.seek_place ha.base_int64 ⟨hmin, hmax⟩ hlo (if_pos ‹_›) hend.1 hend.2
    · exact hv.accepted.seek_place ha.base_int64 ⟨hmin, hmax⟩ hlo (if_neg ‹_›) hend.1 hend.2
  rw [hseek] at h
  split at h
  · cases h
    have hlt := hv.accepted.lt_firstPlace a.base seq.start
    generalize hf : seq.firstPlace a.base seq.start = f at *
    have hmem : seq.minValue ≤ place seq f ∧ place seq f ≤ seq.maxValue := by
      unfold place at *
      unfold SequenceInfo.last at hhi
      split at hlo <;> omega
    have hmod : place seq (place seq f) ≡ place seq seq.start [ZMOD |seq.increment|] := by
      rw [place_place, ← hf]
      exact first_modEq
    exact ⟨by rwa [place_place], by rwa [place_place], ⟨by omega, by omega⟩, hmem.1, hmem.2, place_modEq.mp hmod⟩
  · cases h

theorem Valid.alloc4Sequence_ok {s s' : SeqStore} {v : Captured} (hs : CellOk seq s)
    (h : alloc4Sequence seq s = .ok (s', v)) : v.newBase = s.value ∧ v.newEnd = s'.value ∧ IsInt64 s'.value ∧
      place seq s.value < place seq s'.value ∧ place seq s'.value ≤ place seq seq.last := by
  have hoffset := hv.offset_eq s.cycle
  rcases hv.accepted.alloc4Sequence_ok hs.1 (by rw [hoffset]; exact hs.2) h with
    ⟨-, hbase, -, hb⟩ | ⟨-, hcycle, -⟩
  · have hrange := hb.range hv.accepted
    rw [hbase] at hrange
    exact ⟨hbase, hb.stored, hb.int64, hrange.2.2, hrange.2.1⟩
  · rw [hv.noCycle] at hcycle
    cases hcycle

end Node

/-! ## Calls -/

/-- A value is read as a range of one number, and a `setval` that returns, `NULL` or not, as an empty range at its
argument. -/
def reading (seq : SequenceInfo) : Reading SeqStore SequenceCommon Request Reply where
  cellOk := CellOk seq
  value s := place seq s.value
  own := own seq
  good := Good seq
  gave
    | _, .nextval (.ok x) => some ⟨place seq x - 1, place seq x⟩
    | .setval n _, .setval (.ok _) =>
      if seq.minValue ≤ n ∧ n ≤ seq.maxValue then some ⟨place seq n, place seq n⟩ else none
    | _, _ => none
  post
    | _, .nextval (.ok x) => fun _ _ =>
      seq.minValue ≤ x ∧ x ≤ seq.maxValue ∧ x ≡ seq.start [ZMOD seq.increment]
    | _, _ => fun _ _ => True

/-- A `setval` to a number in the range, on a node whose `base` and `end` are 0, goes beyond 0, or the
counter is there already. -/
def Sound (seq : SequenceInfo) (s : SeqStore) (a : SequenceCommon) : Request → Prop
  | .nextval _ => True
  | .setval n _ => a.base = 0 → a.end_ = 0 → seq.minValue ≤ n → n ≤ seq.maxValue →
      place seq n ≤ 0 → place seq n ≤ place seq s.value

def Request.IsInt64 : Request → Prop
  | .nextval _ => True
  | .setval n _ => GoLang.IsInt64 n

abbrev Allowed (seq : SequenceInfo) (s : SeqStore) (a : SequenceCommon) (k : Request) : Prop :=
  k.IsInt64 ∧ Sound seq s a k

theorem allowed_nextval {seq : SequenceInfo} (s : SeqStore) (a : SequenceCommon) (b : Bool) :
    Allowed seq s a (.nextval b) :=
  ⟨trivial, trivial⟩

section Calls

variable {seq : SequenceInfo} {a : SequenceCommon} {c : ℤ} {nd : Range}

theorem finishes_nothing {k : Request} {r : Reply} (hgave : (reading seq).gave k r = none)
    (hpost : (reading seq).post k r a c) (hg : Good seq a c)
    (hnd : ∀ y, (own seq a).Has y → nd.Has y) : (reading seq).Finishes k (a, r) nd c := by
  refine ⟨hg, hpost, ?_⟩
  simp only [hgave]
  exact hnd

theorem finishes_setval {n : ℤ} {b : Bool} {r : ℤ × Bool} (hg : Good seq a c) (hle : place seq n ≤ place seq a.base)
    (hc : seq.minValue ≤ n → n ≤ seq.maxValue → place seq n ≤ c) (hnd : ∀ y, (own seq a).Has y → nd.Has y) :
    (reading seq).Finishes (.setval n b) (a, .setval (.ok r)) nd c := by
  by_cases hn : seq.minValue ≤ n ∧ n ≤ seq.maxValue
  · refine ⟨hg, trivial, ?_⟩
    simp only [reading, if_pos hn]
    refine ⟨hc hn.1 hn.2, ?_, ?_⟩
    · rintro y ⟨h1, h2⟩
      simp only at h1 h2
      omega
    · intro y hy
      have h1 : place seq a.base < y := hy.1
      exact ⟨hnd y hy, by omega⟩
  · refine finishes_nothing ?_ trivial hg hnd
    simp only [reading, if_neg hn]

variable (hv : Valid seq)

include hv

theorem finishes_nextval {x : ℤ} {k : Request} (ha : Cached seq a c) (hne : a.base ≠ a.end_)
    (hseek : a.seek seq = some x) (hnd : ∀ y, (own seq a).Has y → nd.Has y) :
    (reading seq).Finishes k ({ a with base := x }, .nextval (.ok x)) nd c := by
  obtain ⟨h1, h2, h64, hmin, hmax, hmod⟩ := hv.seek_place ha hne hseek
  obtain ⟨hlo, hhi⟩ := ha.inside hne
  have hec := ha.end_le
  have hnew : Cached seq { a with base := x } c :=
    ⟨h64, ha.end_int64, h2, hec, fun _ => ⟨by simp only; omega, hhi⟩⟩
  refine ⟨.inr hnew, ⟨hmin, hmax, hmod⟩, ?_⟩
  simp only [reading]
  refine ⟨by omega, ?_, ?_⟩
  · rintro y ⟨h3, h4⟩
    simp only at h3 h4
    exact hnd y ⟨by simp only [own]; omega, by simp only [own]; omega⟩
  · intro y hy
    have h3 : place seq x < y := hy.1
    exact ⟨hnd y ⟨by simp only [own]; omega, hy.2⟩, h3⟩

theorem keeps_nextval {s : SeqStore} (hg : Good seq a (place seq s.value)) (b : Bool) :
    Keeps (CellOk seq) (fun s => place seq s.value) .storage (serve seq (.nextval b) a) (own seq a)
      (place seq s.value) ((reading seq).Finishes (.nextval b)) := by
  unfold serve getSequenceNextVal
  simp only
  split
  · rename_i x hx
    have hne : a.base ≠ a.end_ := by
      intro heq
      rw [if_pos heq] at hx
      cases hx
    rw [if_neg hne] at hx
    exact finishes_nextval hv (hg.cached hne) hne hx fun y hy => hy
  · intro t ht hct
    have hstay : ∀ e, (reading seq).Finishes (.nextval b) (a, .nextval (.error e)) (own seq a) (place seq t.value) :=
      fun e => finishes_nothing rfl trivial (hg.mono hct) fun y hy => hy
    refine ⟨hstay _, fun e _ => hstay e, fun t' v hbatch => ?_⟩
    obtain ⟨hnb, hne, h64, hlt, hlast⟩ := hv.alloc4Sequence_ok ht hbatch
    have ht2 := ht.2
    refine ⟨⟨h64, by omega⟩, place seq t.value, le_rfl, hlt.le, ?_⟩
    -- the node has the batch from here on, whatever comes next
    have hnew : Cached seq ⟨v.newEnd, v.newBase, v.round⟩ (place seq t'.value) := by
      refine ⟨hnb ▸ ht.1, hne ▸ h64, ?_, ?_, fun _ => ⟨?_, ?_⟩⟩
      · simp only [hnb, hne]
        exact hlt.le
      · simp only [hne]
        exact le_rfl
      · simp only [hnb]
        exact ht2
      · simp only [hne]
        exact hlast
    have hndeq : own seq ⟨v.newEnd, v.newBase, v.round⟩ = ⟨place seq t.value, place seq t'.value⟩ := by
      simp only [own, hnb, hne]
    have hfail : ∀ e, (reading seq).Finishes (.nextval b) (⟨v.newEnd, v.newBase, v.round⟩, .nextval (.error e))
        ⟨place seq t.value, place seq t'.value⟩ (place seq t'.value) :=
      fun e => finishes_nothing rfl trivial (.inr hnew) fun y hy => hndeq ▸ hy
    simp only
    split
    · exact hfail _
    split
    · exact hfail _
    · rename_i x hx
      refine finishes_nextval hv hnew ?_ hx fun y hy => hndeq ▸ hy
      simp only [hnb, hne]
      intro heq
      rw [heq] at hlt
      exact lt_irrefl _ hlt

omit hv in
theorem keeps_setval {s : SeqStore} (hg : Good seq a (place seq s.value)) {n : ℤ} (hn : IsInt64 n)
    {b : Bool} (hsound : Sound seq s a (.setval n b)) :
    Keeps (CellOk seq) (fun s => place seq s.value) .storage (serve seq (.setval n b) a) (own seq a)
      (place seq s.value) ((reading seq).Finishes (.setval n b)) := by
  have hdir : ∀ x y, (0 < seq.increment ∧ x ≤ y ∨ ¬0 < seq.increment ∧ y ≤ x) ↔ place seq x ≤ place seq y := by
    unfold place
    split <;> omega
  unfold serve setSequenceVal
  simp only [hdir]
  split
  · rename_i hle
    refine finishes_setval hg hle (fun h1 h2 => ?_) fun y hy => hy
    rcases hg with ⟨hb0, he0⟩ | hc
    · have h0 : place seq a.base = 0 := by
        rw [hb0, place]
        simp
      exact hsound hb0 he0 h1 h2 (by omega)
    · exact hle.trans (hc.base_le.trans hc.end_le)
  rename_i hbase
  split
  · rename_i hend
    have hne : a.base ≠ a.end_ := by
      intro heq
      rw [heq] at hbase
      exact hbase hend
    have hc := hg.cached hne
    obtain ⟨hlo, hhi⟩ := hc.inside hne
    have hec := hc.end_le
    have hnew : Cached seq { a with base := n } (place seq s.value) :=
      ⟨hn, hc.end_int64, hend, hec, fun _ => ⟨by simp only; omega, hhi⟩⟩
    refine finishes_setval (.inr hnew) le_rfl (fun _ _ => hend.trans hec) fun y hy => ?_
    have h1 : place seq n < y := hy.1
    exact ⟨by simp only [own]; omega, hy.2⟩
  · intro t ht hct
    have hempty : ∀ x : SequenceCommon, x.base = x.end_ → ∀ nd' : Range, ∀ y, (own seq x).Has y → nd'.Has y := by
      rintro x hx nd' y ⟨h1, h2⟩
      simp only [own, hx] at h1 h2
      omega
    have hgone : ∀ c', place seq t.value ≤ c' → ∀ nd' : Range, ∀ e,
        (reading seq).Finishes (.setval n b) ({ a with base := a.end_ }, .setval (.error e)) nd' c' := by
      intro c' hc' nd' e
      refine finishes_nothing rfl trivial ?_ (hempty _ rfl nd')
      rcases hg with ⟨hb0, he0⟩ | hc
      · exact .inl ⟨he0, he0⟩
      · exact .inr ⟨hc.end_int64, hc.end_int64, le_rfl, (hc.end_le.trans hct).trans hc', absurd rfl⟩
    have hset : ∀ c', place seq n ≤ c' → ∀ nd' : Range, ∀ r : ℤ × Bool,
        (reading seq).Finishes (.setval n b) ({ a with base := n, end_ := n }, .setval (.ok r)) nd'
          c' := by
      intro c' hc' nd' r
      refine finishes_setval (.inr ?_) le_rfl (fun _ _ => hc') (hempty _ rfl nd')
      exact ⟨hn, hn, le_rfl, hc', absurd rfl⟩
    refine ⟨hgone _ le_rfl _ _, fun e _ => hgone _ le_rfl _ e, fun t' v hrebase => ?_⟩
    unfold rebase4Sequence at hrebase
    simp only [hdir] at hrebase
    split at hrebase
    · rename_i hsat
      cases hrebase
      exact ⟨ht, place seq t.value, le_rfl, le_rfl, hset _ hsat _ _⟩
    · cases hrebase
      have hval : int64 (t.value + int64 (n - t.value)) = n := by
        unfold IsInt64 at hn
        unfold int64
        omega
      simp only [hval]
      have ht2 := ht.2
      refine ⟨⟨hn, by simp only; omega⟩, place seq t.value, le_rfl, by omega, ?_⟩
      cases b with
      | true => exact hgone _ (by omega) _ _
      | false => exact hset _ le_rfl _ _

def discipline : Discipline (serve seq) (Allowed seq) .storage where
  toReading := reading seq
  good_mono hc h := h.mono hc
  post_mono {k r} _ _ _ _ h := by
    match k, r, h with
    | _, .nextval (.ok _), h => exact h
    | _, .nextval (.error _), _ => trivial
    | _, .setval _, _ => trivial
  keeps k a s _ hk hg := by
    cases k with
    | nextval b => exact keeps_nextval hv hg b
    | setval n b => exact keeps_setval hg hk.1 hk.2

end Calls

/-! ## Runs -/

section Runs

variable {ι : Type} {seq : SequenceInfo}

abbrev System (ι : Type) := Sys ι SeqStore SeqErr Captured SequenceCommon Request Reply

def Start (seq : SequenceInfo) (s : System ι) : Prop :=
  CellOk seq s.cell ∧ s.log = [] ∧ ∀ i, s.node i = .idle ⟨0, 0, 0⟩

theorem Start.discipline (hv : Valid seq) {s : System ι} (h : Start seq s) : (discipline hv).Start s :=
  ⟨h.1, h.2.1, fun i => ⟨_, h.2.2 i, .inl ⟨rfl, rfl⟩, le_rfl⟩⟩

theorem Valid.cellOk_base (hv : Valid seq) (cycle : ℤ) : CellOk seq ⟨seq.base, cycle⟩ :=
  ⟨hv.accepted.base_place.1, hv.accepted.base_place.2.ge⟩

/-- What an earlier call means for a later one: other values, and values beyond a `setval` where the node is the
same. -/
structure Follows (seq : SequenceInfo) (new old : Entry ι SeqStore SequenceCommon Request Reply) : Prop where
  fresh : ∀ x y, new.result = .nextval (.ok x) → old.result = .nextval (.ok y) → x ≠ y
  beyond : new.node = old.node → ∀ x n b r, new.result = .nextval (.ok x) → old.call = .setval n b →
    old.result = .setval (.ok r) → seq.minValue ≤ n → n ≤ seq.maxValue → place seq n < place seq x

variable [DecidableEq ι]

/-- Over every interleaving of `Sound` calls: no value is given twice, those of a node are beyond every argument of a
`setval` that returned on it, and all are in the range and in step with the start. -/
theorem sequence_interleaved (hv : Valid seq) {s : System ι}
    (h : Reachable (serve seq) (Allowed seq) .storage (Start seq) s) :
    s.log.Pairwise (Follows seq) ∧
    ∀ e ∈ s.log, ∀ x, e.result = .nextval (.ok x) →
      seq.minValue ≤ x ∧ x ≤ seq.maxValue ∧ x ≡ seq.start [ZMOD seq.increment] := by
  have hreach : Reachable (serve seq) (Allowed seq) .storage (discipline hv).Start s := by
    induction h with
    | start hs => exact .start (hs.discipline hv)
    | step _ hst ih => exact .step ih hst
  obtain ⟨-, hpost, node, hinv, -⟩ := (discipline hv).reachable_safe hreach
  refine ⟨(List.pairwise_filterMap.mp hinv.ordered).imp fun {new old} hafter => ?_, fun e he x hx => ?_⟩
  · have hgave : ∀ x g, new.result = .nextval (.ok x) → (reading seq).gave old.call old.result = some g →
        ¬g.Has (place seq x) ∧ (new.node = old.node → g.limit < place seq x) := by
      intro x g hx hg
      refine hafter (_, ⟨place seq x - 1, place seq x⟩) ?_ (_, g) ?_ (place seq x) ⟨by simp only; omega, le_rfl⟩
      · simp only [discipline, hx, reading]
        rfl
      · simp only [discipline, hg]
        rfl
    constructor
    · rintro x y hx hy rfl
      exact (hgave x ⟨place seq x - 1, place seq x⟩ hx (by rw [hy]; rfl)).1 ⟨by simp only; omega, le_rfl⟩
    · intro hnode x n b r hx hcall hres hlo hhi
      refine (hgave x ⟨place seq n, place seq n⟩ hx ?_).2 hnode
      rw [hcall, hres]
      exact if_pos ⟨hlo, hhi⟩
  · have hp := hpost e he
    rw [hx] at hp
    exact hp

/-- `CREATE SEQUENCE s MINVALUE -100 MAXVALUE 100 START -100 CACHE 10` -/
def hundred : SequenceInfo := ⟨-100, true, false, -100, 100, 1, 10⟩

theorem valid_hundred : Valid hundred := by refine ⟨by decide, rfl, ?_, ?_, ?_, ?_, ?_⟩ <;> constructor <;> decide

def newNodes : System ι := ⟨⟨hundred.base, 0⟩, fun _ => .idle ⟨0, 0, 0⟩, []⟩

omit [DecidableEq ι] in
theorem start_newNodes : Start hundred (newNodes : System ι) := ⟨valid_hundred.cellOk_base 0, rfl, fun _ => rfl⟩

end Runs

/-- Two nodes take a batch each, and one of them is set to -50 and goes on. -/
theorem sequence_interleaved_two : ∃ s : System Bool,
    Reachable (serve hundred) (Allowed hundred) .storage (Start hundred) s ∧
      s.log.map (fun e => (e.node, e.result)) = [(true, .nextval (.ok (-49))), (true, .setval (.ok (-50, false))),
        (true, .nextval (.ok (-90))), (false, .nextval (.ok (-100)))] ∧ s.log.Pairwise (Follows hundred) := by
  have h1 : Reachable (serve hundred) (Allowed hundred) .storage (Start hundred) (newNodes : System Bool) :=
    .start start_newNodes
  have h2 := (h1.step (.call (i := true) (.nextval false) rfl (allowed_nextval _ _ _))).step
    (.call (i := false) (.nextval false) rfl (allowed_nextval _ _ _))
  have h3 := (h2.step (.commit (i := false) (c := ⟨-91, 0⟩) (b := ⟨-101, -91, 0, false⟩) rfl rfl)).step
    (.commit (i := true) (c := ⟨-81, 0⟩) (b := ⟨-91, -81, 0, false⟩) rfl rfl)
  have h4 := (h3.step (.return (i := false) (a := ⟨-91, -100, 0⟩) (r := .nextval (.ok (-100))) rfl)).step
    (.return (i := true) (a := ⟨-81, -90, 0⟩) (r := .nextval (.ok (-90))) rfl)
  have h5 := (h4.step (.call (i := true) (.setval (-50) false) rfl
    (show Allowed hundred _ ⟨-81, -90, 0⟩ (.setval (-50) false) from
      ⟨⟨by decide, by decide⟩, fun h => absurd h (by decide)⟩))).step
    (.commit (i := true) (c := ⟨-50, 0⟩) (b := {}) rfl rfl)
  have h6 := (h5.step (.return (i := true) (a := ⟨-50, -50, 0⟩) (r := .setval (.ok (-50, false))) rfl)).step
    (.call (i := true) (.nextval false) rfl (allowed_nextval _ _ _))
  have h7 := (h6.step (.commit (i := true) (c := ⟨-40, 0⟩) (b := ⟨-50, -40, 0, false⟩) rfl rfl)).step
    (.return (i := true) (a := ⟨-40, -49, 0⟩) (r := .nextval (.ok (-49))) rfl)
  exact ⟨_, h7, rfl, (sequence_interleaved valid_hundred h7).1⟩

/-- A new node answers `setval(-50)` with `NULL`, and its next value is -100. -/
theorem setval_null_first : ∃ s : System Unit,
    Reachable (serve hundred) (fun _ _ k => k.IsInt64) .storage (Start hundred) s ∧
      ∃ new old, s.log = [new, old] ∧ old.node = new.node ∧ old.call = .setval (-50) false ∧
        old.result = .setval (.ok (0, true)) ∧ new.result = .nextval (.ok (-100)) ∧
        ¬place hundred (-50) < place hundred (-100) := by
  have h1 : Reachable (serve hundred) (fun _ _ k => k.IsInt64) .storage (Start hundred) _ :=
    .step (.start start_newNodes) (.call (i := ()) (.setval (-50) false) rfl
      (show Request.IsInt64 (.setval (-50) false) from ⟨by decide, by decide⟩))
  have h2 := h1.step (.return (i := ()) (a := ⟨0, 0, 0⟩) (r := .setval (.ok (0, true))) rfl)
  have h3 := h2.step (.call (i := ()) (.nextval false) rfl (show Request.IsInt64 (.nextval false) from trivial))
  have h4 := h3.step (.commit (i := ()) (c := ⟨-91, 0⟩) (b := ⟨-101, -91, 0, false⟩) rfl rfl)
  have h5 := h4.step (.return (i := ()) (a := ⟨-91, -100, 0⟩) (r := .nextval (.ok (-100))) rfl)
  exact ⟨_, h5, _, _, rfl, rfl, rfl, rfl, rfl, by decide⟩

end Tidb.Sequence
