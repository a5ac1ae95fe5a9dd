import Tidb.Copr.KeyRanges
import Tidb.Errors

/-!
# Splitting key ranges by regions and buckets

`RegionCache` and `LocationKeyRanges` of `store/copr/region_cache.go`.  `LocateKey`, `LocateBucket` and
`GetTiKVRPCContext` of the client library are the fields of `RegionCache`, and `Layout` says what is assumed of them.
The two loops of the source are `splitLoop`, which is `KeyRange.cutLoop` on the list of the ranges.
-/

universe u

namespace Copr

open GoLang Tidb KeyRange List Outcome KeyRanges

structure RegionVerID where
  id : ℕ
  confVer : ℕ
  ver : ℕ
  deriving DecidableEq, Repr

structure Buckets (K : Type u) where
  version : ℕ
  keys : List K
  deriving DecidableEq, Repr

structure KeyLocation (K : Type u) where
  region : RegionVerID
  range : KeyRange K
  buckets : Option (Buckets K)
  deriving DecidableEq, Repr

def KeyLocation.getBucketVersion {K : Type u} (l : KeyLocation K) : ℕ :=
  match l.buckets with
  | none => 0
  | some b => b.version

def KeyLocation.hasBuckets {K : Type u} (l : KeyLocation K) : Bool :=
  match l.buckets with
  | none => false
  | some b => !b.keys.isEmpty

/-- What the splitting uses of the client library. `LocateBucket` returns nil for a key that is not in the region,
`GetTiKVRPCContext` for a region that is not in the cache. -/
structure RegionCache (K : Type u) where
  locateKey : K → Except Err (KeyLocation K)
  locateBucket : KeyLocation K → K → Option (KeyRange K)
  getTiKVRPCContext : RegionVerID → Except Err (Option ℕ)

inductive Halt where
  | rounds
  | err (e : Err)
  deriving DecidableEq, Repr

def liftErr {α : Type u} : Except Err α → Outcome Halt α
  | .ok a => .ok a
  | .error e => .error (.err e)

structure LocationKeyRanges (K : Type u) where
  location : KeyLocation K
  ranges : KeyRanges K
  deriving DecidableEq, Repr

def unspecifiedLimit : ℤ := -1

variable {K : Type u} [LinearOrder K] [OrderBot K]

/-! ## The loop -/

def firstIncomplete (c : KeyRange K) (ranges : KeyRanges K) : ℕ → ℕ → ℕ
  | 0, i => i
  | m + 1, i =>
    match ranges.at? i with
    | some r => if complete c r then firstIncomplete c ranges m (i + 1) else i
    | none => i

section Loop

variable {L : Type u} (bound : L → KeyRange K) (locate : K → Outcome Halt L) (limit : ℤ)

def splitLoop : ℕ → ℕ → KeyRanges K → Outcome Halt (List (L × KeyRanges K))
  | n, count, ranges =>
    match if 0 < ranges.len then ranges.at? 0 else none with
    | none => .ok []
    | some r₀ =>
      if limit ≠ unspecifiedLimit ∧ limit ≤ count then .ok []
      else
        match n with
        | 0 => .error .rounds
        | n + 1 => do
          let loc ← locate r₀.startKey
          let i := firstIncomplete (bound loc) ranges ranges.len 0
          match if i < ranges.len then ranges.at? i else none with
          -- All rest ranges belong to the same cell.
          | none => .ok [(loc, ranges)]
          | some r =>
            if (bound loc).Contains r.startKey then do
              -- Part of r is not in the cell. We need to split it.
              let taskRanges := { ranges.slice 0 i with last := some ⟨r.startKey, (bound loc).endKey⟩ }
              let res ← splitLoop n (count + 1)
                { ranges.slice (i + 1) ranges.len with first := some ⟨(bound loc).endKey, r.endKey⟩ }
              .ok ((loc, taskRanges) :: res)
            else do
              -- ranges[i] is not in the cell.
              let res ← splitLoop n (count + 1) (ranges.slice i ranges.len)
              .ok ((loc, ranges.slice 0 i) :: res)

end Loop

/-! ## The functions of the source -/

namespace RegionCache

variable (cache : RegionCache K)

def locate (k : K) : Outcome Halt (KeyLocation K) := liftErr (cache.locateKey k)

def bucketAt (loc : KeyLocation K) (k : K) : Outcome Halt (KeyRange K) :=
  match cache.locateBucket loc k with
  | some b => .ok b
  | none => .fault

end RegionCache

def LocationKeyRanges.splitKeyRangesByBuckets (cache : RegionCache K) (n : ℕ) (l : LocationKeyRanges K) :
    Outcome Halt (List (LocationKeyRanges K)) :=
  if l.location.hasBuckets then do
    let res ← splitLoop id (cache.bucketAt l.location) unspecifiedLimit n 0 l.ranges
    .ok (res.map fun p => ⟨l.location, p.2⟩)
  else .ok [l]

namespace RegionCache

variable (cache : RegionCache K)

def splitKeyRangesByLocations (n : ℕ) (ranges : KeyRanges K) (limit : ℤ) :
    Outcome Halt (List (LocationKeyRanges K)) := do
  let res ← splitLoop KeyLocation.range cache.locate limit n 0 ranges
  .ok (res.map fun p => ⟨p.1, p.2⟩)

def splitAllByBuckets (n : ℕ) : List (LocationKeyRanges K) → Outcome Halt (List (LocationKeyRanges K))
  | [] => .ok []
  | loc :: locs => do
    let res ← loc.splitKeyRangesByBuckets cache n
    let rest ← splitAllByBuckets n locs
    .ok (res ++ rest)

/-- Splits the ranges by buckets information in the cache. If regions don't have buckets, it's equal to
splitKeyRangesByLocations. -/
def splitKeyRangesByBuckets (n : ℕ) (ranges : KeyRanges K) : Outcome Halt (List (LocationKeyRanges K)) := do
  let locs ← cache.splitKeyRangesByLocations n ranges unspecifiedLimit
  cache.splitAllByBuckets n locs

end RegionCache

/-! ## The loop on lists -/

theorem firstIncomplete_eq (c : KeyRange K) (ranges : KeyRanges K) {m i : ℕ} (h : i + m = ranges.len) :
    firstIncomplete c ranges m i = i + ((ranges.toList.drop i).takeWhile (complete c)).length := by
  induction m generalizing i with
  | zero =>
    rw [drop_eq_nil_of_le (by rw [length_toList]; omega)]
    rfl
  | succ m ih =>
    have hi : i < ranges.toList.length := by rw [length_toList]; omega
    rw [firstIncomplete, at?_eq ranges (by omega), getElem?_eq_getElem hi, drop_eq_getElem_cons hi, takeWhile_cons]
    dsimp only
    cases hc : complete c ranges.toList[i] with
    | true =>
      rw [if_pos rfl, if_pos rfl, ih (by omega), length_cons]
      omega
    | false => rfl

section Loop

variable {L : Type u} (bound : L → KeyRange K) (locate : K → Outcome Halt L)

def toLists (res : List (L × KeyRanges K)) : List (L × List (KeyRange K)) :=
  res.map fun p => (p.1, p.2.toList)

theorem splitLoop_eq (n count : ℕ) (ranges : KeyRanges K) :
    (splitLoop bound locate unspecifiedLimit n count ranges >>= fun res => .ok (toLists res))
      = cutLoop bound locate .rounds n ranges.toList := by
  induction n generalizing count ranges with
  | zero =>
    rw [splitLoop, ite_at?_eq]
    cases ranges.toList <;> rfl
  | succ n ih =>
    rw [splitLoop, ite_at?_eq]
    cases hlist : ranges.toList with
    | nil => rfl
    | cons r₀ l =>
      dsimp only [getElem?_cons_zero]
      rw [cutLoop, if_neg (fun h => h.1 rfl)]
      cases locate r₀.startKey with
      | ok loc =>
        rw [ok_bind, ok_bind, ← hlist]
        have hsplit := takeWhile_append_dropWhile (p := complete (bound loc)) (l := ranges.toList)
        generalize hdone : ranges.toList.takeWhile (complete (bound loc)) = done at hsplit
        have hi : firstIncomplete (bound loc) ranges ranges.len 0 = done.length := by
          rw [firstIncomplete_eq _ _ (Nat.zero_add _), drop_zero, Nat.zero_add, hdone]
        dsimp only
        rw [hi, ite_at?_eq]
        cases hdrop : ranges.toList.dropWhile (complete (bound loc)) with
        | nil =>
          rw [hdrop, append_nil] at hsplit
          rw [← hsplit, getElem?_eq_none le_rfl, hsplit]
          rfl
        | cons r rest =>
          rw [hdrop] at hsplit
          have hlt : done.length < ranges.len := by
            rw [← length_toList, ← hsplit, length_append, length_cons]
            omega
          have htake : ranges.toList.take done.length = done := by
            rw [← hsplit]
            exact take_left
          have hrest : ranges.toList.drop done.length = r :: rest := by
            rw [← hsplit]
            exact drop_left
          rw [← head?_drop, hrest, head?_cons]
          dsimp only
          split_ifs with hc
          · have hcut := toList_setFirst ranges hlt ⟨(bound loc).endKey, r.endKey⟩
            rw [← drop_drop, hrest, drop_one, tail_cons] at hcut
            rw [← hcut, ← ih (count + 1), bind_assoc, bind_assoc]
            congr 1
            funext res
            simp only [ok_bind, toLists, map_cons]
            rw [toList_setLast ranges hlt, htake]
          · have hbehind : (ranges.slice done.length ranges.len).toList = r :: rest := by
              rw [toList_slice ranges hlt.le (Nat.le_refl _), take_of_length_le (length_toList ranges).le, hrest]
            have hfront : (ranges.slice 0 done.length).toList = done := by
              rw [toList_slice ranges (Nat.zero_le _) hlt.le, drop_zero, htake]
            rw [← hbehind, ← ih (count + 1), bind_assoc, bind_assoc]
            congr 1
            funext res
            simp only [ok_bind, toLists, map_cons]
            rw [hfront]
      | _ => rfl

variable {bound locate} {n : ℕ} {ranges : KeyRanges K}

theorem cutLoop_of_splitLoop {count : ℕ} {res : List (L × KeyRanges K)}
    (h : splitLoop bound locate unspecifiedLimit n count ranges = .ok res) :
    cutLoop bound locate .rounds n ranges.toList = .ok (toLists res) := by
  rw [← splitLoop_eq, h, ok_bind]

theorem splitLoop_of_cutLoop (count : ℕ) {out : List (L × List (KeyRange K))}
    (h : cutLoop bound locate .rounds n ranges.toList = .ok out) :
    ∃ res, splitLoop bound locate unspecifiedLimit n count ranges = .ok res ∧ toLists res = out := by
  rw [← splitLoop_eq bound locate n count] at h
  obtain ⟨res, hres, hout⟩ := bind_eq_ok.mp h
  cases hout
  exact ⟨res, hres, rfl⟩

end Loop

/-! ## The layout of regions and buckets -/

structure RegionCache.Sound (cache : RegionCache K) : Prop where
  regions : Locates KeyLocation.range cache.locate
  buckets : ∀ loc, Locates id (cache.bucketAt loc)

/-- The regions are finitely many and divide the space of keys, and the buckets of a region divide it.  A
region is known by its id and epoch. -/
structure RegionCache.Layout (cache : RegionCache K) : Prop extends cache.Sound where
  cells : Cells KeyLocation.range cache.locate fun _ => True
  bucketCells : ∀ k loc, cache.locate k = .ok loc → loc.hasBuckets → Cells id (cache.bucketAt loc) loc.range.Contains
  bucketInside : ∀ k loc k' b, cache.locate k = .ok loc → loc.hasBuckets → loc.range.Contains k' →
    cache.bucketAt loc k' = .ok b → b.Inside loc.range
  ids : ∀ k k' loc loc', cache.locate k = .ok loc → cache.locate k' = .ok loc' → loc.region = loc'.region → loc = loc'

def RegionCache.InCell (cache : RegionCache K) (loc : KeyLocation K) (r : KeyRange K) : Prop :=
  r.Inside loc.range ∧ (loc.hasBuckets → ∃ k b, loc.range.Contains k ∧ cache.bucketAt loc k = .ok b ∧ r.Inside b)

/-- The region of the first key is overrun; or its bucket is, while the bucket where the last range starts
has an end. -/
def RegionCache.Overruns (cache : RegionCache K) (l : List (KeyRange K)) : Prop :=
  ∃ r₀ ∈ l.head?, ∃ loc, cache.locate r₀.startKey = .ok loc ∧
    (Overrun loc.range l ∨ loc.hasBuckets ∧ ∃ b, cache.bucketAt loc r₀.startKey = .ok b ∧ Overrun b l ∧
        ∃ r ∈ l, r.endKey = ⊥ ∧ ∃ b', cache.bucketAt loc r.startKey = .ok b' ∧ b'.endKey ≠ ⊥)

def rangesOf (locs : List (LocationKeyRanges K)) : List (KeyRange K) := locs.flatMap (·.ranges.toList)

omit [LinearOrder K] [OrderBot K] in
theorem rangesOf_append (locs locs' : List (LocationKeyRanges K)) :
    rangesOf (locs ++ locs') = rangesOf locs ++ rangesOf locs' := flatMap_append

omit [LinearOrder K] [OrderBot K] in
theorem rangesOf_cons (loc : LocationKeyRanges K) (locs : List (LocationKeyRanges K)) :
    rangesOf (loc :: locs) = loc.ranges.toList ++ rangesOf locs := flatMap_cons

structure Splits (l : List (KeyRange K)) (locs : List (LocationKeyRanges K)) : Prop where
  refines : Refines (rangesOf locs) l
  ne_nil : ∀ p ∈ locs, p.ranges.toList ≠ []

theorem Splits.ascending_of_mem {l : List (KeyRange K)} {locs : List (LocationKeyRanges K)}
    (h : Splits l locs) {p : LocationKeyRanges K} (hp : p ∈ locs) : Ascending p.ranges.toList := by
  obtain ⟨locs₁, locs₂, heq⟩ := append_of_mem hp
  have hall := h.refines.ascending
  rw [heq, rangesOf_append] at hall
  exact (ascending_append.mp (ascending_append.mp hall).2.1).1

section Split

variable {cache : RegionCache K} {n : ℕ} {ranges : KeyRanges K} {locs res : List (LocationKeyRanges K)}

/-! ### By regions -/

theorem splitKeyRangesByLocations_eq_ok : cache.splitKeyRangesByLocations n ranges unspecifiedLimit = .ok locs ↔
      ∃ res, splitLoop KeyLocation.range cache.locate unspecifiedLimit n 0 ranges = .ok res ∧
        locs = res.map fun p => ⟨p.1, p.2⟩ := by
  rw [RegionCache.splitKeyRangesByLocations, bind_eq_ok]
  simp only [ok.injEq, eq_comm]

theorem splits_of_splitLoop {L : Type u} {bound : L → KeyRange K} {find : K → Outcome Halt L} (h : Locates bound find)
    (hl : Ascending ranges.toList) {out : List (L × KeyRanges K)}
    (hout : splitLoop bound find unspecifiedLimit n 0 ranges = .ok out) (location : L → KeyLocation K) :
    Splits ranges.toList (out.map fun p => ⟨location p.1, p.2⟩) := by
  have hcut := cutLoop_pieces h hl (cutLoop_of_splitLoop hout)
  constructor
  · have href := hcut.refines
    rw [toLists, flatMap_map] at href
    rwa [rangesOf, flatMap_map]
  · intro p hp
    obtain ⟨q, hq, rfl⟩ := mem_map.mp hp
    exact hcut.ne_nil _ (mem_map_of_mem hq)

section Regions

variable (hl : Ascending ranges.toList)
  (hok : cache.splitKeyRangesByLocations n ranges unspecifiedLimit = .ok locs)
include hl hok

theorem splitKeyRangesByLocations_splits (h : cache.Sound) : Splits ranges.toList locs := by
  obtain ⟨res, hres, rfl⟩ := splitKeyRangesByLocations_eq_ok.mp hok
  exact splits_of_splitLoop h.regions hl hres id

theorem splitKeyRangesByLocations_located (h : cache.Sound) {p : LocationKeyRanges K} (hp : p ∈ locs) :
    ∃ k, cache.locate k = .ok p.location := by
  obtain ⟨res, hres, rfl⟩ := splitKeyRangesByLocations_eq_ok.mp hok
  obtain ⟨q, hq, rfl⟩ := mem_map.mp hp
  obtain ⟨k, -, hk⟩ := (cutLoop_pieces h.regions hl (cutLoop_of_splitLoop hres)).located _ (mem_map_of_mem hq)
  exact ⟨k, hk⟩

theorem splitKeyRangesByLocations_one (h : cache.Sound) {r₀ : KeyRange K} {loc : KeyLocation K}
    (hr₀ : r₀ ∈ ranges.toList.head?) (hloc : cache.locate r₀.startKey = .ok loc)
    (hone : loc.range.endKey = ⊥ ∨ Overrun loc.range ranges.toList) :
    ∃ p, locs = [p] ∧ p.location = loc ∧ p.ranges.toList = ranges.toList := by
  obtain ⟨res, hres, rfl⟩ := splitKeyRangesByLocations_eq_ok.mp hok
  obtain ⟨l, hlist⟩ := head?_eq_some_iff.mp hr₀
  have hcut := cutLoop_of_splitLoop hres
  rw [hlist] at hl hone hcut ⊢
  have hout := cutLoop_one h.regions hl hloc hone hcut
  obtain ⟨p, rfl, hp⟩ := map_eq_singleton_iff.mp hout
  obtain ⟨hloc, hranges⟩ := Prod.mk.inj hp
  exact ⟨_, rfl, hloc, hranges⟩

theorem splitKeyRangesByLocations_inside (h : cache.Layout) (hover : ¬ cache.Overruns ranges.toList) :
    ∀ p ∈ locs, ∀ r ∈ p.ranges.toList, r.Inside p.location.range := by
  obtain ⟨res, hres, rfl⟩ := splitKeyRangesByLocations_eq_ok.mp hok
  intro p hp
  obtain ⟨q, hq, rfl⟩ := mem_map.mp hp
  rcases cutLoop_inside h.regions h.cells hl (fun _ _ => trivial) (cutLoop_of_splitLoop hres) with
    hin | ⟨r₀, hr₀, loc, hloc, hov, -⟩
  · exact hin _ (mem_map_of_mem hq)
  · exact absurd ⟨r₀, hr₀, loc, hloc, .inl hov⟩ hover

theorem splitKeyRangesByLocations_whole (h : cache.Layout) {p : LocationKeyRanges K} (hp : p ∈ locs)
    (hstart : p.location.range.startKey = ⊥) (hend : p.location.range.endKey = ⊥) :
    p.ranges.toList = ranges.toList ∧ ∀ r₀ ∈ ranges.toList.head?, cache.locate r₀.startKey = .ok p.location := by
  have hsplit := splitKeyRangesByLocations_splits hl hok h.toSound
  obtain ⟨k, hk⟩ := splitKeyRangesByLocations_located hl hok h.toSound hp
  have hsame : ∀ k', cache.locate k' = .ok p.location := fun k' =>
    h.cells.same k k' _ trivial trivial hk ⟨hstart ▸ bot_le, .inr hend⟩
  refine ⟨?_, fun r₀ _ => hsame _⟩
  cases hhead : ranges.toList.head? with
  | none =>
    -- a piece of nothing
    obtain ⟨r, hr⟩ := exists_mem_of_ne_nil _ (hsplit.ne_nil p hp)
    have hmem : r ∈ rangesOf locs := mem_flatMap.mpr ⟨p, hp, hr⟩
    have hhas := (hsplit.refines.has r.startKey).mp ⟨r, hmem, (hsplit.refines.ascending.nonEmpty r hmem).contains_start⟩
    rw [head?_eq_none_iff.mp hhead] at hhas
    exact absurd hhas has_nil
  | some r₀ =>
    obtain ⟨p', rfl, -, hlist⟩ := splitKeyRangesByLocations_one hl hok h.toSound hhead (hsame _) (.inl hend)
    rw [mem_singleton.mp hp, hlist]

end Regions

/-! ### By buckets -/

open LocationKeyRanges

theorem splitLocation_eq_ok {p : LocationKeyRanges K} (hb : p.location.hasBuckets = true) :
    p.splitKeyRangesByBuckets cache n = .ok res ↔
      ∃ out, splitLoop id (cache.bucketAt p.location) unspecifiedLimit n 0 p.ranges = .ok out ∧
        res = out.map fun q => ⟨p.location, q.2⟩ := by
  rw [splitKeyRangesByBuckets, if_pos hb, bind_eq_ok]
  simp only [ok.injEq, eq_comm]

theorem splitLocation_splits (h : cache.Sound) {p : LocationKeyRanges K} (hl : Ascending p.ranges.toList)
    (hne : p.ranges.toList ≠ []) (hok : p.splitKeyRangesByBuckets cache n = .ok res) : Splits p.ranges.toList res := by
  by_cases hb : p.location.hasBuckets = true
  · obtain ⟨out, hout, rfl⟩ := (splitLocation_eq_ok hb).mp hok
    exact splits_of_splitLoop (h.buckets p.location) hl hout fun _ => p.location
  · rw [splitKeyRangesByBuckets, if_neg hb] at hok
    cases hok
    refine ⟨?_, fun q hq => ?_⟩
    · simpa [rangesOf] using Refines.refl hl
    · rwa [mem_singleton.mp hq]

theorem splitLocation_location {p q : LocationKeyRanges K} (hok : p.splitKeyRangesByBuckets cache n = .ok res)
    (hq : q ∈ res) : q.location = p.location := by
  by_cases hb : p.location.hasBuckets = true
  · obtain ⟨out, -, rfl⟩ := (splitLocation_eq_ok hb).mp hok
    obtain ⟨q', -, rfl⟩ := mem_map.mp hq
    rfl
  · rw [splitKeyRangesByBuckets, if_neg hb] at hok
    cases hok
    rw [mem_singleton.mp hq]

theorem splitAllByBuckets_splits (h : cache.Sound) (hl : Ascending (rangesOf locs))
    (hne : ∀ p ∈ locs, p.ranges.toList ≠ []) (hok : cache.splitAllByBuckets n locs = .ok res) :
    Splits (rangesOf locs) res := by
  induction locs generalizing res with
  | nil =>
    cases hok
    exact ⟨Refines.refl Ascending.nil, by simp⟩
  | cons p locs ih =>
    obtain ⟨res₁, hres₁, hok⟩ := bind_eq_ok.mp hok
    obtain ⟨res₂, hres₂, hok⟩ := bind_eq_ok.mp hok
    cases hok
    obtain ⟨hl₁, hl₂, -⟩ := ascending_append.mp hl
    have hsplit₁ := splitLocation_splits h hl₁ (hne p mem_cons_self) hres₁
    have hsplit₂ := ih hl₂ (fun q hq => hne q (mem_cons_of_mem p hq)) hres₂
    refine ⟨?_, fun q hq => (mem_append.mp hq).elim (hsplit₁.ne_nil q) (hsplit₂.ne_nil q)⟩
    rw [rangesOf_append]
    exact hsplit₁.refines.append hsplit₂.refines hl

theorem mem_splitAllByBuckets {q : LocationKeyRanges K} (hok : cache.splitAllByBuckets n locs = .ok res)
    (hq : q ∈ res) : ∃ p ∈ locs, ∃ res', p.splitKeyRangesByBuckets cache n = .ok res' ∧ q ∈ res' := by
  induction locs generalizing res with
  | nil => rw [RegionCache.splitAllByBuckets] at hok; cases hok; cases hq
  | cons p locs ih =>
    obtain ⟨res₁, hres₁, hok⟩ := bind_eq_ok.mp hok
    obtain ⟨res₂, hres₂, hok⟩ := bind_eq_ok.mp hok
    cases hok
    rcases mem_append.mp hq with hq | hq
    · exact ⟨p, mem_cons_self, res₁, hres₁, hq⟩
    · obtain ⟨p', hp', hrest⟩ := ih hres₂ hq
      exact ⟨p', mem_cons_of_mem p hp', hrest⟩

section Buckets

variable (hl : Ascending ranges.toList) (hok : cache.splitKeyRangesByBuckets n ranges = .ok res)
include hl hok

theorem splitKeyRangesByBuckets_splits (h : cache.Sound) : Splits ranges.toList res := by
  obtain ⟨locs, hlocs, hok⟩ := bind_eq_ok.mp hok
  have hsplit := splitKeyRangesByLocations_splits hl hlocs h
  have hsplit' := splitAllByBuckets_splits h hsplit.refines.ascending hsplit.ne_nil hok
  exact ⟨hsplit'.refines.trans hsplit.refines, hsplit'.ne_nil⟩

theorem splitKeyRangesByBuckets_located (h : cache.Sound) {q : LocationKeyRanges K} (hq : q ∈ res) :
    ∃ k, cache.locate k = .ok q.location := by
  obtain ⟨locs, hlocs, hok⟩ := bind_eq_ok.mp hok
  obtain ⟨p, hp, res', hres', hq'⟩ := mem_splitAllByBuckets hok hq
  rw [splitLocation_location hres' hq']
  exact splitKeyRangesByLocations_located hl hlocs h hp

/-! ### Inside the cells -/

theorem not_overruns_of_inCell (h : cache.Layout)
    (hin : ∀ q ∈ res, ∀ r ∈ q.ranges.toList, cache.InCell q.location r) : ¬ cache.Overruns ranges.toList := by
  rintro ⟨r₀, hr₀, loc, hloc, hover⟩
  have hcover := (splitKeyRangesByBuckets_splits hl hok h.toSound).refines
  have hok' := hok
  obtain ⟨locs, hlocs, hall⟩ := bind_eq_ok.mp hok'
  by_cases hregion : Overrun loc.range ranges.toList
  · -- the last range has keys behind the region, and every piece is for the region
    obtain ⟨p, rfl, hp, -⟩ := splitKeyRangesByLocations_one hl hlocs h.toSound hr₀ hloc (.inr hregion)
    obtain ⟨r, hr, hend⟩ := hregion.unbounded
    have hkey : Has ranges.toList (max r.startKey loc.range.endKey) := ⟨r, hr, le_max_left _ _, .inr hend⟩
    obtain ⟨r', hr', hk⟩ := (hcover.has _).mpr hkey
    obtain ⟨q, hq, hr'⟩ := mem_flatMap.mp hr'
    obtain ⟨p', hp', res', hres', hq'⟩ := mem_splitAllByBuckets hall hq
    have hqloc := splitLocation_location hres' hq'
    rw [mem_singleton.mp hp', hp] at hqloc
    have hcontains := (hin q hq r' hr').1.contains hk
    rw [hqloc] at hcontains
    exact absurd (hcontains.2.resolve_right hregion.2.1) (not_lt.mpr (le_max_right _ _))
  · obtain ⟨hb, b, hbucket, hbover, r, hr, hend, b', hb', hbend⟩ := hover.resolve_left hregion
    have hstart := h.regions _ _ hloc
    have hwhole := (hbover.mono (h.bucketInside _ _ _ _ hloc hb hstart hbucket)).resolve_right hregion
    obtain ⟨p, rfl, hp, hplist⟩ := splitKeyRangesByLocations_one hl hlocs h.toSound hr₀ hloc (.inl hwhole)
    have hbot : loc.range.startKey = ⊥ :=
      le_bot_iff.mp (hbover.1 ▸ (h.bucketInside _ _ _ _ hloc hb hstart hbucket).1)
    -- the bucket takes all the ranges, the last one too
    rw [← hp] at hb hbucket
    obtain ⟨res', hres', hall⟩ := bind_eq_ok.mp hall
    obtain ⟨out, hout, rfl⟩ := (splitLocation_eq_ok hb).mp hres'
    cases hall
    obtain ⟨l, hlist⟩ := head?_eq_some_iff.mp hr₀
    have hcut := cutLoop_of_splitLoop hout
    rw [hplist, hlist] at hcut
    rw [hlist] at hl hr hbover
    have hone := cutLoop_one (h.buckets p.location) hl hbucket (.inr hbover) hcut
    obtain ⟨q, rfl, hq⟩ := map_eq_singleton_iff.mp hone
    have hr' : r ∈ q.2.toList := by
      rw [(Prod.mk.inj hq).2]
      exact hr
    obtain ⟨k, b'', hk, hb'', hrin⟩ := (hin ⟨p.location, q.2⟩ (by simp) r hr').2 hb
    have hr₁ : loc.range.Contains r.startKey := ⟨hbot ▸ bot_le, .inr hwhole⟩
    rw [hp] at hb hb'' hk
    have hsame := (h.bucketCells _ _ hloc hb).same k r.startKey b'' hk hr₁ hb''
      (hrin.contains (hl.nonEmpty r hr).contains_start)
    rw [hb'] at hsame
    cases hsame
    exact hrin.2.elim hbend fun hne => hne.1 hend

theorem inCell_of_not_overruns (h : cache.Layout) (hover : ¬ cache.Overruns ranges.toList) :
    ∀ q ∈ res, ∀ r ∈ q.ranges.toList, cache.InCell q.location r := by
  obtain ⟨locs, hlocs, hok⟩ := bind_eq_ok.mp hok
  intro q hq r hr
  obtain ⟨p, hp, res', hres', hq'⟩ := mem_splitAllByBuckets hok hq
  have hregion := splitKeyRangesByLocations_inside hl hlocs h hover p hp
  by_cases hb : p.location.hasBuckets = true
  swap
  · rw [splitKeyRangesByBuckets, if_neg hb] at hres'
    cases hres'
    rw [mem_singleton.mp hq'] at hr ⊢
    exact ⟨hregion r hr, fun hb' => absurd hb' hb⟩
  obtain ⟨k₀, hk₀⟩ := splitKeyRangesByLocations_located hl hlocs h.toSound hp
  have hasc := (splitKeyRangesByLocations_splits hl hlocs h.toSound).ascending_of_mem hp
  have hD : ∀ k, Has p.ranges.toList k → p.location.range.Contains k := by
    rintro k ⟨a, ha, hk⟩
    exact (hregion a ha).contains hk
  have hcells := h.bucketCells k₀ p.location hk₀ hb
  obtain ⟨out, hout, rfl⟩ := (splitLocation_eq_ok hb).mp hres'
  obtain ⟨q', hpiece, rfl⟩ := mem_map.mp hq'
  have hcut := cutLoop_of_splitLoop hout
  rcases cutLoop_inside (h.buckets p.location) hcells hasc hD hcut with
    hin | ⟨r₀, hr₀, b, hbucket, hov, hone⟩
  · have hmem : (q'.1, q'.2.toList) ∈ toLists out := mem_map_of_mem hpiece
    obtain ⟨k, hk, hbucket⟩ := (cutLoop_pieces (h.buckets p.location) hasc hcut).located _ hmem
    have hinb : r.Inside q'.1 := hin _ hmem r hr
    exact ⟨hinb.trans (h.bucketInside k₀ _ k _ hk₀ hb (hD k hk) hbucket), fun _ => ⟨k, _, hD k hk, hbucket, hinb⟩⟩
  · -- the region is the whole space and the bucket has taken every range
    have hr₀mem : r₀ ∈ p.ranges.toList := mem_of_mem_head? hr₀
    have hr₀in := hD _ ⟨r₀, hr₀mem, (hasc.nonEmpty r₀ hr₀mem).contains_start⟩
    have hbin := h.bucketInside k₀ _ _ _ hk₀ hb hr₀in hbucket
    have hstart : p.location.range.startKey = ⊥ := le_bot_iff.mp (hov.1 ▸ hbin.1)
    have hend : p.location.range.endKey = ⊥ := by
      obtain ⟨a, ha, haend⟩ := hov.unbounded
      exact (hregion a ha).2.resolve_right fun hne => hne.1 haend
    obtain ⟨hlist, hfirst⟩ := splitKeyRangesByLocations_whole hl hlocs h hp hstart hend
    have hq'' : (q'.1, q'.2.toList) ∈ toLists out := mem_map_of_mem hpiece
    rw [hone] at hq''
    have hrmem : r ∈ p.ranges.toList := (Prod.mk.inj (mem_singleton.mp hq'')).2 ▸ hr
    refine ⟨⟨hstart ▸ bot_le, .inl hend⟩, fun _ => ?_⟩
    have hrstart : p.location.range.Contains r.startKey := ⟨hstart ▸ bot_le, .inr hend⟩
    by_cases hrend : r.endKey = ⊥
    · -- the bucket where the last range starts has no end
      obtain ⟨b', hb', hcontains⟩ := hcells.contains r.startKey hrstart
      have hbend : b'.endKey = ⊥ := by
        by_contra hne
        rw [hlist] at hr₀ hov hrmem
        exact hover ⟨r₀, hr₀, p.location, hfirst r₀ hr₀, .inr ⟨hb, b, hbucket, hov, r, hrmem, hrend, b', hb', hne⟩⟩
      exact ⟨_, b', hrstart, hb', hcontains.1, .inl hbend⟩
    · obtain ⟨-, -, l', a, hl', haend, hin⟩ := hov
      rw [hl'] at hrmem
      refine ⟨_, b, hr₀in, hbucket, ?_⟩
      rcases mem_append.mp hrmem with hrmem | hrmem
      · exact hin r hrmem
      · rw [mem_singleton.mp hrmem] at hrend
        exact absurd haend hrend

end Buckets

/-! ### The number of rounds -/

theorem splitAllByBuckets_total (hall : ∀ p ∈ locs, ∃ res, p.splitKeyRangesByBuckets cache n = .ok res) :
    ∃ res, cache.splitAllByBuckets n locs = .ok res := by
  induction locs with
  | nil => exact ⟨[], rfl⟩
  | cons p locs ih =>
    obtain ⟨res₁, hres₁⟩ := hall p mem_cons_self
    obtain ⟨res₂, hres₂⟩ := ih fun q hq => hall q (mem_cons_of_mem p hq)
    refine ⟨res₁ ++ res₂, ?_⟩
    rw [RegionCache.splitAllByBuckets, hres₁, ok_bind, hres₂, ok_bind]

/-- Both loops end, within a number of rounds that depends on the layout only. -/
theorem splitKeyRangesByBuckets_total (h : cache.Layout) : ∃ n₀, ∀ n ≥ n₀, ∀ ranges : KeyRanges K, Ascending
    ranges.toList → ¬ cache.Overruns ranges.toList → ∃ res, cache.splitKeyRangesByBuckets n ranges = .ok res := by
  obtain ⟨regions, hregions⟩ := h.cells.finite
  -- the buckets of each region
  have hbuckets : ∀ loc : KeyLocation K, ∃ buckets : Finset (KeyRange K), ∀ k₀ k b, cache.locate k₀ = .ok loc →
      loc.hasBuckets → loc.range.Contains k → cache.bucketAt loc k = .ok b → b ∈ buckets := by
    intro loc
    by_cases hloc : (∃ k₀, cache.locate k₀ = .ok loc) ∧ loc.hasBuckets
    · obtain ⟨⟨k₀, hk₀⟩, hb⟩ := hloc
      obtain ⟨buckets, hbuckets⟩ := (h.bucketCells k₀ loc hk₀ hb).finite
      exact ⟨buckets, fun _ k b _ _ hk hkb => hbuckets k b hk hkb⟩
    · exact ⟨∅, fun k₀ _ _ hk₀ hb => absurd ⟨⟨k₀, hk₀⟩, hb⟩ hloc⟩
  choose buckets hbuckets using hbuckets
  refine ⟨max regions.card (regions.sup fun loc => (buckets loc).card), ?_⟩
  intro n hn ranges hl hover
  obtain ⟨out, hout⟩ := cutLoop_total Halt.rounds h.cells hregions hl (fun _ _ => trivial) ((le_max_left _ _).trans hn)
  obtain ⟨res, hres, -⟩ := splitLoop_of_cutLoop 0 hout
  have hlocs := splitKeyRangesByLocations_eq_ok.mpr ⟨res, hres, rfl⟩
  rw [RegionCache.splitKeyRangesByBuckets, hlocs]
  apply splitAllByBuckets_total
  intro p hp
  by_cases hb : p.location.hasBuckets = true
  swap
  · exact ⟨[p], by rw [splitKeyRangesByBuckets, if_neg hb]⟩
  obtain ⟨k₀, hk₀⟩ := splitKeyRangesByLocations_located hl hlocs h.toSound hp
  have hregion := splitKeyRangesByLocations_inside hl hlocs h hover p hp
  have hasc := (splitKeyRangesByLocations_splits hl hlocs h.toSound).ascending_of_mem hp
  have hcard : (buckets p.location).card ≤ n :=
    (Finset.le_sup (f := fun loc => (buckets loc).card) (hregions k₀ _ trivial hk₀)).trans
      ((le_max_right _ _).trans hn)
  obtain ⟨out', hout'⟩ := cutLoop_total Halt.rounds (h.bucketCells k₀ p.location hk₀ hb)
    (fun k b hk hkb => hbuckets p.location k₀ k b hk₀ hb hk hkb) hasc
    (fun k ⟨a, ha, hk⟩ => (hregion a ha).contains hk) hcard
  obtain ⟨res', hres', -⟩ := splitLoop_of_cutLoop 0 hout'
  exact ⟨_, (splitLocation_eq_ok hb).mpr ⟨res', hres', rfl⟩⟩

end Split

end Copr
