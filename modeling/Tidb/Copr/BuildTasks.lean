import Tidb.Copr.RegionCache
import Tidb.Lib.ByteOrder

/-!
# The tasks of a coprocessor request

`buildCopTasks` of `store/copr/coprocessor.go`: the ranges are split by regions and buckets, cut again at
`rangesPerTask` ranges, and a task may travel with an earlier one for the same store.  A task in the batch of another
has no batch of its own, hence the two types.  Row count hints, channels and callbacks are left out.
-/

universe u

namespace Copr

open GoLang Tidb KeyRange List Outcome KeyRanges

inductive StoreType where
  | tiKV
  | tiFlash
  | tiDB
  deriving DecidableEq, Repr

/-- The fields of `kv.Request` that say how the tasks are built. -/
structure Request where
  storeType : StoreType
  desc : Bool
  pagingEnable : Bool
  minPagingSize : UInt64
  maxPagingSize : UInt64
  limitSize : UInt64
  storeBatchSize : ℤ
  tiDBServerID : UInt64
  deriving DecidableEq, Repr

structure PlainTask (K : Type u) where
  taskID : ℕ
  region : RegionVerID
  bucketsVer : ℕ
  ranges : KeyRanges K
  storeType : StoreType
  storeAddr : String
  paging : Bool
  pagingSize : UInt64
  deriving DecidableEq, Repr

structure BatchedCopTask (K : Type u) where
  task : PlainTask K
  storeID : ℕ
  deriving DecidableEq, Repr

/-- `batchTaskList` is a map by the ids of its tasks. -/
structure CopTask (K : Type u) extends PlainTask K where
  batchTaskList : List (BatchedCopTask K)
  deriving DecidableEq, Repr

def setBatched {K : Type u} (tasks : List (BatchedCopTask K)) (batched : BatchedCopTask K) : List (BatchedCopTask K) :=
  tasks.filter (fun t => t.task.taskID ≠ batched.task.taskID) ++ [batched]

/-! ## Paging sizes -/

def maxPagingSize : UInt64 := 50000

def growPagingSize (size max : UInt64) : UInt64 :=
  let max := if max < maxPagingSize then maxPagingSize else max
  let size := size <<< 1
  if size > max then max else size

/-! ## Building -/

def rangesPerTask : ℕ := 25000

structure ServerInfo where
  serverID : UInt64
  addr : String
  deriving DecidableEq, Repr

variable {K : Type u}

/-- Every TiDB server, or the one that is asked for, gets all the ranges. -/
def buildTiDBMemCopTasks (servers : Except Err (List ServerInfo)) (ranges : KeyRanges K) (req : Request) :
    Outcome Halt (List (CopTask K)) :=
  match servers with
  | .error e => .error (.err e)
  | .ok servers =>
    .ok ((servers.filter fun ser => !(req.tiDBServerID > 0 && req.tiDBServerID ≠ ser.serverID)).map fun ser =>
      { taskID := 0, region := ⟨0, 0, 0⟩, bucketsVer := 0, ranges := ranges, storeType := req.storeType,
        storeAddr := ser.addr, paging := false, pagingSize := 0, batchTaskList := [] })

def buildBatchTask (cache : RegionCache K) (task : PlainTask K) : Outcome Halt (BatchedCopTask K) :=
  match cache.getTiKVRPCContext task.region with
  | .error e => .error (.err e)
  | .ok none =>
    .error (.err (.errorf "region %s missing" [.nums [task.region.id, task.region.ver, task.region.confVer]]))
  | .ok (some storeID) => .ok ⟨task, storeID⟩

structure Building (K : Type u) where
  tasks : List (CopTask K)
  store2Idx : ℕ → Option ℕ
  taskID : ℕ

namespace Building

def append (st : Building K) (task : PlainTask K) : Building K :=
  { st with tasks := st.tasks ++ [{ task with batchTaskList := [] }], taskID := st.taskID + 1 }

def appendHost (st : Building K) (batched : BatchedCopTask K) : Building K :=
  { st.append batched.task with store2Idx := Function.update st.store2Idx batched.storeID (some st.tasks.length) }

end Building

def CopTask.addBatched (host : CopTask K) (batched : BatchedCopTask K) : CopTask K :=
  -- disable paging for batched task.
  { host with
    paging := if host.batchTaskList = [] then false else host.paging
    pagingSize := if host.batchTaskList = [] then 0 else host.pagingSize
    batchTaskList := setBatched host.batchTaskList batched }

def addTask (cache : RegionCache K) (req : Request) (st : Building K) (task : PlainTask K) :
    Outcome Halt (Building K) :=
  if 0 < req.storeBatchSize then do
    let batched ← buildBatchTask cache task
    match st.store2Idx batched.storeID with
    | none => .ok (st.appendHost batched)
    | some idx =>
      match st.tasks[idx]? with
      | none => .fault
      | some host =>
        if req.storeBatchSize ≤ host.batchTaskList.length then .ok (st.appendHost batched)
        else .ok { st with tasks := st.tasks.set idx (host.addBatched batched), taskID := st.taskID + 1 }
  else .ok (st.append task)

/-- The task for the ranges from the `i`-th to the one before the `nextI`-th. Its paging is disabled for a small limit
only after `addTask`, which does not look at it. -/
def newTask (req : Request) (loc : LocationKeyRanges K) (i nextI taskID : ℕ) (pagingSize : UInt64) : PlainTask K :=
  let small := req.pagingEnable && req.limitSize ≠ 0 && req.limitSize < pagingSize
  { taskID := taskID
    region := loc.location.region
    bucketsVer := loc.location.getBucketVersion
    ranges := loc.ranges.slice i nextI
    storeType := req.storeType
    storeAddr := ""
    paging := req.pagingEnable && !small
    pagingSize := if small then 0 else pagingSize }

/-- The tasks of one location from the `i`-th range on; each round moves `i`, so `m` rounds suffice where there
are not more ranges. -/
def addChunks (cache : RegionCache K) (req : Request) (loc : LocationKeyRanges K) :
    ℕ → ℕ → UInt64 → Building K → Outcome Halt (Building K)
  | 0, _, _, st => .ok st
  | m + 1, i, pagingSize, st =>
    if i < loc.ranges.len then do
      let nextI := min (i + rangesPerTask) loc.ranges.len
      let st ← addTask cache req st (newTask req loc i nextI st.taskID pagingSize)
      let pagingSize :=
        if req.pagingEnable && !(req.limitSize ≠ 0 && req.limitSize < pagingSize) then
          growPagingSize pagingSize req.maxPagingSize
        else pagingSize
      addChunks cache req loc m nextI pagingSize st
    else .ok st

def addLocations (cache : RegionCache K) (req : Request) :
    List (LocationKeyRanges K) → Building K → Outcome Halt (Building K)
  | [], st => .ok st
  | loc :: locs, st => do
    let pagingSize := if req.pagingEnable then req.minPagingSize else 0
    let st ← addChunks cache req loc loc.ranges.len 0 pagingSize st
    addLocations cache req locs st

def buildCopTasks [LinearOrder K] [OrderBot K] (cache : RegionCache K)
    (servers : Except Err (List ServerInfo)) (n : ℕ) (ranges : KeyRanges K) (req : Request) :
    Outcome Halt (List (CopTask K)) :=
  if req.storeType = .tiDB then buildTiDBMemCopTasks servers ranges req
  else do
    let locs ← cache.splitKeyRangesByBuckets n ranges
    let st ← addLocations cache req locs ⟨[], fun _ => none, 0⟩
    .ok (if req.desc then st.tasks.reverse else st.tasks)

/-! ## The pieces of work in the tasks -/

/-- What is sent to a region, by itself or in the batch of another task. -/
structure Piece (K : Type u) where
  taskID : ℕ
  region : RegionVerID
  ranges : List (KeyRange K)
  deriving DecidableEq, Repr

def PlainTask.piece (t : PlainTask K) : Piece K := ⟨t.taskID, t.region, t.ranges.toList⟩

def CopTask.pieces (t : CopTask K) : List (Piece K) :=
  t.toPlainTask.piece :: t.batchTaskList.map fun b => b.task.piece

def piecesOf (tasks : List (CopTask K)) : List (Piece K) := tasks.flatMap CopTask.pieces

structure Building.Inv (st : Building K) (ps : List (Piece K)) : Prop where
  perm : (piecesOf st.tasks).Perm ps
  count : st.taskID = ps.length
  ids : ps.map Piece.taskID = range ps.length
  hosts : (st.tasks.map fun t => t.taskID).Pairwise (· < ·)
  idx : ∀ s i, st.store2Idx s = some i → i < st.tasks.length

section Steps

variable {cache : RegionCache K} {req : Request} {st st' : Building K} {ps : List (Piece K)}
  {task : PlainTask K} {loc : LocationKeyRanges K}

theorem piecesOf_append (ts ts' : List (CopTask K)) : piecesOf (ts ++ ts') = piecesOf ts ++ piecesOf ts' :=
  flatMap_append

theorem Building.Inv.lt_of_mem (h : st.Inv ps) {p : Piece K} (hp : p ∈ piecesOf st.tasks) : p.taskID < st.taskID := by
  have hmem : p.taskID ∈ ps.map Piece.taskID := mem_map_of_mem (h.perm.mem_iff.mp hp)
  rw [h.ids, mem_range] at hmem
  rw [h.count]
  exact hmem

theorem ids_append (hids : ps.map Piece.taskID = range ps.length) {p : Piece K} (hp : p.taskID = ps.length) :
    (ps ++ [p]).map Piece.taskID = range (ps ++ [p]).length := by
  rw [map_append, hids, map_singleton, hp, length_append, length_singleton, range_succ]

theorem Building.Inv.append (h : st.Inv ps) (htask : task.taskID = st.taskID) :
    (st.append task).Inv (ps ++ [task.piece]) where
  perm := by
    rw [Building.append, piecesOf_append]
    exact h.perm.append_right _
  count := by
    rw [length_append, ← h.count]
    rfl
  ids := ids_append h.ids (htask.trans h.count)
  hosts := by
    rw [Building.append, map_append, pairwise_append]
    refine ⟨h.hosts, pairwise_singleton _ _, ?_⟩
    intro a ha b hb
    obtain ⟨t, ht, rfl⟩ := mem_map.mp ha
    rw [mem_singleton.mp hb]
    have hmem : t.toPlainTask.piece ∈ piecesOf st.tasks :=
      mem_flatMap.mpr ⟨t, ht, mem_cons_self⟩
    exact (h.lt_of_mem hmem).trans_eq htask.symm
  idx s i hi := by
    rw [Building.append, length_append]
    exact (h.idx s i hi).trans_le (Nat.le_add_right _ _)

theorem Building.Inv.appendHost (h : st.Inv ps) {batched : BatchedCopTask K} (htask : batched.task.taskID = st.taskID) :
    (st.appendHost batched).Inv (ps ++ [batched.task.piece]) where
  perm := (h.append htask).perm
  count := (h.append htask).count
  ids := (h.append htask).ids
  hosts := (h.append htask).hosts
  idx s i hi := by
    change Function.update st.store2Idx batched.storeID (some st.tasks.length) s = some i at hi
    rw [Function.update_apply] at hi
    split_ifs at hi with hs
    · cases hi
      rw [Building.appendHost, Building.append, length_append]
      exact Nat.lt_succ_self _
    · exact (h.append htask).idx s i hi

theorem setBatched_fresh {tasks : List (BatchedCopTask K)} {batched : BatchedCopTask K}
    (h : ∀ t ∈ tasks, t.task.taskID ≠ batched.task.taskID) : setBatched tasks batched = tasks ++ [batched] := by
  rw [setBatched, filter_eq_self.mpr]
  intro t ht
  exact decide_eq_true (h t ht)

theorem Building.Inv.addBatched (h : st.Inv ps) {idx : ℕ} {host : CopTask K} {batched : BatchedCopTask K}
    (htask : batched.task.taskID = st.taskID) (hhost : st.tasks[idx]? = some host) :
    Building.Inv { st with tasks := st.tasks.set idx (host.addBatched batched), taskID := st.taskID + 1 }
      (ps ++ [batched.task.piece]) := by
  obtain ⟨hidx, hget⟩ := List.getElem?_eq_some_iff.mp hhost
  have hsplit : st.tasks = st.tasks.take idx ++ host :: st.tasks.drop (idx + 1) := by
    rw [← hget, getElem_cons_drop, take_append_drop]
  have hset : st.tasks.set idx (host.addBatched batched)
      = st.tasks.take idx ++ host.addBatched batched :: st.tasks.drop (idx + 1) :=
    set_eq_take_append_cons_drop.trans (if_pos hidx)
  have hfresh : (host.addBatched batched).pieces = host.pieces ++ [batched.task.piece] := by
    have hlist : setBatched host.batchTaskList batched = host.batchTaskList ++ [batched] := by
      apply setBatched_fresh
      intro t ht heq
      have hmem : t.task.piece ∈ piecesOf st.tasks := by
        refine mem_flatMap.mpr ⟨host, mem_of_getElem? hhost, mem_cons_of_mem _ ?_⟩
        exact mem_map_of_mem ht
      have hlt := h.lt_of_mem hmem
      rw [PlainTask.piece, heq, htask] at hlt
      exact lt_irrefl _ hlt
    rw [CopTask.pieces, CopTask.addBatched, hlist, map_append]
    rfl
  -- the new piece moves behind the tasks after its host
  have hperm : (piecesOf (st.tasks.set idx (host.addBatched batched))).Perm
      (piecesOf st.tasks ++ [batched.task.piece]) := by
    rw [hset]
    conv_rhs => rw [hsplit]
    simp only [piecesOf, flatMap_append, flatMap_cons, hfresh, append_assoc]
    exact (perm_append_comm.append_left host.pieces).append_left _
  refine ⟨hperm.trans (h.perm.append_right _), ?_, ids_append h.ids (htask.trans h.count), ?_, ?_⟩
  · rw [length_append, ← h.count]
    rfl
  · have hids : (st.tasks.set idx (host.addBatched batched)).map (fun t => t.taskID)
        = st.tasks.map fun t => t.taskID := by
      rw [hset]
      conv_rhs => rw [hsplit]
      rw [map_append, map_append]
      rfl
    rw [hids]
    exact h.hosts
  · intro s i hi
    rw [length_set]
    exact h.idx s i hi

theorem addTask_inv (h : st.Inv ps) (htask : task.taskID = st.taskID)
    (hok : addTask cache req st task = .ok st') : st'.Inv (ps ++ [task.piece]) := by
  rw [addTask] at hok
  split_ifs at hok
  · obtain ⟨batched, hbatched, hadd⟩ := bind_eq_ok.mp hok
    have heq : batched.task = task := by
      rw [buildBatchTask] at hbatched
      split at hbatched
      · cases hbatched
      · cases hbatched
      · cases hbatched
        rfl
    subst heq
    split at hadd
    · cases hadd
      exact h.appendHost htask
    · split at hadd
      · cases hadd
      · rename_i host hhost
        split_ifs at hadd
        · cases hadd
          exact h.appendHost htask
        · cases hadd
          exact h.addBatched htask hhost
  · cases hok
    exact h.append htask

theorem addTask_total (cache : RegionCache K) (req : Request) (h : st.Inv ps) (task : PlainTask K) : (∃ st', addTask
    cache req st task = .ok st') ∨ ∃ e, 0 < req.storeBatchSize ∧ buildBatchTask cache task = .error (.err e) ∧ addTask
    cache req st task = .error (.err e) := by
  rw [addTask]
  split_ifs with hsize
  · cases hbatched : buildBatchTask cache task with
    | error e =>
      cases e with
      | rounds =>
        rw [buildBatchTask] at hbatched
        split at hbatched <;> cases hbatched
      | err e => exact .inr ⟨e, hsize, rfl, rfl⟩
    | fault =>
      rw [buildBatchTask] at hbatched
      split at hbatched <;> cases hbatched
    | ok batched =>
      left
      rw [ok_bind]
      cases hidx : st.store2Idx batched.storeID with
      | none => exact ⟨_, rfl⟩
      | some idx =>
        dsimp only
        rw [getElem?_eq_getElem (h.idx _ _ hidx)]
        dsimp only
        split_ifs
        · exact ⟨_, rfl⟩
        · exact ⟨_, rfl⟩
  · exact .inl ⟨_, rfl⟩

structure Carries (qs : List (Piece K)) (loc : LocationKeyRanges K) (ranges : List (KeyRange K)) : Prop where
  ranges : qs.flatMap Piece.ranges = ranges
  region : ∀ q ∈ qs, q.region = loc.location.region
  ne_nil : ∀ q ∈ qs, q.ranges ≠ []

theorem drop_take_append_drop {α : Type u} (l : List α) {i j : ℕ} (h : i ≤ j) :
    (l.take j).drop i ++ l.drop j = l.drop i := by
  conv_rhs => rw [← take_append_drop (j - i) (l.drop i)]
  rw [drop_take, drop_drop, Nat.add_sub_cancel' h]

theorem addChunks_inv {m i : ℕ} {pagingSize : UInt64} (h : st.Inv ps) (hm : loc.ranges.len ≤ i + m)
    (hok : addChunks cache req loc m i pagingSize st = .ok st') :
    ∃ qs, st'.Inv (ps ++ qs) ∧ Carries qs loc (loc.ranges.toList.drop i) := by
  have hdone : loc.ranges.len ≤ i → loc.ranges.toList.drop i = [] := fun hle =>
    drop_eq_nil_of_le (by rwa [length_toList])
  induction m generalizing i pagingSize st ps with
  | zero =>
    cases hok
    exact ⟨[], by rwa [append_nil], by rw [hdone hm]; rfl, by simp, by simp⟩
  | succ m ih =>
    by_cases hi : i < loc.ranges.len
    · rw [addChunks, if_pos hi] at hok
      obtain ⟨st₁, hst₁, hrest⟩ := bind_eq_ok.mp hok
      have hnext : i < min (i + rangesPerTask) loc.ranges.len := by
        rw [rangesPerTask]
        omega
      generalize hj : min (i + rangesPerTask) loc.ranges.len = j at hst₁ hrest hnext
      have hjle : j ≤ loc.ranges.len := hj ▸ min_le_right _ _
      have h₁ := addTask_inv h rfl hst₁
      obtain ⟨qs, hqs, hcarries⟩ := ih h₁ (by omega) hrest fun hle =>
        drop_eq_nil_of_le (by rwa [length_toList])
      have hslice : (loc.ranges.slice i j).toList = (loc.ranges.toList.take j).drop i :=
        toList_slice _ hnext.le hjle
      refine ⟨(newTask req loc i j st.taskID pagingSize).piece :: qs, ?_, ?_, ?_, ?_⟩
      · rwa [append_assoc] at hqs
      · rw [flatMap_cons, hcarries.ranges]
        show (loc.ranges.slice i j).toList ++ _ = _
        rw [hslice, drop_take_append_drop _ hnext.le]
      · intro q hq
        rcases mem_cons.mp hq with rfl | hq
        · rfl
        · exact hcarries.region q hq
      · intro q hq
        rcases mem_cons.mp hq with rfl | hq
        · show (loc.ranges.slice i j).toList ≠ []
          apply ne_nil_of_length_pos
          rw [hslice, length_drop, length_take, length_toList]
          omega
        · exact hcarries.ne_nil q hq
    · rw [addChunks, if_neg hi] at hok
      cases hok
      exact ⟨[], by rwa [append_nil], by rw [hdone (by omega)]; rfl, by simp, by simp⟩

def StoreFails (cache : RegionCache K) (req : Request) (locs : List (LocationKeyRanges K)) (e : Err) : Prop :=
  0 < req.storeBatchSize ∧ ∃ loc ∈ locs, ∃ task : PlainTask K, task.region = loc.location.region ∧ buildBatchTask cache
    task = .error (.err e)

theorem addChunks_total (cache : RegionCache K) (req : Request) (loc : LocationKeyRanges K) (m i : ℕ)
    (pagingSize : UInt64) (h : st.Inv ps) : (∃ st', addChunks cache req loc m i pagingSize st = .ok st') ∨
      ∃ e, StoreFails cache req [loc] e ∧ addChunks cache req loc m i pagingSize st = .error (.err e) := by
  induction m generalizing i pagingSize st ps with
  | zero => exact .inl ⟨_, rfl⟩
  | succ m ih =>
    rw [addChunks]
    by_cases hi : i < loc.ranges.len
    · rw [if_pos hi]
      rcases addTask_total cache req h
        (newTask req loc i (min (i + rangesPerTask) loc.ranges.len) st.taskID pagingSize) with
        ⟨st₁, hst₁⟩ | ⟨e, hsize, hfail, heq⟩
      · dsimp only
        rw [hst₁]
        exact ih _ _ (addTask_inv h rfl hst₁)
      · dsimp only
        rw [heq]
        exact .inr ⟨e, ⟨hsize, loc, mem_singleton_self loc, _, rfl, hfail⟩, rfl⟩
    · rw [if_neg hi]
      exact .inl ⟨_, rfl⟩

structure CarriesAll (qs : List (Piece K)) (locs : List (LocationKeyRanges K)) : Prop where
  ranges : qs.flatMap Piece.ranges = rangesOf locs
  ne_nil : ∀ q ∈ qs, q.ranges ≠ []
  mem : ∀ q ∈ qs, ∃ p ∈ locs, q.region = p.location.region ∧ ∀ r ∈ q.ranges, r ∈ p.ranges.toList
  mem_rev : ∀ p ∈ locs, ∀ r ∈ p.ranges.toList, ∃ q ∈ qs, q.region = p.location.region ∧ r ∈ q.ranges

theorem CarriesAll.cons {qs qs' : List (Piece K)} {locs : List (LocationKeyRanges K)}
    (h : Carries qs loc loc.ranges.toList) (h' : CarriesAll qs' locs) : CarriesAll (qs ++ qs') (loc :: locs) where
  ranges := by rw [flatMap_append, h.ranges, h'.ranges, rangesOf_cons]
  ne_nil q hq := by
    rcases mem_append.mp hq with hq | hq
    · exact h.ne_nil q hq
    · exact h'.ne_nil q hq
  mem q hq := by
    rcases mem_append.mp hq with hq | hq
    · refine ⟨loc, mem_cons_self, h.region q hq, fun r hr => ?_⟩
      rw [← h.ranges]
      exact mem_flatMap.mpr ⟨q, hq, hr⟩
    · obtain ⟨p, hp, hrest⟩ := h'.mem q hq
      exact ⟨p, mem_cons_of_mem loc hp, hrest⟩
  mem_rev p hp r hr := by
    rcases mem_cons.mp hp with rfl | hp
    · rw [← h.ranges] at hr
      obtain ⟨q, hq, hr⟩ := mem_flatMap.mp hr
      exact ⟨q, mem_append_left _ hq, h.region q hq, hr⟩
    · obtain ⟨q, hq, hrest⟩ := h'.mem_rev p hp r hr
      exact ⟨q, mem_append_right _ hq, hrest⟩

theorem addLocations_inv {locs : List (LocationKeyRanges K)} (h : st.Inv ps)
    (hok : addLocations cache req locs st = .ok st') : ∃ qs, st'.Inv (ps ++ qs) ∧ CarriesAll qs locs := by
  induction locs generalizing st ps with
  | nil =>
    cases hok
    exact ⟨[], by rwa [append_nil], rfl, by simp, by simp, by simp⟩
  | cons loc locs ih =>
    obtain ⟨st₁, hst₁, hrest⟩ := bind_eq_ok.mp hok
    obtain ⟨qs, hqs, hcarries⟩ := addChunks_inv h (Nat.le_add_left _ _) hst₁
    obtain ⟨qs', hqs', hall⟩ := ih hqs hrest
    rw [append_assoc] at hqs'
    exact ⟨qs ++ qs', hqs', hall.cons hcarries⟩

theorem addLocations_total (cache : RegionCache K) (req : Request) (locs : List (LocationKeyRanges K)) (h : st.Inv ps) :
    (∃ st', addLocations cache req locs st = .ok st') ∨
      ∃ e, StoreFails cache req locs e ∧ addLocations cache req locs st = .error (.err e) := by
  induction locs generalizing st ps with
  | nil => exact .inl ⟨_, rfl⟩
  | cons loc locs ih =>
    rw [addLocations]
    rcases addChunks_total cache req loc loc.ranges.len 0
      (if req.pagingEnable then req.minPagingSize else 0) h with
      ⟨st₁, hst₁⟩ | ⟨e, ⟨hsize, p, hp, hfail⟩, heq⟩
    · rw [hst₁]
      obtain ⟨qs, hqs, -⟩ := addChunks_inv h (Nat.le_add_left _ _) hst₁
      rcases ih hqs with hok | ⟨e, ⟨hsize, p, hp, hfail⟩, heq⟩
      · exact .inl hok
      · exact .inr ⟨e, ⟨hsize, p, mem_cons_of_mem loc hp, hfail⟩, heq⟩
    · rw [heq]
      rw [mem_singleton.mp hp] at hfail
      exact .inr ⟨e, ⟨hsize, loc, mem_cons_self, hfail⟩, rfl⟩

end Steps

/-! ## All tasks -/

section Build

variable [LinearOrder K] [OrderBot K] {cache : RegionCache K} {servers : Except Err (List ServerInfo)}
  {req : Request} {n : ℕ} {ranges : KeyRanges K} {tasks : List (CopTask K)}

/-- The ranges of the pieces, in the order of the task ids, are the ranges `l` cut: none is empty, each is before the
next, and they have the same keys. The tasks come in that order or in the reverse one. -/
structure Carved (req : Request) (l : List (KeyRange K)) (tasks : List (CopTask K)) : Prop where
  ordered : ∃ ps : List (Piece K), (piecesOf tasks).Perm ps ∧ ps.Pairwise (fun p q => p.taskID < q.taskID) ∧
    Ascending (ps.flatMap Piece.ranges) ∧ ∀ k, Has (ps.flatMap Piece.ranges) k ↔ Has l k
  ne_nil : ∀ p ∈ piecesOf tasks, p.ranges ≠ []
  hosts : ((if req.desc then tasks.reverse else tasks).map fun t => t.taskID).Pairwise (· < ·)

def EachInCell (cache : RegionCache K) (tasks : List (CopTask K)) : Prop :=
  ∀ p ∈ piecesOf tasks, ∃ k loc, cache.locate k = .ok loc ∧ loc.region = p.region ∧ ∀ r ∈ p.ranges, cache.InCell loc r

def Returns (cache : RegionCache K) (req : Request) : Outcome Halt (List (CopTask K)) → Prop
  | .ok _ => True
  | .error .rounds => False
  | .error (.err e) => 0 < req.storeBatchSize ∧ ∃ k loc, cache.locate k = .ok loc ∧
      ∃ task : PlainTask K, task.region = loc.region ∧ buildBatchTask cache task = .error (.err e)
  | .fault => False

omit [LinearOrder K] [OrderBot K] in
theorem inv_init : Building.Inv (⟨[], fun _ => none, 0⟩ : Building K) [] :=
  ⟨List.Perm.refl _, rfl, rfl, List.Pairwise.nil, by simp⟩

theorem buildCopTasks_eq_ok (hreq : req.storeType ≠ .tiDB)
    (hok : buildCopTasks cache servers n ranges req = .ok tasks) :
    ∃ locs ps, cache.splitKeyRangesByBuckets n ranges = .ok locs ∧ CarriesAll ps locs ∧
      (piecesOf tasks).Perm ps ∧ ps.Pairwise (fun p q => p.taskID < q.taskID) ∧
      ((if req.desc then tasks.reverse else tasks).map fun t => t.taskID).Pairwise (· < ·) := by
  rw [buildCopTasks, if_neg hreq] at hok
  obtain ⟨locs, hlocs, hok⟩ := bind_eq_ok.mp hok
  obtain ⟨st, hst, hok⟩ := bind_eq_ok.mp hok
  obtain ⟨ps, hinv, hcarries⟩ := addLocations_inv inv_init hst
  rw [nil_append] at hinv
  have hids : ps.Pairwise fun p q => p.taskID < q.taskID := by
    rw [← pairwise_map, hinv.ids]
    exact pairwise_lt_range
  refine ⟨locs, ps, hlocs, hcarries, ?_, hids, ?_⟩
  · cases hok
    split_ifs
    · exact ((reverse_perm _).flatMap_right _).trans hinv.perm
    · exact hinv.perm
  · cases hok
    split_ifs
    · rw [reverse_reverse]
      exact hinv.hosts
    · exact hinv.hosts

theorem buildCopTasks_carved (h : cache.Sound) (hreq : req.storeType ≠ .tiDB) (hl : Ascending ranges.toList)
    (hok : buildCopTasks cache servers n ranges req = .ok tasks) : Carved req ranges.toList tasks := by
  obtain ⟨locs, ps, hlocs, hcarries, hperm, hids, hhosts⟩ := buildCopTasks_eq_ok hreq hok
  have hsplit := splitKeyRangesByBuckets_splits hl hlocs h
  refine ⟨⟨ps, hperm, hids, ?_, ?_⟩, ?_, hhosts⟩
  · rw [hcarries.ranges]
    exact hsplit.refines.ascending
  · rw [hcarries.ranges]
    exact hsplit.refines.has
  · intro p hp
    exact hcarries.ne_nil p (hperm.mem_iff.mp hp)

theorem buildCopTasks_inCell_iff (h : cache.Layout) (hreq : req.storeType ≠ .tiDB)
    (hl : Ascending ranges.toList) (hok : buildCopTasks cache servers n ranges req = .ok tasks) :
    EachInCell cache tasks ↔ ¬ cache.Overruns ranges.toList := by
  obtain ⟨locs, ps, hlocs, hcarries, hperm, -, -⟩ := buildCopTasks_eq_ok hreq hok
  constructor
  · intro hin
    apply not_overruns_of_inCell hl hlocs h
    intro q hq r hr
    obtain ⟨p, hp, hregion, hrp⟩ := hcarries.mem_rev q hq r hr
    obtain ⟨k, loc, hloc, hid, hall⟩ := hin p (hperm.mem_iff.mpr hp)
    obtain ⟨k', hk'⟩ := splitKeyRangesByBuckets_located hl hlocs h.toSound hq
    -- the region of the piece is the one it was cut for
    rw [← h.ids k k' loc q.location hloc hk' (hid.trans hregion)]
    exact hall r hrp
  · intro hover p hp
    obtain ⟨q, hq, hregion, hsub⟩ := hcarries.mem p (hperm.mem_iff.mp hp)
    obtain ⟨k, hk⟩ := splitKeyRangesByBuckets_located hl hlocs h.toSound hq
    exact ⟨k, q.location, hk, hregion.symm, fun r hr => inCell_of_not_overruns hl hlocs h hover q hq r (hsub r hr)⟩

theorem buildCopTasks_returns (h : cache.Layout) (hreq : req.storeType ≠ .tiDB) :
    ∃ n₀, ∀ n ≥ n₀, ∀ ranges : KeyRanges K, Ascending ranges.toList → ¬ cache.Overruns ranges.toList →
      Returns cache req (buildCopTasks cache servers n ranges req) := by
  obtain ⟨n₀, hn₀⟩ := splitKeyRangesByBuckets_total h
  refine ⟨n₀, fun n hn ranges hl hover => ?_⟩
  obtain ⟨locs, hlocs⟩ := hn₀ n hn ranges hl hover
  rw [buildCopTasks, if_neg hreq, hlocs, ok_bind]
  rcases addLocations_total cache req locs inv_init with
    ⟨st, hst⟩ | ⟨e, ⟨hsize, loc, hloc, task, hregion, hfail⟩, heq⟩
  · rw [hst]
    trivial
  · rw [heq]
    obtain ⟨k, hk⟩ := splitKeyRangesByBuckets_located hl hlocs h.toSound hloc
    exact ⟨hsize, k, loc.location, hk, task, hregion, hfail⟩

/-- A call returns and its tasks cut the ranges at the bounds of the cells, exactly where no cell is overrun. -/
theorem buildCopTasks_cuts_at_cells_iff (h : cache.Layout) (servers : Except Err (List ServerInfo))
    (req : Request) (hreq : req.storeType ≠ .tiDB) :
    (∃ n₀, ∀ n ≥ n₀, ∀ ranges : KeyRanges K, Ascending ranges.toList → ¬ cache.Overruns ranges.toList →
      Returns cache req (buildCopTasks cache servers n ranges req)) ∧
    ∀ (n : ℕ) (ranges : KeyRanges K) (tasks : List (CopTask K)), Ascending ranges.toList →
      buildCopTasks cache servers n ranges req = .ok tasks →
      (Carved req ranges.toList tasks ∧ EachInCell cache tasks ↔ ¬ cache.Overruns ranges.toList) := by
  refine ⟨buildCopTasks_returns h hreq, ?_⟩
  intro n ranges tasks hl hok
  rw [buildCopTasks_inCell_iff h hreq hl hok]
  exact and_iff_right (buildCopTasks_carved h.toSound hreq hl hok)

end Build

/-! ## Two regions -/

section Example

open ByteOrder

def twoRegions : RegionCache Bytes where
  locateKey k :=
    .ok (if k < [109] then ⟨⟨1, 1, 1⟩, ⟨[], [109]⟩, none⟩ else ⟨⟨2, 1, 1⟩, ⟨[109], []⟩, none⟩)
  locateBucket _ _ := none
  getTiKVRPCContext _ := .ok (some 1)

def scanRequest : Request :=
  { storeType := .tiKV, desc := false, pagingEnable := false, minPagingSize := 0, maxPagingSize := 0,
    limitSize := 0, storeBatchSize := 0, tiDBServerID := 0 }

theorem twoRegions_locate (k : Bytes) : twoRegions.locate k
      = .ok (if k < [109] then ⟨⟨1, 1, 1⟩, ⟨[], [109]⟩, none⟩ else ⟨⟨2, 1, 1⟩, ⟨[109], []⟩, none⟩) := rfl

theorem twoRegions_layout : twoRegions.Layout where
  regions k c hc := by
    cases hc
    split_ifs with hk
    · exact ⟨bot_le, .inl hk⟩
    · exact ⟨not_lt.mp hk, .inr rfl⟩
  buckets loc k b hb := by cases hb
  cells := {
    contains := fun k _ => by
      refine ⟨_, rfl, ?_⟩
      split_ifs with hk
      · exact ⟨bot_le, .inl hk⟩
      · exact ⟨not_lt.mp hk, .inr rfl⟩
    same := fun k k' c _ _ hc hk' => by
      rw [twoRegions_locate] at hc ⊢
      cases hc
      by_cases hk : k < [109]
      · rw [if_pos hk] at hk' ⊢
        rw [if_pos (hk'.2.resolve_right (by decide))]
      · rw [if_neg hk] at hk' ⊢
        rw [if_neg (not_lt.mpr hk'.1)]
    finite := by
      refine ⟨{⟨⟨1, 1, 1⟩, ⟨[], [109]⟩, none⟩, ⟨⟨2, 1, 1⟩, ⟨[109], []⟩, none⟩}, ?_⟩
      intro k c _ hc
      cases hc
      split_ifs <;> simp }
  bucketCells k loc hloc hb := by
    cases hloc
    split_ifs at hb <;> cases hb
  bucketInside k loc k' b hloc hb := by
    cases hloc
    split_ifs at hb <;> cases hb
  ids k k' loc loc' hloc hloc' hid := by
    cases hloc
    cases hloc'
    split_ifs at hid ⊢ <;> first | rfl | cases hid

/-- A scan of everything is sent to the first region as a whole. -/
theorem unbounded_range_sent_to_first_region :
    twoRegions.Layout ∧ Ascending [(⟨[], []⟩ : KeyRange Bytes)] ∧ ∃ task : CopTask Bytes,
      buildCopTasks twoRegions (.ok []) 1 (newKeyRanges [⟨[], []⟩]) scanRequest = .ok [task] ∧
      task.region = ⟨1, 1, 1⟩ ∧ task.ranges.toList = [⟨[], []⟩] ∧ ¬ EachInCell twoRegions [task] := by
  refine ⟨twoRegions_layout, ?_, ⟨⟨0, ⟨1, 1, 1⟩, 0, newKeyRanges [⟨[], []⟩], .tiKV, "", false, 0⟩, []⟩,
    ?_, rfl, rfl, ?_⟩
  · exact ascending_cons.mpr ⟨.inr rfl, Ascending.nil, by simp⟩
  · rfl
  · intro hin
    obtain ⟨k, loc, hloc, hid, hr⟩ := hin _ mem_cons_self
    cases hloc
    have hinside := (hr ⟨[], []⟩ mem_cons_self).1
    split_ifs at hid hinside
    · exact hinside.2.elim (by decide) fun hne => hne.1 rfl
    · cases hid

theorem buildCopTasks_cuts_at_m :
    ∃ tasks, buildCopTasks twoRegions (.ok []) 2 (newKeyRanges [⟨[97], [122]⟩]) scanRequest = .ok tasks ∧
      Carved scanRequest [⟨[97], [122]⟩] tasks ∧ EachInCell twoRegions tasks := by
  have hl : Ascending (newKeyRanges [(⟨[97], [122]⟩ : KeyRange Bytes)]).toList :=
    ascending_cons.mpr ⟨.inl (by decide), Ascending.nil, fun b hb => by cases hb⟩
  have hover : ¬ twoRegions.Overruns (newKeyRanges [(⟨[97], [122]⟩ : KeyRange Bytes)]).toList := by
    rintro ⟨r₀, -, loc, -, hov | ⟨-, b, -, hov, -⟩⟩ <;>
    · obtain ⟨r, hr, hend⟩ := hov.unbounded
      rw [mem_singleton.mp hr] at hend
      cases hend
  refine ⟨_, rfl, ?_⟩
  exact ((buildCopTasks_cuts_at_cells_iff twoRegions_layout (.ok []) scanRequest (by decide)).2 2 _ _ hl rfl).mpr
    hover

end Example

end Copr
