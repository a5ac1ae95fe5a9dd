import Tidb.Copr.BuildTasks

/-!
# The worker of a coprocessor request

`handleCopPagingResult`, `handleCopResponse` and the functions below them in `store/copr/coprocessor.go`.  A handler
returns the tasks that remain and the results that it has sent; an error ends the request.

`Env` is what the handlers ask for: the region cache of the moment, the back-off, and the resolution of locks.  The
statistics, the cache of responses and the data are left out; of a cached response its page is kept.
-/

universe u

namespace Copr

open GoLang Tidb KeyRange

/-- `coprocessor.StoreBatchTaskResponse`.  `otherError` is empty where there is none. -/
structure BatchResponse where
  taskID : ℕ
  regionError : Option String
  locked : Bool
  otherError : String
  deriving DecidableEq, Repr

structure Response (K : Type u) where
  regionError : Option String
  locked : Bool
  otherError : String
  range : Option (KeyRange K)
  isCacheHit : Bool
  batchResponses : List BatchResponse
  deriving DecidableEq, Repr

structure CacheValue (K : Type u) where
  pageStart : Option K
  pageEnd : Option K
  deriving DecidableEq, Repr

/-- A result in the channel: the ranges that were asked for, and the page of them that was read if it was not
everything. -/
structure Sent (K : Type u) where
  ranges : KeyRanges K
  page : Option (KeyRange K)
  deriving DecidableEq, Repr

structure Env (K : Type u) where
  cache : PlainTask K → RegionCache K
  servers : Except Err (List ServerInfo)
  rounds : ℕ
  rpcCtx : Bool
  backoff : PlainTask K → Except Err Unit
  resolveLocks : PlainTask K → Except Err Unit

structure Handled (K : Type u) where
  remains : List (CopTask K)
  sent : List (Sent K)

variable {K : Type u} [LinearOrder K] [OrderBot K]

def otherErr {α : Type u} (otherError : String) : Outcome Halt α :=
  if (("other error: " ++ otherError).splitOn "write conflict").length > 1 then
    .error (.err (.errWriteConflict "%s" [.text otherError]))
  else .error (.err (.errorf "other error: %s" [.text otherError]))

omit [LinearOrder K] [OrderBot K] in
def handleLockErr (env : Env K) (lockErr : Bool) (task : PlainTask K) : Outcome Halt Unit :=
  if lockErr then
    match env.resolveLocks task with
    | .ok () => .ok ()
    | .error e => .error (.err e)
  else .ok ()

def handleRegionErr (env : Env K) (req : Request) (task : PlainTask K) : Outcome Halt (List (CopTask K)) :=
  match env.backoff task with
  | .error e => .error (.err e)
  | .ok () => buildCopTasks (env.cache task) env.servers env.rounds task.ranges req

def handleBatchResponse (env : Env K) (req : Request) (resp : BatchResponse) (task : PlainTask K) :
    Outcome Halt (Handled K) :=
  if resp.regionError.isSome then do
    let remains ← handleRegionErr env req task
    .ok ⟨remains, []⟩
  else if resp.locked then
    -- the lock of the batch response does not reach handleLockErr
    match handleLockErr env false task with
    | .ok () => .ok ⟨[{ task with batchTaskList := [] }], []⟩
    | .error e => .error e
    | .fault => .fault
  else if resp.otherError ≠ "" then otherErr resp.otherError
  else .ok ⟨[], [⟨task.ranges, none⟩]⟩

def handleBatchResponses (env : Env K) (req : Request) (tasks : List (BatchedCopTask K)) :
    List BatchResponse → Outcome Halt (Handled K)
  | [] => .ok ⟨[], []⟩
  | resp :: resps =>
    match tasks.find? fun t => t.task.taskID = resp.taskID with
    | none => .error (.err (.errorf "task id %d not found" [.num resp.taskID]))
    | some batched => do
      let first ← handleBatchResponse env req resp batched.task
      let rest ← handleBatchResponses env req tasks resps
      .ok ⟨first.remains ++ rest.remains, first.sent ++ rest.sent⟩

def handleBatchCopResponse (env : Env K) (req : Request) (resps : List BatchResponse)
    (tasks : List (BatchedCopTask K)) : Outcome Halt (Handled K) :=
  if tasks = [] then .ok ⟨[], []⟩ else handleBatchResponses env req tasks resps

def handleBatchRemainsOnErr (env : Env K) (req : Request) (remains : List (CopTask K))
    (resps : List BatchResponse) (task : CopTask K) : Outcome Halt (Handled K) :=
  if task.batchTaskList = [] then .ok ⟨remains, []⟩
  else do
    let batched ← handleBatchCopResponse env req resps task.batchTaskList
    .ok ⟨remains ++ batched.remains, batched.sent⟩

/-- The page of the response, or the cached one it points to; an error where that is not there. -/
def pageOf (req : Request) (cacheValue : Option (CacheValue K)) (resp : Response K) :
    Outcome Halt (Option (KeyRange K)) :=
  if resp.isCacheHit then
    match cacheValue with
    | none => .error (.err (.new "Internal error: received illegal TiKV response"))
    | some cv =>
      if req.pagingEnable then
        if cv.pageStart.isSome ∨ cv.pageEnd.isSome then .ok (some ⟨cv.pageStart.getD ⊥, cv.pageEnd.getD ⊥⟩)
        else .ok none
      else .ok resp.range
  else .ok resp.range

/-- Checks the response for region split and lock, returns more tasks when that happens, or handles the response if no
error; with the page of the response. -/
def handleCopResponse (env : Env K) (req : Request) (cacheValue : Option (CacheValue K)) (resp : Response K)
    (task : CopTask K) : Outcome Halt (Handled K × Option (KeyRange K)) :=
  match resp.regionError with
  | some regionErr =>
    if env.rpcCtx ∧ task.storeType = .tiDB then .error (.err (.errorf "error: %v" [.text regionErr]))
    else do
      let remains ← handleRegionErr env req task.toPlainTask
      let handled ← handleBatchRemainsOnErr env req remains resp.batchResponses task
      .ok (handled, resp.range)
  | none =>
    if resp.locked then
      match handleLockErr env true task.toPlainTask with
      | .error e => .error e
      | .fault => .fault
      | .ok () => do
        let handled ← handleBatchRemainsOnErr env req [{ task with batchTaskList := [] }] resp.batchResponses task
        .ok (handled, resp.range)
    else if resp.otherError ≠ "" then otherErr resp.otherError
    else do
      let page ← pageOf req cacheValue resp
      let batched ← handleBatchCopResponse env req resp.batchResponses task.batchTaskList
      .ok (⟨batched.remains, ⟨task.ranges, page⟩ :: batched.sent⟩, page)

/-- In normal scan order all data before the end of the page is consumed, in reverse scan order all data after its
start. -/
def calculateRemain (ranges : KeyRanges K) (split : KeyRange K) (desc : Bool) : KeyRanges K :=
  if desc then (ranges.split split.startKey).1 else (ranges.split split.endKey).2

def handleCopPagingResult (env : Env K) (req : Request) (cacheValue : Option (CacheValue K))
    (resp : Response K) (task : CopTask K) : Outcome Halt (Handled K) := do
  let (handled, page) ← handleCopResponse env req cacheValue resp task
  if handled.remains ≠ [] then
    -- If there is region error or lock error, keep the paging size and retry.
    .ok { handled with remains := handled.remains.map fun t => { t with pagingSize := task.pagingSize } }
  else
    match page with
    -- If the storage engine doesn't support paging protocol, it should have return all the region data.
    | none => .ok { handled with remains := [] }
    | some page =>
      -- calculate next ranges and grow the paging size
      let ranges := calculateRemain task.ranges page req.desc
      if ranges.len = 0 then .ok { handled with remains := [] }
      else
        .ok { handled with
          remains := [{ task with
            ranges := ranges, pagingSize := growPagingSize task.pagingSize req.maxPagingSize }] }

def handleTaskOnce (env : Env K) (req : Request) (cacheValue : Option (CacheValue K)) (resp : Response K)
    (task : CopTask K) : Outcome Halt (Handled K) :=
  if req.pagingEnable then handleCopPagingResult env req cacheValue resp task
  else do
    let (handled, _) ← handleCopResponse env req cacheValue resp task
    .ok handled

/-! ## Runs -/

structure Work (K : Type u) where
  pending : List (CopTask K)
  sent : List (Sent K)

/-- A request worked off: the tasks are built, and any pending task may be sent next.  `Answer` says which
responses a task may get. -/
inductive Run (req : Request) (ranges : KeyRanges K)
    (Answer : CopTask K → Option (CacheValue K) → Response K → Prop) : Work K → Prop
  | build {cache : RegionCache K} {servers : Except Err (List ServerInfo)} {n : ℕ} {tasks : List (CopTask K)}
      (hcache : cache.Sound) (hok : buildCopTasks cache servers n ranges req = .ok tasks) :
      Run req ranges Answer ⟨tasks, []⟩
  | handle {env : Env K} {front back : List (CopTask K)} {task : CopTask K} {sent : List (Sent K)}
      {cacheValue : Option (CacheValue K)} {resp : Response K} {handled : Handled K}
      (hrun : Run req ranges Answer ⟨front ++ task :: back, sent⟩) (hcache : ∀ t, (env.cache t).Sound)
      (hanswer : Answer task cacheValue resp)
      (hok : handleTaskOnce env req cacheValue resp task = .ok handled) :
      Run req ranges Answer ⟨front ++ handled.remains ++ back, sent ++ handled.sent⟩

/-! ## Responses -/

/-- The page is a prefix of the ranges, a suffix where the scan is descending. -/
def PageFits (req : Request) (ranges : KeyRanges K) (page : KeyRange K) : Prop :=
  ∀ k, Has ranges.toList k →
    (if req.desc then page.startKey ≤ k else k < page.endKey ∨ page.endKey = ⊥) → page.Contains k

/-- A response to the task: its batch responses are for some of the batched tasks, each once, and its page, if
it has one, fits the ranges. -/
structure Answers (req : Request) (task : CopTask K) (cacheValue : Option (CacheValue K)) (resp : Response K) :
    Prop where
  nodup : (resp.batchResponses.map fun r => r.taskID).Nodup
  known : ∀ r ∈ resp.batchResponses, ∃ b ∈ task.batchTaskList, b.task.taskID = r.taskID
  page : ∀ page, resp.regionError = none → resp.locked = false → pageOf req cacheValue resp = .ok (some page) →
    PageFits req task.ranges page

def Drains (ranges : KeyRanges K) (page : KeyRange K) : Prop := ∀ k, Has ranges.toList k → page.Contains k

/-- The response answers every batched task. A page of a paging request has an end unless the scan is descending; it
reads everything if the task has a batch, as does a page of another request. -/
structure Answers.Complete (req : Request) (task : CopTask K) (cacheValue : Option (CacheValue K))
    (resp : Response K) : Prop where
  answered : ∀ b ∈ task.batchTaskList, ∃ r ∈ resp.batchResponses, r.taskID = b.task.taskID
  page : ∀ page, resp.regionError = none → resp.locked = false → pageOf req cacheValue resp = .ok (some page) →
    if req.pagingEnable then (req.desc = true ∨ page.endKey ≠ ⊥) ∧ (task.batchTaskList = [] ∨ Drains task.ranges page)
    else Drains task.ranges page

def Sent.Reads (s : Sent K) (k : K) : Prop := Has s.ranges.toList k ∧ ∀ page ∈ s.page, page.Contains k

instance (l : List (KeyRange K)) (k : K) : Decidable (Has l k) :=
  inferInstanceAs (Decidable (∃ r ∈ l, r.Contains k))

instance (s : Sent K) (k : K) : Decidable (s.Reads k) := inferInstanceAs (Decidable (_ ∧ _))

def readCount (sent : List (Sent K)) (k : K) : ℕ := sent.countP fun s => s.Reads k

def pendingCount (tasks : List (CopTask K)) (k : K) : ℕ := (piecesOf tasks).countP fun p => Has p.ranges k

end Copr
