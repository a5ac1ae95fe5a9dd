import Tidb.Meta.AutoidSafety

/-!
# The central service for IDs (`autoid_service/autoid.go`)

The leader keeps `(base, end]` of a table in memory, against the counter for `AUTO_INCREMENT` IDs in the store; an
entry is made with 0 and 0.  This is the service as one table sees it, for requests that follow each other: an
allocation holds the entry's lock, but a query for the current value and `Rebase` do not.  A transaction that only
reads is never lost, and that of a query has set `end` by then.
-/

namespace Tidb.AutoidService

open GoLang Interleaving Autoid

structure AutoIDValue where
  base : ℤ
  end_ : ℤ
  isUnsigned : Bool
  deriving DecidableEq

/-- The counters of the table for row IDs and for `AUTO_INCREMENT`, which are apart since version 5 of the table
information. -/
structure Storage where
  rowID : ℤ
  incrementID : ℤ
  deriving DecidableEq

abbrev Call := Prog Storage String Captured

def errAutoincReadFailed : String := "auto increment action failed"

def batch : ℤ := 4000

def onIncrementID (f : ℤ → Except String (ℤ × Captured)) (s : Storage) : Except String (Storage × Captured) :=
  match f s.incrementID with
  | .ok (c, v) => .ok ({ s with incrementID := c }, v)
  | .error e => .error e

/-- The service has its own `calcNeededBatchSize` and `seekToFirstAutoID*`, which are those of
`meta/autoid` word for word. -/
abbrev calcNeededBatchSize := Autoid.calcNeededBatchSize

/-! ## Rebase -/

def afterRebase (alloc : AutoIDValue) : Except String Captured → Call (AutoIDValue × Except String Unit)
  | .error e => .ret (alloc, .error e)
  | .ok v => .ret ({ alloc with base := v.newBase, end_ := v.newEnd }, .ok ())

def rebaseTxnUnsigned (requiredBase currentEnd : ℤ) : Except String (ℤ × Captured) :=
  let newBase := max (uint64 currentEnd) requiredBase
  let newEnd := uint64 (min (maxUint64 - batch) newBase + batch)
  .ok (inc currentEnd (int64 (newEnd - uint64 currentEnd)), { newBase := int64 newBase, newEnd := int64 newEnd })

def rebase4Unsigned (alloc : AutoIDValue) (requiredBase : ℤ) : Call (AutoIDValue × Except String Unit) :=
  if requiredBase ≤ uint64 alloc.base then .ret (alloc, .ok ())
  else if requiredBase ≤ uint64 alloc.end_ then
    .ret ({ alloc with base := int64 requiredBase }, .ok ())
  else .txn (onIncrementID (rebaseTxnUnsigned requiredBase)) (afterRebase alloc)

def rebaseTxnSigned (requiredBase currentEnd : ℤ) : Except String (ℤ × Captured) :=
  let newBase := max currentEnd requiredBase
  let newEnd := int64 (min (maxInt64 - batch) newBase + batch)
  .ok (inc currentEnd (int64 (newEnd - currentEnd)), { newBase, newEnd })

def rebase4Signed (alloc : AutoIDValue) (requiredBase : ℤ) : Call (AutoIDValue × Except String Unit) :=
  if requiredBase ≤ alloc.base then .ret (alloc, .ok ())
  else if requiredBase ≤ alloc.end_ then .ret ({ alloc with base := requiredBase }, .ok ())
  else .txn (onIncrementID (rebaseTxnSigned requiredBase)) (afterRebase alloc)

def forceRebase (alloc : AutoIDValue) (requiredBase : ℤ) (isUnsigned : Bool) :
    Call (AutoIDValue × Except String Unit) :=
  let step (currentEnd : ℤ) : ℤ :=
    if !isUnsigned then int64 (requiredBase - currentEnd)
    else int64 (uint64 requiredBase - uint64 currentEnd)
  .txn (onIncrementID fun currentEnd =>
      .ok (inc currentEnd (step currentEnd), { newBase := requiredBase, newEnd := requiredBase }))
    (afterRebase alloc)

/-! ## Alloc -/

abbrev AllocResult := Except String (ℤ × ℤ)

def takeUnsigned (alloc : AutoIDValue) (n1 : ℤ) : Call (AutoIDValue × AllocResult) :=
  .ret ({ alloc with base := int64 (uint64 alloc.base + uint64 n1) },
    .ok (alloc.base, int64 (uint64 alloc.base + uint64 n1)))

def batchUnsigned (isUnsigned : Bool) (n : ℕ) (increment offset newBase : ℤ) : Except String (ℤ × Captured) :=
  let n1 := calcNeededBatchSize newBase (int64 n) increment offset isUnsigned
  let nextStep := if batch < n1 then n1 else batch
  let tmpStep := int64 (min (maxUint64 - uint64 newBase) (uint64 nextStep))
  if tmpStep < n1 then .error errAutoincReadFailed
  else .ok (inc newBase tmpStep, { newBase, newEnd := inc newBase tmpStep, n1, nextStep })

/-- The part of `alloc4Unsigned` behind the rebase. Unlike `alloc4Signed`, and its model in `meta/autoid`, it does not
ask whether the IDs reach beyond the largest number. -/
def allocRestUnsigned (alloc : AutoIDValue) (isUnsigned : Bool) (n : ℕ) (increment offset : ℤ) :
    Call (AutoIDValue × AllocResult) :=
  let n1 := calcNeededBatchSize alloc.base (int64 n) increment offset isUnsigned
  if uint64 alloc.end_ < uint64 (uint64 alloc.base + uint64 n1) ∨ alloc.base = 0 then
    .txn (onIncrementID (batchUnsigned isUnsigned n increment offset)) fun
      | .error e => .ret (alloc, .error e)
      | .ok v =>
        if uint64 v.newBase = maxUint64 then .ret (alloc, .error errAutoincReadFailed)
        else takeUnsigned { alloc with base := v.newBase, end_ := v.newEnd } v.n1
  else takeUnsigned alloc n1

def alloc4Unsigned (alloc : AutoIDValue) (isUnsigned : Bool) (n : ℕ) (increment offset : ℤ) :
    Call (AutoIDValue × AllocResult) :=
  if uint64 alloc.base < uint64 (offset - 1) then
    rebase4Unsigned alloc (uint64 (offset - 1)) >>= fun
      | (alloc, .error e) => .ret (alloc, .error e)
      | (alloc, .ok ()) => allocRestUnsigned alloc isUnsigned n increment offset
  else allocRestUnsigned alloc isUnsigned n increment offset

def takeSigned (alloc : AutoIDValue) (n1 : ℤ) : Call (AutoIDValue × AllocResult) :=
  .ret ({ alloc with base := int64 (alloc.base + n1) }, .ok (alloc.base, int64 (alloc.base + n1)))

def batchSigned (isUnsigned : Bool) (n : ℕ) (increment offset newBase : ℤ) : Except String (ℤ × Captured) :=
  let n1 := calcNeededBatchSize newBase (int64 n) increment offset isUnsigned
  let nextStep := if batch < n1 then n1 else batch
  let tmpStep := min (int64 (maxInt64 - newBase)) nextStep
  if tmpStep < n1 then .error errAutoincReadFailed
  else .ok (inc newBase tmpStep, { newBase, newEnd := inc newBase tmpStep, n1, nextStep })

/-- The part of `alloc4Signed` behind the rebase.  A `base` of 0 may be one that was never read. -/
def allocRestSigned (alloc : AutoIDValue) (isUnsigned : Bool) (n : ℕ) (increment offset : ℤ) :
    Call (AutoIDValue × AllocResult) :=
  let n1 := calcNeededBatchSize alloc.base (int64 n) increment offset isUnsigned
  if int64 (maxInt64 - alloc.base) ≤ n1 then .ret (alloc, .error errAutoincReadFailed)
  else if alloc.end_ < int64 (alloc.base + n1) ∨ alloc.base = 0 then
    .txn (onIncrementID (batchSigned isUnsigned n increment offset)) fun
      | .error e => .ret (alloc, .error e)
      | .ok v =>
        if v.newBase = maxInt64 then .ret (alloc, .error errAutoincReadFailed)
        else takeSigned { alloc with base := v.newBase, end_ := v.newEnd } v.n1
  else takeSigned alloc n1

def alloc4Signed (alloc : AutoIDValue) (isUnsigned : Bool) (n : ℕ) (increment offset : ℤ) :
    Call (AutoIDValue × AllocResult) :=
  if alloc.base < int64 (offset - 1) then
    rebase4Signed alloc (int64 (offset - 1)) >>= fun
      | (alloc, .error e) => .ret (alloc, .error e)
      | (alloc, .ok ()) => allocRestSigned alloc isUnsigned n increment offset
  else allocRestSigned alloc isUnsigned n increment offset

/-! ## Requests -/

structure AutoIDRequest where
  isUnsigned : Bool
  /-- A request for no IDs asks for the current value. -/
  n : ℕ
  increment : ℤ
  offset : ℤ
  deriving DecidableEq

structure AutoIDResponse where
  min : ℤ := 0
  max : ℤ := 0
  errmsg : Option String := none
  deriving DecidableEq

structure RebaseRequest where
  base : ℤ
  isUnsigned : Bool
  force : Bool
  deriving DecidableEq

structure RebaseResponse where
  errmsg : Option String := none
  deriving DecidableEq

def errNotLeader : String := "not leader"

def getAlloc (val : Option AutoIDValue) (isUnsigned : Bool) : AutoIDValue :=
  val.getD ⟨0, 0, isUnsigned⟩

/-- The answer to a request for no IDs.  An entry that was not read yet takes the end of its range from
the counter for row IDs. -/
def queryAutoID (val : AutoIDValue) : Call (AutoIDValue × AutoIDResponse) :=
  if val.base ≠ 0 then .ret (val, { min := val.base, max := val.base })
  else .txn (fun s => .ok (s, { newBase := s.rowID, newEnd := s.rowID })) fun
    | .error e => .ret (val, { errmsg := some e })
    | .ok v => .ret ({ val with end_ := v.newEnd }, { min := v.newEnd, max := v.newEnd })

/-- `allocAutoID`; `AllocAutoID` repeats it until there is a response or an error, so once. -/
def allocAutoID (isOwner : Bool) (req : AutoIDRequest) (val : Option AutoIDValue) :
    Call (Option AutoIDValue × Except String AutoIDResponse) :=
  if !isOwner then .ret (val, .error errNotLeader)
  else
    let val := getAlloc val req.isUnsigned
    if req.n = 0 then queryAutoID val >>= fun (val, res) => .ret (some val, .ok res)
    else
      (if req.isUnsigned then alloc4Unsigned val req.isUnsigned req.n req.increment req.offset
        else alloc4Signed val req.isUnsigned req.n req.increment req.offset) >>= fun
      | (val, .error e) => .ret (some val, .ok { errmsg := some e })
      | (val, .ok (min, max)) => .ret (some val, .ok { min, max })

/-- The part of `Rebase` that requests with and without force share. -/
def rebaseTo (req : RebaseRequest) (val : AutoIDValue) : Call (Option AutoIDValue × Except String RebaseResponse) :=
  (if req.isUnsigned then rebase4Unsigned val (uint64 req.base) else rebase4Signed val req.base) >>= fun
    | (val, .error e) => .ret (some val, .ok { errmsg := some e })
    | (val, .ok ()) => .ret (some val, .ok {})

def rebase (isOwner : Bool) (req : RebaseRequest) (val : Option AutoIDValue) :
    Call (Option AutoIDValue × Except String RebaseResponse) :=
  if !isOwner then .ret (val, .error errNotLeader)
  else
    let val := getAlloc val req.isUnsigned
    if req.force then
      forceRebase val req.base req.isUnsigned >>= fun
        | (val, .error e) => .ret (some val, .ok { errmsg := some e })
        | (val, .ok ()) => rebaseTo req val
    else rebaseTo req val

/-- What `Close` does for an entry: the IDs that were not given out go back to the counter.  That this
failed is logged and no more. -/
def close : Option AutoIDValue → Call Unit
  | none => .ret ()
  | some v => if 0 < v.base then forceRebase v v.base v.isUnsigned >>= fun _ => .ret () else .ret ()

/-! ## Runs of the service -/

inductive Record where
  | alloc (req : AutoIDRequest) (res : Except String AutoIDResponse)
  | rebase (req : RebaseRequest) (res : Except String RebaseResponse)
  deriving DecidableEq

structure Service where
  store : Storage
  val : Option AutoIDValue
  log : List Record

inductive Event where
  | alloc (isOwner : Bool) (req : AutoIDRequest)
  | rebase (isOwner : Bool) (req : RebaseRequest)
  /-- The leader goes down and the next one starts from the store. -/
  | lose
  /-- The same, with a `Close` before. -/
  | close
  /-- Others move the counter for row IDs. -/
  | rowID (r : ℤ)

inductive Step (lost : String) : Event → Service → Service → Prop
  | alloc {s isOwner req val res store} : Runs lost (allocAutoID isOwner req s.val) s.store (val, res) store → Step lost
      (.alloc isOwner req) s ⟨store, val, .alloc req res :: s.log⟩
  | rebase {s isOwner req val res store} : Runs lost (AutoidService.rebase isOwner req s.val) s.store (val, res) store →
      Step lost (.rebase isOwner req) s ⟨store, val, .rebase req res :: s.log⟩
  | lose {s} : Step lost .lose s { s with val := none }
  | close {s store} : Runs lost (AutoidService.close s.val) s.store () store → Step lost .close s ⟨store, none, s.log⟩
  | rowID {s r} : Step lost (.rowID r) s { s with store := { s.store with rowID := r } }

inductive Reachable (lost : String) (allowed : Service → Event → Prop) (start : Service → Prop) : Service → Prop
  | start {s} : start s → Reachable lost allowed start s
  | step {s s' e} : Reachable lost allowed start s → allowed s e → Step lost e s s' → Reachable lost allowed start s'

end Tidb.AutoidService
