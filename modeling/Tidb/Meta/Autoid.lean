import Tidb.Lib.Interleaving
import Tidb.Lib.Progression
import Tidb.Lib.Word64

/-!
# Allocators of IDs (`meta/autoid/autoid.go`)

An allocator caches the range `(base, end]` of IDs that it has taken from a counter in the store, which the allocators
of all servers share.  A call holds the allocator's mutex and reaches the store in transactions, between which those
of other allocators may come.

The numbers are `int64`, and an unsigned allocator compares them as `uint64`.  What `NextStep` computes from the time
is an argument of the call, between `minStep` and `maxStep`.
-/

namespace Tidb.Autoid

open GoLang Interleaving

def minStep : ℤ := 30000
def maxStep : ℤ := 2000000
def minIncrement : ℤ := 1
def maxIncrement : ℤ := 65535

inductive AllocatorType where
  | rowID | autoIncrement | autoRandom | sequence
  deriving DecidableEq

inductive AllocErr where
  | invalidTableID
  | invalidIncrementAndOffset (increment offset : ℤ)
  | autoincReadFailed
  | storage
  deriving DecidableEq

structure Allocator where
  base : ℤ
  end_ : ℤ
  tbID : ℤ
  isUnsigned : Bool
  step : ℤ
  customStep : Bool
  allocType : AllocatorType
  deriving DecidableEq

/-- `NewAllocator` with the option for the cache size, which is off for a size of 0. -/
def newAllocator (tbID : ℤ) (isUnsigned : Bool) (allocType : AllocatorType) (cache : ℤ) : Allocator :=
  if cache = 0 then ⟨0, 0, tbID, isUnsigned, 30000, false, allocType⟩
  else ⟨0, 0, tbID, isUnsigned, cache, true, allocType⟩

structure Captured where
  newBase : ℤ
  newEnd : ℤ
  n1 : ℤ := 0
  nextStep : ℤ := 0
  deriving DecidableEq

abbrev Call := Prog ℤ AllocErr Captured

def inc (current step : ℤ) : ℤ := int64 (current + step)

/-! ## Batch sizes -/

def validIncrementAndOffset (increment offset : ℤ) : Bool :=
  decide (minIncrement ≤ increment ∧ increment ≤ maxIncrement) &&
    decide (minIncrement ≤ offset ∧ offset ≤ maxIncrement)

def seekToFirstAutoIDSigned (base increment offset : ℤ) : ℤ :=
  int64 ((int64 (base + increment - offset)).tdiv increment * increment + offset)

def seekToFirstAutoIDUnSigned (base increment offset : ℤ) : ℤ :=
  uint64 (uint64 (base + increment - offset) / increment * increment + offset)

def calcNeededBatchSize (base n increment offset : ℤ) (isUnsigned : Bool) : ℤ :=
  if increment = 1 then n
  else if isUnsigned then
    let nr := seekToFirstAutoIDUnSigned (uint64 base) (uint64 increment) (uint64 offset)
    let nr := uint64 (nr + (uint64 n - 1) * uint64 increment)
    int64 (nr - uint64 base)
  else
    let nr := seekToFirstAutoIDSigned base increment offset
    let nr := int64 (nr + (n - 1) * increment)
    int64 (nr - base)

/-! ## Rebase -/

def afterRebase (alloc : Allocator) : Except AllocErr Captured → Call (Allocator × Except AllocErr Unit)
  | .error e => .ret (alloc, .error e)
  | .ok v => .ret ({ alloc with base := v.newBase, end_ := v.newEnd }, .ok ())

def rebaseTxnUnsigned (alloc : Allocator) (requiredBase : ℤ) (allocIDs : Bool) (currentEnd : ℤ) :
    Except AllocErr (ℤ × Captured) :=
  if allocIDs then
    let newBase := max (uint64 currentEnd) requiredBase
    let newEnd := uint64 (min (uint64 (maxUint64 - uint64 alloc.step)) newBase + uint64 alloc.step)
    .ok (inc currentEnd (int64 (newEnd - uint64 currentEnd)), { newBase := int64 newBase, newEnd := int64 newEnd })
  else if requiredBase ≤ uint64 currentEnd then
    .ok (currentEnd, { newBase := currentEnd, newEnd := currentEnd })
  else
    .ok (inc currentEnd (int64 (requiredBase - uint64 currentEnd)),
      { newBase := int64 requiredBase, newEnd := int64 requiredBase })

def rebase4Unsigned (alloc : Allocator) (requiredBase : ℤ) (allocIDs : Bool) :
    Call (Allocator × Except AllocErr Unit) :=
  if requiredBase ≤ uint64 alloc.base then .ret (alloc, .ok ())
  else if requiredBase ≤ uint64 alloc.end_ then
    .ret ({ alloc with base := int64 requiredBase }, .ok ())
  else .txn (rebaseTxnUnsigned alloc requiredBase allocIDs) (afterRebase alloc)

def rebaseTxnSigned (alloc : Allocator) (requiredBase : ℤ) (allocIDs : Bool) (currentEnd : ℤ) :
    Except AllocErr (ℤ × Captured) :=
  if allocIDs then
    let newBase := max currentEnd requiredBase
    let newEnd := int64 (min (int64 (maxInt64 - alloc.step)) newBase + alloc.step)
    .ok (inc currentEnd (int64 (newEnd - currentEnd)), { newBase, newEnd })
  else if requiredBase ≤ currentEnd then
    .ok (currentEnd, { newBase := currentEnd, newEnd := currentEnd })
  else
    .ok (inc currentEnd (int64 (requiredBase - currentEnd)), { newBase := requiredBase, newEnd := requiredBase })

def rebase4Signed (alloc : Allocator) (requiredBase : ℤ) (allocIDs : Bool) : Call (Allocator × Except AllocErr Unit) :=
  if requiredBase ≤ alloc.base then .ret (alloc, .ok ())
  else if requiredBase ≤ alloc.end_ then .ret ({ alloc with base := requiredBase }, .ok ())
  else .txn (rebaseTxnSigned alloc requiredBase allocIDs) (afterRebase alloc)

def rebase (alloc : Allocator) (requiredBase : ℤ) (allocIDs : Bool) : Call (Allocator × Except AllocErr Unit) :=
  if alloc.isUnsigned then rebase4Unsigned alloc (uint64 requiredBase) allocIDs
  else rebase4Signed alloc requiredBase allocIDs

/-! ## Alloc -/

/-- A request for IDs; `nextStep` is what `NextStep` returns in the course of it. -/
structure AllocReq where
  n : ℕ
  increment : ℤ
  offset : ℤ
  nextStep : ℤ

abbrev AllocResult := Except AllocErr (ℤ × ℤ)

def Allocator.storeStep (alloc : Allocator) (nextStep : ℤ) : Allocator :=
  if alloc.customStep then alloc else { alloc with step := nextStep }

/-- The end of `alloc4Signed`: the IDs come off the cached range. -/
def takeSigned (alloc : Allocator) (n1 : ℤ) : Call (Allocator × AllocResult) :=
  .ret ({ alloc with base := int64 (alloc.base + n1) }, .ok (alloc.base, int64 (alloc.base + n1)))

def batchSigned (alloc : Allocator) (req : AllocReq) (nextStep newBase : ℤ) : Except AllocErr (ℤ × Captured) :=
  let n1 := calcNeededBatchSize newBase (int64 req.n) req.increment req.offset alloc.isUnsigned
  let nextStep := if nextStep < n1 then n1 else nextStep
  let tmpStep := min (int64 (maxInt64 - newBase)) nextStep
  if tmpStep < n1 then .error .autoincReadFailed
  else .ok (inc newBase tmpStep, { newBase, newEnd := inc newBase tmpStep, n1, nextStep })

def allocRestSigned (alloc : Allocator) (req : AllocReq) : Call (Allocator × AllocResult) :=
  let n1 := calcNeededBatchSize alloc.base (int64 req.n) req.increment req.offset alloc.isUnsigned
  if int64 (maxInt64 - alloc.base) ≤ n1 then .ret (alloc, .error .autoincReadFailed)
  else if alloc.end_ < int64 (alloc.base + n1) then
    let nextStep := if !alloc.customStep && decide (0 < alloc.end_) then req.nextStep else alloc.step
    .txn (batchSigned alloc req nextStep) fun
      | .error e => .ret (alloc, .error e)
      | .ok v =>
        let alloc := alloc.storeStep v.nextStep
        if v.newBase = maxInt64 then .ret (alloc, .error .autoincReadFailed)
        else takeSigned { alloc with base := v.newBase, end_ := v.newEnd } v.n1
  else takeSigned alloc n1

def alloc4Signed (alloc : Allocator) (req : AllocReq) : Call (Allocator × AllocResult) :=
  if alloc.base < int64 (req.offset - 1) then
    rebase4Signed alloc (int64 (req.offset - 1)) true >>= fun
      | (alloc, .error e) => .ret (alloc, .error e)
      | (alloc, .ok ()) => allocRestSigned alloc req
  else allocRestSigned alloc req

def takeUnsigned (alloc : Allocator) (n1 : ℤ) : Call (Allocator × AllocResult) :=
  .ret ({ alloc with base := int64 (uint64 alloc.base + uint64 n1) },
    .ok (alloc.base, int64 (uint64 alloc.base + uint64 n1)))

def batchUnsigned (alloc : Allocator) (req : AllocReq) (nextStep newBase : ℤ) : Except AllocErr (ℤ × Captured) :=
  let n1 := calcNeededBatchSize newBase (int64 req.n) req.increment req.offset alloc.isUnsigned
  let nextStep := if nextStep < n1 then n1 else nextStep
  let tmpStep := int64 (min (maxUint64 - uint64 newBase) (uint64 nextStep))
  if tmpStep < n1 then .error .autoincReadFailed
  else .ok (inc newBase tmpStep, { newBase, newEnd := inc newBase tmpStep, n1, nextStep })

def allocRestUnsigned (alloc : Allocator) (req : AllocReq) : Call (Allocator × AllocResult) :=
  let n1 := calcNeededBatchSize alloc.base (int64 req.n) req.increment req.offset alloc.isUnsigned
  if maxUint64 - uint64 alloc.base ≤ uint64 n1 then .ret (alloc, .error .autoincReadFailed)
  else if uint64 alloc.end_ < uint64 (uint64 alloc.base + uint64 n1) then
    let nextStep := if !alloc.customStep then req.nextStep else alloc.step
    .txn (batchUnsigned alloc req nextStep) fun
      | .error e => .ret (alloc, .error e)
      | .ok v =>
        let alloc := alloc.storeStep v.nextStep
        if uint64 v.newBase = maxUint64 then .ret (alloc, .error .autoincReadFailed)
        else takeUnsigned { alloc with base := v.newBase, end_ := v.newEnd } v.n1
  else takeUnsigned alloc n1

def alloc4Unsigned (alloc : Allocator) (req : AllocReq) : Call (Allocator × AllocResult) :=
  if uint64 alloc.base < uint64 (req.offset - 1) then
    rebase4Unsigned alloc (uint64 (req.offset - 1)) true >>= fun
      | (alloc, .error e) => .ret (alloc, .error e)
      | (alloc, .ok ()) => allocRestUnsigned alloc req
  else allocRestUnsigned alloc req

def alloc (alloc : Allocator) (req : AllocReq) : Call (Allocator × AllocResult) :=
  if alloc.tbID = 0 then .ret (alloc, .error .invalidTableID)
  else if req.n = 0 then .ret (alloc, .ok (0, 0))
  else if (alloc.allocType = .autoIncrement ∨ alloc.allocType = .rowID) ∧
      validIncrementAndOffset req.increment req.offset = false then
    .ret (alloc, .error (.invalidIncrementAndOffset req.increment req.offset))
  else if alloc.isUnsigned then alloc4Unsigned alloc req
  else alloc4Signed alloc req

/-! ## Requests -/

inductive Request where
  | alloc (req : AllocReq)
  | rebase (requiredBase : ℤ) (allocIDs : Bool)

inductive Reply where
  | alloc (r : AllocResult)
  | rebase (r : Except AllocErr Unit)

def serve : Request → Allocator → Call (Allocator × Reply)
  | .alloc req, a => alloc a req >>= fun x => .ret (x.1, .alloc x.2)
  | .rebase requiredBase allocIDs, a => rebase a requiredBase allocIDs >>= fun x => .ret (x.1, .rebase x.2)

end Tidb.Autoid
