import Tidb.Lib.Interleaving
import Tidb.Lib.Word64

/-!
# Sequences (`table/tables/tables.go`, `meta/autoid/autoid.go`, `ddl/sequence.go`)

The values go up or down from `Start` by `Increment`.  A node caches those between `base` and `end`, taken from a
counter that all nodes share; `nextval` seeks the next value in the cache or takes a new batch, and `setval` moves
`base`, or the counter if the cache does not reach that far.  The calls of a node follow each other.
-/

namespace Tidb.Sequence

open GoLang Interleaving

structure SequenceInfo where
  start : ℤ
  cache : Bool
  cycle : Bool
  minValue : ℤ
  maxValue : ℤ
  increment : ℤ
  cacheValue : ℤ
  deriving DecidableEq

def minInt64 : ℤ := -0x8000000000000000

def abs (n : ℤ) : ℤ := int64 |n|

def validateSequenceOptions (seqInfo : SequenceInfo) : Bool :=
  let maxIncrement := abs seqInfo.increment
  if seqInfo.increment = 0 then false
  else if seqInfo.cache && decide (seqInfo.cacheValue ≤ 0) then false
  else decide (seqInfo.start ≤ seqInfo.maxValue) && decide (seqInfo.minValue < seqInfo.maxValue) &&
    decide (seqInfo.minValue ≤ seqInfo.start) && decide (seqInfo.maxValue ≠ maxInt64) &&
    decide (seqInfo.minValue ≠ minInt64) &&
    decide (seqInfo.cacheValue < (int64 (maxInt64 - maxIncrement)).tdiv maxIncrement)

def SequenceInfo.base (seq : SequenceInfo) : ℤ :=
  if 0 ≤ seq.increment then int64 (seq.start - 1) else int64 (seq.start + 1)

/-! ## Seeking a value -/

def encodeIntToCmpUint (v : ℤ) : ℤ := uint64 (v + 0x8000000000000000)

def decodeCmpUintToInt (u : ℤ) : ℤ := int64 (u + 0x8000000000000000)

/-- The loop up to `uMax`, which is `n` numbers away.  Below the largest number it does not wrap
around. -/
def enumUp (uOffset uIncrement : ℤ) : ℕ → ℤ → Option ℤ
  | 0, _ => none
  | n + 1, i =>
    if uint64 (i - uOffset) % uIncrement = 0 then some (decodeCmpUintToInt i)
    else enumUp uOffset uIncrement n (i + 1)

def enumDown (uOffset uIncrement : ℤ) : ℕ → ℤ → Option ℤ
  | 0, _ => none
  | n + 1, i =>
    if uint64 (uOffset - i) % uIncrement = 0 then some (decodeCmpUintToInt i)
    else enumDown uOffset uIncrement n (i - 1)

def seekToFirstSequenceValue (base increment offset min max : ℤ) : Option ℤ :=
  let uBase := encodeIntToCmpUint base
  let uOffset := encodeIntToCmpUint offset
  if 0 < increment then
    if max ≤ base then none
    else
      let uMax := encodeIntToCmpUint max
      let uIncrement := uint64 increment
      if uint64 (uMax - uBase) < uIncrement then
        enumUp uOffset uIncrement (uMax - uBase).toNat (uBase + 1)
      else
        let nr := uint64 (uBase + uIncrement - uOffset) / uIncrement
        some (decodeCmpUintToInt (uint64 (nr * uIncrement + uOffset)))
  else
    if base ≤ min then none
    else
      let uMin := encodeIntToCmpUint min
      let uIncrement := uint64 (-increment)
      if uint64 (uBase - uMin) < uIncrement then
        enumDown uOffset uIncrement (uBase - uMin).toNat (uBase - 1)
      else
        let nr := uint64 (uOffset - uBase + uIncrement) / uIncrement
        some (decodeCmpUintToInt (uint64 (uOffset - nr * uIncrement)))

/-- `CalcSequenceBatchSize`; there is no size when the sequence has run out. -/
def calcSequenceBatchSize (base size increment offset min max : ℤ) : Option ℤ :=
  if 0 < increment then
    if increment = 1 then
      if max ≤ base then none
      else if int64 (max - base) < size then some (int64 (max - base))
      else some size
    else
      match seekToFirstSequenceValue base increment offset min max with
      | none => none
      | some nr =>
        if int64 (max - nr) < int64 ((size - 1) * increment) then some (int64 (max - base))
        else some (int64 (nr - base + (size - 1) * increment))
  else if increment = -1 then
    if base ≤ min then none
    else if int64 (base - min) < size then some (int64 (base - min))
    else some size
  else
    match seekToFirstSequenceValue base increment offset min max with
    | none => none
    | some nr =>
      if int64 (nr - min) < int64 ((size - 1) * -increment) then some (int64 (base - min))
      else some (int64 (base - nr + (size - 1) * -increment))

/-! ## The store -/

inductive SeqErr where
  /-- `ErrAutoincReadFailed`, which a user sees as `ErrSequenceHasRunOut`. -/
  | hasRunOut
  /-- "can't find the first value in sequence cache" -/
  | noFirstValue
  | binlog
  | storage
  deriving DecidableEq

structure SeqStore where
  value : ℤ
  cycle : ℤ
  deriving DecidableEq

structure Captured where
  newBase : ℤ := 0
  newEnd : ℤ := 0
  round : ℤ := 0
  alreadySatisfied : Bool := false

abbrev Call := Prog SeqStore SeqErr Captured

/-- The value that a sequence counts from once it is in its first cycle. -/
def SequenceInfo.cycleStart (seq : SequenceInfo) : ℤ :=
  if 0 < seq.increment then seq.minValue else seq.maxValue

/-- The end of the transaction of `alloc4Sequence`. -/
def takeBatch (seq : SequenceInfo) (newBase seqStep round cycle : ℤ) : SeqStore × Captured :=
  let delta := if 0 < seq.increment then seqStep else int64 (-seqStep)
  let newEnd := int64 (newBase + delta)
  (⟨newEnd, cycle⟩, { newBase, newEnd, round })

def alloc4Sequence (seq : SequenceInfo) (s : SeqStore) : Except SeqErr (SeqStore × Captured) :=
  let cacheSize := if seq.cache then seq.cacheValue else 1
  let round := if seq.cycle then s.cycle else 0
  let offset := if seq.cycle ∧ 0 < round then seq.cycleStart else seq.start
  match calcSequenceBatchSize s.value cacheSize seq.increment offset seq.minValue seq.maxValue with
  | some seqStep => .ok (takeBatch seq s.value seqStep round s.cycle)
  | none =>
    if !seq.cycle then .error .hasRunOut
    else
      let newBase :=
        if 0 < seq.increment then int64 (seq.minValue - 1) else int64 (seq.maxValue + 1)
      match calcSequenceBatchSize newBase cacheSize seq.increment seq.cycleStart seq.minValue
        seq.maxValue with
      | some seqStep => .ok (takeBatch seq newBase seqStep (int64 (round + 1)) (int64 (round + 1)))
      | none => .error .hasRunOut

def rebase4Sequence (seq : SequenceInfo) (requiredBase : ℤ) (s : SeqStore) : Except SeqErr (SeqStore × Captured) :=
  if 0 < seq.increment ∧ requiredBase ≤ s.value ∨ ¬0 < seq.increment ∧ s.value ≤ requiredBase then
    .ok (s, { alreadySatisfied := true })
  else .ok ({ s with value := int64 (s.value + int64 (requiredBase - s.value)) }, {})

/-! ## A node -/

structure SequenceCommon where
  end_ : ℤ
  base : ℤ
  round : ℤ
  deriving DecidableEq

def SequenceCommon.getOffset (s : SequenceCommon) (seq : SequenceInfo) : ℤ :=
  if seq.cycle ∧ 0 < s.round then seq.cycleStart else seq.start

def SequenceCommon.seek (s : SequenceCommon) (seq : SequenceInfo) : Option ℤ :=
  if 0 < seq.increment then
    seekToFirstSequenceValue s.base seq.increment (s.getOffset seq) s.base s.end_
  else seekToFirstSequenceValue s.base seq.increment (s.getOffset seq) s.end_ s.base

/-- `GetSequenceNextVal`; `binlogFails` says whether there is a binlog and it cannot be written. -/
def getSequenceNextVal (seq : SequenceInfo) (binlogFails : Bool) (s : SequenceCommon) :
    Call (SequenceCommon × Except SeqErr ℤ) :=
  match if s.base = s.end_ then none else s.seek seq with
  | some nextVal => .ret ({ s with base := nextVal }, .ok nextVal)
  | none =>
    .txn (alloc4Sequence seq) fun
      | .error e => .ret (s, .error e)
      | .ok v =>
        let s : SequenceCommon := ⟨v.newEnd, v.newBase, v.round⟩
        if binlogFails then .ret (s, .error .binlog)
        else
          match s.seek seq with
          | none => .ret (s, .error .noFirstValue)
          | some nextVal => .ret ({ s with base := nextVal }, .ok nextVal)

/-- `SetSequenceVal`; the Boolean says that the value was passed already, which is `NULL` for a user. -/
def setSequenceVal (seq : SequenceInfo) (newVal : ℤ) (binlogFails : Bool) (s : SequenceCommon) :
    Call (SequenceCommon × Except SeqErr (ℤ × Bool)) :=
  if 0 < seq.increment ∧ newVal ≤ s.base ∨ ¬0 < seq.increment ∧ s.base ≤ newVal then
    .ret (s, .ok (0, true))
  else if 0 < seq.increment ∧ newVal ≤ s.end_ ∨ ¬0 < seq.increment ∧ s.end_ ≤ newVal then
    .ret ({ s with base := newVal }, .ok (newVal, false))
  else
    -- the cache is given up
    let s := { s with base := s.end_ }
    .txn (rebase4Sequence seq newVal) fun
      | .error e => .ret (s, .error e)
      | .ok v =>
        if !v.alreadySatisfied && binlogFails then .ret (s, .error .binlog)
        else
          .ret ({ s with base := newVal, end_ := newVal },
            .ok (if v.alreadySatisfied then 0 else newVal, v.alreadySatisfied))

inductive Request where
  | nextval (binlogFails : Bool)
  | setval (newVal : ℤ) (binlogFails : Bool)
  deriving DecidableEq

inductive Reply where
  | nextval (r : Except SeqErr ℤ)
  | setval (r : Except SeqErr (ℤ × Bool))

def serve (seq : SequenceInfo) : Request → SequenceCommon → Call (SequenceCommon × Reply)
  | .nextval binlogFails, s => getSequenceNextVal seq binlogFails s >>= fun (s, r) => .ret (s, .nextval r)
  | .setval newVal binlogFails, s => setSequenceVal seq newVal binlogFails s >>= fun (s, r) => .ret (s, .setval r)

end Tidb.Sequence
