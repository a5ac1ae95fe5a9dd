import Mathlib.Tactic

/-!
# The temporary index of a unique index that is being added

While an index is backfilled, changes of the table go to a temporary index (`table/tables/index.go`) and are merged
into the index later (`ddl/index_merge_tmp.go`).  Its value at a key is the list of the changes, of which
`FilterOverwritten` (`tablecodec/tablecodec.go`) drops those that a later one for the same row overwrites.

What is read from the bytes of an index value is given by `IndexCodec`.  The scan of a task's range, the locks on the
rows, the flags of a write and the check of a key that is put off to the commit are left out.
-/

namespace Ddl

inductive Err where
  | keyExists
  | decode
  deriving DecidableEq, Repr

structure IndexCodec (Key Handle Val : Type) where
  decodeIndexHandle : Key → Option Val → Except Err Handle
  decodeHandleInUniqueIndexValue : Val → Except Err Handle
  indexKVIsUnique : Val → Bool

inductive KeyVer where
  /-- written in the delete-only stage -/
  | delete
  /-- written in the backfill stage -/
  | backfill
  /-- written in the merge stage -/
  | merge
  deriving DecidableEq, Repr

variable {Key Handle Val : Type}

structure TempIndexValueElem (Handle Val : Type) where
  value : Option Val
  handle : Option Handle
  keyVer : KeyVer
  delete : Bool
  distinct : Bool
  deriving DecidableEq, Repr

abbrev TempIndexValue (Handle Val : Type) := List (TempIndexValueElem Handle Val)

/-! ## Reading it -/

section Merge

variable [DecidableEq Key] [DecidableEq Handle] [DecidableEq Val]

/-- The elements from the last one on, without those whose handle has occurred. -/
def notOverwritten (v : TempIndexValue Handle Val) : TempIndexValue Handle Val × List (Option Handle) :=
  v.foldr
    (fun elem (ret, occurred) =>
      if elem.handle ∈ occurred then (ret, occurred) else (elem :: ret, elem.handle :: occurred))
    ([], [])

def filterOverwritten (v : TempIndexValue Handle Val) : TempIndexValue Handle Val :=
  if v.length ≤ 1 || !(v.head?.any (·.distinct)) then v else (notOverwritten v).1

/-- The handle of an element that is not a deletion marker is in the key or the origin value. -/
def decodeTempIndexHandleFromIndexKV (codec : IndexCodec Key Handle Val) (indexKey : Key)
    (tmpVal : TempIndexValue Handle Val) : Except Err (TempIndexValue Handle Val) :=
  tmpVal.mapM fun elem =>
    match elem.handle with
    | some _ => .ok elem
    | none => (codec.decodeIndexHandle indexKey elem.value).map fun h => { elem with handle := some h }

structure TemporaryIndexRecord (Key Handle Val : Type) where
  originIdxKey : Key
  vals : Option Val
  /-- skip indicates that the index key is already exists, we should not add it. -/
  skip : Bool
  delete : Bool
  distinct : Bool
  handle : Option Handle
  deriving DecidableEq, Repr

def indexRecord (codec : IndexCodec Key Handle Val) (originIdxKey : Key) (elem : TempIndexValueElem Handle Val) :
    Option (TemporaryIndexRecord Key Handle Val) :=
  -- For 'm' version kvs, they are double-written.
  -- For 'd' version kvs, they are written in the delete-only state and can be dropped safely.
  if elem.keyVer = .merge ∨ elem.keyVer = .delete then none
  else
    some
      { originIdxKey
        vals := if elem.delete then none else elem.value
        skip := false
        delete := elem.delete
        distinct := !elem.delete && elem.value.any codec.indexKVIsUnique
        handle := elem.handle }

def fetchTempIndexVals (codec : IndexCodec Key Handle Val) :
    List (Key × TempIndexValue Handle Val) → Except Err (List (TemporaryIndexRecord Key Handle Val))
  | [] => .ok []
  | (indexKey, rawValue) :: rest => do
    let tempIdxVal ← decodeTempIndexHandleFromIndexKV codec indexKey rawValue
    let records ← fetchTempIndexVals codec rest
    .ok ((filterOverwritten tempIdxVal).filterMap (indexRecord codec indexKey) ++ records)

/-! ## Merging it -/

def checkTempIndexKey (codec : IndexCodec Key Handle Val) (rowExists : Handle → Bool)
    (tmpRec : TemporaryIndexRecord Key Handle Val) (originIdxVal : Val) :
    Except Err (TemporaryIndexRecord Key Handle Val) :=
  if !tmpRec.delete then
    if tmpRec.distinct && tmpRec.vals ≠ some originIdxVal then .error .keyExists
    -- The key has been found in the original index, skip merging it.
    else .ok { tmpRec with skip := true }
  else if !codec.indexKVIsUnique originIdxVal then
    -- Same as the non-unique indexes, replay the delete operation on non-distinct keys.
    .ok tmpRec
  else do
    -- For distinct index key values, prevent deleting an unexpected index KV in original index.
    let hdInVal ← codec.decodeHandleInUniqueIndexValue originIdxVal
    if tmpRec.handle ≠ some hdInVal then
      -- Don't delete the index key if the row exists.
      .ok { tmpRec with skip := rowExists hdInVal }
    else .ok tmpRec

def checkRecords (codec : IndexCodec Key Handle Val) (rowExists : Handle → Bool) : (Key → Option Val) → List
    (TemporaryIndexRecord Key Handle Val) → Except Err (List (TemporaryIndexRecord Key Handle Val))
  | _, [] => .ok []
  | batchVals, tmpRec :: rest =>
    match batchVals tmpRec.originIdxKey with
    | some val => do
      -- Found a value in the original index key.
      let tmpRec ← checkTempIndexKey codec rowExists tmpRec val
      let rest ← checkRecords codec rowExists batchVals rest
      .ok (tmpRec :: rest)
    | none => do
      -- The keys also maybe duplicate, so we need to backfill the not found key.
      let batchVals := if tmpRec.distinct then Function.update batchVals tmpRec.originIdxKey tmpRec.vals else batchVals
      let rest ← checkRecords codec rowExists batchVals rest
      .ok (tmpRec :: rest)

def batchCheckTemporaryUniqueKey (codec : IndexCodec Key Handle Val) (unique : Bool) (rowExists : Handle → Bool)
    (origin : Key → Option Val) (idxRecords : List (TemporaryIndexRecord Key Handle Val)) :
    Except Err (List (TemporaryIndexRecord Key Handle Val)) :=
  -- non-unique key need no check, just overwrite it
  if !unique then .ok idxRecords else checkRecords codec rowExists origin idxRecords

def replay (origin : Key → Option Val) (idxRecord : TemporaryIndexRecord Key Handle Val) : Key → Option Val :=
  if idxRecord.skip then origin
  else if idxRecord.delete then Function.update origin idxRecord.originIdxKey none
  else Function.update origin idxRecord.originIdxKey idxRecord.vals

def backfillDataInTxn (codec : IndexCodec Key Handle Val) (unique : Bool) (rowExists : Handle → Bool)
    (origin : Key → Option Val) (tempIdx : List (Key × TempIndexValue Handle Val)) : Except Err (Key → Option Val) := do
  let tmpIdxRecords ← fetchTempIndexVals codec tempIdx
  let tmpIdxRecords ← batchCheckTemporaryUniqueKey codec unique rowExists origin tmpIdxRecords
  .ok (tmpIdxRecords.foldl replay origin)

end Merge

end Ddl
