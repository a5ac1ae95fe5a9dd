import Tidb.Codec.Bytes
import Tidb.Lib.Action
import Tidb.Lib.SortedMap
import Tidb.Lib.Strconv

/-!
# Strings, lists and hashes in a transaction (`structure/*.go`)

The key of an item is the prefix of the structure, the memory-comparable code of the user's key, a type flag, and what
tells the items of one list or hash apart.  A list stands between the two indexes of its meta record.

The transaction is a sorted map: a value must not be empty, and an iterator gives the entries of a range in the order
of their keys, those of the time it was made.
-/

namespace Tidb.Structure

open GoLang Codec

abbrev KV := SortedMap Bytes Bytes

abbrev Txn := Action KV Err

/-! ## The transaction -/

def Txn.get (k : Bytes) : Txn (Option Bytes) := fun s => (.ok (s.find k), s)

def Txn.mustGet (k : Bytes) : Txn Bytes := fun s =>
  match s.find k with
  | some v => (.ok v, s)
  | none => (.error .errNotExist, s)

def Txn.set (k v : Bytes) : Txn Unit := fun s =>
  if v = [] then (.error .errCannotSetNilValue, s) else (.ok (), s.insert k v)

def Txn.delete (k : Bytes) : Txn Unit := fun s => (.ok (), s.erase k)

def Txn.iter (k upperBound : Bytes) : Txn (List (Bytes × Bytes)) := fun s =>
  (.ok (s.between k upperBound), s)

def Txn.iterReverse (k : Bytes) : Txn (List (Bytes × Bytes)) := fun s => (.ok (s.belowReverse k), s)

/-- The loop of `PrefixNext`, over the bytes from the last one on; there is no next one for bytes that
are all 255. -/
def incLast : Bytes → Option Bytes
  | [] => none
  | b :: rest => if b + 1 ≠ 0 then some ((b + 1) :: rest) else (incLast rest).map (0 :: ·)

def prefixNext (k : Bytes) : Bytes :=
  match incLast k.reverse with
  | some b => b.reverse
  | none => k ++ [0]

/-! ## Keys -/

structure TxStructure where
  prefixBytes : Bytes
  /-- Whether there is a `readWriter`; a snapshot has none. -/
  writable : Bool

def stringData : UInt64 := 0x73
def hashData : UInt64 := 0x68
def listMetaFlag : UInt64 := 0x4C
def listData : UInt64 := 0x6C

namespace TxStructure

variable (t : TxStructure)

def encodeStringDataKey (key : Bytes) : Bytes :=
  encodeUint (encodeBytes t.prefixBytes key) stringData

def encodeHashDataKey (key field : Bytes) : Bytes :=
  encodeBytes (encodeUint (encodeBytes t.prefixBytes key) hashData) field

def hashDataKeyPrefix (key : Bytes) : Bytes :=
  encodeUint (encodeBytes t.prefixBytes key) hashData

def encodeListMetaKey (key : Bytes) : Bytes :=
  encodeUint (encodeBytes t.prefixBytes key) listMetaFlag

def encodeListDataKey (key : Bytes) (index : Int64) : Bytes :=
  encodeInt (encodeUint (encodeBytes t.prefixBytes key) listData) index

def decodeHashDataKey (ek : Bytes) : Res (Bytes × Bytes) :=
  if !t.prefixBytes.isPrefixOf ek then .error (.new "invalid encoded hash data key prefix")
  else do
    let ek ← sliceFrom ek t.prefixBytes.length
    let (ek, key) ← decodeBytes ek []
    let (ek, tp) ← decodeUint ek
    -- `TypeFlag(tp)` keeps the last byte only
    if tp.toUInt8 ≠ hashData.toUInt8 then
      .error (.errInvalidHashKeyFlag "invalid encoded hash data key flag %c" [.num tp.toUInt8.toNat])
    else
      let (_, field) ← decodeBytes ek []
      return (key, field)

/-! ## Strings -/

def ifWritable {α : Type} (x : Txn α) : Txn α :=
  if t.writable then x else Action.fail .errWriteOnSnapshot

def set (key value : Bytes) : Txn Unit := t.ifWritable (Txn.set (t.encodeStringDataKey key) value)

def get (key : Bytes) : Txn (Option Bytes) := Txn.get (t.encodeStringDataKey key)

def parse (v : Bytes) : Res Int64 :=
  match parseInt v with
  | .ok n => .ok (Int64.ofInt n)
  | .error e => .error (.errorf "strconv.ParseInt: parsing %q: %s" [.bytes v, .text e.text])

def incInt64 (k : Bytes) (step : Int64) : Txn Int64 := do
  match ← Txn.get k with
  | none =>
    Txn.set k (formatInt step.toInt)
    return step
  | some val =>
    let intVal ← Action.lift (parse val)
    Txn.set k (formatInt (intVal + step).toInt)
    return intVal + step

def inc (key : Bytes) (step : Int64) : Txn Int64 :=
  t.ifWritable (incInt64 (t.encodeStringDataKey key) step)

def clear (key : Bytes) : Txn Unit := t.ifWritable (Txn.delete (t.encodeStringDataKey key))

end TxStructure

/-! ## Lists -/

structure ListMeta where
  lIndex : Int64
  rIndex : Int64
  deriving DecidableEq

def ListMeta.value (m : ListMeta) : Bytes :=
  putUint64BE m.lIndex.toUInt64 ++ putUint64BE m.rIndex.toUInt64

def ListMeta.isEmpty (m : ListMeta) : Bool := decide (m.rIndex ≤ m.lIndex)

def adjustIndex (index min max : Int64) : Int64 := if 0 ≤ index then index + min else index + max

namespace TxStructure

variable (t : TxStructure)

def loadListMeta (metaKey : Bytes) : Txn ListMeta := do
  match ← Txn.get metaKey with
  | none => return ⟨0, 0⟩
  | some v =>
    if v.length ≠ 16 then Action.fail .errInvalidListMetaData
    else
      let l ← Action.lift (sliceTo v 8 >>= uint64BE)
      let r ← Action.lift (slice v 8 16 >>= uint64BE)
      return ⟨l.toInt64, r.toInt64⟩

def pushValues (key : Bytes) (left : Bool) : List Bytes → ListMeta → Txn ListMeta
  | [], m => pure m
  | v :: values, m =>
    let m' : ListMeta :=
      if left then ⟨m.lIndex - 1, m.rIndex⟩ else ⟨m.lIndex, m.rIndex + 1⟩
    let index := if left then m'.lIndex else m.rIndex
    do
      Txn.set (t.encodeListDataKey key index) v
      pushValues key left values m'

def listPush (key : Bytes) (left : Bool) (values : List Bytes) : Txn Unit :=
  t.ifWritable (
    if values.length = 0 then pure ()
    else do
      let metaKey := t.encodeListMetaKey key
      let m ← loadListMeta metaKey
      let m ← t.pushValues key left values m
      Txn.set metaKey m.value)

def lPush (key : Bytes) (values : List Bytes) : Txn Unit := t.listPush key true values

def rPush (key : Bytes) (values : List Bytes) : Txn Unit := t.listPush key false values

def storeListMeta (metaKey : Bytes) (m : ListMeta) : Txn Unit :=
  if !m.isEmpty then Txn.set metaKey m.value else Txn.delete metaKey

def listPop (key : Bytes) (left : Bool) : Txn (Option Bytes) :=
  t.ifWritable (do
    let metaKey := t.encodeListMetaKey key
    let m ← loadListMeta metaKey
    if m.isEmpty then return none
    else
      let m' : ListMeta :=
        if left then ⟨m.lIndex + 1, m.rIndex⟩ else ⟨m.lIndex, m.rIndex - 1⟩
      let index := if left then m.lIndex else m'.rIndex
      let dataKey := t.encodeListDataKey key index
      let data ← Txn.mustGet dataKey
      Txn.delete dataKey
      storeListMeta metaKey m'
      return some data)

def lPop (key : Bytes) : Txn (Option Bytes) := t.listPop key true

def rPop (key : Bytes) : Txn (Option Bytes) := t.listPop key false

def lLen (key : Bytes) : Txn Int64 := do
  let m ← loadListMeta (t.encodeListMetaKey key)
  return m.rIndex - m.lIndex

def getDown (key : Bytes) : ℕ → Int64 → Txn (List Bytes)
  | 0, _ => pure []
  | n + 1, index => do
    let e ← Txn.mustGet (t.encodeListDataKey key index)
    let elements ← getDown key n (index - 1)
    return e :: elements

def lGetAll (key : Bytes) : Txn (List Bytes) := do
  let m ← loadListMeta (t.encodeListMetaKey key)
  if m.isEmpty then return []
  else t.getDown key (m.rIndex.toInt - m.lIndex.toInt).toNat (m.rIndex - 1)

def lIndex (key : Bytes) (index : Int64) : Txn (Option Bytes) := do
  let m ← loadListMeta (t.encodeListMetaKey key)
  if m.isEmpty then return none
  else
    let index := adjustIndex index m.lIndex m.rIndex
    if m.lIndex ≤ index ∧ index < m.rIndex then
      let v ← Txn.mustGet (t.encodeListDataKey key index)
      return some v
    else return none

def lSet (key : Bytes) (index : Int64) (value : Bytes) : Txn Unit :=
  t.ifWritable (do
    let m ← loadListMeta (t.encodeListMetaKey key)
    if m.isEmpty then return ()
    else
      let index := adjustIndex index m.lIndex m.rIndex
      if m.lIndex ≤ index ∧ index < m.rIndex then
        Txn.set (t.encodeListDataKey key index) value
      else
        Action.fail (.errInvalidListIndex "invalid list index %d" [.num index.toInt]))

def deleteUp (key : Bytes) : ℕ → Int64 → Txn Unit
  | 0, _ => pure ()
  | n + 1, index => do
    Txn.delete (t.encodeListDataKey key index)
    deleteUp key n (index + 1)

def lClear (key : Bytes) : Txn Unit :=
  t.ifWritable (do
    let metaKey := t.encodeListMetaKey key
    let m ← loadListMeta metaKey
    if m.isEmpty then return ()
    else
      t.deleteUp key (m.rIndex.toInt - m.lIndex.toInt).toNat m.lIndex
      Txn.delete metaKey)

/-! ## Hashes -/

/-- `updateHash`; `fn` gives the result of the caller too. -/
def updateHash {α : Type} (key field : Bytes) (fn : Option Bytes → Res (α × Bytes)) : Txn α := do
  let dataKey := t.encodeHashDataKey key field
  let oldValue ← Txn.get dataKey
  let (a, newValue) ← Action.lift (fn oldValue)
  if oldValue.getD [] = newValue then return a
  else
    Txn.set dataKey newValue
    return a

def hSet (key field value : Bytes) : Txn Unit :=
  t.ifWritable (t.updateHash key field fun _ => .ok ((), value))

def hGet (key field : Bytes) : Txn (Option Bytes) := Txn.get (t.encodeHashDataKey key field)

def incValue (step : Int64) (oldValue : Option Bytes) : Res (Int64 × Bytes) := do
  let base ← match oldValue with
    | none => .ok 0
    | some v => parse v
  return (base + step, formatInt (base + step).toInt)

def hInc (key field : Bytes) (step : Int64) : Txn Int64 :=
  t.ifWritable (t.updateHash key field (incValue step))

def deleteField (key field : Bytes) : Txn Unit := do
  let dataKey := t.encodeHashDataKey key field
  match ← Txn.get dataKey with
  | some _ => Txn.delete dataKey
  | none => pure ()

def deleteFields (key : Bytes) : List Bytes → Txn Unit
  | [] => pure ()
  | field :: fields => do
    t.deleteField key field
    deleteFields key fields

def hDel (key : Bytes) (fields : List Bytes) : Txn Unit := t.ifWritable (t.deleteFields key fields)

def iterLoop {α : Type} (dataPrefix : Bytes) (fn : α → Bytes → Bytes → Txn (Bool × α)) :
    List (Bytes × Bytes) → α → Txn α
  | [], a => pure a
  | (k, v) :: it, a =>
    if !dataPrefix.isPrefixOf k then pure a
    else do
      let (_, field) ← Action.lift (t.decodeHashDataKey k)
      let (more, a) ← fn a field v
      if !more then return a else iterLoop dataPrefix fn it a

def iterateHash {α : Type} (key : Bytes) (fn : α → Bytes → Bytes → Txn α) (a : α) : Txn α := do
  let dataPrefix := t.hashDataKeyPrefix key
  let it ← Txn.iter dataPrefix (prefixNext dataPrefix)
  t.iterLoop dataPrefix (fun a field value => do return (true, ← fn a field value)) it a

def iterReverseHash {α : Type} (key : Bytes) (fn : α → Bytes → Bytes → Txn (Bool × α)) (a : α) : Txn α := do
  let dataPrefix := t.hashDataKeyPrefix key
  let it ← Txn.iterReverse (prefixNext dataPrefix)
  t.iterLoop dataPrefix fn it a

def hKeys (key : Bytes) : Txn (List Bytes) :=
  t.iterateHash key (fun keys field _ => pure (keys ++ [field])) []

def hGetAll (key : Bytes) : Txn (List (Bytes × Bytes)) :=
  t.iterateHash key (fun res field value => pure (res ++ [(field, value)])) []

def hGetLen (key : Bytes) : Txn ℕ := t.iterateHash key (fun hashLen _ _ => pure (hashLen + 1)) 0

/-- `HGetLastN`; a slice cannot be made for a negative number. -/
def hGetLastN (key : Bytes) (num : ℤ) : Txn (List (Bytes × Bytes)) :=
  if num < 0 then Action.lift .fault
  else
    t.iterReverseHash key (fun res field value =>
      let res := res ++ [(field, value)]
      pure (!decide (num ≤ res.length), res)) []

/-- `HClear`, which does not look for a `readWriter` before it deletes. -/
def hClear (key : Bytes) : Txn Unit :=
  t.iterateHash key (fun _ field _ =>
    if t.writable then Txn.delete (t.encodeHashDataKey key field) else Action.lift .fault) ()

end TxStructure

end Tidb.Structure
