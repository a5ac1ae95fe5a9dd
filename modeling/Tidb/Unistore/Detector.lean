import Tidb.Lib.SortedMap

/-!
# The deadlock detector

`Detector` of `store/mockstore/unistore/tikv/detector.go`.  For each waiting transaction it stores those it waits for,
with the hash of the key and the time of registration; entries expire.  Times are in nanoseconds.  The search takes a
bound on its depth and returns nothing where the bound is too small.
-/

namespace Unistore

structure DiagnosticContext where
  key : List UInt8
  resourceGroupTag : List UInt8
  deriving DecidableEq, Repr

structure TxnKeyHashPair where
  txn : UInt64
  keyHash : UInt64
  registerTime : ℤ
  diagCtx : DiagnosticContext
  deriving DecidableEq, Repr

def TxnKeyHashPair.isExpired (p : TxnKeyHashPair) (ttl nowTime : ℤ) : Bool :=
  decide (p.registerTime + ttl < nowTime)

structure WaitForEntry where
  txn : UInt64
  key : List UInt8
  keyHash : UInt64
  resourceGroupTag : List UInt8
  waitForTxn : UInt64
  deriving DecidableEq, Repr

structure ErrDeadlock where
  deadlockKeyHash : UInt64
  waitChain : List WaitForEntry
  deriving DecidableEq, Repr

def TxnKeyHashPair.waitForEntry (p : TxnKeyHashPair) (txn : UInt64) : WaitForEntry where
  txn := txn
  key := p.diagCtx.key
  keyHash := p.keyHash
  resourceGroupTag := p.diagCtx.resourceGroupTag
  waitForTxn := p.txn

structure Detector where
  waitForMap : SortedMap UInt64 (List TxnKeyHashPair)
  entryTTL : ℤ
  totalSize : UInt64
  lastActiveExpire : ℤ
  urgentSize : UInt64
  expireInterval : ℤ

namespace Detector

def newDetector (ttl : ℤ) (urgentSize : UInt64) (expireInterval nowTime : ℤ) : Detector where
  waitForMap := .empty
  entryTTL := ttl
  totalSize := 0
  lastActiveExpire := nowTime
  urgentSize := urgentSize
  expireInterval := expireInterval

def setTxns (d : Detector) (txn : UInt64) (txns : List TxnKeyHashPair) : Detector :=
  { d with waitForMap := d.waitForMap.insert txn txns }

def delete (d : Detector) (txn : UInt64) : Detector :=
  { d with waitForMap := d.waitForMap.erase txn }

def deleteIfEmpty (d : Detector) (txn : UInt64) (txns : List TxnKeyHashPair) : Detector :=
  if txns.length = 0 then d.delete txn else d

/-- `val.txns.Remove(cur)` and `d.totalSize--`: the list of `txn` is left with `txns`. -/
def remove (d : Detector) (txn : UInt64) (txns : List TxnKeyHashPair) : Detector :=
  { d.setTxns txn txns with totalSize := d.totalSize - 1 }

/-- The loop of `doDetect` over the list of `waitForTxn`: `kept` has been passed, `rest` is still to
come, and `search` is the recursive call. -/
def doDetectLoop (search : UInt64 → Detector → Option (Option ErrDeadlock × Detector)) (nowTime : ℤ)
    (sourceTxn waitForTxn : UInt64) (kept : List TxnKeyHashPair) :
    List TxnKeyHashPair → Detector → Option (Option ErrDeadlock × Detector)
  | [], d => some (none, d.deleteIfEmpty waitForTxn kept)
  | keyHashPair :: rest, d =>
    if keyHashPair.isExpired d.entryTTL nowTime then
      doDetectLoop search nowTime sourceTxn waitForTxn kept rest (d.remove waitForTxn (kept ++ rest))
    else if keyHashPair.txn = sourceTxn then
      some (some ⟨keyHashPair.keyHash, [keyHashPair.waitForEntry waitForTxn]⟩, d)
    else
      match search keyHashPair.txn d with
      | none => none
      | some (some err, d) =>
        some (some { err with waitChain := err.waitChain ++ [keyHashPair.waitForEntry waitForTxn] }, d)
      | some (none, d) => doDetectLoop search nowTime sourceTxn waitForTxn (kept ++ [keyHashPair]) rest d

def doDetect (nowTime : ℤ) (sourceTxn : UInt64) : ℕ → UInt64 → Detector → Option (Option ErrDeadlock × Detector)
  | 0, _, _ => none
  | depth + 1, waitForTxn, d =>
    match d.waitForMap.find waitForTxn with
    | none => some (none, d)
    | some txns => doDetectLoop (doDetect nowTime sourceTxn depth) nowTime sourceTxn waitForTxn [] txns d

def register (d : Detector) (nowTime : ℤ) (sourceTxn waitForTxn keyHash : UInt64)
    (diagCtx : DiagnosticContext) : Detector :=
  let pair : TxnKeyHashPair := ⟨waitForTxn, keyHash, nowTime, diagCtx⟩
  match d.waitForMap.find sourceTxn with
  | none => { d.setTxns sourceTxn [pair] with totalSize := d.totalSize + 1 }
  | some txns =>
    if txns.any fun valuePair => valuePair.txn = waitForTxn ∧ valuePair.keyHash = keyHash then d
    else { d.setTxns sourceTxn (txns ++ [pair]) with totalSize := d.totalSize + 1 }

def expireLoop (ttl nowTime : ℤ) : List TxnKeyHashPair → UInt64 → List TxnKeyHashPair × UInt64
  | [], totalSize => ([], totalSize)
  | valuePair :: rest, totalSize =>
    if valuePair.isExpired ttl nowTime then expireLoop ttl nowTime rest (totalSize - 1)
    else
      let (kept, totalSize) := expireLoop ttl nowTime rest totalSize
      (valuePair :: kept, totalSize)

def expireEntry (nowTime : ℤ) (d : Detector) (entry : UInt64 × List TxnKeyHashPair) : Detector :=
  let (kept, totalSize) := expireLoop d.entryTTL nowTime entry.2 d.totalSize
  deleteIfEmpty { d.setTxns entry.1 kept with totalSize := totalSize } entry.1 kept

def activeExpire (d : Detector) (nowTime : ℤ) : Detector :=
  if nowTime - d.lastActiveExpire > d.expireInterval ∧ d.totalSize ≥ d.urgentSize then
    { d.waitForMap.entries.foldl (expireEntry nowTime) d with lastActiveExpire := nowTime }
  else d

/-- The depth that suffices while the graph has no cycle: no path has more sources than the map has
entries. -/
def searchDepth (d : Detector) : ℕ := d.waitForMap.entries.length + 1

/-- The clock is read twice: before the search, and again at the registration. -/
def detect (d : Detector) (nowTime registerTime : ℤ) (sourceTxn waitForTxn keyHash : UInt64)
    (diagCtx : DiagnosticContext) : Option (Option ErrDeadlock × Detector) :=
  let d := d.activeExpire nowTime
  match d.doDetect nowTime sourceTxn d.searchDepth waitForTxn with
  | none => none
  | some (none, d) => some (none, d.register registerTime sourceTxn waitForTxn keyHash diagCtx)
  | some (some err, d) =>
    some (some { err with waitChain := err.waitChain.reverse ++ [⟨sourceTxn, diagCtx.key, keyHash,
      diagCtx.resourceGroupTag, waitForTxn⟩] }, d)

def cleanUp (d : Detector) (txn : UInt64) : Detector :=
  match d.waitForMap.find txn with
  | none => d.delete txn
  | some l => { d.delete txn with totalSize := d.totalSize - UInt64.ofNat l.length }

def cleanUpWaitFor (d : Detector) (txn waitForTxn keyHash : UInt64) : Detector :=
  match d.waitForMap.find txn with
  | none => d
  | some l =>
    let isEntry : TxnKeyHashPair → Bool := fun p => p.txn = waitForTxn ∧ p.keyHash = keyHash
    let l' := l.eraseP isEntry
    deleteIfEmpty (if l.any isEntry then d.remove txn l' else d) txn l'

end Detector

end Unistore
