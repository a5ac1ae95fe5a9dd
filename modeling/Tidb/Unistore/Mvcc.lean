import Tidb.Unistore.MvccStore

/-!
# The requests of the MVCC store

`MVCCStore` of `store/mockstore/unistore/tikv/mvcc.go`.  A request runs under the latches of its keys: it reads the
store, and fails or returns the batch that it writes.  `exec` is the store after it.

Lock waiting, deadlock detection, the values that `PessimisticLock` returns and errors of the disk are left out.  The
timestamp of the placement driver is part of a prewrite, and `encodeFromOldRow` is a parameter.  The sort keeps the
order of mutations of one key, and each row is encoded in a buffer of its own.
-/

namespace Unistore

open GoLang Tidb

/-! ## Requests -/

inductive MutationOp where
  | put
  | del
  | lock
  | insert
  | checkNotExists
  deriving DecidableEq, Repr

inductive Assertion where
  | none
  | exist
  | notExist
  deriving DecidableEq, Repr

inductive PessimisticAction where
  | skipPessimisticCheck
  | doPessimisticCheck
  | doConstraintCheck
  deriving DecidableEq, Repr

/-- A mutation with its element of `PessimisticActions`; where the request has no actions this is
`skipPessimisticCheck`. -/
structure Mutation where
  op : MutationOp
  key : Bytes
  value : Bytes
  assertion : Assertion
  action : PessimisticAction
  deriving DecidableEq, Repr

structure PrewriteRequest where
  mutations : List Mutation
  primaryLock : Bytes
  startVersion : ℕ
  lockTtl : ℕ
  forUpdateTs : ℕ
  minCommitTs : ℕ
  maxCommitTs : ℕ
  useAsyncCommit : Bool
  tryOnePc : Bool
  secondaries : List Bytes
  assertionLevelOff : Bool
  deriving DecidableEq, Repr

structure PessimisticLockRequest where
  mutations : List Mutation
  primaryLock : Bytes
  startVersion : ℕ
  lockTtl : ℕ
  forUpdateTs : ℕ
  force : Bool
  returnValues : Bool
  lockOnlyIfExists : Bool
  deriving DecidableEq, Repr

structure CheckTxnStatusRequest where
  primaryKey : Bytes
  lockTs : ℕ
  callerStartTs : ℕ
  currentTs : ℕ
  rollbackIfNotExist : Bool
  forceSyncCommit : Bool
  resolvingPessimisticLock : Bool
  deriving DecidableEq, Repr

/-! ## Results -/

inductive ConflictReason where
  | optimistic
  | pessimisticRetry
  | lazyUniquenessCheck
  deriving DecidableEq, Repr

inductive KvError where
  | locked (key : Bytes) (lock : Lock)
  | retryable (text : String)
  | invalidOp (op : MutationOp)
  | alreadyCommitted (commitTS : ℕ)
  | keyAlreadyExists (key : Bytes)
  | conflict (startTS conflictTS conflictCommitTS : ℕ) (key : Bytes) (reason : ConflictReason)
  | commitExpire (startTS commitTS minCommitTS : ℕ) (key : Bytes)
  | txnNotFound (primaryKey : Bytes) (startTS : ℕ)
  | assertionFailed (startTS : ℕ) (key : Bytes) (assertion : Assertion) (existingStartTS existingCommitTS : ℕ)
  | primaryMismatch (key : Bytes) (lock : Lock)
  | other (e : Err)
  deriving DecidableEq, Repr

def errLockNotFound : KvError := .retryable "lock not found"
def errAlreadyRollback : KvError := .retryable "already rollback"
def errReplaced : KvError := .retryable "replaced by another transaction"

inductive StatusAction where
  | noAction
  | ttlExpireRollback
  | ttlExpirePessimisticRollback
  | lockNotExistRollback
  | lockNotExistDoNothing
  | minCommitTSPushed
  deriving DecidableEq, Repr

structure TxnStatus where
  commitTS : ℕ
  action : StatusAction
  lockInfo : Option Lock
  deriving DecidableEq, Repr

structure SecondaryLocksStatus where
  locks : List (Bytes × Lock)
  commitTS : ℕ
  deriving DecidableEq, Repr

inductive Reply where
  | done
  | prewritten (asyncMinCommitTS onePCCommitTS : ℕ)
  | txnStatus (status : TxnStatus)
  | secondaryLocks (status : SecondaryLocksStatus)
  | ttl (lockTTL : ℕ)
  deriving DecidableEq, Repr

abbrev Result := Outcome KvError (List Entry × Reply)

def maxSystemTS : ℕ := 2 ^ 64 - 1

def extractPhysical (ts : ℕ) : ℕ := ts / 2 ^ 18

def expired (lock : Lock) (currentTs : ℕ) : Bool :=
  decide (extractPhysical lock.startTS + lock.ttl < extractPhysical currentTs)

def sortMutations (mutations : List Mutation) : List Mutation :=
  mutations.insertionSort fun a b => (compare a.key b.key).isLE

def sortKeys (keys : List Bytes) : List Bytes := keys.insertionSort fun a b => (compare a b).isLE

/-! ## Reading the store -/

namespace Store

variable (s : Store)

/-- It can be rollback or a committed lock, which only contains transaction status info, no values. -/
structure ExtraTxnStatus where
  commitTS : ℕ
  isRollback : Bool
  deriving DecidableEq, Repr

def ExtraTxnStatus.isOpLockCommitted (status : ExtraTxnStatus) : Bool := decide (0 < status.commitTS)

def checkExtraTxnStatus (key : Bytes) (startTS : ℕ) : ExtraTxnStatus :=
  match s.status key startTS with
  | none => ⟨0, false⟩
  | some commitTS => if commitTS = 0 then ⟨0, true⟩ else ⟨commitTS, false⟩

/-- The commit timestamp of the transaction on the key, 0 where it has none: the newest version first, then all
versions from the newest on. -/
def checkCommitted (key : Bytes) (startTS : ℕ) : ℕ :=
  match s.newest key with
  | none => 0
  | some (commitTS, v) =>
    if v.startTS = startTS then commitTS
    else
      match (s.versions key).entries.reverse.find? fun e => e.2.startTS = startTS with
      | some e => e.1
      | none => 0

def checkConflictInLockStore (m : Mutation) (startTS : ℕ) : Outcome KvError (Option Lock) :=
  match s.getLock m.key with
  | none => .ok none
  | some lock => if lock.startTS = startTS then .ok (some lock) else .error (.locked m.key lock)

end Store

/-! ## Prewrite -/

section Prewrite

variable (encodeFromOldRow : Bytes → Except Err Bytes)

def isRowKey (key : Bytes) : Bool :=
  decide (19 ≤ key.length) && key.head? == some 116 && key[10]? == some 114

/-- The value that a mutation locks: a row in the old format is encoded in the new one. -/
def lockValue (m : Mutation) : Outcome KvError Bytes :=
  if isRowKey m.key ∧ (m.op = .put ∨ m.op = .insert) then
    match m.value with
    | [] => .fault
    | b :: _ =>
      if b = 128 then .ok m.value
      else
        match encodeFromOldRow m.value with
        | .ok v => .ok v
        | .error e => .error (.other e)
  else .ok m.value

def lockOp : MutationOp → LockOp
  | .put => .put
  | .del => .del
  | .lock => .lock
  | .insert => .put
  -- no lock is built for it
  | .checkNotExists => .lock

def checkAssertion (req : PrewriteRequest) (m : Mutation) (item : Option (ℕ × Version)) : Outcome KvError Unit :=
  if req.assertionLevelOff then .ok ()
  else
    match item with
    | none => if m.assertion = .exist then .error (.assertionFailed req.startVersion m.key m.assertion 0 0) else .ok ()
    | some (commitTS, v) =>
      if v.value = [] then
        if m.assertion = .exist then .error (.assertionFailed req.startVersion m.key m.assertion 0 0) else .ok ()
      else if m.assertion = .notExist then
        .error (.assertionFailed req.startVersion m.key m.assertion v.startTS commitTS)
      else .ok ()

def buildPrewriteLock (m : Mutation) (item : Option (ℕ × Version)) (req : PrewriteRequest) : Outcome KvError Lock := do
  checkAssertion req m item
  if m.op = .insert ∧ (item.map fun e => e.2.value.length).getD 0 > 0 then .error (.keyAlreadyExists m.key)
  else do
    let value ← lockValue encodeFromOldRow m
    .ok { startTS := req.startVersion
          forUpdateTS := req.forUpdateTs
          minCommitTS := req.minCommitTs
          ttl := req.lockTtl % 2 ^ 32
          op := lockOp m.op
          useAsyncCommit := req.useAsyncCommit
          primary := req.primaryLock
          value := value
          secondaries := req.secondaries }

def lockMutations (s : Store) (req : PrewriteRequest) (entries : Bytes → Lock → List Entry) :
    List Mutation → Outcome KvError (List Entry)
  | [] => .ok []
  | m :: ms =>
    if m.op = .checkNotExists then lockMutations s req entries ms
    else do
      let lock ← buildPrewriteLock encodeFromOldRow m (s.newest m.key) req
      let rest ← lockMutations s req entries ms
      .ok (entries m.key lock ++ rest)

/-- The minimal commit timestamp for async commit and for one phase, which the placement driver gives as `pd`. -/
def getMinCommitTS (req : PrewriteRequest) (pd : Except KvError ℕ) : Outcome KvError ℕ :=
  if req.useAsyncCommit ∨ req.tryOnePc then
    match pd with
    | .ok ts => .ok ts
    | .error e => .error e
  else .ok 0

def prewriteMutations (s : Store) (mutations : List Mutation) (req : PrewriteRequest) (pd : Except KvError ℕ) :
    Result := do
  let minCommitTS ← getMinCommitTS req pd
  let late := decide ((req.useAsyncCommit ∨ req.tryOnePc) ∧ 0 < req.maxCommitTs ∧ req.maxCommitTs < minCommitTS)
  let useAsyncCommit := req.useAsyncCommit && !late
  let tryOnePc := req.tryOnePc && !late
  let req := { req with
    useAsyncCommit := useAsyncCommit
    tryOnePc := tryOnePc
    minCommitTs := if useAsyncCommit && decide (req.minCommitTs < minCommitTS) then minCommitTS else req.minCommitTs }
  let asyncMinCommitTS := if useAsyncCommit then minCommitTS else 0
  if tryOnePc then
    -- 1pc commitTS less than startTS
    if minCommitTS < req.startVersion then .fault
    else do
      let batch ← lockMutations encodeFromOldRow s req (commitEntries req.startVersion minCommitTS) mutations
      .ok (batch, .prewritten asyncMinCommitTS minCommitTS)
  else do
    let batch ← lockMutations encodeFromOldRow s req (fun key lock => [.lock key lock]) mutations
    .ok (batch, .prewritten asyncMinCommitTS 0)

/-- Must check the LockStore first; the answer is true for a duplicated command. -/
def optimisticLocks (s : Store) (req : PrewriteRequest) : List Mutation → Outcome KvError Bool
  | [] => .ok false
  | m :: ms => do
    let lock ← s.checkConflictInLockStore m req.startVersion
    if lock.isSome then .ok true
    else if m.key = req.primaryLock then
      let status := s.checkExtraTxnStatus m.key req.startVersion
      if status.isRollback then .error errAlreadyRollback
      else if status.isOpLockCommitted then .ok true
      else optimisticLocks s req ms
    else optimisticLocks s req ms

def optimisticItems (s : Store) (req : PrewriteRequest) : List Mutation → Outcome KvError Unit
  | [] => .ok ()
  | m :: ms =>
    match s.newest m.key with
    | none => optimisticItems s req ms
    | some (commitTS, v) =>
      if req.startVersion < commitTS then
        .error (.conflict req.startVersion v.startTS commitTS m.key .optimistic)
      -- Op_CheckNotExists type requests should not add lock
      else if m.op = .checkNotExists ∧ v.value ≠ [] then .error (.keyAlreadyExists m.key)
      else optimisticItems s req ms

def prewriteOptimistic (s : Store) (mutations : List Mutation) (req : PrewriteRequest) (pd : Except KvError ℕ) :
    Result := do
  let dup ← optimisticLocks s req mutations
  if dup then .ok ([], .prewritten 0 0)
  else do
    optimisticItems s req mutations
    prewriteMutations encodeFromOldRow s mutations req pd

/-- The loop over the mutations; it returns nothing for a duplicated command, else the request with the time to
live of the pessimistic locks. -/
def pessimisticLocks (s : Store) (req : PrewriteRequest) : List Mutation → Outcome KvError (Option PrewriteRequest)
  | [] => .ok (some req)
  | m :: ms =>
    if m.op = .checkNotExists then .error (.invalidOp m.op)
    else
      match m.action with
      | .doPessimisticCheck =>
        match s.getLock m.key with
        | none => .error (.other (.new "pessimistic lock not found"))
        | some lock =>
          if lock.startTS ≠ req.startVersion then .error (.other (.new "pessimistic lock not found"))
          else if lock.op ≠ .pessimisticLock then .ok none
          -- Do not overwrite lock ttl if prewrite ttl smaller than pessimisitc lock ttl
          else pessimisticLocks s { req with lockTtl := max req.lockTtl lock.ttl } ms
      | .doConstraintCheck =>
        match s.newest m.key with
        | none => pessimisticLocks s req ms
        | some (commitTS, v) =>
          if req.startVersion < commitTS then
            .error (.conflict req.startVersion v.startTS commitTS m.key .lazyUniquenessCheck)
          else pessimisticLocks s req ms
      | .skipPessimisticCheck =>
        -- non pessimistic lock in pessimistic transaction, e.g. non-unique index.
        match s.getLock m.key with
        | none => pessimisticLocks s req ms
        | some lock =>
          if lock.startTS ≠ req.startVersion then .error (.locked m.key { lock with ttl := 0 }) else .ok none

def prewritePessimistic (s : Store) (mutations : List Mutation) (req : PrewriteRequest) (pd : Except KvError ℕ) :
    Result := do
  match ← pessimisticLocks s req mutations with
  | none => .ok ([], .prewritten 0 0)
  | some req => prewriteMutations encodeFromOldRow s mutations req pd

def prewrite (s : Store) (req : PrewriteRequest) (pd : Except KvError ℕ) : Result :=
  if 0 < req.forUpdateTs then prewritePessimistic encodeFromOldRow s (sortMutations req.mutations) req pd
  else prewriteOptimistic encodeFromOldRow s (sortMutations req.mutations) req pd

end Prewrite

/-! ## Pessimistic locks -/

/-- The answer is true for a duplicate command, where we can simply return values. -/
def checkPessimisticDup (req : PessimisticLockRequest) : Option Lock → Outcome KvError Bool
  | none => .ok false
  | some lock =>
    if lock.op ≠ .pessimisticLock then .error (.other (.new "lock type not match"))
    else .ok (decide (req.forUpdateTs ≤ lock.forUpdateTS))

def pessimisticConflicts (s : Store) (req : PessimisticLockRequest) : List Mutation → Outcome KvError Bool
  | [] => .ok false
  | m :: ms => do
    let lock ← s.checkConflictInLockStore m req.startVersion
    let dup ← checkPessimisticDup req lock
    if dup then .ok true
    else if m.key = req.primaryLock then
      let status := s.checkExtraTxnStatus m.key req.startVersion
      if status.isRollback then .error errAlreadyRollback
      else if status.isOpLockCommitted then .ok true
      else pessimisticConflicts s req ms
    else pessimisticConflicts s req ms

def doesNeedLock (item : Option (ℕ × Version)) (req : PessimisticLockRequest) : Bool :=
  if req.lockOnlyIfExists then
    match item with
    | none => false
    | some (_, v) => !v.value.isEmpty
  else true

def checkPessimisticItem (m : Mutation) (item : Option (ℕ × Version)) (req : PessimisticLockRequest) :
    Outcome KvError Unit :=
  match item with
  | none => .ok ()
  | some (commitTS, v) =>
    if !req.force ∧ req.forUpdateTs < commitTS then
      .error (.conflict req.startVersion v.startTS commitTS m.key .pessimisticRetry)
    else if m.assertion = .notExist ∧ v.value ≠ [] then .error (.keyAlreadyExists m.key)
    else .ok ()

def buildPessimisticLock (m : Mutation) (item : Option (ℕ × Version)) (req : PessimisticLockRequest) :
    Outcome KvError (Option Lock) := do
  checkPessimisticItem m item req
  if doesNeedLock item req then
    .ok (some { startTS := req.startVersion
                forUpdateTS := req.forUpdateTs
                minCommitTS := 0
                ttl := req.lockTtl % 2 ^ 32
                op := .pessimisticLock
                useAsyncCommit := false
                primary := req.primaryLock
                value := []
                secondaries := [] })
  else .ok none

def buildPessimisticLocks (s : Store) (req : PessimisticLockRequest) : List Mutation → Outcome KvError (List Entry)
  | [] => .ok []
  | m :: ms => do
    let lock ← buildPessimisticLock m (s.newest m.key) req
    let rest ← buildPessimisticLocks s req ms
    .ok ((lock.map (Entry.lock m.key)).toList ++ rest)

def pessimisticLock (s : Store) (req : PessimisticLockRequest) : Result := do
  let mutations := if req.returnValues then req.mutations else sortMutations req.mutations
  if req.lockOnlyIfExists ∧ !req.returnValues then
    .error (.other (.new "LockOnlyIfExists is set for LockKeys but ReturnValues is not set"))
  else do
    let dup ← pessimisticConflicts s req mutations
    if dup then .ok ([], .done)
    else do
      let batch ← buildPessimisticLocks s req mutations
      .ok (batch, .done)

def pessimisticRollbackKey (s : Store) (startTS forUpdateTs : ℕ) (key : Bytes) : List Entry :=
  match s.getLock key with
  | none => []
  | some lock =>
    if lock.op = .pessimisticLock ∧ lock.startTS = startTS ∧ lock.forUpdateTS ≤ forUpdateTs then [.unlock key]
    else []

def pessimisticRollback (s : Store) (keys : List Bytes) (startTS forUpdateTs : ℕ) : Result :=
  .ok ((sortKeys keys).flatMap (pessimisticRollbackKey s startTS forUpdateTs), .done)

def txnHeartBeat (s : Store) (primaryLock : Bytes) (startVersion adviseLockTtl : ℕ) : Result :=
  match s.getLock primaryLock with
  | none => .error (.other (.new "lock doesn't exists"))
  | some lock =>
    if lock.startTS ≠ startVersion then .error (.other (.new "lock doesn't exists"))
    else if lock.primary ≠ primaryLock then .error (.other (.new "heartbeat on non-primary key"))
    else if lock.ttl < adviseLockTtl % 2 ^ 32 then
      .ok ([.lock primaryLock { lock with ttl := adviseLockTtl % 2 ^ 32 }], .ttl (adviseLockTtl % 2 ^ 32))
    else .ok ([], .ttl lock.ttl)

/-! ## The status of a transaction -/

def checkLockedTxn (req : CheckTxnStatusRequest) (lock : Lock) : Result :=
  if req.primaryKey ≠ lock.primary then .error (.primaryMismatch req.primaryKey lock)
  -- For an async-commit lock, never roll it back or push forward it MinCommitTS.
  else if lock.useAsyncCommit ∧ !req.forceSyncCommit then .ok ([], .txnStatus ⟨0, .noAction, some lock⟩)
  -- If the lock has already outdated, clean up it.
  else if expired lock req.currentTs then
    if req.resolvingPessimisticLock ∧ lock.op = .pessimisticLock then
      .ok ([.unlock req.primaryKey], .txnStatus ⟨0, .ttlExpirePessimisticRollback, none⟩)
    else .ok (rollbackEntries req.lockTs req.primaryKey true, .txnStatus ⟨0, .ttlExpireRollback, none⟩)
  else if req.callerStartTs = maxSystemTS then .ok ([], .txnStatus ⟨0, .minCommitTSPushed, some lock⟩)
  -- If this is a large transaction and the lock is active, push forward the minCommitTS.
  else if 0 < lock.minCommitTS ∧ !lock.useAsyncCommit then
    -- We *must* guarantee the invariance lock.minCommitTS >= callerStartTS + 1
    if lock.minCommitTS < req.callerStartTs + 1 then
      let pushed := { lock with minCommitTS := max (req.callerStartTs + 1) req.currentTs }
      .ok ([.lock req.primaryKey pushed], .txnStatus ⟨0, .minCommitTSPushed, some pushed⟩)
    else .ok ([], .txnStatus ⟨0, .minCommitTSPushed, some lock⟩)
  else .ok ([], .txnStatus ⟨0, .noAction, some lock⟩)

def checkUnlockedTxn (s : Store) (req : CheckTxnStatusRequest) : Result :=
  let commitTS := s.checkCommitted req.primaryKey req.lockTs
  if 0 < commitTS then .ok ([], .txnStatus ⟨commitTS, .noAction, none⟩)
  else
    -- Check if the transaction already rollbacked
    let status := s.checkExtraTxnStatus req.primaryKey req.lockTs
    if status.isRollback then .ok ([], .txnStatus ⟨0, .noAction, none⟩)
    else if status.isOpLockCommitted then .ok ([], .txnStatus ⟨status.commitTS, .noAction, none⟩)
    else if req.rollbackIfNotExist then
      if req.resolvingPessimisticLock then .ok ([], .txnStatus ⟨0, .lockNotExistDoNothing, none⟩)
      else .ok (rollbackEntries req.lockTs req.primaryKey false, .txnStatus ⟨0, .lockNotExistRollback, none⟩)
    else .error (.txnNotFound req.primaryKey req.lockTs)

def checkTxnStatus (s : Store) (req : CheckTxnStatusRequest) : Result :=
  match s.getLock req.primaryKey with
  | some lock => if lock.startTS = req.lockTs then checkLockedTxn req lock else checkUnlockedTxn s req
  | none => checkUnlockedTxn s req

def checkUnlockedSecondary (s : Store) (key : Bytes) (startTS : ℕ) : List Entry × Reply :=
  let commitTS := s.checkCommitted key startTS
  if 0 < commitTS then ([], .secondaryLocks ⟨[], commitTS⟩)
  else
    let status := s.checkExtraTxnStatus key startTS
    if status.isOpLockCommitted then ([], .secondaryLocks ⟨[], status.commitTS⟩)
    else if status.isRollback then ([], .secondaryLocks ⟨[], 0⟩)
    else (rollbackEntries startTS key false, .secondaryLocks ⟨[], 0⟩)

def checkSecondaries (s : Store) (startTS : ℕ) : List Bytes → List (Bytes × Lock) → List Entry × Reply
  | [], locks => ([], .secondaryLocks ⟨locks, 0⟩)
  | key :: keys, locks =>
    match s.getLock key with
    | some lock =>
      if lock.startTS = startTS then
        if lock.op = .pessimisticLock then (rollbackEntries startTS key true, .secondaryLocks ⟨[], 0⟩)
        else checkSecondaries s startTS keys (locks ++ [(key, lock)])
      else checkUnlockedSecondary s key startTS
    | none => checkUnlockedSecondary s key startTS

def checkSecondaryLocks (s : Store) (keys : List Bytes) (startTS : ℕ) : Result :=
  .ok (checkSecondaries s startTS (sortKeys keys) [])

/-! ## Commit -/

/-- Already committed, as far as the version at the commit timestamp says. -/
def handleLockNotFound (s : Store) (key : Bytes) (startTS commitTS : ℕ) : Bool :=
  match s.newestAt key commitTS with
  | none => false
  | some (_, v) => decide (v.startTS = startTS)

def commitKeys (s : Store) (startTS commitTS : ℕ) : List Bytes → Outcome KvError (List Entry)
  | [] => .ok []
  | key :: keys =>
    match s.getLock key with
    | none =>
      if handleLockNotFound s key startTS commitTS then commitKeys s startTS commitTS keys
      else .error errLockNotFound
    | some lock =>
      if lock.startTS ≠ startTS then
        if handleLockNotFound s key startTS commitTS then commitKeys s startTS commitTS keys
        else .error errReplaced
      else if commitTS < lock.minCommitTS then .error (.commitExpire startTS commitTS lock.minCommitTS key)
      else do
        let rest ← commitKeys s startTS commitTS keys
        .ok (commitEntries startTS commitTS key lock ++ rest)

def commit (s : Store) (keys : List Bytes) (startTS commitTS : ℕ) : Result := do
  let batch ← commitKeys s startTS commitTS (sortKeys keys)
  .ok (batch, .done)

def inRegion (rawStart rawEnd key : Bytes) : Bool :=
  (compare rawStart key).isLE && (rawEnd.isEmpty || (compare key rawEnd).isLT)

def resolveKeys (s : Store) (rawStart rawEnd : Bytes) (lockKeys : List Bytes) (startTS : ℕ) : List Bytes :=
  if lockKeys = [] then
    (s.locks.entries.filter fun e => inRegion rawStart rawEnd e.1 && decide (e.2.startTS = startTS)).map Prod.fst
  else lockKeys

def resolveKey (s : Store) (startTS commitTS : ℕ) (key : Bytes) : List Entry :=
  match s.getLock key with
  | none => []
  | some lock =>
    if lock.startTS ≠ startTS then []
    else if 0 < commitTS then commitEntries startTS commitTS key lock
    else rollbackEntries startTS key true

def resolveLock (s : Store) (rawStart rawEnd : Bytes) (lockKeys : List Bytes) (startTS commitTS : ℕ) : Result :=
  .ok ((resolveKeys s rawStart rawEnd lockKeys startTS).flatMap (resolveKey s startTS commitTS), .done)

/-! ## Rollback -/

inductive RollbackStatus where
  | done
  | noLock
  | newLock
  deriving DecidableEq, Repr

def rollbackKeyReadLock (s : Store) (key : Bytes) (startTS currentTs : ℕ) :
    Outcome KvError (List Entry × RollbackStatus) :=
  match s.getLock key with
  | none => .ok ([], .noLock)
  | some lock =>
    -- The lock is old, means this is written by an old transaction, and the current transaction may not arrive.
    -- We should write a rollback lock.
    if lock.startTS < startTS then .ok (rollbackEntries startTS key false, .done)
    else if lock.startTS = startTS then
      if 0 < currentTs ∧ !expired lock currentTs then .error (.locked key lock)
      -- We can not simply delete the lock because the prewrite may be sent multiple times.
      else .ok (rollbackEntries startTS key true, .done)
    -- go to DB to check if the key is committed.
    else .ok ([], .newLock)

def rollbackKeyReadDB (s : Store) (key : Bytes) (startTS : ℕ) : Outcome KvError (List Entry) :=
  let commitTS := s.checkCommitted key startTS
  if commitTS ≠ 0 then .error (.alreadyCommitted commitTS)
  -- commit not found, rollback this key
  else .ok (rollbackEntries startTS key false)

def rollbackReadLocks (s : Store) (startTS : ℕ) : List Bytes → Outcome KvError (List Entry × List Bytes)
  | [] => .ok ([], [])
  | key :: keys => do
    let (batch, status) ← rollbackKeyReadLock s key startTS 0
    let (rest, toRead) ← rollbackReadLocks s startTS keys
    .ok (batch ++ rest, if status = .done then toRead else key :: toRead)

def rollbackReadDBs (s : Store) (startTS : ℕ) : List Bytes → Outcome KvError (List Entry)
  | [] => .ok []
  | key :: keys => do
    let batch ← rollbackKeyReadDB s key startTS
    let rest ← rollbackReadDBs s startTS keys
    .ok (batch ++ rest)

def rollback (s : Store) (keys : List Bytes) (startTS : ℕ) : Result := do
  let (batch, toRead) ← rollbackReadLocks s startTS (sortKeys keys)
  let rest ← rollbackReadDBs s startTS toRead
  .ok (batch ++ rest, .done)

def cleanup (s : Store) (key : Bytes) (startTS currentTs : ℕ) : Result := do
  let (batch, status) ← rollbackKeyReadLock s key startTS currentTs
  if status = .done then .ok (batch, .done)
  else do
    let rest ← rollbackKeyReadDB s key startTS
    let rbStatus := s.checkExtraTxnStatus key startTS
    if rbStatus.isOpLockCommitted then .error (.alreadyCommitted rbStatus.commitTS)
    else .ok (batch ++ rest, .done)

/-! ## Reads -/

def getValueFromLock (lock : Lock) : Option Bytes := if lock.op = .put then some lock.value else none

/-- The lock itself where its transaction is known to be committed. -/
def checkLock (lock : Lock) (key : Bytes) (startTS : ℕ) (resolved committed : List ℕ) : Outcome KvError (Option Lock) :=
  if lock.startTS ∈ resolved then .ok none
  else
    let lockVisible := lock.startTS ≤ startTS
    let isWriteLock := lock.op = .put ∨ lock.op = .del
    let isPrimaryGet := startTS = maxSystemTS ∧ lock.primary = key ∧ !lock.useAsyncCommit
    if lockVisible ∧ isWriteLock ∧ ¬ isPrimaryGet then
      if lock.startTS ∈ committed then .ok (some lock) else .error (.locked key lock)
    else .ok none

def checkKeyLock (s : Store) (key : Bytes) (startTS : ℕ) (resolved committed : List ℕ) :
    Outcome KvError (Option Lock) :=
  match s.getLock key with
  | none => .ok none
  | some lock => checkLock lock key startTS resolved committed

/-- `Get` under snapshot isolation; nothing where the key has no version. -/
def get (s : Store) (key : Bytes) (version : ℕ) (resolved committed : List ℕ) : Outcome KvError (Option Bytes) := do
  match ← checkKeyLock s key version resolved committed with
  | some lock => .ok (getValueFromLock lock)
  | none => .ok ((s.newestAt key version).map fun e => e.2.value)

/-! ## Runs -/

inductive Request where
  | prewrite (req : PrewriteRequest) (pd : Except KvError ℕ)
  | pessimisticLock (req : PessimisticLockRequest)
  | pessimisticRollback (keys : List Bytes) (startTS forUpdateTs : ℕ)
  | txnHeartBeat (primaryLock : Bytes) (startVersion adviseLockTtl : ℕ)
  | checkTxnStatus (req : CheckTxnStatusRequest)
  | checkSecondaryLocks (keys : List Bytes) (startTS : ℕ)
  | commit (keys : List Bytes) (startTS commitTS : ℕ)
  | rollback (keys : List Bytes) (startTS : ℕ)
  | cleanup (key : Bytes) (startTS currentTs : ℕ)
  | resolveLock (rawStart rawEnd : Bytes) (lockKeys : List Bytes) (startTS commitTS : ℕ)

variable (encodeFromOldRow : Bytes → Except Err Bytes)

def handle (s : Store) : Request → Result
  | .prewrite req pd => prewrite encodeFromOldRow s req pd
  | .pessimisticLock req => pessimisticLock s req
  | .pessimisticRollback keys startTS forUpdateTs => pessimisticRollback s keys startTS forUpdateTs
  | .txnHeartBeat primaryLock startVersion adviseLockTtl => txnHeartBeat s primaryLock startVersion adviseLockTtl
  | .checkTxnStatus req => checkTxnStatus s req
  | .checkSecondaryLocks keys startTS => checkSecondaryLocks s keys startTS
  | .commit keys startTS commitTS => commit s keys startTS commitTS
  | .rollback keys startTS => rollback s keys startTS
  | .cleanup key startTS currentTs => cleanup s key startTS currentTs
  | .resolveLock rawStart rawEnd lockKeys startTS commitTS => resolveLock s rawStart rawEnd lockKeys startTS commitTS

def exec (s : Store) (r : Request) : Store :=
  match handle encodeFromOldRow s r with
  | .ok (batch, _) => s.write batch
  | .error _ => s
  | .fault => s

end Unistore
