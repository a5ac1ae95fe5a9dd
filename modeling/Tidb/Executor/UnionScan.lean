import Tidb.Tablecodec.RowKey

/-!
# Union scan

The rows of a transaction's memory buffer are merged into those that a reader returns from its snapshot.  Rows are lists
of datums; what the executor does with one datum or one row goes through parameters: comparing two datums, the
handle of a row, virtual columns and conditions.
-/

namespace Executor

open Tidb Tidb.Kv Tidb.Tablecodec

variable {E D C : Type}

inductive Err (E : Type) where
  | panic
  | eval (err : E)
  deriving DecidableEq, Repr

def nth {α : Type} (l : List α) (i : ℕ) : Except (Err E) α :=
  match l[i]? with
  | some a => .ok a
  | none => .error .panic

structure DatumLib (E D C : Type) where
  compare : C → D → D → Except E ℤ
  getInt64 : D → Int64
  commonHandle : List D → Except E Handle
  evalVirtualColumn : ℕ → List D → Except E D
  castValue : ℕ → D → Except E D
  isNull : D → Bool
  zeroValue : ℕ → D

inductive HandleCols where
  | int (col : ℕ)
  | common (columns : List ℕ)

def HandleCols.columns : HandleCols → List ℕ
  | .int col => [col]
  | .common columns => columns

/-- The columns that a comparison of handles reads, each with the position of the collator it uses. -/
def HandleCols.compareColumns : HandleCols → List (ℕ × ℕ)
  | .int col => [(col, col)]
  | .common columns => columns.zipIdx

/-- Merges the rows from dirty table and the rows from distsql request. -/
structure UnionScan (E D C : Type) where
  lib : DatumLib E D C
  memBufSnap : Bytes → Bool
  usedIndex : List ℕ
  desc : Bool
  notNull : ℕ → Bool
  recordPrefix : Bytes
  belowHandleCols : HandleCols
  virtualColumnIndex : List ℕ
  cacheTable : Bool
  collators : List C
  physTblIDIdx : Option ℕ

structure State (D : Type) where
  addedRows : List (List D)
  cursor4AddRows : ℕ
  snapshotRows : List (List D)
  cursor4SnapshotRows : ℕ
  child : List (List (List D))

namespace UnionScan

variable (us : UnionScan E D C)

/-! ## Comparing rows -/

def compareColumns (a b : List D) : List (ℕ × ℕ) → Except (Err E) ℤ
  | [] => .ok 0
  | (colOff, ctor) :: cols => do
    let aColumn ← nth a colOff
    let bColumn ← nth b colOff
    let collator ← nth us.collators ctor
    let cmp ← (us.lib.compare collator aColumn bColumn).mapError .eval
    if cmp ≠ 0 then .ok cmp else compareColumns a b cols

def compare (a b : List D) : Except (Err E) ℤ := do
  let cmp ← us.compareColumns a b (us.usedIndex.map fun colOff => (colOff, colOff))
  if cmp ≠ 0 then .ok cmp else us.compareColumns a b us.belowHandleCols.compareColumns

def shouldPickFirstRow (a b : List D) : Except (Err E) Bool := do
  let addedCmpSrc ← us.compare a b
  .ok (if us.desc then decide (0 < addedCmpSrc) else decide (addedCmpSrc < 0))

/-! ## Rows of the snapshot -/

def buildHandle (row : List D) : Except (Err E) Handle :=
  match us.belowHandleCols with
  | .int col => do
    let d ← nth row col
    .ok (.int (us.lib.getInt64 d))
  | .common columns => do
    let datumBuf ← columns.mapM (nth row)
    (us.lib.commonHandle datumBuf).mapError .eval

def checkKey (row : List D) : Except (Err E) Bytes := do
  let snapshotHandle ← us.buildHandle row
  match us.physTblIDIdx with
  | some idx => do
    let tblID ← nth row idx
    .ok (encodeRowKeyWithHandle (us.lib.getInt64 tblID) snapshotHandle)
  | none => .ok (us.recordPrefix ++ snapshotHandle.encoded)

def keepRows : List (List D) → Except (Err E) (List (List D))
  | [] => .ok []
  | row :: rows => do
    let key ← us.checkKey row
    let kept ← keepRows rows
    .ok (if us.memBufSnap key then kept else row :: kept)

/-- Chunks are read until one has a row left; no row means that there is no more data. -/
def nextBatch : List (List (List D)) → Except (Err E) (List (List D) × List (List (List D)))
  | [] => .ok ([], [])
  | chunk :: chunks =>
    match chunk with
    | [] => .ok ([], chunks)
    | _ :: _ =>
      match us.keepRows chunk with
      | .error err => .error err
      | .ok [] => nextBatch chunks
      | .ok (row :: rows) => .ok (row :: rows, chunks)

def getSnapshotRow (s : State D) : Except (Err E) (Option (List D) × State D) :=
  -- from cache table, so the snapshot is nil
  if us.cacheTable then .ok (none, s)
  else
    match s.snapshotRows[s.cursor4SnapshotRows]? with
    | some row => .ok (some row, s)
    | none =>
      match us.nextBatch s.child with
      | .error err => .error err
      | .ok (rows, child) => .ok (rows.head?, { s with cursor4SnapshotRows := 0, snapshotRows := rows, child := child })

def getAddedRow (s : State D) : Option (List D) := s.addedRows[s.cursor4AddRows]?

def getOneRow (s : State D) : Except (Err E) (Option (List D) × State D) :=
  match us.getSnapshotRow s with
  | .error err => .error err
  | .ok (snapshotRow, s) =>
    match snapshotRow, getAddedRow s with
    | none, none => .ok (none, s)
    | some row, none => .ok (some row, { s with cursor4SnapshotRows := s.cursor4SnapshotRows + 1 })
    | none, some row => .ok (some row, { s with cursor4AddRows := s.cursor4AddRows + 1 })
    | some row, some added =>
      match us.shouldPickFirstRow row added with
      | .error err => .error err
      | .ok true => .ok (some row, { s with cursor4SnapshotRows := s.cursor4SnapshotRows + 1 })
      | .ok false => .ok (some added, { s with cursor4AddRows := s.cursor4AddRows + 1 })

/-! ## Next -/

def virtualDatum (row : List D) (idx : ℕ) : Except (Err E) D := do
  let datum ← (us.lib.evalVirtualColumn idx row).mapError .eval
  let castDatum ← (us.lib.castValue idx datum).mapError .eval
  -- handle the bad null error
  .ok (if us.notNull idx && us.lib.isNull castDatum then us.lib.zeroValue idx else castDatum)

def fillVirtual (row : List D) : Except (Err E) (List D) :=
  us.virtualColumnIndex.foldlM (fun row idx => do
    let datum ← us.virtualDatum row idx
    .ok (row.set idx datum)) row

variable (conditionsWithVirCol : List D → Except E Bool)

def resultRow (row : List D) : Except (Err E) (Option (List D)) := do
  let row ← us.fillVirtual row
  let matched ← (conditionsWithVirCol row).mapError .eval
  .ok (if matched then some row else none)

def nextLoop (batchSize : ℕ) : ℕ → State D → List (List D) → Option (Except (Err E) (List (List D) × State D))
  | 0, _, _ => none
  | fuel + 1, s, req =>
    if req.length < batchSize then
      match us.getOneRow s with
      | .error err => some (.error err)
      -- no more data
      | .ok (none, s) => some (.ok (req, s))
      | .ok (some row, s) =>
        match us.resultRow conditionsWithVirCol row with
        | .error err => some (.error err)
        | .ok result => nextLoop batchSize fuel s (req ++ result.toList)
    else some (.ok (req, s))

def next (fuel capacity : ℕ) (s : State D) : Option (Except (Err E) (List (List D) × State D)) :=
  us.nextLoop conditionsWithVirCol capacity fuel s []

/-- `Next` is called, with requests of some capacities, until it returns no row. -/
def drain (fuel : ℕ) : ℕ → (ℕ → ℕ) → State D → Option (Except (Err E) (List (List D)))
  | 0, _, _ => none
  | calls + 1, capacities, s =>
    match us.next conditionsWithVirCol fuel (capacities 0) s with
    | none => none
    | some (.error err) => some (.error err)
    | some (.ok ([], _)) => some (.ok [])
    | some (.ok (rows, s)) => (drain fuel calls (fun n => capacities (n + 1)) s).map (·.map (rows ++ ·))

end UnionScan

end Executor
