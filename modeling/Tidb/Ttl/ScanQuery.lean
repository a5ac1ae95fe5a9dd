import Tidb.Lib.SortedCut

/-!
# Queries of a TTL scan task

A scan task reads the keys of expired rows in batches.  Each query continues behind the last key: the columns but the
last are fixed and the last is greater.  A batch that is not full ends the fixed columns, and the query goes on with
one column less.
-/

namespace Ttl

variable {D R : Type} [LinearOrder R]

inductive Op where
  | eq
  | ge
  | gt
  | lt
  deriving DecidableEq, Repr

structure Cond (D : Type) where
  offset : ℕ
  op : Op
  vals : List D
  deriving DecidableEq, Repr

/-- A select of the key columns with conditions and the expire condition, ordered by the key columns, with a limit. -/
structure Query (D : Type) where
  conds : List (Cond D)
  limit : ℤ
  deriving DecidableEq, Repr

inductive Err where
  /-- generator is exhausted -/
  | exhausted
  /-- invalid limit '%d' -/
  | invalidLimit (limit : ℤ)
  /-- invalid key length: %d, expected %d -/
  | invalidKeyLength (length expected : ℕ)
  deriving DecidableEq, Repr

structure ScanQueryGenerator (D : Type) where
  keyColumns : ℕ
  keyRangeStart : Option (List D)
  keyRangeEnd : List D
  stack : List (List D)
  limit : ℤ
  firstBuild : Bool
  exhausted : Bool

def validateKeyPrefix (keyColumns : ℕ) (key : List D) : Except Err Unit :=
  if key.length > keyColumns then .error (.invalidKeyLength key.length keyColumns) else .ok ()

def newScanQueryGenerator (keyColumns : ℕ) (rangeStart : Option (List D)) (rangeEnd : List D) :
    Except Err (ScanQueryGenerator D) := do
  validateKeyPrefix keyColumns (rangeStart.getD [])
  validateKeyPrefix keyColumns rangeEnd
  .ok ⟨keyColumns, rangeStart, rangeEnd, [], 0, true, false⟩

def prefixes (key : List D) : List (List D) := (List.range key.length).map fun i => key.take (i + 1)

namespace ScanQueryGenerator

variable (g : ScanQueryGenerator D)

def setStack (key : Option (List D)) : Except Err (ScanQueryGenerator D) :=
  match key.or g.keyRangeStart with
  | none => .ok { g with stack := [] }
  | some key =>
    match validateKeyPrefix g.keyColumns key with
    | .error err => .error err
    | .ok () => .ok { g with stack := prefixes key }

def stackCond (d : D) (i : ℕ) : Cond D :=
  if i < g.stack.length - 1 then ⟨i, .eq, [d]⟩
  -- the range is defined as [start, end), the rows include the start key
  else if g.firstBuild then ⟨i, .ge, [d]⟩
  -- continuing with the previous result, exclude the previous row
  else ⟨i, .gt, [d]⟩

def stackConds : List (Cond D) :=
  match g.stack.getLast? with
  | none => []
  | some key => key.zipIdx.map fun d => g.stackCond d.1 d.2

def endConds : List (Cond D) := if 0 < g.keyRangeEnd.length then [⟨0, .lt, g.keyRangeEnd⟩] else []

def buildSQL : Except Err (Option (Query D)) :=
  if g.limit ≤ 0 then .error (.invalidLimit g.limit)
  else if g.exhausted then .ok none
  else .ok (some ⟨g.stackConds ++ g.endConds, g.limit⟩)

def advance (continueFromResult : List (List D)) : Except Err (ScanQueryGenerator D) :=
  if g.limit ≤ continueFromResult.length then g.setStack continueFromResult.getLast?
  else
    let stack := g.stack.dropLast
    .ok { g with stack := stack, exhausted := stack.isEmpty }

def nextSQL (continueFromResult : List (List D)) (nextLimit : ℤ) :
    Except Err (Option (Query D) × ScanQueryGenerator D) :=
  if g.exhausted then .error .exhausted
  else if nextLimit ≤ 0 then .error (.invalidLimit nextLimit)
  else
    match g.advance continueFromResult with
    | .error err => .error err
    | .ok g =>
      let g := { g with limit := nextLimit }
      match g.buildSQL with
      | .error err => .error err
      | .ok query => .ok (query, { g with firstBuild := false })

end ScanQueryGenerator

/-! ## Answers -/

def ranks (rank : ℕ → D → R) (key : List D) : List R := key.mapIdx rank

def Op.holds (op : Op) (a b : List R) : Bool :=
  match op with
  | .eq => a = b
  | .ge => b ≤ a
  | .gt => b < a
  | .lt => a < b

def Cond.holds (rank : ℕ → D → R) (key : List D) (cond : Cond D) : Bool :=
  cond.op.holds (((ranks rank key).drop cond.offset).take cond.vals.length)
    (cond.vals.mapIdx fun i d => rank (cond.offset + i) d)

def Query.answer (rank : ℕ → D → R) (expired : List D → Bool) (table : List (List D)) (query : Query D) :
    List (List D) :=
  (table.filter fun key => query.conds.all (Cond.holds rank key) && expired key).take query.limit.toNat

/-- The loop of a scan task: the `n`-th query is answered by the table as it is when some rows have been returned. -/
def doScan (rank : ℕ → D → R) (expired : List D → Bool) (table : ℕ → List (List D) → List (List D)) (limits : ℕ → ℤ) :
    ℕ → ℕ → ScanQueryGenerator D → List (List D) → List (List D) → Option (Except Err (List (List D)))
  | 0, _, _, _, _ => none
  | fuel + 1, n, g, lastResult, returned =>
    match g.nextSQL lastResult (limits n) with
    | .error err => some (.error err)
    | .ok (none, _) => some (.ok returned)
    | .ok (some query, g) =>
      let rows := query.answer rank expired (table n returned)
      doScan rank expired table limits fuel (n + 1) g rows (returned ++ rows)

end Ttl
