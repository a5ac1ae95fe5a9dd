import Mathlib.Data.List.AList
import Tidb.Lib.Worklist
import Tidb.Util.StringUtil

/-!
# The privilege cache

The records of the privilege tables, the graph of granted roles, and the privileges of an account with its roles.
Accounts are strings of bytes; the functions of the Go library they go through are parameters.
-/

namespace Privilege

open StringUtil

abbrev Bytes : Type := List UInt8

abbrev PrivilegeType : Type := BitVec 64

def usagePriv : PrivilegeType := 1

def atSign : UInt8 := 0x40

def anyHost : Bytes := [0x25]

def localhost : Bytes := [0x6C, 0x6F, 0x63, 0x61, 0x6C, 0x68, 0x6F, 0x73, 0x74]

structure GoLib where
  /-- `net.ParseIP(s).To4()` -/
  parseIPv4 : Bytes → Option (BitVec 32)
  /-- `net.ParseIP(s).IsLoopback()` -/
  isLoopback : Bytes → Bool
  /-- `strings.ToUpper` -/
  toUpper : Bytes → Bytes
  /-- `strings.EqualFold` -/
  equalFold : Bytes → Bytes → Bool
  /-- The order in which `range` gives the values of a map, when it does so for the `n`-th time. -/
  rangeOrder {α : Type} : ℕ → List α → List α
  rangeOrder_perm {α : Type} (n : ℕ) (l : List α) : (rangeOrder n l).Perm l

variable (lib : GoLib)

/-! ## Records -/

structure BaseRecord where
  host : Bytes
  user : Bytes
  deriving DecidableEq

def parseHostIPNet (s : Bytes) : Option (BitVec 32 × BitVec 32) := do
  let i ← s.findIdx? (· == 0x2F)
  let hostIP ← lib.parseIPv4 (s.take i)
  let mask ← lib.parseIPv4 (s.drop (i + 1))
  if hostIP = hostIP &&& mask then some (hostIP, mask) else none

namespace BaseRecord

variable (record : BaseRecord)

def patChars : List (ℕ × PatType) := compilePatternInner record.host 0x5C

def hostMatch (s : Bytes) : Bool :=
  match parseHostIPNet lib record.host with
  | none => record.host == localhost && lib.isLoopback s
  | some (ip, mask) =>
    match lib.parseIPv4 s with
    | none => false
    | some s => s &&& mask == ip &&& mask

def isMatch (user host : Bytes) : Bool :=
  record.user == user && (doMatchBytes host record.patChars || record.hostMatch lib host)

end BaseRecord

structure UserRecord extends BaseRecord where
  privileges : PrivilegeType

structure DbRecord extends BaseRecord where
  db : Bytes
  privileges : PrivilegeType

def DbRecord.isMatch (record : DbRecord) (user host db : Bytes) : Bool :=
  record.toBaseRecord.isMatch lib user host &&
    doMatchBytes (lib.toUpper db) (compilePatternInner (lib.toUpper record.db) 0x5C)

structure TablesPrivRecord extends BaseRecord where
  db : Bytes
  tableName : Bytes
  tablePriv : PrivilegeType
  columnPriv : PrivilegeType

def TablesPrivRecord.isMatch (record : TablesPrivRecord) (user host db table : Bytes) : Bool :=
  record.toBaseRecord.isMatch lib user host && lib.equalFold record.db db && lib.equalFold record.tableName table

structure ColumnsPrivRecord extends BaseRecord where
  db : Bytes
  tableName : Bytes
  columnName : Bytes
  columnPriv : PrivilegeType

def ColumnsPrivRecord.isMatch (record : ColumnsPrivRecord) (user host db table col : Bytes) : Bool :=
  record.toBaseRecord.isMatch lib user host && lib.equalFold record.db db &&
    lib.equalFold record.tableName table && lib.equalFold record.columnName col

/-! ## The role graph -/

structure RoleIdentity where
  username : Bytes
  hostname : Bytes
  deriving DecidableEq

/-- Converts UserIdentity to the format user@host: "`%s`@`%s`". -/
def RoleIdentity.string (role : RoleIdentity) : Bytes :=
  [0x60] ++ role.username ++ [0x60, atSign, 0x60] ++ role.hostname ++ [0x60]

def RoleIdentity.key (role : RoleIdentity) : Bytes := role.username ++ [atSign] ++ role.hostname

abbrev RoleList : Type := AList fun _ : Bytes => RoleIdentity

abbrev RoleGraph : Type := AList fun _ : Bytes => RoleList

structure RoleEdge where
  fromUser : Bytes
  fromHost : Bytes
  toUser : Bytes
  toHost : Bytes

def RoleEdge.role (row : RoleEdge) : RoleIdentity := ⟨row.fromUser, row.fromHost⟩

def RoleEdge.account (row : RoleEdge) : RoleIdentity := ⟨row.toUser, row.toHost⟩

def RoleGraph.roleList (graph : RoleGraph) (key : Bytes) : RoleList := (graph.lookup key).getD ∅

def decodeRoleEdgesTable (graph : RoleGraph) (row : RoleEdge) : RoleGraph :=
  let fromKey := row.role.key
  let toKey := row.account.key
  graph.insert toKey ((graph.roleList toKey).insert fromKey row.role)

def loadRoleGraph (rows : List RoleEdge) : RoleGraph := rows.foldl decodeRoleEdgesTable ∅

def RoleList.find (roleList : RoleList) (user host : Bytes) : Bool :=
  let host := if host = [] then anyHost else host
  (roleList.lookup (RoleIdentity.key ⟨user, host⟩)).isSome

/-! ## The cache -/

structure MySQLPrivilege where
  userMap : Bytes → List UserRecord
  dbMap : Bytes → List DbRecord
  tablesPrivMap : Bytes → List TablesPrivRecord
  columnsPriv : List ColumnsPrivRecord
  roleGraph : RoleGraph

namespace MySQLPrivilege

variable (p : MySQLPrivilege)

def matchUser (user host : Bytes) : Option UserRecord := (p.userMap user).find? (·.isMatch lib user host)

def matchDB (user host db : Bytes) : Option DbRecord := (p.dbMap user).find? (·.isMatch lib user host db)

def matchTables (user host db table : Bytes) : Option TablesPrivRecord :=
  (p.tablesPrivMap user).find? (·.isMatch lib user host db table)

def matchColumns (user host db table column : Bytes) : Option ColumnsPrivRecord :=
  p.columnsPriv.find? (·.isMatch lib user host db table column)

def findRole (user host : Bytes) (role : RoleIdentity) : Bool :=
  match p.matchUser lib user host, p.matchUser lib role.username role.hostname with
  | some record, some _ =>
    (p.roleGraph.roleList (RoleIdentity.key ⟨record.user, record.host⟩)).find role.username role.hostname
  | _, _ => false

def grantedRoles (n : ℕ) (role : RoleIdentity) : List RoleIdentity :=
  lib.rangeOrder n ((p.roleGraph.roleList role.key).entries.map (·.2))

def findAllRole (fuel : ℕ) (activeRoles : List RoleIdentity) : Option (List RoleIdentity) :=
  Worklist.search RoleIdentity.string (p.grantedRoles lib) fuel activeRoles [] []

/-- Find all effective roles grant to this user. This method will filter out the roles that are not granted to the user
but are still in activeRoles -/
def findAllUserEffectiveRoles (fuel : ℕ) (user host : Bytes) (activeRoles : List RoleIdentity) :
    Option (List RoleIdentity) :=
  p.findAllRole lib fuel (activeRoles.filter (p.findRole lib user host))

def orPrivs (roleList : List RoleIdentity) (record : RoleIdentity → Option PrivilegeType) : PrivilegeType :=
  roleList.foldl (fun priv r => match record r with | some q => priv ||| q | none => priv) 0

def verifyRoles (roleList : List RoleIdentity) (db table column : Bytes) (priv : PrivilegeType) : Bool :=
  let userPriv := orPrivs roleList fun r => (p.matchUser lib r.username r.hostname).map (·.privileges)
  if 0 < userPriv &&& priv then true
  else
    let dbPriv := orPrivs roleList fun r => (p.matchDB lib r.username r.hostname db).map (·.privileges)
    if 0 < dbPriv &&& priv then true
    else
      let tablePriv := orPrivs roleList fun r => (p.matchTables lib r.username r.hostname db table).map (·.tablePriv)
      let columnPriv := orPrivs roleList fun r =>
        if column ≠ [] then (p.matchTables lib r.username r.hostname db table).map (·.columnPriv) else none
      if 0 < tablePriv &&& priv ∨ 0 < columnPriv &&& priv then true
      else
        let columnPriv := orPrivs roleList fun r =>
          (p.matchColumns lib r.username r.hostname db table column).map (·.columnPriv)
        if 0 < columnPriv &&& priv then true else priv == 0

def requestVerification (fuel : ℕ) (activeRoles : List RoleIdentity) (user host db table column : Bytes)
    (priv : PrivilegeType) : Option Bool :=
  if priv = usagePriv then some true
  else
    (p.findAllUserEffectiveRoles lib fuel user host activeRoles).map fun roleList =>
      p.verifyRoles lib (roleList ++ [⟨user, host⟩]) db table column priv

end MySQLPrivilege

end Privilege
