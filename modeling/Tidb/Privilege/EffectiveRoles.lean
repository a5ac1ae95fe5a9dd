import Tidb.Privilege.Cache

/-!
# Effective roles

The roles that are effective for an account are those reached by grants from its active roles, where
no two accounts are spelled alike.  A privilege is given only for a record of the account or of one
of them.
-/

namespace Privilege

open Relation List MySQLPrivilege

variable {lib : GoLib} {p : MySQLPrivilege} {rows : List RoleEdge} {user host : Bytes}
  {activeRoles : List RoleIdentity}

/-! ## Grants -/

def Grant (rows : List RoleEdge) (a b : RoleIdentity) : Prop :=
  ∃ row ∈ rows, row.account = a ∧ row.role = b

theorem roleList_decodeRoleEdgesTable (graph : RoleGraph) (row : RoleEdge) (key : Bytes) :
    (decodeRoleEdgesTable graph row).roleList key =
      if row.account.key = key then (graph.roleList row.account.key).insert row.role.key row.role
      else graph.roleList key := by
  unfold decodeRoleEdgesTable RoleGraph.roleList
  split_ifs with h
  · subst h
    rw [AList.lookup_insert, Option.getD_some]
  · rw [AList.lookup_insert_ne (Ne.symm h)]

theorem lookup_roleList (rows : List RoleEdge) (key roleKey : Bytes) :
    ((loadRoleGraph rows).roleList key).lookup roleKey =
      (rows.reverse.find? fun row => row.account.key = key ∧ row.role.key = roleKey).map
        (·.role) := by
  induction rows using reverseRecOn with
  | nil => rfl
  | append_singleton rows row ih =>
    have hload : loadRoleGraph (rows ++ [row]) = decodeRoleEdgesTable (loadRoleGraph rows) row := by
      rw [loadRoleGraph, foldl_append]
      rfl
    rw [hload, roleList_decodeRoleEdgesTable, reverse_append, reverse_singleton]
    by_cases hkey : row.account.key = key
    · subst hkey
      rw [if_pos rfl]
      by_cases hrole : row.role.key = roleKey
      · subst hrole
        simp
      · rw [AList.lookup_insert_ne (Ne.symm hrole), ih]
        simp [hrole]
    · rw [if_neg hkey, ih]
      simp [hkey]

theorem exists_row_of_lookup {key roleKey : Bytes} {r : RoleIdentity}
    (h : ((loadRoleGraph rows).roleList key).lookup roleKey = some r) :
    ∃ row ∈ rows, row.account.key = key ∧ row.role.key = roleKey ∧ row.role = r := by
  rw [lookup_roleList, Option.map_eq_some_iff] at h
  obtain ⟨row, hfind, hrow⟩ := h
  have hkeys := find?_some hfind
  rw [decide_eq_true_eq] at hkeys
  exact ⟨row, mem_reverse.mp (mem_of_find?_eq_some hfind), hkeys.1, hkeys.2, hrow⟩

theorem exists_lookup_of_mem {row : RoleEdge} (h : row ∈ rows) :
    ∃ r, ((loadRoleGraph rows).roleList row.account.key).lookup row.role.key = some r := by
  rw [← Option.isSome_iff_exists, lookup_roleList, Option.isSome_map, find?_isSome]
  exact ⟨row, mem_reverse.mpr h, decide_eq_true ⟨rfl, rfl⟩⟩

theorem mem_grantedRoles {n : ℕ} {a r : RoleIdentity} :
    r ∈ p.grantedRoles lib n a ↔ ∃ key, (p.roleGraph.roleList a.key).lookup key = some r := by
  unfold grantedRoles
  rw [(lib.rangeOrder_perm n _).mem_iff, mem_map]
  constructor
  · rintro ⟨⟨key, r'⟩, hmem, rfl⟩
    exact ⟨key, AList.mem_lookup_iff.mpr hmem⟩
  · rintro ⟨key, hlookup⟩
    exact ⟨⟨key, r⟩, AList.mem_lookup_iff.mp hlookup, rfl⟩

/-! ## Spelling -/

/-- No two accounts of the set are spelled alike. -/
structure Spelled (accounts : Set RoleIdentity) : Prop where
  key : Set.InjOn RoleIdentity.key accounts
  string : Set.InjOn RoleIdentity.string accounts

theorem append_at_inj {u u' h h' : Bytes} (hh : atSign ∉ h) (hh' : atSign ∉ h')
    (heq : u ++ atSign :: h = u' ++ atSign :: h') : u = u' ∧ h = h' := by
  rcases append_eq_append_iff.mp heq with ⟨c, rfl, hc⟩ | ⟨c, rfl, hc⟩
  · rcases cons_eq_append_iff.mp hc with ⟨rfl, hc⟩ | ⟨c, rfl, rfl⟩
    · simpa using hc
    · simp at hh
  · rcases cons_eq_append_iff.mp hc with ⟨rfl, hc⟩ | ⟨c, rfl, rfl⟩
    · simpa using hc.symm
    · simp at hh'

theorem spelled_of_not_mem {accounts : Set RoleIdentity} (h : ∀ a ∈ accounts, atSign ∉ a.hostname) :
    Spelled accounts := by
  constructor
  · rintro ⟨u, ho⟩ ha ⟨u', ho'⟩ ha' heq
    unfold RoleIdentity.key at heq
    rw [append_assoc, append_assoc] at heq
    obtain ⟨rfl, rfl⟩ := append_at_inj (h _ ha) (h _ ha') heq
    rfl
  · rintro ⟨u, ho⟩ ha ⟨u', ho'⟩ ha' heq
    have hno : ∀ {x : Bytes}, atSign ∉ x → atSign ∉ [0x60] ++ x ++ [0x60] := by
      intro x hx
      simpa [hx] using (by decide : atSign ≠ 0x60)
    have hsplit : ∀ a : RoleIdentity, a.string =
        ([0x60] ++ a.username ++ [0x60]) ++ atSign :: ([0x60] ++ a.hostname ++ [0x60]) := by
      simp [RoleIdentity.string]
    rw [hsplit, hsplit] at heq
    obtain ⟨husers, hhosts⟩ := append_at_inj (hno (h _ ha)) (hno (h _ ha')) heq
    obtain rfl : u = u' := by simpa using husers
    obtain rfl : ho = ho' := by simpa using hhosts
    rfl

/-! ## Reachable roles -/

/-- The role that is looked for: a role without a host is granted for any host. -/
def RoleIdentity.named (role : RoleIdentity) : RoleIdentity :=
  ⟨role.username, if role.hostname = [] then anyHost else role.hostname⟩

def MySQLPrivilege.IsAccount (p : MySQLPrivilege) (lib : GoLib) (user host : Bytes)
    (a : RoleIdentity) : Prop :=
  ∃ record, p.matchUser lib user host = some record ∧ a = ⟨record.user, record.host⟩

def MySQLPrivilege.GrantedDirectly (p : MySQLPrivilege) (lib : GoLib) (rows : List RoleEdge)
    (user host : Bytes) (role : RoleIdentity) : Prop :=
  (p.matchUser lib role.username role.hostname).isSome ∧ ∃ a, p.IsAccount lib user host a ∧
    Grant rows a role.named

/-- A role is reached by grants from an active role that is granted directly. -/
def MySQLPrivilege.Effective (p : MySQLPrivilege) (lib : GoLib) (rows : List RoleEdge)
    (user host : Bytes) (activeRoles : List RoleIdentity) (r : RoleIdentity) : Prop :=
  ∃ a ∈ activeRoles, p.GrantedDirectly lib rows user host a ∧ ReflTransGen (Grant rows) a r

def MySQLPrivilege.accounts (p : MySQLPrivilege) (lib : GoLib) (rows : List RoleEdge)
    (user host : Bytes) (activeRoles : List RoleIdentity) : Set RoleIdentity :=
  {a | (∃ row ∈ rows, a = row.account ∨ a = row.role) ∨ (∃ r ∈ activeRoles, a = r ∨ a = r.named) ∨
    p.IsAccount lib user host a}

theorem bounded_grantedRoles (lib : GoLib) (hgraph : p.roleGraph = loadRoleGraph rows)
    (seeds : List RoleIdentity) :
    Worklist.Bounded RoleIdentity.string (p.grantedRoles lib)
      (fun r => r ∈ seeds ++ rows.map (·.role))
      ((seeds ++ rows.map (·.role)).map RoleIdentity.string).toFinset rows.length := by
  constructor
  · intro r hr
    rw [mem_toFinset]
    exact mem_map_of_mem hr
  · intro n a r _ hr
    obtain ⟨key, hlookup⟩ := mem_grantedRoles.mp hr
    rw [hgraph] at hlookup
    obtain ⟨row, hrow, -, -, rfl⟩ := exists_row_of_lookup hlookup
    exact mem_append_right _ (mem_map_of_mem hrow)
  · intro n a _
    -- the keys of a role list are different, and each is the key of a row's role
    have hsub : (p.roleGraph.roleList a.key).keys ⊆ rows.map (·.role.key) := by
      intro key hkey
      obtain ⟨r, hr⟩ := Option.isSome_iff_exists.mp (AList.lookup_isSome.mpr hkey)
      rw [hgraph] at hr
      obtain ⟨row, hrow, -, rfl, -⟩ := exists_row_of_lookup hr
      exact mem_map_of_mem (f := fun row : RoleEdge => row.role.key) hrow
    have hle := (subperm_of_subset (AList.keys_nodup _) hsub).length_le
    unfold grantedRoles
    rw [(lib.rangeOrder_perm n _).length_eq, length_map]
    rw [length_map] at hle
    refine le_trans (le_of_eq ?_) hle
    exact (length_map _).symm

theorem effective_mem_accounts {a r : RoleIdentity} (ha : a ∈ activeRoles)
    (hr : ReflTransGen (Grant rows) a r) :
    r ∈ p.accounts lib rows user host activeRoles := by
  cases hr with
  | refl => exact .inr (.inl ⟨a, ha, .inl rfl⟩)
  | tail _ hgrant =>
    obtain ⟨row, hrow, -, rfl⟩ := hgrant
    exact .inl ⟨row, hrow, .inr rfl⟩

/-! ## Privileges -/

inductive MySQLPrivilege.HasRecord (p : MySQLPrivilege) (lib : GoLib) (db table column : Bytes)
    (priv : PrivilegeType) (r : RoleIdentity) : Prop
  | user (record : UserRecord) : p.matchUser lib r.username r.hostname = some record →
      0 < record.privileges &&& priv → HasRecord p lib db table column priv r
  | db (record : DbRecord) : p.matchDB lib r.username r.hostname db = some record →
      0 < record.privileges &&& priv → HasRecord p lib db table column priv r
  | table (record : TablesPrivRecord) :
      p.matchTables lib r.username r.hostname db table = some record →
      (0 < record.tablePriv &&& priv ∨ 0 < record.columnPriv &&& priv) →
      HasRecord p lib db table column priv r
  | column (record : ColumnsPrivRecord) :
      p.matchColumns lib r.username r.hostname db table column = some record →
      0 < record.columnPriv &&& priv → HasRecord p lib db table column priv r

theorem eq_zero_of_not_pos {a : PrivilegeType} (h : ¬ 0 < a) : a = 0 := by bv_omega

theorem pos_and_or {a b priv : PrivilegeType} (h : 0 < (a ||| b) &&& priv) :
    0 < a &&& priv ∨ 0 < b &&& priv := by
  by_contra hnot
  rw [not_or] at hnot
  rw [BitVec.and_or_distrib_right, eq_zero_of_not_pos hnot.1, eq_zero_of_not_pos hnot.2] at h
  exact absurd h (by decide)

theorem exists_of_orPrivs {record : RoleIdentity → Option PrivilegeType} {priv : PrivilegeType}
    {roleList : List RoleIdentity} (h : 0 < orPrivs roleList record &&& priv) :
    ∃ r ∈ roleList, ∃ q, record r = some q ∧ 0 < q &&& priv := by
  unfold orPrivs at h
  induction roleList using reverseRecOn with
  | nil => exact absurd h (by simp)
  | append_singleton roleList r ih =>
    rw [foldl_append, foldl_cons] at h
    have hlast : r ∈ roleList ++ [r] := mem_append_right _ (mem_singleton.mpr rfl)
    have hbefore := fun h' => (ih h').imp fun r' hr' => And.imp_left (mem_append_left [r]) hr'
    cases hq : record r with
    | none =>
      rw [hq] at h
      exact hbefore h
    | some q =>
      rw [hq] at h
      rcases pos_and_or h with h | h
      · exact hbefore h
      · exact ⟨r, hlast, q, hq, h⟩

theorem exists_record_of_orPrivs {α : Type} {find : RoleIdentity → Option α}
    {privs : α → PrivilegeType} {priv : PrivilegeType} {roleList : List RoleIdentity}
    (h : 0 < orPrivs roleList (fun r => (find r).map privs) &&& priv) :
    ∃ r ∈ roleList, ∃ record, find r = some record ∧ 0 < privs record &&& priv := by
  obtain ⟨r, hr, q, hq, hpos⟩ := exists_of_orPrivs h
  obtain ⟨record, hrecord, rfl⟩ := Option.map_eq_some_iff.mp hq
  exact ⟨r, hr, record, hrecord, hpos⟩

theorem hasRecord_of_verifyRoles {roleList : List RoleIdentity} {db table column : Bytes}
    {priv : PrivilegeType}
    (hpriv : priv ≠ 0) (h : p.verifyRoles lib roleList db table column priv = true) :
    ∃ r ∈ roleList, p.HasRecord lib db table column priv r := by
  unfold verifyRoles at h
  simp only [Bool.if_true_left, Bool.or_eq_true, decide_eq_true_eq, beq_iff_eq] at h
  rcases h with huser | hdb | (htable | hcolumns) | hcolumn | hzero
  · obtain ⟨r, hr, record, hrecord, hpos⟩ := exists_record_of_orPrivs huser
    exact ⟨r, hr, .user record hrecord hpos⟩
  · obtain ⟨r, hr, record, hrecord, hpos⟩ := exists_record_of_orPrivs hdb
    exact ⟨r, hr, .db record hrecord hpos⟩
  · obtain ⟨r, hr, record, hrecord, hpos⟩ := exists_record_of_orPrivs htable
    exact ⟨r, hr, .table record hrecord (.inl hpos)⟩
  · obtain ⟨r, hr, q, hq, hpos⟩ := exists_of_orPrivs hcolumns
    obtain ⟨record, hrecord, rfl⟩ := Option.map_eq_some_iff.mp
      (Option.ite_none_right_eq_some.mp hq).2
    exact ⟨r, hr, .table record hrecord (.inr hpos)⟩
  · obtain ⟨r, hr, record, hrecord, hpos⟩ := exists_record_of_orPrivs hcolumn
    exact ⟨r, hr, .column record hrecord hpos⟩
  · exact absurd hzero hpriv

/-! ## Effective roles -/

def MySQLPrivilege.Lists (p : MySQLPrivilege) (a r : RoleIdentity) : Prop :=
  ∃ key, (p.roleGraph.roleList a.key).lookup key = some r

theorem enumerates_grantedRoles : Worklist.Enumerates (p.grantedRoles lib) p.Lists :=
  fun _ _ _ => mem_grantedRoles

theorem exists_findAllUserEffectiveRoles (lib : GoLib) (hgraph : p.roleGraph = loadRoleGraph rows)
    (user host : Bytes) (activeRoles : List RoleIdentity) : ∃ roles n, ∀ fuel, n ≤ fuel →
      p.findAllUserEffectiveRoles lib fuel user host activeRoles = some roles := by
  let seeds := activeRoles.filter (p.findRole lib user host)
  have hseeds : ∀ r ∈ seeds, r ∈ seeds ++ rows.map (·.role) := fun r hr => mem_append_left _ hr
  obtain ⟨roles, hroles⟩ :=
    Worklist.exists_search (bounded_grantedRoles lib hgraph seeds) _ seeds [] [] hseeds (le_refl _)
  exact ⟨roles, _, hroles⟩

section Spelled

variable (hgraph : p.roleGraph = loadRoleGraph rows)
  (hspelled : Spelled (p.accounts lib rows user host activeRoles))

include hgraph hspelled

theorem findRole_iff {role : RoleIdentity} (hrole : role ∈ activeRoles) :
    p.findRole lib user host role = true ↔ p.GrantedDirectly lib rows user host role := by
  unfold findRole MySQLPrivilege.GrantedDirectly MySQLPrivilege.IsAccount
  cases hrec : p.matchUser lib user host with
  | none => simp
  | some record =>
    cases hr : p.matchUser lib role.username role.hostname with
    | none => simp
    | some _ =>
      have haccount : (⟨record.user, record.host⟩ : RoleIdentity) ∈ p.accounts lib rows user host
          activeRoles :=
        .inr (.inr ⟨record, hrec, rfl⟩)
      have hnamed : role.named ∈ p.accounts lib rows user host activeRoles :=
        .inr (.inl ⟨role, hrole, .inr rfl⟩)
      show ((p.roleGraph.roleList _).lookup role.named.key).isSome = true ↔ _
      rw [hgraph, Option.isSome_iff_exists]
      constructor
      · rintro ⟨r, hlookup⟩
        obtain ⟨row, hrow, hto, hfrom, -⟩ := exists_row_of_lookup hlookup
        refine ⟨rfl, _, ⟨record, rfl, rfl⟩, row, hrow, ?_, ?_⟩
        · exact hspelled.key (.inl ⟨row, hrow, .inl rfl⟩) haccount hto
        · exact hspelled.key (.inl ⟨row, hrow, .inr rfl⟩) hnamed hfrom
      · rintro ⟨-, a, ⟨record', hrecord', rfl⟩, row, hrow, hto, hfrom⟩
        cases hrecord'
        have hlookup := exists_lookup_of_mem hrow
        rw [hto, hfrom] at hlookup
        exact hlookup

theorem lists_iff_grant {a r : RoleIdentity} (ha : a ∈ p.accounts lib rows user host activeRoles) :
    p.Lists a r ↔ Grant rows a r := by
  unfold MySQLPrivilege.Lists
  rw [hgraph]
  constructor
  · rintro ⟨key, hlookup⟩
    obtain ⟨row, hrow, hto, -, hfrom⟩ := exists_row_of_lookup hlookup
    exact ⟨row, hrow, hspelled.key (.inl ⟨row, hrow, .inl rfl⟩) ha hto, hfrom⟩
  · rintro ⟨row, hrow, rfl, rfl⟩
    obtain ⟨r, hlookup⟩ := exists_lookup_of_mem hrow
    obtain ⟨row', hrow', -, hfrom, rfl⟩ := exists_row_of_lookup hlookup
    have heq : row'.role = row.role := hspelled.key (.inl ⟨row', hrow', .inr rfl⟩)
      (.inl ⟨row, hrow, .inr rfl⟩) hfrom
    rw [heq] at hlookup
    exact ⟨_, hlookup⟩

theorem reaches_iff_grants {a r : RoleIdentity} (ha : a ∈ activeRoles) :
    ReflTransGen p.Lists a r ↔ ReflTransGen (Grant rows) a r := by
  constructor
  · intro h
    induction h with
    | refl => exact .refl
    | tail _ hlists ih =>
      exact ih.tail ((lists_iff_grant hgraph hspelled (effective_mem_accounts ha ih)).mp hlists)
  · intro h
    induction h with
    | refl => exact .refl
    | tail hab hgrant ih =>
      exact ih.tail ((lists_iff_grant hgraph hspelled (effective_mem_accounts ha hab)).mpr hgrant)

theorem mem_effectiveRoles_iff {fuel : ℕ} {roles : List RoleIdentity}
    (h : p.findAllUserEffectiveRoles lib fuel user host activeRoles = some roles) :
    roles.Nodup ∧ ∀ r, r ∈ roles ↔ p.Effective lib rows user host activeRoles r := by
  let seeds := activeRoles.filter (p.findRole lib user host)
  have hreached : ∀ r, (∃ a ∈ seeds, ReflTransGen p.Lists a r) ↔
      p.Effective lib rows user host activeRoles r := by
    intro r
    constructor
    · rintro ⟨a, ha, har⟩
      obtain ⟨hactive, hfind⟩ := mem_filter.mp ha
      exact ⟨a, hactive, (findRole_iff hgraph hspelled hactive).mp hfind,
        (reaches_iff_grants hgraph hspelled hactive).mp har⟩
    · rintro ⟨a, hactive, hgranted, har⟩
      exact ⟨a, mem_filter.mpr ⟨hactive, (findRole_iff hgraph hspelled hactive).mpr hgranted⟩,
        (reaches_iff_grants hgraph hspelled hactive).mpr har⟩
  have hsub : {r | ∃ a ∈ seeds, ReflTransGen p.Lists a r} ⊆ p.accounts lib rows user host
      activeRoles := by
    intro r hr
    obtain ⟨a, ha, -, har⟩ := (hreached r).mp hr
    exact effective_mem_accounts ha har
  obtain ⟨hnodup, hmem⟩ :=
    Worklist.mem_search_iff enumerates_grantedRoles (hspelled.string.mono hsub) h
  exact ⟨hnodup, fun r => (hmem r).trans (hreached r)⟩

end Spelled

/-- The roles that are effective for an account are found, each once, and a privilege is given only
for a record of one of them or of the account. -/
theorem effectiveRoles_reachable (lib : GoLib) (p : MySQLPrivilege) (rows : List RoleEdge)
    (user host : Bytes) (activeRoles : List RoleIdentity)
    (hgraph : p.roleGraph = loadRoleGraph rows)
    (hspelled : Spelled (p.accounts lib rows user host activeRoles)) :
    ∃ roles n,
      (∀ fuel, n ≤ fuel → p.findAllUserEffectiveRoles lib fuel user host activeRoles = some roles) ∧
      roles.Nodup ∧
      (∀ r, r ∈ roles ↔ p.Effective lib rows user host activeRoles r) ∧
      ∀ db table column priv, priv ≠ 0 → priv ≠ usagePriv → ∃ verified,
        (∀ fuel, n ≤ fuel →
          p.requestVerification lib fuel activeRoles user host db table column priv =
            some verified) ∧
        (verified = true → ∃ r, (p.Effective lib rows user host activeRoles r ∨ r = ⟨user, host⟩) ∧
          p.HasRecord lib db table column priv r) := by
  obtain ⟨roles, n, hroles⟩ := exists_findAllUserEffectiveRoles lib hgraph user host activeRoles
  obtain ⟨hnodup, hmem⟩ := mem_effectiveRoles_iff hgraph hspelled (hroles n (le_refl n))
  refine ⟨roles, n, hroles, hnodup, hmem, ?_⟩
  intro db table column priv hzero husage
  refine ⟨p.verifyRoles lib (roles ++ [⟨user, host⟩]) db table column priv, ?_, ?_⟩
  · intro fuel hfuel
    unfold requestVerification
    rw [if_neg husage, hroles fuel hfuel]
    rfl
  · intro hverified
    obtain ⟨r, hr, hrecord⟩ := hasRecord_of_verifyRoles hzero hverified
    refine ⟨r, ?_, hrecord⟩
    rcases mem_append.mp hr with hr | hr
    · exact .inl ((hmem r).mp hr)
    · exact .inr (mem_singleton.mp hr)

def plainLib : GoLib := ⟨fun _ => none, fun _ => false, id, (· == ·), fun _ l => l,
  fun _ l => .refl l⟩

def userU : Bytes := [0x75]

def roleR : Bytes := [0x72]

def grantRToU : List RoleEdge := [⟨roleR, anyHost, userU, anyHost⟩]

/-- User records for any host, each with the privilege to create. -/
def cacheOf (users : List Bytes) : MySQLPrivilege :=
  ⟨fun user => if users.contains user then [⟨⟨anyHost, user⟩, 2⟩] else [], fun _ => [],
    fun _ => [], [], loadRoleGraph grantRToU⟩

theorem cacheOf_isAccount {users : List Bytes} {user host : Bytes} {a : RoleIdentity}
    (h : (cacheOf users).IsAccount plainLib user host a) : a.hostname = anyHost := by
  obtain ⟨record, hrecord, rfl⟩ := h
  have hmem : record ∈ (if users.contains user then [⟨⟨anyHost, user⟩, 2⟩] else []) :=
    mem_of_find?_eq_some hrecord
  split_ifs at hmem
  · rw [mem_singleton.mp hmem]
  · cases hmem

theorem effectiveRoles_reachable_r :
    let p := cacheOf [userU, roleR]
    let activeRoles : List RoleIdentity := [⟨roleR, anyHost⟩]
    ∃ roles n,
      (∀ fuel, n ≤ fuel →
        p.findAllUserEffectiveRoles plainLib fuel userU [] activeRoles = some roles) ∧
      roles.Nodup ∧
      ∀ r, r ∈ roles ↔ p.Effective plainLib grantRToU userU [] activeRoles r := by
  intro p activeRoles
  have hspelled : Spelled (p.accounts plainLib grantRToU userU [] activeRoles) := by
    apply spelled_of_not_mem
    intro a ha
    have hhost : a.hostname = anyHost := by
      rcases ha with ⟨row, hrow, ha⟩ | ⟨r, hr, ha⟩ | ha
      · cases mem_singleton.mp hrow
        rcases ha with rfl | rfl <;> rfl
      · cases mem_singleton.mp hr
        rcases ha with rfl | rfl <;> rfl
      · exact cacheOf_isAccount ha
    rw [hhost]
    decide
  obtain ⟨roles, n, hroles, hnodup, hmem, -⟩ := effectiveRoles_reachable _ _ _ _ _ _ rfl hspelled
  exact ⟨roles, n, hroles, hnodup, hmem⟩

/-- A role that is active and granted is not effective where it has no user record. -/
theorem granted_role_without_record :
    (cacheOf [userU]).IsAccount plainLib userU [] ⟨userU, anyHost⟩ ∧
      Grant grantRToU ⟨userU, anyHost⟩ ⟨roleR, anyHost⟩ ∧
      ∀ fuel, (cacheOf [userU]).findAllUserEffectiveRoles plainLib fuel userU []
        [⟨roleR, anyHost⟩] = some [] := by
  refine ⟨⟨⟨⟨anyHost, userU⟩, 2⟩, by rfl, rfl⟩, ⟨_, mem_singleton.mpr rfl, rfl, rfl⟩,
    fun fuel => ?_⟩
  have hseeds : [(⟨roleR, anyHost⟩ : RoleIdentity)].filter
      ((cacheOf [userU]).findRole plainLib userU []) = [] := by
    decide +kernel
  unfold findAllUserEffectiveRoles findAllRole
  rw [hseeds, Worklist.search]

end Privilege
