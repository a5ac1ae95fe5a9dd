import Tidb.Codec.Encode

/-!
# The order of encoded keys

The bytes of two rows of one list of column types compare as the rows do, with NULL in front of every value.  The two
sentinels stand below and above the values, but only at the end of a row: the code of `MinNotNull` is the flag of byte
strings alone.
-/

namespace Tidb.Codec

open GoLang ByteNum Tidb.Types List

variable {env : Env} {sc : Option StatementContext}

/-! ## Column types -/

inductive ColumnType where
  | int
  | uint
  | bytes
  | duration
  | time
  | enumSet
  | decimal (length frac : Nat)
  deriving DecidableEq, Repr

/-- The datum is a value of the column type.  Times have a valid month, and decimals fit the precision
and the scale that they are written with. -/
inductive ColumnType.Has : ColumnType → Datum → Prop
  | int (i : Int64) : Has .int (.int64 i)
  | uint (u : UInt64) : Has .uint (.uint64 u)
  | bytes (s : Bytes) : Has .bytes (.bytes s)
  | string (s : Bytes) : Has .bytes (.string s .binary)
  | duration (d : Duration) : Has .duration (.mysqlDuration d)
  | time (t : Time) (h : t.coreTime.month.val ≤ 12) : Has .time (.mysqlTime t)
  | enum (e : Named) (c : Collation) : Has .enumSet (.mysqlEnum e c)
  | set (s : Named) (c : Collation) : Has .enumSet (.mysqlSet s c)
  | decimal {length frac : Nat} (d : MyDecimal) (hpos : 0 < length) (hmax : length ≤ 81)
      (hfrac : frac ≤ length) (hfits : d.FitsIn length (min frac 30)) :
      Has (.decimal length frac) (.mysqlDecimal d length frac)

/-- A datum that may stand in the column anywhere in a row. -/
def ColumnType.Nullable (T : ColumnType) (d : Datum) : Prop := d = .null ∨ T.Has d

def IsSentinel (d : Datum) : Prop := d = .minNotNull ∨ d = .maxValue

/-- The row has values of these types or NULLs; its last datum may be a sentinel. -/
def RowHas : List ColumnType → List Datum → Prop
  | [], [] => True
  | T :: Ts, d :: u => (T.Nullable d ∨ IsSentinel d ∧ u = []) ∧ RowHas Ts u
  | _, _ => False

/-! ## The order of datums -/

def rank : Datum → Nat
  | .null => 0
  | .minNotNull => 1
  | .maxValue => 3
  | _ => 2

/-- The order of two values of one column type; timestamps compare as the times in UTC do. -/
def compareValue (env : Env) (sc : Option StatementContext) : Datum → Datum → Ordering
  | .int64 i, .int64 j => compare i.toInt j.toInt
  | .uint64 u, .uint64 v => compare u.toNat v.toNat
  | .bytes s, .bytes t | .bytes s, .string t _ | .string s _, .bytes t
  | .string s _, .string t _ => compare s t
  | .mysqlDuration d, .mysqlDuration e => compare d.duration.toInt e.duration.toInt
  | .mysqlTime t, .mysqlTime u =>
    match timeToPack env sc t .unspecified, timeToPack env sc u .unspecified with
    | .ok t, .ok u => compareTime t.coreTime u.coreTime
    | _, _ => .eq
  | .mysqlEnum s _, .mysqlEnum t _ | .mysqlEnum s _, .mysqlSet t _ | .mysqlSet s _, .mysqlEnum t _
  | .mysqlSet s _, .mysqlSet t _ => compare s.value.toNat t.value.toNat
  | .mysqlDecimal d _ _, .mysqlDecimal e _ _ => compare d.toRat e.toRat
  | _, _ => .eq

def compareDatum (env : Env) (sc : Option StatementContext) (d e : Datum) : Ordering :=
  (compare (rank d) (rank e)).then
    (if rank d = 2 ∧ rank e = 2 then compareValue env sc d e else .eq)

def compareRow (env : Env) (sc : Option StatementContext) : List Datum → List Datum → Ordering
  | d :: u, e :: v => (compareDatum env sc d e).then (compareRow env sc u v)
  | [], [] => .eq
  | [], _ :: _ => .lt
  | _ :: _, [] => .gt

theorem ColumnType.Has.rank_eq {T : ColumnType} {d : Datum} (h : T.Has d) : rank d = 2 := by cases h <;> rfl

theorem eq_minNotNull_of_rank {d : Datum} (h : rank d = 1) : d = .minNotNull := by cases d <;> first | rfl | cases h

theorem compareDatum_of_has {T : ColumnType} {d e : Datum} (hd : T.Has d) (he : T.Has e) :
    compareDatum env sc d e = compareValue env sc d e := by
  rw [compareDatum, hd.rank_eq, he.rank_eq, if_pos ⟨rfl, rfl⟩, Std.compare_self, Ordering.eq_then]

theorem compareDatum_of_rank_ne {d e : Datum} (h : rank d ≠ rank e) :
    compareDatum env sc d e = compare (rank d) (rank e) := by
  rw [compareDatum, if_neg (by omega), Ordering.then_eq]

theorem compareDatum_of_rank_eq {d e : Datum} (h : rank d = rank e) (h2 : rank d ≠ 2) :
    compareDatum env sc d e = .eq := by
  rw [compareDatum, if_neg (by omega), h, Std.compare_self, Ordering.eq_then]

/-! ## The codes of one column -/

section Column

variable {T : ColumnType} {d e : Datum} {c c' : Bytes}

theorem compare_code (hd : T.Has d) (he : T.Has e) (hc : Code env sc true d c)
    (hc' : Code env sc true e c') (x y : Bytes) :
    compare (c ++ x) (c' ++ y) = (compareValue env sc d e).then (compare x y) := by
  have hint := orderedCode_encodeInt
  have huint := orderedCode_encodeUint
  have hbytes := orderedCode_encodeBytes.tag bytesFlag
  have hkey : ∀ s, env.collatorKey .binary s = s := by simp [Env.collatorKey]
  cases hd with
  | int i =>
    cases he with | int j =>
    rw [code_int64] at hc hc'
    rw [hc, hc']
    exact hint.tag intFlag i j trivial trivial x y
  | uint u =>
    cases he with | uint v =>
    rw [code_uint64] at hc hc'
    rw [hc, hc']
    exact huint.tag uintFlag u v trivial trivial x y
  | duration u =>
    cases he with | duration v =>
    rw [code_mysqlDuration] at hc hc'
    rw [hc, hc']
    exact hint.tag durationFlag u.duration v.duration trivial trivial x y
  | bytes s =>
    cases he <;> simp only [code_bytes, code_string, hkey] at hc hc' <;> rw [hc, hc'] <;>
      exact hbytes _ _ trivial trivial x y
  | string s =>
    cases he <;> simp only [code_bytes, code_string, hkey] at hc hc' <;> rw [hc, hc'] <;>
      exact hbytes _ _ trivial trivial x y
  | time t ht =>
    cases he with | time u hu =>
    obtain ⟨t', htp, rfl⟩ := code_mysqlTime.mp hc
    obtain ⟨u', hup, rfl⟩ := code_mysqlTime.mp hc'
    have hcmp := compare_toPackedUint (timeToPack_month htp ht) (timeToPack_month hup hu)
    rw [compareValue, htp, hup]
    simp only
    rw [← hcmp]
    exact huint.tag uintFlag _ _ trivial trivial x y
  | decimal d hpos hmax hfrac hfits =>
    cases he with | decimal e _ _ _ hfits' =>
    obtain ⟨b, err, hb, rfl⟩ := code_mysqlDecimal hpos hc
    obtain ⟨b', err', hb', rfl⟩ := code_mysqlDecimal hpos hc'
    obtain ⟨bd, be, errd, erre, hbd, hbe, hlen, hcmp⟩ :=
      writeBin_order hpos hmax (by omega) (by omega) hfits hfits' [] [] [] []
    rw [hb] at hbd
    rw [hb'] at hbe
    obtain ⟨rfl, -⟩ := hbd
    obtain ⟨rfl, -⟩ := hbe
    rw [compareValue, ← hcmp]
    simp only [cons_append, List.compare_cons_cons, Std.compare_self]
    exact compare_append hlen x y
  | _ =>
    cases he <;> simp only [code_mysqlEnum, code_mysqlSet] at hc hc' <;> rw [hc, hc'] <;>
      exact huint.tag uintFlag _ _ trivial trivial x y

theorem encodeBytes_ne_nil (s : Bytes) : encodeBytes [] s ≠ [] := by
  rw [← length_pos_iff, length_encodeBytes, encodedBytesLength]
  positivity

theorem ColumnType.Has.code_head (hd : T.Has d) (hc : Code env sc true d c) : ∃ flag rest, c = flag :: rest ∧
      (bytesFlag < flag ∧ flag < maxFlag ∨ flag = bytesFlag ∧ rest ≠ []) := by
  cases hd with
  | int => exact ⟨_, _, code_int64.mp hc, .inl (by decide)⟩
  | uint => exact ⟨_, _, code_uint64.mp hc, .inl (by decide)⟩
  | bytes s => exact ⟨_, _, code_bytes.mp hc, .inr ⟨rfl, encodeBytes_ne_nil _⟩⟩
  | string s => exact ⟨_, _, code_string.mp hc, .inr ⟨rfl, encodeBytes_ne_nil _⟩⟩
  | duration => exact ⟨_, _, code_mysqlDuration.mp hc, .inl (by decide)⟩
  | enum => exact ⟨_, _, code_mysqlEnum.mp hc, .inl (by decide)⟩
  | set => exact ⟨_, _, code_mysqlSet.mp hc, .inl (by decide)⟩
  | time =>
    obtain ⟨u, -, rfl⟩ := code_mysqlTime.mp hc
    exact ⟨_, _, rfl, .inl (by decide)⟩
  | decimal d hpos =>
    obtain ⟨b, err, -, rfl⟩ := code_mysqlDecimal hpos hc
    exact ⟨_, _, rfl, .inl (by decide)⟩

theorem code_of_rank (hd : T.Nullable d ∨ IsSentinel d) (hc : Code env sc true d c) :
    T.Has d ∨ (rank d = 0 ∧ c = [nilFlag]) ∨ (rank d = 1 ∧ c = [bytesFlag]) ∨ (rank d = 3 ∧ c = [maxFlag]) := by
  rcases hd with (rfl | hd) | rfl | rfl
  · exact .inr (.inl ⟨rfl, code_null.mp hc⟩)
  · exact .inl hd
  · exact .inr (.inr (.inl ⟨rfl, code_minNotNull.mp hc⟩))
  · exact .inr (.inr (.inr ⟨rfl, code_maxValue.mp hc⟩))

theorem compare_cons_of_lt {f g : UInt8} (h : f < g) (x y : Bytes) : compare (f :: x) (g :: y) = .lt := by
  rw [List.compare_cons_cons, compare_uint8_of_lt (UInt8.lt_iff_toNat_lt.mp h)]
  rfl

/-- Codes of different ranks are ordered by their flags, except that nothing may follow `MinNotNull`:
its code is the flag of byte strings. -/
theorem compare_code_of_rank_lt (hd : T.Nullable d ∨ IsSentinel d)
    (he : T.Nullable e ∨ IsSentinel e) (hc : Code env sc true d c) (hc' : Code env sc true e c')
    (h : rank d < rank e) {x : Bytes} (hx : rank d = 1 → x = []) (y : Bytes) : compare (c ++ x) (c' ++ y) = .lt := by
  rcases code_of_rank he hc' with hasE | ⟨hr', rfl⟩ | ⟨hr', rfl⟩ | ⟨hr', rfl⟩
  · obtain ⟨flag, rest, rfl, hflag⟩ := hasE.code_head hc'
    have hr' := hasE.rank_eq
    rcases code_of_rank hd hc with hasD | ⟨hr, rfl⟩ | ⟨hr, rfl⟩ | ⟨hr, rfl⟩
    · have hr := hasD.rank_eq
      omega
    · refine compare_cons_of_lt ?_ _ _
      rcases hflag with ⟨hlt, -⟩ | ⟨rfl, -⟩
      · exact UInt8.lt_trans (by decide) hlt
      · decide
    · rcases hflag with ⟨hlt, -⟩ | ⟨rfl, hne⟩
      · exact compare_cons_of_lt hlt _ _
      · -- the flag alone against a byte string
        obtain ⟨z, zs, rfl⟩ := exists_cons_of_ne_nil hne
        rw [hx hr, append_nil, cons_append]
        rfl
    · omega
  · omega
  · rcases code_of_rank hd hc with hasD | ⟨hr, rfl⟩ | ⟨hr, rfl⟩ | ⟨hr, rfl⟩
    · have hr := hasD.rank_eq
      omega
    · exact compare_cons_of_lt (by decide) _ _
    all_goals omega
  · rcases code_of_rank hd hc with hasD | ⟨hr, rfl⟩ | ⟨hr, rfl⟩ | ⟨hr, rfl⟩
    · obtain ⟨flag, rest, rfl, hflag⟩ := hasD.code_head hc
      refine compare_cons_of_lt ?_ _ _
      rcases hflag with ⟨-, hlt⟩ | ⟨rfl, -⟩
      · exact hlt
      · decide
    · exact compare_cons_of_lt (by decide) _ _
    · exact compare_cons_of_lt (by decide) _ _
    · omega

theorem compare_code_slot (hd : T.Nullable d ∨ IsSentinel d) (he : T.Nullable e ∨ IsSentinel e)
    (hc : Code env sc true d c) (hc' : Code env sc true e c') {x y : Bytes}
    (hx : rank d = 1 → x = []) (hy : rank e = 1 → y = []) :
    compare (c ++ x) (c' ++ y) = (compareDatum env sc d e).then (compare x y) := by
  rcases Nat.lt_trichotomy (rank d) (rank e) with hlt | heq | hgt
  · rw [compare_code_of_rank_lt hd he hc hc' hlt hx, compareDatum_of_rank_ne hlt.ne, Nat.compare_eq_lt.mpr hlt]
    rfl
  · have hcase := code_of_rank hd hc
    have hcase' := code_of_rank he hc'
    by_cases h2 : rank d = 2
    · have hasD : T.Has d := hcase.resolve_right (by omega)
      have hasE : T.Has e := hcase'.resolve_right (by omega)
      rw [compareDatum_of_has hasD hasE, compare_code hasD hasE hc hc']
    · have hD := hcase.resolve_left fun h => h2 h.rank_eq
      have hE := hcase'.resolve_left fun h => h2 (heq.trans h.rank_eq)
      obtain rfl : c = c' := by
        rcases hD with ⟨hr, rfl⟩ | ⟨hr, rfl⟩ | ⟨hr, rfl⟩ <;>
          rcases hE with ⟨hr', rfl⟩ | ⟨hr', rfl⟩ | ⟨hr', rfl⟩ <;>
            first
            | rfl
            | omega
      rw [compareDatum_of_rank_eq heq h2, compare_append rfl, Std.compare_self]
  · rw [Std.OrientedOrd.eq_swap, compare_code_of_rank_lt he hd hc' hc hgt hy, compareDatum_of_rank_ne hgt.ne',
      Nat.compare_eq_gt.mpr hgt]
    rfl

end Column

/-! ## Rows -/

section Rows

variable {Ts : List ColumnType} {d : Datum} {u v : List Datum} {cs cs' : List Bytes}

theorem RowHas.slot {T : ColumnType} (h : RowHas (T :: Ts) (d :: u)) : T.Nullable d ∨ IsSentinel d :=
  h.1.imp_right And.left

theorem RowHas.codes_nil {T : ColumnType} (h : RowHas (T :: Ts) (d :: u)) (hr : rank d = 1)
    (hcs : List.Forall₂ (Code env sc true) u cs) : cs.flatten = [] := by
  rcases h.1 with (rfl | hd) | ⟨-, rfl⟩
  · cases hr
  · rw [hd.rank_eq] at hr
    cases hr
  · cases hcs
    rfl

theorem compare_codes (hu : RowHas Ts u) (hv : RowHas Ts v)
    (hcs : List.Forall₂ (Code env sc true) u cs) (hcs' : List.Forall₂ (Code env sc true) v cs') :
    compare cs.flatten cs'.flatten = compareRow env sc u v := by
  induction Ts generalizing u v cs cs' with
  | nil =>
    cases hcs with
    | cons => cases hu
    | nil =>
      cases hcs' with
      | cons => cases hv
      | nil => rfl
  | cons T Ts ih =>
    cases hcs with
    | nil => cases hu
    | cons hc hcs =>
      cases hcs' with
      | nil => cases hv
      | cons hc' hcs' =>
        rw [flatten_cons, flatten_cons, compareRow,
          compare_code_slot hu.slot hv.slot hc hc' (hu.codes_nil · hcs) (hv.codes_nil · hcs'), ih hu.2 hv.2 hcs hcs']

/-- Without sentinels the codes decide the order before anything that follows them does. -/
theorem compare_codes_append (hu : List.Forall₂ ColumnType.Has Ts u)
    (hv : List.Forall₂ ColumnType.Has Ts v) (hcs : List.Forall₂ (Code env sc true) u cs)
    (hcs' : List.Forall₂ (Code env sc true) v cs') (x y : Bytes) : compare (cs.flatten ++ x) (cs'.flatten ++ y) =
      (compareRow env sc u v).then (compare x y) := by
  induction hu generalizing v cs cs' with
  | nil =>
    cases hv
    cases hcs
    cases hcs'
    rfl
  | cons hd _ ih =>
    cases hv with | cons he hv =>
    cases hcs with | cons hc hcs =>
    cases hcs' with | cons hc' hcs' =>
    rw [flatten_cons, flatten_cons, append_assoc, append_assoc,
      compare_code hd he hc hc', ih hv hcs hcs', compareRow, compareDatum_of_has hd he, Ordering.then_assoc]

/-- The codes of a row are a proper prefix of those of another one only through `MinNotNull`. -/
theorem getLast_of_isPrefix (hu : RowHas Ts u) (hv : RowHas Ts v)
    (hcs : List.Forall₂ (Code env sc true) u cs) (hcs' : List.Forall₂ (Code env sc true) v cs')
    {t : Bytes} (ht : t ≠ []) (h : cs.flatten ++ t = cs'.flatten) : u.getLast? = some .minNotNull := by
  induction Ts generalizing u v cs cs' with
  | nil =>
    cases hcs' with
    | cons => cases hv
    | nil =>
      rw [flatten_nil, append_eq_nil_iff] at h
      exact absurd h.2 ht
  | cons T Ts ih =>
    cases hcs with
    | nil => cases hu
    | @cons d c u cs hc hcs =>
      cases hcs' with
      | nil => cases hv
      | @cons e c' v cs' hc' hcs' =>
        by_cases hrank : rank d = 1
        · obtain rfl := eq_minNotNull_of_rank hrank
          rcases hu.1 with (hnull | hhas) | ⟨-, rfl⟩
          · cases hnull
          · cases hhas
          · rfl
        · have hcmp := compare_code_slot (x := cs.flatten ++ t) hu.slot hv.slot hc hc'
            (absurd · hrank) (hv.codes_nil · hcs')
          rw [flatten_cons, flatten_cons, append_assoc] at h
          rw [h, Std.compare_self, eq_comm, Ordering.then_eq_eq] at hcmp
          have hlast := ih hu.2 hv.2 hcs hcs' (Std.compare_eq_iff_eq.mp hcmp.2)
          rw [getLast?_cons, hlast]
          rfl

/-- `EncodeKey` is memory comparable, and no key is a proper prefix of another one unless it ends in
`MinNotNull`. -/
theorem encodeKey_order {bu bv : Bytes} (hu : RowHas Ts u) (hv : RowHas Ts v)
    (hbu : encodeKey env sc [] u = .ok bu) (hbv : encodeKey env sc [] v = .ok bv) :
    compare bu bv = compareRow env sc u v ∧ (bu <+: bv → bu ≠ bv → u.getLast? = some .minNotNull) := by
  obtain ⟨cs, hcs, rfl⟩ := encode_codes hbu
  obtain ⟨cs', hcs', rfl⟩ := encode_codes hbv
  refine ⟨compare_codes hu hv hcs hcs', ?_⟩
  rintro ⟨t, ht⟩ hne
  refine getLast_of_isPrefix hu hv hcs hcs' (t := t) ?_ ht
  rintro rfl
  exact hne (by simpa using ht)

end Rows

def fixedEnv : Env where
  newCollationEnabled := true
  weightKey _ s := s
  utc := fixedZone
  float32 bits := bits
  float32_float32 _ := rfl
  float32_zero := rfl

theorem encodeKey_order_minNotNull : compare ([3, 127, 255, 255, 255, 255, 255, 255, 255, 1] : Bytes)
      [3, 127, 255, 255, 255, 255, 255, 255, 255, 1, 97, 0, 0, 0, 0, 0, 0, 0, 248] = .lt ∧
    [Datum.int64 (-1), .minNotNull].getLast? = some .minNotNull := by
  have h := @encodeKey_order fixedEnv none [.int, .bytes] [.int64 (-1), .minNotNull] [.int64 (-1), .bytes [97]] _ _
    ⟨.inl (.inr (.int _)), .inr ⟨.inl rfl, rfl⟩, trivial⟩
    ⟨.inl (.inr (.int _)), .inl (.inr (.bytes _)), trivial⟩ rfl rfl
  exact ⟨h.1, h.2 ⟨_, rfl⟩ (by decide)⟩

/-- 100 and 99 in a column of two digits, followed by the day 2000-01-01: `WriteBin` keeps the last digits of 100 only,
and `encode` forgets its overflow, since the next column sets the error anew. -/
theorem encodeKey_overflow :
    let sc : Option StatementContext := some ⟨.utc, false, false, false⟩
    let day := Datum.mysqlTime ⟨⟨2000, 1, 1, 0, 0, 0, 0⟩, 0⟩
    let u := [.mysqlDecimal ⟨3, 0, 0, false, ⟨[100, 0, 0, 0, 0, 0, 0, 0, 0], rfl⟩⟩ 2 0, day]
    let v := [.mysqlDecimal ⟨2, 0, 0, false, ⟨[99, 0, 0, 0, 0, 0, 0, 0, 0], rfl⟩⟩ 2 0, day]
    encodeKey fixedEnv sc [] u = .ok [6, 2, 0, 128, 4, 25, 100, 66, 0, 0, 0, 0, 0] ∧
      encodeKey fixedEnv sc [] v = .ok [6, 2, 0, 227, 4, 25, 100, 66, 0, 0, 0, 0, 0] ∧
      compare ([6, 2, 0, 128, 4, 25, 100, 66, 0, 0, 0, 0, 0] : Bytes)
        [6, 2, 0, 227, 4, 25, 100, 66, 0, 0, 0, 0, 0] = .lt ∧
      compareRow fixedEnv sc u v = .gt :=
  ⟨by decide, by decide, by decide, by decide +kernel⟩

end Tidb.Codec
