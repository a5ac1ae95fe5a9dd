import Mathlib.Data.Prod.Lex
import Mathlib.Order.WithBot
import Tidb.Lib.ByteOrder
import Tidb.Privilege.Cache

/-!
# The order of the user table

`SortUserTable` puts the records with the more specific hosts in front, for `matchIdentity` takes the first one that
matches.  The comparison is no order where hosts that end in `%` meet, or an empty host and another one.
-/

namespace Privilege

open ByteOrder

def compareHost (x y : Bytes) : ℤ :=
  if y = anyHost then if x = anyHost then 0 else -1
  else if y = [] then if x = [] then 0 else -1
  else
    let xEnd : Bool := anyHost <:+ x
    let yEnd : Bool := anyHost <:+ y
    if xEnd || yEnd then
      if !xEnd && yEnd then -1 else if xEnd && !yEnd then 1 else if y.length < x.length then -1 else 0
    else if x < y then -1 else 1

def compareBaseRecord (x y : BaseRecord) : Bool :=
  let c1 := compareHost x.host y.host
  if c1 < 0 then true else if 0 < c1 then false else x.user < y.user

def compareUserRecord (x y : UserRecord) : Bool := compareBaseRecord x.toBaseRecord y.toBaseRecord

/-- Hosts without a percent sign at the end come first, then those with one, the longer ones first, then the empty one.
-/
def rank (host : Bytes) : WithBot ℤ := if host = [] ∨ anyHost <:+ host then ↑(-(host.length : ℤ)) else ⊥

namespace BaseRecord

def key (x : BaseRecord) : WithBot ℤ ×ₗ Bytes := toLex (rank x.host, if rank x.host = ⊥ then x.host else x.user)

/-- `x` is less than `y` although its host is less specific. -/
def Clash (x y : BaseRecord) : Prop :=
  rank y.host < rank x.host ∧ (x.host = [] ∨ rank y.host ≠ ⊥ ∧ x.user < y.user)

end BaseRecord

theorem host_cases (host : Bytes) : host = [] ∨ (anyHost <:+ host ∧ (host.length = 1 ↔ host = anyHost) ∧ host ≠ [] ∧
    rank host = ↑(-(host.length : ℤ))) ∨ (¬anyHost <:+ host ∧ host ≠ [] ∧ host ≠ anyHost ∧ rank host = ⊥) := by
  by_cases h : anyHost <:+ host
  · refine .inr (.inl ⟨h, ?_, ?_, if_pos (.inr h)⟩) <;> obtain ⟨l, rfl⟩ := h <;> simp [anyHost]
  cases host with
  | nil => exact .inl rfl
  | cons b l => exact .inr (.inr ⟨h, List.cons_ne_nil b l, fun e => h (e ▸ List.suffix_rfl), if_neg (by simp [h])⟩)

theorem compareBaseRecord_iff (x y : BaseRecord) : compareBaseRecord x y ↔ x.key < y.key ∨ x.Clash y := by
  obtain ⟨host, user⟩ := x
  obtain ⟨host', user'⟩ := y
  have hzero : rank [] = ↑(0 : ℤ) := rfl
  have hnil : ¬anyHost <:+ [] := by decide
  have hany : [] ≠ anyHost := by decide
  have hlt {l : Bytes} (h : l ≠ []) : [] < l := bot_lt_iff_ne_bot.mpr h
  unfold compareBaseRecord compareHost BaseRecord.key BaseRecord.Clash
  rw [Prod.Lex.toLex_lt_toLex]
  dsimp only
  -- Nine pairs of kinds; the chain of special cases decides each, up to lengths and the order of users.
  obtain rfl | ⟨hw, hone, hne, hr⟩ | ⟨ho, hne, ha, hr⟩ := host_cases host <;>
    obtain rfl | ⟨hw', hone', hne', hr'⟩ | ⟨ho', hne', ha', hr'⟩ := host_cases host' <;> simp [*]
  · grind
  · grind
  · split_ifs <;> grind
  · grind

/-! ## The sorted table -/

structure StrictWeakOn {α : Type} (r : α → α → Bool) (s : List α) : Prop where
  irrefl : ∀ x ∈ s, ¬r x x
  trans : ∀ x ∈ s, ∀ y ∈ s, ∀ z ∈ s, r x y → r y z → r x z
  incomp : ∀ x ∈ s, ∀ y ∈ s, ∀ z ∈ s, ¬r x y → ¬r y x → ¬r y z → ¬r z y → ¬r x z ∧ ¬r z x

theorem StrictWeakOn.of_key {α β : Type} [LinearOrder β] {r : α → α → Bool} {s : List α} (f : α → β)
    (h : ∀ x ∈ s, ∀ y ∈ s, (r x y ↔ f x < f y)) : StrictWeakOn r s where
  irrefl x hx := by simp [h x hx x hx]
  trans x hx y hy z hz := by
    rw [h x hx y hy, h y hy z hz, h x hx z hz]
    exact lt_trans
  incomp x hx y hy z hz := by
    rw [h x hx y hy, h y hy x hx, h y hy z hz, h z hz y hy, h x hx z hz, h z hz x hx]
    grind

/-- What `slices.SortFunc` promises: a permutation, in ascending order if the comparison is a strict weak order. -/
def SortFunc {α : Type} (less : α → α → Bool) (l l' : List α) : Prop :=
  l'.Perm l ∧ (StrictWeakOn less l → l'.Pairwise fun x y => ¬less y x)

/-- `lookupAddr` is `net.LookupAddr`, `none` its error. -/
def matchIdentity (lib : GoLib) (lookupAddr : Bytes → Option (List Bytes)) (users : List UserRecord)
    (user host : Bytes) (skipNameResolve : Bool) : Option UserRecord :=
  match users.find? (·.isMatch lib user host) with
  | some record => some record
  | none =>
    if !skipNameResolve && host != localhost then
      match lookupAddr host with
      | none => none
      | some addrs => addrs.findSome? fun addr => users.find? (·.isMatch lib user addr)
    else none

def MostSpecific (lib : GoLib) (users : List UserRecord) (user host : Bytes) (r : UserRecord) : Prop :=
  r ∈ users ∧ r.isMatch lib user host ∧ ∀ r' ∈ users, r'.isMatch lib user host → rank r.host ≤ rank r'.host

structure SortSpec (users : List UserRecord) : Prop where
  order : StrictWeakOn compareUserRecord users
  specific : ∀ x ∈ users, ∀ y ∈ users, rank x.host < rank y.host → compareUserRecord x y ∧ ¬compareUserRecord y x
  first : ∀ sorted, SortFunc compareUserRecord users sorted → ∀ lib lookupAddr user host skipNameResolve r,
    matchIdentity lib lookupAddr sorted user host skipNameResolve = some r →
      ∃ addr, MostSpecific lib users user addr r ∧ (addr ≠ host → ∀ r' ∈ users, ¬r'.isMatch lib user host)

theorem matchIdentity_finds {lib : GoLib} {lookupAddr : Bytes → Option (List Bytes)} {users : List UserRecord}
    {user host : Bytes} {skipNameResolve : Bool} {r : UserRecord}
    (h : matchIdentity lib lookupAddr users user host skipNameResolve = some r) :
    ∃ addr, users.find? (·.isMatch lib user addr) = some r ∧
      (addr ≠ host → users.find? (·.isMatch lib user host) = none) := by
  unfold matchIdentity at h
  split at h
  · rename_i record hf
    exact ⟨host, hf.trans h, absurd rfl⟩
  rename_i hnone
  split at h
  · split at h
    · cases h
    · obtain ⟨addr, -, hf⟩ := List.exists_of_findSome?_eq_some h
      exact ⟨addr, hf, fun _ => hnone⟩
  · cases h

theorem compareUserRecord_of_rank {x y : UserRecord} (h : rank x.host < rank y.host) : compareUserRecord x y :=
  (compareBaseRecord_iff _ _).mpr (.inl (Prod.Lex.toLex_lt_toLex.mpr (.inl h)))

theorem mostSpecific_of_find? {lib : GoLib} {users sorted : List UserRecord} {user host : Bytes} {r : UserRecord}
    (hp : sorted.Perm users) (hs : sorted.Pairwise fun x y => ¬compareUserRecord y x)
    (h : sorted.find? (·.isMatch lib user host) = some r) : MostSpecific lib users user host r := by
  obtain ⟨hm, as, bs, rfl, has⟩ := List.find?_eq_some_iff_append.mp h
  refine ⟨hp.mem_iff.mp (by simp), hm, fun r' hr' hm' => ?_⟩
  -- The records before `r` do not match, and those behind it are not less than it.
  have hr' := hp.mem_iff.mpr hr'
  rw [List.mem_append, List.mem_cons] at hr'
  obtain hr' | rfl | hr' := hr'
  · exact absurd hm' (by simpa using has r' hr')
  · exact le_rfl
  · refine not_lt.mp fun hlt => ?_
    exact (List.pairwise_cons.mp (List.pairwise_append.mp hs).2.1).1 r' hr' (compareUserRecord_of_rank hlt)

theorem sortUserTable_iff (users : List UserRecord) :
    SortSpec users ↔ ∀ x ∈ users, ∀ y ∈ users, ¬x.toBaseRecord.Clash y.toBaseRecord := by
  constructor
  · intro h x hx y hy hc
    exact (h.specific y hy x hx hc.1).2 ((compareBaseRecord_iff _ _).mpr (.inr hc))
  intro h
  have hkey : ∀ x ∈ users, ∀ y ∈ users, (compareUserRecord x y ↔ x.key < y.key) := fun x hx y hy =>
    (compareBaseRecord_iff _ _).trans (or_iff_left (h x hx y hy))
  have hord := StrictWeakOn.of_key (fun x : UserRecord => x.key) hkey
  refine ⟨hord, fun x hx y hy hlt => ?_, fun sorted hsort lib lookupAddr user host skip r hr => ?_⟩
  · have hxy := compareUserRecord_of_rank hlt
    exact ⟨hxy, fun hyx => hord.irrefl x hx (hord.trans x hx y hy x hx hxy hyx)⟩
  · obtain ⟨addr, hfind, hnone⟩ := matchIdentity_finds hr
    refine ⟨addr, mostSpecific_of_find? hsort.1 (hsort.2 hord) hfind, fun hne r' hr' => ?_⟩
    exact List.find?_eq_none.mp (hnone hne) r' (hsort.1.mem_iff.mpr hr')

/-- Two hosts that end in a percent sign and two users: each record is less than the other one. -/
theorem compareUserRecord_both : ¬SortSpec [⟨⟨[0x25], [0x61]⟩, 0⟩, ⟨⟨[0x31, 0x25], [0x62]⟩, 0⟩] := by
  intro h
  exact (h.specific ⟨⟨[0x31, 0x25], [0x62]⟩, 0⟩ (by simp) ⟨⟨[0x25], [0x61]⟩, 0⟩ (by simp) (by decide)).2 (by decide)

end Privilege
