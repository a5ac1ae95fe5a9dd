import Tidb.Structure.Hashes

/-!
# The reverse iterator of a hash

`ReverseHashIterator` reads the field of an entry when it steps to it.  When it is made it has stepped to
no entry: it shows its first one, of whatever kind it is, with no field.
-/

namespace Tidb.Structure

open GoLang ByteNum Codec List Slot

/-- `iter` is what is left of the entries that the transaction's iterator goes over; at their end its key
has no bytes. -/
structure ReverseHashIterator where
  iter : List (Bytes × Bytes)
  prefixBytes : Bytes
  done : Bool := false
  field : Bytes := []

namespace ReverseHashIterator

def valid (i : ReverseHashIterator) : Bool := !i.iter.isEmpty && !i.done

def key (i : ReverseHashIterator) : Bytes := i.field

def value (i : ReverseHashIterator) : Bytes := (i.iter.head?.map Prod.snd).getD []

def next (t : TxStructure) (i : ReverseHashIterator) : Res ReverseHashIterator := do
  let iter := i.iter.tail
  let iterKey := (iter.head?.map Prod.fst).getD []
  if !i.prefixBytes.isPrefixOf iterKey then return { i with iter, done := true }
  else
    let (_, field) ← t.decodeHashDataKey iterKey
    return { i with iter, field }

/-- What a caller sees who walks over the iterator until it is not valid; that is so after as many steps
as there are entries. -/
def walk (t : TxStructure) : ℕ → ReverseHashIterator → Res (List (Bytes × Bytes))
  | 0, _ => .ok []
  | n + 1, i =>
    if i.valid then do
      let pairs ← walk t n (← i.next t)
      return (i.key, i.value) :: pairs
    else .ok []

end ReverseHashIterator

def newHashReverseIter (t : TxStructure) (key field : Bytes) (s : KV) : ReverseHashIterator :=
  let dataPrefix := t.hashDataKeyPrefix key
  let iterStart := if field.length = 0 then prefixNext dataPrefix else prefixNext (t.encodeHashDataKey key field)
  { iter := s.belowReverse iterStart, prefixBytes := dataPrefix }

def walkReverse (t : TxStructure) (key : Bytes) (start : Option Bytes) (s : KV) : Res (List (Bytes × Bytes)) :=
  let i := newHashReverseIter t key (start.getD []) s
  i.walk t i.iter.length

def upTo (f : Bytes) (h : SortedMap Bytes Bytes) : List (Bytes × Bytes) :=
  h.entries.filter fun e => (compare e.1 f).isLE

def wanted (h : SortedMap Bytes Bytes) : Option Bytes → List (Bytes × Bytes)
  | none => h.entries
  | some f => upTo f h

/-- The pairs of the hash that are scanned: an empty field is taken for none. -/
def scanned (h : SortedMap Bytes Bytes) (start : Option Bytes) : List (Bytes × Bytes) :=
  if start.getD [] = [] then h.entries else upTo (start.getD []) h

section Scan

variable {t : TxStructure} {s : KV} {k : Bytes} {h : SortedMap Bytes Bytes}

theorem exists_encodeBytes_concat (f : Bytes) : ∃ q c, encodeBytes [] f = q ++ [c] ∧ c + 1 ≠ 0 := by
  induction f using groups_induction with
  | short d hd =>
    refine ⟨d ++ replicate (8 - d.length) encPad, _, encodeBytes_short hd, ?_⟩
    have hpad : ∀ n : Fin 8, encMarker - UInt8.ofNat (8 - n) + 1 ≠ 0 := by decide
    exact hpad ⟨d.length, hd⟩
  | full g d hg ih =>
    obtain ⟨q, c, hq, hc⟩ := ih
    exact ⟨g ++ encMarker :: q, c, by rw [encodeBytes_full hg, hq]; simp, hc⟩

theorem inRange_field (t : TxStructure) (k f x : Bytes) : ((compare ((hash k f).encode t) x).isLE = true ∧
      compare x (prefixNext ((hash k f).encode t)) = .lt) ↔ (hash k f).encode t <+: x := by
  obtain ⟨q, c, hq, hc⟩ := exists_encodeBytes_concat f
  rw [encode_hash, hq, ← append_assoc]
  exact between_prefixNext _ hc x

theorem compare_prefixNext_field (t : TxStructure) (k f f' : Bytes) :
    compare ((hash k f').encode t) (prefixNext ((hash k f).encode t)) = .lt ↔ (compare f' f).isLE = true := by
  have hself := (inRange_field t k f _).mpr (prefix_refl _)
  constructor
  · intro hlt
    by_contra hgt
    rw [Ordering.isLE_iff_ne_gt, not_not] at hgt
    -- the key of a greater field does not start with that of `f`
    have hle : (compare ((hash k f).encode t) ((hash k f').encode t)).isLE = true := by
      rw [compare_encode_hash, Std.OrientedOrd.eq_swap, hgt]
      rfl
    obtain ⟨r, hr⟩ := (inRange_field t k f _).mp ⟨hle, hlt⟩
    rw [encode_hash, encode_hash, append_assoc, append_right_inj] at hr
    have hinj := @encodeBytes_append_inj f f' r [] (by rw [hr, append_nil])
    rw [hinj.1, Std.compare_self] at hgt
    cases hgt
  · intro hle
    rw [← compare_encode_hash t k] at hle
    exact Std.TransCmp.lt_of_isLE_of_lt hle hself.2

theorem lt_prefixNext_hash {x : Bytes} (f : Bytes) (hlt : compare x (prefixNext ((hash k f).encode t)) = .lt) :
    compare x (prefixNext (t.hashDataKeyPrefix k)) = .lt := by
  have hp : t.hashDataKeyPrefix k <+: (hash k f).encode t := encode_hash t k f ▸ prefix_append _ _
  by_cases hle : (compare ((hash k f).encode t) x).isLE = true
  · exact ((inRange_hash t k x).mpr (hp.trans ((inRange_field t k f x).mp ⟨hle, hlt⟩))).2
  · rw [Ordering.isLE_iff_ne_gt, not_not] at hle
    exact Std.TransCmp.lt_trans (Std.OrientedCmp.lt_of_gt hle) ((inRange_hash t k _).mpr hp).2

theorem between_upTo (hf : FieldsOnly t s) (hh : HashAt (view t s) k h) (f : Bytes) :
    s.between (t.hashDataKeyPrefix k) (prefixNext ((hash k f).encode t)) = (upTo f h).map (fieldEntry t k) := by
  have hinner : s.between (t.hashDataKeyPrefix k) (prefixNext ((hash k f).encode t)) =
      (s.between (t.hashDataKeyPrefix k) (prefixNext (t.hashDataKeyPrefix k))).filter fun e =>
        (compare e.1 (prefixNext ((hash k f).encode t))).isLT := by
    rw [SortedMap.between, SortedMap.between, filter_filter]
    refine filter_congr fun e _ => Bool.eq_iff_iff.mpr ?_
    simp only [Bool.and_eq_true, Ordering.isLT_iff_eq_lt]
    exact ⟨fun h => ⟨h.2, h.1, lt_prefixNext_hash f h.2⟩, fun h => ⟨h.2.1, h.1⟩⟩
  rw [hinner, between_hash hf hh, filter_map]
  congr 1
  refine filter_congr fun e _ => Bool.eq_iff_iff.mpr ?_
  rw [Function.comp_apply, Ordering.isLT_iff_eq_lt]
  exact compare_prefixNext_field t k f e.1

/-- The scan meets the scanned fields from the last one on, and behind them the keys below those of the hash. -/
theorem iter_newHashReverseIter (hf : FieldsOnly t s) (hh : HashAt (view t s) k h) (start : Option Bytes) :
    (newHashReverseIter t k (start.getD []) s).iter =
      (scanned h start).reverse.map (fieldEntry t k) ++ s.belowReverse (t.hashDataKeyPrefix k) := by
  by_cases hnil : start.getD [] = []
  · have hlt := ((inRange_hash t k _).mpr (prefix_refl _)).2
    rw [scanned, if_pos hnil, map_reverse, ← between_hash hf hh, ← s.belowReverse_eq (Ordering.isLE_of_eq_lt hlt), hnil]
    rfl
  · have hle : (compare (t.hashDataKeyPrefix k) ((hash k (start.getD [])).encode t)).isLE = true :=
      ((inRange_hash t k _).mpr (encode_hash t k _ ▸ prefix_append _ _)).1
    have hlt := ((inRange_field t k (start.getD []) _).mpr (prefix_refl _)).2
    rw [scanned, if_neg hnil, map_reverse, ← between_upTo hf hh,
      ← s.belowReverse_eq (Ordering.isLE_of_eq_lt (Std.TransCmp.lt_of_isLE_of_lt hle hlt)), newHashReverseIter,
      if_neg fun hlen => hnil (length_eq_zero_iff.mp hlen), encodeHashDataKey_eq]

/-! ## The walk -/

theorem isPrefixOf_nil (t : TxStructure) (k : Bytes) : (t.hashDataKeyPrefix k).isPrefixOf [] = false := by
  obtain ⟨q, hq⟩ := hashDataKeyPrefix_concat t k
  rw [hq]
  cases q <;> rfl

theorem walk_succ {i i' : ReverseHashIterator} {n : ℕ} {pairs : List (Bytes × Bytes)} (hvalid : i.valid = true)
    (hnext : i.next t = .ok i') (hwalk : i'.walk t n = .ok pairs) :
    i.walk t (n + 1) = .ok ((i.key, i.value) :: pairs) := by
  rw [ReverseHashIterator.walk, if_pos hvalid, hnext, Outcome.ok_bind, hwalk]
  rfl

theorem walk_last {e : Bytes × Bytes} {rest : List (Bytes × Bytes)} (n : ℕ) (f : Bytes)
    (hrest : ∀ e ∈ rest, ¬t.hashDataKeyPrefix k <+: e.1) :
    ReverseHashIterator.walk t (n + 1) ⟨e :: rest, t.hashDataKeyPrefix k, false, f⟩ = .ok [(f, e.2)] := by
  have hno : (t.hashDataKeyPrefix k).isPrefixOf ((rest.head?.map Prod.fst).getD []) = false := by
    cases rest with
    | nil => exact isPrefixOf_nil t k
    | cons e' rest =>
      rw [Bool.eq_false_iff, ne_eq, isPrefixOf_iff_prefix]
      exact hrest e' mem_cons_self
  have hnext : ReverseHashIterator.next t ⟨e :: rest, t.hashDataKeyPrefix k, false, f⟩ =
      .ok ⟨rest, t.hashDataKeyPrefix k, true, f⟩ := by
    simp only [ReverseHashIterator.next, tail_cons, hno]
    rfl
  have hend : ReverseHashIterator.walk t n ⟨rest, t.hashDataKeyPrefix k, true, f⟩ = .ok [] := by
    cases n with
    | zero => rfl
    | succ n => simp [ReverseHashIterator.walk, ReverseHashIterator.valid]
  exact walk_succ rfl hnext hend

theorem walk_fields (es : List (Bytes × Bytes)) {rest : List (Bytes × Bytes)}
    (hrest : ∀ e ∈ rest, ¬t.hashDataKeyPrefix k <+: e.1) (e : Bytes × Bytes) (n : ℕ) (hn : es.length ≤ n) (f : Bytes) :
    ReverseHashIterator.walk t (n + 1)
        ⟨(e :: es).map (fieldEntry t k) ++ rest, t.hashDataKeyPrefix k, false, f⟩ = .ok ((f, e.2) :: es) := by
  induction es generalizing e n f with
  | nil => exact walk_last n f hrest
  | cons e' es ih =>
    obtain ⟨n, rfl⟩ : ∃ m, n = m + 1 := Nat.exists_eq_succ_of_ne_zero (by rw [length_cons] at hn; omega)
    have hyes : (t.hashDataKeyPrefix k).isPrefixOf ((hash k e'.1).encode t) = true := by
      rw [ isPrefixOf_iff_prefix, encode_hash]
      exact prefix_append _ _
    have hnext : ReverseHashIterator.next t
        ⟨(e :: e' :: es).map (fieldEntry t k) ++ rest, t.hashDataKeyPrefix k, false, f⟩ =
        .ok ⟨(e' :: es).map (fieldEntry t k) ++ rest, t.hashDataKeyPrefix k, false, e'.1⟩ := by
      simp only [ReverseHashIterator.next, map_cons, cons_append, tail_cons, head?_cons,
        Option.map_some, Option.getD_some, fieldEntry, hyes, decodeHashDataKey_encode]
      rfl
    exact walk_succ rfl hnext (ih e' n (by simpa using hn) e'.1)

theorem wanted_sublist_scanned (h : SortedMap Bytes Bytes) (start : Option Bytes) :
    (wanted h start).Sublist (scanned h start) := by
  rw [scanned]
  cases start with
  | none => exact List.Sublist.refl _
  | some f =>
    split
    · exact filter_sublist
    · exact List.Sublist.refl _

theorem wanted_sublist (h : SortedMap Bytes Bytes) (start : Option Bytes) : (wanted h start).Sublist h.entries := by
  cases start with
  | none => exact List.Sublist.refl _
  | some f => exact filter_sublist

theorem wanted_of_scanned {v : Bytes} {start : Option Bytes} (heq : scanned h start = [([], v)]) :
    wanted h start = [([], v)] := by
  cases start with
  | none => exact heq
  | some f =>
    rw [scanned] at heq
    split at heq
    · rw [wanted, upTo, heq]
      cases f <;> rfl
    · exact heq

theorem eq_nil_of_head_nil {l rest : List (Bytes × Bytes)} (hl : SortedKeys l) {v : Bytes}
    (heq : l.reverse = ([], v) :: rest) : rest = [] := by
  cases rest with
  | nil => rfl
  | cons e rest =>
    have hdesc := pairwise_reverse.mpr hl
    rw [heq] at hdesc
    have hlt : compare e.1 [] = .lt := rel_of_pairwise_cons hdesc mem_cons_self
    cases he : e.1 <;> rw [he] at hlt <;> cases hlt

/-- A walk yields the pairs of the hash, from the given field downwards, exactly when the hash has no field in the
scanned range and the store no key below those of the hash, or the hash has no field in that range but the empty one. -/
theorem walkReverse_eq_iff (t : TxStructure) (s : KV) (k : Bytes) (h : SortedMap Bytes Bytes)
    (start : Option Bytes) (hf : FieldsOnly t s) (hh : HashAt (view t s) k h) :
    walkReverse t k start s = .ok (wanted h start).reverse ↔
      scanned h start = [] ∧ s.belowReverse (t.hashDataKeyPrefix k) = [] ∨ ∃ v, scanned h start = [([], v)] := by
  have hrest : ∀ e ∈ s.belowReverse (t.hashDataKeyPrefix k), _ := fun _ => not_prefix_of_below
  have hi : newHashReverseIter t k (start.getD []) s =
      ⟨(newHashReverseIter t k (start.getD []) s).iter, t.hashDataKeyPrefix k, false, []⟩ := rfl
  have hsub := wanted_sublist_scanned h start
  rw [walkReverse, hi, iter_newHashReverseIter hf hh start]
  generalize s.belowReverse (t.hashDataKeyPrefix k) = rest at *
  generalize hes : (scanned h start).reverse = es
  cases es with
  | nil =>
    have hnil : scanned h start = [] := reverse_eq_nil_iff.mp hes
    rw [hnil] at hsub ⊢
    rw [sublist_nil.mp hsub]
    cases rest with
    | nil => exact ⟨fun _ => .inl ⟨rfl, rfl⟩, fun _ => rfl⟩
    | cons e rest =>
      have hwalk : ReverseHashIterator.walk t (rest.length + 1) ⟨e :: rest, t.hashDataKeyPrefix k, false, []⟩ =
          .ok [([], e.2)] := walk_last _ _ fun e he => hrest e (mem_cons_of_mem _ he)
      refine iff_of_false (fun heq => ?_) ?_
      · cases hwalk.symm.trans heq
      · rintro (⟨-, heq⟩ | ⟨v, heq⟩) <;> cases heq
  | cons e es =>
    have hwalk := walk_fields es hrest e ((es.map (fieldEntry t k) ++ rest).length) (by simp) []
    have hlen : ((e :: es).map (fieldEntry t k) ++ rest).length = (es.map (fieldEntry t k) ++ rest).length + 1 := rfl
    simp only [hlen, hwalk, Outcome.ok.injEq]
    have hscan : scanned h start = (e :: es).reverse := by rw [← hes, reverse_reverse]
    constructor
    · intro heq
      have hsorted := List.Pairwise.sublist (wanted_sublist h start) h.sorted
      obtain rfl := eq_nil_of_head_nil hsorted heq.symm
      rw [hscan] at hsub
      have hmem : (([], e.2) : Bytes × Bytes) ∈ [e] := hsub.subset (mem_reverse.mp (heq ▸ mem_cons_self))
      refine .inr ⟨e.2, ?_⟩
      rw [hscan, mem_singleton.mp hmem]
      rfl
    · rintro (⟨hnil, -⟩ | ⟨v, heq⟩)
      · rw [hscan, reverse_eq_nil_iff] at hnil
        cases hnil
      · rw [wanted_of_scanned heq]
        have hes' := congrArg reverse (hscan.symm.trans heq)
        rw [reverse_reverse] at hes'
        cases hes'
        rfl

end Scan

def metaStructure : TxStructure := ⟨[0x6D], true⟩

/-- The hash "h" has the empty field, and there is the string "a". -/
theorem walkReverse_empty_field :
    let s : KV := (SortedMap.empty.insert ((hash [0x68] []).encode metaStructure) [1]).insert
      ((str [0x61]).encode metaStructure) [2]
    HashAt (view metaStructure s) [0x68] (SortedMap.empty.insert [] [1]) ∧
      walkReverse metaStructure [0x68] none s = .ok [([], [1])] := by
  intro s
  have hh : HashAt (view metaStructure s) [0x68] (SortedMap.empty.insert [] [1]) := by
    intro f
    rw [view_insert, view_insert, Function.update_of_ne Slot.noConfusion]
    by_cases hf : f = []
    · rw [hf, Function.update_self, SortedMap.find_insert_self]
    · rw [Function.update_of_ne fun heq => hf (hash.inj heq).2, SortedMap.find_insert_of_ne _ hf]
      rfl
  have hf : FieldsOnly metaStructure s :=
    (writes_insert _ _ _).fieldsOnly ((writes_insert _ _ _).fieldsOnly fun _ _ hfind => absurd rfl hfind)
  exact ⟨hh, (walkReverse_eq_iff _ s _ _ none hf hh).mpr (.inr ⟨[1], rfl⟩)⟩

def smallStore : KV :=
  (SortedMap.empty.insert ((hash [0x68] [0x66]).encode metaStructure) [1]).insert
    ((str [0x61]).encode metaStructure) [2]

/-- The field of the first pair is missing, and a hash without fields shows the string. -/
theorem walkReverse_smallStore :
    walkReverse metaStructure [0x68] none smallStore = .ok [([], [1])] ∧
      view metaStructure smallStore (.hash [0x68] []) = none ∧
      walkReverse metaStructure [0x62] none smallStore = .ok [([], [2])] ∧
      view metaStructure smallStore (.hash [0x62] []) = none :=
  ⟨rfl, rfl, rfl, rfl⟩

end Tidb.Structure
