import Tidb.Structure.Slots

/-!
# Hashes

The fields of a hash stand one behind the other: their keys are those that start with the prefix of the
hash, and the code of a field keeps the order of the fields.  So a scan of the range of a hash meets its
fields, all of them and in their order, and a scan from above stops behind the first one.
-/

namespace Tidb.Structure

open GoLang ByteNum Codec List Slot SortedMap TxStructure

/-! ## The range of a prefix -/

theorem prefixNext_concat (q : Bytes) {c : UInt8} (hc : c + 1 ≠ 0) : prefixNext (q ++ [c]) = q ++ [c + 1] := by
  simp [prefixNext, incLast, hc]

theorem eq_of_le_of_lt_succ {c d : UInt8} (hc : c + 1 ≠ 0) (h : c ≤ d) (h' : d < c + 1) : d = c := by
  have hne : c.toNat + 1 ≠ 256 := by
    intro heq
    apply hc
    apply UInt8.toNat_inj.mp
    rw [UInt8.toNat_add, show (1 : UInt8).toNat = 1 from rfl, heq]
    rfl
  have hlt := c.toNat_lt
  have hsucc : (c + 1).toNat = c.toNat + 1 := by
    rw [UInt8.toNat_add, show (1 : UInt8).toNat = 1 from rfl, Nat.mod_eq_of_lt (by omega)]
  rw [UInt8.le_iff_toNat_le] at h
  rw [UInt8.lt_iff_toNat_lt] at h'
  apply UInt8.toNat_inj.mp
  omega

theorem between_last {c : UInt8} (hc : c + 1 ≠ 0) (x : Bytes) :
    ((compare [c] x).isLE = true ∧ compare x [c + 1] = .lt) ↔ [c] <+: x := by
  cases x with
  | nil => simp
  | cons d ds =>
    rw [List.compare_cons_cons, List.compare_cons_cons, Ordering.isLE_then_iff_or, Ordering.then_eq_lt,
      cons_prefix_cons]
    simp only [ nil_prefix, and_true, Std.compare_eq_lt, Std.compare_eq_iff_eq]
    constructor
    · rintro ⟨hle, hlt⟩
      have hle' : c ≤ d := by
        rcases hle with h | ⟨h, -⟩
        · exact UInt8.le_of_lt h
        · exact h ▸ UInt8.le_refl c
      rcases hlt with h | ⟨-, h⟩
      · exact (eq_of_le_of_lt_succ hc hle' h).symm
      · cases ds <;> cases h
    · rintro rfl
      refine ⟨.inr ⟨rfl, ?_⟩, .inl ?_⟩
      · cases ds <;> rfl
      · rw [UInt8.lt_iff_toNat_lt]
        by_contra hge
        apply hc
        have hlt := c.toNat_lt
        apply UInt8.toNat_inj.mp
        rw [UInt8.toNat_add, show (1 : UInt8).toNat = 1 from rfl] at hge ⊢
        show _ = 0
        omega

theorem between_prefixNext (q : Bytes) {c : UInt8} (hc : c + 1 ≠ 0) (x : Bytes) :
    ((compare (q ++ [c]) x).isLE = true ∧ compare x (prefixNext (q ++ [c])) = .lt) ↔ q ++ [c] <+: x := by
  rw [prefixNext_concat q hc]
  induction q generalizing x with
  | nil => exact between_last hc x
  | cons a q ih =>
    cases x with
    | nil => simp
    | cons d ds =>
      rw [cons_append, cons_append, List.compare_cons_cons, List.compare_cons_cons,
        Ordering.isLE_then_iff_or, Ordering.then_eq_lt, cons_prefix_cons, ← ih ds]
      simp only [Std.compare_eq_lt, Std.compare_eq_iff_eq]
      constructor
      · rintro ⟨h | ⟨rfl, h⟩, h' | ⟨heq, h'⟩⟩
        · exact absurd h (UInt8.lt_asymm h')
        · exact absurd h (heq ▸ UInt8.lt_irrefl d)
        · exact absurd h' (UInt8.lt_irrefl a)
        · exact ⟨rfl, h, h'⟩
      · rintro ⟨rfl, h, h'⟩
        exact ⟨.inr ⟨rfl, h⟩, .inr ⟨rfl, h'⟩⟩

/-! ## The scan of a hash -/

section Scan

variable {t : TxStructure} {s : KV} {k : Bytes} {h : SortedMap Bytes Bytes}

theorem hashDataKeyPrefix_concat (t : TxStructure) (k : Bytes) : ∃ q, t.hashDataKeyPrefix k = q ++ [0x68] := by
  have hflag : putUint64BE hashData = [0, 0, 0, 0, 0, 0, 0] ++ [0x68] := by decide
  refine ⟨t.prefixBytes ++ (encodeBytes [] k ++ [0, 0, 0, 0, 0, 0, 0]), ?_⟩
  rw [hashDataKeyPrefix_eq, hflag]
  simp

theorem inRange_hash (t : TxStructure) (k x : Bytes) : ((compare (t.hashDataKeyPrefix k) x).isLE = true ∧
      compare x (prefixNext (t.hashDataKeyPrefix k)) = .lt) ↔ t.hashDataKeyPrefix k <+: x := by
  obtain ⟨q, hq⟩ := hashDataKeyPrefix_concat t k
  rw [hq]
  exact between_prefixNext q (by decide) x

theorem compare_append_same (q x y : Bytes) : compare (q ++ x) (q ++ y) = compare x y := by
  rw [compare_append rfl, Std.compare_self, Ordering.eq_then]

theorem compare_encode_hash (t : TxStructure) (k f f' : Bytes) :
    compare ((hash k f).encode t) ((hash k f').encode t) = compare f f' := by
  rw [encode_hash, encode_hash, compare_append_same]
  exact orderedCode_encodeBytes.compare_eq trivial trivial

def fieldEntry (t : TxStructure) (k : Bytes) (e : Bytes × Bytes) : Bytes × Bytes :=
  ((hash k e.1).encode t, e.2)

def HashAt (σ : Slot → Option Bytes) (k : Bytes) (h : SortedMap Bytes Bytes) : Prop :=
  ∀ f, σ (.hash k f) = h.find f

theorem between_hash (hf : FieldsOnly t s) (hh : HashAt (view t s) k h) :
    s.between (t.hashDataKeyPrefix k) (prefixNext (t.hashDataKeyPrefix k)) = h.entries.map (fieldEntry t k) := by
  apply eq_of_mem_iff
  · exact s.sorted.filter _
  · apply List.Pairwise.map _ _ h.sorted
    intro e e' hlt
    exact (compare_encode_hash t k e.1 e'.1).trans hlt
  · intro e
    obtain ⟨key, v⟩ := e
    rw [between, mem_filter, ← find_eq_some, Bool.and_eq_true, Ordering.isLT_iff_eq_lt, inRange_hash, mem_map]
    constructor
    · rintro ⟨hfind, hp⟩
      obtain ⟨f, rfl⟩ := hf k key (by simp [hfind]) hp
      refine ⟨(f, v), ?_, rfl⟩
      rw [← find_eq_some, ← hh f]
      exact hfind
    · rintro ⟨⟨f, v'⟩, hmem, heq⟩
      cases heq
      rw [← find_eq_some, ← hh f] at hmem
      exact ⟨hmem, encode_hash t k f ▸ prefix_append _ _⟩

theorem decodeHashDataKey_encode (t : TxStructure) (k f : Bytes) :
    t.decodeHashDataKey ((hash k f).encode t) = .ok (k, f) := by
  have hp : t.prefixBytes.isPrefixOf ((hash k f).encode t) = true :=
    isPrefixOf_iff_prefix.mpr (prefix_encode _)
  have hkey : decodeBytes (encodeBytes [] k ++ (putUint64BE hashData ++ encodeBytes [] f)) [] =
      .ok (putUint64BE hashData ++ encodeBytes [] f, k) := decodeBytes_eq_ok_iff.mpr rfl
  have hflag : decodeUint (putUint64BE hashData ++ encodeBytes [] f) =
      .ok (encodeBytes [] f, hashData) := decodeUint_encodeUint hashData _
  have hfield : decodeBytes (encodeBytes [] f) [] = .ok ([], f) :=
    decodeBytes_eq_ok_iff.mpr (append_nil _).symm
  unfold decodeHashDataKey
  rw [hp]
  rw [encode, sliceFrom_append]
  simp only [Outcome.ok_bind, key, flag, rest, hkey, hflag, hfield]
  rfl

def forFields {α : Type} (fn : α → Bytes → Bytes → Txn (Bool × α)) : List (Bytes × Bytes) → α → Txn α
  | [], a => pure a
  | (field, value) :: es, a => do
    let (more, a) ← fn a field value
    if !more then return a else forFields fn es a

theorem iterLoop_map {α : Type} (fn : α → Bytes → Bytes → Txn (Bool × α)) (es : List (Bytes × Bytes))
    {rest : List (Bytes × Bytes)} (hrest : ∀ e ∈ rest, ¬t.hashDataKeyPrefix k <+: e.1) (a : α) :
    t.iterLoop (t.hashDataKeyPrefix k) fn (es.map (fieldEntry t k) ++ rest) a = forFields fn es a := by
  induction es generalizing a with
  | nil =>
    cases rest with
    | nil => rfl
    | cons e rest =>
      have hno : (t.hashDataKeyPrefix k).isPrefixOf e.1 = false := by
        rw [Bool.eq_false_iff, ne_eq, isPrefixOf_iff_prefix]
        exact hrest e (mem_cons_self ..)
      show t.iterLoop _ fn (e :: rest) a = pure a
      rw [iterLoop, hno]
      rfl
  | cons e es ih =>
    have hyes : (t.hashDataKeyPrefix k).isPrefixOf ((hash k e.1).encode t) = true := by
      rw [ isPrefixOf_iff_prefix, encode_hash]
      exact prefix_append _ _
    show t.iterLoop _ fn (fieldEntry t k e :: (es.map (fieldEntry t k) ++ rest)) a = _
    rw [fieldEntry, iterLoop, hyes, decodeHashDataKey_encode]
    simp only [ih]
    rfl

theorem iterateHash_run {α : Type} (hf : FieldsOnly t s) (hh : HashAt (view t s) k h)
    (fn : α → Bytes → Bytes → Txn α) (a : α) : t.iterateHash k fn a s =
      forFields (fun a field value => do return (true, ← fn a field value)) h.entries a s := by
  have hscan : Txn.iter (t.hashDataKeyPrefix k) (prefixNext (t.hashDataKeyPrefix k)) s =
      (.ok (h.entries.map (fieldEntry t k) ++ []), s) := by
    rw [Txn.iter, between_hash hf hh, append_nil]
  simp only [iterateHash, Action.bind_ok hscan]
  rw [iterLoop_map _ _ (by simp)]

theorem not_prefix_of_below {e : Bytes × Bytes} (he : e ∈ s.belowReverse (t.hashDataKeyPrefix k)) :
    ¬t.hashDataKeyPrefix k <+: e.1 := by
  rw [SortedMap.belowReverse, mem_reverse, mem_filter, Ordering.isLT_iff_eq_lt] at he
  intro hp
  have hle := ((inRange_hash t k e.1).mpr hp).1
  rw [Std.OrientedOrd.eq_swap, he.2] at hle
  cases hle

/-- A scan from above meets the last field first, and no other key of the prefix behind the first. -/
theorem iterReverseHash_run {α : Type} (hf : FieldsOnly t s) (hh : HashAt (view t s) k h)
    (fn : α → Bytes → Bytes → Txn (Bool × α)) (a : α) :
    t.iterReverseHash k fn a s = forFields fn h.entries.reverse a s := by
  have hbelow := s.belowReverse_eq (Ordering.isLE_of_eq_lt ((inRange_hash t k _).mpr (prefix_refl _)).2)
  rw [between_hash hf hh, ← map_reverse] at hbelow
  have hscan : Txn.iterReverse (prefixNext (t.hashDataKeyPrefix k)) s =
      (.ok (h.entries.reverse.map (fieldEntry t k) ++ s.belowReverse (t.hashDataKeyPrefix k)), s) := by
    rw [Txn.iterReverse, hbelow]
  simp only [iterReverseHash, Action.bind_ok hscan]
  rw [iterLoop_map]
  exact fun e => not_prefix_of_below

theorem forFields_pure {α : Type} (f : α → Bytes → Bytes → α) (es : List (Bytes × Bytes)) (a : α) (s : KV) :
    forFields (fun a field value => do return (true, ← (pure (f a field value) : Txn α))) es a s =
      (.ok (es.foldl (fun a e => f a e.1 e.2) a), s) := by
  induction es generalizing a with
  | nil => rfl
  | cons e es ih => exact ih (f a e.1 e.2)

theorem hKeys_run (hf : FieldsOnly t s) (hh : HashAt (view t s) k h) :
    t.hKeys k s = (.ok (h.entries.map Prod.fst), s) := by
  rw [hKeys, iterateHash_run hf hh, forFields_pure]
  have hfold : ∀ (es : List (Bytes × Bytes)) (acc : List Bytes),
      es.foldl (fun a e => a ++ [e.1]) acc = acc ++ es.map Prod.fst := by
    intro es
    induction es with
    | nil => simp
    | cons e es ih => simp [ih]
  rw [hfold, nil_append]

theorem hGetAll_run (hf : FieldsOnly t s) (hh : HashAt (view t s) k h) : t.hGetAll k s = (.ok h.entries, s) := by
  rw [hGetAll, iterateHash_run hf hh, forFields_pure]
  have hfold : ∀ (es acc : List (Bytes × Bytes)), es.foldl (fun a e => a ++ [(e.1, e.2)]) acc = acc ++ es := by
    intro es
    induction es with
    | nil => simp
    | cons e es ih => simp [ih]
  rw [hfold, nil_append]

theorem hGetLen_run (hf : FieldsOnly t s) (hh : HashAt (view t s) k h) : t.hGetLen k s = (.ok h.entries.length, s) := by
  rw [hGetLen, iterateHash_run hf hh, forFields_pure]
  have hfold : ∀ (es : List (Bytes × Bytes)) (n : ℕ), es.foldl (fun a _ => a + 1) n = n + es.length := by
    intro es
    induction es with
    | nil => simp
    | cons e es ih =>
      intro n
      rw [foldl_cons, ih, length_cons]
      omega
  rw [hfold, Nat.zero_add]

/-- The loop of `HGetLastN` looks at the number after it has taken a field: it takes one even if it
should take none. -/
theorem lastN_run (num : ℤ) (es res : List (Bytes × Bytes)) (hres : (res.length : ℤ) < max num 1) :
    forFields (fun res field value =>
      let res := res ++ [(field, value)]
      pure (!decide (num ≤ res.length), res)) es res s =
      (.ok (res ++ es.take ((max num 1).toNat - res.length)), s) := by
  induction es generalizing res with
  | nil =>
    simp only [forFields, take_nil, append_nil]
    rfl
  | cons e es ih =>
    have hpos : (max num 1).toNat - res.length = (max num 1).toNat - (res.length + 1) + 1 := by omega
    rw [forFields, hpos, take_succ_cons]
    by_cases hle : num ≤ (res ++ [(e.1, e.2)]).length
    · have hzero : (max num 1).toNat - (res.length + 1) = 0 := by
        simp at hle
        omega
      simp only [hle, decide_true, Bool.not_true, hzero, take_zero]
      rfl
    · simp only [hle, decide_false, Bool.not_false]
      have hlen : ((res ++ [(e.1, e.2)]).length : ℤ) < max num 1 := by omega
      have htail := ih (res ++ [(e.1, e.2)]) hlen
      rw [show (res ++ [(e.1, e.2)]).length = res.length + 1 by simp, append_assoc] at htail
      exact htail

theorem hGetLastN_run (hf : FieldsOnly t s) (hh : HashAt (view t s) k h) {num : ℤ} (hnum : 0 ≤ num) :
    t.hGetLastN k num s = (.ok (h.entries.reverse.take (max num 1).toNat), s) := by
  rw [hGetLastN, if_neg (by omega), iterReverseHash_run hf hh]
  exact lastN_run num h.entries.reverse [] (by simp)

end Scan

/-! ## Writes -/

def Slot.OfHash (k : Bytes) : Slot → Prop
  | .hash key _ => key = k
  | _ => False

theorem ofHash_field (k f : Bytes) : Slot.OfHash k (.hash k f) := rfl

section Writes

variable {t : TxStructure} {s : KV} {k : Bytes} {h : SortedMap Bytes Bytes}

theorem HashAt.of_writes (hh : HashAt (view t s) k h) {f : Bytes} {x : Option Bytes} {s' : KV}
    (hw : Writes t (.hash k f) x s s') {h' : SortedMap Bytes Bytes} (hself : h'.find f = x)
    (hothers : ∀ f' ≠ f, h'.find f' = h.find f') : HashAt (view t s') k h' := by
  intro f'
  rw [hw.view]
  by_cases hf : f' = f
  · subst hf
    rw [Function.update_self, hself]
  · rw [Function.update_of_ne (by simpa using hf), hothers f' hf]
    exact hh f'

theorem HashAt.insert (hh : HashAt (view t s) k h) (f v : Bytes) :
    HashAt (view t (s.insert ((hash k f).encode t) v)) k (h.insert f v) :=
  hh.of_writes (writes_insert s _ v) (h.find_insert_self f v) fun _ hf => h.find_insert_of_ne hf v

theorem HashAt.erase (hh : HashAt (view t s) k h) (f : Bytes) :
    HashAt (view t (s.erase ((hash k f).encode t))) k (h.erase f) :=
  hh.of_writes (writes_erase s _) (h.find_erase_self f) fun _ hf => h.find_erase_of_ne hf

theorem updateHash_run {α : Type} (hh : HashAt (view t s) k h) (f : Bytes)
    {fn : Option Bytes → Res (α × Bytes)} {a : α} {v : Bytes} (hfn : fn (h.find f) = .ok (a, v)) (hv : v ≠ []) :
    ∃ s', Effect t (Slot.OfHash k) s s' ∧ t.updateHash k f fn s = (.ok a, s') ∧
      HashAt (view t s') k (h.insert f v) := by
  have hget : Txn.get ((hash k f).encode t) s = (.ok (h.find f), s) := by rw [get_run, hh f]
  simp only [updateHash, encodeHashDataKey_eq, Action.bind_ok hget, hfn]
  by_cases heq : (h.find f).getD [] = v
  · have hfind : h.find f = some v := by
      cases hfind : h.find f with
      | none =>
        rw [hfind] at heq
        exact absurd heq.symm hv
      | some w =>
        rw [hfind] at heq
        exact congrArg some heq
    refine ⟨s, Effect.refl _ s, ?_, hh.of_writes ⟨hh f, fun _ _ => rfl⟩
        ((h.find_insert_self f v).trans hfind.symm) fun _ hf => h.find_insert_of_ne hf v⟩
    show (if _ then _ else _ : Txn α) s = _
    rw [if_pos heq]
    rfl
  · refine ⟨_, effect_insert s (ofHash_field k f) v, ?_, hh.insert f v⟩
    show (if _ then _ else _ : Txn α) s = _
    rw [if_neg heq, Action.bind_ok (set_run _ hv)]
    rfl

theorem updateHash_error {α : Type} (hh : HashAt (view t s) k h) (f : Bytes)
    {fn : Option Bytes → Res (α × Bytes)} {e : Err} (hfn : fn (h.find f) = .error e) :
    t.updateHash k f fn s = (.error e, s) := by
  have hget : Txn.get ((hash k f).encode t) s = (.ok (h.find f), s) := by rw [get_run, hh f]
  simp only [updateHash, encodeHashDataKey_eq, Action.bind_ok hget, hfn]
  rfl

theorem deleteFields_run (hh : HashAt (view t s) k h) (fields : List Bytes) : ∃ s', Effect t (Slot.OfHash k) s s' ∧
    t.deleteFields k fields s = (.ok (), s') ∧ HashAt (view t s') k (fields.foldl erase h) := by
  induction fields generalizing s h with
  | nil => exact ⟨s, Effect.refl _ s, rfl, hh⟩
  | cons f fields ih =>
    have hget : Txn.get ((hash k f).encode t) s = (.ok (h.find f), s) := by rw [get_run, hh f]
    obtain ⟨s₁, heff₁, hrun₁, hh₁⟩ : ∃ s₁, Effect t (Slot.OfHash k) s s₁ ∧
        t.deleteField k f s = (.ok (), s₁) ∧ HashAt (view t s₁) k (h.erase f) := by
      simp only [deleteField, encodeHashDataKey_eq, Action.bind_ok hget]
      cases hfind : h.find f with
      | none => exact ⟨s, Effect.refl _ s, rfl, hh.of_writes ⟨hh f, fun _ _ => rfl⟩
        ((h.find_erase_self f).trans hfind.symm) fun _ hf => h.find_erase_of_ne hf⟩
      | some v => exact ⟨_, effect_erase s (ofHash_field k f), delete_run _, hh.erase f⟩
    obtain ⟨s', heff, hrun, hh'⟩ := ih hh₁
    refine ⟨s', heff₁.trans heff, ?_, hh'⟩
    rw [deleteFields, Action.bind_ok hrun₁, hrun]

theorem find_foldl_erase (fields : List Bytes) (h : SortedMap Bytes Bytes) (f : Bytes) :
    (fields.foldl erase h).find f = if f ∈ fields then none else h.find f := by
  induction fields generalizing h with
  | nil => rfl
  | cons g fields ih =>
    rw [foldl_cons, ih]
    by_cases hfg : f = g
    · subst hfg
      simp
    · simp [hfg, find_erase_of_ne _ hfg]

theorem clearFields_run (hw : t.writable = true) (hh : HashAt (view t s) k h) (es : List (Bytes × Bytes)) :
    ∃ s', Effect t (Slot.OfHash k) s s' ∧ forFields (fun _ field _ => do
        return (true, ← (if t.writable then Txn.delete (t.encodeHashDataKey k field)
          else Action.lift .fault : Txn Unit))) es () s = (.ok (), s') ∧
      HashAt (view t s') k ((es.map Prod.fst).foldl erase h) := by
  induction es generalizing s h with
  | nil => exact ⟨s, Effect.refl _ s, rfl, hh⟩
  | cons e es ih =>
    obtain ⟨s', heff, hrun, hh'⟩ := ih (hh.erase e.1)
    refine ⟨s', (effect_erase s (ofHash_field k e.1)).trans heff, ?_, hh'⟩
    rw [← hrun]
    simp only [hw, encodeHashDataKey_eq]
    rfl

theorem hClear_run (hw : t.writable = true) (hf : FieldsOnly t s) (hh : HashAt (view t s) k h) :
    ∃ s', Effect t (Slot.OfHash k) s s' ∧ t.hClear k s = (.ok (), s') ∧ HashAt (view t s') k .empty := by
  obtain ⟨s', heff, hrun, hh'⟩ := clearFields_run hw hh h.entries
  refine ⟨s', heff, ?_, fun f => ?_⟩
  · rw [hClear, iterateHash_run hf hh]
    exact hrun
  · rw [hh' f, find_foldl_erase, find_empty]
    by_cases hmem : f ∈ h.entries.map Prod.fst
    · rw [if_pos hmem]
    · rw [if_neg hmem]
      cases hfind : h.find f with
      | none => rfl
      | some v => exact absurd (mem_map_of_mem (h.find_eq_some.mp hfind)) hmem

end Writes

end Tidb.Structure
