import Tidb.Structure.Slots

/-!
# Lists

A list of `n` elements stands in the slots `l` to `l + n - 1` for some `l`.  Pushes and pops move one of
the two ends; the indexes stay within the number of pushes, so they do not wrap around.
-/

namespace Tidb.Structure

open GoLang ByteNum Codec List Function ListMeta Int64 TxStructure Action Effect

def Slot.OfList (k : Bytes) : Slot → Prop
  | .listMeta key => key = k
  | .listData key _ => key = k
  | _ => False

/-- The slots hold the list `xs`, from the index `l` on; its length and its indexes are within `b`. -/
structure ListAt (b : ℕ) (σ : Slot → Option Bytes) (k : Bytes) (xs : List Bytes) (l : ℤ) : Prop where
  lo : -b ≤ l
  hi : l + xs.length ≤ b
  count : xs.length ≤ b
  zero : xs = [] → l = 0
  record : σ (.listMeta k) = if xs = [] then none
    else some (ListMeta.value ⟨Int64.ofInt l, Int64.ofInt (l + xs.length)⟩)
  data : ∀ i (h : i < xs.length), σ (.listData k (Int64.ofInt (l + i))) = some xs[i]

theorem toInt_ofInt {x : ℤ} (h : IsInt64 x) : (ofInt x).toInt = x :=
  toInt_ofInt_of_le h.1 h.2

theorem ofInt_inj {x y : ℤ} (hx : IsInt64 x) (hy : IsInt64 y) (h : ofInt x = ofInt y) : x = y := by
  rw [← toInt_ofInt hx, h, toInt_ofInt hy]

section ListAt

variable {t : TxStructure} {b : ℕ} {σ σ' : Slot → Option Bytes} {k : Bytes} {xs : List Bytes} {l : ℤ}
  {s : KV}

theorem ListAt.congr (h : ListAt b σ k xs l) {b' : ℕ} (hb : b ≤ b') (hm : σ' (.listMeta k) = σ (.listMeta k))
    (hd : ∀ i, i < xs.length → σ' (.listData k (ofInt (l + i))) =
      σ (.listData k (ofInt (l + i)))) : ListAt b' σ' k xs l := by
  have hlo := h.lo
  have hhi := h.hi
  refine ⟨by omega, by omega, h.count.trans hb, h.zero, ?_, fun i hi => ?_⟩
  · rw [hm, h.record]
  · rw [hd i hi, h.data i hi]

theorem ListAt.isInt64 (h : ListAt b σ k xs l) (hb : b < 2 ^ 63) {i : ℤ} (h0 : 0 ≤ i)
    (hi : i ≤ xs.length) : IsInt64 (l + i) := by
  have hlo := h.lo
  have hhi := h.hi
  constructor <;> omega

theorem ListMeta.value_ne_nil (m : ListMeta) : m.value ≠ [] := by
  intro h
  have hlen := congrArg length h
  simp [ListMeta.value] at hlen

theorem ListMeta.isEmpty_ofInt {l r : ℤ} (hl : IsInt64 l) (hr : IsInt64 r) :
    (mk (ofInt l) (ofInt r)).isEmpty = decide (r ≤ l) := by
  simp only [isEmpty, le_iff_toInt_le, toInt_ofInt hl, toInt_ofInt hr]

theorem ListAt.isEmpty (h : ListAt b σ k xs l) (hb : b < 2 ^ 63) :
    (ListMeta.mk (ofInt l) (ofInt (l + xs.length))).isEmpty = decide (xs = []) := by
  have hl := h.isInt64 hb le_rfl (by omega)
  rw [add_zero] at hl
  rw [ListMeta.isEmpty_ofInt hl (h.isInt64 hb (by omega) le_rfl), decide_eq_decide, ← length_eq_zero_iff]
  omega

theorem ListAt.load (h : ListAt b (view t s) k xs l) : loadListMeta ((Slot.listMeta k).encode t) s =
      (.ok ⟨ofInt l, ofInt (l + xs.length)⟩, s) := by
  have hrec := h.record
  unfold loadListMeta
  rw [bind_ok (get_run _), hrec]
  by_cases hxs : xs = []
  · have hl := h.zero hxs
    subst hxs hl
    rfl
  · rw [if_neg hxs]
    simp only [ListMeta.value]
    have hslice : (slice (putUint64BE (ofInt l).toUInt64 ++ putUint64BE (ofInt (l + xs.length)).toUInt64) 8 16 : Res
        Bytes) = .ok (putUint64BE (ofInt (l + xs.length)).toUInt64) := by
      rw [slice_of_le (by omega) (by simp), take_of_length_le (by simp)]
      exact congrArg _ (drop_left' (by simp))
    have hto : (sliceTo (putUint64BE (ofInt l).toUInt64 ++ putUint64BE (ofInt (l + xs.length)).toUInt64) 8 : Res Bytes)
        = .ok (putUint64BE (ofInt l).toUInt64) := by
      exact congrArg _ (take_left' (by simp))
    rw [hto, hslice]
    have hread : ∀ u : UInt64, (uint64BE (putUint64BE u) : Res UInt64) = .ok u := by
      intro u
      have := @uint64BE_putUint64BE_append Err u []
      rwa [append_nil] at this
    simp only [Outcome.ok_bind, hread]
    rfl

/-! ## The elements -/

def DataAt (σ : Slot → Option Bytes) (k : Bytes) (xs : List Bytes) (l : ℤ) : Prop :=
  ∀ i (h : i < xs.length), σ (.listData k (Int64.ofInt (l + i))) = some xs[i]

theorem dataAt_append {ys : List Bytes} :
    DataAt σ k (xs ++ ys) l ↔ DataAt σ k xs l ∧ DataAt σ k ys (l + xs.length) := by
  refine ⟨fun h => ⟨fun i hi => ?_, fun i hi => ?_⟩, fun ⟨hx, hy⟩ i hi => ?_⟩
  · rw [h i (by simp; omega), getElem_append_left hi]
  · have hd := h (xs.length + i) (by simpa using hi)
    simpa [← add_assoc] using hd
  · by_cases hlt : i < xs.length
    · rw [hx i hlt, getElem_append_left hlt]
    · rw [length_append] at hi
      rw [getElem_append_right (by omega), ← hy (i - xs.length) (by omega),
        show l + xs.length + ((i - xs.length : ℕ) : ℤ) = l + i by omega]

theorem dataAt_singleton {x : Bytes} : DataAt σ k [x] l ↔ σ (.listData k (ofInt l)) = some x := by
  refine ⟨fun h => by simpa using h 0 (by simp), fun h i hi => ?_⟩
  obtain rfl : i = 0 := by simpa using hi
  simpa using h

theorem DataAt.update (h : DataAt σ k xs l) {j : ℤ} (hj : IsInt64 j) (hl : -2 ^ 63 ≤ l)
    (hr : l + xs.length < 2 ^ 63) (hout : j < l ∨ l + xs.length ≤ j) (v : Option Bytes) :
    DataAt (update σ (.listData k (ofInt j)) v) k xs l := by
  intro i hi
  rw [update_of_ne, h i hi]
  intro hsl
  injection hsl with _ hsl
  have := ofInt_inj ⟨by omega, by omega⟩ hj hsl
  omega

/-! ## Push -/

def pushed (left : Bool) (xs values : List Bytes) : List Bytes :=
  if left then values.reverse ++ xs else xs ++ values

def pushStart (left : Bool) (l : ℤ) (n : ℕ) : ℤ := if left then l - n else l

theorem length_pushed (left : Bool) (xs values : List Bytes) :
    (pushed left xs values).length = xs.length + values.length := by
  unfold pushed
  split
  · rw [length_append, length_reverse, Nat.add_comm]
  · exact length_append

theorem pushed_cons (left : Bool) (xs : List Bytes) (v : Bytes) (values : List Bytes) :
    pushed left (pushed left xs [v]) values = pushed left xs (v :: values) := by
  cases left <;> simp [pushed]

theorem pushValues_run {left : Bool} {values : List Bytes} (hd : DataAt (view t s) k xs l)
    (hlo : -2 ^ 63 ≤ l - values.length) (hhi : l + xs.length + values.length < 2 ^ 63) :
    ∃ s', Effect t (fun sl => ∃ i, sl = .listData k i) s s' ∧ ([] ∉ values ∧ t.pushValues k left values ⟨Int64.ofInt l,
        Int64.ofInt (l + xs.length)⟩ s = (.ok ⟨Int64.ofInt (pushStart left l values.length), Int64.ofInt (pushStart left
        l values.length + (xs.length + values.length))⟩, s') ∧ DataAt (view t s') k (pushed left xs values) (pushStart
        left l values.length) ∨ [] ∈ values ∧ t.pushValues k left values ⟨Int64.ofInt l, Int64.ofInt (l + xs.length)⟩ s
        = (.error .errCannotSetNilValue, s') ∧ DataAt (view t s') k xs l) := by
  induction values generalizing xs l s with
  | nil =>
    refine ⟨s, refl _ s, .inl ⟨by simp, ?_, ?_⟩⟩
    · cases left <;> simp [pushValues, pushStart]
    · cases left <;> simpa [pushed, pushStart] using hd
  | cons v values ih =>
    rw [length_cons] at hlo hhi
    by_cases hv : v = []
    · subst hv
      refine ⟨s, refl _ s, .inr ⟨by simp, ?_, hd⟩⟩
      exact bind_error (set_nil_run _)
    -- the value goes next to the elements, which are one more behind it
    obtain ⟨j, hj⟩ : ∃ j, j = if left then l - 1 else l + xs.length := ⟨_, rfl⟩
    have hrun : t.pushValues k left (v :: values) ⟨Int64.ofInt l, Int64.ofInt (l + xs.length)⟩ =
        Txn.set ((Slot.listData k (Int64.ofInt j)).encode t) v >>= fun _ =>
          t.pushValues k left values ⟨Int64.ofInt (pushStart left l 1),
            Int64.ofInt (pushStart left l 1 + (pushed left xs [v]).length)⟩ := by
      rw [pushValues, ← encodeListDataKey_eq, length_pushed, hj]
      cases left <;> simp [pushStart, Int64.add_assoc]
    have hd₁ : DataAt (view t (s.insert ((Slot.listData k (Int64.ofInt j)).encode t) v)) k
        (pushed left xs [v]) (pushStart left l 1) := by
      have hold := hd.update (j := j) (by constructor <;> split at hj <;> omega) (by omega) (by omega)
        (by split at hj <;> omega) (some v)
      rw [view_insert]
      cases left with
      | true =>
        subst hj
        refine dataAt_append.mpr ⟨dataAt_singleton.mpr (update_self ..), ?_⟩
        simpa [pushStart] using hold
      | false =>
        subst hj
        exact dataAt_append.mpr ⟨hold, dataAt_singleton.mpr (update_self ..)⟩
    have hlen := length_pushed left xs [v]
    rw [length_singleton] at hlen
    have hstart : pushStart left (pushStart left l 1) values.length = pushStart left l (v :: values).length := by
      unfold pushStart
      rw [length_cons]
      split <;> omega
    obtain ⟨s', heff, hcases⟩ := ih hd₁ (by unfold pushStart; split <;> omega)
      (by unfold pushStart; split <;> omega)
    rw [hstart, pushed_cons] at hcases
    refine ⟨s', (effect_insert s ⟨_, rfl⟩ v).trans heff, ?_⟩
    rw [hrun, bind_ok (set_run _ hv)]
    rcases hcases with ⟨hnil, hok, hdata⟩ | ⟨hnil, herr, hdata⟩
    · refine .inl ⟨by simp [hnil, Ne.symm hv], ?_, hdata⟩
      rw [hok, hlen, length_cons]
      push_cast
      ring_nf
    · refine .inr ⟨by simp [hnil], herr, ?_⟩
      cases left with
      | true => simpa [pushStart] using (dataAt_append.mp hdata).2
      | false => exact (dataAt_append.mp hdata).1

theorem Slot.ofList_data (k : Bytes) (i : Int64) : Slot.OfList k (.listData k i) := rfl

theorem Slot.ofList_meta (k : Bytes) : Slot.OfList k (.listMeta k) := rfl

theorem listPush_run (hw : t.writable = true) (h : ListAt b (view t s) k xs l) (left : Bool)
    {values : List Bytes} (hb : b + values.length < 2 ^ 63) : ∃ s', Effect t (Slot.OfList k) s s' ∧ ([] ∉ values ∧
      t.listPush k left values s = (.ok (), s') ∧ (∃ l', ListAt (b + values.length) (view t s') k (pushed left xs
      values) l') ∨ [] ∈ values ∧ t.listPush k left values s = (.error .errCannotSetNilValue, s') ∧ ∃ l', ListAt (b +
      values.length) (view t s') k xs l') := by
  obtain ⟨hlo, hhi, hcount, hzero, hrec, -⟩ := id h
  rw [listPush, ifWritable_eq hw]
  by_cases hvalues : values = []
  · subst hvalues
    refine ⟨s, refl _ s, .inl ⟨by simp, rfl, l, ?_⟩⟩
    cases left <;> simpa [pushed] using h
  have hlen : 0 < values.length := length_pos_iff.mpr hvalues
  obtain ⟨s', heff, hcases⟩ := @pushValues_run t k xs l s left values h.data (by omega) (by omega)
  have heffList : Effect t (Slot.OfList k) s s' := by
    apply heff.mono
    rintro sl ⟨i, rfl⟩
    exact Slot.ofList_data k i
  simp only [if_neg hlen.ne', encodeListMetaKey_eq, bind_ok h.load]
  rcases hcases with ⟨hnil, hok, hdata⟩ | ⟨hnil, herr, hdata⟩
  · rw [bind_ok hok]
    refine ⟨_, heffList.trans (effect_insert s' (Slot.ofList_meta k) _), .inl ⟨hnil,
      set_run _ (value_ne_nil _), pushStart left l values.length, ?_⟩⟩
    have hplen := length_pushed left xs values
    have hne : pushed left xs values ≠ [] := ne_nil_of_length_pos (by omega)
    rw [view_insert]
    refine ⟨by unfold pushStart; split <;> omega, by unfold pushStart; split <;> omega, by omega,
      fun hempty => absurd hempty hne, ?_, fun i hi => ?_⟩
    · rw [update_self, if_neg hne, hplen, Nat.cast_add]
    · rw [update_of_ne (by simp), hdata i hi]
  · rw [bind_error herr]
    refine ⟨s', heffList, .inr ⟨hnil, rfl, l, by omega, by omega, by omega, hzero, ?_, hdata⟩⟩
    rw [heff.same _ (by simp), hrec]

/-! ## Pop -/

theorem storeListMeta_run {s : KV} {l r : ℤ} (hl : IsInt64 l) (hr : IsInt64 r) : storeListMeta ((Slot.listMeta k).encode
    t) ⟨ofInt l, ofInt r⟩ s = (.ok (), if r ≤ l then s.erase ((Slot.listMeta k).encode t)
        else s.insert ((Slot.listMeta k).encode t)
          (value ⟨ofInt l, ofInt r⟩)) := by
  unfold storeListMeta
  rw [isEmpty_ofInt hl hr]
  by_cases hle : r ≤ l
  · simp only [hle]
    rfl
  · simp only [hle]
    exact set_run _ (value_ne_nil _)

def popped (left : Bool) (xs : List Bytes) : Option Bytes × List Bytes :=
  if left then (xs.head?, xs.tail) else (xs.getLast?, xs.dropLast)

/-- The end of a pop: the element at `j` is taken out, and the others stand from `l'` on. -/
theorem takeOut_run (h : ListAt b (view t s) k xs l) (hb : b < 2 ^ 63) {j l' : ℤ} {x : Bytes}
    {xs' : List Bytes} (hj : IsInt64 j) (hx : DataAt (view t s) k [x] j)
    (hd : DataAt (view t s) k xs' l') (hout : j < l' ∨ l' + xs'.length ≤ j) (hlo' : l ≤ l')
    (hhi' : l' + xs'.length ≤ l + xs.length) : ∃ s', Effect t (Slot.OfList k) s s' ∧ (do
        let data ← Txn.mustGet ((Slot.listData k (ofInt j)).encode t)
        Txn.delete ((Slot.listData k (ofInt j)).encode t)
        storeListMeta ((Slot.listMeta k).encode t)
          ⟨ofInt l', ofInt (l' + xs'.length)⟩
        return some data : Txn (Option Bytes)) s = (.ok (some x), s') ∧
      ∃ l'', ListAt b (view t s') k xs' l'' := by
  obtain ⟨hlo, hhi, hcount, -⟩ := h
  obtain ⟨s₁, hs₁⟩ : ∃ s₁, s₁ = s.erase ((Slot.listData k (ofInt j)).encode t) := ⟨_, rfl⟩
  have hdata := hd.update hj (by omega) (by omega) hout none
  rw [← view_erase, ← hs₁] at hdata
  have hstore := @storeListMeta_run t k s₁ l' (l' + xs'.length) (by constructor <;> omega)
    (by constructor <;> omega)
  rw [bind_ok (mustGet_run (dataAt_singleton.mp hx)), bind_ok (delete_run _), ← hs₁, bind_ok hstore]
  refine ⟨_, ?_, rfl, ?_⟩
  · rw [hs₁]
    refine (effect_erase s (Slot.ofList_data k (ofInt j))).trans ?_
    split
    · exact effect_erase _ (Slot.ofList_meta k)
    · exact effect_insert _ (Slot.ofList_meta k) _
  · by_cases hxs' : xs' = []
    · subst hxs'
      refine ⟨0, by omega, by simp, by simp, fun _ => rfl, ?_, by simp⟩
      rw [if_pos (by simp), if_pos rfl, view_erase, update_self]
    · have hpos : 0 < xs'.length := length_pos_iff.mpr hxs'
      rw [if_neg (by omega), view_insert]
      refine ⟨l', by omega, by omega, by omega, fun he => absurd he hxs', ?_, fun i hi => ?_⟩
      · rw [if_neg hxs', update_self]
      · rw [update_of_ne (by simp), hdata i hi]

theorem listPop_run (hw : t.writable = true) (h : ListAt b (view t s) k xs l) (hb : b < 2 ^ 63) (left : Bool) :
    ∃ s', Effect t (Slot.OfList k) s s' ∧ t.listPop k left s = (.ok (popped left xs).1, s') ∧
      ∃ l', ListAt b (view t s') k (popped left xs).2 l' := by
  have hd := h.data
  have hlo := h.lo
  have hhi := h.hi
  rw [listPop, ifWritable_eq hw]
  simp only [encodeListMetaKey_eq, encodeListDataKey_eq, bind_ok h.load, h.isEmpty hb]
  cases left with
  | true =>
    cases xs with
    | nil => exact ⟨s, refl _ s, rfl, l, h⟩
    | cons x rest =>
      obtain ⟨hx, hrest⟩ := dataAt_append.mp (show DataAt (view t s) k ([x] ++ rest) l from hd)
      have hrun := takeOut_run h hb (by constructor <;> omega) hx hrest (by simp) (by simp)
        (by simp; omega)
      simpa [popped, Int64.add_assoc, Int64.add_comm 1] using hrun
  | false =>
    rcases eq_nil_or_concat' xs with rfl | ⟨ys, y, rfl⟩
    · exact ⟨s, refl _ s, rfl, l, h⟩
    · obtain ⟨hys, hy⟩ := dataAt_append.mp hd
      rw [length_append] at hhi
      have hrun := takeOut_run h hb (by constructor <;> omega) hy hys (by simp) le_rfl (by simp)
      simpa [popped, ← Int64.add_assoc] using hrun

/-! ## Reads -/

theorem lLen_run (h : ListAt b (view t s) k xs l) (hb : b < 2 ^ 63) :
    ∃ n, t.lLen k s = (.ok n, s) ∧ n.toInt = xs.length := by
  rw [lLen, encodeListMetaKey_eq, bind_ok h.load]
  have hlen : ofInt (l + xs.length) - ofInt l = ofInt xs.length := by
    rw [← ofInt_sub]
    congr 1
    ring
  refine ⟨_, rfl, ?_⟩
  have hcount := h.count
  rw [hlen, toInt_ofInt (by constructor <;> omega)]

theorem getDown_run (h : ListAt b (view t s) k xs l) {n : ℕ} (hn : n ≤ xs.length) :
    t.getDown k n (ofInt (l + n - 1)) s = (.ok (xs.take n).reverse, s) := by
  induction n with
  | zero => rfl
  | succ n ih =>
    have hindex : l + ((n + 1 : ℕ) : ℤ) - 1 = l + n := by
      push_cast
      ring
    have hprev : ofInt (l + n) - 1 = ofInt (l + n - 1) := by
      rw [ofInt_sub]
      rfl
    rw [getDown, hindex, encodeListDataKey_eq, bind_ok (mustGet_run (h.data n (by omega))), hprev, bind_ok (ih (by
      omega)), take_succ_eq_append_getElem (by omega), reverse_concat]
    rfl

theorem lGetAll_run (h : ListAt b (view t s) k xs l) (hb : b < 2 ^ 63) : t.lGetAll k s = (.ok xs.reverse, s) := by
  rw [lGetAll, encodeListMetaKey_eq, bind_ok h.load, h.isEmpty hb]
  by_cases hxs : xs = []
  · subst hxs
    rfl
  · have hl := h.isInt64 hb le_rfl (by omega)
    rw [add_zero] at hl
    have hn : (ofInt (l + xs.length)).toInt - (ofInt l).toInt = xs.length := by
      rw [toInt_ofInt (h.isInt64 hb (by omega) le_rfl), toInt_ofInt hl]
      ring
    have hlast : ofInt (l + xs.length) - 1 = ofInt (l + xs.length - 1) := by
      rw [ofInt_sub _ 1]
      rfl
    simp only [hxs, decide_false, Bool.false_eq_true, if_false, hn, hlast, Int.toNat_natCast]
    rw [getDown_run h le_rfl, take_length]

def place (n : ℕ) (index : Int64) : Option ℕ :=
  if 0 ≤ index.toInt ∧ index.toInt < n then some index.toInt.toNat
  else if index.toInt < 0 ∧ 0 ≤ index.toInt + n then some (index.toInt + n).toNat
  else none

theorem place_cases (n : ℕ) (index : Int64) : (∃ i, place n index = some i ∧ i < n ∧
      (0 ≤ index.toInt ∧ index.toInt = i ∨ index.toInt < 0 ∧ index.toInt + n = i)) ∨ place n index = none ∧
      (0 ≤ index.toInt ∧ n ≤ index.toInt ∨ index.toInt < 0 ∧ index.toInt + n < 0) := by
  unfold place
  by_cases h1 : 0 ≤ index.toInt ∧ index.toInt < n
  · rw [if_pos h1]
    exact .inl ⟨_, rfl, by omega, by omega⟩
  by_cases h2 : index.toInt < 0 ∧ 0 ≤ index.toInt + n
  · rw [if_neg h1, if_pos h2]
    exact .inl ⟨_, rfl, by omega, by omega⟩
  · rw [if_neg h1, if_neg h2]
    exact .inr ⟨rfl, by omega⟩

theorem adjustIndex_ofInt (index : Int64) (l r : ℤ) : adjustIndex index (ofInt l) (ofInt r) =
      ofInt (index.toInt + if 0 ≤ index.toInt then l else r) := by
  have hle : 0 ≤ index ↔ 0 ≤ index.toInt := le_iff_toInt_le
  unfold adjustIndex
  by_cases h : 0 ≤ index.toInt
  · rw [if_pos (hle.mpr h), if_pos h, ofInt_add, ofInt_toInt]
  · rw [if_neg (fun h' => h (hle.mp h')), if_neg h, ofInt_add, ofInt_toInt]

/-- The test of an index against the ends of the list.  An index that wraps around comes out on the
other side of both ends. -/
theorem inRange_adjustIndex (h : ListAt b σ k xs l) (hb : b < 2 ^ 63) (index : Int64) : (Int64.ofInt l ≤ adjustIndex
    index (Int64.ofInt l) (Int64.ofInt (l + xs.length)) ∧ adjustIndex index (Int64.ofInt l) (Int64.ofInt (l +
    xs.length)) < Int64.ofInt (l + xs.length)) ↔ place xs.length index ≠ none := by
  have hlo := h.lo
  have hhi := h.hi
  have hi := index.toInt_lt
  have hi' := index.le_toInt
  have hl := h.isInt64 hb le_rfl (by omega)
  rw [add_zero] at hl
  rw [Int64.le_iff_toInt_le, Int64.lt_iff_toInt_lt, toInt_ofInt hl,
    toInt_ofInt (h.isInt64 hb (by omega) le_rfl), adjustIndex_ofInt, Int64.toInt_ofInt, Int.bmod_def,
    show Int64.size = 0x10000000000000000 from rfl]
  rcases place_cases xs.length index with ⟨i, hplace, hilt, hcase⟩ | ⟨hplace, hcase⟩
  · simp only [hplace, ne_eq, reduceCtorEq, not_false_eq_true, iff_true]
    rcases hcase with ⟨h0, heq⟩ | ⟨h0, heq⟩
    · split <;> omega
    · split <;> omega
  · simp only [hplace, ne_eq, not_true_eq_false, iff_false]
    rcases hcase with ⟨h0, heq⟩ | ⟨h0, heq⟩
    · split <;> omega
    · split <;> omega

theorem adjustIndex_place (l : ℤ) {n i : ℕ} {index : Int64} (h : place n index = some i) :
    i < n ∧ adjustIndex index (ofInt l) (ofInt (l + n)) = ofInt (l + i) := by
  rcases place_cases n index with ⟨j, hplace, hlt, hcase⟩ | ⟨hplace, -⟩
  · rw [h] at hplace
    cases hplace
    refine ⟨hlt, ?_⟩
    rw [adjustIndex_ofInt]
    congr 1
    rcases hcase with ⟨h0, heq⟩ | ⟨h0, heq⟩
    · omega
    · omega
  · rw [h] at hplace
    cases hplace

theorem place_zero (index : Int64) : place 0 index = none := by
  rcases place_cases 0 index with ⟨i, -, hi, -⟩ | ⟨h, -⟩
  · omega
  · exact h

theorem lIndex_run (h : ListAt b (view t s) k xs l) (hb : b < 2 ^ 63) (index : Int64) :
    t.lIndex k index s = (.ok ((place xs.length index).bind (xs[·]?)), s) := by
  rw [TxStructure.lIndex, encodeListMetaKey_eq, bind_ok h.load, h.isEmpty hb]
  by_cases hxs : xs = []
  · subst hxs
    simp
  simp only [hxs, decide_false, Bool.false_eq_true, if_false]
  cases hplace : place xs.length index with
  | none =>
    rw [if_neg fun hr => (inRange_adjustIndex h hb index).mp hr hplace]
    rfl
  | some i =>
    obtain ⟨hi, hadj⟩ := adjustIndex_place l hplace
    rw [if_pos ((inRange_adjustIndex h hb index).mpr (by simp [hplace])), hadj, encodeListDataKey_eq,
      bind_ok (mustGet_run (h.data i hi)), Option.bind_some, getElem?_eq_getElem hi]
    rfl

/-! ## Other writes -/

/-- A write to one element.  An index outside the list is an error only if there are elements. -/
theorem lSet_run (hw : t.writable = true) (h : ListAt b (view t s) k xs l) (hb : b < 2 ^ 63)
    (index : Int64) (value : Bytes) : ∃ s', Effect t (Slot.OfList k) s s' ∧
      match place xs.length index with
      | none =>
        s' = s ∧ if xs = [] then t.lSet k index value s = (.ok (), s)
          else ∃ args, t.lSet k index value s =
            (.error (.errInvalidListIndex "invalid list index %d" args), s)
      | some i =>
        if value = [] then s' = s ∧ t.lSet k index value s = (.error .errCannotSetNilValue, s)
        else t.lSet k index value s = (.ok (), s') ∧ ListAt b (view t s') k (xs.set i value) l := by
  rw [lSet, ifWritable_eq hw, encodeListMetaKey_eq, bind_ok h.load, h.isEmpty hb]
  by_cases hxs : xs = []
  · subst hxs
    refine ⟨s, refl _ s, ?_⟩
    simp [place_zero]
  simp only [hxs, decide_false, Bool.false_eq_true, if_false]
  cases hplace : place xs.length index with
  | none =>
    rw [if_neg fun hr => (inRange_adjustIndex h hb index).mp hr hplace]
    exact ⟨s, refl _ s, rfl, _, rfl⟩
  | some i =>
    obtain ⟨hi, hadj⟩ := adjustIndex_place l hplace
    rw [if_pos ((inRange_adjustIndex h hb index).mpr (by simp [hplace])), hadj, encodeListDataKey_eq]
    simp only
    by_cases hv : value = []
    · subst hv
      exact ⟨s, refl _ s, by rw [if_pos rfl]; exact ⟨rfl, set_nil_run _⟩⟩
    · refine ⟨_, effect_insert s (Slot.ofList_data k (ofInt (l + i))) value, ?_⟩
      rw [if_neg hv]
      have hlo := h.lo
      have hhi := h.hi
      refine ⟨set_run _ hv, hlo, by rw [length_set]; exact hhi,
        by rw [length_set]; exact h.count, fun he => ?_, ?_, fun j hj => ?_⟩
      · rw [set_eq_nil_iff] at he
        exact absurd he hxs
      · rw [view_insert, update_of_ne (by simp), h.record, if_neg hxs, if_neg (by simpa using hxs), length_set]
      · rw [length_set] at hj
        by_cases hij : j = i
        · subst hij
          rw [view_insert, update_self, getElem_set_self]
        · rw [view_insert, update_of_ne, h.data j hj, getElem_set_ne (Ne.symm hij)]
          intro hsl
          injection hsl with _ hsl
          have := ofInt_inj (h.isInt64 hb (by omega) (by omega)) (h.isInt64 hb (by omega) (by omega)) hsl
          omega

theorem deleteUp_run (n : ℕ) (index : Int64) :
    ∃ s', Effect t (Slot.OfList k) s s' ∧ t.deleteUp k n index s = (.ok (), s') := by
  induction n generalizing index s with
  | zero => exact ⟨s, refl _ s, rfl⟩
  | succ n ih =>
    obtain ⟨s', heff, hrun⟩ := @ih (s.erase ((Slot.listData k index).encode t)) (index + 1)
    refine ⟨s', (effect_erase s (Slot.ofList_data k index)).trans heff, ?_⟩
    rw [deleteUp, encodeListDataKey_eq, bind_ok (delete_run _), hrun]

theorem lClear_run (hw : t.writable = true) (h : ListAt b (view t s) k xs l) (hb : b < 2 ^ 63) :
    ∃ s', Effect t (Slot.OfList k) s s' ∧ t.lClear k s = (.ok (), s') ∧ ∃ l', ListAt b (view t s') k [] l' := by
  rw [lClear, ifWritable_eq hw]
  simp only [encodeListMetaKey_eq, bind_ok h.load, h.isEmpty hb]
  by_cases hxs : xs = []
  · subst hxs
    exact ⟨s, refl _ s, rfl, l, h⟩
  · simp only [hxs, decide_false, Bool.false_eq_true, if_false]
    obtain ⟨s', heff, hrun⟩ := @deleteUp_run t k s _ (ofInt l)
    rw [bind_ok hrun]
    refine ⟨_, heff.trans (effect_erase s' (Slot.ofList_meta k)), delete_run _, 0, by omega, by simp,
      by simp, fun _ => rfl, ?_, by simp⟩
    rw [view_erase, update_self, if_pos rfl]

end ListAt

end Tidb.Structure
