import Tidb.Structure.TxStructure
import Tidb.Lib.Word64

/-!
# Where the items of a structure stand

A slot is a place for a value: the string of a key, the record of a list, an element of a list, a field of a hash.
Slots have different keys, because the code of a byte string is never the beginning of another one, so the transaction
is a function of the slots that a write changes in one place.
-/

namespace Tidb.Structure

open GoLang ByteNum Codec List Function

inductive Slot where
  | str (key : Bytes)
  | listMeta (key : Bytes)
  | listData (key : Bytes) (index : Int64)
  | hash (key field : Bytes)
  deriving DecidableEq

namespace Slot

def key : Slot → Bytes
  | .str key => key
  | .listMeta key => key
  | .listData key _ => key
  | .hash key _ => key

def flag : Slot → UInt64
  | .str _ => Structure.stringData
  | .listMeta _ => Structure.listMetaFlag
  | .listData _ _ => Structure.listData
  | .hash _ _ => Structure.hashData

def rest : Slot → Bytes
  | .str _ => []
  | .listMeta _ => []
  | .listData _ index => encodeInt [] index
  | .hash _ field => encodeBytes [] field

def encode (t : TxStructure) (sl : Slot) : Bytes :=
  t.prefixBytes ++ (encodeBytes [] sl.key ++ (putUint64BE sl.flag ++ sl.rest))

end Slot

section Keys

variable (t : TxStructure)

theorem encodeStringDataKey_eq (key : Bytes) : t.encodeStringDataKey key = (Slot.str key).encode t := by
  simp [TxStructure.encodeStringDataKey, Slot.encode, Slot.key, Slot.flag, Slot.rest, encodeUint,
    encodeBytes_append t.prefixBytes]

theorem encodeListMetaKey_eq (key : Bytes) : t.encodeListMetaKey key = (Slot.listMeta key).encode t := by
  simp [TxStructure.encodeListMetaKey, Slot.encode, Slot.key, Slot.flag, Slot.rest, encodeUint,
    encodeBytes_append t.prefixBytes]

theorem encodeListDataKey_eq (key : Bytes) (index : Int64) :
    t.encodeListDataKey key index = (Slot.listData key index).encode t := by
  simp [TxStructure.encodeListDataKey, Slot.encode, Slot.key, Slot.flag, Slot.rest, encodeUint,
    encodeInt, encodeBytes_append t.prefixBytes]

theorem hashDataKeyPrefix_eq (key : Bytes) :
    t.hashDataKeyPrefix key = t.prefixBytes ++ (encodeBytes [] key ++ putUint64BE hashData) := by
  simp [TxStructure.hashDataKeyPrefix, encodeUint, encodeBytes_append t.prefixBytes]

theorem encodeHashDataKey_eq (key field : Bytes) : t.encodeHashDataKey key field = (Slot.hash key field).encode t := by
  rw [TxStructure.encodeHashDataKey, encodeBytes_append]
  simp [Slot.encode, Slot.key, Slot.flag, Slot.rest, encodeUint, encodeBytes_append t.prefixBytes]

theorem encode_hash (key field : Bytes) :
    (Slot.hash key field).encode t = t.hashDataKeyPrefix key ++ encodeBytes [] field := by
  rw [← encodeHashDataKey_eq]
  exact encodeBytes_append _ _

variable {t}

theorem encodeBytes_append_inj {k k' r r' : Bytes}
    (h : encodeBytes [] k ++ r = encodeBytes [] k' ++ r') : k = k' ∧ r = r' := by
  have h1 : decodeBytes (encodeBytes [] k ++ r) [] = .ok (r, k) := decodeBytes_eq_ok_iff.mpr rfl
  have h2 : decodeBytes (encodeBytes [] k ++ r) [] = .ok (r', k') := decodeBytes_eq_ok_iff.mpr h
  rw [h1] at h2
  cases h2
  exact ⟨rfl, rfl⟩

theorem Slot.encode_append_inj {sl : Slot} {k : Bytes} {flag : UInt64} {r : Bytes}
    (h : sl.encode t = t.prefixBytes ++ (encodeBytes [] k ++ (putUint64BE flag ++ r))) :
    sl.key = k ∧ sl.flag = flag ∧ sl.rest = r := by
  rw [Slot.encode, append_right_inj] at h
  obtain ⟨hkey, htail⟩ := encodeBytes_append_inj h
  obtain ⟨hflag, hrest⟩ := append_inj htail (by simp)
  exact ⟨hkey, putUint64BE_inj hflag, hrest⟩

theorem encodeInt_inj {i j : Int64} (h : encodeInt [] i = encodeInt [] j) : i = j := by
  have hu := putUint64BE_inj h
  rw [← decodeCmpUintToInt_encodeIntToCmpUint i, hu, decodeCmpUintToInt_encodeIntToCmpUint]

theorem encodeBytes_inj {a b : Bytes} (h : encodeBytes [] a = encodeBytes [] b) : a = b := by
  have h' : encodeBytes [] a ++ [] = encodeBytes [] b ++ [] := by rw [h]
  exact (encodeBytes_append_inj h').1

theorem Slot.encode_inj {sl sl' : Slot} (h : sl.encode t = sl'.encode t) : sl = sl' := by
  obtain ⟨hkey, hflag, hrest⟩ := Slot.encode_append_inj h
  rcases sl with key | key | ⟨key, index⟩ | ⟨key, field⟩ <;>
    rcases sl' with key' | key' | ⟨key', index'⟩ | ⟨key', field'⟩ <;> try exact absurd hflag (of_decide_eq_false rfl)
  · exact congrArg Slot.str hkey
  · exact congrArg Slot.listMeta hkey
  · rw [show key = key' from hkey, encodeInt_inj (show encodeInt [] index = _ from hrest)]
  · rw [show key = key' from hkey, encodeBytes_inj (show encodeBytes [] field = _ from hrest)]

theorem Slot.eq_hash_of_isPrefix {sl : Slot} {k : Bytes} (h : t.hashDataKeyPrefix k <+: sl.encode t) :
    ∃ field, sl = .hash k field := by
  obtain ⟨r, hr⟩ := h
  rw [hashDataKeyPrefix_eq, append_assoc, append_assoc] at hr
  obtain ⟨hkey, hflag, -⟩ := Slot.encode_append_inj hr.symm
  rcases sl with key | key | ⟨key, index⟩ | ⟨key, field⟩ <;> try exact absurd hflag (of_decide_eq_false rfl)
  exact ⟨field, by rw [show key = k from hkey]⟩

theorem Slot.prefix_encode (sl : Slot) : t.prefixBytes <+: sl.encode t := prefix_append _ _

end Keys

/-! ## The transaction through its slots -/

def view (t : TxStructure) (s : KV) (sl : Slot) : Option Bytes := s.find (sl.encode t)

section View

variable {t : TxStructure} (s : KV)

structure Writes (t : TxStructure) (sl : Slot) (x : Option Bytes) (s s' : KV) : Prop where
  self : s'.find (sl.encode t) = x
  others : ∀ key ≠ sl.encode t, s'.find key = s.find key

theorem writes_insert (sl : Slot) (v : Bytes) : Writes t sl (some v) s (s.insert (sl.encode t) v) :=
  ⟨SortedMap.find_insert_self _ _ _, fun _ h => SortedMap.find_insert_of_ne _ h _⟩

theorem writes_erase (sl : Slot) : Writes t sl none s (s.erase (sl.encode t)) :=
  ⟨SortedMap.find_erase_self _ _, fun _ h => SortedMap.find_erase_of_ne _ h⟩

variable {sl : Slot} {x : Option Bytes} {s' : KV}

theorem Writes.view {s : KV} (h : Writes t sl x s s') : view t s' = update (view t s) sl x := by
  funext sl'
  by_cases heq : sl' = sl
  · subst heq
    rw [update_self]
    exact h.self
  · rw [update_of_ne heq]
    exact h.others _ fun he => heq (Slot.encode_inj he)

theorem view_insert (sl : Slot) (v : Bytes) :
    view t (s.insert (sl.encode t) v) = update (view t s) sl (some v) := (writes_insert s sl v).view

theorem view_erase (sl : Slot) : view t (s.erase (sl.encode t)) = update (view t s) sl none :=
  (writes_erase s sl).view

def FieldsOnly (t : TxStructure) (s : KV) : Prop :=
  ∀ k key, s.find key ≠ none → t.hashDataKeyPrefix k <+: key → ∃ field, key = (Slot.hash k field).encode t

variable {s}

theorem Writes.fieldsOnly (hw : Writes t sl x s s') (h : FieldsOnly t s) : FieldsOnly t s' := by
  intro k key hkey hp
  by_cases heq : key = sl.encode t
  · subst heq
    obtain ⟨field, hfield⟩ := Slot.eq_hash_of_isPrefix hp
    exact ⟨field, by rw [hfield]⟩
  · rw [hw.others key heq] at hkey
    exact h k key hkey hp

/-- A call that writes to slots with `p` only: the other slots and the keys without the prefix of the structure stay as
they are. -/
structure Effect (t : TxStructure) (p : Slot → Prop) (s s' : KV) : Prop where
  fields : FieldsOnly t s → FieldsOnly t s'
  outside : ∀ key, ¬t.prefixBytes <+: key → s'.find key = s.find key
  same : ∀ sl, ¬p sl → view t s' sl = view t s sl

variable {p : Slot → Prop} {s₁ s₂ s₃ : KV}

theorem Effect.refl (p : Slot → Prop) (s : KV) : Effect t p s s :=
  ⟨id, fun _ _ => rfl, fun _ _ => rfl⟩

theorem Effect.trans (h : Effect t p s₁ s₂) (h' : Effect t p s₂ s₃) : Effect t p s₁ s₃ :=
  ⟨h'.fields ∘ h.fields, fun key hkey => (h'.outside key hkey).trans (h.outside key hkey),
    fun sl hsl => (h'.same sl hsl).trans (h.same sl hsl)⟩

theorem Effect.mono {q : Slot → Prop} (h : Effect t p s₁ s₂) (hpq : ∀ sl, p sl → q sl) : Effect t q s₁ s₂ :=
  ⟨h.fields, h.outside, fun sl hsl => h.same sl fun hp => hsl (hpq sl hp)⟩

theorem Writes.effect (h : Writes t sl x s s') (hsl : p sl) : Effect t p s s' := by
  refine ⟨h.fieldsOnly, fun key hkey => h.others key ?_, fun sl' hsl' => ?_⟩
  · intro he
    exact hkey (he ▸ sl.prefix_encode)
  · rw [h.view, update_of_ne]
    intro he
    exact hsl' (he ▸ hsl)

theorem effect_insert (s : KV) {sl : Slot} (hsl : p sl) (v : Bytes) : Effect t p s (s.insert (sl.encode t) v) :=
  (writes_insert s sl v).effect hsl

theorem effect_erase (s : KV) {sl : Slot} (hsl : p sl) : Effect t p s (s.erase (sl.encode t)) :=
  (writes_erase s sl).effect hsl

end View

/-! ## Single reads and writes -/

section Access

variable {t : TxStructure} {s : KV}

theorem get_run (sl : Slot) : Txn.get (sl.encode t) s = (.ok (view t s sl), s) := rfl

theorem mustGet_run {sl : Slot} {v : Bytes} (h : view t s sl = some v) : Txn.mustGet (sl.encode t) s = (.ok v, s) := by
  have hf : s.find (sl.encode t) = some v := h
  simp only [Txn.mustGet, hf]

theorem set_run (k : Bytes) {v : Bytes} (hv : v ≠ []) : Txn.set k v s = (.ok (), s.insert k v) :=
  if_neg hv

theorem set_nil_run (k : Bytes) : Txn.set k [] s = (.error .errCannotSetNilValue, s) := rfl

theorem delete_run (k : Bytes) : Txn.delete k s = (.ok (), s.erase k) := rfl

theorem ifWritable_eq {α : Type} (hw : t.writable = true) (x : Txn α) : t.ifWritable x = x :=
  if_pos hw

end Access

end Tidb.Structure
