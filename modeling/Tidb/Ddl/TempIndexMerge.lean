import Tidb.Ddl.TempIndex

/-!
# Merging the changes of one key

At most one row has a unique key at any time, so of the changes that are not overwritten all are deletions, but for
the last one where a row is left.  The merge ends in the entry of that row unless the backfill has seen another one:
an insertion is compared with the value from before the merge, although a deletion takes that value away.
-/


namespace Ddl

open List

variable {Key Handle Val : Type}

/-! ## Histories -/

structure Row (Handle Val : Type) where
  handle : Handle
  entry : Val
  deriving DecidableEq, Repr

inductive Change (Handle Val : Type) where
  | insert (row : Row Handle Val)
  | delete (row : Row Handle Val)
  deriving DecidableEq, Repr

namespace Change

def handle : Change Handle Val → Handle
  | .insert row => row.handle
  | .delete row => row.handle

def row : Change Handle Val → Row Handle Val
  | .insert row => row
  | .delete row => row

def isDelete : Change Handle Val → Bool
  | .insert _ => false
  | .delete _ => true

end Change

open Change

def Change.record : Change Handle Val → TempIndexValueElem Handle Val
  | .insert row => { value := some row.entry, handle := none, keyVer := .backfill, delete := false, distinct := true }
  | .delete row => { value := none, handle := some row.handle, keyVer := .backfill, delete := true, distinct := true }

structure Row.Encoded (codec : IndexCodec Key Handle Val) (k : Key) (row : Row Handle Val) : Prop where
  decodeIndexHandle : codec.decodeIndexHandle k (some row.entry) = .ok row.handle
  decodeHandleInUniqueIndexValue : codec.decodeHandleInUniqueIndexValue row.entry = .ok row.handle
  indexKVIsUnique : codec.indexKVIsUnique row.entry = true

variable {codec : IndexCodec Key Handle Val} {k : Key} {changes : List (Change Handle Val)}
  {change : Change Handle Val}

/-! ## Changes that are not overwritten -/

section Overwritten

variable [DecidableEq Handle]

def lastChanges : List (Change Handle Val) → List (Change Handle Val)
  | [] => []
  | c :: rest => if c.handle ∈ rest.map Change.handle then lastChanges rest else c :: lastChanges rest

theorem lastChanges_snoc (changes : List (Change Handle Val)) (c : Change Handle Val) :
    lastChanges (changes ++ [c]) = (lastChanges changes).filter (fun d => d.handle ≠ c.handle) ++ [c] := by
  induction changes with
  | nil => simp [lastChanges]
  | cons d rest ih =>
    rw [cons_append, lastChanges, lastChanges, ih]
    by_cases hmem : d.handle ∈ rest.map handle
    · rw [if_pos (by simp [hmem]), if_pos hmem]
    · rw [if_neg hmem]
      by_cases heq : d.handle = c.handle
      · rw [if_pos (by simp [heq]), filter_cons_of_neg (by simpa using heq)]
      · rw [if_neg (by simp [hmem, heq]), filter_cons_of_pos (by simpa using heq)]
        rfl

theorem handle_mem_lastChanges {h : Handle} (hmem : h ∈ changes.map handle) : h ∈ (lastChanges changes).map handle := by
  induction changes with
  | nil => cases hmem
  | cons d rest ih =>
    rw [lastChanges]
    rw [map_cons, mem_cons] at hmem
    by_cases hlater : d.handle ∈ rest.map handle
    · rw [if_pos hlater]
      rcases hmem with rfl | hmem
      · exact ih hlater
      · exact ih hmem
    · rw [if_neg hlater, map_cons, mem_cons]
      exact hmem.imp_right ih

theorem lastChanges_subset (changes : List (Change Handle Val)) : lastChanges changes ⊆ changes := by
  induction changes with
  | nil => exact List.Subset.refl _
  | cons c rest ih =>
    rw [lastChanges]
    split
    · exact List.Subset.trans ih (subset_cons_self c rest)
    · exact cons_subset_cons c ih

end Overwritten

/-! ## At most one live row -/

section Lives

variable [DecidableEq Handle] [DecidableEq Val] {first live last : Option (Row Handle Val)}

def Change.apply (live : Option (Row Handle Val)) : Change Handle Val → Option (Option (Row Handle Val))
  | .insert row => if live = none then some (some row) else none
  | .delete row => if live = some row then some none else none

/-- The changes lead from one live row, or none, to another, with at most one live row at any time. -/
def Lives (first : Option (Row Handle Val)) (changes : List (Change Handle Val)) (last : Option (Row Handle Val)) :
    Prop :=
  changes.foldlM Change.apply first = some last

instance (first : Option (Row Handle Val)) (changes : List (Change Handle Val)) (last : Option (Row Handle Val)) :
    Decidable (Lives first changes last) :=
  inferInstanceAs (Decidable (_ = _))

theorem lives_nil : Lives first [] last ↔ first = last := by
  show some first = some last ↔ _
  rw [Option.some.injEq]

theorem lives_snoc : Lives first (changes ++ [change]) last ↔
    ∃ live, Lives first changes live ∧ change.apply live = some last := by
  unfold Lives
  simp [Option.bind_eq_some_iff]

theorem Change.apply_insert {row : Row Handle Val} (h : (insert row).apply live = some last) :
    live = none ∧ last = some row := by
  unfold apply at h
  rw [Option.ite_none_right_eq_some, Option.some.injEq] at h
  exact ⟨h.1, h.2.symm⟩

theorem Change.apply_delete {row : Row Handle Val} (h : (delete row).apply live = some last) :
    live = some row ∧ last = none := by
  unfold apply at h
  rw [Option.ite_none_right_eq_some, Option.some.injEq] at h
  exact ⟨h.1, h.2.symm⟩

theorem Lives.row_mem {row : Row Handle Val} (h : Lives first changes (some row)) :
    first = some row ∨ ∃ c ∈ changes, c.row = row := by
  cases changes using reverseRecOn with
  | nil => exact .inl (lives_nil.mp h)
  | append_singleton changes change =>
    obtain ⟨live, -, happly⟩ := lives_snoc.mp h
    cases change with
    | insert row' =>
      cases (apply_insert happly).2
      exact .inr ⟨.insert row, by simp, rfl⟩
    | delete row' => cases (apply_delete happly).2

/-- The changes that are not overwritten: only the last one may be an insertion, which is that of the row left. -/
def Remaining (changes : List (Change Handle Val)) : Option (Row Handle Val) → Prop
  | none => ∀ c ∈ lastChanges changes, c.isDelete = true
  | some row => changes = [] ∨ ∃ deletes, lastChanges changes = deletes ++ [.insert row] ∧
      ∀ c ∈ deletes, c.isDelete = true ∧ c.handle ≠ row.handle

theorem Lives.remaining (h : Lives first changes last) : Remaining changes last := by
  induction changes using reverseRecOn generalizing last with
  | nil =>
    cases last with
    | none => simp [Remaining, lastChanges]
    | some row => exact .inl rfl
  | append_singleton changes change ih =>
    obtain ⟨live, hlives, happly⟩ := lives_snoc.mp h
    have ih := ih hlives
    cases change with
    | insert row =>
      obtain ⟨rfl, rfl⟩ := apply_insert happly
      refine .inr ⟨_, lastChanges_snoc changes (.insert row), fun c hc => ?_⟩
      obtain ⟨hc, hne⟩ := mem_filter.mp hc
      exact ⟨ih c hc, of_decide_eq_true hne⟩
    | delete row =>
      obtain ⟨rfl, rfl⟩ := apply_delete happly
      intro c hc
      rw [lastChanges_snoc] at hc
      rcases mem_append.mp hc with hc | hc
      · obtain ⟨hc, hne⟩ := mem_filter.mp hc
        rcases ih with rfl | ⟨deletes, heq, hall⟩
        · cases hc
        · rw [heq] at hc
          rcases mem_append.mp hc with hc | hc
          · exact (hall c hc).1
          · rw [mem_singleton.mp hc] at hne
            exact absurd rfl (of_decide_eq_true hne)
      · rw [mem_singleton.mp hc]
        rfl

/-- A row that was live at some moment is live at the end or has been changed. -/
theorem Lives.handle_mem {row : Row Handle Val} {before : List (Change Handle Val)} (h : Lives first changes last)
    (hseen : Lives first before (some row)) (hpre : before <+: changes) :
    last = some row ∨ row.handle ∈ changes.map handle := by
  induction changes using reverseRecOn generalizing last with
  | nil =>
    rw [prefix_nil.mp hpre] at hseen
    exact .inl (Option.some.inj (h.symm.trans hseen))
  | append_singleton changes change ih =>
    rcases prefix_concat_iff.mp hpre with rfl | hpre
    · exact .inl (Option.some.inj (h.symm.trans hseen))
    · right
      obtain ⟨live, hlives, happly⟩ := lives_snoc.mp h
      rw [map_append, mem_append]
      rcases ih hlives hpre with rfl | hmem
      · -- the only change of a live row is its deletion
        cases change with
        | insert row' => cases (apply_insert happly).1
        | delete row' =>
          obtain ⟨heq, -⟩ := apply_delete happly
          cases heq
          exact .inr (mem_singleton_self _)
      · exact .inl hmem

end Lives

def handleCodec : IndexCodec Unit ℕ ℕ where
  decodeIndexHandle _ v := v.elim (.error .decode) .ok
  decodeHandleInUniqueIndexValue := .ok
  indexKVIsUnique _ := true

/-! ## The records of a key -/

def Change.decoded (c : Change Handle Val) : TempIndexValueElem Handle Val := { c.record with handle := some c.handle }

def Change.indexRecord (k : Key) (c : Change Handle Val) : TemporaryIndexRecord Key Handle Val where
  originIdxKey := k
  vals := if c.isDelete then none else some c.row.entry
  skip := false
  delete := c.isDelete
  distinct := !c.isDelete
  handle := some c.handle

theorem decode_records (h : ∀ c ∈ changes, c.row.Encoded codec k) :
    decodeTempIndexHandleFromIndexKV codec k (changes.map Change.record) = .ok (changes.map Change.decoded) := by
  unfold decodeTempIndexHandleFromIndexKV
  induction changes with
  | nil => rfl
  | cons c rest ih =>
    rw [forall_mem_cons] at h
    rw [map_cons, mapM_cons, ih h.2]
    cases c with
    | insert row =>
      have hdecode := h.1.decodeIndexHandle
      dsimp only [Change.row] at hdecode
      dsimp only [Change.record]
      rw [hdecode]
      rfl
    | delete row => rfl

section Overwritten

variable [DecidableEq Handle]

theorem notOverwritten_decoded (changes : List (Change Handle Val)) :
    ∃ occurred, notOverwritten (changes.map decoded) = ((lastChanges changes).map decoded, occurred) ∧
      ∀ h, some h ∈ occurred ↔ h ∈ changes.map handle := by
  induction changes with
  | nil => exact ⟨[], rfl, by simp⟩
  | cons c rest ih =>
    obtain ⟨occurred, heq, hoccurred⟩ := ih
    have hstep : notOverwritten ((c :: rest).map decoded) =
        if some c.handle ∈ occurred then ((lastChanges rest).map decoded, occurred)
        else (c.decoded :: (lastChanges rest).map decoded, some c.handle :: occurred) := by
      unfold notOverwritten at heq ⊢
      rw [map_cons, foldr_cons, heq]
      rfl
    rw [hstep, lastChanges]
    by_cases hmem : c.handle ∈ rest.map handle
    · rw [if_pos ((hoccurred c.handle).mpr hmem), if_pos hmem]
      refine ⟨occurred, rfl, fun h => ?_⟩
      rw [hoccurred, map_cons, mem_cons]
      constructor
      · exact .inr
      · rintro (rfl | h)
        · exact hmem
        · exact h
    · rw [if_neg fun h => hmem ((hoccurred c.handle).mp h), if_neg hmem]
      refine ⟨some c.handle :: occurred, rfl, fun h => ?_⟩
      rw [mem_cons, hoccurred, map_cons, mem_cons, Option.some.injEq]

theorem filterOverwritten_decoded (changes : List (Change Handle Val)) :
    filterOverwritten (changes.map decoded) = (lastChanges changes).map decoded := by
  unfold filterOverwritten
  obtain ⟨occurred, heq, -⟩ := notOverwritten_decoded changes
  split
  next hshort =>
    -- nothing is overwritten in a single element
    cases changes with
    | nil => rfl
    | cons c rest =>
      cases rest with
      | nil => rfl
      | cons d rest =>
        have hdistinct : c.decoded.distinct = true := by cases c <;> rfl
        simp [hdistinct] at hshort
  next => rw [heq]

theorem fetch_records (h : ∀ c ∈ changes, c.row.Encoded codec k) :
    fetchTempIndexVals codec [(k, changes.map record)] = .ok ((lastChanges changes).map (Change.indexRecord k)) := by
  have hrecord : ∀ c ∈ lastChanges changes, indexRecord codec k c.decoded = some (c.indexRecord k) := by
    intro c hc
    have hunique := (h c (lastChanges_subset changes hc)).indexKVIsUnique
    cases c with
    | insert row => simpa [indexRecord, Change.decoded, Change.record, Change.indexRecord, Change.row,
        Change.isDelete] using hunique
    | delete row => rfl
  have hfilter : ((lastChanges changes).map Change.decoded).filterMap (indexRecord codec k) =
      (lastChanges changes).map (Change.indexRecord k) := by
    rw [filterMap_map, ← filterMap_eq_map]
    exact filterMap_congr hrecord
  unfold fetchTempIndexVals
  rw [decode_records h]
  show Except.ok (((filterOverwritten (changes.map Change.decoded)).filterMap (indexRecord codec k)) ++ []) = _
  rw [filterOverwritten_decoded, hfilter, append_nil]

end Overwritten

/-! ## The check -/

variable {rowExists : Handle → Bool} {batchVals origin : Key → Option Val}
  {rest : List (TemporaryIndexRecord Key Handle Val)}

section Check

variable [DecidableEq Handle] [DecidableEq Val]

/-- A deletion is skipped where the index holds another row that is there. -/
def checkedDelete (k : Key) (rowExists : Handle → Bool) (seen : Option (Row Handle Val)) (c : Change Handle Val) :
    TemporaryIndexRecord Key Handle Val :=
  { c.indexRecord k with skip := seen.any fun row => decide (c.handle ≠ row.handle) && rowExists row.handle }

theorem checkTempIndexKey_delete {row : Row Handle Val} (hrow : row.Encoded codec k) (h : change.isDelete = true) :
    checkTempIndexKey codec rowExists (change.indexRecord k) row.entry =
      .ok (checkedDelete k rowExists (some row) change) := by
  have hdelete : (change.indexRecord k).delete = true := h
  unfold checkTempIndexKey
  rw [hdelete, hrow.indexKVIsUnique, hrow.decodeHandleInUniqueIndexValue]
  show (if some change.handle ≠ some row.handle then _ else _) = _
  unfold checkedDelete
  by_cases heq : change.handle = row.handle
  · simp [heq, Change.indexRecord]
  · simp [heq, hdelete]

variable [DecidableEq Key]

theorem checkRecords_deletes (seen : Option (Row Handle Val)) (hseen : ∀ row ∈ seen, row.Encoded codec k)
    (hfound : batchVals k = seen.map Row.entry) (h : ∀ c ∈ changes, c.isDelete = true) :
    checkRecords codec rowExists batchVals (changes.map (Change.indexRecord k) ++ rest) =
      (checkRecords codec rowExists batchVals rest).map (changes.map (checkedDelete k rowExists seen) ++ ·) := by
  induction changes with
  | nil =>
    rw [map_nil, nil_append]
    cases checkRecords codec rowExists batchVals rest <;> rfl
  | cons c changes ih =>
    rw [forall_mem_cons] at h
    have hkey : batchVals (c.indexRecord k).originIdxKey = seen.map Row.entry := hfound
    rw [map_cons, cons_append, checkRecords, hkey]
    cases seen with
    | none =>
      have hdistinct : (c.indexRecord k).distinct = false := by
        show (!c.isDelete) = false
        rw [h.1, Bool.not_true]
      dsimp only [Option.map_none]
      rw [hdistinct, if_neg Bool.false_ne_true, ih h.2]
      cases checkRecords codec rowExists batchVals rest <;> rfl
    | some row =>
      dsimp only [Option.map_some]
      rw [checkTempIndexKey_delete (hseen row rfl) h.1, ih h.2]
      cases checkRecords codec rowExists batchVals rest <;> rfl

end Check

/-! ## The replay -/

variable [DecidableEq Key]

theorem foldl_replay_delete {records : List (TemporaryIndexRecord Key Handle Val)}
    (h : ∀ r ∈ records, r.delete = true ∧ r.originIdxKey = k) :
    records.foldl replay origin k = if ∃ r ∈ records, r.skip = false then none else origin k := by
  induction records generalizing origin with
  | nil => simp
  | cons r records ih =>
    rw [forall_mem_cons] at h
    obtain ⟨⟨hdelete, hkey⟩, hrest⟩ := h
    rw [foldl_cons, ih hrest]
    cases hskip : r.skip with
    | true => simp [replay, hskip]
    | false => simp [replay, hskip, hdelete, hkey]

variable [DecidableEq Handle] [DecidableEq Val]

theorem backfillDataInTxn_eq (h : ∀ c ∈ changes, c.row.Encoded codec k) :
    backfillDataInTxn codec true rowExists origin [(k, changes.map Change.record)] =
      (checkRecords codec rowExists origin ((lastChanges changes).map (Change.indexRecord k))).map
        (foldl replay origin) := by
  unfold backfillDataInTxn batchCheckTemporaryUniqueKey
  rw [fetch_records h]
  show (do let records ← checkRecords codec rowExists origin _; _) = _
  cases checkRecords codec rowExists origin ((lastChanges changes).map (Change.indexRecord k)) <;> rfl

section Outcome

variable (hrows : ∀ c ∈ changes, c.row.Encoded codec k)

include hrows

theorem merge_deletes {seen : Option (Row Handle Val)} (hdeletes : ∀ c ∈ lastChanges changes, c.isDelete = true)
    (hseen : ∀ row ∈ seen, row.Encoded codec k) (horigin : origin k = seen.map Row.entry)
    (hmem : ∀ row ∈ seen, row.handle ∈ changes.map handle) :
    ∃ result, backfillDataInTxn codec true rowExists origin [(k, changes.map record)] = .ok result ∧
      result k = none := by
  rw [backfillDataInTxn_eq hrows, ← append_nil ((lastChanges changes).map _),
    checkRecords_deletes _ hseen horigin hdeletes]
  refine ⟨_, rfl, ?_⟩
  dsimp only
  rw [append_nil, foldl_replay_delete (k := k)]
  · cases seen with
    | none => rw [horigin, Option.map_none, ite_self]
    | some row =>
      -- the deletion of the row that the backfill has seen is replayed
      obtain ⟨c, hc, hhandle⟩ := mem_map.mp (handle_mem_lastChanges (hmem row rfl))
      exact if_pos ⟨_, mem_map_of_mem hc, by simp [checkedDelete, hhandle]⟩
  · rw [forall_mem_map]
    exact fun c hc => ⟨hdeletes c hc, rfl⟩

variable {deletes : List (Change Handle Val)} {row : Row Handle Val}
  (hlast : lastChanges changes = deletes ++ [.insert row])
  (hdeletes : ∀ c ∈ deletes, c.isDelete = true ∧ c.handle ≠ row.handle)

include hlast hdeletes

theorem merge_insert_none (hnone : origin k = none) :
    ∃ result, backfillDataInTxn codec true rowExists origin [(k, changes.map record)] = .ok result ∧
      result k = some row.entry := by
  have hinsert : checkRecords codec rowExists origin [(Change.insert row).indexRecord k] =
      .ok [(Change.insert row).indexRecord k] := by
    rw [checkRecords, show origin ((Change.insert row).indexRecord k).originIdxKey = none from hnone]
    rfl
  rw [backfillDataInTxn_eq hrows, hlast, map_append, checkRecords_deletes none nofun hnone fun c hc =>
    (hdeletes c hc).1, map_singleton, hinsert]
  refine ⟨_, rfl, ?_⟩
  rw [foldl_append]
  exact Function.update_self k _ _

theorem merge_insert_some {seen : Row Handle Val} (hseen : seen.Encoded codec k) (hrow : row.Encoded codec k)
    (hsome : origin k = some seen.entry) (hexists : rowExists row.handle = true) :
    (∃ result, backfillDataInTxn codec true rowExists origin [(k, changes.map record)] = .ok result ∧
      result k = some row.entry) ↔ seen.entry = row.entry := by
  rw [backfillDataInTxn_eq hrows, hlast, map_append, checkRecords_deletes (some seen)
    (by rintro _ ⟨⟩; exact hseen) hsome fun c hc => (hdeletes c hc).1]
  have hinsert : checkRecords codec rowExists origin [(Change.insert row).indexRecord k] =
      if seen.entry = row.entry then .ok [{ (Change.insert row).indexRecord k with skip := true }]
      else .error .keyExists := by
    rw [checkRecords, show origin ((Change.insert row).indexRecord k).originIdxKey = some seen.entry from hsome]
    by_cases heq : seen.entry = row.entry
    · simp [checkTempIndexKey, Change.indexRecord, Change.row, heq]
      rfl
    · rw [if_neg heq]
      have hne : ¬ row.entry = seen.entry := fun h => heq h.symm
      simp [checkTempIndexKey, Change.indexRecord, Change.row, hne]
      rfl
  rw [map_singleton, hinsert]
  by_cases heq : seen.entry = row.entry
  · rw [if_pos heq]
    refine iff_of_true ⟨_, rfl, ?_⟩ heq
    -- the row is there, so that no deletion is replayed
    have hhandle : seen.handle = row.handle := by
      have hdecode := hseen.decodeHandleInUniqueIndexValue
      rw [heq, hrow.decodeHandleInUniqueIndexValue] at hdecode
      exact (Except.ok.inj hdecode).symm
    rw [foldl_append]
    show (deletes.map (checkedDelete k rowExists (some seen))).foldl replay origin k = some row.entry
    rw [foldl_replay_delete (k := k), if_neg, hsome, heq]
    · rintro ⟨r, hr, hskip⟩
      obtain ⟨c, hc, rfl⟩ := mem_map.mp hr
      simp [checkedDelete, hhandle, (hdeletes c hc).2, hexists] at hskip
    · rw [forall_mem_map]
      exact fun c hc => ⟨(hdeletes c hc).1, rfl⟩
  · rw [if_neg heq]
    refine iff_of_false ?_ heq
    rintro ⟨result, herror, -⟩
    cases herror

end Outcome

/-- The merge of the changes of one key ends without an error in the entry of the row left, if and only if the backfill
has seen no row, no row is left, or it has seen the entry of the row left. -/
theorem backfillDataInTxn_iff (codec : IndexCodec Key Handle Val) (k : Key) (first last seen : Option (Row Handle Val))
    (changes before : List (Change Handle Val)) (rowExists : Handle → Bool) (origin : Key → Option Val)
    (hlives : Lives first changes last) (hbefore : before <+: changes) (hseen : Lives first before seen)
    (hrows : (∀ c ∈ changes, c.row.Encoded codec k) ∧ ∀ row ∈ first, row.Encoded codec k)
    (horigin : origin k = seen.map Row.entry) (hexists : ∀ row ∈ last, rowExists row.handle = true) :
    (∃ result, backfillDataInTxn codec true rowExists origin [(k, changes.map Change.record)] = .ok result ∧
        result k = last.map Row.entry) ↔ seen = none ∨ last = none ∨ seen.map Row.entry = last.map Row.entry := by
  obtain ⟨hchanges, hfirst⟩ := hrows
  -- the row that the backfill has seen
  have hencoded : ∀ row ∈ seen, row.Encoded codec k := by
    rintro row rfl
    rcases hseen.row_mem with rfl | ⟨c, hc, rfl⟩
    · exact hfirst row rfl
    · exact hchanges c (hbefore.subset hc)
  have hremaining := hlives.remaining
  cases last with
  | none =>
    refine iff_of_true (merge_deletes hchanges hremaining hencoded horigin ?_) (.inr (.inl rfl))
    rintro row rfl
    exact (hlives.handle_mem hseen hbefore).resolve_left (by simp)
  | some row =>
    rcases hremaining with rfl | ⟨deletes, hlast, hdeletes⟩
    · -- no change: the backfill has seen the row
      rw [prefix_nil.mp hbefore] at hseen
      have hsame : seen = some row := (lives_nil.mp hseen).symm.trans (lives_nil.mp hlives)
      subst hsame
      exact iff_of_true ⟨origin, rfl, horigin⟩ (.inr (.inr rfl))
    · have hrow : row.Encoded codec k := by
        have hmem : insert row ∈ changes := lastChanges_subset changes (by simp [hlast])
        exact hchanges _ hmem
      cases seen with
      | none => exact iff_of_true (merge_insert_none hchanges hlast hdeletes horigin) (.inl rfl)
      | some seen =>
        refine (merge_insert_some hchanges hlast hdeletes (hencoded seen rfl) hrow horigin (hexists row rfl)).trans ?_
        simp

/-- The row with handle 1 gives the key to the row with handle 2, which is deleted; the backfill has seen the row
with handle 1. -/
theorem backfillDataInTxn_handed_over :
    let changes : List (Change ℕ ℕ) := [.delete ⟨1, 1⟩, .insert ⟨2, 2⟩, .delete ⟨2, 2⟩]
    ∃ result, backfillDataInTxn handleCodec true (fun _ => false) (fun _ => some 1) [((), changes.map record)] =
      .ok result ∧ result () = none := by
  intro changes
  refine (backfillDataInTxn_iff handleCodec () (some ⟨1, 1⟩) none (some ⟨1, 1⟩) changes [] (fun _ => false)
    (fun _ => some 1) (by decide) nil_prefix (by decide) ⟨fun c hc => ?_, fun row hrow => ?_⟩ rfl
    (by decide)).mpr (.inr (.inl rfl))
  · simp only [changes, mem_cons, not_mem_nil, or_false] at hc
    rcases hc with rfl | rfl | rfl <;> exact ⟨rfl, rfl, rfl⟩
  · cases hrow
    exact ⟨rfl, rfl, rfl⟩

/-- The row with handle 1 gives the key to the row with handle 2, and the backfill has seen the first: a duplicate
key is reported. -/
theorem backfillDataInTxn_key_exists :
    let changes : List (Change ℕ ℕ) := [.delete ⟨1, 1⟩, .insert ⟨2, 2⟩]
    Lives (some ⟨1, 1⟩) changes (some ⟨2, 2⟩) ∧
      (backfillDataInTxn handleCodec true (· = 2) (fun _ => some 1) [((), changes.map record)]).map (fun _ => ()) =
        .error .keyExists := by
  decide

end Ddl
