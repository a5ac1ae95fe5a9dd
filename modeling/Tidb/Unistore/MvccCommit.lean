import Tidb.Unistore.MvccRollback

/-!
# Repeated commits

A commit that is repeated finds no lock of its transaction any more, and looks for the version that it has written.
The commit of a put or a delete has left one, the commit of a lock has not, and the status that it has left on the
primary is not looked at: `commit_repeated_iff`.
-/

namespace Unistore

open GoLang Tidb

variable {encodeFromOldRow : Bytes → Except Err Bytes} {s : Store} {r : Request} {batch : List Entry} {reply : Reply}
  {startTS commitTS : ℕ} {key : Bytes} {keys : List Bytes} {op : LockOp}

/-! ## The requests of other transactions -/

/-- The timestamp of the versions that the request can write. -/
def Request.writesAt : Request → Option ℕ
  | .prewrite req (.ok c) => if req.tryOnePc then some c else none
  | r => r.commitTS

theorem Request.writesAt_of_commitTS {c : ℕ} (h : r.commitTS = some c) : r.writesAt = some c := by
  cases r with
  | prewrite req pd => cases h
  | _ => exact h

theorem Does.version_startTS (h : Does s r batch) {c : ℕ} {v : Version} (hmem : Entry.version key c v ∈ batch) :
    v.startTS = r.startTS ∧ r.writesAt = some c := by
  cases h with
  | nothing r => cases hmem
  | onePC hpass hc hls honce =>
    obtain ⟨rfl, l, -, rfl, -⟩ := version_mem_commitAll hmem
    exact ⟨rfl, if_pos honce⟩
  | commit hc hls =>
    obtain ⟨rfl, l, -, rfl, -⟩ := version_mem_commitAll hmem
    exact ⟨rfl, Request.writesAt_of_commitTS hc⟩
  | rollback hks => exact absurd hmem version_notMem_rollbackAll
  | unlock hkeys => exact absurd hmem version_notMem_unlockAll
  | _ => exact absurd hmem version_notMem_lockAll

/-- What the commit of a lock of this kind leaves on the key. -/
structure Store.Finished (s : Store) (startTS commitTS : ℕ) (op : LockOp) (key : Bytes) : Prop where
  unlocked : ¬ s.Owns startTS key
  written : op ≠ .lock → ∃ v, (s.versions key).find commitTS = some v ∧ v.startTS = startTS
  unwritten : op = .lock → ∀ c v, (s.versions key).find c = some v → v.startTS ≠ startTS

theorem Does.finished (h : Does s r batch) (hother : r.startTS ≠ startTS) (hat : r.writesAt ≠ some commitTS)
    (hs : s.Finished startTS commitTS op key) : (s.write batch).Finished startTS commitTS op key := by
  refine ⟨fun hown => ?_, fun hop => ?_, fun hop c v hv => ?_⟩
  · rcases hown.of_write with ⟨l, hl, hts⟩ | ⟨hown, -⟩
    · exact hother ((h.lock_startTS hl).symm.trans hts)
    · exact hs.unlocked hown
  · obtain ⟨v, hv, hts⟩ := hs.written hop
    refine ⟨v, ?_, hts⟩
    rw [Store.find_version_write_of_notMem fun v' hmem => hat (h.version_startTS hmem).2, hv]
  · rcases Store.find_version_write hv with hmem | ⟨hold, -⟩
    · rw [(h.version_startTS hmem).1]
      exact hother
    · exact hs.unwritten hop c v hold

theorem run_finished {rs : List Request} (hs : s.Finished startTS commitTS op key)
    (hrs : ∀ r ∈ rs, r.startTS ≠ startTS ∧ r.writesAt ≠ some commitTS) :
    (run encodeFromOldRow s rs).Finished startTS commitTS op key := by
  induction rs generalizing s with
  | nil => exact hs
  | cons r rs ih =>
    obtain ⟨⟨hother, hat⟩, hrs⟩ := List.forall_mem_cons.mp hrs
    obtain ⟨batch, heq, hdoes⟩ := exec_does encodeFromOldRow s r
    refine ih ?_ hrs
    rw [heq]
    exact hdoes.finished hother hat hs

/-! ## The two commits -/

theorem handle_commit_finished (hok : handle encodeFromOldRow s (.commit keys startTS commitTS) = .ok (batch, reply))
    (hkey : key ∈ keys) {l : Lock} (hget : s.getLock key = some l) (hts : l.startTS = startTS)
    (hop : l.op ≠ .pessimisticLock) (hnew : ∀ c v, (s.versions key).find c = some v → v.startTS ≠ startTS) :
    (s.write batch).Finished startTS commitTS l.op key := by
  obtain ⟨b, hb, hrest⟩ := Outcome.bind_eq_ok.mp hok
  cases hrest
  obtain ⟨ls, rfl, hls, hall⟩ := commitKeys_ok hb
  have hlock : ∀ {l'}, (key, l') ∈ ls → l' = l := fun hl' => Option.some.inj ((hls _ hl').1.symm.trans hget)
  obtain ⟨l', hmem⟩ := hall key (mem_sortKeys.mpr hkey) ⟨l, hget, hts⟩
  rw [hlock hmem] at hmem
  refine ⟨fun hown => ?_, fun hdata => ?_, fun hlocked c v hv => ?_⟩
  · rcases hown.of_write with ⟨l', hl', -⟩ | ⟨-, hun⟩
    · exact lock_notMem_commitAll hl'
    · exact hun (unlock_mem_commitAll.mpr ⟨l, hmem⟩)
  · have hversion : Entry.version key commitTS ⟨startTS, l.value⟩ ∈ commitAll startTS commitTS ls := by
      refine List.mem_flatMap.mpr ⟨(key, l), hmem, ?_⟩
      cases hl : l.op with
      | lock => exact absurd hl hdata
      | pessimisticLock => exact absurd hl hop
      | _ => simp [commitEntries, hl]
    obtain ⟨v, hv, hfind⟩ := Store.find_version_write_of_mem hversion
    obtain ⟨-, l', -, rfl, -⟩ := version_mem_commitAll hv
    exact ⟨_, hfind, rfl⟩
  · rcases Store.find_version_write hv with hmem | ⟨hold, -⟩
    · obtain ⟨-, l', hl', -, hdata⟩ := version_mem_commitAll hmem
      rw [hlock hl', hlocked] at hdata
      simp at hdata
    · exact hnew c v hold

theorem Store.Finished.handleLockNotFound_iff (hs : s.Finished startTS commitTS op key) :
    handleLockNotFound s key startTS commitTS = true ↔ op ≠ .lock := by
  unfold handleLockNotFound Store.newestAt
  cases hnew : (s.versions key).lastAtMost commitTS with
  | none =>
    refine ⟨(by cases ·), fun hop => ?_⟩
    obtain ⟨v, hv, -⟩ := hs.written hop
    exact absurd (Nat.isLE_compare.mpr le_rfl) (SortedMap.lastAtMost_eq_none hnew hv)
  | some e =>
    obtain ⟨hfind, hle, hmax⟩ := SortedMap.lastAtMost_eq_some hnew
    rw [decide_eq_true_iff]
    refine ⟨fun hts hop => hs.unwritten hop e.1 e.2 hfind hts, fun hop => ?_⟩
    obtain ⟨v, hv, hts⟩ := hs.written hop
    have hge := hmax commitTS v hv (Nat.isLE_compare.mpr le_rfl)
    rw [Nat.isLE_compare] at hle hge
    rw [le_antisymm hle hge, hv] at hfind
    rw [← Option.some.inj hfind]
    exact hts

theorem commitKeys_of_not_owns (hnot : ∀ k ∈ keys, ¬ s.Owns startTS k) (commitTS : ℕ) : commitKeys s startTS commitTS
    keys = .ok [] ∧ (∀ k ∈ keys, handleLockNotFound s k startTS commitTS = true) ∨ (∃ e, commitKeys s startTS commitTS
    keys = .error e) ∧ ∃ k ∈ keys, handleLockNotFound s k startTS commitTS = false := by
  induction keys with
  | nil => exact .inl ⟨rfl, by simp⟩
  | cons key keys ih =>
    obtain ⟨hkey, hkeys⟩ := List.forall_mem_cons.mp hnot
    obtain ⟨e, heq⟩ := commitKeys_cons_of_not_owns hkey commitTS keys
    rw [heq]
    cases hfound : handleLockNotFound s key startTS commitTS with
    | false => exact .inr ⟨⟨e, rfl⟩, key, List.mem_cons_self, hfound⟩
    | true =>
      rcases ih hkeys with ⟨hok, hall⟩ | ⟨herr, k, hk, hfalse⟩
      · exact .inl ⟨hok, List.forall_mem_cons.mpr ⟨hfound, hall⟩⟩
      · exact .inr ⟨herr, k, List.mem_cons_of_mem key hk, hfalse⟩

/-- A successful commit of prewritten keys, repeated after requests of other transactions, is successful and changes
nothing exactly if none of the keys was only locked. -/
theorem commit_repeated_iff
    (hprewritten : ∀ key ∈ keys, ∃ l, s.getLock key = some l ∧ l.startTS = startTS ∧ l.op ≠ .pessimisticLock ∧
      ∀ c v, (s.versions key).find c = some v → v.startTS ≠ startTS)
    (hok : handle encodeFromOldRow s (.commit keys startTS commitTS) = .ok (batch, reply))
    (later : List Request) (hlater : ∀ r ∈ later, r.startTS ≠ startTS ∧ r.writesAt ≠ some commitTS) :
    let s' := run encodeFromOldRow (exec encodeFromOldRow s (.commit keys startTS commitTS)) later
    ((∃ reply', handle encodeFromOldRow s' (.commit keys startTS commitTS) = .ok reply') ∧ exec encodeFromOldRow s'
        (.commit keys startTS commitTS) = s') ↔ ∀ key ∈ keys, ∀ l, s.getLock key = some l → l.op ≠ .lock := by
  intro s'
  have hfinished : ∀ key ∈ keys, ∃ l, s.getLock key = some l ∧ s'.Finished startTS commitTS l.op key := by
    intro key hkey
    obtain ⟨l, hget, hts, hop, hnew⟩ := hprewritten key hkey
    have hfirst := handle_commit_finished hok hkey hget hts hop hnew
    rw [← exec_of_ok hok] at hfirst
    exact ⟨l, hget, run_finished hfirst hlater⟩
  have hfound : ∀ key ∈ keys, (handleLockNotFound s' key startTS commitTS = true ↔
      ∀ l, s.getLock key = some l → l.op ≠ .lock) := by
    intro key hkey
    obtain ⟨l, hget, hfin⟩ := hfinished key hkey
    simp [hfin.handleLockNotFound_iff, hget]
  have hnot : ∀ key ∈ sortKeys keys, ¬ s'.Owns startTS key := by
    intro key hkey
    obtain ⟨l, -, hfin⟩ := hfinished key (mem_sortKeys.mp hkey)
    exact hfin.unlocked
  rcases commitKeys_of_not_owns hnot commitTS with ⟨hagain, hall⟩ | ⟨⟨e, herr⟩, key, hkey, hlost⟩
  · have hrepeat : handle encodeFromOldRow s' (.commit keys startTS commitTS) = .ok ([], .done) := by
      rw [handle, commit, hagain]
      rfl
    refine ⟨fun _ key hkey => (hfound key hkey).mp (hall key (mem_sortKeys.mpr hkey)), fun _ => ?_⟩
    exact ⟨⟨_, hrepeat⟩, exec_of_ok hrepeat⟩
  · have hkey := mem_sortKeys.mp hkey
    constructor
    · rintro ⟨⟨reply', hagain⟩, -⟩
      rw [handle, commit, herr] at hagain
      cases hagain
    · intro hdata
      rw [(hfound key hkey).mpr (hdata key hkey)] at hlost
      cases hlost

/-- Transaction 10 only locks its primary "ta".  The commit is successful, and fails when it is repeated. -/
theorem commit_of_lock_repeated :
    let s := exec newRows .empty
      (.prewrite (prewriteOf 10 [116, 97] [⟨.lock, [116, 97], [], .none, .skipPessimisticCheck⟩]) (.ok 0))
    let commit := Request.commit [[116, 97]] 10 20
    handle newRows s commit = .ok ([.status [116, 97] 10 20, .unlock [116, 97]], .done) ∧
      handle newRows (exec newRows s commit) commit = .error errLockNotFound := by
  decide

theorem commit_of_put_repeated :
    let s := exec newRows .empty (.prewrite (prewriteOf 10 [116, 97] [putOf [116, 97] [1]]) (.ok 0))
    let commit := Request.commit [[116, 97]] 10 20
    let other := Request.prewrite (prewriteOf 30 [116, 97] [putOf [116, 97] [2]]) (.ok 0)
    let s' := run newRows (exec newRows s commit) [other]
    (∃ reply, handle newRows s' commit = .ok reply) ∧ exec newRows s' commit = s' := by
  intro s commit other s'
  have hok : handle newRows s commit = .ok ([.version [116, 97] 20 ⟨10, [1]⟩, .unlock [116, 97]], .done) := by decide
  refine (commit_repeated_iff ?_ hok [other] ?_).mpr ?_
  · intro key hkey
    rw [List.mem_singleton.mp hkey]
    exact ⟨_, rfl, rfl, by decide, fun c v hv => by cases hv⟩
  · decide
  · decide

end Unistore
