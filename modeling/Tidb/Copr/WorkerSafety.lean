import Tidb.Copr.Worker

/-!
# Every key is read once

At each moment of a run every key of the request is in exactly one place: in one result that has been sent or
in one pending piece.  What a handler does to one task is said by `Keeps`: the results it sends and the tasks
that remain have each key as often as the task had it.
-/

universe u

namespace Copr

open GoLang Tidb KeyRange List Outcome KeyRanges

variable {K : Type u} [LinearOrder K] [OrderBot K]

/-! ## Counting -/

def one (l : List (KeyRange K)) (k : K) : ℕ := if Has l k then 1 else 0

def batchCount (batch : List (BatchedCopTask K)) (k : K) : ℕ := batch.countP fun b => Has b.task.ranges.toList k

variable {l : List (KeyRange K)}

theorem one_congr {l' : List (KeyRange K)} {k : K} (h : Has l k ↔ Has l' k) : one l k = one l' k := by
  simp only [one, h]

theorem ite_decide_has (l : List (KeyRange K)) (k : K) : (if decide (Has l k) = true then 1 else 0) = one l k := by
  simp only [one, decide_eq_true_eq]

theorem countP_pieces {ps : List (Piece K)} (h : Ascending (ps.flatMap Piece.ranges)) (k : K) :
    (ps.countP fun p => Has p.ranges k) = one (ps.flatMap Piece.ranges) k := by
  induction ps with
  | nil => rfl
  | cons p ps ih =>
    rw [flatMap_cons] at h ⊢
    rw [countP_cons, ih (ascending_append.mp h).2.1]
    by_cases hp : Has p.ranges k
    · -- no later piece has the key
      have hrest : ¬ Has (ps.flatMap Piece.ranges) k := fun hk => lt_irrefl k (h.has_lt hp hk)
      rw [one, if_neg hrest, if_pos (decide_eq_true hp), one, if_pos (has_append.mpr (.inl hp))]
    · have hiff : Has (p.ranges ++ ps.flatMap Piece.ranges) k ↔ Has (ps.flatMap Piece.ranges) k := by
        rw [has_append]
        exact or_iff_right hp
      simp only [one, hiff, hp, decide_false, Bool.false_eq_true, if_false, Nat.add_zero]

@[simp] theorem pendingCount_nil (k : K) : pendingCount ([] : List (CopTask K)) k = 0 := rfl

@[simp] theorem readCount_nil (k : K) : readCount ([] : List (Sent K)) k = 0 := rfl

theorem pendingCount_append (ts ts' : List (CopTask K)) (k : K) :
    pendingCount (ts ++ ts') k = pendingCount ts k + pendingCount ts' k := by
  rw [pendingCount, piecesOf_append, countP_append]
  rfl

theorem readCount_append (ss ss' : List (Sent K)) (k : K) :
    readCount (ss ++ ss') k = readCount ss k + readCount ss' k := countP_append

theorem pendingCount_cons (t : CopTask K) (ts : List (CopTask K)) (k : K) :
    pendingCount (t :: ts) k = pendingCount [t] k + pendingCount ts k :=
  pendingCount_append [t] ts k

theorem pendingCount_singleton (t : CopTask K) (k : K) :
    pendingCount [t] k = one t.ranges.toList k + batchCount t.batchTaskList k := by
  rw [pendingCount, piecesOf, flatMap_cons, flatMap_nil, append_nil, CopTask.pieces,
    countP_cons, countP_map, ite_decide_has, Nat.add_comm]
  rfl

theorem readCount_all (ranges : KeyRanges K) (k : K) : readCount [⟨ranges, none⟩] k = one ranges.toList k := by
  simp [readCount, Sent.Reads, one]

/-! ## Tasks -/

structure TaskOk (t : CopTask K) : Prop where
  ascending : ∀ p ∈ t.pieces, Ascending p.ranges
  ne_nil : ∀ p ∈ t.pieces, p.ranges ≠ []
  nodup : (t.batchTaskList.map fun b => b.task.taskID).Nodup

/-- The remaining tasks and the results have each key as often as `count` says. -/
structure Keeps (h : Handled K) (count : K → ℕ) : Prop where
  taskOk : ∀ t ∈ h.remains, TaskOk t
  count : ∀ k, readCount h.sent k + pendingCount h.remains k = count k

theorem TaskOk.own {t : CopTask K} (h : TaskOk t) : Ascending t.ranges.toList ∧ t.ranges.toList ≠ [] :=
  ⟨h.ascending _ mem_cons_self, h.ne_nil _ mem_cons_self⟩

theorem TaskOk.batched {t : CopTask K} (h : TaskOk t) {b : BatchedCopTask K} (hb : b ∈ t.batchTaskList) :
    Ascending b.task.ranges.toList ∧ b.task.ranges.toList ≠ [] := by
  have hmem : b.task.piece ∈ t.pieces := mem_cons_of_mem _ (mem_map_of_mem hb)
  exact ⟨h.ascending _ hmem, h.ne_nil _ hmem⟩

theorem taskOk_plain {t : PlainTask K} (hasc : Ascending t.ranges.toList) (hne : t.ranges.toList ≠ []) :
    TaskOk ({ t with batchTaskList := [] } : CopTask K) where
  ascending p hp := by
    rw [mem_singleton.mp hp]
    exact hasc
  ne_nil p hp := by
    rw [mem_singleton.mp hp]
    exact hne
  nodup := nodup_nil

theorem TaskOk.setPagingSize {t : CopTask K} (h : TaskOk t) (size : UInt64) :
    TaskOk { t with pagingSize := size } := ⟨h.ascending, h.ne_nil, h.nodup⟩

theorem pendingCount_setPagingSize (ts : List (CopTask K)) (size : UInt64) (k : K) :
    pendingCount (ts.map fun t => { t with pagingSize := size }) k = pendingCount ts k := by
  rw [pendingCount, piecesOf, flatMap_map]
  rfl

theorem ascending_of_mem_flatMap {ps : List (Piece K)} (h : Ascending (ps.flatMap Piece.ranges)) {p : Piece K}
    (hp : p ∈ ps) : Ascending p.ranges := by
  obtain ⟨front, back, rfl⟩ := append_of_mem hp
  rw [flatMap_append] at h
  exact (ascending_append.mp (ascending_append.mp h).2.1).1

theorem Carved.tasks {req : Request} {tasks : List (CopTask K)} (h : Carved req l tasks) :
    (∀ t ∈ tasks, TaskOk t) ∧ ∀ k, pendingCount tasks k = one l k := by
  obtain ⟨ps, hperm, hids, hasc, hhas⟩ := h.ordered
  constructor
  · intro t ht
    have hsub : ∀ p ∈ t.pieces, p ∈ piecesOf tasks := fun p hp => mem_flatMap.mpr ⟨t, ht, hp⟩
    refine ⟨?_, fun p hp => h.ne_nil p (hsub p hp), ?_⟩
    · intro p hp
      exact ascending_of_mem_flatMap hasc (hperm.mem_iff.mp (hsub p hp))
    · -- the ids of all pieces differ
      have hnodup : (ps.map Piece.taskID).Nodup := (pairwise_map.mpr hids).imp fun hlt => hlt.ne
      have hall := (hperm.map Piece.taskID).nodup_iff.mpr hnodup
      obtain ⟨front, back, rfl⟩ := append_of_mem ht
      have hpieces : (t.pieces.map Piece.taskID).Nodup := by
        rw [piecesOf, flatMap_append, flatMap_cons, map_append, map_append] at hall
        exact (nodup_append.mp (nodup_append.mp hall).2.1).1
      rw [CopTask.pieces, map_cons, map_map] at hpieces
      exact (nodup_cons.mp hpieces).2
  · intro k
    rw [pendingCount, hperm.countP_eq, countP_pieces hasc]
    exact one_congr (hhas k)

/-! ## The handlers -/

variable {env : Env K} {req : Request}

theorem handleRegionErr_keeps (henv : ∀ t, (env.cache t).Sound) (hreq : req.storeType ≠ .tiDB)
    {t : PlainTask K} (hasc : Ascending t.ranges.toList) {remains : List (CopTask K)}
    (hok : handleRegionErr env req t = .ok remains) : Keeps ⟨remains, []⟩ (one t.ranges.toList) := by
  rw [handleRegionErr] at hok
  split at hok
  · cases hok
  · obtain ⟨htasks, hcount⟩ := (buildCopTasks_carved (henv t) hreq hasc hok).tasks
    exact ⟨htasks, fun k => (Nat.zero_add _).trans (hcount k)⟩

theorem Keeps.remains_ne_nil {h : Handled K} {count : K → ℕ}
    (hkeeps : Keeps h count) (hsent : h.sent = []) (hl : Ascending l) (hne : l ≠ [])
    (hcount : ∀ k, one l k ≤ count k) : h.remains ≠ [] := by
  intro hnil
  obtain ⟨r, l', rfl⟩ := exists_cons_of_ne_nil hne
  have heq := hkeeps.count r.startKey
  have hle := hcount r.startKey
  rw [hsent, hnil, readCount_nil, pendingCount_nil] at heq
  rw [one, if_pos hl.has_head] at hle
  omega

variable {handled : Handled K}

theorem handleBatchResponse_keeps (henv : ∀ t, (env.cache t).Sound) (hreq : req.storeType ≠ .tiDB)
    {resp : BatchResponse} {t : PlainTask K} (hasc : Ascending t.ranges.toList) (hne : t.ranges.toList ≠ [])
 (hok : handleBatchResponse env req resp t = .ok handled) : Keeps handled (one t.ranges.toList) := by
  rw [handleBatchResponse] at hok
  split_ifs at hok
  · obtain ⟨remains, hremains, hok⟩ := bind_eq_ok.mp hok
    cases hok
    exact handleRegionErr_keeps henv hreq hasc hremains
  · cases hok
    refine ⟨?_, ?_⟩
    · intro t' ht'
      rw [mem_singleton.mp ht']
      exact taskOk_plain hasc hne
    · intro k
      rw [readCount_nil, pendingCount_singleton, Nat.zero_add]
      rfl
  · rw [otherErr] at hok
    split_ifs at hok
  · cases hok
    refine ⟨by simp, fun k => ?_⟩
    rw [pendingCount_nil, readCount_all, Nat.add_zero]

theorem Keeps.append {h h' : Handled K} {count count' : K → ℕ} (hk : Keeps h count) (hk' : Keeps h' count') :
    Keeps ⟨h.remains ++ h'.remains, h.sent ++ h'.sent⟩ fun k => count k + count' k where
  taskOk t ht := by
    rcases mem_append.mp ht with ht | ht
    · exact hk.taskOk t ht
    · exact hk'.taskOk t ht
  count k := by
    rw [readCount_append, pendingCount_append, ← hk.count, ← hk'.count]
    omega

variable {resps : List BatchResponse}

theorem handleBatchResponses_keeps (henv : ∀ t, (env.cache t).Sound) (hreq : req.storeType ≠ .tiDB)
    {tasks : List (BatchedCopTask K)} (htasks : ∀ b ∈ tasks, Ascending b.task.ranges.toList ∧ b.task.ranges.toList ≠ [])

    (hok : handleBatchResponses env req tasks resps = .ok handled) :
    ∃ bs, bs ⊆ tasks ∧ (bs.map fun b => b.task.taskID) = (resps.map fun r => r.taskID) ∧
      Keeps handled (batchCount bs) := by
  induction resps generalizing handled with
  | nil =>
    cases hok
    exact ⟨[], by simp, rfl, by simp, fun k => rfl⟩
  | cons resp resps ih =>
    rw [handleBatchResponses] at hok
    split at hok
    · cases hok
    · rename_i b hb
      obtain ⟨first, hfirst, hok⟩ := bind_eq_ok.mp hok
      obtain ⟨rest, hrest, hok⟩ := bind_eq_ok.mp hok
      cases hok
      have hmem := mem_of_find?_eq_some hb
      have hid : b.task.taskID = resp.taskID := by simpa using find?_some hb
      obtain ⟨bs, hsub, hids, hkeeps⟩ := ih hrest
      refine ⟨b :: bs, cons_subset.mpr ⟨hmem, hsub⟩, by rw [map_cons, map_cons, hid, hids], ?_⟩
      have hboth := (handleBatchResponse_keeps henv hreq (htasks b hmem).1 (htasks b hmem).2 hfirst).append hkeeps
      refine ⟨hboth.taskOk, fun k => (hboth.count k).trans ?_⟩
      rw [batchCount, batchCount, countP_cons, Nat.add_comm, ite_decide_has]

omit [LinearOrder K] [OrderBot K] in
theorem perm_of_ids {tasks bs : List (BatchedCopTask K)} (hnodup : (tasks.map fun b => b.task.taskID).Nodup)
    (hsub : bs ⊆ tasks) (hnodup' : (bs.map fun b => b.task.taskID).Nodup)
    (hall : ∀ b ∈ tasks, b.task.taskID ∈ bs.map fun b => b.task.taskID) : bs.Perm tasks := by
  apply (perm_ext_iff_of_nodup hnodup'.of_map hnodup.of_map).mpr
  intro b
  refine ⟨fun hb => hsub hb, fun hb => ?_⟩
  obtain ⟨b', hb', hid⟩ := mem_map.mp (hall b hb)
  rw [← inj_on_of_nodup_map hnodup (hsub hb') hb hid]
  exact hb'

theorem handleBatchCopResponse_keeps (henv : ∀ t, (env.cache t).Sound) (hreq : req.storeType ≠ .tiDB)
    {task : CopTask K} (htask : TaskOk task) (hnodup : (resps.map fun r => r.taskID).Nodup)
    (hanswered : ∀ b ∈ task.batchTaskList, ∃ r ∈ resps, r.taskID = b.task.taskID)
    (hok : handleBatchCopResponse env req resps task.batchTaskList = .ok handled) :
    Keeps handled (batchCount task.batchTaskList) := by
  rw [handleBatchCopResponse] at hok
  split_ifs at hok with hnil
  · cases hok
    rw [hnil]
    exact ⟨by simp, fun k => rfl⟩
  · obtain ⟨bs, hsub, hids, hkeeps⟩ := handleBatchResponses_keeps henv hreq (fun b hb => htask.batched hb) hok
    have hperm := perm_of_ids htask.nodup hsub (hids ▸ hnodup) (by
      intro b hb
      obtain ⟨r, hr, hid⟩ := hanswered b hb
      rw [hids, ← hid]
      exact mem_map_of_mem hr)
    refine ⟨hkeeps.taskOk, fun k => (hkeeps.count k).trans ?_⟩
    exact hperm.countP_eq _

theorem handleBatchRemainsOnErr_keeps (henv : ∀ t, (env.cache t).Sound) (hreq : req.storeType ≠ .tiDB)
    {task : CopTask K} (htask : TaskOk task) {remains : List (CopTask K)}
 (hremains : Keeps ⟨remains, []⟩ (one task.ranges.toList)) (hnodup : (resps.map fun r => r.taskID).Nodup)
    (hanswered : ∀ b ∈ task.batchTaskList, ∃ r ∈ resps, r.taskID = b.task.taskID)
    (hok : handleBatchRemainsOnErr env req remains resps task = .ok handled) :
    Keeps handled (pendingCount [task]) ∧ handled.remains ≠ [] := by
  have hne : remains ≠ [] :=
    hremains.remains_ne_nil rfl htask.own.1 htask.own.2 fun _ => Nat.le_refl _
  rw [handleBatchRemainsOnErr] at hok
  split_ifs at hok with hnil
  · cases hok
    refine ⟨⟨hremains.taskOk, fun k => (hremains.count k).trans ?_⟩, hne⟩
    rw [pendingCount_singleton, hnil]
    rfl
  · obtain ⟨batched, hbatched, hok⟩ := bind_eq_ok.mp hok
    cases hok
    have hkeeps := hremains.append (handleBatchCopResponse_keeps henv hreq htask hnodup hanswered hbatched)
    refine ⟨⟨hkeeps.taskOk, fun k => (hkeeps.count k).trans ?_⟩, ?_⟩
    · rw [pendingCount_singleton]
    · intro hempty
      exact hne (append_eq_nil_iff.mp hempty).1

/-! ## Pages -/

variable {ranges : KeyRanges K}

theorem calculateRemain_spec {page : KeyRange K} (hasc : Ascending ranges.toList)
    (hfits : PageFits req ranges page) (hend : req.desc = true ∨ page.endKey ≠ ⊥) :
    Ascending (calculateRemain ranges page req.desc).toList ∧
      ∀ k, Has (calculateRemain ranges page req.desc).toList k ↔ Has ranges.toList k ∧ ¬ page.Contains k := by
  cases hdesc : req.desc with
  | true =>
    obtain ⟨hsplit, hleft, -⟩ := split_spec ranges hasc page.startKey
    refine ⟨(ascending_append.mp hsplit).1, fun k => (hleft k).trans (and_congr_right fun hk => ?_)⟩
    constructor
    · exact fun hlt hc => absurd hc.1 (not_le_of_gt hlt)
    · exact fun hnot => not_le.mp fun hle => hnot (hfits k hk (by rwa [hdesc]))
  | false =>
    obtain ⟨hsplit, -, hright⟩ := split_spec ranges hasc page.endKey
    have hne : page.endKey ≠ ⊥ := hend.resolve_left (by rw [hdesc]; decide)
    refine ⟨(ascending_append.mp hsplit).2.1, fun k => (hright k).trans (and_congr_right fun hk => ?_)⟩
    constructor
    · exact fun hle hc => absurd (hc.2.resolve_right hne) (not_lt.mpr hle)
    · refine fun hnot => not_lt.mp fun hlt => hnot (hfits k hk ?_)
      rw [hdesc]
      exact .inl hlt

theorem readCount_cons (s : Sent K) (ss : List (Sent K)) (k : K) :
    readCount (s :: ss) k = readCount [s] k + readCount ss k := readCount_append [s] ss k

variable {page : Option (KeyRange K)}

theorem readCount_drained
    (h : ∀ p ∈ page, Drains ranges p) (k : K) : readCount [⟨ranges, page⟩] k = one ranges.toList k := by
  have hiff : Sent.Reads ⟨ranges, page⟩ k ↔ Has ranges.toList k :=
    ⟨fun hr => hr.1, fun hk => ⟨hk, fun p hp => h p hp k hk⟩⟩
  simp [readCount, one, hiff]

theorem readCount_page {rest : KeyRanges K} {page : KeyRange K}
    (h : ∀ k, Has rest.toList k ↔ Has ranges.toList k ∧ ¬ page.Contains k) (k : K) :
    readCount [⟨ranges, some page⟩] k + one rest.toList k = one ranges.toList k := by
  have hiff : Sent.Reads ⟨ranges, some page⟩ k ↔ Has ranges.toList k ∧ page.Contains k := by simp [Sent.Reads]
  have hcount : readCount [⟨ranges, some page⟩] k = if Has ranges.toList k ∧ page.Contains k then 1 else 0 := by
    simp [readCount, hiff]
  rw [hcount, one, one]
  by_cases hk : Has ranges.toList k
  · by_cases hp : page.Contains k
    · rw [if_pos ⟨hk, hp⟩, if_neg fun hr => ((h k).mp hr).2 hp, if_pos hk]
    · rw [if_neg fun hr => hp hr.2, if_pos ((h k).mpr ⟨hk, hp⟩), if_pos hk]
  · rw [if_neg fun hr => hk hr.1, if_neg fun hr => hk ((h k).mp hr).1, if_neg hk]

/-! ## One response -/

section Once

variable {cacheValue : Option (CacheValue K)} {resp : Response K} {task : CopTask K}

/-- A response that is an error keeps the task; otherwise its ranges are sent, as far as the page goes. -/
theorem handleCopResponse_cases (henv : ∀ t, (env.cache t).Sound) (hreq : req.storeType ≠ .tiDB)
    (htask : TaskOk task) (hans : Answers req task cacheValue resp)
    (hanswered : ∀ b ∈ task.batchTaskList, ∃ r ∈ resp.batchResponses, r.taskID = b.task.taskID)

    (hok : handleCopResponse env req cacheValue resp task = .ok (handled, page)) :
    (Keeps handled (pendingCount [task]) ∧ handled.remains ≠ []) ∨ resp.regionError = none ∧ resp.locked = false ∧
      pageOf req cacheValue resp = .ok page ∧ ∃ sent, handled.sent = ⟨task.ranges, page⟩ :: sent ∧ Keeps
      ⟨handled.remains, sent⟩ (batchCount task.batchTaskList) ∧ (task.batchTaskList = [] → handled.remains = []) := by
  rw [handleCopResponse] at hok
  cases hregion : resp.regionError with
  | some regionErr =>
    left
    rw [hregion] at hok
    dsimp only at hok
    split_ifs at hok
    obtain ⟨remains, hremains, hok⟩ := bind_eq_ok.mp hok
    obtain ⟨h, hh, hok⟩ := bind_eq_ok.mp hok
    cases hok
    have hkeeps := handleRegionErr_keeps henv hreq htask.own.1 hremains
    exact handleBatchRemainsOnErr_keeps henv hreq htask hkeeps hans.nodup hanswered hh
  | none =>
    rw [hregion] at hok
    dsimp only at hok
    cases hlocked : resp.locked with
    | true =>
      left
      rw [if_pos hlocked] at hok
      split at hok
      · cases hok
      · cases hok
      · obtain ⟨h, hh, hok⟩ := bind_eq_ok.mp hok
        cases hok
        refine handleBatchRemainsOnErr_keeps henv hreq htask ⟨?_, ?_⟩ hans.nodup hanswered hh
        · intro t ht
          rw [mem_singleton.mp ht]
          exact taskOk_plain htask.own.1 htask.own.2
        · intro k
          rw [readCount_nil, pendingCount_singleton, Nat.zero_add]
          rfl
    | false =>
      right
      rw [if_neg (by rw [hlocked]; decide)] at hok
      split_ifs at hok
      · rw [otherErr] at hok
        split_ifs at hok
      · obtain ⟨page', hpage, hok⟩ := bind_eq_ok.mp hok
        obtain ⟨batched, hbatched, hok⟩ := bind_eq_ok.mp hok
        cases hok
        refine ⟨rfl, rfl, hpage, batched.sent, rfl,
          handleBatchCopResponse_keeps henv hreq htask hans.nodup hanswered hbatched, ?_⟩
        intro hnil
        rw [handleBatchCopResponse, if_pos hnil] at hbatched
        cases hbatched
        rfl

theorem keeps_of_drained {sent : List (Sent K)} (hsent : handled.sent = ⟨task.ranges, page⟩ :: sent)
    (hkeeps : Keeps ⟨handled.remains, sent⟩ (batchCount task.batchTaskList))
    (hdrains : ∀ p ∈ page, Drains task.ranges p) : Keeps handled (pendingCount [task]) where
  taskOk := hkeeps.taskOk
  count k := by
    have hcount := hkeeps.count k
    rw [hsent, readCount_cons, readCount_drained hdrains, pendingCount_singleton]
    dsimp only at hcount
    omega

theorem handleTaskOnce_keeps (henv : ∀ t, (env.cache t).Sound) (hreq : req.storeType ≠ .tiDB)
    (htask : TaskOk task) (hans : Answers req task cacheValue resp)
    (hcomplete : Answers.Complete req task cacheValue resp)
    (hok : handleTaskOnce env req cacheValue resp task = .ok handled) : Keeps handled (pendingCount [task]) := by
  rw [handleTaskOnce] at hok
  cases hpaging : req.pagingEnable with
  | false =>
    rw [if_neg (by rw [hpaging]; decide)] at hok
    obtain ⟨⟨h, page⟩, hh, hok⟩ := bind_eq_ok.mp hok
    cases hok
    rcases handleCopResponse_cases henv hreq htask hans hcomplete.answered hh with
      ⟨hkeeps, -⟩ | ⟨hregion, hlocked, hpage, sent, hsent, hkeeps, -⟩
    · exact hkeeps
    · apply keeps_of_drained hsent hkeeps
      intro p hp
      have hall := hcomplete.page p hregion hlocked (hp ▸ hpage)
      rwa [if_neg (by rw [hpaging]; decide)] at hall
  | true =>
    rw [if_pos hpaging] at hok
    obtain ⟨⟨h, page⟩, hh, hok⟩ := bind_eq_ok.mp hok
    dsimp only at hok
    rcases handleCopResponse_cases henv hreq htask hans hcomplete.answered hh with
      ⟨hkeeps, hne⟩ | ⟨hregion, hlocked, hpage, sent, hsent, hkeeps, hbatch⟩
    · -- an error: the tasks are retried with the paging size of the task
      rw [if_pos hne] at hok
      cases hok
      refine ⟨?_, fun k => ?_⟩
      · intro t ht
        obtain ⟨t', ht', rfl⟩ := mem_map.mp ht
        exact (hkeeps.taskOk t' ht').setPagingSize _
      · rw [pendingCount_setPagingSize]
        exact hkeeps.count k
    · have hfits := fun p (hp : page = some p) => hans.page p hregion hlocked (hp ▸ hpage)
      have hall : ∀ p, page = some p → (req.desc = true ∨ p.endKey ≠ ⊥) ∧
          (task.batchTaskList = [] ∨ Drains task.ranges p) := by
        intro p hp
        have := hcomplete.page p hregion hlocked (hp ▸ hpage)
        rwa [if_pos hpaging] at this
      split_ifs at hok with hne
      · cases hok
        -- a batched task remains, so the page has read everything
        have hdrained : Keeps h (pendingCount [task]) := by
          apply keeps_of_drained hsent hkeeps
          intro p hp
          exact (hall p hp).2.resolve_left fun hnil => hne (hbatch hnil)
        refine ⟨?_, fun k => ?_⟩
        · intro t ht
          obtain ⟨t', ht', rfl⟩ := mem_map.mp ht
          exact (hdrained.taskOk t' ht').setPagingSize _
        · rw [pendingCount_setPagingSize]
          exact hdrained.count k
      · rw [not_not] at hne
        have hsame : (⟨[], h.sent⟩ : Handled K) = h := by rw [← hne]
        cases page with
        | none =>
          cases hok
          rw [hsame]
          exact keeps_of_drained hsent hkeeps (by simp)
        | some p =>
          obtain ⟨hasc, hremain⟩ := calculateRemain_spec htask.own.1 (hfits p rfl) (hall p rfl).1
          dsimp only at hok
          split_ifs at hok with hlen
          · cases hok
            rw [hsame]
            -- nothing remains, so the page has read everything
            apply keeps_of_drained hsent hkeeps
            intro p' hp' k hk
            cases hp'
            by_contra hnot
            have hhas := (hremain k).mpr ⟨hk, hnot⟩
            rw [eq_nil_of_length_eq_zero ((length_toList _).trans hlen)] at hhas
            exact has_nil hhas
          · cases hok
            have hne' : (calculateRemain task.ranges p req.desc).toList ≠ [] := by
              apply ne_nil_of_length_pos
              rw [length_toList]
              omega
            have hnil : task.batchTaskList = [] := by
              refine (hall p rfl).2.resolve_right fun hdrains => ?_
              obtain ⟨r, l, hl⟩ := exists_cons_of_ne_nil hne'
              rw [hl] at hasc
              have hhas := (hremain r.startKey).mp (hl ▸ hasc.has_head)
              exact hhas.2 (hdrains _ hhas.1)
            refine ⟨?_, fun k => ?_⟩
            · intro t ht
              rw [mem_singleton.mp ht]
              refine ⟨?_, ?_, htask.nodup⟩
              · intro q hq
                rw [hnil] at hq
                rw [mem_singleton.mp hq]
                exact hasc
              · intro q hq
                rw [hnil] at hq
                rw [mem_singleton.mp hq]
                exact hne'
            · have hcount := hkeeps.count k
              have hpage' := readCount_page hremain k
              have hzero : batchCount task.batchTaskList k = 0 := by rw [hnil]; rfl
              rw [hsent, readCount_cons, pendingCount_singleton, pendingCount_singleton]
              dsimp only at hcount ⊢
              omega

end Once

/-! ## Runs -/

/-- Where every response is complete, the keys of the request and no others are at every moment each in exactly one
result or pending piece; so they have been read once when nothing is pending. -/
theorem Run.each_key_once {ranges : KeyRanges K} (hreq : req.storeType ≠ .tiDB) (hl : Ascending ranges.toList)
    {work : Work K}
    (hrun : Run req ranges (fun task cv resp => Answers req task cv resp ∧ Answers.Complete req task cv resp) work) :
    (∀ k, readCount work.sent k + pendingCount work.pending k = if Has ranges.toList k then 1 else 0) ∧
      (work.pending = [] → ∀ k, readCount work.sent k = if Has ranges.toList k then 1 else 0) := by
  have hinv : (∀ t ∈ work.pending, TaskOk t) ∧
      ∀ k, readCount work.sent k + pendingCount work.pending k = one ranges.toList k := by
    induction hrun with
    | build hcache hok =>
      obtain ⟨htasks, hcount⟩ := (buildCopTasks_carved hcache hreq hl hok).tasks
      exact ⟨htasks, fun k => (Nat.zero_add _).trans (hcount k)⟩
    | @handle env front back task sent cacheValue resp handled _ hcache hanswer hok ih =>
      obtain ⟨htasks, hcount⟩ := ih
      have hkeeps := handleTaskOnce_keeps hcache hreq
        (htasks task (mem_append_right _ mem_cons_self)) hanswer.1 hanswer.2 hok
      constructor
      · intro t ht
        rcases mem_append.mp ht with ht | ht
        · rcases mem_append.mp ht with ht | ht
          · exact htasks t (mem_append_left _ ht)
          · exact hkeeps.taskOk t ht
        · exact htasks t (mem_append_right _ (mem_cons_of_mem _ ht))
      · intro k
        have hk := hkeeps.count k
        have htotal := hcount k
        dsimp only at htotal ⊢
        rw [pendingCount_append, pendingCount_cons] at htotal
        rw [readCount_append, pendingCount_append, pendingCount_append]
        omega
  refine ⟨hinv.2, ?_⟩
  intro hnil k
  have hk := hinv.2 k
  rwa [hnil] at hk

/-! ## A batched task without an answer -/

section Example

open ByteOrder

def batchRequest : Request := { scanRequest with storeBatchSize := 1 }

def hostOnly : Response Bytes :=
  { regionError := none, locked := false, otherError := "", range := none, isCacheHit := false,
    batchResponses := [] }

def hostAndBatched : Response Bytes :=
  { hostOnly with batchResponses := [{ taskID := 1, regionError := none, locked := false, otherError := "" }] }

def twoRegionsEnv : Env Bytes :=
  { cache := fun _ => twoRegions, servers := .ok [], rounds := 2, rpcCtx := true, backoff := fun _ => .ok (),
    resolveLocks := fun _ => .ok () }

def firstRange : KeyRanges Bytes := ⟨none, [], some ⟨[97], [109]⟩⟩

def secondRange : KeyRanges Bytes := ⟨some ⟨[109], [122]⟩, [], none⟩

def batchedTask : BatchedCopTask Bytes :=
  { task := { taskID := 1, region := ⟨2, 1, 1⟩, bucketsVer := 0, ranges := secondRange, storeType := .tiKV,
              storeAddr := "", paging := false, pagingSize := 0 }
    storeID := 1 }

def hostTask : CopTask Bytes :=
  { taskID := 0, region := ⟨1, 1, 1⟩, bucketsVer := 0, ranges := firstRange, storeType := .tiKV,
    storeAddr := "", paging := false, pagingSize := 0, batchTaskList := [batchedTask] }

theorem buildCopTasks_batched :
    buildCopTasks twoRegions (.ok []) 2 (newKeyRanges [⟨[97], [122]⟩]) batchRequest = .ok [hostTask] := rfl

/-- The response to a task without one for its batch ends the request, and the key "n" has not been read. -/
theorem unanswered_batched_task_lost :
    Run batchRequest (newKeyRanges [⟨[97], [122]⟩]) (Answers batchRequest) ⟨[], [⟨firstRange, none⟩]⟩ ∧
    Has (newKeyRanges [(⟨[97], [122]⟩ : KeyRange Bytes)]).toList [110] ∧
    readCount [⟨firstRange, none⟩] ([110] : Bytes) = 0 := by
  refine ⟨?_, by decide, by decide⟩
  have hbuild : Run batchRequest (newKeyRanges [⟨[97], [122]⟩]) (Answers batchRequest)
      ⟨[hostTask], []⟩ := Run.build twoRegions_layout.toSound buildCopTasks_batched
  exact @Run.handle _ _ _ _ _ _ twoRegionsEnv [] [] hostTask [] none hostOnly ⟨[], [⟨firstRange, none⟩]⟩ hbuild
    (fun _ => twoRegions_layout.toSound) ⟨by decide, by simp [hostOnly], by simp [pageOf, hostOnly]⟩ rfl

theorem each_key_once_when_answered :
    let reads := [⟨firstRange, none⟩, ⟨secondRange, none⟩]
    (∀ k, readCount reads k + pendingCount [] k = if Has [(⟨[97], [122]⟩ : KeyRange Bytes)] k then 1 else 0) ∧
      readCount reads ([110] : Bytes) = 1 := by
  have hl : Ascending (newKeyRanges [(⟨[97], [122]⟩ : KeyRange Bytes)]).toList :=
    ascending_cons.mpr ⟨.inl (by decide), Ascending.nil, fun b hb => by cases hb⟩
  have hbuild : Run batchRequest (newKeyRanges [⟨[97], [122]⟩])
      (fun task cv resp => Answers batchRequest task cv resp ∧ Answers.Complete batchRequest task cv resp)
      ⟨[hostTask], []⟩ := Run.build twoRegions_layout.toSound buildCopTasks_batched
  have hrun := @Run.handle _ _ _ _ _ _ twoRegionsEnv [] [] hostTask [] none hostAndBatched
    ⟨[], [⟨firstRange, none⟩, ⟨secondRange, none⟩]⟩ hbuild (fun _ => twoRegions_layout.toSound)
    ⟨⟨by decide, by simp [hostAndBatched, hostTask, batchedTask], by simp [pageOf, hostAndBatched, hostOnly]⟩,
      ⟨by simp [hostAndBatched, hostTask, batchedTask], by simp [pageOf, hostAndBatched, hostOnly]⟩⟩ rfl
  have honce := Run.each_key_once (by decide) hl hrun
  exact ⟨honce.1, (honce.2 rfl [110]).trans (by decide)⟩

end Example

end Copr
