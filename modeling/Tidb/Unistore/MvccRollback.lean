import Tidb.Unistore.MvccStep

/-!
# Rollback records

A rollback of a transaction is recorded on a key.  `no_lock_after_rollback`: no prewrite places a lock over the
record as long as the requests of the transaction are of the kinds that look for it.  `run_settled`: no key has
both a commit and a rollback of one transaction as long as the requests are timely.
-/

namespace Unistore

open GoLang Tidb

variable {encodeFromOldRow : Bytes → Except Err Bytes} {s : Store} {r : Request} {batch : List Entry} {reply : Reply}
  {ts : ℕ} {key : Bytes}

/-! ## No lock over a rollback record -/

namespace Store

structure Over (s : Store) (ts : ℕ) (key : Bytes) : Prop where
  status : (s.status key ts).isSome
  unlocked : ¬ s.Owns ts key

theorem Owns.of_write (h : (s.write batch).Owns ts key) :
    (∃ l, Entry.lock key l ∈ batch ∧ l.startTS = ts) ∨ s.Owns ts key ∧ Entry.unlock key ∉ batch := by
  obtain ⟨l, hl, hts⟩ := h
  rcases getLock_write hl with hmem | ⟨hold, hun, -⟩
  · exact .inl ⟨l, hmem, hts⟩
  · exact .inr ⟨⟨l, hold, hts⟩, hun⟩

end Store

/-- A request that is to lock the key for the transaction looks for a rollback of it: an optimistic prewrite and a
pessimistic lock do on the primary, a pessimistic prewrite needs the pessimistic lock. -/
def Looks (ts : ℕ) (key : Bytes) : Request → Prop
  | .prewrite req _ => req.startVersion = ts → ∀ m ∈ req.mutations, m.op ≠ .checkNotExists → m.key = key →
      if req.forUpdateTs = 0 then key = req.primaryLock else m.action = .doPessimisticCheck
  | .pessimisticLock req => req.startVersion = ts → ∀ m ∈ req.mutations, m.key = key → key = req.primaryLock
  | _ => True

/-- Whoever records a status of the transaction on a key leaves the key without a lock of it. -/
theorem Does.over_of_status {c : ℕ} (h : Does s r batch) (hmem : Entry.status key ts c ∈ batch) :
    (s.write batch).Over ts key := by
  refine ⟨Store.status_write_isSome (.inr ⟨c, hmem⟩), fun hown => ?_⟩
  cases h with
  | nothing r => cases hmem
  | prewrite hpass hls => exact status_notMem_lockAll hmem
  | pessimisticLock hpass hls => exact status_notMem_lockAll hmem
  | relock hget hts hts' hop => exact status_notMem_lockAll hmem
  | rollback hks =>
    obtain ⟨rfl, -, d, hd⟩ := status_mem_rollbackAll.mp hmem
    rcases hown.of_write with ⟨l', hl', -⟩ | ⟨hown, hun⟩
    · exact lock_notMem_rollbackAll hl'
    · rcases hks _ hd with ⟨hd', -⟩ | ⟨-, hold, -⟩ | ⟨-, hnot, -⟩
      · rw [show d = true from hd'] at hd
        exact hun (unlock_mem_rollbackAll.mpr hd)
      · exact hold.not_owns hown
      · exact hnot hown
  | unlock hkeys => exact status_notMem_unlockAll hmem
  | _ =>
    obtain ⟨-, -, l, hl, -⟩ := status_mem_commitAll hmem
    rcases hown.of_write with ⟨l', hl', -⟩ | ⟨-, hun⟩
    · exact lock_notMem_commitAll hl'
    · exact hun (unlock_mem_commitAll.mpr ⟨l, hl⟩)

theorem Does.lock_startTS (h : Does s r batch) {l : Lock} (hmem : Entry.lock key l ∈ batch) :
    l.startTS = r.startTS := by
  cases h with
  | nothing r => cases hmem
  | prewrite hpass hls => exact (hls _ (lock_mem_lockAll.mp hmem)).1
  | pessimisticLock hpass hls => exact (hls _ (lock_mem_lockAll.mp hmem)).1
  | relock hget hts hts' hop =>
    rw [(Prod.mk.inj (List.mem_singleton.mp (lock_mem_lockAll.mp hmem))).2]
    exact hts'.trans hts
  | rollback hks => exact absurd hmem lock_notMem_rollbackAll
  | unlock hkeys => exact absurd hmem lock_notMem_unlockAll
  | _ => exact absurd hmem lock_notMem_commitAll

theorem Does.not_lock (h : Does s r batch) (hover : s.Over ts key) (hlook : Looks ts key r) {l : Lock}
    (hmem : Entry.lock key l ∈ batch) : l.startTS ≠ ts := by
  intro hl
  have hsome := Option.isSome_iff_ne_none.mp hover.status
  cases h with
  | nothing r => cases hmem
  | @prewrite req pd ls hpass hls =>
    obtain ⟨hstart, m, hm, hop, hkey, -⟩ := hls _ (lock_mem_lockAll.mp hmem)
    have hts := hstart.symm.trans hl
    have hkey : key = m.key := hkey
    have hcase := hlook hts m hm hop hkey.symm
    have hpass := hpass m hm
    unfold Passes at hpass
    by_cases hopt : req.forUpdateTs = 0
    · rw [if_pos hopt] at hcase hpass
      rw [hkey, ← hts] at hsome
      exact hsome (hpass.2.1 (hkey ▸ hcase))
    · rw [if_neg hopt] at hcase hpass
      rw [hcase] at hpass
      obtain ⟨l', hl', hts', -⟩ := hpass
      exact hover.unlocked ⟨l', hkey ▸ hl', hts'.trans hts⟩
  | @pessimisticLock req ls hpass hls =>
    obtain ⟨hstart, -, m, hm, hkey⟩ := hls _ (lock_mem_lockAll.mp hmem)
    have hts := hstart.symm.trans hl
    have hkey : key = m.key := hkey
    have hprim := hlook hts m hm hkey.symm
    rw [hkey, ← hts] at hsome
    exact hsome ((hpass m hm).2 (hkey ▸ hprim))
  | @relock r k l₀ l' hget hts hts' hop =>
    have heq := List.mem_singleton.mp (lock_mem_lockAll.mp hmem)
    obtain ⟨rfl, rfl⟩ := Prod.mk.inj heq
    exact hover.unlocked ⟨l₀, hget, hts'.symm.trans hl⟩
  | rollback hks => exact lock_notMem_rollbackAll hmem
  | unlock hkeys => exact lock_notMem_unlockAll hmem
  | _ => exact lock_notMem_commitAll hmem

theorem exec_over (hover : s.Over ts key) (hlook : Looks ts key r) : (exec encodeFromOldRow s r).Over ts key := by
  obtain ⟨batch, heq, hdoes⟩ := exec_does encodeFromOldRow s r
  rw [heq]
  refine ⟨Store.status_write_isSome (.inl hover.status), fun hown => ?_⟩
  rcases hown.of_write with ⟨l, hl, hts⟩ | ⟨hown, -⟩
  · exact hdoes.not_lock hover hlook hl hts
  · exact hover.unlocked hown

theorem run_over {rs : List Request} (hover : s.Over ts key) (hlook : ∀ r ∈ rs, Looks ts key r) :
    (run encodeFromOldRow s rs).Over ts key := by
  induction rs generalizing s with
  | nil => exact hover
  | cons r rs ih =>
    obtain ⟨hr, hrs⟩ := List.forall_mem_cons.mp hlook
    exact ih (exec_over hover hr) hrs

/-- Once a rollback is recorded on a key, no prewrite of the transaction locks it, as long as its requests on this key
look for the rollback. -/
theorem no_lock_after_rollback (h : handle encodeFromOldRow s r = .ok (batch, reply))
    (hrecord : Entry.status key ts 0 ∈ batch) (later : List Request) (hlater : ∀ r' ∈ later, Looks ts key r')
    (req : PrewriteRequest) (pd : Except KvError ℕ) (hts : req.startVersion = ts)
    (hlook : Looks ts key (.prewrite req pd)) :
    ∀ batch' reply', handle encodeFromOldRow (run encodeFromOldRow (exec encodeFromOldRow s r) later)
        (.prewrite req pd) = .ok (batch', reply') → ∀ l, Entry.lock key l ∉ batch' := by
  intro batch' reply' h' l hmem
  have hover : (exec encodeFromOldRow s r).Over ts key := by
    rw [exec_of_ok h]
    exact (handle_does h).over_of_status hrecord
  have hdoes := handle_does h'
  have hstart := hdoes.lock_startTS hmem
  exact hdoes.not_lock (run_over hover hlater) hlook hmem (hstart.trans hts)

/-- A status check records a rollback on the unlocked secondary "tb" of transaction 10. The prewrite that arrives later
locks it, and the primary "ta". -/
theorem prewrite_locks_rolledBack_secondary :
    let check := Request.checkSecondaryLocks [[116, 98]] 10
    let prewrite := Request.prewrite (prewriteOf 10 [116, 97] [putOf [116, 97] [1], putOf [116, 98] [2]]) (.ok 0)
    let s := exec newRows .empty check
    handle newRows .empty check = .ok ([.status [116, 98] 10 0], .secondaryLocks ⟨[], 0⟩) ∧
      (exec newRows s prewrite).Owns 10 [116, 97] ∧ (exec newRows s prewrite).Owns 10 [116, 98] :=
  ⟨by decide, ⟨_, rfl, rfl⟩, ⟨_, rfl, rfl⟩⟩

theorem no_lock_after_rollback_of_primary :
    let check := Request.checkSecondaryLocks [[116, 98]] 10
    ∀ batch reply, handle newRows (run newRows (exec newRows .empty check) [check])
        (.prewrite (prewriteOf 10 [116, 98] [putOf [116, 98] [2]]) (.ok 0)) = .ok (batch, reply) →
      ∀ l, Entry.lock [116, 98] l ∉ batch := by
  intro check
  have hcheck : handle newRows .empty check = .ok ([.status [116, 98] 10 0], .secondaryLocks ⟨[], 0⟩) := by decide
  refine no_lock_after_rollback hcheck (List.mem_singleton_self _) [check] ?_ _ _ rfl ?_
  · intro r hr
    rw [List.mem_singleton.mp hr]
    trivial
  · exact fun _ m _ _ _ => rfl

/-! ## A commit or a rollback, not both -/

namespace Store

def Committed (s : Store) (ts : ℕ) (key : Bytes) : Prop :=
  s.Wrote ts key ∨ ∃ c, 0 < c ∧ s.status key ts = some c

structure Settled (s : Store) : Prop where
  ordered : ∀ key c v, (s.versions key).find c = some v → v.startTS < c
  unlocked : ∀ key ts, s.Owns ts key → ¬ s.Wrote ts key ∧ s.status key ts = none
  apart : ∀ key ts, s.Wrote ts key → s.status key ts ≠ some 0

theorem settled_empty : Store.empty.Settled where
  ordered key c v h := by cases h
  unlocked key ts h := by
    obtain ⟨l, hl, -⟩ := h
    cases hl
  apart key ts h := by
    obtain ⟨c, v, -, hv, -⟩ := h
    cases hv

theorem Wrote.of_write (h : (s.write batch).Wrote ts key) :
    (∃ c v, Entry.version key c v ∈ batch ∧ v.startTS = ts) ∨ s.Wrote ts key := by
  obtain ⟨c, v, hpos, hv, hts⟩ := h
  rcases find_version_write hv with hmem | ⟨hold, -⟩
  · exact .inl ⟨c, v, hmem, hts⟩
  · exact .inr ⟨c, v, hpos, hold, hts⟩

theorem Settled.not_wrote (h : s.Settled) (hfresh : s.Fresh ts key) : ¬ s.Wrote ts key := by
  rintro ⟨c, v, -, hv, hts⟩
  have hle := hfresh c v hv
  have hlt := h.ordered key c v hv
  omega

theorem Settled.write (h : s.Settled)
    (hversion : ∀ key c v, Entry.version key c v ∈ batch → v.startTS < c ∧ s.status key v.startTS = none)
    (hopen : ∀ key ts, (s.write batch).Owns ts key → (¬ s.Wrote ts key ∧ s.status key ts = none) ∧
      (∀ c v, Entry.version key c v ∉ batch) ∧ ∀ c, Entry.status key ts c ∉ batch)
    (happart : ∀ key ts, Entry.status key ts 0 ∈ batch → ¬ (s.write batch).Wrote ts key) :
    (s.write batch).Settled := by
  refine ⟨fun key c v hv => ?_, fun key ts hown => ?_, fun key ts hw hzero => ?_⟩
  · rcases find_version_write hv with hmem | ⟨hold, -⟩
    · exact (hversion key c v hmem).1
    · exact h.ordered key c v hold
  · obtain ⟨⟨hnot, hnone⟩, hv, hst⟩ := hopen key ts hown
    refine ⟨fun hw => ?_, Option.eq_none_iff_forall_ne_some.mpr fun c hc => ?_⟩
    · rcases hw.of_write with ⟨c, v, hmem, -⟩ | hw
      · exact hv c v hmem
      · exact hnot hw
    · rcases status_write hc with hmem | ⟨hold, -⟩
      · exact hst c hmem
      · rw [hnone] at hold
        cases hold
  · rcases status_write hzero with hmem | ⟨hold, -⟩
    · exact happart key ts hmem hw
    rcases hw.of_write with ⟨c, v, hmem, rfl⟩ | hw
    · rw [(hversion key c v hmem).2] at hold
      cases hold
    · exact h.apart key ts hw hold

theorem Settled.write_locks (h : s.Settled) (hversion : ∀ key c v, Entry.version key c v ∉ batch)
    (hstatus : ∀ key ts c, Entry.status key ts c ∉ batch)
    (hlock : ∀ key l, Entry.lock key l ∈ batch → ¬ s.Wrote l.startTS key ∧ s.status key l.startTS = none) :
    (s.write batch).Settled := by
  refine h.write (fun key c v hv => absurd hv (hversion key c v))
    (fun key ts hown => ⟨?_, hversion key, hstatus key ts⟩)
    fun key ts hs => absurd hs (hstatus key ts 0)
  rcases hown.of_write with ⟨l, hl, rfl⟩ | ⟨hown, -⟩
  · exact hlock key l hl
  · exact h.unlocked key ts hown

theorem Settled.commitAll {ls : List (Bytes × Lock)} {startTS commitTS : ℕ} (h : s.Settled)
    (hlt : startTS < commitTS) (hls : ∀ p ∈ ls, ¬ s.Wrote startTS p.1 ∧ s.status p.1 startTS = none) :
    (s.write (commitAll startTS commitTS ls)).Settled := by
  refine h.write (fun key c v hv => ?_) (fun key ts hown => ?_) fun key ts hs => ?_
  · obtain ⟨rfl, l, hl, rfl, -⟩ := version_mem_commitAll hv
    exact ⟨hlt, (hls _ hl).2⟩
  · rcases hown.of_write with ⟨l, hl, -⟩ | ⟨hown, hun⟩
    · exact absurd hl lock_notMem_commitAll
    -- the key is not in the batch
    have hkey : ∀ l, (key, l) ∉ ls := fun l hl => hun (unlock_mem_commitAll.mpr ⟨l, hl⟩)
    refine ⟨h.unlocked key ts hown, fun c v hv => ?_, fun c hc => ?_⟩
    · obtain ⟨-, l, hl, -⟩ := version_mem_commitAll hv
      exact hkey l hl
    · obtain ⟨-, -, l, hl, -⟩ := status_mem_commitAll hc
      exact hkey l hl
  · obtain ⟨-, hc, -⟩ := status_mem_commitAll hs
    omega

theorem Settled.rollbackAll {ks : List (Bytes × Bool)} {startTS : ℕ} (h : s.Settled)
    (hks : ∀ p ∈ ks, ¬ s.Wrote startTS p.1 ∧ (p.2 = false → ¬ s.Owns startTS p.1)) :
    (s.write (rollbackAll startTS ks)).Settled := by
  refine h.write (fun key c v hv => absurd hv version_notMem_rollbackAll) (fun key ts hown => ?_) fun key ts hs hw => ?_
  · rcases hown.of_write with ⟨l, hl, -⟩ | ⟨howned, hun⟩
    · exact absurd hl lock_notMem_rollbackAll
    refine ⟨h.unlocked key ts howned, fun c v => version_notMem_rollbackAll, fun c hc => ?_⟩
    obtain ⟨rfl, -, d, hd⟩ := status_mem_rollbackAll.mp hc
    cases d with
    | true => exact hun (unlock_mem_rollbackAll.mpr hd)
    | false => exact (hks _ hd).2 rfl howned
  · obtain ⟨rfl, -, d, hd⟩ := status_mem_rollbackAll.mp hs
    rcases hw.of_write with ⟨c, v, hmem, -⟩ | hw
    · exact version_notMem_rollbackAll hmem
    · exact (hks _ hd).1 hw

end Store

/-- A lock is asked for where the transaction is not over on the key, or the request looks for that; a rollback finds an
older lock only before the commit; and commit timestamps are above start timestamps. -/
def Timely (s : Store) : Request → Prop
  | .prewrite req pd =>
    (∀ m ∈ req.mutations, m.op ≠ .checkNotExists →
      if req.forUpdateTs = 0 then m.key = req.primaryLock ∨ s.status m.key req.startVersion = none
      else m.action = .doPessimisticCheck ∨ s.status m.key req.startVersion = none ∧
        (m.action = .doConstraintCheck ∨ ¬ s.Wrote req.startVersion m.key)) ∧
    ∀ c, req.tryOnePc = true → pd = .ok c → req.startVersion < c
  | .pessimisticLock req => ∀ m ∈ req.mutations,
    (m.key = req.primaryLock ∨ s.status m.key req.startVersion = none) ∧ ¬ s.Wrote req.startVersion m.key
  | r => (∀ c, r.commitTS = some c → r.startTS < c) ∧ ∀ k ∈ r.rollsBack, s.Older r.startTS k → ¬ s.Wrote r.startTS k

theorem Passes.open {req : PrewriteRequest} {pd : Except KvError ℕ} {m : Mutation} (hs : s.Settled)
    (htime : Timely s (.prewrite req pd)) (hm : m ∈ req.mutations) (hop : m.op ≠ .checkNotExists)
    (hpass : Passes s req m) : ¬ s.Wrote req.startVersion m.key ∧ s.status m.key req.startVersion = none := by
  have hcase := htime.1 m hm hop
  unfold Passes at hpass
  by_cases hopt : req.forUpdateTs = 0
  · rw [if_pos hopt] at hcase hpass
    refine ⟨hs.not_wrote hpass.2.2, ?_⟩
    rcases hcase with hprim | hnone
    · exact hpass.2.1 hprim
    · exact hnone
  · rw [if_neg hopt] at hcase hpass
    rcases hcase with hact | ⟨hnone, hact | hnot⟩
    · rw [hact] at hpass
      obtain ⟨l, hl, hts, -⟩ := hpass
      exact hs.unlocked m.key req.startVersion ⟨l, hl, hts⟩
    · rw [hact] at hpass
      exact ⟨hs.not_wrote hpass, hnone⟩
    · exact ⟨hnot, hnone⟩

/-- What the conditions say of a request that is neither a prewrite nor a pessimistic lock. -/
theorem Timely.commit_lt (h : Timely s r) {c : ℕ} (hc : r.commitTS = some c) : r.startTS < c := by
  cases r with
  | prewrite req pd => cases hc
  | pessimisticLock req => cases hc
  | _ => exact h.1 c hc

theorem Timely.not_wrote (h : Timely s r) (hk : key ∈ r.rollsBack) (hold : s.Older r.startTS key) :
    ¬ s.Wrote r.startTS key := by
  cases r with
  | prewrite req pd => cases hk
  | pessimisticLock req => cases hk
  | _ => exact h.2 key hk hold

theorem Does.settled (h : Does s r batch) (hs : s.Settled) (htime : Timely s r) : (s.write batch).Settled := by
  cases h with
  | nothing r => exact hs
  | prewrite hpass hls =>
    apply hs.write_locks (fun _ _ _ => version_notMem_lockAll) (fun _ _ _ => status_notMem_lockAll)
    intro key l hl
    obtain ⟨hts, m, hm, hop, hkey, -⟩ := hls _ (lock_mem_lockAll.mp hl)
    rw [show l.startTS = _ from hts, show key = m.key from hkey]
    exact (hpass m hm).open hs htime hm hop
  | onePC hpass hc hls honce =>
    apply hs.commitAll (htime.2 _ honce rfl)
    intro p hp
    obtain ⟨-, m, hm, hop, hkey, -⟩ := hls p hp
    rw [hkey]
    exact (hpass m hm).open hs htime hm hop
  | pessimisticLock hpass hls =>
    apply hs.write_locks (fun _ _ _ => version_notMem_lockAll) (fun _ _ _ => status_notMem_lockAll)
    intro key l hl
    obtain ⟨hts, -, m, hm, hkey⟩ := hls _ (lock_mem_lockAll.mp hl)
    rw [show l.startTS = _ from hts, show key = m.key from hkey]
    obtain ⟨hprim | hnone, hnot⟩ := htime m hm
    · exact ⟨hnot, (hpass m hm).2 hprim⟩
    · exact ⟨hnot, hnone⟩
  | @relock r k l₀ l' hget hts hts' hop =>
    apply hs.write_locks (fun _ _ _ => version_notMem_lockAll) (fun _ _ _ => status_notMem_lockAll)
    intro key l hl
    obtain ⟨rfl, rfl⟩ := Prod.mk.inj (List.mem_singleton.mp (lock_mem_lockAll.mp hl))
    rw [hts']
    exact hs.unlocked key l₀.startTS ⟨l₀, hget, rfl⟩
  | commit hc hls =>
    apply hs.commitAll (htime.commit_lt hc)
    intro p hp
    exact hs.unlocked p.1 r.startTS ⟨p.2, hls p hp⟩
  | rollback hks =>
    apply hs.rollbackAll
    intro p hp
    rcases hks p hp with ⟨hd, hown⟩ | ⟨-, hold, hk⟩ | ⟨-, hnot, hw⟩
    · exact ⟨(hs.unlocked p.1 r.startTS hown).1, fun hfalse => by rw [hd] at hfalse; cases hfalse⟩
    · exact ⟨htime.not_wrote hk hold, fun _ => hold.not_owns⟩
    · exact ⟨hw, fun _ => hnot⟩
  | unlock hkeys =>
    apply hs.write_locks (fun _ _ _ => version_notMem_unlockAll) (fun _ _ _ => status_notMem_unlockAll)
    intro key l hl
    exact absurd hl lock_notMem_unlockAll

def TimelyRun (encodeFromOldRow : Bytes → Except Err Bytes) : Store → List Request → Prop
  | _, [] => True
  | s, r :: rs => Timely s r ∧ TimelyRun encodeFromOldRow (exec encodeFromOldRow s r) rs

theorem run_settled {rs : List Request} (hs : s.Settled) (h : TimelyRun encodeFromOldRow s rs) :
    (run encodeFromOldRow s rs).Settled := by
  induction rs generalizing s with
  | nil => exact hs
  | cons r rs ih =>
    obtain ⟨batch, heq, hdoes⟩ := exec_does encodeFromOldRow s r
    refine ih ?_ h.2
    rw [heq]
    exact hdoes.settled hs h.1

structure RollbackFails (encodeFromOldRow : Bytes → Except Err Bytes) (s : Store) (keys : List Bytes) (ts : ℕ) :
    Prop where
  error : ∃ c, handle encodeFromOldRow s (.rollback keys ts) = .error (.alreadyCommitted c)
  unchanged : exec encodeFromOldRow s (.rollback keys ts) = s

theorem rollbackFails_iff (hs : s.Settled) (keys : List Bytes) (ts : ℕ) :
    RollbackFails encodeFromOldRow s keys ts ↔ ∃ key ∈ keys, s.Wrote ts key ∧ ¬ s.Older ts key := by
  constructor
  · rintro ⟨⟨c, herr⟩, -⟩
    rcases rollback_spec s keys ts with ⟨ks, hok, -⟩ | ⟨-, k, hk, hbehind, hw⟩
    · rw [handle, hok] at herr
      cases herr
    · exact ⟨k, hk, hw, fun hold => hold.not_behind hbehind⟩
  · rintro ⟨k, hk, hw, hnot⟩
    have hbehind : s.Behind ts k := by
      intro l hl
      by_contra hle
      rcases Nat.lt_or_eq_of_le (not_lt.mp hle) with hlt | heq
      · exact hnot ⟨l, hl, hlt⟩
      · exact (hs.unlocked k ts ⟨l, hl, heq⟩).1 hw
    rcases rollback_spec s keys ts with ⟨ks, -, -, hall⟩ | ⟨⟨c, herr⟩, -⟩
    · exact absurd hw (hall k hk hbehind)
    · exact ⟨⟨c, herr⟩, by rw [exec, handle, herr]⟩

/-- In a run of timely requests no key has a commit and a rollback of one transaction, and a rollback fails and changes
nothing exactly if a key of it has a version of the transaction and no older lock. -/
theorem run_commit_or_rollback (rs : List Request) (h : TimelyRun encodeFromOldRow .empty rs) :
    let s := run encodeFromOldRow .empty rs
    (∀ key ts, ¬ (s.Committed ts key ∧ s.status key ts = some 0)) ∧
      ∀ keys ts, RollbackFails encodeFromOldRow s keys ts ↔ ∃ key ∈ keys, s.Wrote ts key ∧ ¬ s.Older ts key := by
  intro s
  have hs : s.Settled := run_settled Store.settled_empty h
  refine ⟨fun key ts hboth => ?_, rollbackFails_iff hs⟩
  obtain ⟨hw | ⟨c, hpos, hc⟩, hzero⟩ := hboth
  · exact hs.apart key ts hw hzero
  · rw [hzero] at hc
    cases hc
    exact lt_irrefl 0 hpos

def pessimisticLockOf (startTS forUpdateTs : ℕ) (primaryLock : Bytes) (mutations : List Mutation) : Request :=
  .pessimisticLock ⟨mutations, primaryLock, startTS, 3000, forUpdateTs, false, false, false⟩

/-- Transaction 10 has put "ta" at 20, and the older transaction 5 locks it for an update at 25: a rollback of 10 finds
the older lock and succeeds. Where 10 has only locked "ta", it replaces the record of the commit. -/
theorem rollback_over_commit :
    let ta : Bytes := [116, 97]
    let written := run newRows .empty [.prewrite (prewriteOf 10 ta [putOf ta [1]]) (.ok 0), .commit [ta] 10 20,
      pessimisticLockOf 5 25 ta [putOf ta []]]
    let locked := run newRows .empty
      [.prewrite (prewriteOf 10 ta [⟨.lock, ta, [], .none, .skipPessimisticCheck⟩]) (.ok 0), .commit [ta] 10 20]
    (handle newRows written (.rollback [ta] 10) = .ok ([.status ta 10 0], .done) ∧
      (exec newRows written (.rollback [ta] 10)).Wrote 10 ta ∧
      (exec newRows written (.rollback [ta] 10)).status ta 10 = some 0) ∧
    locked.status ta 10 = some 20 ∧ handle newRows locked (.rollback [ta] 10) = .ok ([.status ta 10 0], .done) ∧
      (exec newRows locked (.rollback [ta] 10)).status ta 10 = some 0 := by
  refine ⟨⟨by decide, ⟨20, ⟨10, [1]⟩, by decide, by decide, rfl⟩, by decide⟩, by decide, by decide, by decide⟩

theorem rollback_fails_after_commit :
    let ta : Bytes := [116, 97]
    let rs : List Request := [.prewrite (prewriteOf 10 ta [putOf ta [1]]) (.ok 0), .commit [ta] 10 20]
    RollbackFails newRows (run newRows .empty rs) [ta] 10 := by
  intro ta rs
  have htime : TimelyRun newRows .empty rs := by
    refine ⟨⟨fun m _ _ => .inr rfl, fun c hc => by cases hc⟩, ⟨fun c hc => ?_, fun k hk => by cases hk⟩, trivial⟩
    cases hc
    decide
  have hw : (run newRows .empty rs).Wrote 10 ta := ⟨20, ⟨10, [1]⟩, by decide, by decide, rfl⟩
  refine ((run_commit_or_rollback rs htime).2 [ta] 10).mpr ⟨ta, List.mem_singleton_self ta, hw, ?_⟩
  rintro ⟨l, hl, -⟩
  have hnone : (run newRows .empty rs).getLock ta = none := by decide
  cases hl

end Unistore
