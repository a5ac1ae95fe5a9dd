import Tidb.Lib.Reservation

/-!
# Calls that interleave at transactions

Several nodes share one cell.  A call works on the node's own data and takes atomic transactions on the cell, which
come in any order and may be lost.  A node runs one call at a time.

`Keeps` says that a call keeps to its own range of numbers, whatever the other nodes do in between.  It is checked for
one call at a time, and `Reachable.safe` makes of it a property of every run.
-/

namespace Interleaving

open Reservation Function

/-- A call: it returns, or it takes a transaction and goes on with its result. -/
inductive Prog (σ ε β α : Type) where
  | ret (a : α)
  | txn (body : σ → Except ε (σ × β)) (next : Except ε β → Prog σ ε β α)

variable {ι σ ε β α γ κ ρ : Type}

def Prog.bind : Prog σ ε β α → (α → Prog σ ε β γ) → Prog σ ε β γ
  | .ret a, k => k a
  | .txn body next, k => .txn body fun r => (next r).bind k

instance : Monad (Prog σ ε β) where
  pure := .ret
  bind := Prog.bind

/-! ## Runs -/

inductive Local (σ ε β α κ ρ : Type) where
  | idle (a : α)
  | running (call : κ) (p : Prog σ ε β (α × ρ))

/-- A call that has returned: its result, and what the node and the cell held then. -/
structure Entry (ι σ α κ ρ : Type) where
  node : ι
  call : κ
  result : ρ
  after : α
  cell : σ

structure Sys (ι σ ε β α κ ρ : Type) where
  cell : σ
  node : ι → Local σ ε β α κ ρ
  /-- The newest first. -/
  log : List (Entry ι σ α κ ρ)

section Runs

variable [DecidableEq ι] (code : κ → α → Prog σ ε β (α × ρ)) (allowed : σ → α → κ → Prop) (lost : ε)

def Sys.set (s : Sys ι σ ε β α κ ρ) (i : ι) (l : Local σ ε β α κ ρ) : Sys ι σ ε β α κ ρ :=
  { s with node := update s.node i l }

inductive Step : Sys ι σ ε β α κ ρ → Sys ι σ ε β α κ ρ → Prop
  | call {s} {i : ι} {a : α} (k : κ) : s.node i = .idle a → allowed s.cell a k →
      Step s (s.set i (.running k (code k a)))
  | commit {s} {i : ι} {k : κ} {body next c b} : s.node i = .running k (.txn body next) → body s.cell = .ok (c, b) →
      Step s { s.set i (.running k (next (.ok b))) with cell := c }
  | abort {s} {i : ι} {k : κ} {body next e} : s.node i = .running k (.txn body next) →
      body s.cell = .error e → Step s (s.set i (.running k (next (.error e))))
  | lose {s} {i : ι} {k : κ} {body next} : s.node i = .running k (.txn body next) →
      Step s (s.set i (.running k (next (.error lost))))
  | return {s} {i : ι} {k : κ} {a : α} {r : ρ} : s.node i = .running k (.ret (a, r)) →
      Step s { s.set i (.idle a) with log := ⟨i, k, r, a, s.cell⟩ :: s.log }

inductive Reachable (start : Sys ι σ ε β α κ ρ → Prop) : Sys ι σ ε β α κ ρ → Prop
  | start {s} : start s → Reachable start s
  | step {s s'} : Reachable start s → Step code allowed lost s s' → Reachable start s'

end Runs

/-! ## Calls that run alone -/

section Alone

variable (lost : ε)

/-- A call that is not interleaved with others.  A transaction that is reported as lost may have been
committed all the same. -/
inductive Runs : Prog σ ε β α → σ → α → σ → Prop
  | ret {a s} : Runs (.ret a) s a s
  | commit {body next s s₁ b a s'} : body s = .ok (s₁, b) → Runs (next (.ok b)) s₁ a s' → Runs (.txn body next) s a s'
  | abort {body next s e a s'} : body s = .error e → Runs (next (.error e)) s a s' → Runs (.txn body next) s a s'
  | lose {body next s a s'} : Runs (next (.error lost)) s a s' → Runs (.txn body next) s a s'
  | unknown {body next s s₁ b a s'} : body s = .ok (s₁, b) → Runs (next (.error lost)) s₁ a s' →
      Runs (.txn body next) s a s'

def Always : Prog σ ε β α → σ → (α → σ → Prop) → Prop
  | .ret a, s, post => post a s
  | .txn body next, s, post => Always (next (.error lost)) s post ∧ (∀ e, body s = .error e → Always (next (.error e)) s
      post) ∧ ∀ s' b, body s = .ok (s', b) → Always (next (.ok b)) s' post ∧ Always (next (.error lost)) s' post

variable {lost}

theorem Always.runs {p : Prog σ ε β α} {s s' : σ} {a : α} {post : α → σ → Prop}
    (h : Always lost p s post) (hr : Runs lost p s a s') : post a s' := by
  induction hr with
  | ret => exact h
  | commit hbody _ ih => exact ih (h.2.2 _ _ hbody).1
  | abort hbody _ ih => exact ih (h.2.1 _ hbody)
  | lose _ ih => exact ih h.1
  | unknown hbody _ ih => exact ih (h.2.2 _ _ hbody).2

theorem Always.bind {p : Prog σ ε β α} {k : α → Prog σ ε β γ} {s : σ} {mid : α → σ → Prop}
    {post : γ → σ → Prop} (h : Always lost p s mid)
    (hk : ∀ a s', mid a s' → Always lost (k a) s' post) : Always lost (p >>= k) s post := by
  induction p generalizing s with
  | ret a => exact hk a s h
  | txn body next ih =>
    obtain ⟨h1, h2, h3⟩ := h
    exact ⟨ih _ h1, fun e he => ih _ (h2 e he), fun s' b hb => ⟨ih _ (h3 s' b hb).1, ih _ (h3 s' b hb).2⟩⟩

end Alone

/-! ## Calls that keep to their range -/

section Keeps

variable (cellOk : σ → Prop) (value : σ → ℤ) (lost : ε)

/-- Whatever the cell has by then, but not less than `c`, each transaction of the call reserves a range above it, and
what the call leaves satisfies `post`. -/
def Keeps : Prog σ ε β α → Range → ℤ → (α → Range → ℤ → Prop) → Prop
  | .ret a, own, c, post => post a own c
  | .txn body next, own, c, post => ∀ s, cellOk s → c ≤ value s → Keeps (next (.error lost)) own (value s) post ∧ (∀ e,
      body s = .error e → Keeps (next (.error e)) own (value s) post) ∧ ∀ s' b, body s = .ok (s', b) → cellOk s' ∧ ∃
      base, value s ≤ base ∧ value s ≤ value s' ∧ Keeps (next (.ok b)) ⟨base, value s'⟩ (value s') post

variable {cellOk value lost}

theorem Keeps.bind {p : Prog σ ε β α} {k : α → Prog σ ε β γ} {own : Range} {c : ℤ}
    {mid : α → Range → ℤ → Prop} {post : γ → Range → ℤ → Prop} (h : Keeps cellOk value lost p own c mid)
    (hk : ∀ a r c', mid a r c' → Keeps cellOk value lost (k a) r c' post) :
    Keeps cellOk value lost (p >>= k) own c post := by
  induction p generalizing own c with
  | ret a => exact hk a own c h
  | txn body next ih =>
    intro s hs hc
    obtain ⟨h1, h2, h3⟩ := h s hs hc
    refine ⟨ih _ h1, fun e he => ih _ (h2 e he), fun s' b hb => ?_⟩
    obtain ⟨hs', base, hb1, hb2, hkeep⟩ := h3 s' b hb
    exact ⟨hs', base, hb1, hb2, ih _ hkeep⟩

end Keeps

/-! ## Runs of such calls -/

/-- How the data of a system are read as ranges: what a node's data stands for, what a result hands out, and what else
holds when a call returns. -/
structure Reading (σ α κ ρ : Type) where
  cellOk : σ → Prop
  value : σ → ℤ
  own : α → Range
  good : α → ℤ → Prop
  gave : κ → ρ → Option Range
  post : κ → ρ → α → ℤ → Prop

def Reading.Finishes (R : Reading σ α κ ρ) (k : κ) (x : α × ρ) (nd : Range) (c : ℤ) : Prop :=
  R.good x.1 c ∧ R.post k x.2 x.1 c ∧
    match R.gave k x.2 with
    | none => ∀ y, (R.own x.1).Has y → nd.Has y
    | some g => g.limit ≤ c ∧ (∀ y, g.Has y → nd.Has y) ∧ ∀ y, (R.own x.1).Has y → nd.Has y ∧ g.limit < y

structure Discipline (code : κ → α → Prog σ ε β (α × ρ)) (allowed : σ → α → κ → Prop)
    (lost : ε) extends Reading σ α κ ρ where
  good_mono : ∀ {a c c'}, c ≤ c' → good a c → good a c'
  post_mono : ∀ {k r a c c'}, c ≤ c' → post k r a c → post k r a c'
  keeps : ∀ k a s, cellOk s → allowed s a k → good a (value s) →
    Keeps cellOk value lost (code k a) (own a) (value s) (toReading.Finishes k)

namespace Discipline

variable {code : κ → α → Prog σ ε β (α × ρ)} {allowed : σ → α → κ → Prop} {lost : ε}
  (D : Discipline code allowed lost)

def Fits (c : ℤ) (nd : Range) : Local σ ε β α κ ρ → Prop
  | .idle a => D.good a c ∧ nd = D.own a
  | .running k p => ∃ c' ≤ c, Keeps D.cellOk D.value lost p nd c' (D.Finishes k)

theorem Fits.mono {c c' : ℤ} (hc : c ≤ c') {nd : Range} {l : Local σ ε β α κ ρ}
    (h : D.Fits c nd l) : D.Fits c' nd l := by
  cases l with
  | idle a => exact ⟨D.good_mono hc h.1, h.2⟩
  | running k p =>
    obtain ⟨c₀, hc₀, hk⟩ := h
    exact ⟨c₀, hc₀.trans hc, hk⟩

def history (log : List (Entry ι σ α κ ρ)) : List (ι × Range) :=
  log.filterMap fun e => (D.gave e.call e.result).map (e.node, ·)

def Start (s : Sys ι σ ε β α κ ρ) : Prop :=
  D.cellOk s.cell ∧ s.log = [] ∧
    ∀ i, ∃ a, s.node i = .idle a ∧ D.good a (D.value s.cell) ∧ (D.own a).limit ≤ (D.own a).base

/-- The invariant of a run: some range for each node goes with it, and the ranges are kept apart. -/
def Safe (s : Sys ι σ ε β α κ ρ) : Prop :=
  D.cellOk s.cell ∧ (∀ e ∈ s.log, D.post e.call e.result e.after (D.value e.cell)) ∧ ∃ node : ι → Range, Inv (D.value
    s.cell) node (D.history s.log) ∧ ∀ i, D.Fits (D.value s.cell) (node i) (s.node i)

theorem safe_start {s : Sys ι σ ε β α κ ρ} (h : D.Start s) : D.Safe s := by
  obtain ⟨hcell, hlog, hnode⟩ := h
  choose a ha using hnode
  refine ⟨hcell, by simp [hlog], fun i => D.own (a i), ?_, fun i => ?_⟩
  · rw [hlog]
    exact Inv.init fun i => (ha i).2.2
  · rw [(ha i).1]
    exact ⟨(ha i).2.1, rfl⟩

variable [DecidableEq ι]

theorem fits_update {c c' : ℤ} (hc : c ≤ c') {node : ι → Range} {l : ι → Local σ ε β α κ ρ}
    (h : ∀ i, D.Fits c (node i) (l i)) (i : ι) {nd : Range} {li : Local σ ε β α κ ρ} (hi : D.Fits c' nd li) (j : ι) :
    D.Fits c' (update node i nd j) (update l i li j) := by
  by_cases hj : j = i
  · subst hj
    rwa [update_self, update_self]
  · rw [update_of_ne hj, update_of_ne hj]
    exact (h j).mono D hc

theorem fits_set {c : ℤ} {node : ι → Range} {l : ι → Local σ ε β α κ ρ}
    (h : ∀ i, D.Fits c (node i) (l i)) (i : ι) {li : Local σ ε β α κ ρ}
    (hi : D.Fits c (node i) li) (j : ι) : D.Fits c (node j) (update l i li j) := by
  have hu := D.fits_update le_rfl h i hi j
  rwa [update_eq_self] at hu

theorem safe_step {s s' : Sys ι σ ε β α κ ρ} (h : D.Safe s) (hst : Step code allowed lost s s') : D.Safe s' := by
  obtain ⟨hcell, hpost, node, hinv, hfits⟩ := h
  cases hst with
  | @call i a k hnode hk =>
    refine ⟨hcell, hpost, node, hinv, D.fits_set hfits i ?_⟩
    have hf := hfits i
    rw [hnode] at hf
    refine ⟨_, le_rfl, ?_⟩
    rw [hf.2]
    exact D.keeps k a s.cell hcell hk hf.1
  | @commit i k body next c b hnode hbody =>
    have hf := hfits i
    rw [hnode] at hf
    obtain ⟨c', hc', hkeep⟩ := hf
    obtain ⟨-, -, hok⟩ := hkeep s.cell hcell hc'
    obtain ⟨hcell', base, hb1, hb2, hnext⟩ := hok c b hbody
    refine ⟨hcell', hpost, update node i ⟨base, D.value c⟩, hinv.reserve (r := ⟨base, D.value c⟩) i hb1 hb2,
      D.fits_update hb2 hfits i ⟨_, le_rfl, hnext⟩⟩
  | @abort i k body next e hnode hbody =>
    have hf := hfits i
    rw [hnode] at hf
    obtain ⟨c', hc', hkeep⟩ := hf
    obtain ⟨-, herr, -⟩ := hkeep s.cell hcell hc'
    exact ⟨hcell, hpost, node, hinv, D.fits_set hfits i ⟨_, le_rfl, herr e hbody⟩⟩
  | @lose i k body next hnode =>
    have hf := hfits i
    rw [hnode] at hf
    obtain ⟨c', hc', hkeep⟩ := hf
    obtain ⟨hlost, -, -⟩ := hkeep s.cell hcell hc'
    exact ⟨hcell, hpost, node, hinv, D.fits_set hfits i ⟨_, le_rfl, hlost⟩⟩
  | @«return» i k a r hnode =>
    have hf := hfits i
    rw [hnode] at hf
    obtain ⟨c', hc', hgood, hp, hgave⟩ := hf
    have hgood' := D.good_mono hc' hgood
    refine ⟨hcell, ?_, update node i (D.own a), ?_, D.fits_update le_rfl hfits i ⟨hgood', rfl⟩⟩
    · intro e he
      rcases List.mem_cons.mp he with rfl | he
      · exact D.post_mono hc' hp
      · exact hpost e he
    · cases hg : D.gave k r with
      | none =>
        rw [hg] at hgave
        have hh : D.history (⟨i, k, r, a, s.cell⟩ :: s.log) = D.history s.log := by simp [history, hg]
        rw [hh]
        exact hinv.shrink i hgave
      | some g =>
        rw [hg] at hgave
        have hh : D.history (⟨i, k, r, a, s.cell⟩ :: s.log) = (i, g) :: D.history s.log := by simp [history, hg]
        rw [hh]
        exact hinv.give i (hgave.1.trans hc') hgave.2.1 hgave.2.2

/-- In every run nothing is handed out twice, each node hands out rising numbers, and what holds at the
end of each call was true when it returned. -/
theorem reachable_safe {s : Sys ι σ ε β α κ ρ} (h : Reachable code allowed lost D.Start s) : D.Safe s := by
  induction h with
  | start hs => exact D.safe_start hs
  | step _ hst ih => exact D.safe_step ih hst

end Discipline

end Interleaving
