import Tidb.Lib.Range
import Tidb.Lib.Outcome
import Mathlib.Data.List.TakeWhile

/-!
# Cutting ranges at the bounds of cells

The space of keys is divided into cells (regions, buckets), and `locate` finds the cell of a key.  `cutLoop` goes over
ascending ranges from the front: it takes those that are complete in the cell of the first one, and cuts the next.

`complete` asks whether the end of the range is in the cell or its end.  For a range without an end this asks for the
least key: `Overrun` says when such a range is taken for complete in a cell that has an end.
-/

universe u v

namespace KeyRange

open GoLang List

variable {K : Type u} [LinearOrder K] [OrderBot K]

/-! ## Refinements -/

/-- The ranges of `out` come from cutting those of `l`. -/
structure Refines (out l : List (KeyRange K)) : Prop where
  ascending : Ascending out
  has : ∀ k, Has out k ↔ Has l k

variable {l l₁ l₂ out out₁ out₂ : List (KeyRange K)} {r c : KeyRange K} {k k' m : K}

theorem Refines.refl (h : Ascending l) : Refines l l := ⟨h, fun _ => Iff.rfl⟩

theorem Refines.trans (h : Refines out l₁) (h' : Refines l₁ l₂) : Refines out l₂ :=
  ⟨h.ascending, fun k => (h.has k).trans (h'.has k)⟩

theorem Ascending.has_lt (h : Ascending (l₁ ++ l₂)) (hk : Has l₁ k) (hk' : Has l₂ k') : k < k' := by
  obtain ⟨a, ha, hak⟩ := hk
  obtain ⟨b, hb, hbk⟩ := hk'
  have hbefore := (ascending_append.mp h).2.2 a ha b hb
  exact ((hak.2.resolve_right hbefore.1).trans_le hbefore.2).trans_le hbk.1

theorem Refines.append (h₁ : Refines out₁ l₁) (h₂ : Refines out₂ l₂) (hl : Ascending (l₁ ++ l₂)) :
    Refines (out₁ ++ out₂) (l₁ ++ l₂) where
  ascending := by
    refine ascending_append.mpr ⟨h₁.ascending, h₂.ascending, fun a ha b hb => ?_⟩
    have hstart := fun k (hk : a.Contains k) => (h₁.has k).mp ⟨a, ha, hk⟩
    have hb₀ := (h₂.has _).mp ⟨b, hb, (h₂.ascending.nonEmpty b hb).contains_start⟩
    -- otherwise `a` has the first key of `b`
    by_contra hnot
    have hend : b.startKey < a.endKey ∨ a.endKey = ⊥ := by
      by_cases hbot : a.endKey = ⊥
      · exact .inr hbot
      · exact .inl (not_le.mp fun hle => hnot ⟨hbot, hle⟩)
    have ha₀ := hstart _ (h₁.ascending.nonEmpty a ha).contains_start
    exact lt_irrefl _ (hl.has_lt (hstart _ ⟨(hl.has_lt ha₀ hb₀).le, hend⟩) hb₀)
  has k := by rw [has_append, has_append, h₁.has, h₂.has]

theorem Refines.cut (h : r.CutBy m) (hl : Ascending (l₁ ++ r :: l₂)) :
    Refines (l₁ ++ ⟨r.startKey, m⟩ :: ⟨m, r.endKey⟩ :: l₂) (l₁ ++ r :: l₂) :=
  ⟨hl.cut h, fun _ => has_cut h⟩

/-! ## The loop -/

def complete (c r : KeyRange K) : Bool := decide (c.Contains r.endKey ∨ c.endKey = r.endKey)

section Loop

variable {L : Type u} {ε : Type v} (bound : L → KeyRange K) (locate : K → Outcome ε L) (stop : ε)

/-- At most `n` rounds; `stop` where they do not suffice. -/
def cutLoop : ℕ → List (KeyRange K) → Outcome ε (List (L × List (KeyRange K)))
  | _, [] => .ok []
  | 0, _ :: _ => .error stop
  | n + 1, r₀ :: l => do
    let loc ← locate r₀.startKey
    let done := (r₀ :: l).takeWhile (complete (bound loc))
    match (r₀ :: l).dropWhile (complete (bound loc)) with
    | [] => .ok [(loc, r₀ :: l)]
    | r :: rest =>
      if (bound loc).Contains r.startKey then do
        let out ← cutLoop n (⟨(bound loc).endKey, r.endKey⟩ :: rest)
        .ok ((loc, done ++ [⟨r.startKey, (bound loc).endKey⟩]) :: out)
      else do
        let out ← cutLoop n (r :: rest)
        .ok ((loc, done) :: out)

def Locates : Prop := ∀ k c, locate k = .ok c → (bound c).Contains k

/-- The cells of the keys in `D`: each is in its cell, no two overlap, and there are finitely many. -/
structure Cells (D : K → Prop) : Prop where
  contains : ∀ k, D k → ∃ c, locate k = .ok c ∧ (bound c).Contains k
  same : ∀ k k' c, D k → D k' → locate k = .ok c → (bound c).Contains k' → locate k' = .ok c
  finite : ∃ cells : Finset L, ∀ k c, D k → locate k = .ok c → c ∈ cells

end Loop

/-- Every range is in the cell but the last, which has no end, while the cell has one and starts at the
least key. -/
def Overrun (c : KeyRange K) (l : List (KeyRange K)) : Prop :=
  c.startKey = ⊥ ∧ c.endKey ≠ ⊥ ∧ ∃ l' r, l = l' ++ [r] ∧ r.endKey = ⊥ ∧ ∀ a ∈ l', a.Inside c

theorem Overrun.unbounded (h : Overrun c l) : ∃ r ∈ l, r.endKey = ⊥ := by
  obtain ⟨-, -, l', r, rfl, hend, -⟩ := h
  exact ⟨r, mem_append_right _ mem_cons_self, hend⟩

theorem Overrun.mono {b : KeyRange K} (h : Overrun b l) (hb : b.Inside c) : c.endKey = ⊥ ∨ Overrun c l := by
  obtain ⟨hbot, -, l', r, rfl, hend, hin⟩ := h
  by_cases hc : c.endKey = ⊥
  · exact .inl hc
  · exact .inr ⟨le_bot_iff.mp (hbot ▸ hb.1), hc, l', r, rfl, hend, fun a ha => (hin a ha).trans hb⟩

/-! ## One round -/

theorem complete_of_inside (h : r.Inside c) (hr : r.NonEmpty) (hend : r.endKey ≠ ⊥) : complete c r = true := by
  have hlt := hr.resolve_right hend
  apply decide_eq_true
  rcases h.2 with hbot | ⟨-, hle⟩
  · exact .inl ⟨h.1.trans hlt.le, .inr hbot⟩
  · rcases hle.lt_or_eq with hlt' | heq
    · exact .inl ⟨h.1.trans hlt.le, .inl hlt'⟩
    · exact .inr heq.symm

theorem inside_of_complete (h : complete c r = true) (hstart : c.startKey ≤ r.startKey) :
    r.Inside c ∨ r.endKey = ⊥ ∧ c.startKey = ⊥ ∧ c.endKey ≠ ⊥ := by
  by_cases hcend : c.endKey = ⊥
  · exact .inl ⟨hstart, .inl hcend⟩
  rcases of_decide_eq_true h with ⟨hle, hlt⟩ | heq
  · by_cases hend : r.endKey = ⊥
    · exact .inr ⟨hend, le_bot_iff.mp (hend ▸ hle), hcend⟩
    · exact .inl ⟨hstart, .inr ⟨hend, (hlt.resolve_right hcend).le⟩⟩
  · exact .inl ⟨hstart, .inr ⟨heq ▸ hcend, heq.ge⟩⟩

theorem cutBy_of_not_complete (h : complete c r = false) (hr : r.NonEmpty) (hc : c.Contains r.startKey) :
    r.CutBy c.endKey := by
  have hnot := of_decide_eq_false h
  have hend : c.endKey ≠ ⊥ := by
    intro hbot
    rcases hr with hlt | hrbot
    · exact hnot (.inl ⟨hc.1.trans hlt.le, .inr hbot⟩)
    · exact hnot (.inr (hbot.trans hrbot.symm))
  refine ⟨hc.2.resolve_right hend, ?_⟩
  rcases hr with hlt | hrbot
  · left
    by_contra hle
    rcases (not_lt.mp hle).lt_or_eq with hlt' | heq
    · exact hnot (.inl ⟨hc.1.trans hlt.le, .inl hlt'⟩)
    · exact hnot (.inr heq.symm)
  · exact .inr hrbot

variable {r₀ : KeyRange K}

theorem Ascending.start_le (h : Ascending (r₀ :: l)) (hr : r ∈ r₀ :: l) : r₀.startKey ≤ r.startKey := by
  rcases mem_cons.mp hr with rfl | hr
  · exact le_refl _
  · obtain ⟨hne, -, hbefore⟩ := ascending_cons.mp h
    exact ((hbefore r hr).start_lt hne).le

/-- The two ways a round goes: it takes everything, or the ranges up to `r` and a part of `r` or nothing of
it. -/
theorem round_cases (hl : Ascending (r₀ :: l)) (hc : c.Contains r₀.startKey) :
    ((r₀ :: l).dropWhile (complete c) = [] ∧ (Overrun c (r₀ :: l) ∨ ∀ r ∈ r₀ :: l, r.Inside c)) ∨
    ∃ done r rest, r₀ :: l = done ++ r :: rest ∧ (r₀ :: l).takeWhile (complete c) = done ∧
      (r₀ :: l).dropWhile (complete c) = r :: rest ∧ ¬ Overrun c (r₀ :: l) ∧ complete c r = false ∧
      (∀ a ∈ done, a.Inside c) ∧ (c.Contains r.startKey ∨ done ≠ [] ∧ c.endKey ≠ ⊥ ∧ c.endKey ≤ r.startKey) := by
  have hsplit := takeWhile_append_dropWhile (p := complete c) (l := r₀ :: l)
  have htake : ∀ a ∈ (r₀ :: l).takeWhile (complete c), complete c a = true :=
    fun a ha => mem_takeWhile_imp ha
  have hstart : ∀ a ∈ r₀ :: l, c.startKey ≤ a.startKey := fun a ha => hc.1.trans (hl.start_le ha)
  cases hdrop : (r₀ :: l).dropWhile (complete c) with
  | nil =>
    left
    refine ⟨rfl, ?_⟩
    rw [hdrop, append_nil] at hsplit
    by_cases hall : ∀ r ∈ r₀ :: l, r.Inside c
    · exact .inr hall
    · left
      push Not at hall
      obtain ⟨r, hr, hout⟩ := hall
      obtain ⟨hend, hbot, hcend⟩ :=
        (inside_of_complete (htake r (hsplit.symm ▸ hr)) (hstart r hr)).resolve_left hout
      obtain ⟨l', l'', heq⟩ := append_of_mem hr
      -- nothing comes after a range without an end
      have hlast : l'' = [] := by
        rw [heq] at hl
        obtain ⟨-, hr', -⟩ := ascending_append.mp hl
        obtain ⟨-, -, hafter⟩ := ascending_cons.mp hr'
        apply eq_nil_iff_forall_not_mem.mpr
        intro b hb
        exact (hafter b hb).1 hend
      subst hlast
      refine ⟨hbot, hcend, l', r, heq, hend, ?_⟩
      intro a ha
      have hmem : a ∈ r₀ :: l := heq ▸ mem_append_left _ ha
      have hbefore : a.Before r := by
        rw [heq] at hl
        exact (ascending_append.mp hl).2.2 a ha r mem_cons_self
      exact (inside_of_complete (htake a (hsplit.symm ▸ hmem)) (hstart a hmem)).resolve_right fun h => hbefore.1 h.1
  | cons r rest =>
    right
    rw [hdrop] at hsplit
    have hnot : complete c r = false := by
      have := head?_dropWhile_not (complete c) (r₀ :: l)
      rw [hdrop] at this
      simpa using this
    have hmem : r ∈ r₀ :: l := hsplit ▸ mem_append_right _ mem_cons_self
    have hbefore : ∀ a ∈ (r₀ :: l).takeWhile (complete c), a.Before r := by
      intro a ha
      rw [← hsplit] at hl
      exact (ascending_append.mp hl).2.2 a ha r mem_cons_self
    refine ⟨_, r, rest, hsplit.symm, rfl, rfl, ?_, hnot, ?_, ?_⟩
    · rintro ⟨hbot, hcend, l', r', heq, hend, hin⟩
      -- all ranges would be complete
      have hall : ∀ a ∈ r₀ :: l, complete c a = true := by
        intro a ha
        rw [heq] at ha hl
        rcases mem_append.mp ha with ha' | ha'
        · apply complete_of_inside (hin a ha') (hl.nonEmpty a ha)
          exact ((ascending_append.mp hl).2.2 a ha' r' mem_cons_self).1
        · rw [mem_singleton.mp ha']
          apply decide_eq_true
          left
          rw [hend]
          exact ⟨hbot.le, .inl (bot_lt_iff_ne_bot.mpr hcend)⟩
      rw [hall r hmem] at hnot
      cases hnot
    · intro a ha
      exact (inside_of_complete (htake a ha) (hstart a (hsplit ▸ mem_append_left _ ha))).resolve_right
        fun h => (hbefore a ha).1 h.1
    · by_cases hcr : c.Contains r.startKey
      · exact .inl hcr
      · right
        have hout : ¬ (r.startKey < c.endKey ∨ c.endKey = ⊥) := fun h => hcr ⟨hstart r hmem, h⟩
        push Not at hout
        refine ⟨?_, hout.2, hout.1⟩
        intro hnil
        rw [hnil] at hsplit
        exact hcr ((cons.inj hsplit).1 ▸ hc)

section Run

variable {L : Type u} {ε : Type v} {bound : L → KeyRange K} {locate : K → Outcome ε L} {stop : ε} {D : K → Prop}

/-- A round that leaves something: a piece for the cell of the first key, and the ranges that `next`
goes on with, which are behind the cell. -/
structure Round (c : KeyRange K) (l piece next : List (KeyRange K)) : Prop where
  refines : Refines (piece ++ next) l
  ne_nil : piece ≠ []
  inside : ∀ a ∈ piece, a.Inside c
  not_overrun : ¬ Overrun c l
  behind : ∃ r ∈ next.head?, c.endKey ≠ ⊥ ∧ c.endKey ≤ r.startKey

variable {loc : L}

theorem cutLoop_round (stop : ε) (hl : Ascending (r₀ :: l))
    (hloc : locate r₀.startKey = .ok loc) (hc : (bound loc).Contains r₀.startKey) (n : ℕ) :
    (cutLoop bound locate stop (n + 1) (r₀ :: l) = .ok [(loc, r₀ :: l)] ∧
      (Overrun (bound loc) (r₀ :: l) ∨ ∀ r ∈ r₀ :: l, r.Inside (bound loc))) ∨
    ∃ piece next, Round (bound loc) (r₀ :: l) piece next ∧ cutLoop bound locate stop (n + 1) (r₀ :: l) =
        (cutLoop bound locate stop n next >>= fun out => .ok ((loc, piece) :: out)) := by
  rw [cutLoop, hloc, Outcome.ok_bind]
  rcases round_cases hl hc with ⟨hdrop, hall⟩ | ⟨done, r, rest, hsplit, htake, hdrop, hover, hnot, hin, hr⟩
  · left
    rw [hdrop]
    exact ⟨rfl, hall⟩
  right
  rw [hdrop, htake]
  have hl' : Ascending (done ++ r :: rest) := hsplit ▸ hl
  have hrne := hl'.nonEmpty r (mem_append_right _ mem_cons_self)
  by_cases hcr : (bound loc).Contains r.startKey
  · -- a part of `r` is in the cell
    have hcut := cutBy_of_not_complete hnot hrne hcr
    have href := Refines.cut hcut hl'
    rw [← singleton_append, ← append_assoc, ← hsplit] at href
    dsimp only
    rw [if_pos hcr]
    refine ⟨_, _, ⟨href, by simp, ?_, hover, _, rfl, hcut.ne_bot, le_refl _⟩, rfl⟩
    intro a ha
    rcases mem_append.mp ha with ha | ha
    · exact hin a ha
    · rw [mem_singleton.mp ha]
      exact ⟨hcr.1, .inr ⟨hcut.ne_bot, le_refl _⟩⟩
  · -- nothing of `r` is in the cell
    obtain ⟨hdone, hend, hle⟩ := hr.resolve_left hcr
    dsimp only
    rw [if_neg hcr]
    refine ⟨done, _, ⟨?_, hdone, hin, hover, r, rfl, hend, hle⟩, rfl⟩
    rw [hsplit]
    exact Refines.refl hl'

/-! ## All rounds -/

theorem Ascending.has_head (hl : Ascending (r₀ :: l)) : Has (r₀ :: l) r₀.startKey :=
  ⟨r₀, mem_cons_self, (hl.nonEmpty r₀ mem_cons_self).contains_start⟩

variable {out : List (L × List (KeyRange K))} {n : ℕ}

theorem cutLoop_induction {P : List (KeyRange K) → List (L × List (KeyRange K)) → Prop}
    (h : Locates bound locate) (hnil : P [] [])
    (hall : ∀ r₀ l loc, Ascending (r₀ :: l) → locate r₀.startKey = .ok loc →
      (Overrun (bound loc) (r₀ :: l) ∨ ∀ r ∈ r₀ :: l, r.Inside (bound loc)) → P (r₀ :: l) [(loc, r₀ :: l)])
    (hcons : ∀ r₀ l loc piece next out, Ascending (r₀ :: l) → locate r₀.startKey = .ok loc →
      Round (bound loc) (r₀ :: l) piece next → P next out → P (r₀ :: l) ((loc, piece) :: out)) (hl : Ascending l)
    (hout : cutLoop bound locate stop n l = .ok out) : P l out := by
  induction n generalizing l out with
  | zero =>
    cases l with
    | nil => rw [cutLoop] at hout; cases hout; exact hnil
    | cons r₀ l => rw [cutLoop] at hout; cases hout
  | succ n ih =>
    cases l with
    | nil => rw [cutLoop] at hout; cases hout; exact hnil
    | cons r₀ l =>
      cases hloc : locate r₀.startKey with
      | ok loc =>
        rcases cutLoop_round stop hl hloc (h _ _ hloc) n with ⟨heq, hin⟩ | ⟨piece, next, hround, heq⟩
        · rw [heq] at hout
          cases hout
          exact hall r₀ l loc hl hloc hin
        · rw [heq] at hout
          obtain ⟨out', hout', h'⟩ := Outcome.bind_eq_ok.mp hout
          cases h'
          exact hcons r₀ l loc piece next out' hl hloc hround
            (ih (ascending_append.mp hround.refines.ascending).2.1 hout')
      | _ => rw [cutLoop, hloc] at hout; cases hout

structure CutPieces (locate : K → Outcome ε L) (l : List (KeyRange K))
    (out : List (L × List (KeyRange K))) : Prop where
  refines : Refines (out.flatMap Prod.snd) l
  ne_nil : ∀ p ∈ out, p.2 ≠ []
  located : ∀ p ∈ out, ∃ k, Has l k ∧ locate k = .ok p.1

/-- Whatever the cells are, what the loop returns is the ranges cut. -/
theorem cutLoop_pieces (h : Locates bound locate)
    (hl : Ascending l) (hout : cutLoop bound locate stop n l = .ok out) : CutPieces locate l out := by
  apply cutLoop_induction h ?_ ?_ ?_ hl hout
  · exact ⟨Refines.refl Ascending.nil, by simp, by simp⟩
  · intro r₀ l loc hl hloc _
    refine ⟨by simpa using Refines.refl hl, by simp, ?_⟩
    intro p hp
    rw [mem_singleton.mp hp]
    exact ⟨_, hl.has_head, hloc⟩
  · intro r₀ l loc piece next out hl hloc hround hnext
    have hasc := hround.refines.ascending
    refine ⟨((Refines.refl (ascending_append.mp hasc).1).append hnext.refines hasc).trans hround.refines, ?_, ?_⟩
    · intro p hp
      rcases mem_cons.mp hp with rfl | hp
      · exact hround.ne_nil
      · exact hnext.ne_nil p hp
    · intro p hp
      rcases mem_cons.mp hp with rfl | hp
      · exact ⟨_, hl.has_head, hloc⟩
      · obtain ⟨k, hk, hp⟩ := hnext.located p hp
        exact ⟨k, (hround.refines.has k).mp (has_append.mpr (.inr hk)), hp⟩

theorem Cells.not_overrun (h : Cells bound locate D) {loc' : L} (hk : D k) (hm : D m)
    (hloc : locate k = .ok loc) (hloc' : locate m = .ok loc')
    (hck : (bound loc).Contains k) (hcm : (bound loc').Contains m)
    (hend : (bound loc).endKey ≠ ⊥) (hle : (bound loc).endKey ≤ m) : ¬ Overrun (bound loc') l := by
  rintro ⟨hbot, -, -⟩
  have hkm : k < m := (hck.2.resolve_right hend).trans_le hle
  have hsame := h.same m k loc' hm hk hloc' ⟨hbot ▸ bot_le, hcm.2.imp_left hkm.trans⟩
  rw [hloc] at hsame
  cases hsame
  exact absurd hle (not_le_of_gt (hcm.2.resolve_right hend))

theorem cutLoop_inside (h : Locates bound locate) (hcells : Cells bound locate D)
 (hl : Ascending l) (hD : ∀ k, Has l k → D k) (hout : cutLoop bound locate stop n l = .ok out) : (∀ p ∈ out, ∀ r ∈ p.2,
    r.Inside (bound p.1)) ∨ ∃ r ∈ l.head?, ∃ c, locate r.startKey = .ok c ∧ Overrun (bound c) l ∧ out = [(c, l)] := by
  revert hD
  apply cutLoop_induction h ?_ ?_ ?_ hl hout
  · exact fun _ => .inl (by simp)
  · intro r₀ l loc _ hloc hin _
    rcases hin with hover | hin
    · exact .inr ⟨r₀, rfl, loc, hloc, hover, rfl⟩
    · left
      intro p hp
      rw [mem_singleton.mp hp]
      exact hin
  · intro r₀ l loc piece next out hl hloc hround hnext hD
    have hsub : ∀ k, Has next k → D k :=
      fun k hk => hD k ((hround.refines.has k).mp (has_append.mpr (.inr hk)))
    left
    intro p hp
    rcases mem_cons.mp hp with rfl | hp
    · exact hround.inside
    -- the cell of the next round does not start at the least key
    refine ((hnext hsub).resolve_right ?_) p hp
    rintro ⟨r, hr, c, hc, hover, -⟩
    obtain ⟨r', hr', hend, hle⟩ := hround.behind
    rw [Option.mem_unique hr' hr] at hle
    have hmem : r ∈ next := mem_of_mem_head? hr
    have hne := (ascending_append.mp hround.refines.ascending).2.1.nonEmpty r hmem
    exact hcells.not_overrun (hD _ hl.has_head) (hsub _ ⟨r, hmem, hne.contains_start⟩) hloc hc
      (h _ _ hloc) (h _ _ hc) hend hle hover

theorem cutLoop_one (h : Locates bound locate) (hl : Ascending (r₀ :: l)) (hloc : locate r₀.startKey = .ok loc)
    (hone : (bound loc).endKey = ⊥ ∨ Overrun (bound loc) (r₀ :: l))
    (hout : cutLoop bound locate stop n (r₀ :: l) = .ok out) : out = [(loc, r₀ :: l)] := by
  cases n with
  | zero => rw [cutLoop] at hout; cases hout
  | succ n =>
    rcases cutLoop_round stop hl hloc (h _ _ hloc) n with ⟨heq, -⟩ | ⟨piece, next, hround, -⟩
    · rw [heq] at hout
      cases hout
      rfl
    · obtain ⟨r, -, hend, -⟩ := hround.behind
      exact (hone.elim hend hround.not_overrun).elim

/-! ## The number of rounds -/

noncomputable def cellsFrom (bound : L → KeyRange K) (cells : Finset L) (k : K) : Finset L :=
  open Classical in cells.filter fun c => (bound c).endKey = ⊥ ∨ k < (bound c).endKey

variable {cells : Finset L}

theorem mem_cellsFrom :
    loc ∈ cellsFrom bound cells k ↔ loc ∈ cells ∧ ((bound loc).endKey = ⊥ ∨ k < (bound loc).endKey) := by
  rw [cellsFrom, Finset.mem_filter]

theorem card_cellsFrom_lt (hk : loc ∈ cells)
    (hc : (bound loc).Contains k) (hend : (bound loc).endKey ≠ ⊥) (hm : (bound loc).endKey ≤ m) :
    (cellsFrom bound cells m).card < (cellsFrom bound cells k).card := by
  have hkm : k < m := (hc.2.resolve_right hend).trans_le hm
  apply Finset.card_lt_card
  refine ⟨fun c hcm => ?_, fun hsub => ?_⟩
  · rw [mem_cellsFrom] at hcm ⊢
    exact ⟨hcm.1, hcm.2.imp_right hkm.trans⟩
  · -- the cell of `k` is behind `m`
    have hlt := mem_cellsFrom.mp (hsub (mem_cellsFrom.mpr ⟨hk, hc.2.symm⟩))
    rcases hlt.2 with hbot | hlt
    · exact hend hbot
    · exact absurd hlt (not_lt.mpr hm)

theorem cutLoop_total_from (h : Cells bound locate D)
    (hcells : ∀ k c, D k → locate k = .ok c → c ∈ cells) (hl : Ascending l)
    (hD : ∀ k, Has l k → D k) (hn : ∀ r ∈ l.head?, (cellsFrom bound cells r.startKey).card ≤ n) :
    ∃ out, cutLoop bound locate stop n l = .ok out := by
  induction n generalizing l with
  | zero =>
    cases l with
    | nil => exact ⟨[], by rw [cutLoop]⟩
    | cons r₀ l =>
      -- the cell of the first key is not behind it
      obtain ⟨loc, hloc, hc⟩ := h.contains _ (hD _ hl.has_head)
      have hzero := Finset.card_eq_zero.mp (Nat.le_zero.mp (hn r₀ rfl))
      have hmem : loc ∈ cellsFrom bound cells r₀.startKey :=
        mem_cellsFrom.mpr ⟨hcells _ _ (hD _ hl.has_head) hloc, hc.2.symm⟩
      rw [hzero] at hmem
      exact absurd hmem (Finset.notMem_empty _)
  | succ n ih =>
    cases l with
    | nil => exact ⟨[], by rw [cutLoop]⟩
    | cons r₀ l =>
      have hk := hD _ hl.has_head
      obtain ⟨loc, hloc, hc⟩ := h.contains _ hk
      rcases cutLoop_round stop hl hloc hc n with ⟨heq, -⟩ | ⟨piece, next, hround, heq⟩
      · exact ⟨_, heq⟩
      · obtain ⟨r, hr, hend, hle⟩ := hround.behind
        have hsub : ∀ k, Has next k → D k :=
          fun k hk => hD k ((hround.refines.has k).mp (has_append.mpr (.inr hk)))
        obtain ⟨out, hout⟩ := ih (ascending_append.mp hround.refines.ascending).2.1 hsub (by
          intro r' hr'
          have hlt := card_cellsFrom_lt (hcells _ _ hk hloc) hc hend hle
          have hbound := hn r₀ rfl
          rw [Option.mem_unique hr' hr]
          omega)
        rw [heq, hout]
        exact ⟨_, rfl⟩

/-- As many rounds as there are cells suffice. -/
theorem cutLoop_total (stop : ε) (h : Cells bound locate D)
    (hcells : ∀ k c, D k → locate k = .ok c → c ∈ cells) (hl : Ascending l)
    (hD : ∀ k, Has l k → D k) (hn : cells.card ≤ n) : ∃ out, cutLoop bound locate stop n l = .ok out := by
  apply cutLoop_total_from h hcells hl hD
  intro r _
  exact (Finset.card_le_card fun c hc => (mem_cellsFrom.mp hc).1).trans hn

end Run

end KeyRange
