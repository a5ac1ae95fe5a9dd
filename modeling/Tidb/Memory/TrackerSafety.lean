import Tidb.Memory.Tracker

/-!
# What trackers have consumed

The bytes of a tracker are those consumed directly on it and those of its children.  Every call keeps this, but for
two: a tracker that moves from a global parent to another kind is not taken from the global one, and a child that is
replaced by one with the same label leaves its own parent as it was.
-/

namespace Memory

open Forest Relation List Function State

variable {ι : Type} [DecidableEq ι]

/-- The children of ordinary trackers are those that have them as parent, by label; global ones have none. -/
structure Wf (ts : Trackers ι) (s : State ι) : Prop where
  forest : Digraph.Acyclic (Up s.parent)
  nodup : ∀ p label, (s.children p label).Nodup
  mem_children : ∀ p, ts.isGlobal p = false → ∀ c label,
    c ∈ s.children p label ↔ label = ts.label c ∧ s.parent c = some p
  global : ∀ p, ts.isGlobal p = true → ∀ label, s.children p label = []

variable [Fintype ι] {ts : Trackers ι} {s s' : State ι} {t : ι}

def State.own (s : State ι) (u : ι) : BitVec 64 := Forest.own s.parent s.bytesConsumed u

/-! ## Consume -/

structure Consumed (s : State ι) (t : ι) (bs : BitVec 64) (s' : State ι) : Prop where
  parent : s'.parent = s.parent
  children : s'.children = s.children
  own : ∀ u, s'.own u = s.own u + if u = t then bs else 0
  frame : ∀ u, ¬ ReflTransGen (Up s.parent) t u → s'.bytesConsumed u = s.bytesConsumed u

theorem exists_consume (h : Digraph.Acyclic (Up s.parent)) (t : ι) (bs : BitVec 64) :
    ∃ s', s.consume t bs = .ok s' ∧ Consumed s t bs s' := by
  unfold consume
  by_cases hbs : bs = 0
  · rw [if_pos hbs]
    refine ⟨s, rfl, rfl, rfl, fun u => ?_, fun _ _ => rfl⟩
    rw [hbs, ite_self, add_zero]
  · rw [if_neg hbs]
    obtain ⟨w, hw⟩ := exists_addUp (x := bs) (depthLT_card h t) s.bytesConsumed
    rw [hw]
    exact ⟨_, rfl, rfl, rfl, own_addUp hw, fun u hu => addUp_of_not_above hw hu⟩

theorem Wf.of_consumed {bs : BitVec 64} (h : Wf ts s) (hc : Consumed s t bs s') : Wf ts s' := by
  constructor
  · rw [hc.parent]
    exact h.forest
  · rw [hc.children]
    exact h.nodup
  · rw [hc.children, hc.parent]
    exact h.mem_children
  · rw [hc.children]
    exact h.global

theorem State.own_setParent (s : State ι) (t : ι) (p : Option ι) (u : ι) : (s.setParent t p).own u =
    s.own u + (if s.parent t = some u then s.bytesConsumed t else 0) - (if p = some u then s.bytesConsumed t else 0) :=
  Forest.own_setParent s.parent s.bytesConsumed t p u

theorem State.own_setChildren (s : State ι) (t : ι) (label : ℤ) (children : List ι) (u : ι) :
    (s.setChildren t label children).own u = s.own u := rfl

/-! ## Leaving a parent -/

omit [DecidableEq ι] [Fintype ι] in
theorem Wf.not_mem_children (h : Wf ts s) (ht : s.parent t = none) (p : ι) (label : ℤ) : t ∉ s.children p label := by
  intro hmem
  cases hg : ts.isGlobal p with
  | true =>
    rw [h.global p hg] at hmem
    cases hmem
  | false =>
    have hparent := ((h.mem_children p hg t label).mp hmem).2
    rw [ht] at hparent
    cases hparent

omit [Fintype ι] in
theorem setChildren_children (s : State ι) (t : ι) (label : ℤ) (children : List ι) (p : ι) (label' : ℤ) :
    (s.setChildren t label children).children p label' =
      if p = t ∧ label' = label then children else s.children p label' := by
  unfold setChildren
  dsimp only
  by_cases hp : p = t
  · subst hp
    rw [update_self]
    by_cases hl : label' = label
    · subst hl
      rw [update_self, if_pos ⟨rfl, rfl⟩]
    · rw [update_of_ne hl, if_neg fun h => hl h.2]
  · rw [update_of_ne hp, if_neg fun h => hp h.1]

omit [Fintype ι] in
theorem setParent_parent (s : State ι) (t : ι) (p : Option ι) (c : ι) :
    (s.setParent t p).parent c = if c = t then p else s.parent c := by
  unfold setParent
  dsimp only
  by_cases hc : c = t
  · rw [hc, update_self, if_pos rfl]
  · rw [update_of_ne hc, if_neg hc]

omit [Fintype ι] in
theorem Wf.erase (h : Wf ts s) {p : ι} (hp : s.parent t = some p) (hg : ts.isGlobal p = false) :
    Wf ts ((s.setChildren p (ts.label t) ((s.children p (ts.label t)).erase t)).setParent t none) := by
  constructor
  · exact acyclic_setParent_none h.forest
  · intro q label
    show ((s.setChildren p _ _).children q label).Nodup
    rw [setChildren_children]
    split
    · exact (h.nodup p _).erase t
    · exact h.nodup q label
  · intro q hq c label
    show c ∈ (s.setChildren p _ _).children q label ↔ _
    rw [setChildren_children, setParent_parent]
    show _ ↔ label = ts.label c ∧ (if c = t then none else s.parent c) = some q
    by_cases hql : q = p ∧ label = ts.label t
    · rw [if_pos hql, hql.1, hql.2, (h.nodup p _).mem_erase_iff, h.mem_children p hg]
      by_cases hc : c = t <;> simp [hc]
    · rw [if_neg hql, h.mem_children q hq]
      by_cases hc : c = t
      · subst hc
        rw [if_pos rfl, hp]
        refine iff_of_false ?_ (fun h => by cases h.2)
        rintro ⟨hlabel, hparent⟩
        exact hql ⟨(Option.some.inj hparent).symm, hlabel⟩
      · rw [if_neg hc]
  · intro q hq label
    show (s.setChildren p _ _).children q label = []
    rw [setChildren_children, if_neg ?_]
    · exact h.global q hq label
    · rintro ⟨rfl, -⟩
      rw [hg] at hq
      cases hq

structure Left (ts : Trackers ι) (s : State ι) (t : ι) (s' : State ι) : Prop where
  wf : Wf ts s'
  parent : s'.parent = update s.parent t none
  own : ∀ u, s'.own u = s.own u

theorem exists_remove (h : Wf ts s) {p : ι} (hp : s.parent t = some p) (hg : ts.isGlobal p = false) :
    ∃ s', s.remove ts p t = .ok s' ∧ Left ts s t s' := by
  have hmem : t ∈ s.children p (ts.label t) := (h.mem_children p hg t _).mpr ⟨rfl, hp⟩
  have herase := h.erase hp hg
  unfold State.remove
  rw [if_pos hmem]
  obtain ⟨s', hs', hc⟩ := exists_consume herase.forest p (-s.bytesConsumed t)
  refine ⟨s', hs', herase.of_consumed hc, hc.parent, fun u => ?_⟩
  rw [hc.own, State.own_setParent]
  show s.own u + (if s.parent t = some u then s.bytesConsumed t else 0) - (if none = some u then _ else 0) + _ = _
  rw [hp]
  by_cases hu : u = p
  · subst hu
    simp
  · have hne : ¬ p = u := fun heq => hu heq.symm
    simp [hu, hne]

theorem remove_of_not_child (h : Wf ts s) {p : ι} (hp : ¬ (s.parent t = some p ∧ ts.isGlobal p = false)) :
    s.remove ts p t = .ok s := by
  unfold remove
  rw [if_neg]
  intro hmem
  cases hg : ts.isGlobal p with
  | true =>
    rw [h.global p hg] at hmem
    cases hmem
  | false => exact hp ⟨((h.mem_children p hg t _).mp hmem).2, hg⟩

/-! ## Joining a parent -/

omit [Fintype ι] in
theorem Wf.append (h : Wf ts s) (ht : s.parent t = none) {p : ι} (hg : ts.isGlobal p = false)
    (habove : ¬ ReflTransGen (Up s.parent) p t) :
    Wf ts ((s.setChildren p (ts.label t) (s.children p (ts.label t) ++ [t])).setParent t (some p)) := by
  constructor
  · exact acyclic_setParent_some h.forest habove
  · intro q label
    show ((s.setChildren p _ _).children q label).Nodup
    rw [setChildren_children]
    split
    · rw [nodup_append]
      refine ⟨h.nodup p _, nodup_singleton t, ?_⟩
      rintro a ha b hb rfl
      rw [mem_singleton.mp hb] at ha
      exact h.not_mem_children ht p _ ha
    · exact h.nodup q label
  · intro q hq c label
    show c ∈ (s.setChildren p _ _).children q label ↔ _
    rw [setChildren_children, setParent_parent]
    show _ ↔ label = ts.label c ∧ (if c = t then some p else s.parent c) = some q
    by_cases hql : q = p ∧ label = ts.label t
    · rw [if_pos hql, hql.1, hql.2, mem_append, h.mem_children p hg]
      by_cases hc : c = t <;> simp [hc]
    · rw [if_neg hql, h.mem_children q hq]
      by_cases hc : c = t
      · subst hc
        rw [if_pos rfl, ht]
        refine iff_of_false (fun h => by cases h.2) ?_
        rintro ⟨hlabel, hparent⟩
        exact hql ⟨(Option.some.inj hparent).symm, hlabel⟩
      · rw [if_neg hc]
  · intro q hq label
    show (s.setChildren p _ _).children q label = []
    rw [setChildren_children, if_neg ?_]
    · exact h.global q hq label
    · rintro ⟨rfl, -⟩
      rw [hg] at hq
      cases hq

omit [Fintype ι] in
theorem Wf.setGlobalParent (h : Wf ts s) (ht : ∀ p, s.parent t = some p → ts.isGlobal p = true) {g : ι}
    (hg : ts.isGlobal g = true) (habove : ¬ ReflTransGen (Up s.parent) g t) : Wf ts (s.setParent t (some g)) := by
  refine ⟨acyclic_setParent_some h.forest habove, h.nodup, ?_, h.global⟩
  intro q hq c label
  show c ∈ s.children q label ↔ _
  rw [setParent_parent, h.mem_children q hq]
  by_cases hc : c = t
  · subst hc
    rw [if_pos rfl]
    refine iff_of_false ?_ ?_
    · rintro ⟨-, hparent⟩
      rw [ht q hparent] at hq
      cases hq
    · rintro ⟨-, hparent⟩
      rw [← Option.some.inj hparent, hg] at hq
      cases hq
  · rw [if_neg hc]

theorem own_of_joined {p : ι} {s₁ : State ι} (hc : Consumed s₁ p (s.bytesConsumed t) s')
    (hs₁ : s₁.parent = update s.parent t (some p)) (hbytes : s₁.bytesConsumed = s.bytesConsumed) (u : ι) :
    s'.own u = s.own u + if s.parent t = some u then s.bytesConsumed t else 0 := by
  rw [hc.own]
  unfold State.own
  rw [hs₁, hbytes, Forest.own_setParent]
  by_cases hu : u = p
  · subst hu
    simp
  · have hne : ¬ p = u := fun heq => hu heq.symm
    simp [hu, hne]

/-! ## Calls that move trackers -/

/-- Nothing is consumed, and the lists of children stay in step with the parents. -/
structure Kept (ts : Trackers ι) (s s' : State ι) : Prop where
  wf : Wf ts s'
  own : ∀ u, s'.own u = s.own u

theorem Kept.trans {s₁ s₂ : State ι} (h : Kept ts s s₁) (h' : Kept ts s₁ s₂) : Kept ts s s₂ :=
  ⟨h'.wf, fun u => (h'.own u).trans (h.own u)⟩

theorem Left.kept (h : Left ts s t s') : Kept ts s s' := ⟨h.wf, h.own⟩

def State.UnderGlobal (ts : Trackers ι) (s : State ι) (t : ι) : Prop := ∃ p, s.parent t = some p ∧ ts.isGlobal p = true

theorem exists_removeFromParent (h : Wf ts s) (ht : ¬ s.UnderGlobal ts t) :
    ∃ s', s.removeFromParent ts t = .ok s' ∧ Left ts s t s' := by
  unfold removeFromParent
  cases hp : s.parent t with
  | none =>
    have hparent : s.parent = update s.parent t none := by rw [← hp, update_eq_self]
    exact ⟨s, rfl, h, hparent, fun _ => rfl⟩
  | some p =>
    have hg : ts.isGlobal p = false := by
      by_contra hne
      exact ht ⟨p, hp, Bool.eq_true_of_not_eq_false hne⟩
    exact exists_remove h hp hg

/-- What is left when a tracker goes to a global one: its old parent, when global, is still its parent. -/
structure LeftForGlobal (ts : Trackers ι) (s : State ι) (t : ι) (s' : State ι) : Prop where
  wf : Wf ts s'
  above : ∀ a b, ReflTransGen (Up s'.parent) a b → ReflTransGen (Up s.parent) a b
  parent : ∀ p, s'.parent t = some p → ts.isGlobal p = true
  own : ∀ u, s'.own u + (if s'.parent t = some u then s'.bytesConsumed t else 0) = s.own u

theorem exists_leaveParent (h : Wf ts s) (t : ι) : ∃ s', s.leaveParent ts t = .ok s' ∧ LeftForGlobal ts s t s' := by
  unfold leaveParent
  cases hp : s.parent t with
  | none =>
    refine ⟨s, rfl, h, fun _ _ => id, ?_, ?_⟩
    · intro p hp'
      rw [hp] at hp'
      cases hp'
    · intro u
      rw [hp, if_neg (by simp), add_zero]
  | some p =>
    dsimp only
    cases hg : ts.isGlobal p with
    | true =>
      obtain ⟨s', hs', hc⟩ := exists_consume h.forest p (-s.bytesConsumed t)
      refine ⟨s', hs', h.of_consumed hc, ?_, ?_, ?_⟩
      · rw [hc.parent]
        exact fun _ _ => id
      · intro q hq
        rw [hc.parent, hp] at hq
        rw [← Option.some.inj hq, hg]
      · intro u
        -- the parent is above `t`, so that `t` itself keeps its bytes
        rw [hc.own, hc.parent, hp, hc.frame t (not_above_parent h.forest hp)]
        by_cases hu : u = p
        · subst hu
          simp
        · have hne : ¬ p = u := fun heq => hu heq.symm
          simp [hu, hne]
    | false =>
      obtain ⟨s', hs', hleft⟩ := exists_remove h hp hg
      have hnone : s'.parent t = none := by rw [hleft.parent, update_self]
      refine ⟨s', hs', hleft.wf, ?_, ?_, ?_⟩
      · intro a b hab
        rw [hleft.parent] at hab
        exact above_of_setParent_none hab
      · intro q hq
        rw [hnone] at hq
        cases hq
      · intro u
        rw [hnone, hleft.own, if_neg (by simp), add_zero]

theorem exists_attachToGlobalTracker (h : Wf ts s) {g : ι} (hg : ts.isGlobal g = true)
    (habove : ¬ ReflTransGen (Up s.parent) g t) :
    ∃ s', s.attachToGlobalTracker ts t (some g) = .ok s' ∧ Kept ts s s' := by
  obtain ⟨s₁, hs₁, hleft⟩ := exists_leaveParent h t
  have hwf := hleft.wf.setGlobalParent hleft.parent hg fun hab => habove (hleft.above _ _ hab)
  obtain ⟨s', hs', hc⟩ := exists_consume hwf.forest g (s₁.bytesConsumed t)
  refine ⟨s', ?_, hwf.of_consumed hc, ?_⟩
  · rw [attachToGlobalTracker, if_neg (by simp [hg]), hs₁]
    exact hs'
  · intro u
    rw [own_of_joined hc rfl rfl, hleft.own]

theorem exists_attachTo (h : Wf ts s) {p : ι} (habove : ¬ ReflTransGen (Up s.parent) p t)
    (hsafe : ts.isGlobal p = false → ¬ s.UnderGlobal ts t) : ∃ s', s.attachTo ts t p = .ok s' ∧ Kept ts s s' := by
  unfold attachTo
  cases hg : ts.isGlobal p with
  | true => exact exists_attachToGlobalTracker h hg habove
  | false =>
    obtain ⟨s₁, hs₁, hleft⟩ := exists_removeFromParent h (hsafe hg)
    have hnone : s₁.parent t = none := by rw [hleft.parent, update_self]
    have habove' : ¬ ReflTransGen (Up s₁.parent) p t := by
      intro hab
      rw [hleft.parent] at hab
      exact habove (above_of_setParent_none hab)
    have hwf := hleft.wf.append hnone hg habove'
    obtain ⟨s', hs', hc⟩ := exists_consume hwf.forest p (s₁.bytesConsumed t)
    rw [hs₁]
    refine ⟨s', hs', hwf.of_consumed hc, fun u => ?_⟩
    rw [own_of_joined hc rfl rfl, hleft.own, hnone, if_neg (by simp), add_zero]

theorem exists_detachFromGlobalTracker (h : Wf ts s) {p : ι} (hp : s.parent t = some p) (hg : ts.isGlobal p = true) :
    ∃ s', s.detachFromGlobalTracker ts t = .ok s' ∧ Kept ts s s' := by
  obtain ⟨s₁, hs₁, hc⟩ := exists_consume h.forest p (-s.bytesConsumed t)
  have hwf := h.of_consumed hc
  unfold State.detachFromGlobalTracker
  rw [hp]
  dsimp only
  rw [if_neg (by simp [hg]), hs₁]
  refine ⟨_, rfl, ⟨acyclic_setParent_none hwf.forest, hwf.nodup, ?_, hwf.global⟩, fun u => ?_⟩
  · intro q hq c label
    show c ∈ s₁.children q label ↔ _
    rw [setParent_parent, hwf.mem_children q hq]
    by_cases ht : c = t
    · -- `t` is in the list of no ordinary tracker, as its parent is global
      rw [if_pos ht, ht, hc.parent, hp]
      refine iff_of_false ?_ (fun hparent => by cases hparent.2)
      rintro ⟨-, hparent⟩
      rw [← Option.some.inj hparent, hg] at hq
      cases hq
    · rw [if_neg ht]
  · rw [State.own_setParent, hc.own, hc.parent, hp, hc.frame t (not_above_parent h.forest hp)]
    by_cases hu : u = p
    · subst hu
      simp
    · have hne : ¬ p = u := fun heq => hu heq.symm
      simp [hu, hne]

theorem exists_detach (h : Wf ts s) (t : ι) : ∃ s', s.detach ts t = .ok s' ∧ Kept ts s s' := by
  unfold detach
  cases hp : s.parent t with
  | none => exact ⟨s, rfl, h, fun _ => rfl⟩
  | some p =>
    dsimp only
    cases hg : ts.isGlobal p with
    | true => exact exists_detachFromGlobalTracker h hp hg
    | false =>
      obtain ⟨s₁, hs₁, hleft⟩ := exists_remove h hp hg
      have hset : s₁.setParent t none = s₁ := by
        unfold setParent
        rw [hleft.parent, update_idem, ← hleft.parent]
      rw [hs₁]
      refine ⟨s₁.setParent t none, rfl, ?_⟩
      rw [hset]
      exact hleft.kept

theorem exists_removeChild (h : Wf ts s) (p c : ι) : ∃ s', s.remove ts p c = .ok s' ∧ Kept ts s s' ∧
    (s' = s ∨ s'.parent = update s.parent c none) := by
  by_cases hc : s.parent c = some p ∧ ts.isGlobal p = false
  · obtain ⟨s', hs', hleft⟩ := exists_remove h hc.1 hc.2
    exact ⟨s', hs', hleft.kept, .inr hleft.parent⟩
  · exact ⟨s, remove_of_not_child h hc, ⟨h, fun _ => rfl⟩, .inl rfl⟩

/-! ## Replacing a child by one with its label -/

omit [Fintype ι] in
theorem replace_perm {a : ι} (b : ι) : ∀ {l : List ι}, a ∈ l → (l.replace a b).Perm (b :: l.erase a)
  | x :: l, ha => by
    by_cases hx : x = a
    · subst hx
      rw [replace_cons_self, erase_cons_head]
    · have hmem : a ∈ l := by
        rcases mem_cons.mp ha with heq | hmem
        · exact absurd heq.symm hx
        · exact hmem
      have hbeq : (a == x) = false := beq_false_of_ne fun heq => hx heq.symm
      rw [replace_cons, hbeq, erase_cons_tail (by simp [hx])]
      exact ((replace_perm b hmem).cons x).trans (List.Perm.swap b x _)

omit [Fintype ι] in
theorem Wf.replace (h : Wf ts s) {old new p : ι} (hold : s.parent old = some p) (hg : ts.isGlobal p = false)
    (hnew : s.parent new = none) (hlabel : ts.label old = ts.label new) (habove : ¬ ReflTransGen (Up s.parent) p new) :
    Wf ts (((s.setParent new (some p)).setParent old none).setChildren p (ts.label old)
      ((s.children p (ts.label old)).replace old new)) := by
  have hne : new ≠ old := by
    rintro rfl
    rw [hnew] at hold
    cases hold
  have hmem : old ∈ s.children p (ts.label old) := (h.mem_children p hg old _).mpr ⟨rfl, hold⟩
  have hperm := replace_perm new hmem
  constructor
  · exact acyclic_setParent_none (acyclic_setParent_some h.forest habove)
  · intro q label
    rw [setChildren_children]
    split
    · rw [hperm.nodup_iff, nodup_cons]
      exact ⟨fun hin => h.not_mem_children hnew _ _ (mem_of_mem_erase hin), (h.nodup _ _).erase _⟩
    · exact h.nodup q label
  · intro q hq c label
    show _ ↔ label = ts.label c ∧ ((s.setParent new (some p)).setParent old none).parent c = some q
    rw [setChildren_children, setParent_parent, setParent_parent]
    show c ∈ (if _ then _ else s.children q label) ↔ _
    by_cases hql : q = p ∧ label = ts.label old
    · obtain ⟨rfl, rfl⟩ := hql
      rw [if_pos ⟨rfl, rfl⟩, hperm.mem_iff, mem_cons, (h.nodup q _).mem_erase_iff, h.mem_children q hg]
      by_cases hc : c = new
      · subst hc
        simp [hne, hlabel]
      · by_cases hc' : c = old
        · simp [hc', Ne.symm hne]
        · simp [hc, hc']
    · rw [if_neg hql, h.mem_children q hq]
      have hql' : ¬ (p = q ∧ label = ts.label old) := fun heq => hql ⟨heq.1.symm, heq.2⟩
      by_cases hc : c = new
      · subst hc
        rw [if_neg hne, if_pos rfl, hnew, ← hlabel]
        simp only [reduceCtorEq, and_false, Option.some.injEq, false_iff]
        exact fun heq => hql' ⟨heq.2, heq.1⟩
      · by_cases hc' : c = old
        · subst hc'
          rw [if_pos rfl, hold]
          simp only [reduceCtorEq, and_false, Option.some.injEq, iff_false]
          exact fun heq => hql' ⟨heq.2, heq.1⟩
        · rw [if_neg hc', if_neg hc]
  · intro q hq label
    rw [setChildren_children, if_neg ?_]
    · exact h.global q hq label
    · rintro ⟨rfl, -⟩
      rw [hg] at hq
      cases hq

theorem exists_replaceChild_same (h : Wf ts s) {old new : ι} (hlabel : ts.label old = ts.label new)
    (habove : ¬ ReflTransGen (Up s.parent) t new) (hnew : s.parent new = none)
    (hsafe : ts.isGlobal t = true ∨ s.parent old = some t) :
    ∃ s', s.replaceChild ts t old (some new) = .ok s' ∧ Kept ts s s' := by
  rw [State.replaceChild, if_neg (not_not.mpr hlabel)]
  show ∃ s', (if old ∈ s.children t (ts.label old) then _ else _) = _ ∧ _
  cases hg : ts.isGlobal t with
  | true =>
    rw [h.global t hg]
    have hwf := h.setGlobalParent (t := new) (fun p hp => by rw [hnew] at hp; cases hp) hg habove
    obtain ⟨s', hs', hc⟩ := exists_consume hwf.forest t (s.bytesConsumed new)
    refine ⟨s', hs', hwf.of_consumed hc, fun u => ?_⟩
    rw [own_of_joined hc rfl rfl, hnew, if_neg (by simp), add_zero]
  | false =>
    have hold : s.parent old = some t := by
      rcases hsafe with hglobal | hold
      · rw [hg] at hglobal
        cases hglobal
      · exact hold
    have hne : old ≠ new := by
      rintro rfl
      rw [hnew] at hold
      cases hold
    rw [if_pos ((h.mem_children t hg old _).mpr ⟨rfl, hold⟩)]
    have hwf := h.replace hold hg hnew hlabel habove
    obtain ⟨s', hs', hc⟩ := exists_consume hwf.forest t (s.bytesConsumed new - s.bytesConsumed old)
    refine ⟨s', hs', hwf.of_consumed hc, fun u => ?_⟩
    rw [hc.own, State.own_setChildren, State.own_setParent, State.own_setParent, setParent_parent, if_neg hne,
      hold, hnew]
    show s.own u + (if none = some u then _ else 0) - (if some t = some u then s.bytesConsumed new else 0)
      + (if some t = some u then s.bytesConsumed old else 0) - (if none = some u then _ else 0) + _ = _
    by_cases hu : u = t
    · subst hu
      simp only [if_true]
      abel
    · have hne' : ¬ t = u := fun heq => hu heq.symm
      simp [hu, hne']

theorem exists_replaceChild_other (h : Wf ts s) {old new : ι} (hlabel : ts.label old ≠ ts.label new)
    (habove : ¬ ReflTransGen (Up s.parent) t new) (hsafe : ts.isGlobal t = false → ¬ s.UnderGlobal ts new) :
    ∃ s', s.replaceChild ts t old (some new) = .ok s' ∧ Kept ts s s' := by
  rw [replaceChild, if_pos hlabel]
  obtain ⟨s₁, hs₁, hkept, hparent⟩ := exists_removeChild h t old
  have hne : new ≠ old := by
    rintro rfl
    exact hlabel rfl
  have hnew : s₁.parent new = s.parent new := by
    rcases hparent with rfl | hparent
    · rfl
    · rw [hparent, update_of_ne hne]
  have habove₁ : ¬ ReflTransGen (Up s₁.parent) t new := by
    rcases hparent with rfl | hparent
    · exact habove
    · intro hab
      rw [hparent] at hab
      exact habove (above_of_setParent_none hab)
  have hsafe₁ : ts.isGlobal t = false → ¬ s₁.UnderGlobal ts new := by
    intro hg hunder
    unfold State.UnderGlobal at hunder
    rw [hnew] at hunder
    exact hsafe hg hunder
  obtain ⟨s', hs', hkept'⟩ := exists_attachTo hkept.wf habove₁ hsafe₁
  rw [hs₁]
  exact ⟨s', hs', hkept.trans hkept'⟩

/-! ## Runs -/

/-- The call puts no tracker below itself. -/
def Call.Legal (s : State ι) : Call ι → Prop
  | .attachTo t parent => ¬ ReflTransGen (Up s.parent) parent t
  | .attachToGlobalTracker t (some globalTracker) => ¬ ReflTransGen (Up s.parent) globalTracker t
  | .replaceChild t _ (some newChild) => ¬ ReflTransGen (Up s.parent) t newChild
  | _ => True

/-- No tracker goes from a global parent to an ordinary one, and only a child is replaced by one with its label, which
has no parent. -/
def Call.Safe (ts : Trackers ι) (s : State ι) : Call ι → Prop
  | .attachTo t parent => ts.isGlobal parent = false → ¬ s.UnderGlobal ts t
  | .replaceChild t oldChild (some newChild) =>
    (ts.label oldChild ≠ ts.label newChild → ts.isGlobal t = false → ¬ s.UnderGlobal ts newChild) ∧ (ts.label oldChild =
      ts.label newChild → s.parent newChild = none ∧ (ts.isGlobal t = true ∨ s.parent oldChild = some t))
  | _ => True

/-- What is consumed directly by a call is what becomes consumed without the children. -/
theorem exec_cases (h : Wf ts s) (call : Call ι) (hlegal : call.Legal s) (hsafe : call.Safe ts s) :
    (∃ s', call.exec ts s = .ok s' ∧ Wf ts s' ∧ ∀ u, s'.own u = s.own u + call.direct s u) ∨
      ∃ e, call.exec ts s = .error e ∧ e ≠ .loop := by
  have hkept : ∀ {r : Except Err (State ι)}, (∀ u, call.direct s u = 0) → (∃ s', r = .ok s' ∧ Kept ts s s') →
      ∃ s', r = .ok s' ∧ Wf ts s' ∧ ∀ u, s'.own u = s.own u + call.direct s u := by
    rintro r hdirect ⟨s', hs', hk⟩
    refine ⟨s', hs', hk.wf, fun u => ?_⟩
    rw [hk.own, hdirect, add_zero]
  cases call with
  | consume t bs =>
    obtain ⟨s', hs', hc⟩ := exists_consume h.forest t bs
    exact .inl ⟨s', hs', h.of_consumed hc, hc.own⟩
  | replaceBytesUsed t bytes =>
    obtain ⟨s', hs', hc⟩ := exists_consume h.forest t (bytes - s.bytesConsumed t)
    exact .inl ⟨s', hs', h.of_consumed hc, hc.own⟩
  | attachTo t parent => exact .inl (hkept (fun _ => rfl) (exists_attachTo h hlegal hsafe))
  | detach t => exact .inl (hkept (fun _ => rfl) (exists_detach h t))
  | replaceChild t old new =>
    cases new with
    | none =>
      obtain ⟨s', hs', hk, -⟩ := exists_removeChild h t old
      exact .inl (hkept (fun _ => rfl) ⟨s', hs', hk⟩)
    | some new =>
      refine .inl (hkept (fun _ => rfl) ?_)
      by_cases hlabel : ts.label old = ts.label new
      · obtain ⟨hnew, hold⟩ := hsafe.2 hlabel
        exact exists_replaceChild_same h hlabel hlegal hnew hold
      · exact exists_replaceChild_other h hlabel hlegal (hsafe.1 hlabel)
  | attachToGlobalTracker t g =>
    cases g with
    | none => exact .inl (hkept (fun _ => rfl) ⟨s, rfl, h, fun _ => rfl⟩)
    | some g =>
      cases hg : ts.isGlobal g with
      | true => exact .inl (hkept (fun _ => rfl) (exists_attachToGlobalTracker h hg hlegal))
      | false =>
        refine .inr ⟨.attachToNonGlobal, ?_, by decide⟩
        show s.attachToGlobalTracker ts t (some g) = _
        rw [attachToGlobalTracker, hg]
        rfl
  | detachFromGlobalTracker t =>
    cases hp : s.parent t with
    | none =>
      refine .inl (hkept (fun _ => rfl) ⟨s, ?_, h, fun _ => rfl⟩)
      show s.detachFromGlobalTracker ts t = _
      unfold detachFromGlobalTracker
      rw [hp]
    | some p =>
      cases hg : ts.isGlobal p with
      | true => exact .inl (hkept (fun _ => rfl) (exists_detachFromGlobalTracker h hp hg))
      | false =>
        refine .inr ⟨.detachFromNonGlobal, ?_, by decide⟩
        show s.detachFromGlobalTracker ts t = _
        unfold detachFromGlobalTracker
        rw [hp]
        dsimp only
        rw [hg]
        rfl

def SafeRun (ts : Trackers ι) (s : State ι) : List (Call ι) → Prop
  | [] => True
  | call :: calls =>
    call.Legal s ∧ call.Safe ts s ∧
      match call.exec ts s with
      | .ok s' => SafeRun ts s' calls
      | .error _ => SafeRun ts s calls

def Balanced (s : State ι) (direct : ι → BitVec 64) : Prop :=
  ∀ u, s.bytesConsumed u = direct u + ∑ c with s.parent c = some u, s.bytesConsumed c

theorem balanced_iff_own {direct : ι → BitVec 64} : Balanced s direct ↔ ∀ u, s.own u = direct u := by
  refine forall_congr' fun u => ?_
  unfold State.own Forest.own childSum
  rw [Finset.sum_filter, sub_eq_iff_eq_add]

theorem exists_run (calls : List (Call ι)) : ∀ {s : State ι} {direct : ι → BitVec 64}, Wf ts s → Balanced s direct →
    SafeRun ts s calls → ∃ s' direct', run ts s direct calls = some (s', direct') ∧ Wf ts s' ∧ Balanced s' direct' := by
  induction calls with
  | nil => exact fun h hb _ => ⟨_, _, rfl, h, hb⟩
  | cons call calls ih =>
    rintro s direct h hb ⟨hlegal, hsafe, hrest⟩
    rcases exec_cases h call hlegal hsafe with ⟨s', hs', hwf, hown⟩ | ⟨e, he, hne⟩
    · rw [hs'] at hrest
      have hb' : Balanced s' fun u => direct u + call.direct s u := by
        rw [balanced_iff_own] at hb ⊢
        intro u
        rw [hown, hb]
      rw [run, hs']
      exact ih hwf hb' hrest
    · rw [he] at hrest
      have hskip : run ts s direct (call :: calls) = run ts s direct calls := by
        rw [run, he]
        cases e with
        | loop => exact absurd rfl hne
        | _ => rfl
      rw [hskip]
      exact ih h hb hrest

/-- Over a run of safe calls the bytes of every tracker are those consumed directly on it and those of its children. -/
theorem run_balanced {direct : ι → BitVec 64} {calls : List (Call ι)} (h : Wf ts s) (hb : Balanced s direct)
    (hsafe : SafeRun ts s calls) : ∃ s' direct', run ts s direct calls = some (s', direct') ∧ Balanced s' direct' ∧
      ∀ u, (∀ c, s'.parent c ≠ some u) → s'.bytesConsumed u = direct' u := by
  obtain ⟨s', direct', hrun, -, hb'⟩ := exists_run calls h hb hsafe
  refine ⟨s', direct', hrun, hb', fun u hu => ?_⟩
  have hempty : Finset.univ.filter (fun c => s'.parent c = some u) = ∅ :=
    Finset.filter_eq_empty_iff.mpr fun c _ => hu c
  rw [hb' u, hempty, Finset.sum_empty, add_zero]

def newTrackers : State ι := ⟨fun _ => none, fun _ _ => [], fun _ => 0⟩

omit [DecidableEq ι] [Fintype ι] in
theorem not_up_newTrackers (a b : ι) : ¬ Up (newTrackers (ι := ι)).parent a b := nofun

omit [DecidableEq ι] [Fintype ι] in
theorem wf_newTrackers : Wf ts newTrackers := by
  refine ⟨?_, fun _ _ => nodup_nil, ?_, fun _ _ _ => rfl⟩
  · intro a ha
    obtain ⟨b, hab, -⟩ := Relation.TransGen.head'_iff.mp ha
    exact not_up_newTrackers a b hab
  · exact fun p _ c label => iff_of_false not_mem_nil fun h => by cases h.2

theorem balanced_newTrackers : Balanced (newTrackers (ι := ι)) fun _ => 0 := by
  intro u
  show (0 : BitVec 64) = 0 + ∑ c with _, 0
  rw [Finset.sum_const_zero, add_zero]

def threeTrackers : Trackers (Fin 3) := ⟨fun t => t, fun t => t == 0⟩

theorem run_balanced_detached : ∃ s' direct',
    run threeTrackers newTrackers (fun _ => 0) [.attachTo 2 1, .consume 2 8, .detach 2] = some (s', direct') ∧
      Balanced s' direct' ∧ ∀ u, (∀ c, s'.parent c ≠ some u) → s'.bytesConsumed u = direct' u := by
  refine run_balanced wf_newTrackers balanced_newTrackers ⟨?_, ?_, trivial, trivial, trivial, trivial, trivial⟩
  · intro h
    rcases Relation.ReflTransGen.cases_head h with heq | ⟨b, hb, -⟩
    · exact absurd heq (by decide)
    · exact not_up_newTrackers _ b hb
  · rintro - ⟨p, hp, -⟩
    cases hp

/-- A tracker goes from the global tracker to an ordinary one: the global one keeps its bytes. -/
theorem run_phantom_bytes : ∃ s' direct',
    run threeTrackers newTrackers (fun _ => 0) [.attachTo 2 0, .consume 2 8, .attachTo 2 1] = some (s', direct') ∧
      ¬ Balanced s' direct' ∧ (∀ c, s'.parent c ≠ some 0) ∧ direct' 0 = 0 ∧ s'.bytesConsumed 0 = 8 := by
  refine ⟨_, _, rfl, fun hb => ?_, ?_⟩
  · have h0 := hb 0
    revert h0
    decide +kernel
  · decide +kernel

end Memory
