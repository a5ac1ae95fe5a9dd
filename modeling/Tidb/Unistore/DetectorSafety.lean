import Tidb.Unistore.Detector
import Tidb.Lib.Digraph

/-!
# The wait-for graph has no cycle

A search that finds nothing has passed over every edge that the end of the new edge leads to and has removed the
expired ones among them, so that even the stored graph, expired edges included, does not lead back to the source.
-/

namespace Unistore

open UInt64

namespace Detector

open Relation Digraph List

def pairs (d : Detector) (txn : UInt64) : List TxnKeyHashPair := (d.waitForMap.find txn).getD []

def WaitsFor (d : Detector) (u v : UInt64) : Prop := ∃ p ∈ d.pairs u, p.txn = v

def WaitsForAt (d : Detector) (nowTime : ℤ) (u v : UInt64) : Prop :=
  ∃ p ∈ d.pairs u, p.isExpired d.entryTTL nowTime = false ∧ p.txn = v

def edgeCount (d : Detector) : ℕ := d.waitForMap.total length

def Counted (d : Detector) : Prop := d.totalSize = UInt64.ofNat d.edgeCount

def Path (d : Detector) (nowTime : ℤ) : UInt64 → List WaitForEntry → UInt64 → Prop
  | u, [], v => u = v
  | u, e :: es, v => ∃ p ∈ d.pairs u, p.isExpired d.entryTTL nowTime = false ∧
      e = p.waitForEntry u ∧ d.Path nowTime p.txn es v

abbrev live (ttl nowTime : ℤ) (l : List TxnKeyHashPair) : List TxnKeyHashPair :=
  l.filter fun p => !p.isExpired ttl nowTime

/-- `d'` is `d` without some entries that have expired. -/
structure Pruned (nowTime : ℤ) (d d' : Detector) : Prop where
  entryTTL : d'.entryTTL = d.entryTTL
  sublist : ∀ u, (d'.pairs u).Sublist (d.pairs u)
  live : ∀ u, live d.entryTTL nowTime (d'.pairs u) = live d.entryTTL nowTime (d.pairs u)
  counted : d.Counted → d'.Counted

/-! ## The lists of the map -/

section Lists

variable (d : Detector) (txn : UInt64) (txns : List TxnKeyHashPair)

@[simp] theorem pairs_totalSize (n : UInt64) (u : UInt64) :
    ({ d with totalSize := n } : Detector).pairs u = d.pairs u := rfl

@[simp] theorem pairs_setTxns_self : (d.setTxns txn txns).pairs txn = txns := by simp [pairs, setTxns]

theorem pairs_setTxns_of_ne {u : UInt64} (h : u ≠ txn) : (d.setTxns txn txns).pairs u = d.pairs u := by
  simp only [pairs, setTxns, SortedMap.find_insert_of_ne _ h]

@[simp] theorem pairs_delete_self : (d.delete txn).pairs txn = [] := by simp [pairs, delete]

theorem pairs_delete_of_ne {u : UInt64} (h : u ≠ txn) : (d.delete txn).pairs u = d.pairs u := by
  simp only [pairs, delete, SortedMap.find_erase_of_ne _ h]

theorem pairs_eq_of_find {txns : List TxnKeyHashPair} (h : d.waitForMap.find txn = some txns) : d.pairs txn = txns := by
  rw [pairs, h, Option.getD_some]

theorem elim_find : (d.waitForMap.find txn).elim 0 length = (d.pairs txn).length := by
  rw [pairs]
  cases d.waitForMap.find txn <;> rfl

theorem edgeCount_setTxns : (d.setTxns txn txns).edgeCount + (d.pairs txn).length = d.edgeCount + txns.length := by
  rw [← elim_find]
  exact SortedMap.total_insert length d.waitForMap txn txns

theorem edgeCount_delete : (d.delete txn).edgeCount + (d.pairs txn).length = d.edgeCount := by
  rw [← elim_find]
  exact SortedMap.total_erase length d.waitForMap txn

variable {d txn txns}

theorem pairs_deleteIfEmpty (h : d.pairs txn = txns) (u : UInt64) : (d.deleteIfEmpty txn txns).pairs u = d.pairs u := by
  rw [deleteIfEmpty]
  split
  next hnil =>
    by_cases hu : u = txn
    · rw [hu, pairs_delete_self, h, length_eq_zero_iff.mp hnil]
    · exact pairs_delete_of_ne d txn hu
  next => rfl

theorem edgeCount_deleteIfEmpty (h : d.pairs txn = txns) : (d.deleteIfEmpty txn txns).edgeCount = d.edgeCount := by
  rw [deleteIfEmpty]
  split
  next hnil =>
    have hcount := edgeCount_delete d txn
    rw [h, hnil] at hcount
    exact hcount
  next => rfl

@[simp] theorem entryTTL_deleteIfEmpty : (d.deleteIfEmpty txn txns).entryTTL = d.entryTTL := by
  rw [deleteIfEmpty]
  split <;> rfl

@[simp] theorem totalSize_deleteIfEmpty : (d.deleteIfEmpty txn txns).totalSize = d.totalSize := by
  rw [deleteIfEmpty]
  split <;> rfl

theorem Counted.shrink (hd : d.Counted) {k : ℕ} (hk : (d.pairs txn).length = txns.length + k) :
    Counted { d.setTxns txn txns with totalSize := d.totalSize - ofNat k } := by
  have hcount := edgeCount_setTxns d txn txns
  have hedges : d.edgeCount - k = (d.setTxns txn txns).edgeCount := by omega
  show d.totalSize - ofNat k = ofNat (d.setTxns txn txns).edgeCount
  rw [← hedges, ofNat_sub (by omega), hd]

theorem Counted.deleteIfEmpty (hd : d.Counted) (h : d.pairs txn = txns) : (d.deleteIfEmpty txn txns).Counted := by
  rw [Counted, totalSize_deleteIfEmpty, edgeCount_deleteIfEmpty h]
  exact hd

end Lists

/-! ## Pruning -/

variable {nowTime : ℤ} {sourceTxn : UInt64} {d d' d₁ : Detector}

theorem Pruned.refl (nowTime : ℤ) (d : Detector) : Pruned nowTime d d :=
  ⟨rfl, fun _ => List.Sublist.refl _, fun _ => rfl, id⟩

theorem Pruned.trans (h : Pruned nowTime d d₁) (h' : Pruned nowTime d₁ d') : Pruned nowTime d d' where
  entryTTL := h'.entryTTL.trans h.entryTTL
  sublist u := (h'.sublist u).trans (h.sublist u)
  live u := by
    have hlive := h'.live u
    rw [h.entryTTL] at hlive
    exact hlive.trans (h.live u)
  counted hd := h'.counted (h.counted hd)

theorem Pruned.mem_of_live (h : Pruned nowTime d d') {u : UInt64} {p : TxnKeyHashPair}
    (hp : p ∈ d.pairs u) (hlive : p.isExpired d.entryTTL nowTime = false) : p ∈ d'.pairs u := by
  have hmem : p ∈ Detector.live d.entryTTL nowTime (d.pairs u) := mem_filter.mpr ⟨hp, by rw [hlive]; rfl⟩
  rw [← h.live u] at hmem
  exact (mem_filter.mp hmem).1

theorem waitsFor_of_sublist (h : ∀ u, (d'.pairs u).Sublist (d.pairs u)) (u v : UInt64) :
    d'.WaitsFor u v → d.WaitsFor u v := by
  rintro ⟨p, hp, hv⟩
  exact ⟨p, (h u).mem hp, hv⟩

theorem Pruned.acyclic (h : Pruned nowTime d d') (hd : Acyclic d.WaitsFor) : Acyclic d'.WaitsFor :=
  hd.mono (waitsFor_of_sublist h.sublist)

variable {u v x txn : UInt64} {es : List WaitForEntry} {err : Option ErrDeadlock}

theorem Pruned.reach (h : Pruned nowTime d d') (hu : ReflTransGen d'.WaitsFor x u) : ReflTransGen d.WaitsFor x u :=
  ReflTransGen.mono (waitsFor_of_sublist h.sublist) x u hu

theorem Pruned.path (h : Pruned nowTime d d')
    (hpath : d'.Path nowTime u es v) : d.Path nowTime u es v := by
  induction es generalizing u with
  | nil => exact hpath
  | cons e es ih =>
    obtain ⟨p, hp, hlive, he, hrest⟩ := hpath
    rw [h.entryTTL] at hlive
    exact ⟨p, (h.sublist u).mem hp, hlive, he, ih hrest⟩

variable {txns : List TxnKeyHashPair}

theorem Pruned.setTxns {k : ℕ} (hsub : txns.Sublist (d.pairs txn)) (hk : (d.pairs txn).length = txns.length + k)
    (hlive : Detector.live d.entryTTL nowTime txns = Detector.live d.entryTTL nowTime (d.pairs txn)) :
    Pruned nowTime d { d.setTxns txn txns with totalSize := d.totalSize - ofNat k } where
  entryTTL := rfl
  sublist u := by
    rw [pairs_totalSize]
    by_cases hu : u = txn
    · rw [hu, pairs_setTxns_self]
      exact hsub
    · rw [pairs_setTxns_of_ne d txn txns hu]
  live u := by
    rw [pairs_totalSize]
    by_cases hu : u = txn
    · rw [hu, pairs_setTxns_self]
      exact hlive
    · rw [pairs_setTxns_of_ne d txn txns hu]
  counted hd := hd.shrink hk

variable {kept rest : List TxnKeyHashPair}

theorem Pruned.remove {p : TxnKeyHashPair}
    (hpairs : d.pairs txn = kept ++ p :: rest) (hp : p.isExpired d.entryTTL nowTime = true) :
    Pruned nowTime d (d.remove txn (kept ++ rest)) := by
  apply Pruned.setTxns (k := 1)
  · rw [hpairs]
    exact (sublist_cons_self p rest).append_left kept
  · rw [hpairs]
    simp only [length_append, length_cons]
    omega
  · rw [hpairs]
    simp [hp]

theorem Pruned.deleteIfEmpty (h : d.pairs txn = txns) :
    Pruned nowTime d (d.deleteIfEmpty txn txns) where
  entryTTL := entryTTL_deleteIfEmpty
  sublist u := by rw [pairs_deleteIfEmpty h]
  live u := by rw [pairs_deleteIfEmpty h]
  counted hd := hd.deleteIfEmpty h

/-! ## The search -/

/-- Every edge that `x` leads to is unexpired, and none of them ends at the source. -/
def Explored (d : Detector) (nowTime : ℤ) (sourceTxn x : UInt64) : Prop :=
  ∀ w p, ReflTransGen d.WaitsFor x w → p ∈ d.pairs w → p.isExpired d.entryTTL nowTime = false ∧ p.txn ≠ sourceTxn

theorem Explored.pruned (hx : d.Explored nowTime sourceTxn x) (h : Pruned nowTime d d') :
    d'.Explored nowTime sourceTxn x := by
  intro w p hw hp
  rw [h.entryTTL]
  exact hx w p (h.reach hw) ((h.sublist w).mem hp)

theorem Explored.not_reach (hx : d.Explored nowTime sourceTxn x) : ¬ TransGen d.WaitsFor x sourceTxn := by
  intro hreach
  obtain ⟨w, hw, p, hp, htxn⟩ := TransGen.tail'_iff.mp hreach
  exact (hx w p hw hp).2 htxn

theorem explored_of_pairs (h : ∀ p ∈ d.pairs x, p.isExpired d.entryTTL nowTime = false ∧ p.txn ≠ sourceTxn ∧
      d.Explored nowTime sourceTxn p.txn) : d.Explored nowTime sourceTxn x := by
  intro w p hw hp
  obtain rfl | ⟨y, ⟨q, hq, rfl⟩, hy⟩ := ReflTransGen.cases_head hw
  · exact ⟨(h p hp).1, (h p hp).2.1⟩
  · exact (h q hq).2.2 w p hy hp

/-- What a search from `x` returns, and what it may have done to the detector. -/
structure Searched (nowTime : ℤ) (sourceTxn x : UInt64) (d : Detector) (err : Option ErrDeadlock)
    (d' : Detector) : Prop where
  pruned : Pruned nowTime d d'
  frame : ∀ w, ¬ ReflTransGen d.WaitsFor x w → d'.pairs w = d.pairs w
  clear : err = none → d'.Explored nowTime sourceTxn x
  found : ∀ e, err = some e → e.waitChain ≠ [] ∧ d.Path nowTime x e.waitChain.reverse sourceTxn

def SearchesBelow (nowTime : ℤ) (sourceTxn : UInt64) (n : ℕ)
    (search : UInt64 → Detector → Option (Option ErrDeadlock × Detector)) : Prop :=
  ∀ d y, Acyclic d.WaitsFor → DepthLT d.WaitsFor n y →
    ∃ err d', search y d = some (err, d') ∧ Searched nowTime sourceTxn y d err d'

theorem Searched.of_pruned (h : Searched nowTime sourceTxn x d₁ err d') (hp : Pruned nowTime d d₁)
    (hframe : ∀ w, ¬ ReflTransGen d.WaitsFor x w → d₁.pairs w = d.pairs w) : Searched nowTime sourceTxn x d err d' where
  pruned := hp.trans h.pruned
  frame w hw := by
    rw [h.frame w fun hreach => hw (hp.reach hreach)]
    exact hframe w hw
  clear := h.clear
  found e he := ⟨(h.found e he).1, hp.path (h.found e he).2⟩

theorem doDetectLoop_spec {n : ℕ} {search : UInt64 → Detector → Option (Option ErrDeadlock × Detector)}
    (hsearch : SearchesBelow nowTime sourceTxn n search) (hd : Acyclic d.WaitsFor) (hpairs : d.pairs x = kept ++ rest)
    (hdepth : ∀ p ∈ rest, DepthLT d.WaitsFor n p.txn)
    (hkept : ∀ p ∈ kept, p.isExpired d.entryTTL nowTime = false ∧ p.txn ≠ sourceTxn ∧
      d.Explored nowTime sourceTxn p.txn) :
    ∃ err d', doDetectLoop search nowTime sourceTxn x kept rest d = some (err, d') ∧
      Searched nowTime sourceTxn x d err d' := by
  induction rest generalizing d kept with
  | nil =>
    rw [append_nil] at hpairs
    refine ⟨none, _, rfl, Pruned.deleteIfEmpty hpairs, fun w _ => pairs_deleteIfEmpty hpairs w, ?_,
      fun e he => by cases he⟩
    intro _
    apply Explored.pruned _ (Pruned.deleteIfEmpty hpairs)
    apply explored_of_pairs
    rw [hpairs]
    exact hkept
  | cons p rest ih =>
    have hmem : p ∈ d.pairs x := by
      rw [hpairs]
      exact mem_append_right _ mem_cons_self
    have hedge : d.WaitsFor x p.txn := ⟨p, hmem, rfl⟩
    rw [doDetectLoop]
    split_ifs with hexp hsource
    · -- the edge has expired and leaves the list
      have hpruned := Pruned.remove hpairs hexp
      have hframe : ∀ w, ¬ ReflTransGen d.WaitsFor x w → (d.remove x (kept ++ rest)).pairs w = d.pairs w := by
        intro w hw
        have hne : w ≠ x := fun heq => hw (heq ▸ .refl)
        exact pairs_setTxns_of_ne d x _ hne
      obtain ⟨err, d', heq, hres⟩ := ih (hpruned.acyclic hd) (pairs_setTxns_self d x _)
        (fun q hq => (hdepth q (mem_cons_of_mem p hq)).mono (waitsFor_of_sublist hpruned.sublist))
        (fun q hq => ⟨(hkept q hq).1, (hkept q hq).2.1, (hkept q hq).2.2.pruned hpruned⟩)
      exact ⟨err, d', heq, hres.of_pruned hpruned hframe⟩
    · -- the edge ends at the source
      refine ⟨_, d, rfl, Pruned.refl nowTime d, fun _ _ => rfl, (by simp), ?_⟩
      intro e he
      cases he
      exact ⟨cons_ne_nil _ _, p, hmem, by simpa using hexp, rfl, hsource⟩
    · -- the recursive call does not come back to `x`
      obtain ⟨err, d₁, heq, hres⟩ := hsearch d p.txn hd (hdepth p mem_cons_self)
      have hback : ¬ ReflTransGen d.WaitsFor p.txn x := fun h => hd x (.head' hedge h)
      have hframe : ∀ w, ¬ ReflTransGen d.WaitsFor x w → d₁.pairs w = d.pairs w :=
        fun w hw => hres.frame w fun h => hw (.head hedge h)
      rw [heq]
      cases err with
      | some e =>
        refine ⟨_, d₁, rfl, hres.pruned, hframe, (by simp), ?_⟩
        intro e' he'
        cases he'
        obtain ⟨-, hpath⟩ := hres.found e rfl
        refine ⟨by simp, ?_⟩
        rw [reverse_append]
        exact ⟨p, hmem, by simpa using hexp, rfl, hpath⟩
      | none =>
        have hpruned := hres.pruned
        have hlist : d₁.pairs x = (kept ++ [p]) ++ rest := by
          rw [hres.frame x hback, hpairs, append_assoc]
          rfl
        have hkept' : ∀ q ∈ kept ++ [p], q.isExpired d₁.entryTTL nowTime = false ∧ q.txn ≠ sourceTxn ∧
            d₁.Explored nowTime sourceTxn q.txn := by
          intro q hq
          rw [hpruned.entryTTL]
          rcases mem_append.mp hq with hq | hq
          · exact ⟨(hkept q hq).1, (hkept q hq).2.1, (hkept q hq).2.2.pruned hpruned⟩
          · rw [mem_singleton.mp hq]
            exact ⟨by simpa using hexp, hsource, hres.clear rfl⟩
        obtain ⟨err, d', heq', hres'⟩ := ih (hpruned.acyclic hd) hlist
          (fun q hq => (hdepth q (mem_cons_of_mem p hq)).mono (waitsFor_of_sublist hpruned.sublist)) hkept'
        exact ⟨err, d', heq', hres'.of_pruned hpruned hframe⟩

theorem doDetect_spec (nowTime : ℤ) (sourceTxn : UInt64) (n : ℕ) :
    SearchesBelow nowTime sourceTxn n (doDetect nowTime sourceTxn n) := by
  induction n with
  | zero => exact fun d y _ hdepth => absurd hdepth id
  | succ n ih =>
    intro d x hd hdepth
    rw [doDetect]
    cases hfind : d.waitForMap.find x with
    | none =>
      have hpairs : d.pairs x = [] := by rw [pairs, hfind, Option.getD_none]
      refine ⟨none, d, rfl, Pruned.refl nowTime d, fun _ _ => rfl, ?_, fun e he => by cases he⟩
      intro _
      apply explored_of_pairs
      simp [hpairs]
    | some txns =>
      have hpairs := pairs_eq_of_find d x hfind
      apply doDetectLoop_spec ih hd (by rw [hpairs, nil_append])
      · intro p hp
        exact hdepth p.txn ⟨p, hpairs ▸ hp, rfl⟩
      · exact fun p hp => absurd hp not_mem_nil

theorem doDetectLoop_mono {search search' : UInt64 → Detector → Option (Option ErrDeadlock × Detector)}
    (h : ∀ y d r, search y d = some r → search' y d = some r) {r : Option ErrDeadlock × Detector}
    (hr : doDetectLoop search nowTime sourceTxn x kept rest d = some r) :
    doDetectLoop search' nowTime sourceTxn x kept rest d = some r := by
  induction rest generalizing d kept with
  | nil => exact hr
  | cons p rest ih =>
    rw [doDetectLoop] at hr ⊢
    split_ifs at hr ⊢ with hexp hsource
    · exact ih hr
    · exact hr
    · cases hcall : search p.txn d with
      | none => rw [hcall] at hr; cases hr
      | some res =>
        rw [h _ _ _ hcall]
        rw [hcall] at hr
        obtain ⟨err, d₁⟩ := res
        cases err with
        | some e => exact hr
        | none => exact ih hr

theorem doDetect_mono {n m : ℕ} (hnm : n ≤ m) {r : Option ErrDeadlock × Detector}
    (hr : doDetect nowTime sourceTxn n x d = some r) : doDetect nowTime sourceTxn m x d = some r := by
  induction n generalizing m x d r with
  | zero => cases hr
  | succ n ih =>
    obtain ⟨m, rfl⟩ := Nat.exists_eq_add_one_of_ne_zero (show m ≠ 0 by omega)
    rw [doDetect] at hr ⊢
    cases hfind : d.waitForMap.find x with
    | none => rw [hfind] at hr; exact hr
    | some txns =>
      rw [hfind] at hr
      exact doDetectLoop_mono (fun y d r h => ih (by omega) h) hr

theorem depthLT_searchDepth (hd : Acyclic d.WaitsFor) (x : UInt64) : DepthLT d.WaitsFor d.searchDepth x := by
  apply hd.depthLT_of_sources (S := (d.waitForMap.entries.map Prod.fst).toFinset)
  · have hcard := toFinset_card_le (d.waitForMap.entries.map Prod.fst)
    rw [length_map] at hcard
    rw [searchDepth]
    omega
  · rintro y z - ⟨p, hp, -⟩
    rw [mem_toFinset]
    cases hfind : d.waitForMap.find y with
    | none => rw [pairs, hfind] at hp; cases hp
    | some l => exact mem_map.mpr ⟨(y, l), (SortedMap.find_eq_some _).mp hfind, rfl⟩

/-! ## Expiry -/

theorem expireLoop_eq (ttl nowTime : ℤ) (l : List TxnKeyHashPair) (n : UInt64) :
    expireLoop ttl nowTime l n = (live ttl nowTime l, n - ofNat (l.length - (live ttl nowTime l).length)) := by
  induction l generalizing n with
  | nil => simp [expireLoop]
  | cons p rest ih =>
    have hle := length_filter_le (fun p : TxnKeyHashPair => !p.isExpired ttl nowTime) rest
    rw [expireLoop]
    cases hp : p.isExpired ttl nowTime with
    | true =>
      have hfilter : live ttl nowTime (p :: rest) = live ttl nowTime rest := by simp [hp]
      rw [if_pos rfl, ih, hfilter, length_cons, Nat.add_comm, Nat.add_sub_assoc hle, ofNat_add]
      congr 1
      grind
    | false =>
      have hfilter : live ttl nowTime (p :: rest) = p :: live ttl nowTime rest := by simp [hp]
      rw [if_neg Bool.false_ne_true, ih, hfilter, length_cons, length_cons, Nat.add_sub_add_right]

theorem expireEntry_spec (h : d.pairs txn = txns) : Pruned nowTime d (expireEntry nowTime d (txn, txns)) ∧
    ∀ u, u ≠ txn → (expireEntry nowTime d (txn, txns)).pairs u = d.pairs u := by
  have hle : (live d.entryTTL nowTime txns).length ≤ txns.length := length_filter_le _ _
  simp only [expireEntry, expireLoop_eq]
  have hpruned := @Pruned.setTxns nowTime d txn (live d.entryTTL nowTime txns)
    (txns.length - (live d.entryTTL nowTime txns).length) (h ▸ filter_sublist) (by rw [h]; omega) (by rw [h]; simp)
  have hlist := pairs_setTxns_self d txn (live d.entryTTL nowTime txns)
  refine ⟨hpruned.trans (.deleteIfEmpty hlist), fun u hu => ?_⟩
  rw [pairs_deleteIfEmpty (by exact hlist)]
  exact pairs_setTxns_of_ne d txn _ hu

theorem foldl_expireEntry_spec {es : List (UInt64 × List TxnKeyHashPair)} (hes : SortedKeys es)
    (h : ∀ e ∈ es, d.pairs e.1 = e.2) : Pruned nowTime d (es.foldl (expireEntry nowTime) d) := by
  induction es generalizing d with
  | nil => exact Pruned.refl nowTime d
  | cons e es ih =>
    obtain ⟨he, hes⟩ := pairwise_cons.mp hes
    obtain ⟨hpruned, hframe⟩ := @expireEntry_spec nowTime d e.1 e.2 (h e mem_cons_self)
    apply hpruned.trans
    apply ih hes
    intro e' he'
    have hne : e'.1 ≠ e.1 := by
      intro heq
      have hlt := he e' he'
      rw [heq, Std.compare_self] at hlt
      cases hlt
    rw [hframe e'.1 hne]
    exact h e' (mem_cons_of_mem e he')

theorem activeExpire_spec (d : Detector) (nowTime : ℤ) : Pruned nowTime d (d.activeExpire nowTime) := by
  rw [activeExpire]
  split
  next =>
    have hfold : Pruned nowTime d (d.waitForMap.entries.foldl (expireEntry nowTime) d) := by
      apply foldl_expireEntry_spec d.waitForMap.sorted
      rintro ⟨txn, l⟩ he
      exact pairs_eq_of_find d txn ((SortedMap.find_eq_some _).mpr he)
    exact ⟨hfold.entryTTL, hfold.sublist, hfold.live, hfold.counted⟩
  next => exact Pruned.refl nowTime d

/-! ## Registration and clean-up -/

def IsRegistered (d : Detector) (txn waitForTxn keyHash : UInt64) : Prop :=
  ∃ p ∈ d.pairs txn, p.txn = waitForTxn ∧ p.keyHash = keyHash

def Registered (d : Detector) (txn : UInt64) (p : TxnKeyHashPair) (d' : Detector) : Prop :=
  d'.pairs txn = d.pairs txn ++ [p] ∧ ∀ u, u ≠ txn → d'.pairs u = d.pairs u

section Register

variable {registerTime : ℤ} {waitForTxn keyHash : UInt64} {diagCtx : DiagnosticContext}

theorem register_of_isRegistered (h : d.IsRegistered sourceTxn waitForTxn keyHash) :
    d.register registerTime sourceTxn waitForTxn keyHash diagCtx = d := by
  obtain ⟨p, hp, htxn, hhash⟩ := h
  rw [register]
  cases hfind : d.waitForMap.find sourceTxn with
  | none => rw [pairs, hfind] at hp; cases hp
  | some l =>
    have hmem : p ∈ l := by rwa [pairs_eq_of_find d sourceTxn hfind] at hp
    have hany : (l.any fun q => q.txn = waitForTxn ∧ q.keyHash = keyHash) = true :=
      any_eq_true.mpr ⟨p, hmem, by simp [htxn, hhash]⟩
    exact if_pos hany

theorem register_eq (h : ¬ d.IsRegistered sourceTxn waitForTxn keyHash) :
    d.register registerTime sourceTxn waitForTxn keyHash diagCtx
      = { d.setTxns sourceTxn (d.pairs sourceTxn ++ [⟨waitForTxn, keyHash, registerTime, diagCtx⟩]) with
          totalSize := d.totalSize + 1 } := by
  rw [register, pairs]
  cases hfind : d.waitForMap.find sourceTxn with
  | none => rfl
  | some l =>
    have hany : (l.any fun q => q.txn = waitForTxn ∧ q.keyHash = keyHash) = false := by
      apply Bool.eq_false_iff.mpr
      intro hany
      obtain ⟨p, hp, hq⟩ := any_eq_true.mp hany
      exact h ⟨p, (pairs_eq_of_find d sourceTxn hfind) ▸ hp, by simpa using hq⟩
    simp only [hany]
    rfl

theorem registered_register (h : ¬ d.IsRegistered sourceTxn waitForTxn keyHash) :
    d.Registered sourceTxn ⟨waitForTxn, keyHash, registerTime, diagCtx⟩
      (d.register registerTime sourceTxn waitForTxn keyHash diagCtx) := by
  rw [register_eq h]
  exact ⟨pairs_setTxns_self d sourceTxn _, fun u hu => pairs_setTxns_of_ne d sourceTxn _ hu⟩

theorem Counted.register (hd : d.Counted) : (d.register registerTime sourceTxn waitForTxn keyHash diagCtx).Counted := by
  by_cases h : d.IsRegistered sourceTxn waitForTxn keyHash
  · rw [register_of_isRegistered h]
    exact hd
  · rw [register_eq h]
    have hcount := edgeCount_setTxns d sourceTxn (d.pairs sourceTxn ++ [⟨waitForTxn, keyHash, registerTime, diagCtx⟩])
    rw [length_append, length_singleton] at hcount
    show d.totalSize + 1 = ofNat (d.setTxns sourceTxn _).edgeCount
    have hedges : (d.setTxns sourceTxn (d.pairs sourceTxn ++
        [⟨waitForTxn, keyHash, registerTime, diagCtx⟩])).edgeCount = d.edgeCount + 1 := by omega
    rw [hedges, ofNat_add, hd]
    rfl

theorem waitsFor_register (h : (d.register registerTime sourceTxn waitForTxn keyHash diagCtx).WaitsFor u v) :
    addEdge d.WaitsFor sourceTxn waitForTxn u v := by
  by_cases hreg : d.IsRegistered sourceTxn waitForTxn keyHash
  · rw [register_of_isRegistered hreg] at h
    exact .inl h
  · obtain ⟨p, hp, hv⟩ := h
    obtain ⟨hself, hother⟩ := registered_register hreg
    by_cases hu : u = sourceTxn
    · rw [hu, hself] at hp
      rcases mem_append.mp hp with hp | hp
      · exact .inl ⟨p, hu ▸ hp, hv⟩
      · rw [mem_singleton.mp hp] at hv
        exact .inr ⟨hu, hv.symm⟩
    · rw [hother u hu] at hp
      exact .inl ⟨p, hp, hv⟩

theorem Searched.acyclic_register (h : Searched nowTime sourceTxn waitForTxn d none d')
    (hd : Acyclic d.WaitsFor) (hne : sourceTxn ≠ waitForTxn) :
    Acyclic (d'.register registerTime sourceTxn waitForTxn keyHash diagCtx).WaitsFor := by
  have hback : ¬ ReflTransGen d'.WaitsFor waitForTxn sourceTxn := by
    intro hreach
    rcases reflTransGen_iff_eq_or_transGen.mp hreach with heq | htrans
    · exact hne heq
    · exact (h.clear rfl).not_reach htrans
  exact ((h.pruned.acyclic hd).addEdge hback).mono fun _ _ => waitsFor_register

end Register

theorem pairs_cleanUp_sublist (d : Detector) (txn u : UInt64) : ((d.cleanUp txn).pairs u).Sublist (d.pairs u) := by
  have hpairs : (d.cleanUp txn).pairs u = (d.delete txn).pairs u := by
    rw [cleanUp]
    split <;> rfl
  rw [hpairs]
  by_cases hu : u = txn
  · rw [hu, pairs_delete_self]
    exact nil_sublist _
  · rw [pairs_delete_of_ne d txn hu]

theorem Counted.cleanUp (hd : d.Counted) (txn : UInt64) : (d.cleanUp txn).Counted := by
  have hcount := edgeCount_delete d txn
  rw [Detector.cleanUp]
  split
  next hfind =>
    rw [pairs, hfind, Option.getD_none, length_nil] at hcount
    show d.totalSize = ofNat (d.delete txn).edgeCount
    rw [hd, ← hcount, Nat.add_zero]
  next l hfind =>
    rw [pairs_eq_of_find d txn hfind] at hcount
    show d.totalSize - ofNat l.length = ofNat (d.delete txn).edgeCount
    rw [hd, ← ofNat_sub (by omega)]
    congr 1
    omega

theorem cleanUpWaitFor_spec (d : Detector) (txn waitForTxn keyHash : UInt64) :
    (∀ u, ((d.cleanUpWaitFor txn waitForTxn keyHash).pairs u).Sublist (d.pairs u)) ∧
      (d.Counted → (d.cleanUpWaitFor txn waitForTxn keyHash).Counted) := by
  rw [cleanUpWaitFor]
  cases hfind : d.waitForMap.find txn with
  | none => exact ⟨fun u => List.Sublist.refl _, id⟩
  | some l =>
    have hpairs := pairs_eq_of_find d txn hfind
    dsimp only
    generalize hentry : (fun p : TxnKeyHashPair => decide (p.txn = waitForTxn ∧ p.keyHash = keyHash)) = isEntry
    split_ifs with hany
    · have hlist : (d.remove txn (l.eraseP isEntry)).pairs txn = l.eraseP isEntry :=
        pairs_setTxns_self d txn _
      obtain ⟨p, hp, hpe⟩ := any_eq_true.mp hany
      have hlen := length_eraseP_of_mem hp hpe
      have hpos := length_pos_of_mem hp
      constructor
      · intro u
        rw [pairs_deleteIfEmpty hlist]
        by_cases hu : u = txn
        · rw [hu, hlist, hpairs]
          exact eraseP_sublist
        · rw [show (d.remove txn (l.eraseP isEntry)).pairs u = d.pairs u from pairs_setTxns_of_ne d txn _ hu]
      · intro hd
        apply Counted.deleteIfEmpty _ hlist
        apply Counted.shrink (k := 1) hd
        rw [hpairs]
        omega
    · -- no entry of the list is meant
      have hsame : l.eraseP isEntry = l := by
        apply eraseP_of_forall_not
        intro p hp hpe
        exact hany (any_eq_true.mpr ⟨p, hp, hpe⟩)
      rw [hsame]
      exact ⟨fun u => by rw [pairs_deleteIfEmpty hpairs], fun hd => hd.deleteIfEmpty hpairs⟩

/-! ## Runs -/

inductive Reachable : Detector → Prop
  | new (ttl : ℤ) (urgentSize : UInt64) (expireInterval nowTime : ℤ) :
      Reachable (newDetector ttl urgentSize expireInterval nowTime)
  | detect {d d' : Detector} {err : Option ErrDeadlock} (nowTime registerTime : ℤ)
      {sourceTxn waitForTxn : UInt64} (keyHash : UInt64) (diagCtx : DiagnosticContext) :
      Reachable d → sourceTxn ≠ waitForTxn →
      d.detect nowTime registerTime sourceTxn waitForTxn keyHash diagCtx = some (err, d') → Reachable d'
  | cleanUp {d : Detector} (txn : UInt64) : Reachable d → Reachable (d.cleanUp txn)
  | cleanUpWaitFor {d : Detector} (txn waitForTxn keyHash : UInt64) :
      Reachable d → Reachable (d.cleanUpWaitFor txn waitForTxn keyHash)
  | activeExpire {d : Detector} (nowTime : ℤ) : Reachable d → Reachable (d.activeExpire nowTime)

theorem detect_search (hd : Acyclic d.WaitsFor) (nowTime : ℤ) (sourceTxn waitForTxn : UInt64) :
    ∃ err d', (d.activeExpire nowTime).doDetect nowTime sourceTxn (d.activeExpire nowTime).searchDepth
        waitForTxn = some (err, d') ∧ Searched nowTime sourceTxn waitForTxn (d.activeExpire nowTime) err d' :=
  have hacyclic := (activeExpire_spec d nowTime).acyclic hd
  doDetect_spec nowTime sourceTxn _ _ waitForTxn hacyclic (depthLT_searchDepth hacyclic waitForTxn)

theorem Reachable.invariant (h : Reachable d) : Acyclic d.WaitsFor ∧ d.Counted := by
  induction h with
  | new ttl urgentSize expireInterval nowTime =>
    constructor
    · intro x hx
      obtain ⟨y, ⟨p, hp, -⟩, -⟩ := TransGen.head'_iff.mp hx
      cases hp
    · rfl
  | @detect d d' err nowTime registerTime sourceTxn waitForTxn keyHash diagCtx _ hne heq ih =>
    obtain ⟨hacyclic, hcounted⟩ := ih
    have hexpire := activeExpire_spec d nowTime
    obtain ⟨err', d₁, hsearch, hres⟩ := detect_search hacyclic nowTime sourceTxn waitForTxn
    simp only [Detector.detect, hsearch] at heq
    cases err' with
    | none =>
      cases heq
      exact ⟨hres.acyclic_register (hexpire.acyclic hacyclic) hne,
        (hres.pruned.counted (hexpire.counted hcounted)).register⟩
    | some e =>
      cases heq
      exact ⟨hres.pruned.acyclic (hexpire.acyclic hacyclic), hres.pruned.counted (hexpire.counted hcounted)⟩
  | @cleanUp d txn _ ih => exact ⟨ih.1.mono (waitsFor_of_sublist (d.pairs_cleanUp_sublist txn)), ih.2.cleanUp txn⟩
  | @cleanUpWaitFor d txn waitForTxn keyHash _ ih =>
    obtain ⟨hsub, hcount⟩ := d.cleanUpWaitFor_spec txn waitForTxn keyHash
    exact ⟨ih.1.mono (waitsFor_of_sublist hsub), hcount ih.2⟩
  | @activeExpire d nowTime _ ih =>
    have hexpire := activeExpire_spec d nowTime
    exact ⟨hexpire.acyclic ih.1, hexpire.counted ih.2⟩

theorem Path.transGen (h : d.Path nowTime u es v) (hne : u ≠ v) :
    TransGen (d.WaitsForAt nowTime) u v := by
  induction es generalizing u with
  | nil => exact absurd h hne
  | cons e es ih =>
    obtain ⟨p, hp, hlive, -, hrest⟩ := h
    have hedge : d.WaitsForAt nowTime u p.txn := ⟨p, hp, hlive, rfl⟩
    by_cases hv : p.txn = v
    · exact .single (hv ▸ hedge)
    · exact .head hedge (ih hrest hv)

/-- Unexpired edges outlive the search, so a search that found nothing has not missed a path. -/
theorem Searched.not_transGen (h : Searched nowTime sourceTxn x d₁ none d')
    (hp : Pruned nowTime d d₁) : ¬ TransGen (d.WaitsForAt nowTime) x sourceTxn := by
  intro hreach
  apply (h.clear rfl).not_reach
  apply TransGen.mono _ _ _ hreach
  rintro u v ⟨p, hmem, hlive, hv⟩
  exact ⟨p, (hp.trans h.pruned).mem_of_live hmem hlive, hv⟩

/-- What `detect` does once the search has left `d₁`. -/
structure Detected (nowTime registerTime : ℤ) (sourceTxn waitForTxn keyHash : UInt64) (diagCtx : DiagnosticContext)
    (d d₁ d' : Detector) (err : Option ErrDeadlock) : Prop where
  pruned : Pruned nowTime d d₁
  deadlock_iff : err.isSome ↔ TransGen (d.WaitsForAt nowTime) waitForTxn sourceTxn
  chain : ∀ e, err = some e → d' = d₁ ∧ ∃ path,
    e.waitChain = path ++ [⟨sourceTxn, diagCtx.key, keyHash, diagCtx.resourceGroupTag, waitForTxn⟩] ∧
      d.Path nowTime waitForTxn path sourceTxn
  known : err = none → d₁.IsRegistered sourceTxn waitForTxn keyHash → d' = d₁
  stored : err = none → ¬ d₁.IsRegistered sourceTxn waitForTxn keyHash →
    d₁.Registered sourceTxn ⟨waitForTxn, keyHash, registerTime, diagCtx⟩ d'

/-- The graph has no cycle, and its size bounds the depth of a search. `detect` reports a deadlock exactly where
unexpired edges lead back to the source; expired entries apart it then changes nothing, and otherwise stores the entry.
-/
theorem Reachable.detect_correct (h : Reachable d) :
    Acyclic d.WaitsFor ∧ d.totalSize = ofNat d.edgeCount ∧
    (∀ nowTime sourceTxn x, ∃ r, ∀ depth, d.searchDepth ≤ depth → d.doDetect nowTime sourceTxn depth x = some r) ∧
    ∀ nowTime registerTime sourceTxn waitForTxn keyHash diagCtx, sourceTxn ≠ waitForTxn →
      ∃ err d₁ d', d.detect nowTime registerTime sourceTxn waitForTxn keyHash diagCtx = some (err, d') ∧
        Detected nowTime registerTime sourceTxn waitForTxn keyHash diagCtx d d₁ d' err := by
  obtain ⟨hacyclic, hcounted⟩ := h.invariant
  refine ⟨hacyclic, hcounted, fun nowTime sourceTxn x => ?_, ?_⟩
  · obtain ⟨err, d', heq, -⟩ := doDetect_spec nowTime sourceTxn _ d x hacyclic (depthLT_searchDepth hacyclic x)
    exact ⟨(err, d'), fun depth hdepth => doDetect_mono hdepth heq⟩
  intro nowTime registerTime sourceTxn waitForTxn keyHash diagCtx hne
  have hexpire := activeExpire_spec d nowTime
  obtain ⟨err, d₁, hsearch, hres⟩ := detect_search hacyclic nowTime sourceTxn waitForTxn
  have hpruned := hexpire.trans hres.pruned
  simp only [Detector.detect, hsearch]
  cases err with
  | none =>
    refine ⟨none, d₁, _, rfl, hpruned, iff_of_false Bool.false_ne_true (hres.not_transGen hexpire), ?_,
      fun _ => register_of_isRegistered, fun _ => registered_register⟩
    intro e he
    cases he
  | some e =>
    have hpath := hexpire.path (hres.found e rfl).2
    refine ⟨some _, d₁, d₁, rfl, hpruned, iff_of_true rfl (hpath.transGen hne.symm), ?_, (by simp), by simp⟩
    rintro e' ⟨⟩
    exact ⟨rfl, e.waitChain.reverse, rfl, hpath⟩

/-- 1 waits for 2 and 2 for 3, so 3 must not wait for 1. -/
theorem detect_correct_three :
    let d := ((newDetector 100 10 10 0).register 1 1 2 7 ⟨[], []⟩).register 2 2 3 8 ⟨[], []⟩
    Reachable d ∧ d.WaitsForAt 3 1 2 ∧ d.WaitsForAt 3 2 3 ∧
      ∃ e d', d.detect 3 3 3 1 9 ⟨[], []⟩ = some (some e, d') := by
  intro d
  have hd : Reachable d := .detect 2 2 8 ⟨[], []⟩
    (.detect 1 1 7 ⟨[], []⟩ (.new 100 10 10 0) (show (1 : UInt64) ≠ 2 by decide) rfl)
    (show (2 : UInt64) ≠ 3 by decide) rfl
  have hfirst : d.WaitsForAt 3 1 2 := ⟨⟨2, 7, 1, ⟨[], []⟩⟩, by decide, rfl, rfl⟩
  have hsecond : d.WaitsForAt 3 2 3 := ⟨⟨3, 8, 2, ⟨[], []⟩⟩, by decide, rfl, rfl⟩
  obtain ⟨err, d₁, d', heq, hres⟩ := hd.detect_correct.2.2.2 3 3 3 1 9 ⟨[], []⟩ (by decide)
  obtain ⟨e, rfl⟩ := Option.isSome_iff_exists.mp (hres.deadlock_iff.mpr (.tail (.single hfirst) hsecond))
  exact ⟨hd, hfirst, hsecond, e, d', heq⟩

end Detector

end Unistore
