import PtrAnalysis.Hvn
import PtrAnalysis.Lib.Tarjan

/-!
# The offline search finds the components

`hvnDfs` is followed by a `Search` of the offline graph as it was built. A node keeps its
low number in `dfsId`; nodes are merged only when their component is complete, by rank, so
the node that stands for a component need not be the one where the search entered it. When a
component is labelled, everything its edges lead to outside is labelled already.

The labelling is a parameter here: with `checkedLabel` the search fails where a neighbour
has no labels yet.
-/

namespace PtrAnalysis

open Run Relation PtrAnalysis.Search

/-- A labelling of the node that stands for a complete component. -/
abbrev Labelling := OffGraph → Nat → Run OffGraph

def labelOf (doUnion : Bool) : Labelling := if doUnion then huLabel else hvnLabel

/-- The search with any labelling. -/
def hvnDfsWith (label : Labelling) : Nat → OffGraph → Nat → Run OffGraph
  | 0, _, _ => .error .fuel
  | fuel + 1, o, n => do
      require (n ≠ 0) "n"
      require (¬ (o.nodes n).sccRoot ∧ o.isRep n) "!N->scc_root && N->is_rep()"
      let ourDfs := o.currDfs
      let o := { o with currDfs := ourDfs + 1 }.modify n fun N => { N with dfsId := ourDfs }
      let o ← (ascending (o.nodes n).edges).foldlM (hvnCheckEdge (hvnDfsWith label fuel) n) o
      let o ← (ascending (o.nodes n).implEdges).foldlM (hvnCheckEdge (hvnDfsWith label fuel) n) o
      require (o.isRep n) "N->is_rep()"
      if (o.nodes n).dfsId = ourDfs then
        let (o, n) ← hvnPop ourDfs o.dfsStk o n
        require (n ≠ 0) "n"
        label (o.modify n fun N => { N with sccRoot := true }) n
      else
        return { o with dfsStk := n :: o.dfsStk }

theorem hvnDfs_eq (doUnion : Bool) (fuel : Nat) :
    hvnDfs doUnion fuel = hvnDfsWith (labelOf doUnion) fuel := by
  induction fuel with
  | zero => rfl
  | succ fuel ih =>
      funext o n
      rw [hvnDfs, hvnDfsWith, ih]
      cases doUnion <;> rfl

def hvnSearchWith (label : Labelling) (o : OffGraph) : Run OffGraph := do
  let o ← (List.range' firstAFP (o.firstREF + o.nREF - firstAFP)).foldlM (fun o i =>
    if (o.nodes i).dfsId = 0 then hvnDfsWith label (o.size + 1) o i else .ok o)
    { o with currDfs := 1, lbl2pe := [] }
  require (o.dfsStk = []) "dfs_stk.empty()"
  return o

theorem hvnSearch_eq (doUnion : Bool) (o : OffGraph) :
    hvnSearch doUnion o = hvnSearchWith (labelOf doUnion) o := by
  simp only [hvnSearch, hvnSearchWith, hvnDfs_eq]

/-- Every neighbour outside the component that `n` stands for has labels. -/
def Labelled (o : OffGraph) (n : Nat) : Prop :=
  ∀ d ∈ (o.nodes n).edges ∪ (o.nodes n).implEdges, o.rep d = n ∨ (o.nodes (o.rep d)).ptrEq ≠ ∅

instance (o : OffGraph) (n : Nat) : Decidable (Labelled o n) := by
  unfold Labelled
  infer_instance

def checkedLabel (label : Labelling) : Labelling := fun o n => do
  require (Labelled o n) "unlabeled neighbor"
  label o n

/-! ## Labelling a component -/

/-- Only labels differ, and in the nodes only those of `n`. -/
structure Relabelled (o : OffGraph) (n : Nat) (o' : OffGraph) : Prop where
  size : o'.size = o.size
  forest : o'.forest = o.forest
  clock : o'.currDfs = o.currDfs
  stk : o'.dfsStk = o.dfsStk
  node : ∀ x, o'.nodes x = { o.nodes x with ptrEq := (o'.nodes x).ptrEq }
  other : ∀ x, x ≠ n → o'.nodes x = o.nodes x

namespace Relabelled

variable {o o' o'' : OffGraph} {n : Nat}

theorem refl (o : OffGraph) (n : Nat) : Relabelled o n o :=
  ⟨rfl, rfl, rfl, rfl, fun _ => rfl, fun _ _ => rfl⟩

theorem trans (h : Relabelled o n o') (h' : Relabelled o' n o'') : Relabelled o n o'' :=
  ⟨h'.size.trans h.size, h'.forest.trans h.forest, h'.clock.trans h.clock, h'.stk.trans h.stk,
    fun x => by rw [h'.node x, h.node x], fun x hx => (h'.other x hx).trans (h.other x hx)⟩

theorem setLabels (o : OffGraph) (n : Nat) (pe : Finset Nat) :
    Relabelled o n (PtrAnalysis.setLabels o n pe) where
  size := rfl
  forest := rfl
  clock := rfl
  stk := rfl
  node x := by
    unfold PtrAnalysis.setLabels OffGraph.modify
    dsimp only
    rw [Function.update_apply]
    split
    · rename_i hx
      rw [hx]
    · rfl
  other x hx := Function.update_of_ne hx ..

theorem counters (h : Relabelled o n o') (k : Nat) (l : List (Finset Nat × Nat)) :
    Relabelled o n { o' with nextPtrEq := k, lbl2pe := l } :=
  ⟨h.size, h.forest, h.clock, h.stk, h.node, h.other⟩

theorem edges (h : Relabelled o n o') (x : Nat) :
    (o'.nodes x).edges = (o.nodes x).edges ∧ (o'.nodes x).implEdges = (o.nodes x).implEdges ∧
      (o'.nodes x).dfsId = (o.nodes x).dfsId ∧ (o'.nodes x).sccRoot = (o.nodes x).sccRoot := by
  rw [h.node x]
  exact ⟨rfl, rfl, rfl, rfl⟩

theorem rep (h : Relabelled o n o') : o'.rep = o.rep := by
  funext x
  rw [OffGraph.rep, h.forest]
  rfl

end Relabelled

theorem setLabels_ptrEq (o : OffGraph) (n : Nat) (pe : Finset Nat) :
    ((setLabels o n pe).nodes n).ptrEq = pe := by
  simp [setLabels, OffGraph.modify]

/-- Collecting labels from labelled neighbours only adds to those of `n`. -/
theorem collectLabels_spec {o : OffGraph} {n : Nat} (h : Labelled o n) :
    Spec ((ascending (o.nodes n).edges).foldlM (collectLabels n) o)
      (fun o' => Relabelled o n o' ∧ (o.nodes n).ptrEq ⊆ (o'.nodes n).ptrEq) fun _ => False := by
  refine spec_foldlM_keeps ⟨.refl o n, Finset.Subset.refl _⟩ fun d hd o1 h1 => ?_
  obtain ⟨hrel, hsub⟩ := h1
  have hrep : o1.rep d = o.rep d := congrFun hrel.rep d
  unfold collectLabels
  dsimp only
  split
  · exact ⟨hrel, hsub⟩
  · rename_i hne
    rw [hrep] at hne ⊢
    have hlab := (h d (Finset.mem_union_left _ (mem_ascending.mp hd))).resolve_left hne
    rw [hrel.other _ hne]
    refine spec_require (fun hp => (hp hlab).elim) fun _ => ?_
    change Spec (.ok (if _ then _ else _)) _ _
    refine spec_ok ?_
    split
    · exact ⟨hrel, hsub⟩
    · refine ⟨hrel.trans (.setLabels o1 n ((o1.nodes n).ptrEq ∪ (o.nodes (o.rep d)).ptrEq)),
        hsub.trans ?_⟩
      simp [OffGraph.modify]

/-- What a labelling has to do: keep everything but the labels of its node, and give that
one labels that are `Good`. -/
def LabelsWell (Good : Finset Nat → Prop) (label : Labelling) : Prop :=
  ∀ {o n}, o.isRep n = true → (o.nodes n).sccRoot = true → Labelled o n →
    Spec (label o n) (fun o' => Relabelled o n o' ∧ Good (o'.nodes n).ptrEq) fun _ => False

theorem hvnLabel_labels : LabelsWell (fun pe => pe.card = 1) hvnLabel := by
  intro o n hrep hroot h
  unfold hvnLabel
  refine spec_require (fun hp => (hp ⟨hrep, hroot⟩).elim) fun _ => ?_
  split
  · refine ⟨(Relabelled.setLabels o n {o.nextPtrEq}).counters _ _, ?_⟩
    exact (congrArg Finset.card (setLabels_ptrEq o n _)).trans (Finset.card_singleton _)
  · refine (collectLabels_spec h).bind fun o1 h1 => ?_
    obtain ⟨hrel, -⟩ := h1
    have hone (l : Nat) : ((setLabels o1 n {l}).nodes n).ptrEq.card = 1 :=
      (congrArg Finset.card (setLabels_ptrEq o1 n _)).trans (Finset.card_singleton _)
    have hset (l : Nat) : Relabelled o n (setLabels o1 n {l}) := hrel.trans (.setLabels ..)
    dsimp only
    split
    · exact ⟨hset 0, hone 0⟩
    · split
      · rename_i hcard
        exact ⟨hrel, hcard⟩
      · split
        · rename_i l _
          exact ⟨hset l, hone l⟩
        · exact ⟨(hset o1.nextPtrEq).counters _ _, hone _⟩

theorem huLabel_labels : LabelsWell (· ≠ ∅) huLabel := by
  intro o n hrep hroot h
  unfold huLabel
  refine spec_require (fun hp => (hp ⟨hrep, hroot⟩).elim) fun _ => ?_
  obtain ⟨o1, ho1⟩ : ∃ o1, (if (o.nodes n).indirect = true then
      { o.modify n fun N => { N with ptrEq := insert o.nextPtrEq N.ptrEq } with
        nextPtrEq := o.nextPtrEq + 1 }
    else o) = o1 := ⟨_, rfl⟩
  dsimp only
  rw [ho1]
  have hrel : Relabelled o n o1 := by
    rw [← ho1]
    split
    · exact (Relabelled.setLabels o n (insert o.nextPtrEq (o.nodes n).ptrEq)).counters _ o.lbl2pe
    · exact .refl o n
  have hlab : Labelled o1 n := by
    intro d hd
    rw [(hrel.edges n).1, (hrel.edges n).2.1] at hd
    rw [hrel.rep]
    by_cases hdn : o.rep d = n
    · exact .inl hdn
    · rw [hrel.other _ hdn]
      exact h d hd
  refine (collectLabels_spec hlab).bind fun o2 h2 => ?_
  refine spec_ok ?_
  split
  · refine ⟨(hrel.trans h2.1).trans (.setLabels ..), ?_⟩
    rw [setLabels_ptrEq]
    exact Finset.singleton_ne_empty 0
  · rename_i hne
    exact ⟨hrel.trans h2.1, hne⟩

theorem LabelsWell.checked {Good : Finset Nat → Prop} {label : Labelling}
    (h : LabelsWell Good label) : LabelsWell Good (checkedLabel label) := by
  intro o n hrep hroot hlab
  unfold checkedLabel
  exact spec_require (fun hp => (hp hlab).elim) fun _ => h hrep hroot hlab

/-! ## The graph that is searched -/

namespace OffGraph

/-- An edge of either kind. -/
def Succ (g : OffGraph) (u v : Nat) : Prop := v ∈ (g.nodes u).edges ∨ v ∈ (g.nodes u).implEdges

/-- A node that the search may visit. -/
def Valid (g : OffGraph) (n : Nat) : Prop := n ≠ 0 ∧ n < g.size

/-- Two nodes are the same or in one component that the search completed. -/
def Merged (g : OffGraph) (T : Search Nat) (x y : Nat) : Prop :=
  x = y ∨ (x ∈ T.done ∧ y ∈ T.done) ∧ Mutual g.Succ x y

/-- Only the numbers of the search differ. -/
structure SameLabels (o o' : OffGraph) : Prop where
  forest : o'.forest = o.forest
  node : ∀ x, o'.nodes x =
    { o.nodes x with dfsId := (o'.nodes x).dfsId, sccRoot := (o'.nodes x).sccRoot }
  main2off : o'.main2off = o.main2off
  lbl2pe : o'.lbl2pe = o.lbl2pe
  nextPtrEq : o'.nextPtrEq = o.nextPtrEq

theorem SameLabels.setDfsId (o : OffGraph) (n k c : Nat) :
    SameLabels o ({ o with currDfs := c }.modify n fun N => { N with dfsId := k }) := by
  refine ⟨rfl, fun x => ?_, rfl, rfl, rfl⟩
  simp only [modify, Function.update_apply]
  split
  · rename_i hx
    rw [hx]
  · rfl

end OffGraph

/-- What a property `I` of the labels needs to be kept by a search of `g`; `D` are the nodes whose
component is complete. -/
structure LabelRules (g : OffGraph) (label : Labelling) (I : Set Nat → OffGraph → Prop) : Prop where
  same : ∀ {D o o'}, I D o → o.SameLabels o' → I D o'
  absorb : ∀ {D o a b}, I D o → o.isRep a = true → o.isRep b = true → a ≠ b → a ∉ D → b ∉ D →
    Mutual g.Succ a b → I D (o.absorb a b)
  label : ∀ {D o r}, I D o → o.isRep r = true → (o.nodes r).sccRoot = true →
    (∀ x, o.rep x = r ↔ Mutual g.Succ r x) → (∀ x, Mutual g.Succ r x → x ∉ D) →
    (∀ d, o.Succ r d → o.rep d = r ∨ o.rep d ∈ D) →
    Spec (label o r) (fun o' => Relabelled o r o' ∧ I (D ∪ {x | Mutual g.Succ r x}) o')
      fun _ => False

variable {g o : OffGraph} {I : Set Nat → OffGraph → Prop} {label : Labelling} {T T1 T2 : Search Nat}
  {n m : Nat} {new : List Nat}

/-- The state follows the search `T` of `g`: `R` says which nodes were merged, and the edges
of the nodes in `K` are the old ones. -/
structure OffFollows (g : OffGraph) (I : Set Nat → OffGraph → Prop) (T : Search Nat)
    (R : Nat → Nat → Prop) (K : Nat → Prop) (o : OffGraph) : Prop where
  size : o.size = g.size
  rep : ∀ x y, o.rep x = o.rep y ↔ R x y
  number : ∀ x, (o.nodes x).dfsId = if T.num x = 0 then 0 else T.low x
  root : ∀ x, o.isRep x = true → ((o.nodes x).sccRoot = true ↔ x ∈ T.done)
  label : I T.done o
  clock : o.currDfs = T.clock
  edge : ∀ x, K x → (o.nodes x).edges = (g.nodes x).edges ∧
    (o.nodes x).implEdges = (g.nodes x).implEdges

structure OffTracks (g : OffGraph) (I : Set Nat → OffGraph → Prop) (T : Search Nat) (o : OffGraph) : Prop
    extends OffFollows g I T (g.Merged T) (· ∉ T.done) o where
  stk : o.dfsStk = T.stack

theorem OffGraph.rep_rep (o : OffGraph) (n : Nat) : o.rep (o.rep n) = o.rep n := o.forest.find_find n

theorem OffGraph.rep_eq_self {o : OffGraph} {n : Nat} : o.rep n = n ↔ o.isRep n = true :=
  Forest.find_eq_self

theorem OffGraph.isRep_rep (o : OffGraph) (n : Nat) : o.isRep (o.rep n) = true :=
  o.forest.isRep_find n

namespace OffFollows

variable {R R' : Nat → Nat → Prop} {K K' : Nat → Prop}

theorem congr (h : OffFollows g I T R K o) (hR : ∀ x y, R x y ↔ R' x y) :
    OffFollows g I T R' K o :=
  { h with rep := fun x y => (h.rep x y).trans (hR _ _) }

/-- The representative of a node was merged with it. -/
theorem rep_self (h : OffFollows g I T R K o) (x : Nat) : R (o.rep x) x :=
  (h.rep (o.rep x) x).mp (o.rep_rep x)

/-- The number of a node the search has seen. -/
theorem dfsId (h : OffFollows g I T R K o) {x : Nat} (hs : T.num x ≠ 0) :
    (o.nodes x).dfsId = T.low x := by rw [h.number x, if_neg hs]

end OffFollows

namespace OffTracks

/-- A node that is not finished is still its own representative. -/
theorem rep_undone (h : OffTracks g I T o) {x : Nat} (hd : x ∉ T.done) : o.rep x = x :=
  (h.rep_self x).resolve_right fun hm => hd hm.1.2

/-- Other numbers for the nodes. -/
theorem renumber (hI : LabelRules g label I) (h : OffTracks g I T o) {T' : Search Nat} (k c : Nat)
    (hstack : T'.stack = T.stack) (hdone : T'.done = T.done) (hclock : c = T'.clock)
    (hnum : ∀ x, (if x = n then k else (o.nodes x).dfsId) = if T'.num x = 0 then 0 else T'.low x) :
    OffTracks g I T' ({ o with currDfs := c }.modify n fun N => { N with dfsId := k }) := by
  have hnode : ∀ x, ({ o with currDfs := c }.modify n fun N => { N with dfsId := k }).nodes x =
      { o.nodes x with dfsId := if x = n then k else (o.nodes x).dfsId } := by
    intro x
    simp only [OffGraph.modify, Function.update_apply]
    split
    · rename_i hx
      rw [hx]
    · rfl
  refine ⟨⟨h.size, fun x y => ?_, fun x => ?_, fun x hx => ?_,
    hdone ▸ hI.same h.label (.setDfsId o n k c), hclock, fun x hx => ?_⟩, h.stk.trans hstack.symm⟩
  · unfold OffGraph.Merged
    rw [hdone]
    exact h.rep x y
  · rw [hnode]
    exact hnum x
  · rw [hnode, hdone]
    exact h.root x hx
  · rw [hnode]
    exact h.edge x (hdone ▸ hx)

/-- Node `n` gets the next number. -/
theorem enter (hI : LabelRules g label I) (h : OffTracks g I T o) (hT : Inv g.Succ T) (n : Nat) :
    OffTracks g I (T.enter n)
      ({ o with currDfs := o.currDfs + 1 }.modify n fun N => { N with dfsId := o.currDfs }) := by
  refine h.renumber hI _ _ rfl rfl (congrArg (· + 1) h.clock) fun x => ?_
  rw [enter_num, enter_low, h.clock]
  split
  · rw [if_neg hT.clock.ne']
  · exact h.number x

/-- The number of an open successor is taken over. -/
theorem lower (hI : LabelRules g label I) (h : OffTracks g I T o) (hns : T.num n ≠ 0)
    (hms : T.num m ≠ 0) :
    OffTracks g I (T.lower n m) (if (o.nodes m).dfsId < (o.nodes n).dfsId then
      o.modify n fun N => { N with dfsId := (o.nodes m).dfsId } else o) := by
  rw [h.dfsId hns, h.dfsId hms]
  split
  · rename_i hlt
    refine h.renumber hI (c := o.currDfs) _ rfl rfl h.clock fun x => ?_
    rw [lower_low, min_eq_right hlt.le, show (T.lower n m).num = T.num from rfl]
    split
    · rename_i hxn
      rw [if_neg (hxn ▸ hns)]
    · exact h.number x
  · rename_i hle
    have hlow : (T.lower n m).low = T.low := by
      funext x
      rw [lower_low, min_eq_left (Nat.le_of_not_lt hle)]
      split
      · rename_i hxn
        rw [hxn]
      · rfl
    exact ⟨⟨h.size, h.rep, fun x => hlow ▸ h.number x, h.root, h.label, h.clock, h.edge⟩, h.stk⟩

end OffTracks

/-! ## Walking the edges of a node -/

/-- How many nodes the search has not seen. -/
def unseenNodes (g : OffGraph) (T : Search Nat) : Nat :=
  ((Finset.range g.size).filter fun x => T.num x = 0).card

theorem unseenNodes_lt (hw : Walked g.Succ T T1 n new) (hinv : Inv g.Succ T1) (hn : n < g.size) :
    unseenNodes g T1 < unseenNodes g T := by
  refine Finset.card_lt_card ⟨fun x hx => ?_, fun hsub => ?_⟩
  · rw [Finset.mem_filter] at hx ⊢
    exact ⟨hx.1, hw.toOnward.unseen hx.2⟩
  · have hmem := hsub (Finset.mem_filter.mpr ⟨Finset.mem_range.mpr hn, hw.unseen⟩)
    exact hinv.num_pos hw.isOpen (Finset.mem_filter.mp hmem).2

/-- What a recursive call is to do when less than `k` nodes are unseen. -/
def OffVisit (g : OffGraph) (I : Set Nat → OffGraph → Prop) (k : Nat)
    (visit : OffGraph → Nat → Run OffGraph) : Prop :=
  ∀ {o : OffGraph} {T : Search Nat} {n : Nat}, OffTracks g I T o → Inv g.Succ T → T.num n = 0 →
    g.Valid n → (∀ z ∈ T.path, ReflTransGen g.Succ z n) → unseenNodes g T < k →
    Spec (visit o n) (fun o' => ∃ T' new, OffTracks g I T' o' ∧ Inv g.Succ T' ∧
      Visited g.Succ T T' n new) fun _ => False

/-- The walk over the edges of `n` that began in `T` has come to `T1`. -/
structure OffWalk (g : OffGraph) (I : Set Nat → OffGraph → Prop) (T T1 : Search Nat) (n : Nat)
    (new : List Nat) (o : OffGraph) : Prop where
  tracks : OffTracks g I T1 o
  inv : Inv g.Succ T1
  walked : Walked g.Succ T T1 n new

theorem OffWalk.rep (h : OffWalk g I T T1 n new o) : o.rep n = n :=
  h.tracks.rep_undone (h.inv.notDone n h.walked.isOpen)

/-- The rest of an edge to `d`, whose number is compared with that of `n`. -/
theorem hvnCheckEdge_rest {d : Nat}
    (hw : OffWalk g I T T2 n new (if (o.nodes d).dfsId < (o.nodes n).dfsId then
      o.modify n fun N => { N with dfsId := (o.nodes d).dfsId } else o))
    (hkeep : ∀ w, T1.Handled n w → T2.Handled n w) (hto : T2.Handled n d) :
    Spec (do
        let id2 := (o.nodes d).dfsId
        let o := if id2 < (o.nodes n).dfsId then o.modify n fun N => { N with dfsId := id2 } else o
        require (o.isRep n) "N->is_rep()"
        return o)
      (fun o' => ∃ T2 new', OffWalk g I T T2 n new' o' ∧
        (∀ w, T1.Handled n w → T2.Handled n w) ∧ T2.Handled n d) fun _ => False :=
  spec_require (fun h => (h (OffGraph.rep_eq_self.mp hw.rep)).elim) fun _ =>
    spec_ok ⟨T2, new, hw, hkeep, hto⟩

theorem hvnCheckEdge_tracks {visit : OffGraph → Nat → Run OffGraph} {k d : Nat}
    (hI : LabelRules g label I) (hvisit : OffVisit g I k visit) (hd : g.Succ n d) (hvalid : g.Valid d) (hT : Inv g.Succ T)
    (hk : unseenNodes g T ≤ k) (hn : n < g.size) (hw : OffWalk g I T T1 n new o) :
    Spec (hvnCheckEdge visit n o d) (fun o' => ∃ T2 new', OffWalk g I T T2 n new' o' ∧
      (∀ w, T1.Handled n w → T2.Handled n w) ∧ T2.Handled n d) fun _ => False := by
  obtain ⟨ht, h1, hwk⟩ := hw
  have hnrep := OffWalk.rep ⟨ht, h1, hwk⟩
  -- the representative found is the old one, or both are finished
  have hdest : o.rep d = d ∨ o.rep d ∈ T1.done ∧ d ∈ T1.done := (ht.rep_self d).imp id And.left
  unfold hvnCheckEdge
  refine spec_require (fun h => (h (OffGraph.rep_eq_self.mp hnrep)).elim) fun _ => ?_
  dsimp only
  split
  · rename_i hskip
    refine ⟨T1, new, ⟨ht, h1, hwk⟩, fun _ h => h, ?_⟩
    rcases hdest with heq | ⟨-, hdd⟩
    · rw [heq] at hskip
      rcases hskip with rfl | hroot
      · exact .inr ⟨hwk.isOpen, h1.low_le d hwk.isOpen⟩
      · exact .inl ((ht.root d (OffGraph.rep_eq_self.mp heq)).mp hroot)
    · exact .inl hdd
  · rename_i hskip
    rw [not_or] at hskip
    have hnot : o.rep d ∉ T1.done := fun h => hskip.2 ((ht.root _ (o.isRep_rep d)).mpr h)
    have heq : o.rep d = d := hdest.resolve_right fun h => hnot h.1
    rw [heq] at hskip hnot ⊢
    have hnum := ht.number d
    by_cases hunseen : T1.num d = 0
    · rw [if_pos hunseen] at hnum
      rw [if_pos hnum]
      have hless := unseenNodes_lt hwk h1 hn
      refine (hvisit ht h1 hunseen hvalid (fun z hz => (hwk.reaches hT h1 z hz).tail hd)
        (by omega)).bind fun o2 ho2 => ?_
      obtain ⟨T2, new2, ht2, h2, hv⟩ := ho2
      have hpath : n ∈ T2.path := hv.path ▸ hwk.mem_path
      have hkeep : ∀ w, T1.Handled n w → T2.Handled n w := fun w =>
        hv.handled h1 (fun x hx => hv.path ▸ hx) hwk.isOpen
      have hns := h2.num_pos (.inl hpath)
      by_cases hdone : d ∈ T2.done
      · -- the component is complete, and its numbers are larger than that of `n`
        have hbig := hv.low_component h1 h2 hunseen hdone .refl
        have hsmall : T2.low n < T1.clock := by
          refine Nat.lt_of_le_of_lt (h2.low_le n (.inl hpath)) ?_
          rw [hv.num n (h1.num_pos hwk.isOpen)]
          exact h1.num_lt n
        have hlt : ¬ (o2.nodes d).dfsId < (o2.nodes n).dfsId := by
          rw [ht2.dfsId ((h2.seen d).mpr (.inr hdone)), ht2.dfsId hns]
          omega
        have hnext : OffWalk g I T T2 n new (if (o2.nodes d).dfsId < (o2.nodes n).dfsId then
            o2.modify n fun N => { N with dfsId := (o2.nodes d).dfsId } else o2) := by
          rw [if_neg hlt]
          exact ⟨ht2, h2, hwk.visited_done h1 h2 hv hd hdone⟩
        exact hvnCheckEdge_rest hnext hkeep (.inl hdone)
      · have hopen : T2.Open d := by
          rcases hv.left with ⟨hin, -⟩ | ⟨hin, -⟩
          · exact absurd hin hdone
          · exact .inr (hv.stack ▸ List.mem_append_left _ hin)
        exact hvnCheckEdge_rest ⟨ht2.lower hI hns (h2.num_pos hopen), h2.lower hpath hopen hd,
          hwk.visited_left h1 h2 hv hd hdone⟩ (fun w hw => (hkeep w hw).lower n d)
          (h2.handled_lower n hopen)
    · have hopen : T1.Open d := ((h1.seen d).mp hunseen).resolve_right hnot
      rw [if_neg (by rw [hnum, if_neg hunseen]; exact h1.low_pos hopen), pure_bind]
      exact hvnCheckEdge_rest ⟨ht.lower hI (h1.num_pos hwk.isOpen) hunseen,
        h1.lower hwk.mem_path hopen hd, hwk.lower h1 d⟩ (fun w hw => hw.lower n d)
        (h1.handled_lower n hopen)

/-- One of the two loops over the edges of `n`. -/
theorem hvnCheckEdges_tracks {visit : OffGraph → Nat → Run OffGraph} {k : Nat} {l : List Nat}
    (hI : LabelRules g label I) (hvisit : OffVisit g I k visit) (hl : ∀ d ∈ l, g.Succ n d ∧ g.Valid d) (hT : Inv g.Succ T)
    (hk : unseenNodes g T ≤ k) (hn : n < g.size) (hw : OffWalk g I T T1 n new o) :
    Spec (l.foldlM (hvnCheckEdge visit n) o) (fun o' => ∃ T2 new', OffWalk g I T T2 n new' o' ∧
      (∀ w, T1.Handled n w → T2.Handled n w) ∧ ∀ d ∈ l, T2.Handled n d) fun _ => False := by
  refine spec_foldlM (fun done o' => ∃ T2 new', OffWalk g I T T2 n new' o' ∧
    (∀ w, T1.Handled n w → T2.Handled n w) ∧ ∀ d ∈ done, T2.Handled n d)
    ⟨T1, new, hw, fun _ h => h, fun d hd => by cases hd⟩ ?_
  rintro done d rest o1 hsplit ⟨T2, new2, hw2, hkeep, hdone⟩
  obtain ⟨hsucc, hvalid⟩ := hl d (by simp [hsplit])
  refine (hvnCheckEdge_tracks hI hvisit hsucc hvalid hT hk hn hw2).imp fun o2 ho2 => ?_
  obtain ⟨T3, new3, hw3, hkeep3, hto⟩ := ho2
  refine ⟨T3, new3, hw3, fun w h => hkeep3 w (hkeep w h), fun c hc => ?_⟩
  rcases List.mem_append.mp hc with hc | hc
  · exact hkeep3 c (hdone c hc)
  · exact List.mem_singleton.mp hc ▸ hto

/-! ## Collapsing a component -/

/-- The members of `D` are merged, and apart from that what the search completed. -/
def OffJoined (g : OffGraph) (T : Search Nat) (D : Nat → Prop) (x y : Nat) : Prop :=
  g.Merged T x y ∨ D x ∧ D y

/-- The nodes that are to be merged. -/
structure OffComponent (g : OffGraph) (T : Search Nat) (C : Nat → Prop) : Prop where
  isOpen : ∀ x, C x → x ∉ T.done
  valid : ∀ x, C x → g.Valid x
  seen : ∀ x, C x → T.num x ≠ 0 ∧ T.low x ≠ 0
  mutual_ : ∀ x y, C x → C y → Mutual g.Succ x y

/-- While a component is merged: the members of `D` are, `r` stands for them and has edges of
theirs only, and the other nodes of open components have their own. -/
structure OffMerging (g : OffGraph) (I : Set Nat → OffGraph → Prop) (T : Search Nat) (D : Nat → Prop)
    (r : Nat) (o : OffGraph) : Prop
    extends OffFollows g I T (OffJoined g T D) (fun x => x ∉ T.done ∧ ¬ D x) o where
  mem : D r
  isRep : o.isRep r = true
  own : ∀ d, o.Succ r d → ∃ x, D x ∧ g.Succ x d

namespace OffMerging

variable {C D : Nat → Prop} {r : Nat}

/-- The nodes that `r` stands for. -/
theorem rep_eq_iff (h : OffMerging g I T D r o) (hC : OffComponent g T C) (hD : ∀ x, D x → C x)
    (x : Nat) : o.rep x = r ↔ D x := by
  have hx := h.rep x r
  rw [OffGraph.rep_eq_self.mpr h.isRep] at hx
  refine hx.trans ⟨fun hj => ?_, fun hx => .inr ⟨hx, h.mem⟩⟩
  rcases hj with (rfl | hm) | hd
  · exact h.mem
  · exact absurd hm.1.2 (hC.isOpen r (hD r h.mem))
  · exact hd.1

/-- A node of the component that is not in `D` yet is alone. -/
theorem rep_eq_alone_iff (h : OffMerging g I T D r o) (hC : OffComponent g T C) (hm : C m)
    (hmD : ¬ D m) (x : Nat) : o.rep x = m ↔ x = m := by
  have halone : ∀ y, OffJoined g T D y m ↔ y = m := by
    intro y
    refine ⟨fun hj => ?_, fun hy => .inl (.inl hy)⟩
    rcases hj with (rfl | hm') | hd
    · rfl
    · exact absurd hm'.1.2 (hC.isOpen m hm)
    · exact absurd hd.2 hmD
  have hself : o.rep m = m := (halone _).mp (h.rep_self m)
  have hx := h.rep x m
  rw [hself] at hx
  exact hx.trans (halone x)

/-- Two nodes of the component that were merged belong to `D` from now on. -/
theorem absorb (hI : LabelRules g label I) (h : OffMerging g I T D r o) (hC : OffComponent g T C)
    (hD : ∀ x, D x → C x)
    (hm : C m) (hmD : ¬ D m) {a b : Nat} (hab : a = r ∧ b = m ∨ a = m ∧ b = r) :
    OffMerging g I T (fun x => D x ∨ x = m) a (o.absorb a b) := by
  have hset_r := h.rep_eq_iff hC hD
  have hset_m := h.rep_eq_alone_iff hC hm hmD
  have hmrep : o.isRep m = true := OffGraph.rep_eq_self.mp ((hset_m m).mpr rfl)
  have hne : r ≠ m := fun he => hmD (he ▸ h.mem)
  obtain ⟨ha, hb, hneq⟩ : o.isRep a = true ∧ o.isRep b = true ∧ a ≠ b := by
    rcases hab with ⟨rfl, rfl⟩ | ⟨rfl, rfl⟩
    · exact ⟨h.isRep, hmrep, hne⟩
    · exact ⟨hmrep, h.isRep, hne.symm⟩
  have hsets : ∀ x, o.rep x = a ∨ o.rep x = b ↔ D x ∨ x = m := by
    intro x
    rw [← hset_r x, ← hset_m x]
    rcases hab with ⟨rfl, rfl⟩ | ⟨rfl, rfl⟩
    · rfl
    · exact or_comm
  have hrep : ∀ x, (o.absorb a b).rep x = if o.rep x = b then a else o.rep x :=
    Forest.find_join ha hb hneq
  have hisRep : ∀ x, (o.absorb a b).isRep x = true ↔ o.isRep x = true ∧ x ≠ b :=
    Forest.isRep_join ha hb hneq
  -- the nodes apart from the two are what they were
  have hopen : ∀ x, x = a ∨ x = b → x ∉ T.done ∧ (D x ∨ x = m) := by
    intro x hx
    have hDx : D x ∨ x = m := by
      refine (hsets x).mp ?_
      rcases hx with rfl | rfl
      · exact .inl (OffGraph.rep_eq_self.mpr ha)
      · exact .inr (OffGraph.rep_eq_self.mpr hb)
    exact ⟨hC.isOpen x (hDx.elim (hD x) fun he => he ▸ hm), hDx⟩
  have hC' : ∀ x, x = a ∨ x = b → C x := fun x hx =>
    (hopen x hx).2.elim (hD x) fun he => he ▸ hm
  have hother : ∀ x, ¬ (x = a ∨ x = b) → (o.absorb a b).nodes x = o.nodes x := by
    intro x hx
    rw [not_or] at hx
    simp only [OffGraph.absorb, if_neg hx.1, if_neg hx.2]
  have hkept : ∀ x, ((o.absorb a b).nodes x).dfsId = (o.nodes x).dfsId ∧
      ((o.absorb a b).nodes x).sccRoot = (o.nodes x).sccRoot := by
    intro x
    unfold OffGraph.absorb OffGraph.takeOver
    dsimp only
    split
    · rename_i hx
      rw [hx]
      exact ⟨rfl, rfl⟩
    · split
      · rename_i hx
        rw [hx]
        exact ⟨rfl, rfl⟩
      · exact ⟨rfl, rfl⟩
  refine ⟨⟨h.size, fun x y => ?_, fun x => ?_, fun x hx => ?_,
    hI.absorb h.label ha hb hneq (hopen a (.inl rfl)).1 (hopen b (.inr rfl)).1
      (hC.mutual_ a b (hC' a (.inl rfl)) (hC' b (.inr rfl))), h.clock,
    fun x hx => ?_⟩, ?_, ?_, fun d hd => ?_⟩
  · have hxy := h.rep x y
    have hjoin : (o.absorb a b).rep x = (o.absorb a b).rep y ↔ o.rep x = o.rep y ∨
        (o.rep x = a ∨ o.rep x = b) ∧ (o.rep y = a ∨ o.rep y = b) := by
      rw [hrep, hrep]
      split <;> split <;> grind
    rw [hjoin, hsets, hsets, hxy]
    constructor
    · rintro ((hm | hD) | hD)
      · exact .inl hm
      · exact .inr ⟨.inl hD.1, .inl hD.2⟩
      · exact .inr hD
    · rintro (hm | hD)
      · exact .inl (.inl hm)
      · exact .inr hD
  · rw [(hkept x).1]
    exact h.number x
  · rw [(hkept x).2]
    exact h.root x ((hisRep x).mp hx).1
  · rw [hother x fun he => hx.2 (hopen x he).2]
    exact h.edge x ⟨hx.1, fun hDx => hx.2 (.inl hDx)⟩
  · exact (hopen a (.inl rfl)).2
  · exact (hisRep a).mpr ⟨ha, hneq⟩
  · have hedges : ((o.absorb a b).nodes a).edges = (o.nodes a).edges ∪ (o.nodes b).edges ∧
        ((o.absorb a b).nodes a).implEdges = (o.nodes a).implEdges ∪ (o.nodes b).implEdges := by
      simp only [OffGraph.absorb, if_true]
      exact ⟨rfl, rfl⟩
    -- edges of `r` are of members of `D`, and `m` has its own
    have hr : ∀ d, o.Succ r d → ∃ x, (D x ∨ x = m) ∧ g.Succ x d := fun d hd =>
      (h.own d hd).imp fun x hx => ⟨.inl hx.1, hx.2⟩
    have hm' : ∀ d, o.Succ m d → ∃ x, (D x ∨ x = m) ∧ g.Succ x d := fun d hd => by
      obtain ⟨hme, hmi⟩ := h.edge m ⟨hC.isOpen m hm, hmD⟩
      rw [OffGraph.Succ, hme, hmi] at hd
      exact ⟨m, .inr rfl, hd⟩
    have hd : o.Succ a d ∨ o.Succ b d := by
      rw [OffGraph.Succ, hedges.1, hedges.2, Finset.mem_union, Finset.mem_union] at hd
      exact or_or_or_comm.mp hd
    rcases hab with ⟨rfl, rfl⟩ | ⟨rfl, rfl⟩
    · exact hd.elim (hr d) (hm' d)
    · exact hd.elim (hm' d) (hr d)

/-- Merging the representative of `D` with one more node of the component. -/
theorem merge (hI : LabelRules g label I) (h : OffMerging g I T D r o) (hC : OffComponent g T C)
    (hD : ∀ x, D x → C x)
    (hm : C m) (hmD : ¬ D m) :
    Spec (mergeOffNodes o r m) (fun t => OffMerging g I T (fun x => D x ∨ x = m) t.2 t.1)
      fun _ => False := by
  have hid : ∀ x, C x → (o.nodes x).dfsId ≠ 0 := fun x hx => by
    rw [h.dfsId (hC.seen x hx).1]
    exact (hC.seen x hx).2
  have hmrep : o.isRep m = true :=
    OffGraph.rep_eq_self.mp ((h.rep_eq_alone_iff hC hm hmD m).mpr rfl)
  have hr := hD r h.mem
  unfold mergeOffNodes
  rw [h.size]
  refine spec_require (fun hp => (hp (hC.valid r hr)).elim) fun _ => ?_
  refine spec_require (fun hp => (hp (hC.valid m hm)).elim) fun _ => ?_
  refine spec_require (fun hp => (hp fun he => hmD (he ▸ h.mem)).elim) fun _ => ?_
  refine spec_require (fun hp => (hp ⟨hid r hr, hid m hm⟩).elim) fun _ => ?_
  refine spec_require (fun hp => (hp ⟨h.isRep, hmrep⟩).elim) fun _ => ?_
  split
  · exact h.absorb hI hC hD hm hmD (.inr ⟨rfl, rfl⟩)
  · exact h.absorb hI hC hD hm hmD (.inl ⟨rfl, rfl⟩)

end OffMerging

/-- The nodes on top of the stack are merged into the root. -/
theorem hvnPop_tracks {C : Nat → Prop} {rest : List Nat} (hI : LabelRules g label I)
    (hC : OffComponent g T C) (ourDfs : Nat)
    (hrest : ∀ x ∈ rest, T.num x ≠ 0 ∧ T.low x < ourDfs) :
    ∀ (todo : List Nat) {o : OffGraph} {D : Nat → Prop} {r : Nat},
      OffMerging g I T D r o → (∀ x, D x → C x) →
      (∀ x ∈ todo, C x ∧ ¬ D x ∧ ourDfs ≤ T.low x) → todo.Nodup →
      Spec (hvnPop ourDfs (todo ++ rest) o r) (fun t =>
        OffMerging g I T (fun x => D x ∨ x ∈ todo) t.2 t.1 ∧ t.1.dfsStk = rest) fun _ => False
  | [], o, D, r, h, hD, htodo, _ => by
      have hfin : ∀ stk, OffMerging g I T (fun x => D x ∨ x ∈ []) r { o with dfsStk := stk } := by
        intro stk
        simp only [List.not_mem_nil, or_false]
        exact ⟨⟨h.size, h.rep, h.number, h.root, hI.same h.label ⟨rfl, fun _ => rfl, rfl, rfl, rfl⟩, h.clock,
          h.edge⟩, h.mem, h.isRep, h.own⟩
      cases rest with
      | nil => exact ⟨hfin [], rfl⟩
      | cons m rest =>
          obtain ⟨hseen, hlt⟩ := hrest m List.mem_cons_self
          rw [List.nil_append, hvnPop, h.dfsId hseen, if_pos hlt]
          exact ⟨hfin (m :: rest), rfl⟩
  | m :: todo, o, D, r, h, hD, htodo, hnodup => by
      obtain ⟨hm, hmD, hle⟩ := htodo m List.mem_cons_self
      obtain ⟨hmt, hnodup⟩ := List.nodup_cons.mp hnodup
      rw [List.cons_append, hvnPop, h.dfsId (hC.seen m hm).1, if_neg (Nat.not_lt.mpr hle)]
      refine (h.merge hI hC hD hm hmD).bind fun t ht => ?_
      have hD' : ∀ x, D x ∨ x = m → C x := fun x hx => hx.elim (hD x) fun he => he ▸ hm
      have htodo' : ∀ x ∈ todo, C x ∧ ¬ (D x ∨ x = m) ∧ ourDfs ≤ T.low x := by
        intro x hx
        obtain ⟨hxC, hxD, hxl⟩ := htodo x (List.mem_cons_of_mem _ hx)
        exact ⟨hxC, fun h => h.elim hxD fun he => hmt (he ▸ hx), hxl⟩
      have hsame : (fun x => D x ∨ x ∈ m :: todo) = fun x => (D x ∨ x = m) ∨ x ∈ todo := by
        funext x
        rw [List.mem_cons, or_assoc]
      rw [hsame]
      exact hvnPop_tracks hI hC ourDfs hrest todo ht hD' htodo' hnodup

/-- At a root, the new nodes are a component. -/
theorem OffWalk.component (hw : OffWalk g I T T1 n new o)
    (hvalid : ∀ x, x = n ∨ x ∈ new → g.Valid x)
    (hmut : ∀ x, x = n ∨ x ∈ new → Mutual g.Succ n x) :
    OffComponent g T1 (fun x => x = n ∨ x ∈ new) := by
  have hopen : ∀ x, x = n ∨ x ∈ new → T1.Open x := fun x hx => hw.walked.open_iff.mpr (.inl hx)
  exact ⟨fun x hx => hw.inv.notDone x (hopen x hx), hvalid,
    fun x hx => ⟨hw.inv.num_pos (hopen x hx), hw.inv.low_pos (hopen x hx)⟩,
    fun x y hx hy => (hmut x hx).symm.trans (hmut y hy)⟩

/-- A root starts to merge its component with itself. -/
theorem OffWalk.alone (hw : OffWalk g I T T1 n new o) :
    OffMerging g I T1 (· = n) n o := by
  have ht := hw.tracks
  have hnd := hw.inv.notDone n hw.walked.isOpen
  refine ⟨⟨ht.size, fun x y => ?_, ht.number, ht.root, ht.label, ht.clock, fun x hx => ht.edge x hx.1⟩,
    rfl, OffGraph.rep_eq_self.mp hw.rep, fun d hd => ⟨n, rfl, ?_⟩⟩
  · refine (ht.rep x y).trans ⟨.inl, ?_⟩
    rintro (hm | ⟨hx, hy⟩)
    · exact hm
    · exact .inl (hx.trans hy.symm)
  · rwa [OffGraph.Succ, (ht.edge n hnd).1, (ht.edge n hnd).2] at hd

/-- A node that is not a root is saved on the stack. -/
theorem OffTracks.retreat (hI : LabelRules g label I) (h : OffTracks g I T o) (n : Nat) :
    OffTracks g I (T.retreat n) { o with dfsStk := n :: o.dfsStk } :=
  ⟨⟨h.size, h.rep, h.number, h.root, hI.same h.label ⟨rfl, fun _ => rfl, rfl, rfl, rfl⟩, h.clock,
    h.edge⟩, congrArg (n :: ·) h.stk⟩

/-- The merged component is marked as complete. -/
def markRoot (o : OffGraph) (r : Nat) : OffGraph :=
  o.modify r fun N => { N with sccRoot := true }

theorem markRoot_same (o : OffGraph) (r : Nat) : o.SameLabels (markRoot o r) := by
  refine ⟨rfl, fun x => ?_, rfl, rfl, rfl⟩
  simp only [markRoot, OffGraph.modify, Function.update_apply]
  split
  · rename_i hx
    rw [hx]
  · rfl

theorem markRoot_node (o : OffGraph) (r x : Nat) : (markRoot o r).nodes x =
    { o.nodes x with sccRoot := if x = r then true else (o.nodes x).sccRoot } := by
  simp only [markRoot, OffGraph.modify, Function.update_apply]
  split
  · rename_i hx
    rw [hx]
  · rfl

section

variable {r : Nat}

/-- All edges of the merged component lead into it, or to complete nodes. -/
theorem OffMerging.leads (h : OffMerging g I T1 (fun x => x = n ∨ x ∈ new) r o)
    (hC : OffComponent g T1 fun x => x = n ∨ x ∈ new)
    (hleaves : ∀ x y, x = n ∨ x ∈ new → g.Succ x y → y ∈ T1.done ∨ y = n ∨ y ∈ new) :
    ∀ d, (markRoot o r).Succ r d → o.rep d = r ∨ o.rep d ∈ T1.done := by
  intro d hd
  rw [OffGraph.Succ, markRoot_node] at hd
  obtain ⟨x, hx, hxd⟩ := h.own d hd
  rcases hleaves x d hx hxd with hdone | hin
  · refine .inr ?_
    rcases h.rep_self d with (heq | hm) | hin
    · exact heq.symm ▸ hdone
    · exact hm.1.1
    · exact absurd hdone (hC.isOpen d hin.2)
  · exact .inl ((h.rep_eq_iff hC (fun _ => id) d).mpr hin)

/-- The merged and labelled component counts as complete. -/
theorem OffMerging.complete {o' : OffGraph} (hwk : Walked g.Succ T T1 n new) (hT : Inv g.Succ T)
    (h1 : Inv g.Succ T1) (hroot : T1.low n = T1.num n) (hall : ∀ w, g.Succ n w → T1.Handled n w)
    (hC : OffComponent g T1 fun x => x = n ∨ x ∈ new)
    (h : OffMerging g I T1 (fun x => x = n ∨ x ∈ new) r o) (hstk : o.dfsStk = T.stack)
    (hrel : Relabelled (markRoot o r) r o')
    (hlabel : I (T1.done ∪ {x | Mutual g.Succ r x}) o') :
    OffTracks g I (T1.complete n T.stack) o' := by
  have hmut : ∀ x, x = n ∨ x ∈ new ↔ Mutual g.Succ n x := fun x => hwk.component hT h1 hroot hall
  have hdone := (hwk.complete hT h1 hroot hall).1
  have hrep : o'.rep = o.rep := hrel.rep
  have hisRep : ∀ x, o'.isRep x = true → o.isRep x = true := fun x hx => by
    rw [← OffGraph.rep_eq_self] at hx ⊢
    rwa [hrep] at hx
  -- one node stands for the component
  have hone : ∀ x, o.isRep x = true → (x = n ∨ x ∈ new) → x = r := fun x hx hin => by
    rw [← (h.rep_eq_iff hC (fun _ => id) x).mpr hin]
    exact (OffGraph.rep_eq_self.mpr hx).symm
  have hmerged : ∀ x y, OffJoined g T1 (fun x => x = n ∨ x ∈ new) x y ↔
      g.Merged (T1.complete n T.stack) x y := by
    intro x y
    unfold OffJoined OffGraph.Merged
    dsimp only
    rw [hmut, hmut, hdone, hdone]
    constructor
    · rintro ((heq | ⟨⟨hx, hy⟩, hxy⟩) | ⟨hx, hy⟩)
      · exact .inl heq
      · exact .inr ⟨⟨.inl hx, .inl hy⟩, hxy⟩
      · exact .inr ⟨⟨.inr hx, .inr hy⟩, hx.symm.trans hy⟩
    · rintro (heq | ⟨⟨hx, hy⟩, hxy⟩)
      · exact .inl (.inl heq)
      · rcases hx with hx | hx
        · exact .inl (.inr ⟨⟨hx, h1.done_of_reach hx hxy.1⟩, hxy⟩)
        · exact .inr ⟨hx, hx.trans hxy⟩
  have hset : (T1.complete n T.stack).done = T1.done ∪ {x | Mutual g.Succ r x} := by
    ext x
    rw [hdone, Set.mem_union, Set.mem_ofPred_eq]
    have hr : Mutual g.Succ n r := (hmut r).mp h.mem
    exact or_congr_right ⟨hr.symm.trans, hr.trans⟩
  refine ⟨⟨hrel.size.trans h.size, fun x y => ?_, fun x => ?_, fun x hx => ?_, hset ▸ hlabel,
    hrel.clock.trans h.clock, fun x hx => ?_⟩, hrel.stk.trans hstk⟩
  · rw [hrep]
    exact (h.rep x y).trans (hmerged x y)
  · rw [(hrel.edges x).2.2.1, markRoot_node]
    exact h.number x
  · rw [(hrel.edges x).2.2.2, markRoot_node, hdone, ← hmut]
    dsimp only
    split
    · rename_i hxr
      exact iff_of_true rfl (.inr (hxr ▸ h.mem))
    · rename_i hxr
      rw [h.root x (hisRep x hx)]
      exact ⟨.inl, fun hx' => hx'.resolve_right fun hin => hxr (hone x (hisRep x hx) hin)⟩
  · rw [(hrel.edges x).1, (hrel.edges x).2.1, markRoot_node]
    rw [hdone, ← hmut, not_or] at hx
    exact h.edge x hx

end

/-! ## Whole visits -/

/-- Edges lead to nodes that may be visited. -/
def OffGraph.Clean (g : OffGraph) : Prop := ∀ u v, g.Succ u v → g.Valid v

theorem OffGraph.Clean.reach (hc : g.Clean) {x y : Nat} (hx : g.Valid x)
    (hxy : ReflTransGen g.Succ x y) : g.Valid y := by
  cases hxy with
  | refl => exact hx
  | tail _ hs => exact hc _ _ hs

/-- A visit finds the components it completes, merges and labels them. -/
theorem hvnDfs_tracks (hI : LabelRules g label I) (hc : g.Clean) : ∀ fuel, OffVisit g I fuel (hvnDfsWith label fuel)
  | 0, _, _, _, _, _, _, _, _, hk => absurd hk (Nat.not_lt_zero _)
  | fuel + 1, o, T, n, ht, hT, hunseen, hn, hpath, hk => by
      have hnd := hT.unseen_done hunseen
      have hrep : o.isRep n = true := OffGraph.rep_eq_self.mp (ht.rep_undone hnd)
      have hlist : ∀ (l : Finset Nat), (∀ d ∈ l, g.Succ n d) → ∀ d ∈ ascending l, g.Succ n d ∧ g.Valid d :=
        fun l h d hd => ⟨h d (mem_ascending.mp hd), hc n d (h d (mem_ascending.mp hd))⟩
      rw [hvnDfsWith]
      refine spec_require (fun h => (h hn.1).elim) fun _ => ?_
      refine spec_require (fun h => (h ⟨fun hr => hnd ((ht.root n hrep).mp hr), hrep⟩).elim) fun _ => ?_
      dsimp only
      obtain ⟨o1, ho1⟩ : ∃ o1, ({ o with currDfs := o.currDfs + 1 }.modify n
        fun N => { N with dfsId := o.currDfs } : OffGraph) = o1 := ⟨_, rfl⟩
      have hw1 : OffWalk g I T (T.enter n) n [] o1 :=
        ⟨ho1 ▸ ht.enter hI hT n, hT.enter hunseen hpath, .enter hT hunseen⟩
      rw [ho1]
      have hedge1 := hw1.tracks.edge n (hw1.inv.notDone n hw1.walked.isOpen)
      refine (hvnCheckEdges_tracks hI (hvnDfs_tracks hI hc fuel)
        (hlist _ fun d hd => .inl (hedge1.1 ▸ hd)) hT (Nat.le_of_lt_succ hk) hn.2 hw1).bind
        fun o2 ho2 => ?_
      obtain ⟨T2, new2, hw2, -, hall2⟩ := ho2
      have hedge2 := hw2.tracks.edge n (hw2.inv.notDone n hw2.walked.isOpen)
      refine (hvnCheckEdges_tracks hI (hvnDfs_tracks hI hc fuel)
        (hlist _ fun d hd => .inr (hedge2.2 ▸ hd)) hT (Nat.le_of_lt_succ hk) hn.2 hw2).bind
        fun o3 ho3 => ?_
      obtain ⟨T3, new, hw, hkeep, hall3⟩ := ho3
      have hall : ∀ w, g.Succ n w → T3.Handled n w := by
        rintro w (hw' | hw')
        · exact hkeep w (hall2 w (mem_ascending.mpr (hedge1.1.symm ▸ hw')))
        · exact hall3 w (mem_ascending.mpr (hedge2.2.symm ▸ hw'))
      have hopen := hw.walked.isOpen
      refine spec_require (fun h => (h (OffGraph.rep_eq_self.mp hw.rep)).elim) fun _ => ?_
      have hnum : T3.num n = o.currDfs := hw.walked.num_eq.trans ht.clock.symm
      rw [hw.tracks.dfsId (hw.inv.num_pos hopen), ← hnum]
      split
      · rename_i hroot
        have hstk : o3.dfsStk = new ++ T.stack := hw.tracks.stk.trans hw.walked.stack
        have hcomp : ∀ x, x = n ∨ x ∈ new → Mutual g.Succ n x := fun x hx =>
          (hw.walked.component hT hw.inv hroot hall).mp hx
        have hC := hw.component (fun x hx => hc.reach hn (hcomp x hx).1) hcomp
        have holder : ∀ x ∈ T.stack, T3.num x ≠ 0 ∧ T3.low x < T3.num n := fun x hx => by
          have ho : T3.Open x := hw.walked.open_iff.mpr (.inr (.inr hx))
          exact ⟨hw.inv.num_pos ho,
            (hw.inv.low_le x ho).trans_lt (hw.walked.older hT (.inr hx))⟩
        have hnewer : ∀ x ∈ new, (x = n ∨ x ∈ new) ∧ x ≠ n ∧ T3.num n ≤ T3.low x := fun x hx => by
          have hxs : x ∈ T3.stack := hw.walked.stack ▸ List.mem_append_left _ hx
          refine ⟨.inr hx, fun he => ?_, hw.walked.low_ge hroot (.inr hx)⟩
          exact hw.inv.apart n hw.walked.mem_path (he ▸ hxs)
        have hnodup : new.Nodup := by
          have h3 := hw.inv.nodup
          rw [hw.walked.stack] at h3
          exact (List.nodup_append.mp h3).1
        rw [hstk]
        refine (hvnPop_tracks hI hC _ holder new hw.alone (fun x hx => .inl hx) hnewer hnodup).bind
          fun t ht => ?_
        obtain ⟨hmerged, hrest⟩ := ht
        refine spec_require (fun h => (h (hC.valid t.2 hmerged.mem).1).elim) fun _ => ?_
        have hmark : ((markRoot t.1 t.2).nodes t.2).sccRoot = true := by
          rw [markRoot_node, if_pos rfl]
        have hleads := hmerged.leads hC fun x y hx hxy =>
          hw.walked.leaves hT hw.inv hroot hall hx hxy
        have hmut : ∀ x, x = n ∨ x ∈ new ↔ Mutual g.Succ t.2 x := fun x => by
          have hr := (hw.walked.component hT hw.inv hroot hall).mp hmerged.mem
          rw [hw.walked.component hT hw.inv hroot hall]
          exact ⟨hr.symm.trans, hr.trans⟩
        have hset : ∀ x, (markRoot t.1 t.2).rep x = t.2 ↔ Mutual g.Succ t.2 x := fun x =>
          (hmerged.rep_eq_iff hC (fun _ => id) x).trans (hmut x)
        obtain ⟨-, hinv, hvis⟩ := hw.walked.complete hT hw.inv hroot hall
        refine (hI.label (hI.same hmerged.label (markRoot_same t.1 t.2)) hmerged.isRep hmark hset
          (fun x hx => hC.isOpen x ((hmut x).mpr hx)) hleads).imp fun o4 ho4 => ?_
        exact ⟨_, [], hmerged.complete hw.walked hT hw.inv hroot hall hC hrest ho4.1 ho4.2,
          hinv, hvis⟩
      · rename_i hroot
        have hlt : T3.low n < T3.num n := Nat.lt_of_le_of_ne (hw.inv.low_le n hopen) hroot
        obtain ⟨hinv, hvis⟩ := hw.walked.retreat hT hw.inv hlt hall
        exact ⟨T3.retreat n, n :: new, hw.tracks.retreat hI n, hinv, hvis⟩

/-! ## The search from every node -/

/-- A graph that was built and not searched yet. -/
structure OffGraph.Unsearched (g : OffGraph) : Prop where
  size_eq : g.size = g.firstREF + g.nREF
  forest : g.forest = .discrete
  node : ∀ x, (g.nodes x).dfsId = 0 ∧ (g.nodes x).sccRoot = false
  stk : g.dfsStk = []
  clean : g.Clean

theorem OffGraph.rep_discrete {o : OffGraph} (h : o.forest = .discrete) (x : Nat) : o.rep x = x :=
  OffGraph.rep_eq_self.mpr (by rw [OffGraph.isRep, h]; rfl)

theorem OffGraph.Unsearched.start (h : g.Unsearched)
    (hI : I ∅ { g with currDfs := 1, lbl2pe := [] }) :
    OffTracks g I start { g with currDfs := 1, lbl2pe := [] } := by
  refine ⟨⟨rfl, fun x y => ?_, fun x => ?_, fun x _ => ?_, hI, rfl, fun x _ => ⟨rfl, rfl⟩⟩, h.stk⟩
  · change g.rep x = g.rep y ↔ _
    rw [OffGraph.rep_discrete h.forest, OffGraph.rep_discrete h.forest]
    exact ⟨.inl, fun hm => hm.resolve_right fun hd => hd.1.1.elim⟩
  · exact (h.node x).1
  · change (g.nodes x).sccRoot = true ↔ _
    rw [(h.node x).2]
    exact iff_of_false Bool.false_ne_true fun hd => hd.elim

/-- Between two visits nothing is walked. -/
structure OffBetween (g : OffGraph) (I : Set Nat → OffGraph → Prop) (T : Search Nat) (o : OffGraph) :
    Prop where
  tracks : OffTracks g I T o
  inv : Inv g.Succ T
  path : T.path = []
  low : ∀ x ∈ T.done, T.low x ≠ 0

theorem OffBetween.done_iff (h : OffBetween g I T o) {x : Nat} : T.num x ≠ 0 ↔ x ∈ T.done := by
  rw [h.inv.seen]
  refine or_iff_right fun ho => ?_
  rcases ho with ho | ho
  · simp [h.path] at ho
  · simp [h.inv.stack_empty h.path] at ho

/-- A visit between which and the last one nothing is walked completes its node. -/
theorem OffBetween.visited {o' : OffGraph} (hb : OffBetween g I T o)
    (ht : OffTracks g I T1 o') (h1 : Inv g.Succ T1) (hv : Visited g.Succ T T1 n new) :
    OffBetween g I T1 o' ∧ n ∈ T1.done := by
  have hpath : T1.path = [] := hv.path.trans hb.path
  refine ⟨⟨ht, h1, hpath, fun x hx => ?_⟩, ?_⟩
  · by_cases hs : T.num x = 0
    · exact (hb.inv.clock.trans_le (hv.low_done x hs hx)).ne'
    · rw [hv.low x hs]
      exact hb.low x (hb.done_iff.mp hs)
  rcases hv.left with ⟨hd, -⟩ | ⟨hin, -⟩
  · exact hd
  · have hstack := hv.stack
    rw [h1.stack_empty hpath] at hstack
    simp [(List.append_eq_nil_iff.mp hstack.symm).1] at hin

theorem unseenNodes_le (g : OffGraph) (T : Search Nat) : unseenNodes g T ≤ g.size :=
  (Finset.card_filter_le _ _).trans_eq (Finset.card_range _)

/-- The search completes every node, and keeps what the labelling allows. -/
theorem hvnSearchWith_keeps (hI : LabelRules g label I)
    (hstart : I ∅ { g with currDfs := 1, lbl2pe := [] }) (hg : g.Unsearched) :
    Spec (hvnSearchWith label g) (fun o' => ∃ T, OffBetween g I T o' ∧
      ∀ x, g.Valid x → x ∈ T.done) fun _ => False := by
  have hmem : ∀ x, x ∈ List.range' firstAFP (g.firstREF + g.nREF - firstAFP) ↔ g.Valid x := by
    intro x
    have hsize := hg.size_eq
    unfold OffGraph.Valid
    simp only [List.mem_range'_1, firstAFP]
    omega
  unfold hvnSearchWith
  have hloop : Spec ((List.range' firstAFP (g.firstREF + g.nREF - firstAFP)).foldlM (fun o i =>
      if (o.nodes i).dfsId = 0 then hvnDfsWith label (o.size + 1) o i else .ok o)
      ({ g with currDfs := 1, lbl2pe := [] } : OffGraph))
      (fun o' => ∃ T, OffBetween g I T o' ∧
        ∀ x ∈ List.range' firstAFP (g.firstREF + g.nREF - firstAFP), x ∈ T.done)
      fun _ => False := by
    refine spec_foldlM (fun seen o' => ∃ T, OffBetween g I T o' ∧ ∀ x ∈ seen, x ∈ T.done)
      ⟨start, ⟨hg.start hstart, start_inv, rfl, fun x hx => hx.elim⟩, fun x hx => by cases hx⟩ ?_
    rintro seen i rest o1 hsplit ⟨T, hb, hprev⟩
    have hi : g.Valid i := (hmem i).mp (by simp [hsplit])
    have hnum := hb.tracks.number i
    split
    · rename_i hvisit
      have hunseen : T.num i = 0 := by
        by_contra hs
        rw [if_neg hs, hvisit] at hnum
        exact hb.low i (hb.done_iff.mp hs) hnum.symm
      have hfew : unseenNodes g T < o1.size + 1 := by
        rw [hb.tracks.size]
        exact Nat.lt_succ_of_le (unseenNodes_le g T)
      refine (hvnDfs_tracks hI hg.clean _ hb.tracks hb.inv hunseen hi
        (by simp [hb.path]) hfew).imp fun o2 ho2 => ?_
      obtain ⟨T2, new, ht2, h2, hv⟩ := ho2
      obtain ⟨hb2, hdone⟩ := hb.visited ht2 h2 hv
      refine ⟨T2, hb2, fun x hx => ?_⟩
      rcases List.mem_append.mp hx with hx | hx
      · exact hv.done (hprev x hx)
      · exact List.mem_singleton.mp hx ▸ hdone
    · rename_i hvisit
      refine ⟨T, hb, fun x hx => ?_⟩
      rcases List.mem_append.mp hx with hx | hx
      · exact hprev x hx
      · rw [List.mem_singleton.mp hx, ← hb.done_iff]
        intro h0
        rw [if_pos h0] at hnum
        exact hvisit hnum
  refine hloop.bind fun o' ho' => ?_
  obtain ⟨T, hb, hall⟩ := ho'
  refine spec_require (fun h => (h ?_).elim) fun _ => ?_
  · rw [hb.tracks.stk, hb.inv.stack_empty hb.path]
  · exact ⟨T, hb, fun x hx => hall x ((hmem x).mpr hx)⟩

/-! ## Good labels -/

/-- Complete components have labels that are `Good`. -/
def AllGood (Good : Finset Nat → Prop) (D : Set Nat) (o : OffGraph) : Prop :=
  ∀ x, o.isRep x = true → x ∈ D → Good (o.nodes x).ptrEq

theorem LabelsWell.rules {Good : Finset Nat → Prop} (hl : LabelsWell Good label)
    (hgood : ∀ pe, Good pe → pe ≠ ∅) (g : OffGraph) : LabelRules g label (AllGood Good) := by
  refine ⟨?_, ?_, ?_⟩
  · intro D o o' h hs x hx hd
    rw [hs.node x]
    exact h x (by rwa [OffGraph.isRep, ← hs.forest]) hd
  · intro D o a b h ha hb hne haD hbD _ x hx hd
    have hxa : x ≠ a := fun he => haD (he ▸ hd)
    have hxb : x ≠ b := fun he => hbD (he ▸ hd)
    simp only [OffGraph.absorb, if_neg hxa, if_neg hxb]
    exact h x ((Forest.isRep_join ha hb hne x).mp hx).1 hd
  · intro D o r h hr hroot hset _ hleads
    have hlab : Labelled o r := fun d hd => by
      refine (hleads d (Finset.mem_union.mp hd)).imp_right fun hdone => ?_
      exact hgood _ (h _ (o.isRep_rep d) hdone)
    refine (hl hr hroot hlab).imp fun o' ho' => ⟨ho'.1, fun x hx hd => ?_⟩
    have hxr : o.isRep x = true := by rwa [OffGraph.isRep, ho'.1.forest] at hx
    by_cases hxeq : x = r
    · exact hxeq ▸ ho'.2
    · rw [ho'.1.other x hxeq]
      refine h x hxr (hd.resolve_right fun hm => hxeq ?_)
      rw [← (hset x).mpr hm]
      exact (OffGraph.rep_eq_self.mpr hxr).symm

/-- The search completes every node, and every complete component has good labels. -/
theorem hvnSearchWith_tracks {Good : Finset Nat → Prop} (hl : LabelsWell Good label)
    (hgood : ∀ pe, Good pe → pe ≠ ∅) (hg : g.Unsearched) :
    Spec (hvnSearchWith label g) (fun o' => ∃ T, OffBetween g (AllGood Good) T o' ∧
      ∀ x, g.Valid x → x ∈ T.done) fun _ => False :=
  hvnSearchWith_keeps (hl.rules hgood g) (fun _ _ hd => hd.elim) hg

end PtrAnalysis
