import PtrAnalysis.HvnSearch

/-!
# The components of the offline graph

A graph made from the constraint list has edges between its own nodes only, so a search of
it completes every node: what has one representative afterwards is a component, and every
representative has labels.
-/

namespace PtrAnalysis

open Run Relation PtrAnalysis.Search

/-! ## Making the graph -/

/-- A graph that is being built. -/
structure OffGraph.Built (g : OffGraph) : Prop extends g.Unsearched where
  main : ∀ i, g.main2off i < g.firstREF

namespace OffGraph.Built

variable {g : OffGraph} (h : g.Built)

include h

theorem val {i : Nat} (hi : g.main2off i ≠ 0) : g.Valid (g.main2off i) := by
  refine ⟨hi, ?_⟩
  have hlt := h.main i
  rw [h.size_eq]
  omega

theorem ref {i : Nat} (hi : g.main2off i ≠ 0) : g.Valid (g.ref (g.main2off i)) := by
  have hlt := h.main i
  have hsize := h.size_eq
  unfold OffGraph.ref OffGraph.Valid
  unfold OffGraph.nREF at hsize
  unfold firstAFP at hsize ⊢
  omega

/-- One node gets more edges to valid nodes. -/
theorem modify (n : Nat) {f : OffNode → OffNode}
    (hf : ∀ N, (f N).dfsId = N.dfsId ∧ (f N).sccRoot = N.sccRoot)
    (hedge : ∀ N v, v ∈ (f N).edges ∨ v ∈ (f N).implEdges →
      v ∈ N.edges ∨ v ∈ N.implEdges ∨ g.Valid v) : (g.modify n f).Built := by
  have hnode : ∀ x, (g.modify n f).nodes x = if x = n then f (g.nodes n) else g.nodes x := fun x =>
    Function.update_apply ..
  refine ⟨⟨h.size_eq, h.forest, fun x => ?_, h.stk, fun u v huv => ?_⟩, h.main⟩
  · rw [hnode]
    split
    · rw [(hf _).1, (hf _).2]
      exact h.node n
    · exact h.node x
  · rw [OffGraph.Succ, hnode] at huv
    change g.Valid v
    split at huv
    · rcases hedge _ v huv with hv | hv | hv
      · exact h.clean n v (.inl hv)
      · exact h.clean n v (.inr hv)
      · exact hv
    · exact h.clean u v huv

theorem addEdge (n : Nat) {dest : Nat} (hd : g.Valid dest) : (g.addEdge n dest).Built := by
  refine h.modify n (f := fun N => { N with edges := insert dest N.edges }) (fun _ => ⟨rfl, rfl⟩)
    fun N v hv => ?_
  rcases hv with hv | hv
  · rcases Finset.mem_insert.mp hv with rfl | hv
    · exact .inr (.inr hd)
    · exact .inl hv
  · exact .inr (.inl hv)

theorem addImpl (n : Nat) {dest : Nat} (hd : g.Valid dest) : (g.addImpl n dest).Built := by
  refine h.modify n (f := fun N => { N with implEdges := insert dest N.implEdges })
    (fun _ => ⟨rfl, rfl⟩) fun N v hv => ?_
  rcases hv with hv | hv
  · exact .inl hv
  · rcases Finset.mem_insert.mp hv with rfl | hv
    · exact .inr (.inr hd)
    · exact .inr (.inl hv)

theorem addLabel (n l : Nat) : (g.addLabel n l).Built :=
  h.modify n (f := fun N => { N with ptrEq := insert l N.ptrEq }) (fun _ => ⟨rfl, rfl⟩)
    fun _ _ hv => hv.imp id .inl

theorem setIndirect (n : Nat) : (g.setIndirect n).Built :=
  h.modify n (f := fun N => { N with indirect := true }) (fun _ => ⟨rfl, rfl⟩)
    fun _ _ hv => hv.imp id .inl

theorem gepLabel (R : Nat × Nat) : (g.gepLabel R).1.Built := by
  unfold OffGraph.gepLabel
  split
  · exact h
  · exact ⟨⟨h.size_eq, h.forest, h.node, h.stk, h.clean⟩, h.main⟩

end OffGraph.Built

variable {a : Anders} {g o : OffGraph}

theorem addOffEdge_built (hcd : Bool) (h : o.Built) (C : Constraint) :
    Spec (addOffEdge a hcd o C) OffGraph.Built fun _ => True := by
  unfold addOffEdge
  refine spec_require (fun _ => trivial) fun _ => ?_
  dsimp only
  split
  · exact spec_require (fun _ => trivial) fun _ => h
  · refine spec_require (fun _ => trivial) fun _ => ?_
    have hind : Spec (return if hcd then o else o.setIndirect (o.main2off C.dest))
        OffGraph.Built fun _ => True := by
      refine spec_ok ?_
      split
      · exact h
      · exact h.setIndirect _
    cases C.type with
    | addrOf =>
        dsimp only
        split
        · exact h
        · refine spec_ok ?_
          have hlab := h.addLabel (o.main2off C.dest) C.src
          split
          · exact hlab
          · rename_i hs
            exact hlab.addImpl _ (h.val hs)
    | copy =>
        dsimp only
        split
        · exact hind
        · rename_i hs
          refine spec_ok ?_
          have hedge := h.addEdge (o.main2off C.dest) (h.val hs)
          split
          · exact hedge
          · exact hedge.addImpl _ (h.ref hs)
    | load =>
        dsimp only
        split
        · exact hind
        · exact spec_require (fun _ => trivial) fun hs => h.addEdge _ (h.ref hs)
    | store =>
        dsimp only
        split
        · exact h
        · exact spec_require (fun _ => trivial) fun hs => h.addEdge _ (h.val hs)
    | gep =>
        dsimp only
        split
        · exact h
        · exact (h.gepLabel (C.src, C.off)).addLabel _ _

/-- The numbers that were given are smaller than the next one. -/
def Numbering.Given (m : Numbering) : Prop := 0 < m.next ∧ ∀ i, m.main2off i < m.next

theorem Numbering.Given.give {m : Numbering} (h : m.Given) (i : Nat) : (m.give i).Given := by
  refine ⟨Nat.succ_pos _, fun j => ?_⟩
  unfold Numbering.give
  dsimp only
  rw [Function.update_apply]
  split
  · exact Nat.lt_succ_self _
  · exact Nat.lt_succ_of_lt (h.2 j)

theorem Numbering.Given.giveIf {m : Numbering} (h : m.Given) (isRep : Nat → Bool) (i : Nat) :
    (m.giveIf isRep i).Given := by
  unfold Numbering.giveIf
  split
  · exact h.give i
  · exact h

theorem numberAFP_given : ∀ (fuel i : Nat) {m : Numbering}, m.Given →
    Spec (numberAFP a fuel i m) Numbering.Given fun _ => True
  | 0, _, _, _ => trivial
  | fuel + 1, i, m, hm => by
      rw [numberAFP]
      split
      · exact hm
      · refine spec_require (fun _ => trivial) fun _ => ?_
        refine spec_require (fun _ => trivial) fun _ => ?_
        refine numberAFP_given fuel _ ?_
        split
        · exact hm
        · exact List.foldlRecOn _ _ hm fun m hm i _ => hm.giveIf a.isRep i

theorem makeOffNodes_built : Spec (makeOffNodes a) OffGraph.Built fun _ => True := by
  unfold makeOffNodes
  refine spec_require (fun _ => trivial) fun _ => ?_
  refine (numberAFP_given _ _ ⟨Nat.one_pos, fun _ => Nat.one_pos⟩).bind fun m hm => ?_
  refine (spec_foldlM_keeps (P := Numbering.Given) (hm.give pI2p) fun i _ m hm => ?_).bind fun m hm => ?_
  · exact spec_require (fun _ => trivial) fun _ => hm.giveIf a.isRep i
  · refine ⟨⟨rfl, rfl, fun _ => ⟨rfl, rfl⟩, rfl, fun u v huv => ?_⟩, hm.2⟩
    rcases huv with hv | hv <;> cases hv

/-- The graph that value numbering searches. -/
theorem OffGraph.built (hn : makeOffNodes a = .ok o)
    (he : addOffEdges a false { o with nextPtrEq := a.size, gep2pe := [] } = .ok g) : g.Built := by
  have h := makeOffNodes_built.result hn
  unfold addOffEdges at he
  refine (spec_foldlM_keeps (E := fun _ => True) ?_ fun C _ o h => addOffEdge_built false h C).result he
  exact ⟨⟨h.size_eq, h.forest, h.node, h.stk, h.clean⟩, h.main⟩

/-! ## Searching it -/

/-- A labelling with more checks returns less often, and so does the search. -/
theorem hvnCheckEdge_within {visit visit' : OffGraph → Nat → Run OffGraph}
    (h : ∀ o n, Within (visit o n) (visit' o n)) (n : Nat) (o : OffGraph) (dest : Nat) :
    Within (hvnCheckEdge visit n o dest) (hvnCheckEdge visit' n o dest) := by
  unfold hvnCheckEdge
  refine (Within.refl _).bind fun _ => ?_
  dsimp only
  split
  · exact .refl _
  · split
    · exact (h _ _).bind fun _ => .refl _
    · exact .refl _

section

variable {label label' : Labelling} (h : ∀ o n, Within (label o n) (label' o n))

include h

theorem hvnDfsWith_within : ∀ (fuel : Nat) (o : OffGraph) (n : Nat),
    Within (hvnDfsWith label fuel o n) (hvnDfsWith label' fuel o n)
  | 0, _, _ => .refl _
  | fuel + 1, o, n => by
      have hedge : ∀ o d, Within (hvnCheckEdge (hvnDfsWith label fuel) n o d)
          (hvnCheckEdge (hvnDfsWith label' fuel) n o d) :=
        hvnCheckEdge_within (hvnDfsWith_within fuel) n
      rw [hvnDfsWith, hvnDfsWith]
      refine (Within.refl _).bind fun _ => (Within.refl _).bind fun _ => ?_
      dsimp only
      refine (Within.foldlM hedge _ _).bind fun o => (Within.foldlM hedge _ o).bind fun o => ?_
      refine (Within.refl _).bind fun _ => ?_
      split
      · exact (Within.refl _).bind fun t => (Within.refl _).bind fun _ => h _ _
      · exact .refl _

theorem hvnSearchWith_within (o : OffGraph) :
    Within (hvnSearchWith label o) (hvnSearchWith label' o) := by
  unfold hvnSearchWith
  refine (Within.foldlM (fun o i => ?_) _ _).bind fun _ => .refl _
  split
  · exact hvnDfsWith_within h _ o i
  · exact .refl _

end

theorem checkedLabel_within (label : Labelling) (o : OffGraph) (n : Nat) :
    Within (checkedLabel label o n) (label o n) := .require_left "unlabeled neighbor" _

/-- What each of the two labellings leaves at a representative. -/
def GoodLabels (doUnion : Bool) (pe : Finset Nat) : Prop := pe ≠ ∅ ∧ (doUnion = false → pe.card = 1)

theorem labelOf_labels (doUnion : Bool) : LabelsWell (GoodLabels doUnion) (labelOf doUnion) := by
  intro o n hrep hroot h
  cases doUnion with
  | false =>
      refine (hvnLabel_labels hrep hroot h).imp fun o' h' => ⟨h'.1, fun he => ?_, fun _ => h'.2⟩
      exact absurd (he ▸ h'.2) (by simp)
  | true =>
      exact (huLabel_labels hrep hroot h).imp fun o' h' => ⟨h'.1, h'.2, fun he => by cases he⟩

/-- A node that is reached from another one may be visited. -/
theorem OffGraph.Clean.mutual (hc : g.Clean) {x y : Nat} (hxy : Mutual g.Succ x y) (hne : x ≠ y) :
    g.Valid x ∧ g.Valid y := by
  have hto : ∀ {x y}, ReflTransGen g.Succ x y → x ≠ y → g.Valid y := by
    intro x y hxy hne
    cases hxy with
    | refl => exact absurd rfl hne
    | tail _ hs => exact hc _ _ hs
  exact ⟨hto hxy.2 hne.symm, hto hxy.1 hne⟩

/-- The search of an offline graph ends, with an empty stack and one representative for each
strongly connected component, and every representative has labels, in HVN just one. No component is
labelled before what its edges lead to: with a check of that the search is the same. -/
theorem hvnSearch_components (doUnion : Bool) (hn : makeOffNodes a = .ok o)
    (he : addOffEdges a false { o with nextPtrEq := a.size, gep2pe := [] } = .ok g) :
    ∃ o', hvnSearch doUnion g = .ok o' ∧
      hvnSearchWith (checkedLabel (labelOf doUnion)) g = .ok o' ∧ o'.dfsStk = [] ∧
      (∀ x y, o'.rep x = o'.rep y ↔ Mutual g.Succ x y) ∧
      ∀ x, firstAFP ≤ x → x < g.size → (o'.nodes (o'.rep x)).ptrEq ≠ ∅ ∧
        (doUnion = false → (o'.nodes (o'.rep x)).ptrEq.card = 1) := by
  have hg := OffGraph.built hn he
  have hl : LabelsWell (GoodLabels doUnion) (labelOf doUnion) := labelOf_labels doUnion
  have hspec := hvnSearchWith_tracks (LabelsWell.checked hl) (fun _ h => h.1) hg.toUnsearched
  cases hrun : hvnSearchWith (checkedLabel (labelOf doUnion)) g with
  | error e => exact (hspec.stop hrun).elim
  | ok o' =>
      obtain ⟨T, hb, hall⟩ := hspec.result hrun
      have hsame := hvnSearchWith_within (checkedLabel_within _) g o' hrun
      refine ⟨o', (hvnSearch_eq doUnion g).trans hsame, rfl, ?_, fun x y => ?_, fun x hx hlt => ?_⟩
      · rw [hb.tracks.stk, hb.inv.stack_empty hb.path]
      · refine (hb.tracks.rep x y).trans ⟨fun hm => ?_, fun hxy => ?_⟩
        · rcases hm with rfl | ⟨-, hxy⟩
          · exact .refl x
          · exact hxy
        · by_cases hne : x = y
          · exact .inl hne
          · obtain ⟨hvx, hvy⟩ := hg.clean.mutual hxy hne
            exact .inr ⟨⟨hall x hvx, hall y hvy⟩, hxy⟩
      · have hdone := hall x ⟨Nat.pos_iff_ne_zero.mp hx, hlt⟩
        refine hb.tracks.label _ (o'.isRep_rep x) ?_
        rcases hb.tracks.rep_self x with heq | hm
        · exact heq.symm ▸ hdone
        · exact hm.1.1

/-- `p = &x; q = p; p = q; r = *q`, over the object 3. -/
def copyCycle : Anders :=
  .initial 7 3 (fun n => if n = 3 then { val := some (.other 0 true), objSz := 1 } else {})
    [⟨.addrOf, 4, 3, 0⟩, ⟨.copy, 5, 4, 0⟩, ⟨.copy, 4, 5, 0⟩, ⟨.load, 6, 5, 0⟩]

theorem hvnSearch_components_cycle : ∃ o g, makeOffNodes copyCycle = .ok o ∧
    addOffEdges copyCycle false { o with nextPtrEq := copyCycle.size, gep2pe := [] } = .ok g ∧
    Mutual g.Succ (g.main2off 4) (g.main2off 5) := by
  have hmake : (makeOffNodes copyCycle).toOption.any (fun o =>
      (addOffEdges copyCycle false
        { o with nextPtrEq := copyCycle.size, gep2pe := [] }).toOption.any fun g =>
        (hvnSearch false g).toOption.any fun o' =>
          decide (o'.rep (g.main2off 4) = o'.rep (g.main2off 5))) = true := by decide +kernel
  cases hn : makeOffNodes copyCycle with
  | error e =>
      rw [hn] at hmake
      cases hmake
  | ok o =>
      rw [hn] at hmake
      cases he : addOffEdges copyCycle false
          { o with nextPtrEq := copyCycle.size, gep2pe := [] } with
      | error e =>
          rw [Except.toOption, Option.any, he] at hmake
          cases hmake
      | ok g =>
          rw [Except.toOption, Option.any, he] at hmake
          obtain ⟨o', hrun, -, -, hrep, -⟩ := hvnSearch_components false hn he
          rw [Except.toOption, Option.any, hrun] at hmake
          exact ⟨o, g, rfl, he, (hrep _ _).mp (of_decide_eq_true hmake)⟩

end PtrAnalysis
