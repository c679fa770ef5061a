import PtrAnalysis.Invariant

/-!
# Merges lose nothing

A merge resets what counts as processed, so the merged node has to be visited
again; it is owed until it is pushed. A cascade merges two targets in addition,
and nobody pushes those. They are found through the merged node: when it is
visited, its pointees are collapsed into the target. But it is visited only if it
points to something, and if it does not, the cascade lost its node. Hence the
condition: no cascade starts from an empty points-to set.
-/

namespace PtrAnalysis

open Run PtrAnalysis.Graph

/-- `g2` is `g` with `c` put under `a`. What waited for the target of `c` waits for that
of `a` now, or is in `B`. -/
structure AbsorbedTo (g : Graph) (a c : Nat) (B : Set Nat) (g2 : Graph) : Prop where
  coarser : Coarser g g2
  nodes : g2.nodes = (g.absorb a c).nodes
  forest : g2.forest = (g.absorb a c).forest
  others : ∀ K, K ≠ a → K ≠ c → g2.hv K = g.hv K
  parent : g.hv a ≠ 0 → g2.hv a = g.hv a
  child : g.hv c ≠ 0 → g2.hv a ≠ 0 ∧ g2.rep (g2.hv a) = g2.rep (g.hv c) ∨ g.hv c ∈ B

section

variable {W : Type} {g g2 : Graph} {a c : Nat} {B : Set Nat}

namespace AbsorbedTo

theorem isRep (h : AbsorbedTo g a c B g2) (hm : Mergeable g a c) (x : Nat) :
    g2.isRep x = true ↔ g.isRep x = true ∧ x ≠ c := by
  have hx := absorb_isRep hm x
  unfold Graph.isRep at hx ⊢
  rwa [h.forest]

theorem rep (h : AbsorbedTo g a c B g2) (hm : Mergeable g a c) (x : Nat) :
    g2.rep x = if g.rep x = c then a else g.rep x := by
  have hx := absorb_rep hm x
  unfold Graph.rep at hx ⊢
  rwa [h.forest]

theorem both (h : AbsorbedTo g a c B g2) (hm : Mergeable g a c) : g2.rep a = a ∧ g2.rep c = a := by
  have hb := absorb_both hm
  unfold Graph.rep at hb ⊢
  rwa [h.forest]

/-- The merged node: everything together, and nothing of it processed. -/
theorem parentNode (h : AbsorbedTo g a c B g2) :
    g2.nodes a = takeOver a c (g.nodes a) (g.nodes c) := by
  rw [h.nodes]
  exact if_pos rfl

theorem otherNode (h : AbsorbedTo g a c B g2) {n : Nat} (ha : n ≠ a) (hc : n ≠ c) :
    g2.nodes n = g.nodes n := by
  rw [h.nodes]
  simp only [Graph.absorb, if_neg ha, if_neg hc]

theorem childNode (h : AbsorbedTo g a c B g2) (hne : a ≠ c) : g2.nodes c = cleared (g.nodes c) := by
  rw [h.nodes]
  simp only [Graph.absorb, if_neg hne.symm, if_true]

end AbsorbedTo

theorem withGraph_further {s : Solver W} (hg : Coarser s.toGraph g2) : Further s (s.withGraph g2) :=
  ⟨hg.edge, hg.pts, Finset.Subset.refl _⟩

end

section

variable {W : Type} [Worklist W] [LawfulWorklist W] {M : Module} {b : Anders} {v a c : Nat}
  {d : Finset Nat} {A B : Set Nat} {s : Solver W} {g2 : Graph}

theorem Live.otherNode {n : Nat} (h : Live s n) (hn : g2.nodes n = s.nodes n) :
    Live (s.withGraph g2) n := by
  obtain ⟨p, hp, hv⟩ := h
  refine ⟨p, hp, fun hu => ?_⟩
  rw [show (s.withGraph g2).nodes n = s.nodes n from hn]
  exact hv hu

theorem Pending.absorb (hm : Mergeable s.toGraph a c) (hg : AbsorbedTo s.toGraph a c B g2) {n : Nat}
    (h : Pending A s n) (hn : s.isRep n = true) :
    Pending (insert a A ∪ B) (s.withGraph g2) (g2.rep n) := by
  have hmerged : ∀ m, g2.rep m = a → Pending (insert a A ∪ B) (s.withGraph g2) (g2.rep m) := by
    intro m hma
    have ho : Pending (insert a A ∪ B) (s.withGraph g2) (g2.rep a) :=
      .owed (.inl (Set.mem_insert ..))
    rw [(hg.both hm).1] at ho
    rwa [hma]
  -- the merged node has something new if one of the two had
  have hnew : ∀ K, K = a ∨ K = c → ¬ s.pts K ⊆ s.prev K →
      ¬ (s.withGraph g2).pts a ⊆ (s.withGraph g2).prev a := by
    intro K hK hne hsub
    have hprev : (s.withGraph g2).prev a = ∅ := by
      have hp := congrArg Node.prevPointsTo hg.parentNode
      exact hp
    have hpts : (s.withGraph g2).pts a = s.pts a ∪ s.pts c := by
      have hp := congrArg Node.pointsTo hg.parentNode
      exact hp
    rw [hprev, hpts] at hsub
    refine hne fun o ho => absurd (hsub ?_) (Finset.notMem_empty o)
    rcases hK with rfl | rfl
    · exact Finset.mem_union_left _ ho
    · exact Finset.mem_union_right _ ho
  induction h with
  | @live n h =>
      by_cases hna : n = a
      · exact hmerged n (hna ▸ (hg.both hm).1)
      · by_cases hnc : n = c
        · exact hmerged n (hnc ▸ (hg.both hm).2)
        · have hrep : g2.rep n = n := rep_eq_self.mpr ((hg.isRep hm n).mpr ⟨hn, hnc⟩)
          rw [hrep]
          exact .live (h.otherNode (hg.otherNode hna hnc))
  | @owed m h =>
      rw [hg.coarser.rep (rep_rep s.toGraph m)]
      exact .owed (s := s.withGraph g2) (.inl (Set.mem_insert_of_mem _ h))
  | @target K hK hvK hnewK _ ih =>
      rw [hg.coarser.rep (rep_rep s.toGraph (s.hv K))]
      have ha : (s.withGraph g2).isRep a = true := (hg.isRep hm a).mpr ⟨hm.isRep.1, hm.ne⟩
      have hpend : Pending (insert a A ∪ B) (s.withGraph g2) a := by
        have hp := hmerged a (hg.both hm).1
        rwa [(hg.both hm).1] at hp
      by_cases hKa : K = a
      · subst hKa
        have ht := Pending.target (s := s.withGraph g2) ha ((hg.parent hvK).symm ▸ hvK)
          (hnew K (.inl rfl) hnewK) hpend
        rw [show (s.withGraph g2).hv K = s.hv K from hg.parent hvK] at ht
        exact ht
      · by_cases hKc : K = c
        · subst hKc
          rcases hg.child hvK with ⟨hva, heq⟩ | hB
          · rw [← heq]
            exact .target (s := s.withGraph g2) ha hva (hnew K (.inr rfl) hnewK) hpend
          · exact .owed (s := s.withGraph g2) (.inr hB)
        · have hnode := hg.otherNode hKa hKc
          have hrep : (s.withGraph g2).isRep K = true := (hg.isRep hm K).mpr ⟨hK, hKc⟩
          have ih' := ih hK
          rw [show g2.rep K = K from rep_eq_self.mpr hrep] at ih'
          have ht := Pending.target (s := s.withGraph g2) hrep ((hg.others K hKa hKc).symm ▸ hvK) (by
            unfold Solver.pts Solver.prev
            rw [show (s.withGraph g2).nodes K = s.nodes K from hnode]
            exact hnewK) ih'
          rw [show (s.withGraph g2).hv K = s.hv K from hg.others K hKa hKc] at ht
          exact ht

theorem Sound.absorb (hm : Mergeable s.toGraph a c) (hg : AbsorbedTo s.toGraph a c B g2)
    (h : Sound M b v d A s) : Sound M b v d (insert a A ∪ B) (s.withGraph g2) := by
  have hfurther := withGraph_further hg.coarser
  -- apart from the merged node, the sets are what they were
  have hother : ∀ n, (s.withGraph g2).isRep n = true → n ≠ a →
      s.isRep n = true ∧ n ≠ c ∧ g2.nodes n = s.nodes n := fun n hn hna =>
    have hr := (hg.isRep hm n).mp hn
    ⟨hr.1, hr.2, hg.otherNode hna hr.2⟩
  have hproc : ∀ n, g2.nodes n = s.nodes n →
      (s.withGraph g2).processed v d n = s.processed v d n := fun n hn =>
    processed_eq (by unfold Solver.prev; exact congrArg Node.prevPointsTo hn)
  have hempty : (s.withGraph g2).processed v d a = ∅ := by
    have hp : (s.withGraph g2).prev a = ∅ := by
      have hp := congrArg Node.prevPointsTo hg.parentNode
      exact hp
    exact Finset.subset_empty.mp (hp ▸ processed_subset ..)
  -- a set that is not merged has the constraints it had
  have hsame : ∀ x, g2.rep x ≠ a → g2.rep x = s.rep x := by
    intro x hx
    rw [hg.rep hm] at hx ⊢
    split
    · rename_i hc
      rw [if_pos hc] at hx
      exact absurd rfl hx
    · rfl
  refine ⟨?_, fun hmm x => ?_, fun C hC ht => ?_, fun C hC ht => ?_, fun n => ?_, fun n hn e he => ?_,
    fun C hC hc o ho => ?_, fun n hn hp => ?_⟩
  · exact h.tables.of_eq rfl rfl rfl rfl rfl hg.coarser.val
  · exact (hg.coarser.apart hmm).trans (h.apart hmm)
  · exact hfurther.pts _ (h.addr C hC ht)
  · exact hfurther.edge (h.copy C hC ht)
  · unfold Solver.prev Solver.pts
    change (g2.nodes n).prevPointsTo ⊆ (g2.nodes n).pointsTo
    by_cases hna : n = a
    · rw [hna, hg.parentNode]
      exact Finset.empty_subset _
    · by_cases hnc : n = c
      · rw [hnc, hg.childNode hm.ne]
        exact Finset.empty_subset _
      · rw [hg.otherNode hna hnc]
        exact h.sub n
  · by_cases hna : n = a
    · rw [hna, hempty]
      exact Finset.empty_subset _
    · obtain ⟨hn', -, hnode⟩ := hother n hn hna
      rw [show (s.withGraph g2).nodes n = s.nodes n from hnode] at he
      rw [hproc n hnode]
      exact (h.flow n hn' e he).trans (hfurther.pts e)
  · by_cases hna : g2.rep C.ptr = a
    · rw [show (s.withGraph g2).rep C.ptr = a from hna, hempty] at ho
      simp at ho
    · have hnode := (hother (g2.rep C.ptr) (isRep_rep ..) hna).2.2
      rw [show (s.withGraph g2).rep C.ptr = g2.rep C.ptr from rfl, hproc _ hnode, hsame _ hna] at ho
      exact (h.done C hC hc o ho).further hfurther
  · have hna : n ≠ a := by
      rintro rfl
      refine hp ?_
      have ho : Pending (insert n A ∪ B) (s.withGraph g2) (g2.rep n) :=
        .owed (.inl (Set.mem_insert ..))
      rwa [(hg.both hm).1] at ho
    obtain ⟨hn', -, hnode⟩ := hother n hn hna
    have hpts : (s.withGraph g2).pts n = s.pts n := by
      unfold Solver.pts
      exact congrArg Node.pointsTo hnode
    have hnp : ¬ Pending A s n := fun hpend => hp (by
      have hp' := hpend.absorb hm hg hn'
      rwa [show g2.rep n = n from rep_eq_self.mpr hn] at hp')
    rcases h.rest n hn' hnp with hq | ⟨rfl, hsub⟩
    · refine .inl ⟨fun e he => ?_, fun C hC hc hCn => ?_⟩
      · rw [show (s.withGraph g2).nodes n = s.nodes n from hnode] at he
        rw [hpts]
        exact (hq.edges e he).trans (hfurther.pts e)
      · have hCn' : s.rep C.ptr = n := (hsame C.ptr (hCn.symm ▸ hna)).symm.trans hCn
        rw [hpts, hproc n hnode]
        exact hq.cons C hC hc hCn'
    · refine .inr ⟨rfl, ?_⟩
      rw [hpts]
      unfold Solver.prev
      rw [show (s.withGraph g2).nodes n = s.nodes n from hnode]
      exact hsub

omit [Worklist W] [LawfulWorklist W] in
/-- The entry of a node that is none any more is not looked at. -/
theorem alike_setHcdVar {g : Graph} {n : Nat} (hn : g.isRep n = false) (x : Option Nat) :
    Alike (s.withGraph g) (s.withGraph (g.setHcdVar n x)) where
  forest := rfl
  pts _ := rfl
  prev _ := rfl
  copyTo _ := rfl
  hv m hm := by
    have hne : m ≠ n := fun he => by
      rw [he, show (s.withGraph g).isRep n = g.isRep n from rfl, hn] at hm
      cases hm
    exact (setHcdVar_hv g n x m).trans (if_neg hne)
  ext := rfl
  tables := ⟨rfl, rfl, rfl, rfl, rfl, fun _ => rfl⟩

/-- Owing the merged node is owing the first one. -/
theorem Sound.oweFirst {g g1 : Graph} {n1 n2 : Nat} (hm : Mergeable g n1 n2)
    (hr : byRank g n1 n2 = (a, c)) (hrep : ∀ x, g1.rep x = (g.absorb a c).rep x)
    (h : Sound M b v d (insert a A ∪ ∅) (s.withGraph g1)) :
    Sound M b v d (insert n1 A) (s.withGraph g1) := by
  obtain ⟨h2, -⟩ := byRank_both (P := fun x => g1.rep x = g1.rep a) hr rfl (by
    rw [hrep, hrep, (absorb_both (hm.byRank hr)).1, (absorb_both (hm.byRank hr)).2])
  refine h.alike ⟨rfl, fun _ => rfl, fun _ => rfl, fun _ => rfl, fun _ _ => rfl, rfl,
    rfl, rfl, rfl, rfl, rfl, fun _ => rfl⟩ (fun m _ hl => .live hl) fun m hm => ?_
  have ho : ∀ x ∈ insert n1 A, Pending (insert n1 A) (s.withGraph g1) (g1.rep x) :=
    fun x hx => .owed hx
  rcases hm.resolve_right id with rfl | hm
  · rw [show (s.withGraph g1).rep m = g1.rep n1 from h2.symm]
    exact ho n1 (Set.mem_insert ..)
  · exact ho m (Set.mem_insert_of_mem _ hm)

/-- No cascade started from an empty set so far, or everything is owed a visit anyway. -/
def Watched (E : Set Nat) (g : Graph) : Prop := ∅ ∈ g.cascades → E = Set.univ

/-- A merge loses nothing if no cascade on the way started from an empty set, or if
everything is owed a visit anyway. -/
theorem MergeRun.sound {g g' : Graph} {n1 n2 r : Nat} (hrun : MergeRun g n1 n2 g' r)
    (hcasc : Watched A g') (h : Sound M b v d A (s.withGraph g)) :
    Sound M b v d (insert n1 A) (s.withGraph g') := by
  induction hrun generalizing A with
  | @plain g n1 n2 a c hm hr hc =>
      have hab := hm.byRank hr
      refine Sound.oweFirst hm hr (fun _ => rfl) (Sound.absorb (s := s.withGraph g) hab ?_ h)
      exact ⟨absorb_coarser hab, rfl, rfl, fun _ _ _ => rfl, fun _ => rfl, fun h => absurd hc h⟩
  | @adopt g n1 n2 a c hm hr hc ha =>
      have hab := hm.byRank hr
      refine Sound.oweFirst hm hr (fun _ => rfl) (Sound.absorb (s := s.withGraph g) hab ?_ h)
      refine ⟨(absorb_coarser hab).trans (.ofSame rfl rfl rfl rfl (List.Subset.refl _)), rfl, rfl,
        fun K hKa hKc => ?_, fun h => absurd ha h, fun _ => .inl ?_⟩
      · rw [setHcdVar_hv, if_neg hKc, setHcdVar_hv, if_neg hKa, absorb_hv]
        rfl
      · rw [setHcdVar_hv, if_neg hab.ne, setHcdVar_hv, if_pos rfl]
        exact ⟨hc, rfl⟩
  | @same g n1 n2 a c hm hr hc ha heq =>
      have hab := hm.byRank hr
      refine Sound.oweFirst hm hr (fun _ => rfl) (Sound.absorb (s := s.withGraph g) hab ?_ h)
      refine ⟨(absorb_coarser hab).trans (.ofSame rfl rfl rfl rfl (List.Subset.refl _)), rfl, rfl,
        fun K hKa hKc => ?_, fun h => ?_, fun _ => .inl ?_⟩
      · rw [setHcdVar_hv, if_neg hKc, absorb_hv]
        rfl
      · rw [setHcdVar_hv, if_neg hab.ne, absorb_hv]
        rfl
      · rw [setHcdVar_hv, if_neg hab.ne, absorb_hv]
        exact ⟨ha, heq⟩
  | @cascade g g' n1 n2 a c r hm hr hc ha hne hrun hkeep ih =>
      have hab := hm.byRank hr
      set g1 := (g.absorb a c).recordCascade a with hg1
      have habs : AbsorbedTo g a c {g.hv c} g1 :=
        ⟨(absorb_coarser hab).trans (.ofSame rfl rfl rfl rfl (List.subset_cons_self ..)), rfl, rfl,
          fun _ _ _ => rfl, fun _ => rfl, fun _ => .inr rfl⟩
      have h2 := ih (fun he => by simp [hcasc he]) (Sound.absorb (s := s.withGraph g) hab habs h)
      have hco := hrun.spec.1
      have hc' : g'.isRep c = false := by
        by_contra hrep
        rw [Bool.not_eq_false] at hrep
        exact ((habs.isRep hab c).mp (hco.isRep hrep)).2 rfl
      have hal := alike_setHcdVar (s := s) hc' none
      by_cases hempty : ∅ ∈ g'.cascades
      · refine h2.alike hal (fun m _ hl => .live hl) fun m _ => ?_
        refine .owed (s := s.withGraph (g'.setHcdVar c none)) (Set.mem_insert_of_mem _ ?_)
        rw [hcasc hempty]
        trivial
      -- the merged node points to something, and nothing of it was processed
      have hnew : ¬ (g'.nodes (g'.rep a)).pointsTo ⊆ (g'.nodes (g'.rep a)).prevPointsTo := by
        intro hsub
        have hprev := hco.prev a
        rw [(habs.both hab).1, habs.parentNode] at hprev
        have hpts := hco.pts a
        rw [(habs.both hab).1] at hpts
        have hemp : (g1.nodes a).pointsTo = ∅ :=
          Finset.subset_empty.mp ((hpts.trans hsub).trans hprev)
        exact hempty (hco.cascades (hemp ▸ List.mem_cons_self ..))
      have hn1 : g'.rep n1 = g'.rep a :=
        (byRank_both (P := fun x => g'.rep x = g'.rep a) hr rfl
          (hco.rep ((habs.both hab).2.trans (habs.both hab).1.symm))).1
      have hpend : Pending (insert n1 A) (s.withGraph (g'.setHcdVar c none)) (g'.rep a) := by
        rw [← hn1]
        exact .owed (s := s.withGraph (g'.setHcdVar c none)) (Set.mem_insert ..)
      -- so the merged targets are pending because of it
      obtain ⟨hv', hrep'⟩ := hrun.target ((habs.isRep hab a).mpr ⟨hab.isRep.1, hab.ne⟩) ha
      have htarget : Pending (insert n1 A) (s.withGraph (g'.setHcdVar c none)) (g'.rep (g.hv a)) := by
        have hvr := hal.hv (g'.rep a) (isRep_rep g' a)
        have ht := Pending.target (A := insert n1 A) (s := s.withGraph (g'.setHcdVar c none))
          (K := g'.rep a) (isRep_rep g' a) (hvr.symm ▸ hv') hnew hpend
        rw [hvr] at ht
        exact hrep' ▸ ht
      have hmerged : g'.rep (g1.rep (g.hv a)) = g'.rep (g.hv a) := hco.rep (rep_rep _ _)
      have hboth : g'.rep (g.hv c) = g'.rep (g.hv a) := by
        have h3 : g'.rep (g1.rep (g.hv c)) = g'.rep (g.hv c) := hco.rep (rep_rep _ _)
        exact (h3.symm.trans hrun.spec.2.2.1).trans (hrun.spec.2.1.symm.trans hmerged)
      refine h2.alike hal (fun m _ hl => .live hl) fun m hm => ?_
      change Pending (insert n1 A) (s.withGraph (g'.setHcdVar c none)) (g'.rep m)
      rcases hm with rfl | (rfl | hmA) | rfl
      · exact hmerged.symm ▸ htarget
      · exact hpend
      · exact .owed (s := s.withGraph (g'.setHcdVar c none)) (Set.mem_insert_of_mem _ hmA)
      · exact hboth.symm ▸ htarget

end

end PtrAnalysis
