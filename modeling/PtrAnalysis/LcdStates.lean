import PtrAnalysis.CopyEdges
import PtrAnalysis.GepTables
import PtrAnalysis.Factor
import PtrAnalysis.Hcd

/-!
# The states in which cycle detection runs

Every state the solver reaches is fit for a search: copy edges are no loops, and the null
node and the unknown pointer are at neither end of one. So a run of cycle detection comes to
its end without a complaint wherever merging the components starts no cascade. A cascade may
merge nodes that are still walked.
-/

namespace PtrAnalysis

open Run PtrAnalysis.Graph

/-! ## The graph -/

/-- The null node has no pointees and no edges, the unknown pointer no edges. -/
structure Graph.Edged (g : Graph) : Prop where
  alone : ∀ {m}, m = 0 ∨ m = i2p → ∀ {x}, g.rep x = m ↔ x = m
  pts : ∀ n, ∀ o ∈ (g.nodes n).pointsTo, n ≠ 0 ∧ o ≠ 0
  copy : ∀ a, ∀ b ∈ (g.nodes a).copyTo, ProperEdge a b ∧ b ≠ 0

namespace Graph.Edged

variable {g : Graph} {a b : Nat}

theorem rep_ne (h : g.Edged) {m x : Nat} (hm : m = 0 ∨ m = i2p) (hx : x ≠ m) : g.rep x ≠ m :=
  fun he => hx ((h.alone hm).mp he)

theorem absorb (h : g.Edged) (hm : Mergeable g a b) : (g.absorb a b).Edged where
  alone hx := ((absorb_coarser hm).apart hx).trans (h.alone hx)
  pts n o ho := by
    simp only [Graph.absorb, takeOver, cleared] at ho
    split at ho
    · rename_i hn
      refine ⟨hn ▸ hm.valid1.1, ?_⟩
      rcases Finset.mem_union.mp ho with ho | ho
      · exact (h.pts a o ho).2
      · exact (h.pts b o ho).2
    · split at ho
      · simp at ho
      · exact h.pts n o ho
  copy n e he := by
    simp only [Graph.absorb, takeOver, cleared] at he
    split at he
    · rename_i hn
      obtain ⟨-, he⟩ := Finset.mem_erase.mp he
      obtain ⟨hea, he⟩ := Finset.mem_erase.mp he
      have hold : e ≠ i2p ∧ e ≠ 0 := by
        rcases Finset.mem_union.mp he with he | he
        · exact ⟨(h.copy a e he).1.2.1, (h.copy a e he).2⟩
        · exact ⟨(h.copy b e he).1.2.1, (h.copy b e he).2⟩
      exact ⟨⟨hn ▸ hm.not_i2p.1, hold.1, fun hne => hea (hne ▸ hn)⟩, hold.2⟩
    · split at he
      · simp at he
      · exact h.copy n e he

end Graph.Edged

theorem MergeRun.edged {g g' : Graph} {n1 n2 r : Nat} (hrun : MergeRun g n1 n2 g' r)
    (h : g.Edged) : g'.Edged := by
  induction hrun with
  | plain hm hr _ => exact h.absorb (hm.byRank hr)
  | adopt hm hr _ _ =>
      have hab := h.absorb (hm.byRank hr)
      exact ⟨hab.alone, hab.pts, hab.copy⟩
  | same hm hr _ _ _ =>
      have hab := h.absorb (hm.byRank hr)
      exact ⟨hab.alone, hab.pts, hab.copy⟩
  | cascade hm hr _ _ _ _ _ ih =>
      have hab := h.absorb (hm.byRank hr)
      have hg := ih ⟨hab.alone, hab.pts, hab.copy⟩
      exact ⟨hg.alone, hg.pts, hg.copy⟩

section

variable {W : Type} [Worklist W] [LawfulWorklist W] {M : Module} {s s' : Solver W}

/-! ## The state -/

/-- Between two visits: edges are proper, constraints and tables do not lead to the null
node, and the search is over. -/
structure Solver.Edged (s : Solver W) : Prop where
  graph : s.toGraph.Edged
  cons : ∀ C ∈ s.cplxCons, C.dest ≠ 0
  gep : ∀ C ∈ s.cplxCons, C.type = .gep → ∀ p ∈ s.geps.getD C.off ∅, p.2 ≠ 0
  start : ∀ n ∈ s.lcdStarts, n ≠ 0 ∧ n ≠ i2p
  stk : s.lcdStk = []

omit [Worklist W] [LawfulWorklist W] in
theorem Solver.Edged.withGraph (h : s.Edged) {g : Graph} (hg : g.Edged) : (s.withGraph g).Edged :=
  ⟨hg, h.cons, h.gep, h.start, h.stk⟩

omit [Worklist W] [LawfulWorklist W] in
/-- A change of anything but sets and edges of a node. -/
theorem Solver.Edged.modify (h : s.Edged) (n : Nat) {f : Node → Node}
    (hpts : ∀ N, (f N).pointsTo = N.pointsTo) (hcopy : ∀ N, (f N).copyTo = N.copyTo) :
    (s.modify n f).Edged := by
  refine h.withGraph ⟨h.graph.alone, fun m o ho => ?_, fun m e he => ?_⟩
  · simp only [Graph.modify, Function.update_apply] at ho
    split at ho
    · rename_i hm
      rw [hpts, ← hm] at ho
      exact h.graph.pts m o ho
    · exact h.graph.pts m o ho
  · simp only [Graph.modify, Function.update_apply] at he
    split at he
    · rename_i hm
      rw [hcopy, ← hm] at he
      exact h.graph.copy m e he
    · exact h.graph.copy m e he

variable {D : Demand} {owed : Nat → Prop}

/-- Growth keeps edges proper if what is demanded is not for the null node. -/
theorem Solver.Edged.grows (h : s.Edged) (hg : Grows M D owed s s')
    (hedge : ∀ a b, D.edge a b → b ≠ 0) (hfact : ∀ n o, D.fact n o → n ≠ 0 ∧ o ≠ 0) : s'.Edged := by
  have hmay : ∀ a b, D.MayEdge M s.rep a b → b ≠ 0 := by
    rintro a b (hD | ⟨p, -, vn, -, h0, rfl, -⟩)
    · exact hedge a b hD
    · exact h.graph.rep_ne (.inl rfl) h0
  have hpts : ∀ n o, o ∈ s'.pts n → n ≠ 0 ∧ o ≠ 0 := by
    refine hg.least (fun n o => n ≠ 0 ∧ o ≠ 0) h.graph.pts ?_ ?_
    · exact fun a b o hm _ ho => ⟨hmay a b hm, ho.2⟩
    · rintro n o (hD | ⟨p, -, vn, -, h0, rfl, ho0, -⟩)
      · exact hfact n o hD
      · exact ⟨h.graph.rep_ne (.inl rfl) h0, ho0⟩
  have hcopy : ∀ a, ∀ b ∈ (s'.nodes a).copyTo, ProperEdge a b ∧ b ≠ 0 := by
    intro a b hb
    rcases hg.copy_new a b hb with hold | ⟨hm, hp, -⟩
    · exact h.graph.copy a b hold
    · exact ⟨hp, hmay a b hm⟩
  refine ⟨⟨?_, hpts, hcopy⟩, ?_, ?_, fun n hn => ?_, hg.stk.trans h.stk⟩
  · rw [hg.rep]
    exact h.graph.alone
  · rw [hg.frame]
    exact h.cons
  · rw [hg.frame]
    exact h.gep
  · rcases hg.starts n hn with hold | ⟨hne, hto⟩
    · exact h.start n hold
    · obtain ⟨o, ho⟩ := Finset.nonempty_iff_ne_empty.mpr hne
      obtain ⟨b, hb⟩ := Finset.nonempty_iff_ne_empty.mpr hto
      exact ⟨(hpts n o ho).1, (hcopy n b hb).1.1⟩

/-! ## A visit -/

omit [Worklist W] [LawfulWorklist W] in
/-- Rewriting a constraint keeps the rest. -/
theorem Solver.Edged.rewrite (h : s.Edged) {C0 : Constraint} (hC0 : C0 ∈ s.cplxCons) (cid : Nat)
    (m : IcallCons) : ({ s with
      cplxCons := s.cplxCons.set cid (PtrAnalysis.rewrite s.toAnders C0), icallCons := m } :
      Solver W).Edged := by
  refine ⟨h.graph, fun C hC => ?_, fun C hC => ?_, h.start, h.stk⟩
  · rcases List.mem_or_eq_of_mem_set hC with hC | rfl
    · exact h.cons C hC
    · exact h.graph.rep_ne (.inl rfl) (h.cons C0 hC0)
  · rcases List.mem_or_eq_of_mem_set hC with hC | rfl
    · exact h.gep C hC
    · exact h.gep C0 hC0

theorem LsPassStep.edged {drop : Nat → Node → Node} {n hcdRep cid : Nat} {d : Finset Nat}
    {t t' : Solver W × List Constraint} (hstep : LsPassStep M drop n hcdRep d cid t t')
    (hdrop : ∀ N, (drop cid N).pointsTo = N.pointsTo ∧ (drop cid N).copyTo = N.copyTo)
    (hd : ∀ x ∈ d, x ≠ 0) (h : t.1.Edged) : t'.1.Edged := by
  obtain ⟨C0, C, I, u, hu, rfl⟩ := hstep
  have hC0 := List.mem_of_getElem? hu.get
  have hset := h.rewrite hC0 cid (icallOf t.1.toAnders n C0 C).2
  rw [← hu.rewritten] at hset
  have hdest : C.dest ≠ 0 := by
    rw [hu.rewritten]
    exact h.graph.rep_ne (.inl rfl) (h.cons C0 hC0)
  have hrep : ∀ x, x ≠ 0 → t.1.rep x ≠ 0 := fun x => h.graph.rep_ne (.inl rfl)
  have hdem := handleDemand_edge (M := M) (p := (· ≠ 0)) (a := t.1.toAnders) (C := C) t.2
    (decide (C0.type = .load)) I (fun h : hcdRep ≠ 0 => h) (fun x hx => hrep x (hd x hx)) hdest
    fun h0 x _ _ => hrep _ (by omega)
  have hu1 := hset.grows hu.handled.grows hdem.1 fun m o hf => absurd hf (hdem.2 m o)
  dsimp only
  split
  · exact hu1.modify n (fun N => (hdrop N).1) fun N => (hdrop N).2
  · exact hu1

theorem GepPassStep.edged {drop : Nat → Node → Node} {n cid : Nat} {d : Finset Nat}
    {t t' : Solver W × List Constraint} (hstep : GepPassStep M drop n d cid t t')
    (hdrop : ∀ N, (drop cid N).pointsTo = N.pointsTo ∧ (drop cid N).copyTo = N.copyTo)
    (h : t.1.Edged) : t'.1.Edged := by
  obtain ⟨C0, C, u, hu, rfl⟩ := hstep
  have hC0 := List.mem_of_getElem? hu.get
  have hset := h.rewrite hC0 cid t.1.icallCons
  rw [← hu.rewritten] at hset
  have hdest : C.dest ≠ 0 := by
    rw [hu.rewritten]
    exact h.graph.rep_ne (.inl rfl) (h.cons C0 hC0)
  have himage : ∀ o ∈ gepImage t.1.geps C.off d, o ≠ 0 := by
    intro o ho
    obtain ⟨p, hp, rfl⟩ := Finset.mem_image.mp ho
    have hoff : C.off = C0.off := by rw [hu.rewritten]; rfl
    exact h.gep C0 hC0 hu.type p (hoff ▸ (Finset.mem_filter.mp hp).1)
  have hu1 : u.1.Edged := by
    refine hset.grows hu.grows (fun a b hedge => ?_) fun m o hf => ?_
    · split at hedge
      · exact hedge.elim
      · exact hedge.elim
    · split at hf
      · exact hf.elim
      · obtain ⟨rfl, ho⟩ := hf
        exact ⟨hdest, himage o ho⟩
  dsimp only
  split
  · exact hu1.modify n (fun N => (hdrop N).1) fun N => (hdrop N).2
  · exact hu1

theorem VisitSteps.edged {n hcdRep : Nat} {d : Finset Nat} {s s1 s2 s3 s' : Solver W}
    (hv : VisitSteps M n hcdRep d s s1 s2 s3 s') (hd : ∀ x ∈ d, x ≠ 0) (h : s.Edged) :
    s'.Edged := by
  obtain ⟨seen1, hloads⟩ := hv.loads
  obtain ⟨seen2, hstores⟩ := hv.stores
  obtain ⟨seen3, hgeps⟩ := hv.geps
  have h1 : s1.Edged := hloads.inv (P := fun t => t.1.Edged)
    (fun _ _ _ _ hR => hR.edged (fun _ => ⟨rfl, rfl⟩) hd) h
  have h2 : s2.Edged := hstores.inv (P := fun t => t.1.Edged)
    (fun _ _ _ _ hR => hR.edged (fun _ => ⟨rfl, rfl⟩) hd) h1
  have h3 : s3.Edged := hgeps.inv (P := fun t => t.1.Edged)
    (fun _ _ _ _ hR => hR.edged fun _ => ⟨rfl, rfl⟩) h2
  refine h3.grows hv.prop (fun a b hedge => absurd hedge (propDemand_only.1 a b)) fun m o hf => ?_
  obtain ⟨ho, e, he, rfl, -⟩ := propDemand_fact.mp hf
  exact ⟨h3.graph.rep_ne (.inl rfl) (h3.graph.copy n e (mem_ascending.mp he)).2, hd o ho⟩

omit [Worklist W] [LawfulWorklist W] in
theorem touch_edged (h : s.Edged) (n : Nat) : (touch s n).Edged := by
  have h1 : ({ s with nNodeRuns := s.nNodeRuns + 1, now := s.now + 1 } : Solver W).Edged :=
    ⟨h.graph, h.cons, h.gep, h.start, h.stk⟩
  exact h1.modify n (fun _ => rfl) fun _ => rfl

theorem VisitRun.edged {n : Nat} (hv : VisitRun M n s s') (h : s.Edged) : s'.Edged := by
  cases hv with
  | idle _ => exact touch_edged h n
  | @full r d s1 s2 t1 t2 t3 _ hstart hedges =>
      have h0 : (visitStart s n).Edged := (touch_edged h n).modify n (fun _ => rfl) fun _ => rfl
      have h1 : s1.Edged := by
        rcases hstart.collapse with ⟨-, heq⟩ | ⟨v, -, hc⟩
        · exact (Prod.mk.inj heq).1 ▸ h0
        · refine hc.inv (P := fun t => t.1.Edged) (fun x0 _ c c' hR hc => ?_) h0
          cases hR with
          | skip _ => exact hc
          | merge _ hm => exact hc.withGraph (hm.edged hc.graph)
      obtain ⟨wl, hwl⟩ := hstart.wl
      have h2 : s2.Edged := by
        rw [hwl]
        exact ⟨h1.graph, h1.cons, h1.gep, h1.start, h1.stk⟩
      refine hedges.edged (fun x hx => ?_) h2
      rw [← hstart.new] at hx
      exact (h.graph.pts n x (Finset.mem_sdiff.mp hx).1).2

/-! ## Cycle detection -/

/-- What is searched apart, edges are proper. -/
def SearchEdged (s : Solver W) : Prop := ({ s with lcdStarts := ∅, lcdStk := [] } : Solver W).Edged

/-- Cycle detection keeps edges proper. -/
theorem lcdRules_edged : LcdRules (W := W) (fun _ => True) SearchEdged (fun _ => SearchEdged)
    (fun a b => ProperEdge a b ∧ b ≠ 0) 0 where
  permits := permits_true
  fueled _ := .inl trivial
  weaken h _ := h
  merge h hrun := h.withGraph (hrun.edged h.graph)
  push h _ hwl _ _ := by
    obtain ⟨wl, rfl⟩ := hwl
    exact ⟨h.graph, h.cons, h.gep, h.start, h.stk⟩
  lcd hs h := by
    obtain ⟨hg, hcons, hgep, hstart, hstk⟩ := h
    exact ⟨hs.anders ▸ hg, hs.anders ▸ hcons, hs.anders ▸ hgep, hstart, hstk⟩
  lcdO hs h := by
    obtain ⟨hg, hcons, hgep, hstart, hstk⟩ := h
    exact ⟨hs.anders ▸ hg, hs.anders ▸ hcons, hs.anders ▸ hgep, hstart, hstk⟩
  edge h hb := h.graph.copy _ _ hb
  rep h hab hne := ⟨⟨hab.1.1, h.graph.rep_ne (.inr rfl) hab.1.2.1, hne.symm⟩,
    h.graph.rep_ne (.inl rfl) hab.2⟩
  move {s n del add} h _ _ hadd := by
    have hg : (moveEdges s n del add).toGraph.Edged := by
      refine ⟨h.graph.alone, fun m o ho => ?_, fun m e he => ?_⟩
      · rw [moveEdges_node] at ho
        exact h.graph.pts m o ho
      · rw [moveEdges_nodes] at he
        split at he
        · rename_i hm
          rcases Finset.mem_union.mp he with he | he
          · exact hm ▸ h.graph.copy n e (Finset.mem_sdiff.mp he).1
          · exact hm ▸ (hadd e he).1
        · exact h.graph.copy m e he
    exact h.withGraph hg
  ends := .inl trivial

omit [LawfulWorklist W] in
theorem runLcd_stk (h : runLcd s = .ok s') : s'.lcdStk = [] := by
  unfold runLcd at h
  dsimp only at h
  obtain ⟨s1, -, h⟩ := bind_ok.mp h
  rw [require_bind_ok] at h
  obtain rfl := Except.ok.inj h.2
  exact h.1

theorem runLcd_edged (h : s.Edged) : Spec (runLcd s) Solver.Edged fun _ => True := by
  have hsearch : SearchEdged s := ⟨h.graph, h.cons, h.gep, fun n hn => by simp at hn, rfl⟩
  refine ((runLcd_keeps lcdRules_edged hsearch (.inl trivial)).and_ok
    fun s' hrun => (⟨(runLcd_starts hrun).1, runLcd_stk hrun⟩ :
      s'.lcdStarts = ∅ ∧ s'.lcdStk = [])).imp fun s' hs' => ?_
  obtain ⟨hs, hstarts, hstk⟩ := hs'
  exact ⟨hs.graph, hs.cons, hs.gep, fun n hn => by rw [hstarts] at hn; simp at hn, hstk⟩

/-! ## Runs -/

omit [Worklist W] [LawfulWorklist W] in
theorem solveInitCons_apart {a b b' : Anders} {C : Constraint} (hrep : b.rep = a.rep)
    (h : solveInitCons b C = .ok b') (hC : C.type = .copy) : a.rep C.src ≠ a.rep C.dest := by
  unfold solveInitCons at h
  simp only [hC, hrep, require_bind_ok] at h
  exact h.1

/-- No copy of the list is between nodes of one set, and nothing is searched. -/
theorem solveInit_apart {E : Stop → Prop} (hE : Permits E) (a : Anders) :
    Spec (solveInit (W := W) a) (fun s => s.lcdStk = [] ∧
      ∀ C ∈ a.constraints, C.type = .copy → a.rep C.src ≠ a.rep C.dest) E := by
  unfold solveInit
  have h0 : ({ a with cplxCons := [] } : Anders).rep = a.rep := rfl
  refine (spec_foldlM (fun (done : List Constraint) (b : Anders) => b.rep = a.rep ∧
    ∀ C ∈ done, C.type = .copy → a.rep C.src ≠ a.rep C.dest) ⟨h0, fun C hC => by cases hC⟩
    fun done C rest b _ ⟨hrep, hdone⟩ => ?_).bind fun b hb => ?_
  · refine ((solveInitCons_adds hE (C := C) hrep).and_ok fun b' hrun =>
      solveInitCons_apart hrep hrun).imp fun b' ⟨hadd, hne⟩ => ⟨?_, fun D hD => ?_⟩
    · rw [hadd.frame]
      exact hrep
    · rcases List.mem_append.mp hD with hD | hD
      · exact hdone D hD
      · exact List.mem_singleton.mp hD ▸ hne
  · refine (solveInitPush_loop hE _ _).bind fun s ⟨hs, _⟩ => ⟨?_, hb.2⟩
    rw [hs.state]

/-- Proper constraints over a null node and an unknown pointer that are alone, and objects whose
nodes are object nodes. What is read and written through the unknown pointer's own set may be among
the constraints. -/
structure Anders.Apart (a : Anders) : Prop where
  cons : ∀ C ∈ a.constraints, C.src ≠ 0 ∧ C.dest ≠ 0 ∧ C.dest ≠ i2p ∧
    (C.type ≠ .addrOf → C.src ≠ i2p) ∧ (C.type = .gep → C.off ≠ 0)
  alone : ∀ {m}, m = 0 ∨ m = i2p → ∀ {x}, a.rep x = m ↔ x = m
  blocks : a.BlocksFit

/-- What the optimizer leaves behind. -/
structure Anders.Ready (M : Module) (a : Anders) : Prop extends a.Valid M, a.Apart

omit [Worklist W] [LawfulWorklist W] in
theorem Anders.Apart.rep_ne {a : Anders} (ha : a.Apart) {m x : Nat} (hm : m = 0 ∨ m = i2p)
    (hx : x ≠ m) : a.rep x ≠ m := fun he => hx ((ha.alone hm).mp he)

theorem InitState.edged {a b : Anders} (hs : InitState b s) (ht : TablesReady M a b)
    (ha : a.Apart) (hapart : ∀ C ∈ b.constraints, C.type = .copy → b.rep C.src ≠ b.rep C.dest)
    (hstk : s.lcdStk = []) : s.Edged := by
  have hframe := hs.built.frame
  have hcons : b.constraints = a.constraints := by rw [ht.frame]
  have hrep : b.rep = a.rep := by rw [ht.frame]
  have hrep' : s.rep = b.rep := by
    have h := congrArg (fun x : Anders => x.rep) hframe
    exact h
  have hmem : ∀ C ∈ s.cplxCons, C ∈ a.constraints := fun C hC => by
    rw [show s.cplxCons = _ from hs.built.cplx, hcons] at hC
    exact List.mem_of_mem_filter hC
  refine ⟨⟨?_, fun n o ho => ?_, fun n e he => ?_⟩, fun C hC => ?_, fun C hC htype p hp => ?_,
    fun n hn => ?_, hstk⟩
  · rw [hrep', hrep]
    exact ha.alone
  · obtain ⟨C, hC, -, rfl, rfl⟩ := (hs.built.pts n o).mp ho
    obtain ⟨hsrc, hdest, -⟩ := ha.cons C (hcons ▸ hC)
    rw [hrep]
    exact ⟨ha.rep_ne (.inl rfl) hdest, ha.rep_ne (.inl rfl) hsrc⟩
  · obtain ⟨C, hC, htype, rfl, rfl⟩ := (hs.built.copy n e).mp he
    have hne := hapart C hC htype
    obtain ⟨-, h0, hdest, hsrc, -⟩ := ha.cons C (hcons ▸ hC)
    rw [hrep] at hne ⊢
    exact ⟨⟨ha.rep_ne (.inr rfl) (hsrc (by rw [htype]; decide)), ha.rep_ne (.inr rfl) hdest, hne⟩,
      ha.rep_ne (.inl rfl) h0⟩
  · exact (ha.cons C (hmem C hC)).2.1
  · have hgep := (ha.cons C (hmem C hC)).2.2.2.2 htype
    have hoff := mem_validOff.mpr ⟨hgep, C, hmem C hC, rfl⟩
    have hgeps := congrArg (fun x : Anders => x.geps) hframe
    rw [show s.geps = _ from hgeps] at hp
    have hsum := (((ht.gepAdds ha.blocks hoff).1 p.1 p.2).mp hp).2
    omega
  · rw [hs.lcdStarts] at hn
    simp at hn

/-- Between two iterations of the main loop. -/
theorem solveIter_edged {sz : Nat} (hsz : 0 < sz) (hw : s.Within M sz) (h : s.Edged) :
    Spec (solveIter M s) (fun l => ∀ s', l = .more s' → s'.Within M sz ∧ s'.Edged)
      fun _ => True := by
  refine solveIter_rule permits_true (.inl trivial)
    (fun _ _ => ⟨fun _ => .inr trivial, fun _ => .inr trivial⟩) (fun _ _ s' he => by cases he) ?_ ?_
  · rintro s1 n p hpop - s' ⟨rfl⟩
    obtain ⟨wl, rfl⟩ := hpop.wl
    exact ⟨⟨hw.graph, hw.confined, hw.cons, hw.starts⟩, h.graph, h.cons, h.gep, h.start, h.stk⟩
  · intro s1 n p s2 hpop _ _ hrun _
    obtain ⟨wl, rfl⟩ := hpop.wl
    have hw2 := hrun.within hsz (s := { s with wl }) ⟨hw.graph, hw.confined, hw.cons, hw.starts⟩
    have h2 := hrun.edged (s := { s with wl }) ⟨h.graph, h.cons, h.gep, h.start, h.stk⟩
    refine ⟨fun s' he => Loop.more.inj he ▸ ⟨hw2, h2⟩, ?_⟩
    refine (((runLcd_within hw2 hsz).stops fun _ _ => trivial).and (runLcd_edged h2)).imp ?_
    rintro s3 ⟨⟨hw3, -⟩, h3⟩ s' ⟨rfl⟩
    exact ⟨hw3, h3⟩

theorem solveLoop_edged {sz : Nat} (hsz : 0 < sz) : ∀ (k : Nat) {s : Solver W}, s.Within M sz →
    s.Edged → Spec (solveLoop M k s)
      (fun l => ∀ s', l = .more s' → s'.Within M sz ∧ s'.Edged) fun _ => True
  | 0, s, hw, h => fun s' he => Loop.more.inj he ▸ ⟨hw, h⟩
  | k + 1, s, hw, h => by
      rw [solveLoop]
      refine (solveIter_edged hsz hw h).bind fun l hl => ?_
      cases l with
      | done s' => exact fun s'' he => by cases he
      | more s' => exact solveLoop_edged hsz k (hl s' rfl).1 (hl s' rfl).2

theorem runSolver_edged {a : Anders} (ha : a.Ready M) (k : Nat) :
    Spec (runSolver W M k a) (fun l => ∀ s, l = .more s → s.Within M a.size ∧ s.Edged)
      fun _ => True := by
  have hsz : 0 < a.size := Nat.lt_of_le_of_lt (Nat.zero_le _) ha.last
  unfold runSolver
  refine ((ptsInit_spec M a).stops fun _ _ => trivial).bind fun b hb => ?_
  have hfresh : b.Fresh := by
    rw [hb.frame]
    exact ha.fresh
  refine ((solveInit_spec permits_true hfresh).and (solveInit_apart permits_true b)).bind
    fun s ⟨hs, hstk, hapart⟩ => ?_
  exact solveLoop_edged hsz k (hs.within hb ha.toValid) (hs.edged hb ha.toApart hapart hstk)

/-! ## Where cycle detection runs -/

/-- A state between two iterations, or one behind a visit, in which the iteration may go on
with cycle detection. -/
inductive Reached (M : Module) (a : Anders) : Solver W → Prop
  | between {k : Nat} {s : Solver W} (hrun : runSolver W M k a = .ok (.more s)) : Reached M a s
  | visited {k n p : Nat} {s s' : Solver W} {wl : W} (hrun : runSolver W M k a = .ok (.more s))
      (hpop : Worklist.pop (Worklist.swapIfEmpty s.wl).2 = .ok ((n, p), wl))
      (hrep : s.isRep n = true) (hvisit : solveNode M { s with wl } n = .ok s') : Reached M a s'

theorem Reached.edged {a : Anders} (ha : a.Ready M) (hs : Reached M a s) :
    s.Within M a.size ∧ s.Edged := by
  have hsz : 0 < a.size := Nat.lt_of_le_of_lt (Nat.zero_le _) ha.last
  cases hs with
  | between hrun => exact (runSolver_edged ha _).result hrun s rfl
  | @visited k n p s0 _ wl hrun _ _ hvisit =>
      obtain ⟨hw, h⟩ := (runSolver_edged ha k).result hrun s0 rfl
      have hfit : TablesFit (fun _ => True) ({ s0 with wl } : Solver W).toAnders :=
        fun _ _ => ⟨fun _ => .inr trivial, fun _ => .inr trivial⟩
      obtain ⟨hv, -⟩ := (solveNode_run (M := M) permits_true { s0 with wl } n (.inl trivial)
        hfit).result hvisit
      exact ⟨hv.within hsz ⟨hw.graph, hw.confined, hw.cons, hw.starts⟩,
        hv.edged ⟨h.graph, h.cons, h.gep, h.start, h.stk⟩⟩

omit [Worklist W] [LawfulWorklist W] in
theorem Solver.Edged.lcdReady {sz : Nat} (h : s.Edged) (hw : s.Within M sz) : LcdReady s := by
  have hsize : s.size = sz := hw.graph.size
  refine ⟨⟨rfl, ?_, ?_⟩, fun u hu => (h.graph.copy u u hu).1.2.2 rfl, fun u d hd => ?_,
    fun n hn => ⟨⟨(h.start n hn).1, hsize ▸ hw.starts n hn⟩, (h.start n hn).2⟩, h.stk⟩
  · rw [hsize]
    exact hw.graph.rep
  · rw [hsize]
    exact hw.graph.copy
  · obtain ⟨hp, h0⟩ := h.graph.copy u d hd
    exact ⟨h.graph.rep_ne (.inl rfl) h0, h.graph.rep_ne (.inr rfl) hp.2.1⟩

/-- Wherever the solver comes to, cycle detection completes if merging the components it finds
starts no cascade. -/
theorem runLcd_completes (W : Type) [Worklist W] [LawfulWorklist W] (M : Module) (a : Anders)
    (ha : a.Ready M) (s : Solver W) (hs : Reached M a s) (hcalm : s.Calm s.lcdStarts) :
    Spec (runLcd s) (fun s' => s'.lcdStk = []) (· ∈ listStops) := by
  obtain ⟨hw, h⟩ := hs.edged ha
  exact ((runLcd_spec (h.lcdReady hw) hcalm).and_ok fun s' hrun => runLcd_stk hrun).imp
    fun s' hs' => hs'.2

end

theorem any_ok {α : Type} {x : Run α} {p : α → Bool} (h : x.toOption.any p = true) :
    ∃ a, x = .ok a ∧ p a = true := by
  cases x with
  | ok a => exact ⟨a, rfl, h⟩
  | error e => cases h

/-- `p = &o; q = p; p = q` with `p` and `q` in nodes 4 and 5, and what `q` points to in an offline
cycle with node 7. -/
def sharedValue : Anders :=
  { Anders.initial 8 3 (fun n => if n = 3 then { objSz := 1 } else {})
      [⟨.addrOf, 4, 3, 0⟩, ⟨.copy, 5, 4, 0⟩, ⟨.copy, 4, 5, 0⟩, ⟨.addrOf, 6, 3, 0⟩, ⟨.load, 7, 6, 0⟩,
        ⟨.store, 6, 7, 0⟩] with
    hcdVar := fun n => if n = 5 then some 7 else none }

theorem sharedValue_ready : sharedValue.Ready (.uniform false) where
  gep := by decide
  node := by decide
  last := by decide
  object := by decide
  rep _ hx := hx
  hcd n h hh := by
    obtain ⟨-, hh⟩ := Option.ite_none_right_eq_some.mp hh
    rw [← Option.some.inj hh]
    decide
  ext := Finset.Subset.refl _
  call _ _ h := by cases h
  fresh n := by
    simp only [sharedValue, Anders.initial]
    split <;> exact ⟨rfl, rfl, rfl, rfl, rfl, rfl⟩
  cons := by decide
  alone {m} _ {x} := by
    have hx : sharedValue.rep x = x := rfl
    rw [hx]
  blocks := by
    unfold Anders.BlocksFit
    decide

/-- What is found from the starts is a node, and so is what is in a cycle with it. -/
theorem Solver.Within.reach {W : Type} {M : Module} {sz : Nat} {s : Solver W} (h : s.Within M sz)
    {x y : Nat} (hx : x < sz) (hxy : Relation.ReflTransGen s.CopiesTo x y) : y < sz := by
  induction hxy with
  | refl => exact hx
  | tail _ hstep _ =>
      obtain ⟨d, hd, rfl⟩ := hstep
      exact h.graph.rep _ (h.graph.copy _ d hd)

/-- Both nodes of the copy cycle have come to point to the object, and the search from one of them
merges them. -/
theorem runLcd_completes_start :
    ∃ s : Solver (Lists true PrioHeap), Reached (.uniform false) sharedValue s ∧ s.lcdStarts = {5} ∧
      s.rep 4 ≠ s.rep 5 ∧ (∃ s', runLcd s = .ok s' ∧ s'.rep 4 = s'.rep 5) ∧
      Spec (runLcd s) (fun s' => s'.lcdStk = []) (· ∈ listStops) := by
  have hrun : (runSolver (Lists true PrioHeap) (.uniform false) 4 sharedValue).toOption.any
      (fun l => l.isMore && decide (l.state.lcdStarts = {5} ∧ l.state.rep 4 ≠ l.state.rep 5) &&
        decide (∀ n ∈ List.range 8, l.state.hv n = 0 ∨ l.state.hv n = 7) &&
        (runLcd l.state).toOption.any fun s' => decide (s'.rep 4 = s'.rep 5)) = true := by
    decide +kernel
  obtain ⟨l, hl, htest⟩ := any_ok hrun
  simp only [Bool.and_eq_true, decide_eq_true_eq] at htest
  obtain ⟨⟨⟨hmore, hstarts, hapart⟩, hhv⟩, hlcd⟩ := htest
  cases l with
  | done s => cases hmore
  | more s =>
      have hs : Reached (.uniform false) sharedValue s := .between hl
      obtain ⟨s', hs', hmerged⟩ := any_ok hlcd
      refine ⟨s, hs, hstarts, hapart, ⟨s', hs', of_decide_eq_true hmerged⟩,
        runLcd_completes _ _ _ sharedValue_ready s hs ?_⟩
      -- there is but one target
      rintro x y ⟨n, hn, -, hreach⟩ hxy hx hy
      obtain ⟨hw, -⟩ := hs.edged sharedValue_ready
      have hlt : x < 8 := hw.reach (hw.starts n hn) hreach
      have hlt' : y < 8 := hw.reach hlt hxy.1
      have hsame : s.hv x = s.hv y :=
        ((hhv x (List.mem_range.mpr hlt)).resolve_left hx).trans
          ((hhv y (List.mem_range.mpr hlt')).resolve_left hy).symm
      exact .inl (congrArg s.rep hsame)

/-! ## A cascade in a search -/

/-- `p1 = &o; p2 = &o; p2 = &o2; *p1 = x; y = *p2; x = y; x = t1; t1 = *x; *x = t1; t2 = *y;
*y = t2; z = &c`, with `t1` copied from the first parameter of a function all of whose 20
parameters point to `c` and are copied to `z`. The objects are 3 to 5 and the function is 6;
`z` is 28, `x` and `y` are 29 and 30, `t1` is 31, `t2` is 32, `p1` and `p2` are 34 and 35. -/
def cascading : Anders :=
  .initial 36 27
    (fun n =>
      if 3 ≤ n ∧ n ≤ 5 then { objSz := 1, val := some (.other n true) }
      else if n = 6 then { objSz := 22, val := some (.func 0) }
      else if 6 < n ∧ n ≤ 27 then { objSz := 28 - n, val := some (.arg n true) }
      else {})
    ([⟨.addrOf, 34, 4, 0⟩, ⟨.addrOf, 35, 4, 0⟩, ⟨.addrOf, 35, 5, 0⟩, ⟨.store, 34, 29, 0⟩,
      ⟨.load, 30, 35, 0⟩, ⟨.copy, 29, 30, 0⟩, ⟨.copy, 29, 31, 0⟩, ⟨.copy, 31, 8, 0⟩,
      ⟨.load, 31, 29, 0⟩, ⟨.store, 29, 31, 0⟩, ⟨.load, 32, 30, 0⟩, ⟨.store, 30, 32, 0⟩,
      ⟨.copy, 32, 33, 0⟩, ⟨.copy, 33, 32, 0⟩, ⟨.addrOf, 28, 3, 0⟩] ++
      (List.range' 8 20).flatMap fun i => [⟨.addrOf, i, 3, 0⟩, ⟨.copy, 28, i, 0⟩])

/-- What the optimizer makes of it. -/
def optimizedCascading : Run Anders := do
  let a ← hvn false cascading
  let a ← hr true 1000 5 a
  let a ← hcd a
  factorLs [(35, 0), (29, 0), (30, 0)] [(34, 0), (29, 0), (30, 0)] a

def failsWith {α : Type} (x : Run α) (e : Stop) : Bool :=
  match x with
  | .ok _ => false
  | .error e' => e' = e

theorem failsWith_iff {α : Type} {x : Run α} {e : Stop} : failsWith x e = true ↔ x = .error e := by
  cases x with
  | ok a => simp [failsWith]
  | error e' => simp [failsWith]

/-- Behind the visit in iteration 22, cycle detection merges a node whose edges it still walks. -/
theorem runLcd_cascade : ∃ a, optimizedCascading = .ok a ∧
    ∃ s : Solver (Lists true PrioHeap), Reached (.uniform false) a s ∧
      runLcd s = .error (.outOfRange "N->copy_to") := by
  have hfails : optimizedCascading.toOption.any (fun a =>
      (runSolver (Lists true PrioHeap) (.uniform false) 21 a).toOption.any fun l =>
        l.isMore && (Worklist.pop (Worklist.swapIfEmpty l.state.wl).2).toOption.any fun t =>
          l.state.isRep t.1.1 &&
            (solveNode (.uniform false) { l.state with wl := t.2 } t.1.1).toOption.any fun s =>
              failsWith (runLcd s) (.outOfRange "N->copy_to")) = true := by
    decide +kernel
  obtain ⟨a, ha, hfails⟩ := any_ok hfails
  obtain ⟨l, hl, hfails⟩ := any_ok hfails
  obtain ⟨hmore, hfails⟩ := Bool.and_eq_true_iff.mp hfails
  obtain ⟨t, ht, hfails⟩ := any_ok hfails
  obtain ⟨hrep, hfails⟩ := Bool.and_eq_true_iff.mp hfails
  obtain ⟨s, hs, hlast⟩ := any_ok hfails
  cases l with
  | done s0 => cases hmore
  | more s0 =>
      obtain ⟨⟨n, p⟩, wl⟩ := t
      exact ⟨a, ha, s, .visited hl ht hrep hs, failsWith_iff.mp hlast⟩

end PtrAnalysis
