import PtrAnalysis.GepTables
import PtrAnalysis.VisitSound

/-!
# Nothing is lost between two visits

The state the main loop starts in is intact, cycle detection keeps it so, and so does
every iteration. A node without a live entry on the worklist is then saturated: a visit
of it would achieve nothing. Entries that the main loop discards are those of nodes that
were merged away and those that a later visit made obsolete.
-/

namespace PtrAnalysis

open Run PtrAnalysis.Graph

section

variable {W : Type} [Worklist W] [LawfulWorklist W] {M : Module} {b : Anders} {A A' : Set Nat}
  {s s' : Solver W} {n : Nat}

/-! ## Cycle detection -/

omit [Worklist W] [LawfulWorklist W] in
theorem LcdOnly.alike (h : LcdOnly s s') : Alike s s' := by
  have hnodes : s'.nodes = s.nodes := by rw [h.anders]
  refine ⟨by rw [h.anders], fun m => ?_, fun m => ?_, fun m => ?_, fun m _ => ?_, h.extSeen, ?_⟩
  · simp only [Solver.pts, hnodes]
  · simp only [Solver.prev, hnodes]
  · rw [hnodes]
  · rw [h.anders]
  · rw [h.anders]
    exact ⟨rfl, rfl, rfl, rfl, rfl, fun _ => rfl⟩

theorem Intact.lcdOnly (h : Intact M b A s) (hs : LcdOnly s s') : Intact M b A s' := by
  have hal := hs.alike
  refine ⟨h.sound.alike hal (fun m _ hm => .live (hs.live.mpr hm)) fun m hm => hal.rep ▸ .owed hm,
    h.covers.sameLists ⟨⟨hal.rep, hal.hv, hal.further.edge⟩, fun m t => ?_⟩ (by rw [hs.anders]), ?_⟩
  · rw [hs.anders]
  · rw [hs.anders]
    exact h.untagged

omit [Worklist W] [LawfulWorklist W] in
theorem moveEdges_sets {del add : Finset Nat} (m : Nat) :
    (moveEdges s n del add).pts m = s.pts m ∧ (moveEdges s n del add).prev m = s.prev m := by
  unfold Solver.pts Solver.prev
  rw [moveEdges_node]
  exact ⟨rfl, rfl⟩

/-- Pointing edges at representatives loses nothing. -/
theorem Sound.moveEdges {del add : Finset Nat} (h : Sound M b 0 ∅ A s) (hn : s.isRep n = true)
    (hdel : ∀ x ∈ del, s.rep x = s.rep n ∨ ∃ y ∈ add, s.rep y = s.rep x)
    (hadd : ∀ y ∈ add, s.Edge n y) : Sound M b 0 ∅ A (PtrAnalysis.moveEdges s n del add) := by
  have hf : Further s (PtrAnalysis.moveEdges s n del add) :=
    ⟨fun hxy => (moveEdges_mono hn hdel).edge _ _ hxy, fun x => by rw [(moveEdges_sets _).1]; rfl,
      Finset.Subset.refl _⟩
  -- every edge is an old one, or leads where one of `n` leads
  have hedge : ∀ m, ∀ e ∈ ((PtrAnalysis.moveEdges s n del add).nodes m).copyTo,
      e ∈ (s.nodes m).copyTo ∨ m = n ∧ s.Edge n e := by
    intro m e he
    rw [moveEdges_nodes] at he
    split at he
    · rename_i hm
      rcases Finset.mem_union.mp he with he | he
      · exact .inl (hm ▸ (Finset.mem_sdiff.mp he).1)
      · exact .inr ⟨hm, hadd e he⟩
    · exact .inl he
  -- so what goes along the edges of `n` goes along the new ones
  have halong : ∀ {x : Finset Nat} {e : Nat}, s.Edge n e → x ⊆ s.pts n →
      (∀ e' ∈ (s.nodes n).copyTo, x ⊆ s.pts (s.rep e')) → x ⊆ s.pts (s.rep e) := by
    rintro x e (heq | ⟨e', he', hrep⟩) hx hall
    · rw [← heq, rep_eq_self.mpr hn]
      exact hx
    · rw [rep_eq_self.mpr hn] at he'
      exact hrep ▸ hall e' he'
  have hproc : ∀ m, (PtrAnalysis.moveEdges s n del add).processed 0 ∅ m = s.processed 0 ∅ m :=
    fun m => processed_eq (moveEdges_sets m).2
  have hlive : ∀ m, Live s m → Live (PtrAnalysis.moveEdges s n del add) m := by
    rintro m ⟨p, hp, hv⟩
    refine ⟨p, hp, fun hu => ?_⟩
    rw [moveEdges_node]
    exact hv hu
  have hpend : ∀ m, Pending A s m → Pending A (PtrAnalysis.moveEdges s n del add) m := by
    intro m hm
    induction hm with
    | live hm => exact .live (hlive _ hm)
    | @owed m hm => exact .owed (s := PtrAnalysis.moveEdges s n del add) hm
    | @target K hK hv hnew _ ih =>
        refine .target (s := PtrAnalysis.moveEdges s n del add) hK hv ?_ ih
        rw [(moveEdges_sets K).1, (moveEdges_sets K).2]
        exact hnew
  refine ⟨h.tables.of_eq rfl rfl rfl rfl rfl fun m => by rw [moveEdges_node], h.apart,
    fun C hC ht => hf.pts _ (h.addr C hC ht), fun C hC ht => hf.edge (h.copy C hC ht),
    fun m => ?_, fun m hm e he => ?_, fun C hC hc o ho => ?_, fun m hm hp => ?_⟩
  · rw [(moveEdges_sets m).1, (moveEdges_sets m).2]
    exact h.sub m
  · rw [hproc, (moveEdges_sets _).1]
    rcases hedge m e he with hold | ⟨rfl, hnew⟩
    · exact h.flow m hm e hold
    · exact halong hnew ((processed_subset ..).trans (h.sub m)) (h.flow m hm)
  · rw [hproc] at ho
    exact (h.done C hC hc o ho).further hf
  · refine (h.rest m hm fun hpend' => hp (hpend m hpend')).imp (fun hq => ⟨fun e he => ?_,
      fun C hC hc hCm => ?_⟩) fun ⟨h0, hsub⟩ => ⟨h0, ?_⟩
    · rw [(moveEdges_sets _).1, (moveEdges_sets _).1]
      rcases hedge m e he with hold | ⟨rfl, hnew⟩
      · exact hq.edges e hold
      · exact halong hnew (Finset.Subset.refl _) hq.edges
    · rw [(moveEdges_sets _).1, hproc]
      exact hq.cons C hC hc hCm
    · rw [(moveEdges_sets _).1, (moveEdges_sets _).2]
      exact hsub

theorem Intact.moveEdges {del add : Finset Nat} (h : Intact M b A s) (hn : s.isRep n = true)
    (hdel : ∀ x ∈ del, s.rep x = s.rep n ∨ ∃ y ∈ add, s.rep y = s.rep x)
    (hadd : ∀ y ∈ add, s.Edge n y) : Intact M b A (PtrAnalysis.moveEdges s n del add) := by
  refine ⟨h.sound.moveEdges hn hdel hadd, h.covers.sameLists ⟨⟨rfl, fun _ _ => rfl,
    fun hxy => (moveEdges_mono hn hdel).edge _ _ hxy⟩, fun m t => ?_⟩ rfl, h.untagged⟩
  rw [moveEdges_node]
  cases t <;> rfl

/-- A merge moves what is owed to the merged set. -/
theorem Intact.merge {m r : Nat} {g : Graph} (h : Intact M b (insert n A) s)
    (hrun : MergeRun s.toGraph n m g r) (hcasc : Watched A g) :
    Intact M b (insert r A) (s.withGraph g) := by
  have hsound := hrun.sound (fun he => by simp [hcasc he]) h.sound
  refine ⟨hsound.alike (.ofWl ⟨_, rfl⟩) (fun _ _ hl => .live hl) fun x hx => ?_,
    hrun.covers h.covers, h.untagged⟩
  rw [Set.insert_idem] at hx
  rcases hx with rfl | hx
  · have hrep : g.rep r = r := by rw [← hrun.spec.2.1, rep_rep]
    have ho : Pending (insert r A) (s.withGraph g) (g.rep r) :=
      .owed (s := s.withGraph g) (Set.mem_insert ..)
    rw [hrep] at ho
    rw [show (s.withGraph g).rep x = r from hrun.spec.2.1]
    exact ho
  · exact .owed (s := s.withGraph g) (Set.mem_insert_of_mem _ hx)

theorem Intact.push (h : Intact M b A s) (hwl : ∃ wl, s' = { s with wl }) (hn : Live s' n)
    (hlive : ∀ m, Live s m → Live s' m) (hA : ∀ m ∈ A, m ∈ A' ∨ s.rep m = n) :
    Intact M b A' s' := by
  have hsound := h.sound.push hwl hn hlive hA
  obtain ⟨wl, rfl⟩ := hwl
  exact ⟨hsound, h.covers.sameLists ⟨⟨rfl, fun _ _ => rfl, id⟩, fun _ _ => rfl⟩ rfl, h.untagged⟩

/-- If no cascade ever starts from an empty set, cycle detection loses nothing. -/
theorem lcdRules_intact (M : Module) (b : Anders) (E : Set Nat) :
    LcdRules (W := W) (fun _ => True) (fun s => Watched E s.toGraph → Intact M b E s)
      (fun n s => Watched E s.toGraph → Intact M b (insert n E) s) (fun _ _ => True) 0 where
  permits := permits_true
  fueled _ := .inl trivial
  weaken h _ hc := ⟨(h hc).sound.owe (Set.subset_insert _ _), (h hc).covers, (h hc).untagged⟩
  merge h hrun hc := (h fun he => hc (hrun.spec.1.cascades he)).merge hrun hc
  push h hn hwl hp hl hc := by
    refine (h ?_).push hwl hp hl fun m hm => ?_
    · obtain ⟨wl, rfl⟩ := hwl
      exact hc
    · rcases hm with rfl | hm
      · exact .inr (rep_eq_self.mpr hn)
      · exact .inl hm
  lcd hs h hc := by
    rw [hs.anders] at hc
    exact (h hc).lcdOnly hs
  lcdO hs h hc := by
    rw [hs.anders] at hc
    exact (h hc).lcdOnly hs
  edge _ _ := trivial
  rep _ _ _ := trivial
  move h hn hdel hadd hc := (h hc).moveEdges hn hdel fun y hy => (hadd y hy).2
  ends := .inl trivial

/-! ## The start of the main loop -/

/-- A system without calls through function pointers, as the optimizer leaves it: the blocks
of objects are among the object nodes and start behind the null node, which stands alone
like the unknown pointer. -/
structure Anders.NoCalls (M : Module) (a : Anders) : Prop where
  proper : ∀ C ∈ a.constraints, C.Proper
  node : ∀ C ∈ a.constraints, C.dest < a.size ∧ C.src < a.size
  rep : ∀ x < a.size, a.rep x < a.size
  fresh : a.Fresh
  untagged : a.icallCons = []
  functions : a.funcNodeSet = ∅ ∧ ∀ n, ¬ IsFuncNode M a n
  blocks : ∀ n, (a.nodes n).objSz ≠ 0 → n ≠ 0 ∧ n + (a.nodes n).objSz ≤ a.lastObjNode + 1
  alone : ∀ {m}, m = 0 ∨ m = i2p → ∀ {x}, a.rep x = m ↔ x = m

/-- The same, but there may be functions; only no constraint belongs to a call. -/
structure Anders.NoTags (a : Anders) : Prop where
  proper : ∀ C ∈ a.constraints, C.Proper
  node : ∀ C ∈ a.constraints, C.dest < a.size ∧ C.src < a.size
  rep : ∀ x < a.size, a.rep x < a.size
  fresh : a.Fresh
  untagged : a.icallCons = []
  blocks : ∀ n, (a.nodes n).objSz ≠ 0 → n ≠ 0 ∧ n + (a.nodes n).objSz ≤ a.lastObjNode + 1
  alone : ∀ {m}, m = 0 ∨ m = i2p → ∀ {x}, a.rep x = m ↔ x = m

/-- The nodes the solver treats as functions. -/
def Anders.FuncNode (M : Module) (a : Anders) (o : Nat) : Prop :=
  o ∈ a.funcNodeSet ∨ o < a.lastObjNode + 1 ∧ IsFuncNode M a o

omit [Worklist W] [LawfulWorklist W] in
theorem Anders.NoCalls.noTags {a : Anders} (ha : a.NoCalls M) : a.NoTags :=
  ⟨ha.proper, ha.node, ha.rep, ha.fresh, ha.untagged, ha.blocks, ha.alone⟩

omit [Worklist W] [LawfulWorklist W] in
theorem Anders.NoTags.plain {a : Anders} (ha : a.NoTags) (ht : TablesReady M a b) : Plain b := by
  have hcons : b.constraints = a.constraints := by rw [ht.frame]
  refine ⟨fun C hC => ha.proper C (hcons ▸ hC), ?_, fun off hoff h0 => ?_⟩
  · rw [ht.frame]
    exact ha.untagged
  · rw [hcons] at hoff
    have hlt := ((ht.mask off hoff 0).mp h0).2
    exact (ha.blocks 0 (by omega)).1 rfl

omit [Worklist W] [LawfulWorklist W] in
theorem Anders.NoTags.blocksFit {a : Anders} (ha : a.NoTags) : a.BlocksFit := by
  intro i hi
  by_cases h0 : (a.nodes i).objSz = 0
  · omega
  · exact (ha.blocks i h0).2

omit [Worklist W] [LawfulWorklist W] in
theorem Attached.list {C : Constraint} {cid : Nat} {s : Solver W} (hb : Built b b.constraints (s.unclear b))
    (hget : s.cplxCons[cid]? = some C) (hc : C.complex = true) :
    cid ∈ (s.nodes (b.rep C.ptr)).list C.type := by
  cases hty : C.type
  · simp [Constraint.complex, hty] at hc
  · simp [Constraint.complex, hty] at hc
  · exact (hb.load _ cid).mpr ⟨C, hget, hty, rfl⟩
  · exact (hb.store _ cid).mpr ⟨C, hget, hty, rfl⟩
  · exact (hb.gep _ cid).mpr ⟨C, hget, hty, rfl⟩

/-- The loop starts with everything to be done on the worklist. -/
theorem InitState.intact {a : Anders} (hs : InitState b s) (ht : TablesReady M a b)
    (ha : a.NoTags) : Intact M b ∅ s := by
  have hframe := hs.built.frame
  have hrep : s.rep = b.rep := by
    have h := congrArg (fun x : Anders => x.rep) hframe
    exact h
  have hrepa : b.rep = a.rep := by rw [ht.frame]
  have hcplx : s.cplxCons = b.constraints.filter Constraint.complex := hs.built.cplx
  have hprev : ∀ n, s.prev n = ∅ := fun n => (hs.built.kept n).2.2
  have hproc : ∀ n, s.processed 0 ∅ n = ∅ := fun n => by rw [processed_empty, hprev]
  have hlisted : ∀ C ∈ b.constraints, C.complex = true →
      ∃ cid, s.cplxCons[cid]? = some C ∧ cid ∈ (s.nodes (b.rep C.ptr)).list C.type := by
    intro C hC hc
    obtain ⟨cid, hget⟩ := List.mem_iff_getElem?.mp
      (hcplx.symm ▸ List.mem_filter.mpr ⟨hC, hc⟩ : C ∈ s.cplxCons)
    exact ⟨cid, hget, Attached.list hs.built hget hc⟩
  refine ⟨⟨?_, fun hm x => ?_, fun C hC hty => ?_, fun C hC hty => ?_, fun n => ?_, fun n _ e _ => ?_,
    fun C _ _ o ho => ?_, fun n hn hp => .inl ?_⟩, ⟨fun C hC hc => .inl ?_, fun C' hC' => ?_⟩, ?_⟩
  · have hoff := congrArg (fun x : Anders => x.offMask) hframe
    have hgeps := congrArg (fun x : Anders => x.geps) hframe
    have hfunc := congrArg (fun x : Anders => x.funcNodeSet) hframe
    have hext := congrArg (fun x : Anders => x.extFuncNodes) hframe
    have hset := congrArg (fun x : Anders => x.extFuncNodeSet) hframe
    exact ⟨hoff, hgeps, hfunc, hext, hset, fun n => (hs.built.kept n).1⟩
  · rw [hrep, hrepa]
    exact ha.alone hm
  · rw [hrep]
    exact (hs.built.pts _ _).mpr ⟨C, hC, hty, rfl, rfl⟩
  · refine .inr ⟨b.rep C.dest, ?_, ?_⟩
    · rw [hrep]
      exact (hs.built.copy _ _).mpr ⟨C, hC, hty, rfl, rfl⟩
    · rw [hrep, rep_rep]
  · rw [hprev]
    exact Finset.empty_subset _
  · rw [hproc]
    exact Finset.empty_subset _
  · rw [hproc] at ho
    exact absurd ho (Finset.notMem_empty o)
  · -- a node without an entry has no work
    have hidle : s.pts n = ∅ ∨ ((s.nodes n).copyTo = ∅ ∧ (s.nodes n).loadTo = ∅ ∧
        (s.nodes n).storeFrom = ∅ ∧ (s.nodes n).gepTo = ∅) := by
      by_contra hwork
      rw [not_or] at hwork
      obtain ⟨o, ho⟩ := Finset.nonempty_iff_ne_empty.mpr hwork.1
      obtain ⟨C, hC, -, hCn, -⟩ := (hs.built.pts n o).mp ho
      have hlt : n < b.size := by
        rw [ht.frame] at hC
        rw [← hCn, hrepa, ht.frame]
        exact ha.rep _ (ha.node C hC).1
      have hrepn : b.isRep n = true := by
        rw [← rep_eq_self, ← hrep]
        exact rep_eq_self.mpr hn
      exact hp (.live (hs.live n hlt hrepn ⟨hwork.1, hwork.2⟩))
    refine ⟨fun e he => ?_, fun C hC hc hCn => ?_⟩
    · rcases hidle with h0 | ⟨h0, -⟩
      · rw [h0]
        exact Finset.empty_subset _
      · rw [h0] at he
        exact absurd he (Finset.notMem_empty e)
    · rcases hidle with h0 | ⟨-, h1, h2, h3⟩
      · rw [h0]
        exact Finset.empty_subset _
      · obtain ⟨cid, -, hcid⟩ := hlisted C hC hc
        rw [← hrep, hCn] at hcid
        cases hty : C.type <;> simp [Node.list, hty, h1, h2, h3] at hcid
  · obtain ⟨cid, hget, hcid⟩ := hlisted C hC hc
    exact ⟨cid, hrep.symm ▸ hcid, C, hget, .refl ..⟩
  · rw [hcplx] at hC'
    obtain ⟨hmem, hc⟩ := List.mem_filter.mp hC'
    exact ⟨C', hmem, hc, .refl ..⟩
  · have hic := congrArg (fun x : Anders => x.icallCons) hframe
    rw [show s.icallCons = _ from hic, ht.frame]
    exact ha.untagged

/-! ## The main loop -/

/-- An iteration loses nothing if no cascade ever starts from an empty set. -/
theorem solveIter_intact (hb : Plain b) (h : Watched A s.toGraph → Intact M b A s) :
    Spec (solveIter M s) (fun l => Watched A l.state.toGraph → Intact M b A l.state)
      fun _ => True := by
  have hfit : TablesFit (fun _ => True) s.toAnders :=
    fun _ _ => ⟨fun _ => .inr trivial, fun _ => .inr trivial⟩
  refine solveIter_rule permits_true (.inl trivial) hfit (fun wl hend hc => ?_) ?_ ?_
  · refine ⟨(h hc).sound.alike (.ofWl ⟨wl, rfl⟩) (fun m _ ⟨p, hp, _⟩ => absurd hp (hend m p).1)
      fun m hm => .owed (s := { s with wl }) hm, ?_, (h hc).untagged⟩
    exact (h hc).covers.sameLists ⟨⟨rfl, fun _ _ => rfl, id⟩, fun _ _ => rfl⟩ rfl
  · intro s1 n p hpop hskip hc
    have hsound := fun hc => (h hc).sound.skip hpop hskip
    obtain ⟨wl, rfl⟩ := hpop.wl
    exact ⟨hsound hc, (h hc).covers.sameLists ⟨⟨rfl, fun _ _ => rfl, id⟩, fun _ _ => rfl⟩ rfl,
      (h hc).untagged⟩
  · intro s1 n p s2 hpop hn _ hrun _
    have hvisit : Watched A s2.toGraph → Intact M b A s2 := by
      intro hc
      have hcs : Watched A s.toGraph := fun he => hc (hrun.cascades (by
        obtain ⟨wl, rfl⟩ := hpop.wl
        exact he))
      have hsound := (h hcs).sound.pop hpop
      obtain ⟨wl, rfl⟩ := hpop.wl
      exact hrun.intact hb ⟨hsound hn, (h hcs).covers.sameLists
        ⟨⟨rfl, fun _ _ => rfl, id⟩, fun _ _ => rfl⟩ rfl, (h hcs).untagged⟩ hn hc
    exact ⟨hvisit, runLcd_keeps (lcdRules_intact M b A) hvisit (.inl trivial)⟩

/-- So does any number of iterations. -/
theorem solveLoop_intact (hb : Plain b) : ∀ (k : Nat) {s : Solver W},
    (Watched A s.toGraph → Intact M b A s) →
    Spec (solveLoop M k s) (fun l => Watched A l.state.toGraph → Intact M b A l.state)
      fun _ => True
  | 0, _, h => h
  | k + 1, s, h => by
      rw [solveLoop]
      refine (solveIter_intact hb h).bind fun l hl => ?_
      cases l with
      | done s' => exact hl
      | more s' => exact solveLoop_intact hb k hl

/-- A run without a cascade that starts from an empty set loses nothing. -/
theorem runSolver_intact {a : Anders} (ha : a.NoTags) (A : Set Nat) (k : Nat) :
    Spec (runSolver W M k a) (fun l => Watched A l.state.toGraph →
      ∃ b, TablesReady M a b ∧ Intact M b A l.state) fun _ => True := by
  unfold runSolver
  refine ((ptsInit_spec M a).stops fun _ _ => trivial).bind fun b ht => ?_
  have hfresh : b.Fresh := by
    rw [ht.frame]
    exact ha.fresh
  refine (solveInit_spec permits_true hfresh).bind fun s hs => ?_
  have hstart := hs.intact ht ha
  refine (solveLoop_intact (ha.plain ht) k fun _ => ?_).imp fun l hl hc => ⟨b, ht, hl hc⟩
  exact ⟨hstart.sound.owe (Set.empty_subset A), hstart.covers, hstart.untagged⟩

/-! ## Runs without offline cycles -/

/-- No node has a target, and there was no cascade. -/
structure Untargeted (g : Graph) : Prop where
  hcdVar : ∀ n, g.hcdVar n = none
  cascades : g.cascades = []

omit [Worklist W] [LawfulWorklist W] in
theorem MergeRun.untargeted {g g' : Graph} {n1 n2 r : Nat} (hrun : MergeRun g n1 n2 g' r)
    (h : Untargeted g) : Untargeted g' := by
  have hv : ∀ n, g.hv n = 0 := fun n => by
    unfold Graph.hv
    rw [h.hcdVar]
    rfl
  cases hrun with
  | plain _ _ _ => exact ⟨h.hcdVar, h.cascades⟩
  | adopt _ _ hb _ => exact absurd (hv _) hb
  | same _ _ hb _ _ => exact absurd (hv _) hb
  | cascade _ _ hb _ _ _ _ => exact absurd (hv _) hb

theorem VisitRun.untargeted (hrun : VisitRun M n s s') (h : Untargeted s.toGraph) :
    Untargeted s'.toGraph := by
  cases hrun with
  | idle _ => exact ⟨h.hcdVar, h.cascades⟩
  | @full r d s1 s2 _ _ _ _ hstart hedges =>
      obtain ⟨D, hD⟩ := hedges.visits
      have hframe := congrArg (fun a : Anders => a.hcdVar) (Grows.frame hD)
      obtain ⟨wl, hwl⟩ := hstart.wl
      have h2 : Untargeted s2.toGraph := by
        rcases hstart.collapse with ⟨-, ht⟩ | ⟨x, hx, -⟩
        · obtain ⟨rfl, -⟩ := Prod.mk.inj ht
          rw [hwl]
          exact ⟨h.hcdVar, h.cascades⟩
        · rw [show (visitStart s n).hcdVar n = none from h.hcdVar n] at hx
          cases hx
      refine ⟨fun m => ?_, hedges.cascades.trans h2.cascades⟩
      rw [show s'.hcdVar = s2.hcdVar from hframe]
      exact h2.hcdVar m

theorem lcdRules_untargeted : LcdRules (W := W) (fun _ => True) (fun s => Untargeted s.toGraph)
    (fun _ s => Untargeted s.toGraph) (fun _ _ => True) 0 where
  permits := permits_true
  fueled _ := .inl trivial
  weaken h _ := h
  merge h hrun := hrun.untargeted h
  push h _ hwl _ _ := by
    obtain ⟨wl, rfl⟩ := hwl
    exact h
  lcd hs h := by
    rw [hs.anders]
    exact h
  lcdO hs h := by
    rw [hs.anders]
    exact h
  edge _ _ := trivial
  rep _ _ _ := trivial
  move h _ _ _ := ⟨h.hcdVar, h.cascades⟩
  ends := .inl trivial

theorem solveLoop_untargeted : ∀ (k : Nat) {s : Solver W}, Untargeted s.toGraph →
    Spec (solveLoop M k s) (fun l => Untargeted l.state.toGraph) fun _ => True
  | 0, _, h => h
  | k + 1, s, h => by
      rw [solveLoop]
      have hfit : TablesFit (fun _ => True) s.toAnders :=
        fun _ _ => ⟨fun _ => .inr trivial, fun _ => .inr trivial⟩
      have hiter : Spec (solveIter M s) (fun l => Untargeted l.state.toGraph) fun _ => True := by
        refine solveIter_rule permits_true (.inl trivial) hfit (fun _ _ => h) ?_ ?_
        · intro s1 n p hpop _
          obtain ⟨wl, rfl⟩ := hpop.wl
          exact h
        · intro s1 n p s2 hpop _ _ hrun _
          have h2 : Untargeted s2.toGraph := hrun.untargeted (by
            obtain ⟨wl, rfl⟩ := hpop.wl
            exact h)
          exact ⟨h2, runLcd_keeps lcdRules_untargeted h2 (.inl trivial)⟩
      refine hiter.bind fun l hl => ?_
      cases l with
      | done s' => exact hl
      | more s' => exact solveLoop_untargeted k hl

theorem runSolver_untargeted {a : Anders} (ha : a.NoTags) (hhcd : ∀ n, a.hcdVar n = none) (k : Nat) :
    Spec (runSolver W M k a) (fun l => Untargeted l.state.toGraph) fun _ => True := by
  unfold runSolver
  refine ((ptsInit_spec M a).stops fun _ _ => trivial).bind fun b ht => ?_
  have hfresh : b.Fresh := by
    rw [ht.frame]
    exact ha.fresh
  refine (solveInit_spec permits_true hfresh).bind fun s hs => ?_
  refine solveLoop_untargeted k ⟨fun n => ?_, hs.cascades⟩
  have hframe := congrArg (fun x : Anders => x.hcdVar) hs.built.frame
  rw [show s.hcdVar = _ from hframe, ht.frame]
  exact hhcd n

/-! ## Nodes without a live entry -/

/-- A visit of `n` would achieve nothing: all of its set went along its copy edges, and
every constraint over its pointees, of the list handed to the solver or as rewritten since,
has its edge or its sums. -/
structure Saturated (a : Anders) (s : Solver W) (n : Nat) : Prop where
  copy : ∀ e ∈ (s.nodes n).copyTo, s.pts n ⊆ s.pts (s.rep e)
  load : ∀ C, C ∈ a.constraints ∨ C ∈ s.cplxCons → C.type = .load → s.rep C.src = n →
    ∀ o ∈ s.pts n, o ≠ i2p → C.off = 0 ∨ C.off < (a.nodes o).objSz → s.Edge (o + C.off) C.dest
  store : ∀ C, C ∈ a.constraints ∨ C ∈ s.cplxCons → C.type = .store → s.rep C.dest = n →
    ∀ o ∈ s.pts n, o ≠ i2p → C.off = 0 ∨ C.off < (a.nodes o).objSz → s.Edge C.src (o + C.off)
  gep : ∀ C, C ∈ a.constraints ∨ C ∈ s.cplxCons → C.type = .gep → s.rep C.src = n →
    ∀ o ∈ s.pts n, C.off < (a.nodes o).objSz → o + C.off ∈ s.pts (s.rep C.dest)

omit [Worklist W] [LawfulWorklist W] in
theorem Anders.NoTags.masked {a : Anders} (ha : a.NoTags) (ht : TablesReady M a b) {off o : Nat}
    (hoff : off ∈ validOff a.constraints) (hlt : off < (a.nodes o).objSz) :
    o ∈ b.offMask.getD off ∅ :=
  (ht.mask _ hoff o).mpr ⟨by have := (ha.blocks o (by omega)).2; omega, hlt⟩

omit [Worklist W] [LawfulWorklist W] in
/-- A GEP adds its offset to every object that is big enough. -/
theorem Met.sum {a : Anders} {C : Constraint} {o : Nat} (h : Met M b s C o) (ha : a.NoTags)
    (ht : TablesReady M a b) (hty : C.type = .gep) (hoff : C.off ∈ validOff a.constraints)
    (hlt : C.off < (a.nodes o).objSz) : o + C.off ∈ s.pts (s.rep C.dest) :=
  h.edges.gep hty ((mem_gepImage (ht.gepAdds ha.blocksFit hoff).1 _).mpr
    ⟨o, Finset.mem_singleton_self o, ha.masked ht hoff hlt, rfl⟩)

omit [Worklist W] [LawfulWorklist W] in
/-- What a constraint without calls achieves: it looks at no function at an offset. -/
theorem Met.acts {a : Anders} {C : Constraint} {o : Nat} (h : Met M b s C o) (ha : a.NoTags)
    (ht : TablesReady M a b) (hoff : C.off ≠ 0 → C.off ∈ validOff a.constraints) (hi : o ≠ i2p)
    (hlt : C.off = 0 ∨ C.off < (a.nodes o).objSz ∧ ¬ a.FuncNode M o) :
    (C.type = .load → s.Edge (o + C.off) C.dest) ∧
    (C.type = .store → s.Edge C.src (o + C.off)) := by
  have htag : ¬ b.icallCons.Tagged C := (ha.plain ht).not_tagged C
  have hacts : b.Acts (b.icallCons.Tagged C) C o := by
    refine ⟨hi, ?_⟩
    by_cases h0 : C.off = 0
    · exact .inl h0
    · obtain ⟨hlt, hfunc⟩ := hlt.resolve_left h0
      exact .inr ⟨ha.masked ht (hoff h0) hlt,
        .inr ⟨htag, fun hf => hfunc ((ht.functions.func o).mp hf)⟩⟩
  exact ⟨fun hty => h.edges.load hty hacts,
    fun hty => h.edges.store hty hacts fun htg => absurd htg htag⟩

omit [Worklist W] [LawfulWorklist W] in
theorem Anders.NoCalls.not_func {a : Anders} (ha : a.NoCalls M) (o : Nat) : ¬ a.FuncNode M o := by
  rintro (h | h)
  · rw [ha.functions.1] at h
    exact Finset.notMem_empty o h
  · exact ha.functions.2 o h.2

omit [Worklist W] [LawfulWorklist W] in
/-- What the tables say a constraint demands is what it means. -/
theorem Met.meaning {a : Anders} {C : Constraint} {o : Nat} (h : Met M b s C o) (ha : a.NoCalls M)
    (ht : TablesReady M a b) (hoff : C.off ≠ 0 → C.off ∈ validOff a.constraints) :
    (C.type = .load → o ≠ i2p → C.off = 0 ∨ C.off < (a.nodes o).objSz → s.Edge (o + C.off) C.dest) ∧
    (C.type = .store → o ≠ i2p → C.off = 0 ∨ C.off < (a.nodes o).objSz → s.Edge C.src (o + C.off)) ∧
    (C.type = .gep → C.off ≠ 0 → C.off < (a.nodes o).objSz → o + C.off ∈ s.pts (s.rep C.dest)) :=
  ⟨fun hty hi hlt => (h.acts ha.noTags ht hoff hi (hlt.imp_right fun h => ⟨h, ha.not_func o⟩)).1 hty,
    fun hty hi hlt => (h.acts ha.noTags ht hoff hi (hlt.imp_right fun h => ⟨h, ha.not_func o⟩)).2 hty,
    fun hty h0 hlt => h.sum ha.noTags ht hty (hoff h0) hlt⟩

theorem Intact.saturated {a : Anders} (h : Intact M b ∅ s) (ha : a.NoCalls M)
    (ht : TablesReady M a b) (hn : s.isRep n = true) (hp : ¬ Pending ∅ s n) : Saturated a s n := by
  obtain ⟨hedges, hcons⟩ := h.sound.quiet hn hp
  have hlist : b.constraints = a.constraints := by rw [ht.frame]
  -- every constraint is one of the first list, up to representatives
  have horigin : ∀ C, C ∈ a.constraints ∨ C ∈ s.cplxCons → C.complex = true →
      ∃ C0 ∈ a.constraints, C0.complex = true ∧ SameCons s.rep C0 C := by
    rintro C (hC | hC) hc
    · exact ⟨C, hC, hc, .refl ..⟩
    · obtain ⟨C0, hC0, hc0, hsame⟩ := h.covers.origin C hC
      exact ⟨C0, hlist ▸ hC0, hc0, hsame⟩
  have hmet : ∀ C, C ∈ a.constraints ∨ C ∈ s.cplxCons → C.complex = true → s.rep C.ptr = n →
      (∀ o ∈ s.pts n, Met M b s C o) ∧ (C.off ≠ 0 → C.off ∈ validOff a.constraints) ∧
        (C.type = .gep → C.off ≠ 0) := by
    intro C hC hc hptr
    obtain ⟨C0, hC0, hc0, hsame⟩ := horigin C hC hc
    have hserved : Served M b (s.pts n) s C0 :=
      hcons C0 (hlist ▸ hC0) hc0 (hsame.ptr.symm.trans hptr)
    refine ⟨hserved.congr (ha.noTags.plain ht) hsame,
      fun h0 => mem_validOff.mpr ⟨h0, C0, hC0, hsame.off.symm⟩, fun hty => ?_⟩
    rw [hsame.off]
    exact (ha.proper C0 hC0).2.2 (hsame.type.symm.trans hty)
  refine ⟨hedges, fun C hC hty hptr o ho hi hlt => ?_, fun C hC hty hptr o ho hi hlt => ?_,
    fun C hC hty hptr o ho hlt => ?_⟩
  · obtain ⟨hm, hoff, -⟩ := hmet C hC (by simp [Constraint.complex, hty])
      (by unfold Constraint.ptr; rw [hty]; exact hptr)
    exact ((hm o ho).meaning ha ht hoff).1 hty hi hlt
  · obtain ⟨hm, hoff, -⟩ := hmet C hC (by simp [Constraint.complex, hty])
      (by unfold Constraint.ptr; rw [hty]; exact hptr)
    exact ((hm o ho).meaning ha ht hoff).2.1 hty hi hlt
  · obtain ⟨hm, hoff, hgep⟩ := hmet C hC (by simp [Constraint.complex, hty])
      (by unfold Constraint.ptr; rw [hty]; exact hptr)
    exact ((hm o ho).meaning ha ht hoff).2.2 hty (hgep hty) hlt

/-- With no offline cycles and no calls through pointers, between two visits every
representative without a live entry on the worklist is saturated, and an entry that is
discarded when it is popped is not the live one of any representative. -/
theorem runSolver_saturated (W : Type) [Worklist W] [LawfulWorklist W] (M : Module) (a : Anders)
    (ha : a.NoCalls M) (hhcd : ∀ n, a.hcdVar n = none) (k : Nat) (s : Solver W)
    (hrun : runSolver W M k a = .ok (.more s)) :
    (∀ n, s.isRep n = true → ¬ Live s n → Saturated a s n) ∧
    ∀ n p wl, Worklist.pop (Worklist.swapIfEmpty s.wl).2 = .ok ((n, p), wl) →
      s.isRep n = false ∨ Worklist.usesPrio W = true ∧ p < (s.nodes n).vtime →
      ∀ m, s.isRep m = true → Live s m → Live { s with wl } m := by
  have hnone := (runSolver_untargeted ha.noTags hhcd k).result hrun
  have hcasc : Watched ∅ (Loop.more s).state.toGraph := by
    intro he
    rw [hnone.cascades] at he
    exact absurd he List.not_mem_nil
  obtain ⟨b, ht, hintact⟩ := (runSolver_intact ha.noTags ∅ k).result hrun hcasc
  refine ⟨fun n hn hlive => hintact.saturated ha ht hn fun hp => ?_, fun n p wl hpop hskip m hm hl => ?_⟩
  · -- nobody waits for the visit of another node
    cases hp with
    | live h => exact hlive h
    | owed h => exact h
    | target _ hv _ _ =>
        refine hv ?_
        unfold Graph.hv
        rw [hnone.hcdVar]
        rfl
  · obtain ⟨q, hq, hv⟩ := hl
    refine ⟨q, LawfulWorklist.pop_keeps hpop (fun he => ?_) (LawfulWorklist.swap_mem.mpr hq), hv⟩
    obtain ⟨rfl, rfl⟩ := Prod.mk.inj he
    rcases hskip with hrep | ⟨hprio, hlt⟩
    · rw [hm] at hrep
      cases hrep
    · exact absurd (hv hprio) (Nat.not_le_of_lt hlt)

end

/-- A system over new nodes of which none is a function. -/
theorem Anders.initial_noCalls {M : Module} {size last : Nat} {nodes : Nat → Node}
    {cs : List Constraint} (hcs : ∀ C ∈ cs, C.Proper ∧ C.dest < size ∧ C.src < size)
    (hnodes : ∀ n, nodes n = { val := (nodes n).val, objSz := (nodes n).objSz } ∧
      (nodes n).val.bind Value.func? = none ∧
      ((nodes n).objSz ≠ 0 → n ≠ 0 ∧ n + (nodes n).objSz ≤ last + 1)) :
    (Anders.initial size last nodes cs).NoCalls M where
  proper C hC := (hcs C hC).1
  node C hC := (hcs C hC).2
  rep _ hx := hx
  fresh n := by
    rw [show (Anders.initial size last nodes cs).nodes n = _ from (hnodes n).1]
    exact ⟨rfl, rfl, rfl, rfl, rfl, rfl⟩
  untagged := rfl
  functions := ⟨rfl, fun n ⟨f, hf, _⟩ => by
    have hnone := (hnodes n).2.1
    rw [show (nodes n).val.bind Value.func? = some f from hf] at hnone
    cases hnone⟩
  blocks n hn := (hnodes n).2.2 hn
  alone _ _ := Iff.rfl

/-- `p = &x; q = &y; *p = q; r = *p`, over the objects 3 and 4. -/
def throughPointer : Anders :=
  .initial 8 4 (fun n => { objSz := if n = 3 ∨ n = 4 then 1 else 0 })
    [⟨.addrOf, 5, 3, 0⟩, ⟨.addrOf, 6, 4, 0⟩, ⟨.store, 5, 6, 0⟩, ⟨.load, 7, 5, 0⟩]

theorem throughPointer_noCalls : throughPointer.NoCalls (.uniform false) := by
  refine Anders.initial_noCalls (by decide) fun n => ⟨rfl, rfl, fun hn => ?_⟩
  dsimp only at hn ⊢
  split
  · omega
  · rename_i h
    rw [if_neg h] at hn
    exact absurd rfl hn

theorem runSolver_saturated_load :
    ∃ s, runSolver (Lists true PrioHeap) (.uniform false) 2 throughPointer = .ok (.more s) ∧
      ∀ n, s.isRep n = true → ¬ Live s n → Saturated throughPointer s n := by
  have hmore : (runSolver (Lists true PrioHeap) (.uniform false) 2 throughPointer).toOption.any
      Loop.isMore = true := by decide +kernel
  cases hrun : runSolver (Lists true PrioHeap) (.uniform false) 2 throughPointer with
  | error e =>
      rw [hrun] at hmore
      cases hmore
  | ok l =>
      rw [hrun] at hmore
      cases l with
      | done s => cases hmore
      | more s =>
          exact ⟨s, rfl, (runSolver_saturated _ _ _ throughPointer_noCalls (fun _ => rfl) 2 s hrun).1⟩

end PtrAnalysis
