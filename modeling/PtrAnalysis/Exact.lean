import PtrAnalysis.LcdSilent
import PtrAnalysis.Rewriting
import PtrAnalysis.Solved

/-!
# The solver computes the least solution

A run that starts from a list of constraints stays below each of their solutions for which the
targets of offline cycles are right, as long as no merge starts another one. When the worklist
is empty the sets are a solution as well. So what the solver leaves behind is the least
solution, whatever the worklist and the order of the visits.
-/

namespace PtrAnalysis

open Run PtrAnalysis.Graph

/-- What the solver is handed when no constraint belongs to a call: IDs in range, no null node
in the constraints, and objects that represent themselves. -/
structure Anders.Solvable (M : Module) (a : Anders) : Prop extends a.NoTags where
  nonnull : ∀ C ∈ a.constraints, C.src ≠ 0 ∧ C.dest ≠ 0
  addr : ∀ C ∈ a.constraints, C.type = .addrOf → a.rep C.src = C.src
  last : a.lastObjNode < a.size
  hcd : ∀ n h, a.hcdVar n = some h → h < a.size
  ext : a.extFuncNodes ⊆ a.extFuncNodeSet
  call : ∀ i vn, (M.callSite i).valNode = some vn → vn < a.size
  /-- The unknown pointer is an object of one field. -/
  single : (a.nodes i2p).objSz ≤ 1

namespace Anders.Solvable

variable {M : Module} {a : Anders}

theorem sized (ha : a.Solvable M) : a.Sized M where
  gep C hC := (ha.proper C hC).2.2
  node := ha.node
  last := ha.last
  object i hi := by
    have hlast := ha.last
    by_cases h0 : (a.nodes i).objSz = 0
    · omega
    · have := (ha.blocks i h0).2
      omega
  rep := ha.rep
  hcd := ha.hcd
  ext := ha.ext
  call := ha.call

theorem apart (ha : a.Solvable M) : a.Apart where
  cons C hC := ⟨(ha.nonnull C hC).1, (ha.nonnull C hC).2, ha.proper C hC⟩
  alone := ha.alone
  blocks := ha.toNoTags.blocksFit

theorem not_tagged (ha : a.Solvable M) (func : Nat → Prop) (C : Constraint) :
    ¬ (a.system func).tag C := by
  have htag : (a.system func).tag C ↔ a.icallCons.Tagged C := Iff.rfl
  rw [htag, ha.untagged]
  exact IcallCons.not_tagged_nil C

end Anders.Solvable

section

variable {W : Type} [Worklist W] [LawfulWorklist W] {M : Module} {a b : Anders} {S : System}
  {F : Nat → Nat → Prop} {s s' : Solver W}

/-! ## The start -/

/-- The sets and edges the solver starts with are those of the constraints. -/
theorem InitState.precise (hs : InitState b s) (ht : TablesReady M a b) (ha : a.Solvable M)
    (hF : (a.system (a.FuncNode M)).Closed a.rep F)
    (htargets : ∀ n, a.hv n ≠ 0 → TargetOf F n (a.hv n)) :
    s.Precise (a.system (a.FuncNode M)) F := by
  have hframe := hs.built.frame
  have hcons : b.constraints = a.constraints := by rw [ht.frame]
  have hrepb : b.rep = a.rep := by rw [ht.frame]
  have hrep : s.rep = a.rep := by
    have h := congrArg (fun x : Anders => x.rep) hframe
    exact (show s.rep = b.rep from h).trans hrepb
  have hhv : s.hv = a.hv := by
    have h := congrArg (fun x : Anders => x.hv) hframe
    rw [ht.frame] at h
    exact h
  have hmem : ∀ C ∈ s.cplxCons, C ∈ a.constraints := fun C hC => by
    rw [show s.cplxCons = _ from hs.built.cplx, hcons] at hC
    exact List.mem_of_mem_filter hC
  have hoff : ∀ C ∈ s.cplxCons, C.off ≠ 0 → C.off ∈ validOff a.constraints :=
    fun C hC h0 => mem_validOff.mpr ⟨h0, C, hmem C hC, rfl⟩
  have hmask := congrArg (fun x : Anders => x.offMask) hframe
  have hgeps := congrArg (fun x : Anders => x.geps) hframe
  have hfunc := congrArg (fun x : Anders => x.funcNodeSet) hframe
  have hsame : ∀ x o, F (a.rep x) o ↔ F x o := fun x o =>
    ⟨hF.same (rep_rep ..), hF.same (rep_rep ..).symm⟩
  refine ⟨⟨fun x y hxy o => ?_, fun n o ho => ?_, fun n e he o hn => ?_, fun n hn => ?_⟩,
    fun C hC => hF.holds (hmem C hC), fun C hC h0 o ho => ?_, fun C hC htype p hp => ?_,
    fun o ho => ?_, ?_, ?_⟩
  · rw [hrep] at hxy
    exact hF.same hxy
  · obtain ⟨C, hC, htype, rfl, rfl⟩ := (hs.built.pts n o).mp ho
    rw [hcons] at hC
    rw [hrepb, hsame, ha.addr C hC htype]
    exact hF.addr hC htype
  · obtain ⟨C, hC, htype, rfl, rfl⟩ := (hs.built.copy n e).mp he
    rw [hcons] at hC
    rw [hrepb, hsame] at hn ⊢
    exact hF.copy hC htype hn
  · rw [hhv] at hn ⊢
    exact htargets n hn
  · rw [show s.offMask = _ from hmask] at ho
    exact ((ht.mask _ (hoff C hC h0) o).mp ho).2
  · rw [show s.geps = _ from hgeps] at hp
    have hvalid := hoff C hC ((ha.proper C (hmem C hC)).2.2 htype)
    obtain ⟨hin, hsum⟩ := ((ht.gepAdds ha.toNoTags.blocksFit hvalid).1 p.1 p.2).mp hp
    exact ⟨hsum, ((ht.mask _ hvalid p.1).mp hin).2⟩
  · rw [show s.funcNodeSet = _ from hfunc]
    exact (ht.functions.func o).mpr ho
  · have hic := congrArg (fun x : Anders => x.icallCons) hframe
    rw [show s.icallCons = _ from hic, ht.frame]
    exact ha.untagged
  · rw [hrep]
    exact ⟨(ha.alone (.inl rfl)).mpr rfl, (ha.alone (.inr rfl)).mpr rfl⟩

/-! ## The main loop -/

/-- What holds between two iterations: nodes that `r` identifies are merged, and if there was no
cascade the sets are below `F`. -/
structure Solver.Sub (M : Module) (sz : Nat) (S : System) (F : Nat → Nat → Prop) (r : Nat → Nat)
    (s : Solver W) : Prop where
  within : s.Within M sz
  edged : s.Edged
  merged : ∀ x y, r x = r y → s.rep x = s.rep y
  precise : s.cascades = [] → s.Precise S F

/-- A visit takes no set apart. -/
theorem VisitRun.merged {n x y : Nat} (hv : VisitRun M n s s') (hxy : s.rep x = s.rep y) :
    s'.rep x = s'.rep y := by
  cases hv with
  | idle _ => exact hxy
  | @full r d s1 s2 _ _ _ _ hstart hedges =>
      obtain ⟨wl, hwl⟩ := hstart.wl
      obtain ⟨D, hD⟩ := hedges.visits
      have h1 : s1.rep x = s1.rep y := by
        rcases hstart.collapse with ⟨-, heq⟩ | ⟨v, -, hc⟩
        · rw [(Prod.mk.inj heq).1]
          exact hxy
        · refine hc.inv (P := fun t => t.1.rep x = t.1.rep y) (fun _ _ c c' hR h0 => ?_) hxy
          cases hR with
          | skip _ => exact h0
          | merge _ hrun => exact hrun.spec.1.rep h0
      rw [Visits.rep hD, hwl]
      exact h1

/-- Cycle detection takes no set apart. -/
theorem runLcd_merged {sz : Nat} (hsz : 0 < sz) (hw : s.Within M sz) :
    Spec (runLcd s) (fun s' => ∀ x y, s.rep x = s.rep y → s'.rep x = s'.rep y) fun _ => True :=
  ((runLcd_keeps (lcdRules_sameEdges hsz s.toGraph) ⟨⟨hw.graph.size, hw.graph.rep, hw.graph.copy⟩,
    .refl _⟩ (.inr hw.starts)).stops fun _ _ => trivial).imp fun _ h _ _ => h.2.rep

/-- An iteration stays below `F`. -/
theorem solveIter_sub {sz : Nat} {r : Nat → Nat} (hsz : 0 < sz) (hS : ∀ C, ¬ S.tag C)
    (hsmall : S.size i2p ≤ 1) (h : s.Sub M sz S F r) :
    Spec (solveIter M s) (fun l => l.state.Sub M sz S F r) fun _ => True := by
  have hsame : ∀ wl, ({ s with wl } : Solver W).Sub M sz S F r := fun wl =>
    ⟨⟨h.within.graph, h.within.confined, h.within.cons, h.within.starts⟩,
      ⟨h.edged.graph, h.edged.cons, h.edged.gep, h.edged.start, h.edged.stk⟩, h.merged,
      fun hc => ⟨(h.precise hc).graph, (h.precise hc).cons, (h.precise hc).mask, (h.precise hc).gep,
        (h.precise hc).func, (h.precise hc).untagged, (h.precise hc).special⟩⟩
  refine solveIter_rule permits_true (.inl trivial)
    (fun _ _ => ⟨fun _ => .inr trivial, fun _ => .inr trivial⟩) (fun wl _ => hsame wl) ?_ ?_
  · intro s1 n p hpop _
    obtain ⟨wl, rfl⟩ := hpop.wl
    exact hsame wl
  · intro s1 n p s2 hpop _ _ hrun _
    obtain ⟨wl, rfl⟩ := hpop.wl
    have h2 : s2.Sub M sz S F r := by
      refine ⟨hrun.within hsz (hsame wl).within, hrun.edged (hsame wl).edged,
        fun x y hxy => hrun.merged (h.merged x y hxy), fun hc => ?_⟩
      refine hrun.precise hS hsmall ((hsame wl).precise ?_)
      exact List.subset_nil.mp (hc ▸ hrun.cascades)
    have hprecise : ∀ s3, runLcd s2 = .ok s3 → s3.cascades = [] → s3.Precise S F := fun s3 =>
      runLcd_precise (h2.edged.lcdReady h2.within) h2.precise
    refine ⟨h2, ((((runLcd_within h2.within hsz).stops fun _ _ => trivial).and
      (runLcd_edged h2.edged)).and (runLcd_merged hsz h2.within)).and_ok hprecise |>.imp ?_⟩
    rintro s3 ⟨⟨⟨⟨hw, -⟩, he⟩, hm⟩, hp⟩
    exact ⟨hw, he, fun x y hxy => hm x y (h2.merged x y hxy), hp⟩

theorem solveLoop_sub {sz : Nat} {r : Nat → Nat} (hsz : 0 < sz) (hS : ∀ C, ¬ S.tag C)
    (hsmall : S.size i2p ≤ 1) : ∀ (k : Nat) {s : Solver W}, s.Sub M sz S F r →
    Spec (solveLoop M k s) (fun l => l.state.Sub M sz S F r) fun _ => True
  | 0, _, h => h
  | k + 1, s, h => by
      rw [solveLoop]
      refine (solveIter_sub hsz hS hsmall h).bind fun l hl => ?_
      cases l with
      | done s' => exact hl
      | more s' => exact solveLoop_sub hsz hS hsmall k hl

/-- Every state of a run without cascades is below every solution for which the targets are
right. -/
theorem runSolver_sub (ha : a.Solvable M) (hF : (a.system (a.FuncNode M)).Closed a.rep F)
    (htargets : ∀ n, a.hv n ≠ 0 → TargetOf F n (a.hv n)) (k : Nat) :
    Spec (runSolver W M k a)
      (fun l => l.state.Sub M a.size (a.system (a.FuncNode M)) F a.rep) fun _ => True := by
  have hsz : 0 < a.size := Nat.lt_of_le_of_lt (Nat.zero_le _) ha.last
  unfold runSolver
  refine ((ptsInit_spec M a).stops fun _ _ => trivial).bind fun b hb => ?_
  have hfresh : b.Fresh := by
    rw [hb.frame]
    exact ha.fresh
  refine ((solveInit_spec permits_true hfresh).and (solveInit_apart permits_true b)).bind
    fun s ⟨hs, hstk, hapart⟩ => ?_
  have hrep : s.rep = a.rep := by
    have h := congrArg (fun x : Anders => x.rep) hs.built.frame
    rw [hb.frame] at h
    exact h
  refine solveLoop_sub hsz (ha.not_tagged _) ha.single k
    ⟨hs.sized hb ha.sized, hs.edged hb ha.apart hapart hstk, fun x y hxy => ?_,
      fun _ => hs.precise hb ha hF htargets⟩
  rw [hrep]
  exact hxy

/-! ## The end -/

/-- Where no cascade starts from an empty set, the sets at the end solve the constraints. -/
theorem runSolver_closed (ha : a.Solvable M) {k : Nat} (hrun : runSolver W M k a = .ok (.done s))
    (hcasc : ∅ ∉ s.cascades) :
    (a.system (a.FuncNode M)).Closed s.rep fun n o => o ∈ s.pts (s.rep n) := by
  obtain ⟨b, ht, hintact⟩ :=
    (runSolver_intact ha.toNoTags ∅ k).result hrun fun he => absurd he hcasc
  have hempty : Spec (runSolver W M k a) (fun l => ∀ s', l = .done s' → ∀ n, ¬ Live s' n)
      fun _ => True := by
    unfold runSolver
    refine ((ptsInit_spec M a).stops fun _ _ => trivial).bind fun b _ => ?_
    have hstart : Spec (solveInit (W := W) b) (fun _ => True) fun _ => True := by
      cases solveInit (W := W) b <;> trivial
    exact hstart.bind fun s0 _ => solveLoop_empty k
  exact hintact.solves ha.toNoTags ht ha.addr (hempty.result hrun s rfl)

/-- Where no cascade starts from an empty set, nothing of the least solution is missing at the end. -/
theorem runSolver_least (ha : a.Solvable M) {k : Nat} (hrun : runSolver W M k a = .ok (.done s))
    (hcasc : ∅ ∉ s.cascades) {n o : Nat} (hf : (a.system (a.FuncNode M)).Flow a.rep n o) :
    o ∈ s.pts (s.rep n) := by
  have hall : (a.system (a.FuncNode M)).Closed a.rep fun _ _ => True :=
    ⟨fun _ _ => trivial, fun _ _ _ => trivial, fun _ _ _ _ _ => trivial, fun _ _ _ _ _ => trivial,
      fun _ _ _ _ => trivial, fun _ _ => trivial⟩
  have hmerged := ((runSolver_sub ha hall (fun n _ => ⟨⟨0, trivial, by decide⟩, fun _ _ _ _ =>
    Iff.rfl⟩) k).result hrun).merged
  exact System.Flow.least ((runSolver_closed ha hrun hcasc).finer hmerged) hf

/-- With right targets, a run that starts no cascade ends with the least solution. -/
theorem runSolver_flow (ha : a.Solvable M)
    (htargets : ∀ n, a.hv n ≠ 0 →
      TargetOf ((a.system (a.FuncNode M)).Flow a.rep) n (a.hv n))
    {k : Nat} (hrun : runSolver W M k a = .ok (.done s)) (hquiet : s.cascades = []) (n o : Nat) :
    o ∈ s.pts (s.rep n) ↔ (a.system (a.FuncNode M)).Flow a.rep n o := by
  have hsub := (runSolver_sub ha (System.Flow.closed _ _) htargets k).result hrun
  have hp := hsub.precise hquiet
  constructor
  · intro ho
    exact (hp.graph.equal.rep n o).mp (hp.graph.pts _ o ho)
  · exact runSolver_least ha hrun (by rw [hquiet]; simp)

/-- Without offline cycles the solver computes the least solution, for every worklist and every
order of visits. -/
theorem runSolver_exact (W : Type) [Worklist W] [LawfulWorklist W] (M : Module) (a : Anders)
    (ha : a.Solvable M) (hnone : ∀ n, a.hcdVar n = none) (k : Nat) (s : Solver W)
    (hrun : runSolver W M k a = .ok (.done s)) (n o : Nat) :
    o ∈ s.pts (s.rep n) ↔ (a.system (a.FuncNode M)).Flow a.rep n o := by
  refine runSolver_flow ha (fun m hm => ?_) hrun
    ((runSolver_untargeted ha.toNoTags hnone k).result hrun).cascades n o
  rw [Graph.hv, hnone] at hm
  exact absurd rfl hm

end

/-- With a cycle of `q` and what `p` points to. -/
theorem runSolver_exact_cycle : ∃ s : Solver (Lists true PrioHeap),
    runSolver (Lists true PrioHeap) (.uniform false) 20 storedBack = .ok (.done s) ∧
      ∀ n o, o ∈ s.pts (s.rep n) ↔
        (storedBack.system (storedBack.FuncNode (.uniform false))).Flow storedBack.rep n o := by
  have hcalls : storedBack.NoCalls (.uniform false) :=
    Anders.initial_noCalls (by decide) (fieldlessObjects_node 3)
  have ha : storedBack.Solvable (.uniform false) := {
    toNoTags := hcalls.noTags
    nonnull := by decide
    addr := fun _ _ _ => rfl
    last := by decide
    hcd := fun _ _ h => by cases h
    ext := Finset.Subset.refl _
    call := fun _ _ h => by cases h
    single := by decide }
  have hrun : (runSolver (Lists true PrioHeap) (.uniform false) 20 storedBack).toOption.any
      (fun l => !l.isMore) = true := by decide +kernel
  cases h : runSolver (Lists true PrioHeap) (.uniform false) 20 storedBack with
  | error e =>
      rw [h] at hrun
      cases hrun
  | ok l =>
      rw [h] at hrun
      cases l with
      | more s => cases hrun
      | done s =>
          exact ⟨s, rfl, fun n o => runSolver_exact _ _ storedBack ha (fun _ => rfl) 20 s h n o⟩

end PtrAnalysis
