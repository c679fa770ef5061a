import PtrAnalysis.Iterate
import PtrAnalysis.SolveInit
import PtrAnalysis.TablesSpec

/-!
# Nothing leaves the node range

Nodes are numbered from 0 up and no phase behind the optimizer creates one.
`Within` says that every set, edge and constraint of a state stays below the node
count; it holds in the state the solver starts in and every step keeps it. This
bounds how much a run can add.
-/

namespace PtrAnalysis

open Run PtrAnalysis.Graph

/-! ## The graph -/

namespace Graph

structure Within (sz : Nat) (g : Graph) : Prop where
  size : g.size = sz
  rep : ∀ x < sz, g.rep x < sz
  hcd : ∀ n h, g.hcdVar n = some h → h < sz
  pts : ∀ n, ∀ o ∈ (g.nodes n).pointsTo, n < sz ∧ o < sz
  prev : ∀ n, (g.nodes n).prevPointsTo ⊆ (g.nodes n).pointsTo
  copy : ∀ n, ∀ e ∈ (g.nodes n).copyTo, e < sz

namespace Within

variable {sz : Nat} {g : Graph} {a b : Nat}

theorem hv_lt (h : g.Within sz) {n : Nat} (hn : g.hv n ≠ 0) : g.hv n < sz := by
  unfold Graph.hv at hn ⊢
  cases hh : g.hcdVar n with
  | none => simp [hh] at hn
  | some v => exact h.hcd n v hh

theorem absorb (h : g.Within sz) (hm : Mergeable g a b) : (g.absorb a b).Within sz where
  size := h.size
  rep x hx := by
    have hin := (absorb_coarser hm).inside fun y hy => h.size ▸ h.rep y (h.size ▸ hy)
    have hsize : (g.absorb a b).size = sz := h.size
    rw [hsize] at hin
    exact hin x hx
  hcd := h.hcd
  pts n o ho := by
    have ha : a < sz := h.size ▸ hm.valid1.2
    simp only [Graph.absorb, takeOver, cleared] at ho
    split at ho
    · rename_i hn
      rcases Finset.mem_union.mp ho with ho | ho
      · exact ⟨hn ▸ ha, (h.pts a o ho).2⟩
      · exact ⟨hn ▸ ha, (h.pts b o ho).2⟩
    · split at ho
      · simp at ho
      · exact h.pts n o ho
  prev n := by
    simp only [Graph.absorb, takeOver, cleared]
    split
    · exact Finset.empty_subset _
    · split
      · exact Finset.empty_subset _
      · exact h.prev n
  copy n e he := by
    simp only [Graph.absorb, takeOver, cleared] at he
    split at he
    · rcases Finset.mem_union.mp (Finset.mem_of_mem_erase (Finset.mem_of_mem_erase he)) with he | he
      · exact h.copy a e he
      · exact h.copy b e he
    · split at he
      · simp at he
      · exact h.copy n e he

theorem setHcdVar (h : g.Within sz) {n : Nat} {v : Option Nat} (hv : ∀ x, v = some x → x < sz) :
    (g.setHcdVar n v).Within sz where
  size := h.size
  rep := h.rep
  hcd m x hx := by
    simp only [Graph.setHcdVar, Function.update_apply] at hx
    split at hx
    · exact hv x hx
    · exact h.hcd m x hx
  pts := h.pts
  prev := h.prev
  copy := h.copy

theorem drop (h : g.Within sz) (n : Nat) : (g.setHcdVar n none).Within sz :=
  h.setHcdVar fun _ hx => by cases hx

end Within

end Graph

/-- Merges stay within the range. -/
theorem MergeRun.within {sz : Nat} {g g' : Graph} {n1 n2 r : Nat} (hrun : MergeRun g n1 n2 g' r)
    (h : g.Within sz) : g'.Within sz := by
  induction hrun with
  | plain hm hr _ => exact h.absorb (hm.byRank hr)
  | adopt hm hr hb _ =>
      refine ((h.absorb (hm.byRank hr)).setHcdVar fun x hx => ?_).drop _
      rw [← Option.some.inj hx]
      exact h.hv_lt hb
  | same hm hr _ _ _ => exact (h.absorb (hm.byRank hr)).drop _
  | cascade hm hr _ _ _ _ _ ih =>
      have hab := h.absorb (hm.byRank hr)
      exact (ih ⟨hab.size, hab.rep, hab.hcd, hab.pts, hab.prev, hab.copy⟩).drop _

/-! ## The state -/

/-- What the calls of the program add to nodes leads to nodes. -/
structure Confined (M : Module) (sz : Nat) (a : Anders) : Prop where
  last : a.lastObjNode < sz
  ext : a.extFuncNodes ⊆ a.extFuncNodeSet
  call : ∀ i vn, (M.callSite i).valNode = some vn → vn < sz

theorem Confined.of_eq {M : Module} {sz : Nat} {a a' : Anders} (h : Confined M sz a)
    (hlast : a'.lastObjNode = a.lastObjNode) (hext : a'.extFuncNodes = a.extFuncNodes)
    (hset : a'.extFuncNodeSet = a.extFuncNodeSet) : Confined M sz a' :=
  ⟨hlast ▸ h.last, by rw [hext, hset]; exact h.ext, h.call⟩

/-- Constraint `C` is about nodes, and so is what the tables make of its offset. -/
structure ConsWithin (sz : Nat) (offMask : List (Finset Nat)) (geps : List (Finset (Nat × Nat)))
    (C : Constraint) : Prop where
  dest : C.dest < sz
  src : C.src < sz
  mask : C.off ≠ 0 → ∀ x ∈ offMask.getD C.off ∅, x + C.off < sz
  gep : C.type = .gep → ∀ p ∈ geps.getD C.off ∅, p.2 < sz

theorem ConsWithin.rewrite {sz : Nat} {offMask : List (Finset Nat)}
    {geps : List (Finset (Nat × Nat))} {a : Anders} {C : Constraint}
    (h : ConsWithin sz offMask geps C) (hrep : ∀ x < sz, a.rep x < sz) :
    ConsWithin sz offMask geps (rewrite a C) :=
  ⟨hrep _ h.dest, hrep _ h.src, h.mask, h.gep⟩

section

variable {W : Type} {M : Module} {sz : Nat} {s s' : Solver W}

structure Solver.Within (M : Module) (sz : Nat) (s : Solver W) : Prop where
  graph : s.toGraph.Within sz
  confined : Confined M sz s.toAnders
  cons : ∀ C ∈ s.cplxCons, ConsWithin sz s.offMask s.geps C
  starts : ∀ n ∈ s.lcdStarts, n < sz

namespace Solver.Within

/-- Only the graph matters beside the constraints and the tables. -/
theorem withGraph (h : s.Within M sz) {g : Graph} (hg : g.Within sz) : (s.withGraph g).Within M sz :=
  ⟨hg, h.confined.of_eq rfl rfl rfl, h.cons, h.starts⟩

/-- A change of anything but sets and edges of a node. -/
theorem modify (h : s.Within M sz) (n : Nat) {f : Node → Node}
    (hpts : ∀ N, (f N).pointsTo = N.pointsTo)
    (hprev : ∀ N : Node, N.prevPointsTo ⊆ N.pointsTo → (f N).prevPointsTo ⊆ N.pointsTo)
    (hcopy : ∀ N, (f N).copyTo = N.copyTo) : (s.modify n f).Within M sz := by
  refine h.withGraph ⟨h.graph.size, h.graph.rep, h.graph.hcd, fun m o ho => ?_, fun m => ?_,
    fun m e he => ?_⟩
  · simp only [Graph.modify, Function.update_apply] at ho
    split at ho
    · rename_i hm
      rw [hpts, ← hm] at ho
      exact h.graph.pts m o ho
    · exact h.graph.pts m o ho
  · simp only [Graph.modify, Function.update_apply]
    split
    · rename_i hm
      rw [hpts]
      exact hprev _ (h.graph.prev n)
    · exact h.graph.prev m
  · simp only [Graph.modify, Function.update_apply] at he
    split at he
    · rename_i hm
      rw [hcopy, ← hm] at he
      exact h.graph.copy m e he
    · exact h.graph.copy m e he

end Solver.Within

variable [Worklist W] [LawfulWorklist W] {D : Demand} {owed : Nat → Prop}

/-- Growth stays within the range if the demand does. -/
theorem Solver.Within.grows (h : s.Within M sz) (hg : Grows M D owed s s')
    (hedge : ∀ a b, D.edge a b → b < sz) (hfact : ∀ n o, D.fact n o → n < sz ∧ o < sz) :
    s'.Within M sz := by
  have hmay : ∀ a b, D.MayEdge M s.rep a b → b < sz := by
    rintro a b (hD | ⟨p, -, vn, hvn, -, rfl, -⟩)
    · exact hedge a b hD
    · exact h.graph.rep vn (h.confined.call _ vn hvn)
  have hpts : ∀ n o, o ∈ s'.pts n → n < sz ∧ o < sz := by
    refine hg.least (fun n o => n < sz ∧ o < sz) h.graph.pts ?_ ?_
    · intro a b o hm _ ho
      exact ⟨hmay a b hm, ho.2⟩
    · rintro n o (hD | ⟨p, -, vn, hvn, -, rfl, -, hlt, -⟩)
      · exact hfact n o hD
      · have hlast := h.confined.last
        exact ⟨h.graph.rep vn (h.confined.call _ vn hvn), by omega⟩
  refine ⟨⟨?_, ?_, ?_, hpts, fun n => ?_, fun n e he => ?_⟩, ?_, ?_, fun n hn => ?_⟩
  · rw [hg.frame]
    exact h.graph.size
  · rw [hg.rep]
    exact h.graph.rep
  · rw [hg.frame]
    exact h.graph.hcd
  · have hprev : s'.prev n = s.prev n := hg.prev n
    rw [show (s'.nodes n).prevPointsTo = _ from hprev]
    exact (h.graph.prev n).trans (hg.pts_mono n)
  · rcases hg.copy_new n e he with hold | ⟨hm, -⟩
    · exact h.graph.copy n e hold
    · exact hmay n e hm
  · rw [hg.frame]
    exact h.confined.of_eq rfl rfl rfl
  · rw [hg.frame]
    exact h.cons
  · rcases hg.starts n hn with hold | ⟨hne, -⟩
    · exact h.starts n hold
    · obtain ⟨o, ho⟩ := Finset.nonempty_iff_ne_empty.mpr hne
      exact (hpts n o ho).1

/-! ## A visit -/

/-- The edges a load or store demands lead to nodes with `p` if those it is to look at
have it; it demands no facts. -/
theorem handleDemand_edge {p : Nat → Prop} {a : Anders} {hcdRep : Nat} {d : Finset Nat}
    (seen : List Constraint) (load : Bool) {C : Constraint} (I : Option (Finset Nat))
    (hh : hcdRep ≠ 0 → p hcdRep) (hd : ∀ x ∈ d, p (a.rep x)) (hdest : p C.dest)
    (hoff : C.off ≠ 0 → ∀ x ∈ offPointees a d C.off I, (I.isSome → x ∉ a.extFuncNodeSet) →
      p (a.rep (x + C.off))) :
    (∀ x y, (handleDemand M a hcdRep d seen load C I).edge x y → p y) ∧
    ∀ n o, ¬ (handleDemand M a hcdRep d seen load C I).fact n o := by
  have hext : ∀ f ins, (∀ x y, ¬ (extDemand f ins).edge x y) ∧ ∀ n o, ¬ (extDemand f ins).fact n o := by
    intro f ins
    cases f with
    | none => exact ⟨fun _ _ => id, fun _ _ => id⟩
    | some f => exact ⟨fun _ _ ⟨_, _, h⟩ => h, fun _ _ ⟨_, _, h⟩ => h⟩
  have hls : ∀ r, p r → (∀ x y, (lsDemand load C.dest C.src r).edge x y → p y) ∧
      ∀ n o, ¬ (lsDemand load C.dest C.src r).fact n o := by
    intro r hr
    cases load with
    | true => exact ⟨fun x y h => h.2 ▸ hdest, fun _ _ => id⟩
    | false => exact ⟨fun x y h => h.2 ▸ hr, fun _ _ => id⟩
  have heach : ∀ {l : List Nat} {f : Nat → Demand},
      (∀ z ∈ l, (∀ x y, (f z).edge x y → p y) ∧ ∀ n o, ¬ (f z).fact n o) →
      (∀ x y, (Demand.each f l).edge x y → p y) ∧ ∀ n o, ¬ (Demand.each f l).fact n o := by
    intro l f hf
    exact ⟨fun x y ⟨z, hz, h⟩ => (hf z hz).1 x y h, fun n o ⟨z, hz, h⟩ => (hf z hz).2 n o h⟩
  unfold handleDemand
  split
  · cases I with
    | none => exact ⟨fun _ _ => False.elim, fun _ _ => id⟩
    | some ins =>
        refine heach fun z _ => ?_
        exact ⟨fun x y h => absurd h ((hext _ ins).1 x y), (hext _ ins).2⟩
  · split
    · rename_i hhcd
      exact hls hcdRep (hh hhcd.1)
    · split
      · rename_i hne
        refine heach fun z hz => ?_
        have hz := mem_ascending.mp hz
        unfold lsOffDemand
        cases I with
        | none =>
            dsimp only
            split
            · exact ⟨fun _ _ => False.elim, fun _ _ => id⟩
            · exact hls _ (hoff hne z hz fun h => by cases h)
        | some ins =>
            dsimp only
            split
            · exact ⟨fun _ _ => False.elim, fun _ _ => id⟩
            · split
              · exact ⟨fun x y h => absurd h ((hext _ ins).1 x y), (hext _ ins).2⟩
              · rename_i hnot
                split
                · exact ⟨fun _ _ => False.elim, fun _ _ => id⟩
                · exact hls _ (hoff hne z hz fun _ => hnot)
      · exact heach fun z hz => hls _ (hd z (mem_ascending.mp hz))

theorem LsPassStep.within {drop : Nat → Node → Node} {n hcdRep cid : Nat} {d : Finset Nat}
    {t t' : Solver W × List Constraint} (hstep : LsPassStep M drop n hcdRep d cid t t')
    (hdrop : ∀ N, (drop cid N).pointsTo = N.pointsTo ∧ (drop cid N).prevPointsTo = N.prevPointsTo ∧
      (drop cid N).copyTo = N.copyTo)
    (hh : hcdRep < sz) (hd : ∀ x ∈ d, x < sz) (h : t.1.Within M sz) : t'.1.Within M sz := by
  obtain ⟨C0, C, I, u, hu, rfl⟩ := hstep
  have hC0 := h.cons C0 (List.mem_of_getElem? hu.get)
  have hC : ConsWithin sz t.1.offMask t.1.geps C := by
    rw [hu.rewritten]
    exact hC0.rewrite h.graph.rep
  have hcons : ∀ C' ∈ t.1.cplxCons.set cid C, ConsWithin sz t.1.offMask t.1.geps C' := by
    intro C' hC'
    rcases List.mem_or_eq_of_mem_set hC' with hC' | rfl
    · exact h.cons C' hC'
    · exact hC
  have hset : ({ t.1 with
      cplxCons := t.1.cplxCons.set cid C
      icallCons := (icallOf t.1.toAnders n C0 C).2 } : Solver W).Within M sz :=
    ⟨h.graph, h.confined.of_eq rfl rfl rfl, hcons, h.starts⟩
  have hoff : C.off ≠ 0 → ∀ x ∈ offPointees t.1.toAnders d C.off I,
      (I.isSome → x ∉ t.1.extFuncNodeSet) → t.1.rep (x + C.off) < sz := by
    intro h0 x hx hnot
    refine h.graph.rep _ (hC.mask h0 x ?_)
    have hx := (Finset.mem_inter.mp hx).2
    split at hx
    · -- a function of the program is here because it is big enough
      exact (Finset.mem_union.mp hx).resolve_right fun he => hnot ‹_› (h.confined.ext he)
    · exact hx
  have hdem := handleDemand_edge (M := M) (p := (· < sz)) t.2 (decide (C0.type = .load)) I (fun _ => hh)
    (fun x hx => h.graph.rep x (hd x hx)) hC.dest hoff
  have hu1 := hset.grows hu.handled.grows hdem.1 fun m o hf => absurd hf (hdem.2 m o)
  dsimp only
  split
  · exact hu1.modify n (fun N => (hdrop N).1) (fun N hN => (hdrop N).2.1 ▸ hN) fun N => (hdrop N).2.2
  · exact hu1

theorem GepPassStep.within {drop : Nat → Node → Node} {n cid : Nat} {d : Finset Nat}
    {t t' : Solver W × List Constraint} (hstep : GepPassStep M drop n d cid t t')
    (hdrop : ∀ N, (drop cid N).pointsTo = N.pointsTo ∧ (drop cid N).prevPointsTo = N.prevPointsTo ∧
      (drop cid N).copyTo = N.copyTo)
    (h : t.1.Within M sz) : t'.1.Within M sz := by
  obtain ⟨C0, C, u, hu, rfl⟩ := hstep
  have hC0 := h.cons C0 (List.mem_of_getElem? hu.get)
  have hC : ConsWithin sz t.1.offMask t.1.geps C := by
    rw [hu.rewritten]
    exact hC0.rewrite h.graph.rep
  have hcons : ∀ C' ∈ t.1.cplxCons.set cid C, ConsWithin sz t.1.offMask t.1.geps C' := by
    intro C' hC'
    rcases List.mem_or_eq_of_mem_set hC' with hC' | rfl
    · exact h.cons C' hC'
    · exact hC
  have hset : ({ t.1 with cplxCons := t.1.cplxCons.set cid C } : Solver W).Within M sz :=
    ⟨h.graph, h.confined.of_eq rfl rfl rfl, hcons, h.starts⟩
  have hfact : ∀ m o, (Demand.facts C.dest (gepImage t.1.geps C.off d)).fact m o →
      m < sz ∧ o < sz := by
    rintro m o ⟨rfl, ho⟩
    refine ⟨hC.dest, ?_⟩
    obtain ⟨p, hp, rfl⟩ := Finset.mem_image.mp ho
    have htype : C.type = .gep := by
      rw [hu.rewritten]
      exact hu.type
    exact hC.gep htype p (Finset.mem_filter.mp hp).1
  have hu1 : u.1.Within M sz := by
    refine hset.grows hu.grows (fun a b hedge => ?_) fun m o hf => ?_
    · split at hedge
      · exact hedge.elim
      · exact hedge.elim
    · split at hf
      · exact hf.elim
      · exact hfact m o hf
  dsimp only
  split
  · exact hu1.modify n (fun N => (hdrop N).1) (fun N hN => (hdrop N).2.1 ▸ hN) fun N => (hdrop N).2.2
  · exact hu1

theorem VisitSteps.within {n hcdRep : Nat} {d : Finset Nat} {s s1 s2 s3 s' : Solver W}
    (hv : VisitSteps M n hcdRep d s s1 s2 s3 s') (hh : hcdRep < sz) (hd : ∀ x ∈ d, x < sz)
    (h : s.Within M sz) : s'.Within M sz := by
  obtain ⟨seen1, hloads⟩ := hv.loads
  obtain ⟨seen2, hstores⟩ := hv.stores
  obtain ⟨seen3, hgeps⟩ := hv.geps
  have h1 : s1.Within M sz := hloads.inv (P := fun t => t.1.Within M sz)
    (fun _ _ _ _ hR => hR.within (fun _ => ⟨rfl, rfl, rfl⟩) hh hd) h
  have h2 : s2.Within M sz := hstores.inv (P := fun t => t.1.Within M sz)
    (fun _ _ _ _ hR => hR.within (fun _ => ⟨rfl, rfl, rfl⟩) hh hd) h1
  have h3 : s3.Within M sz := hgeps.inv (P := fun t => t.1.Within M sz)
    (fun _ _ _ _ hR => hR.within (fun _ => ⟨rfl, rfl, rfl⟩)) h2
  refine h3.grows hv.prop (fun a b hedge => absurd hedge (propDemand_only.1 a b)) fun m o hf => ?_
  obtain ⟨ho, e, he, rfl, -⟩ := propDemand_fact.mp hf
  exact ⟨h3.graph.rep e (h3.graph.copy n e (mem_ascending.mp he)), hd o ho⟩

omit [Worklist W] [LawfulWorklist W] in
theorem touch_within (h : s.Within M sz) (n : Nat) : (touch s n).Within M sz := by
  have h1 : ({ s with nNodeRuns := s.nNodeRuns + 1, now := s.now + 1 } : Solver W).Within M sz :=
    ⟨h.graph, h.confined.of_eq rfl rfl rfl, h.cons, h.starts⟩
  exact h1.modify n (fun _ => rfl) (fun _ hN => hN) fun _ => rfl

omit [Worklist W] [LawfulWorklist W] in
theorem visitStart_within (h : s.Within M sz) (n : Nat) : (visitStart s n).Within M sz :=
  (touch_within h n).modify n (fun _ => rfl) (fun _ _ => Finset.Subset.refl _) fun _ => rfl

omit [Worklist W] [LawfulWorklist W] in
/-- The collapse of pointees stays within the range, and so does what it returns. -/
theorem CollapseRun.within {n : Nat} {d : Finset Nat} {t : Solver W × Nat}
    (hrun : CollapseRun n d s t) (hsz : 0 < sz) (h : s.Within M sz) :
    t.1.Within M sz ∧ t.2 < sz := by
  rcases hrun with ⟨-, rfl⟩ | ⟨v, hv, hc⟩
  · exact ⟨h, hsz⟩
  · refine hc.inv (P := fun t => t.1.Within M sz ∧ t.2 < sz) (fun x0 _ c c' hR hc => ?_)
      ⟨h, h.graph.rep v (h.graph.hcd n v hv)⟩
    cases hR with
    | skip _ => exact hc
    | merge _ hm =>
        have hg := hm.within hc.1.graph
        refine ⟨hc.1.withGraph hg, ?_⟩
        rw [← hm.spec.2.1]
        exact hg.rep _ hc.2

theorem VisitRun.within {n : Nat} {s' : Solver W} (hv : VisitRun M n s s') (hsz : 0 < sz)
    (h : s.Within M sz) : s'.Within M sz := by
  cases hv with
  | idle _ => exact touch_within h n
  | @full r d s1 s2 t1 t2 t3 _ hstart hedges =>
      obtain ⟨h1, hr⟩ := hstart.collapse.within hsz (visitStart_within h n)
      obtain ⟨wl, hwl⟩ := hstart.wl
      have h2 : s2.Within M sz := by
        rw [hwl]
        exact ⟨h1.graph, h1.confined.of_eq rfl rfl rfl, h1.cons, h1.starts⟩
      refine hedges.within hr (fun x hx => ?_) h2
      rw [← hstart.new] at hx
      exact (h.graph.pts n x (Finset.mem_sdiff.mp hx).1).2

end

/-! ## The state the solver starts in -/

/-- What bounds the IDs in the state the solver starts in. -/
structure Anders.Sized (M : Module) (a : Anders) : Prop where
  gep : ∀ C ∈ a.constraints, C.type = .gep → C.off ≠ 0
  node : ∀ C ∈ a.constraints, C.dest < a.size ∧ C.src < a.size
  last : a.lastObjNode < a.size
  object : ∀ i ≤ a.lastObjNode, i + (a.nodes i).objSz ≤ a.size
  rep : ∀ x < a.size, a.rep x < a.size
  hcd : ∀ n h, a.hcdVar n = some h → h < a.size
  ext : a.extFuncNodes ⊆ a.extFuncNodeSet
  call : ∀ i vn, (M.callSite i).valNode = some vn → vn < a.size

/-- What the optimizer leaves behind: constraints, objects and calls over the nodes
there are, and no sets yet. -/
structure Anders.Valid (M : Module) (a : Anders) : Prop extends a.Sized M where
  fresh : a.Fresh

/-- The tables of `ptsInit` lead from nodes to nodes. -/
theorem TablesReady.consWithin {M : Module} {a b : Anders} (h : TablesReady M a b) (ha : a.Sized M)
    {C : Constraint} (hC : C ∈ a.constraints) : ConsWithin a.size b.offMask b.geps C := by
  have hmask : C.off ≠ 0 → ∀ x ∈ b.offMask.getD C.off ∅, x + C.off < a.size := by
    intro h0 x hx
    obtain ⟨hle, hlt⟩ := (h.mask _ (mem_validOff.mpr ⟨h0, C, hC, rfl⟩) x).mp hx
    have := ha.object x hle
    omega
  refine ⟨(ha.node C hC).1, (ha.node C hC).2, hmask, fun htype p hp => ?_⟩
  have h0 : C.off ≠ 0 := ha.gep C hC htype
  rw [h.geps _ (mem_validOff.mpr ⟨h0, C, hC, rfl⟩)] at hp
  obtain ⟨x, hx, rfl⟩ := Finset.mem_image.mp hp
  exact Nat.lt_of_le_of_lt (Nat.mod_le ..) (hmask h0 x hx)

theorem InitState.sized {W : Type} [Worklist W] [LawfulWorklist W] {M : Module} {a b : Anders}
    {s : Solver W} (hs : InitState b s) (ht : TablesReady M a b) (ha : a.Sized M) :
    s.Within M a.size := by
  have hframe := hs.built.frame
  have hcons : b.constraints = a.constraints := by rw [ht.frame]
  have hrep : b.rep = a.rep := by rw [ht.frame]
  have hrep' : s.rep = b.rep := by
    have h := congrArg (fun x : Anders => x.rep) hframe
    exact h
  refine ⟨⟨?_, ?_, ?_, fun n o ho => ?_, fun n => ?_, fun n e he => ?_⟩, ⟨?_, ?_, ha.call⟩,
    fun C hC => ?_, fun n hn => ?_⟩
  · have h := congrArg (fun x : Anders => x.size) hframe
    rw [ht.frame] at h
    exact h
  · rw [hrep', hrep]
    exact ha.rep
  · have h := congrArg (fun x : Anders => x.hcdVar) hframe
    rw [ht.frame] at h
    rw [show s.hcdVar = _ from h]
    exact ha.hcd
  · obtain ⟨C, hC, -, rfl, rfl⟩ := (hs.built.pts n o).mp ho
    rw [hcons] at hC
    rw [hrep]
    exact ⟨ha.rep _ (ha.node C hC).1, ha.rep _ (ha.node C hC).2⟩
  · rw [show (s.nodes n).prevPointsTo = ∅ from (hs.built.kept n).2.2]
    exact Finset.empty_subset _
  · obtain ⟨C, hC, -, -, rfl⟩ := (hs.built.copy n e).mp he
    rw [hcons] at hC
    rw [hrep]
    exact ha.rep _ (ha.node C hC).1
  · have h := congrArg (fun x : Anders => x.lastObjNode) hframe
    rw [ht.frame] at h
    rw [show s.lastObjNode = _ from h]
    exact ha.last
  · have h1 := congrArg (fun x : Anders => x.extFuncNodes) hframe
    have h2 := congrArg (fun x : Anders => x.extFuncNodeSet) hframe
    rw [show s.extFuncNodes = _ from h1, show s.extFuncNodeSet = _ from h2]
    intro i hi
    exact (ht.functions.extSet i).mpr (((ht.functions.ext i).mp hi).imp (fun h => ha.ext h) id)
  · have h1 := congrArg (fun x : Anders => x.offMask) hframe
    have h2 := congrArg (fun x : Anders => x.geps) hframe
    rw [show s.offMask = _ from h1, show s.geps = _ from h2]
    rw [show s.cplxCons = _ from hs.built.cplx, hcons] at hC
    exact ht.consWithin ha (List.mem_of_mem_filter hC)
  · rw [hs.lcdStarts] at hn
    simp at hn

theorem InitState.within {W : Type} [Worklist W] [LawfulWorklist W] {M : Module} {a b : Anders}
    {s : Solver W} (hs : InitState b s) (ht : TablesReady M a b) (ha : a.Valid M) :
    s.Within M a.size := hs.sized ht ha.toSized

end PtrAnalysis
