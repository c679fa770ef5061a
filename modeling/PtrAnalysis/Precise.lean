import PtrAnalysis.Semantics
import PtrAnalysis.VisitSound

/-!
# Nothing is invented

Where the solver starts from sets that a solution `F` of the constraints bounds, it stays below
`F`: merged nodes have equal sets in `F`, and copy edges lead to larger ones. The targets of
offline cycles are what makes merging pointees right. An entry of `hcdVar` says that its node
points to something, and that whatever it points to has the set of the target.
-/

namespace PtrAnalysis

open Run PtrAnalysis.Graph

variable {F : Nat → Nat → Prop}

/-- All that `n` points to, apart from the unknown pointer, and at least one node, has the
set of `v`. -/
structure TargetOf (F : Nat → Nat → Prop) (n v : Nat) : Prop where
  some : ∃ p, F n p ∧ p ≠ i2p
  each : ∀ p, F n p → p ≠ i2p → ∀ o, F p o ↔ F v o

theorem TargetOf.of_equal {n m v w : Nat} (h : TargetOf F n v) (hnm : ∀ o, F n o ↔ F m o)
    (hvw : ∀ o, F v o ↔ F w o) : TargetOf F m w where
  some := h.some.imp fun p hp => ⟨(hnm p).mp hp.1, hp.2⟩
  each p hp hne o := (h.each p ((hnm p).mpr hp) hne o).trans (hvw o)

/-- Two targets of one node have one set. -/
theorem TargetOf.unique {n v w : Nat} (h : TargetOf F n v) (h' : TargetOf F n w) (o : Nat) :
    F v o ↔ F w o := by
  obtain ⟨p, hp, hne⟩ := h.some
  exact (h.each p hp hne o).symm.trans (h'.each p hp hne o)

/-! ## The graph -/

namespace Graph

/-- The nodes of a set of `g` have one set in `F`. -/
def Equal (F : Nat → Nat → Prop) (g : Graph) : Prop :=
  ∀ x y, g.rep x = g.rep y → ∀ o, F x o → F y o

/-- No set, edge or target of `g` is beyond `F`. -/
structure Precise (F : Nat → Nat → Prop) (g : Graph) : Prop where
  equal : g.Equal F
  pts : ∀ n, ∀ o ∈ (g.nodes n).pointsTo, F n o
  copy : ∀ n, ∀ e ∈ (g.nodes n).copyTo, ∀ o, F n o → F e o
  target : ∀ n, g.hv n ≠ 0 → TargetOf F n (g.hv n)

variable {g g' : Graph} {a b : Nat}

theorem Equal.iff (h : g.Equal F) {x y : Nat} (hxy : g.rep x = g.rep y) (o : Nat) :
    F x o ↔ F y o :=
  ⟨h x y hxy o, h y x hxy.symm o⟩

theorem Equal.rep (h : g.Equal F) (x o : Nat) : F (g.rep x) o ↔ F x o := Equal.iff h (rep_rep ..) o

theorem Equal.absorb (h : g.Equal F) (hm : Mergeable g a b) (hab : ∀ o, F a o ↔ F b o) :
    (g.absorb a b).Equal F := by
  have hnew : ∀ x o, F x o ↔ F ((g.absorb a b).rep x) o := fun x o => by
    rw [← h.rep, absorb_rep hm]
    split
    · rename_i hx
      rw [hx]
      exact (hab o).symm
    · exact Iff.rfl
  intro x y hxy o hx
  rw [hnew] at hx ⊢
  rwa [← hxy]

theorem Precise.absorb (h : g.Precise F) (hm : Mergeable g a b) (hab : ∀ o, F a o ↔ F b o) :
    (g.absorb a b).Precise F where
  equal := h.equal.absorb hm hab
  pts n o ho := by
    simp only [Graph.absorb, takeOver, cleared] at ho
    split at ho
    · rename_i hn
      rw [hn]
      rcases Finset.mem_union.mp ho with ho | ho
      · exact h.pts a o ho
      · exact (hab o).mpr (h.pts b o ho)
    · split at ho
      · simp at ho
      · exact h.pts n o ho
  copy n e he o hn := by
    simp only [Graph.absorb, takeOver, cleared] at he
    split at he
    · rename_i hna
      rw [hna] at hn
      rcases Finset.mem_union.mp (Finset.mem_of_mem_erase (Finset.mem_of_mem_erase he)) with he | he
      · exact h.copy a e he o hn
      · exact h.copy b e he o ((hab o).mp hn)
    · split at he
      · simp at he
      · exact h.copy n e he o hn
  target := h.target

theorem Precise.setHcdVar (h : g.Precise F) (n : Nat) {v : Option Nat}
    (hv : v.getD 0 ≠ 0 → TargetOf F n (v.getD 0)) : (g.setHcdVar n v).Precise F where
  equal := h.equal
  pts := h.pts
  copy := h.copy
  target m hm := by
    rw [setHcdVar_hv] at hm ⊢
    split at hm
    · rename_i hmn
      rw [if_pos hmn]
      exact hmn ▸ hv hm
    · rename_i hmn
      rw [if_neg hmn]
      exact h.target m hm

theorem Precise.drop (h : g.Precise F) (n : Nat) : (g.setHcdVar n none).Precise F :=
  h.setHcdVar n fun h0 => absurd rfl h0

end Graph

/-- Merging nodes with equal sets in `F` keeps the graph below `F`: a cascade merges the targets
of nodes that point to the same. -/
theorem MergeRun.precise {g g' : Graph} {n1 n2 r : Nat} (hrun : MergeRun g n1 n2 g' r)
    (h12 : ∀ o, F n1 o ↔ F n2 o) (h : g.Precise F) : g'.Precise F := by
  have hboth : ∀ {g n1 n2 a b}, byRank g n1 n2 = (a, b) → (∀ o, F n1 o ↔ F n2 o) →
      ∀ o, F a o ↔ F b o := by
    intro g n1 n2 a b hr h12
    rcases byRank_cases g n1 n2 with h | h <;> rw [h] at hr <;> cases hr
    · exact h12
    · exact fun o => (h12 o).symm
  induction hrun with
  | plain hm hr _ => exact h.absorb (hm.byRank hr) (hboth hr h12)
  | @adopt g n1 n2 a b hm hr hvb _ =>
      have hab := hboth hr h12
      refine ((h.absorb (hm.byRank hr) hab).setHcdVar a (v := some (g.hv b)) fun _ => ?_).drop b
      exact (h.target b hvb).of_equal (fun o => (hab o).symm) fun _ => Iff.rfl
  | same hm hr _ _ _ => exact (h.absorb (hm.byRank hr) (hboth hr h12)).drop _
  | @cascade g g' n1 n2 a b r hm hr hvb hva _ _ _ ih =>
      have hab := hboth hr h12
      have habs := h.absorb (hm.byRank hr) hab
      refine (ih (fun o => ?_) ⟨habs.equal, habs.pts, habs.copy, habs.target⟩).drop b
      rw [habs.equal.rep, habs.equal.rep]
      exact (h.target a hva).unique
        ((h.target b hvb).of_equal (fun o => (hab o).symm) fun _ => Iff.rfl) o

/-! ## The solver -/

namespace System

/-- What constraint `C` demands of `F`, if it is no base or copy constraint. -/
structure Holds (S : System) (F : Nat → Nat → Prop) (C : Constraint) : Prop where
  load : C.type = .load → ∀ o x, F C.src o → S.Acts C o → F (o + C.off) x → F C.dest x
  store : C.type = .store → ∀ o x, F C.dest o → S.Acts C o → F C.src x → F (o + C.off) x
  gep : C.type = .gep → ∀ o, F C.src o → C.off < S.size o → F C.dest (o + C.off)

variable {S : System} {r : Nat → Nat} {C : Constraint}

theorem Closed.holds (h : S.Closed r F) (hC : S.cons C) : S.Holds F C :=
  ⟨fun ht _ _ => h.load hC ht, fun ht _ _ => h.store hC ht, fun ht _ => h.gep hC ht⟩

/-- Without indirect calls a constraint may be rewritten to nodes with equal sets. -/
theorem Holds.rewrite {a : Anders} (h : S.Holds F C) (hS : ∀ C, ¬ S.tag C) (he : a.Equal F) :
    S.Holds F (PtrAnalysis.rewrite a C) := by
  have hacts : ∀ {o}, S.Acts (PtrAnalysis.rewrite a C) o → S.Acts C o := fun ha =>
    ⟨ha.1, ha.2.imp_right fun h => ⟨h.1, (iff_of_false (hS _) fun hf => hS _ (h.2.mpr hf))⟩⟩
  refine ⟨fun ht o x ho ha hx => ?_, fun ht o x ho ha hx => ?_, fun ht o ho hlt => ?_⟩
  · exact (he.rep _ _).mpr (h.load ht o x ((he.rep _ _).mp ho) (hacts ha) hx)
  · exact h.store ht o x ((he.rep _ _).mp ho) (hacts ha) ((he.rep _ _).mp hx)
  · exact (he.rep _ _).mpr (h.gep ht o ((he.rep _ _).mp ho) hlt)

end System

section

variable {W : Type} {S : System} {s s' : Solver W}

/-- The state of a solver for constraints without indirect calls stays below `F`, and its tables
are those of the objects of `S`. -/
structure Solver.Precise (S : System) (F : Nat → Nat → Prop) (s : Solver W) : Prop where
  graph : s.toGraph.Precise F
  cons : ∀ C ∈ s.cplxCons, S.Holds F C
  mask : ∀ C ∈ s.cplxCons, C.off ≠ 0 → ∀ o ∈ s.offMask.getD C.off ∅, C.off < S.size o
  gep : ∀ C ∈ s.cplxCons, C.type = .gep → ∀ p ∈ s.geps.getD C.off ∅,
    p.2 = p.1 + C.off ∧ C.off < S.size p.1
  func : ∀ o, S.func o → o ∈ s.funcNodeSet
  untagged : s.icallCons = []
  special : s.rep 0 = 0 ∧ s.rep i2p = i2p

namespace Solver.Precise

theorem withGraph (h : s.Precise S F) {g : Graph} (hg : g.Precise F)
    (hs : g.rep 0 = 0 ∧ g.rep i2p = i2p) : (s.withGraph g).Precise S F :=
  ⟨hg, h.cons, h.mask, h.gep, h.func, h.untagged, hs⟩

/-- A change of anything but sets and edges of a node. -/
theorem modify (h : s.Precise S F) (n : Nat) {f : Node → Node}
    (hpts : ∀ N, (f N).pointsTo = N.pointsTo) (hcopy : ∀ N, (f N).copyTo = N.copyTo) :
    (s.modify n f).Precise S F := by
  refine h.withGraph ⟨h.graph.equal, fun m o ho => ?_, fun m e he => ?_, h.graph.target⟩ h.special
  · simp only [Graph.modify, Function.update_apply] at ho
    split at ho
    · rename_i hm
      rw [hpts, ← hm] at ho
      exact h.graph.pts m o ho
    · exact h.graph.pts m o ho
  · simp only [Graph.modify, Function.update_apply] at he
    split at he
    · rename_i hm
      rw [hcopy, ← hm] at he
      exact h.graph.copy m e he
    · exact h.graph.copy m e he

/-- Rewriting a constraint to representatives. -/
theorem rewrite (h : s.Precise S F) (hS : ∀ C, ¬ S.tag C) {C0 : Constraint} (hC0 : C0 ∈ s.cplxCons)
    (cid : Nat) : ({ s with
      cplxCons := s.cplxCons.set cid (PtrAnalysis.rewrite s.toAnders C0), icallCons := [] } :
      Solver W).Precise S F := by
  refine ⟨h.graph, fun C hC => ?_, fun C hC => ?_, fun C hC => ?_, h.func, rfl, h.special⟩
  · rcases List.mem_or_eq_of_mem_set hC with hC | rfl
    · exact h.cons C hC
    · exact (h.cons C0 hC0).rewrite hS h.graph.equal
  · rcases List.mem_or_eq_of_mem_set hC with hC | rfl
    · exact h.mask C hC
    · exact h.mask C0 hC0
  · rcases List.mem_or_eq_of_mem_set hC with hC | rfl
    · exact h.gep C hC
    · exact h.gep C0 hC0

end Solver.Precise

end

section

variable {W : Type} [Worklist W] [LawfulWorklist W] {M : Module} {S : System} {D : Demand}
  {owed : Nat → Prop} {s s' : Solver W}

/-- Growth stays below `F` if what is demanded does. -/
theorem Solver.Precise.grows (h : s.Precise S F) (hg : Grows M D owed s s')
    (hext : ∀ p, ¬ D.ext p)
    (hedge : ∀ a b, D.edge a b → ProperEdge a b → ∀ o, F a o → F b o)
    (hfact : ∀ n o, D.fact n o → F n o) : s'.Precise S F := by
  have hmay : ∀ a b, D.MayEdge M s.rep a b → D.edge a b := fun a b hm =>
    hm.resolve_right fun ⟨p, hp, _⟩ => hext p hp
  have hframe := hg.frame
  refine ⟨⟨?_, ?_, fun n e he => ?_, ?_⟩, ?_, ?_, ?_, ?_, ?_, ?_⟩
  · unfold Graph.Equal
    rw [hg.rep]
    exact h.graph.equal
  · refine hg.least F h.graph.pts (fun a b o hm hp ho => hedge a b (hmay a b hm) hp o ho) ?_
    rintro n o (hD | ⟨p, hp, -⟩)
    · exact hfact n o hD
    · exact absurd hp (hext p)
  · rcases hg.copy_new n e he with hold | ⟨hm, hp, -⟩
    · exact h.graph.copy n e hold
    · exact hedge n e (hmay n e hm) hp
  · have hhv : s'.hv = s.hv := by
      funext n
      have hh := congrArg (fun a : Anders => a.hv n) hframe
      exact hh
    rw [hhv]
    exact h.graph.target
  · rw [hframe]
    exact h.cons
  · rw [hframe]
    exact h.mask
  · rw [hframe]
    exact h.gep
  · rw [hframe]
    exact h.func
  · rw [hframe]
    exact h.untagged
  · rw [hg.rep]
    exact h.special

/-! ## A visit -/

omit [Worklist W] [LawfulWorklist W] in
/-- The edges a load or store without calls demands go to larger sets. -/
theorem Solver.Precise.demand (h : s.Precise S F) (hS : ∀ C, ¬ S.tag C) (hsmall : S.size i2p ≤ 1)
    {n hcdRep : Nat} {d : Finset Nat} {seen : List Constraint} {C : Constraint}
    (hC : C ∈ s.cplxCons) (htype : C.type = .load ∨ C.type = .store) (hptr : C.ptr = n)
    (hd : ∀ o ∈ d, F n o) (hh : hcdRep ≠ 0 → TargetOf F n hcdRep) {a b : Nat}
    (hD : (handleDemand M s.toAnders hcdRep d seen (decide (C.type = .load)) C none).edge a b)
    (hp : ProperEdge a b) : ∀ o, F a o → F b o := by
  have hholds := h.cons C hC
  have hls : ∀ {r p}, F n p → S.Acts C p → (∀ o, F r o ↔ F (p + C.off) o) →
      (lsDemand (decide (C.type = .load)) C.dest C.src r).edge a b → ∀ o, F a o → F b o := by
    intro r p hnp hacts hr hD o ho
    rcases htype with ht | ht
    · rw [ht] at hD
      obtain ⟨rfl, rfl⟩ := hD
      have hsrc : C.src = n := by
        rw [Constraint.ptr, ht] at hptr
        exact hptr
      exact hholds.load ht p o (hsrc ▸ hnp) hacts ((hr o).mp ho)
    · rw [ht] at hD
      obtain ⟨rfl, rfl⟩ := hD
      have hdest : C.dest = n := by
        rw [Constraint.ptr, ht] at hptr
        exact hptr
      exact (hr o).mpr (hholds.store ht p o (hdest ▸ hnp) hacts ho)
  unfold handleDemand at hD
  split at hD
  · exact hD.elim
  · split at hD
    · rename_i hcase
      -- some pointee stands for all that were collapsed
      obtain ⟨⟨p, hnp, hne⟩, heach⟩ := hh hcase.1
      refine hls hnp ⟨hne, .inl hcase.2⟩ (fun o => ?_) hD
      rw [hcase.2]
      exact (heach p hnp hne o).symm
    · split at hD
      · rename_i h0
        obtain ⟨p, hmem, hD⟩ := hD
        obtain ⟨hpd, hmask⟩ := Finset.mem_inter.mp (mem_ascending.mp hmem)
        have hsz := h.mask C hC h0 p hmask
        unfold lsOffDemand at hD
        dsimp only at hD
        split at hD
        · exact hD.elim
        · rename_i hfunc
          refine hls (hd p hpd) ⟨fun he => ?_, .inr ⟨hsz, iff_of_false (hS C)
            fun hf => hfunc (h.func p hf)⟩⟩ (h.graph.equal.rep _) hD
          rw [he] at hsz
          omega
      · rename_i h0
        obtain ⟨p, hmem, hD⟩ := hD
        have h0 : C.off = 0 := not_not.mp h0
        have hne : p ≠ i2p := by
          rintro rfl
          dsimp only at hD
          rw [h.special.2] at hD
          unfold lsDemand at hD
          split at hD
          · exact hp.1 hD.1
          · exact hp.2.1 hD.2
        refine hls (hd p (mem_ascending.mp hmem)) ⟨hne, .inl h0⟩ (fun o => ?_) hD
        rw [h0]
        exact h.graph.equal.rep p o

omit [Worklist W] [LawfulWorklist W] in
/-- Loads and stores demand edges only. -/
theorem handleDemand_untagged {a : Anders} {hcdRep : Nat} {d : Finset Nat} {seen : List Constraint}
    {load : Bool} {C : Constraint} :
    (∀ p, ¬ (handleDemand M a hcdRep d seen load C none).ext p) ∧
      ∀ n o, ¬ (handleDemand M a hcdRep d seen load C none).fact n o := by
  have hls : ∀ {r}, (∀ p, ¬ (lsDemand load C.dest C.src r).ext p) ∧
      ∀ n o, ¬ (lsDemand load C.dest C.src r).fact n o := by
    intro r
    cases load <;> exact ⟨fun _ => id, fun _ _ => id⟩
  unfold handleDemand
  split
  · exact ⟨fun _ => id, fun _ _ => id⟩
  · split
    · exact hls
    · split
      · refine ⟨fun p ⟨x, _, hx⟩ => ?_, fun n o ⟨x, _, hx⟩ => ?_⟩
        · unfold lsOffDemand at hx
          dsimp only at hx
          split at hx
          · exact hx
          · exact hls.1 p hx
        · unfold lsOffDemand at hx
          dsimp only at hx
          split at hx
          · exact hx
          · exact hls.2 n o hx
      · exact ⟨fun p ⟨x, _, hx⟩ => hls.1 p hx, fun n o ⟨x, _, hx⟩ => hls.2 n o hx⟩

section

variable (hS : ∀ C, ¬ S.tag C) (hsmall : S.size i2p ≤ 1)

include hS

theorem GepPassStep.precise {drop : Nat → Node → Node} {n cid : Nat} {d : Finset Nat}
    {t t' : Solver W × List Constraint} (hstep : GepPassStep M drop n d cid t t')
    (hdrop : ∀ N, (drop cid N).pointsTo = N.pointsTo ∧ (drop cid N).copyTo = N.copyTo)
    (hd : ∀ o ∈ d, F n o) (h : t.1.Precise S F) : t'.1.Precise S F := by
  obtain ⟨C0, C, u, hu, rfl⟩ := hstep
  have hC0 := List.mem_of_getElem? hu.get
  have hset := h.rewrite hS hC0 cid
  rw [← hu.rewritten, ← h.untagged] at hset
  have htype : C.type = .gep := by rw [hu.rewritten]; exact hu.type
  have hmem : C ∈ t.1.cplxCons.set cid C :=
    List.mem_set (List.getElem?_eq_some_iff.mp hu.get).1 C
  have hu1 : u.1.Precise S F := by
    refine hset.grows hu.grows (fun p hp => ?_) (fun a b hD => ?_) fun m o hD => ?_
    · split at hp
      · exact hp
      · exact hp
    · split at hD
      · exact hD.elim
      · exact hD.elim
    · split at hD
      · exact hD.elim
      · obtain ⟨rfl, ho⟩ := hD
        obtain ⟨p, hp, rfl⟩ := Finset.mem_image.mp ho
        obtain ⟨hp, hpd⟩ := Finset.mem_filter.mp hp
        obtain ⟨heq, hlt⟩ := hset.gep C hmem htype p hp
        rw [heq]
        exact (hset.cons C hmem).gep htype p.1 (hu.ptr ▸ hd p.1 hpd) hlt
  dsimp only
  split
  · exact hu1.modify n (fun N => (hdrop N).1) fun N => (hdrop N).2
  · exact hu1

include hsmall

theorem LsPassStep.precise {drop : Nat → Node → Node} {n hcdRep cid : Nat} {d : Finset Nat}
    {t t' : Solver W × List Constraint} (hstep : LsPassStep M drop n hcdRep d cid t t')
    (hdrop : ∀ N, (drop cid N).pointsTo = N.pointsTo ∧ (drop cid N).copyTo = N.copyTo)
    (hd : ∀ o ∈ d, F n o) (hh : hcdRep ≠ 0 → TargetOf F n hcdRep) (h : t.1.Precise S F) :
    t'.1.Precise S F := by
  obtain ⟨C0, C, I, u, hu, rfl⟩ := hstep
  have hC0 := List.mem_of_getElem? hu.get
  have hset := h.rewrite hS hC0 cid
  have htag := hu.tag
  have hhandled := hu.handled
  rw [icallOf_untagged h.untagged] at htag hhandled
  obtain rfl : I = none := htag
  rw [← hu.rewritten] at hset
  have htype : C.type = C0.type := by rw [hu.rewritten]; rfl
  have hmem : C ∈ t.1.cplxCons.set cid C :=
    List.mem_set (List.getElem?_eq_some_iff.mp hu.get).1 C
  have hu1 : u.1.Precise S F := by
    refine hset.grows hhandled.grows handleDemand_untagged.1 (fun a b hD hp => ?_)
      fun m o hD => absurd hD (handleDemand_untagged.2 m o)
    rw [← htype] at hD
    exact hset.demand hS hsmall hmem (htype ▸ hu.type) hu.ptr hd hh hD hp
  dsimp only
  split
  · exact hu1.modify n (fun N => (hdrop N).1) fun N => (hdrop N).2
  · exact hu1

theorem VisitSteps.precise {n hcdRep : Nat} {d : Finset Nat} {s1 s2 s3 : Solver W}
    (hv : VisitSteps M n hcdRep d s s1 s2 s3 s') (hd : ∀ o ∈ d, F n o)
    (hh : hcdRep ≠ 0 → TargetOf F n hcdRep) (h : s.Precise S F) : s'.Precise S F := by
  obtain ⟨seen1, hloads⟩ := hv.loads
  obtain ⟨seen2, hstores⟩ := hv.stores
  obtain ⟨seen3, hgeps⟩ := hv.geps
  have h1 : s1.Precise S F := hloads.inv (P := fun t => t.1.Precise S F)
    (fun _ _ _ _ hR => hR.precise hS hsmall (fun _ => ⟨rfl, rfl⟩) hd hh) h
  have h2 : s2.Precise S F := hstores.inv (P := fun t => t.1.Precise S F)
    (fun _ _ _ _ hR => hR.precise hS hsmall (fun _ => ⟨rfl, rfl⟩) hd hh) h1
  have h3 : s3.Precise S F := hgeps.inv (P := fun t => t.1.Precise S F)
    (fun _ _ _ _ hR => hR.precise hS (fun _ => ⟨rfl, rfl⟩) hd) h2
  refine h3.grows hv.prop propDemand_only.2 (fun a b hD => absurd hD (propDemand_only.1 a b))
    fun m o hD => ?_
  obtain ⟨ho, e, he, rfl, -⟩ := propDemand_fact.mp hD
  exact (h3.graph.equal.rep e o).mpr (h3.graph.copy n e (mem_ascending.mp he) o (hd o ho))

end

omit [Worklist W] [LawfulWorklist W] in
theorem Solver.Precise.touch (h : s.Precise S F) (n : Nat) : (touch s n).Precise S F :=
  Solver.Precise.modify (s := { s with nNodeRuns := s.nNodeRuns + 1, now := s.now + 1 })
    ⟨h.graph, h.cons, h.mask, h.gep, h.func, h.untagged, h.special⟩ n (fun _ => rfl) fun _ => rfl

omit [Worklist W] [LawfulWorklist W] in
/-- Merges leave the special nodes alone. -/
theorem Solver.Precise.merge (h : s.Precise S F) {g : Graph} {n m r : Nat}
    (hrun : MergeRun s.toGraph n m g r) (hnm : ∀ o, F n o ↔ F m o) : (s.withGraph g).Precise S F :=
  h.withGraph (hrun.precise hnm h.graph)
    ⟨(hrun.spec.1.apart (.inl rfl)).mpr h.special.1, (hrun.spec.1.apart (.inr rfl)).mpr h.special.2⟩

omit [Worklist W] [LawfulWorklist W] in
/-- The pointees of a node that are collapsed have the set of its target. -/
theorem CollapseRun.precise {n r : Nat} {d : Finset Nat} {s1 : Solver W}
    (hc : CollapseRun n d s (s1, r)) (h : s.Precise S F) (hd : ∀ o ∈ d, F n o) :
    s1.Precise S F ∧ (r ≠ 0 → TargetOf F n r) := by
  rcases hc with ⟨-, heq⟩ | ⟨v, hv, hc⟩
  · obtain ⟨rfl, rfl⟩ := Prod.mk.inj heq
    exact ⟨h, fun h0 => absurd rfl h0⟩
  · have hhv : s.hv n = v := by rw [Graph.hv, hv]; rfl
    refine hc.inv (P := fun t => t.1.Precise S F ∧ (t.2 ≠ 0 → TargetOf F n t.2))
      (fun x0 hx0 c c' hR hct => ?_) ⟨h, fun h0 => ?_⟩
    · obtain ⟨hc, ht⟩ := hct
      cases hR with
      | skip _ => exact ⟨hc, ht⟩
      | @merge s2 r r' g hx hrun =>
          have hr := ht hrun.mergeable.valid1.1
          have hne : x0 ≠ i2p := fun he => hx (he ▸ hc.special.2)
          have hrx : ∀ o, F r o ↔ F (s2.rep x0) o := fun o =>
            (hr.each x0 (hd x0 (mem_ascending.mp hx0)) hne o).symm.trans (hc.graph.equal.rep x0 o).symm
          have hnew := hc.merge hrun hrx
          refine ⟨hnew, fun _ => hr.of_equal (fun _ => Iff.rfl) fun o => ?_⟩
          have hrep : F (g.rep r) o ↔ F r o := hnew.graph.equal.rep r o
          rw [hrun.spec.2.1] at hrep
          exact hrep.symm
    · have hv0 : v ≠ 0 := fun he => h0 (by rw [he]; exact h.special.1)
      have ht := h.graph.target n (hhv.symm ▸ hv0)
      rw [hhv] at ht
      exact ht.of_equal (fun _ => Iff.rfl) fun o => (h.graph.equal.rep v o).symm

theorem VisitRun.precise (hS : ∀ C, ¬ S.tag C) (hsmall : S.size i2p ≤ 1) {n : Nat}
    (hv : VisitRun M n s s') (h : s.Precise S F) : s'.Precise S F := by
  cases hv with
  | idle _ => exact h.touch n
  | @full r d s1 s2 t1 t2 t3 _ hstart hedges =>
      have hd : ∀ o ∈ d, F n o := fun o ho => by
        rw [← hstart.new] at ho
        exact h.graph.pts n o (Finset.mem_sdiff.mp ho).1
      have h0 : (visitStart s n).Precise S F := (h.touch n).modify n (fun _ => rfl) fun _ => rfl
      obtain ⟨h1, hr⟩ := hstart.collapse.precise h0 hd
      obtain ⟨wl, hwl⟩ := hstart.wl
      refine hedges.precise hS hsmall hd hr ?_
      rw [hwl]
      exact ⟨h1.graph, h1.cons, h1.mask, h1.gep, h1.func, h1.untagged, h1.special⟩

end

end PtrAnalysis
