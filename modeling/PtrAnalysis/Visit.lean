import PtrAnalysis.Effects
import PtrAnalysis.Merge

/-!
# Visits as chains of steps

A loop that succeeds is a chain of steps, one for each element of its list.
`solveNode_run` turns a visit of a node into such chains: the merges that collapse
its pointees, the three loops over its constraints and the propagation. The
arguments about a visit are inductions over chains and see no code.
-/

namespace PtrAnalysis

open Run

/-- From `s` to `s'` by one step for each member of the list. -/
inductive Chain {α σ : Type} (R : α → σ → σ → Prop) : List α → σ → σ → Prop
  | nil (s : σ) : Chain R [] s s
  | cons {a : α} {l : List α} {s s1 s' : σ} :
      R a s s1 → Chain R l s1 s' → Chain R (a :: l) s s'

/-- A loop is a chain of its passes. -/
theorem Chain.ofLoop {α σ : Type} {R : α → σ → σ → Prop} {f : σ → α → Run σ} {E : Stop → Prop}
    (Inv : σ → Prop) {l : List α} {s : σ} (h0 : Inv s)
    (hf : ∀ a ∈ l, ∀ c, Inv c → Spec (f c a) (fun c' => R a c c' ∧ Inv c') E) :
    Spec (l.foldlM f s) (fun s' => Chain R l s s' ∧ Inv s') E := by
  induction l generalizing s with
  | nil => exact ⟨.nil s, h0⟩
  | cons a l ih =>
      rw [List.foldlM_cons]
      refine (hf a (List.mem_cons_self ..) s h0).bind fun c ⟨hR, hc⟩ => ?_
      exact (ih hc fun a' ha' => hf a' (List.mem_cons_of_mem _ ha')).imp
        fun s' ⟨hs', hi⟩ => ⟨.cons hR hs', hi⟩

/-- A chain keeps what each of its steps keeps. -/
theorem Chain.inv {α σ : Type} {R : α → σ → σ → Prop} {P : σ → Prop} {l : List α} {s s' : σ}
    (h : Chain R l s s') (hstep : ∀ a ∈ l, ∀ c c', R a c c' → P c → P c') (h0 : P s) : P s' := by
  induction h with
  | nil s => exact h0
  | cons hR _ ih =>
      exact ih (fun a ha => hstep a (List.mem_cons_of_mem _ ha))
        (hstep _ (List.mem_cons_self ..) _ _ hR h0)

section

variable {W : Type} [Worklist W] [LawfulWorklist W]

/-- One pass of the loop over the loads or stores of `n`. -/
def LsPassStep (M : Module) (drop : Nat → Node → Node) (n hcdRep : Nat) (d : Finset Nat)
    (cid : Nat) (t t' : Solver W × List Constraint) : Prop :=
  ∃ C0 C I u, LsStep M n hcdRep d t.2 cid t.1 C0 C I u ∧
    t' = (if u.2.2 then u.1.modify n (drop cid) else u.1, u.2.1)

/-- One pass of the loop over the GEPs of `n`. -/
def GepPassStep (M : Module) (drop : Nat → Node → Node) (n : Nat) (d : Finset Nat) (cid : Nat)
    (t t' : Solver W × List Constraint) : Prop :=
  ∃ C0 C u, GepStep M n d t.2 cid t.1 C0 C u ∧
    t' = (if u.2.2 then u.1.modify n (drop cid) else u.1, u.2.1)

def dropLoad (cid : Nat) (N : Node) : Node := { N with loadTo := N.loadTo.erase cid }

def dropStore (cid : Nat) (N : Node) : Node := { N with storeFrom := N.storeFrom.erase cid }

def dropGep (cid : Nat) (N : Node) : Node := { N with gepTo := N.gepTo.erase cid }

/-- The loops of a visit, and the states between them. -/
structure VisitSteps (M : Module) (n hcdRep : Nat) (d : Finset Nat) (s s1 s2 s3 s' : Solver W) :
    Prop where
  loads : ∃ seen, Chain (LsPassStep M dropLoad n hcdRep d) (ascending (s.nodes n).loadTo)
    (s, []) (s1, seen)
  stores : ∃ seen, Chain (LsPassStep M dropStore n hcdRep d) (ascending (s1.nodes n).storeFrom)
    (s1, []) (s2, seen)
  geps : ∃ seen, Chain (GepPassStep M dropGep n d) (ascending (s2.nodes n).gepTo)
    (s2, []) (s3, seen)
  prop : Grows M (propDemand s3.rep n d (ascending (s3.nodes n).copyTo)) (fun _ => False) s3 s'

variable {M : Module} {E : Stop → Prop}

/-- Functions on nodes that change the constraint lists only. -/
def ListsOnly (f : Node → Node) : Prop :=
  ∀ N, f N = { N with
    loadTo := (f N).loadTo, storeFrom := (f N).storeFrom, gepTo := (f N).gepTo }

omit [Worklist W] [LawfulWorklist W] in
theorem withCons_modify (s : Solver W) (n : Nat) {f : Node → Node} (hf : ListsOnly f) :
    s.modify n f = s.withCons (s.modify n f) := by
  have hnodes : (s.withCons (s.modify n f)).nodes = (s.modify n f).nodes := funext fun m => by
    have hm := modify_nodes s n f m
    by_cases h : m = n
    · subst h
      rw [if_pos rfl] at hm
      simp only [Solver.withCons, hm]
      exact (hf _).symm
    · rw [if_neg h] at hm
      simp only [Solver.withCons, hm]
  have heq : s.withCons (s.modify n f) =
      { s.modify n f with nodes := (s.withCons (s.modify n f)).nodes } := rfl
  rw [heq, hnodes]

theorem Visits.modify {D : Demand} {s s' : Solver W} (h : Visits M D s s') (n : Nat)
    {f : Node → Node} (hf : ListsOnly f) : Visits M D s (s'.modify n f) := by
  have hm := h.trans (Visits.ofCons (withCons_modify s' n hf))
  rwa [Demand.both_nothing] at hm

/-- The demand of a pass over a load or store. -/
theorem LsPassStep.visits {drop : Nat → Node → Node} {n hcdRep cid : Nat} {d : Finset Nat}
    {t t' : Solver W × List Constraint} (h : LsPassStep M drop n hcdRep d cid t t')
    (hdrop : ListsOnly (drop cid)) : ∃ D, Visits M D t.1 t'.1 := by
  obtain ⟨C0, C, I, u, hu, rfl⟩ := h
  have hv : Visits M _ t.1 u.1 := hu.handled.grows.withCons u.1
  dsimp only
  split
  · exact ⟨_, hv.modify n hdrop⟩
  · exact ⟨_, hv⟩

theorem GepPassStep.visits {drop : Nat → Node → Node} {n cid : Nat} {d : Finset Nat}
    {t t' : Solver W × List Constraint} (h : GepPassStep M drop n d cid t t')
    (hdrop : ListsOnly (drop cid)) : ∃ D, Visits M D t.1 t'.1 := by
  obtain ⟨C0, C, u, hu, rfl⟩ := h
  have hv : Visits M _ t.1 u.1 := hu.grows.withCons u.1
  dsimp only
  split
  · exact ⟨_, hv.modify n hdrop⟩
  · exact ⟨_, hv⟩

theorem VisitSteps.visits {n hcdRep : Nat} {d : Finset Nat} {s s1 s2 s3 s' : Solver W}
    (h : VisitSteps M n hcdRep d s s1 s2 s3 s') : ∃ D, Visits M D s s' := by
  obtain ⟨seen1, hloads⟩ := h.loads
  obtain ⟨seen2, hstores⟩ := h.stores
  obtain ⟨seen3, hgeps⟩ := h.geps
  have hstep : ∀ {D D' : Demand} {a b c : Solver W}, Visits M D a b → Visits M D' b c →
      ∃ D, Visits M D a c := fun h h' => ⟨_, h.trans h'⟩
  have h1 : ∃ D, Visits M D s s1 := hloads.inv (P := fun t => ∃ D, Visits M D s t.1)
    (fun _ _ _ _ hR ⟨_, hD⟩ => (hR.visits fun _ => rfl).elim fun _ hD' => hstep hD hD')
    ⟨_, (Grows.refl s).visits⟩
  have h2 : ∃ D, Visits M D s s2 := hstores.inv (P := fun t => ∃ D, Visits M D s t.1)
    (fun _ _ _ _ hR ⟨_, hD⟩ => (hR.visits fun _ => rfl).elim fun _ hD' => hstep hD hD') h1
  have h3 : ∃ D, Visits M D s s3 := hgeps.inv (P := fun t => ∃ D, Visits M D s t.1)
    (fun _ _ _ _ hR ⟨_, hD⟩ => (hR.visits fun _ => rfl).elim fun _ hD' => hstep hD hD') h2
  obtain ⟨D, hD⟩ := h3
  exact hstep hD h.prop.visits

/-- A state in which no constraint leads outside the tables, or for which that is
permitted. -/
def TablesFit (E : Stop → Prop) (a : Anders) : Prop :=
  ∀ C ∈ a.cplxCons, (C.off ≠ 0 → C.off < a.offMask.length ∨ E (.outOfRange "off_mask")) ∧
    (C.type = .gep → (C.off < a.geps.length ∧ a.geps.getD C.off ∅ ≠ ∅) ∨
      E (.assertion "off < geps.size() && geps[off] != bddfalse"))

theorem TablesFit.of_eq {a a' : Anders} (h : TablesFit E a) (hcplx : a'.cplxCons = a.cplxCons)
    (hmask : a'.offMask = a.offMask) (hgeps : a'.geps = a.geps) : TablesFit E a' := by
  unfold TablesFit
  rw [hcplx, hmask, hgeps]
  exact h

/-- Rewriting a constraint keeps its offset. -/
theorem TablesFit.set {a a' : Anders} {cid : Nat} {C : Constraint} (h : TablesFit E a)
    (hget : a.cplxCons[cid]? = some C) (hcplx : a'.cplxCons = a.cplxCons.set cid (rewrite a C))
    (hmask : a'.offMask = a.offMask) (hgeps : a'.geps = a.geps) : TablesFit E a' := by
  intro C' hC'
  rw [hcplx] at hC'
  rw [hmask, hgeps]
  rcases List.mem_or_eq_of_mem_set hC' with hC' | rfl
  · exact h C' hC'
  · exact h C (List.mem_of_getElem? hget)

theorem Grows.tablesFit {D : Demand} {owed : Nat → Prop} {s s' : Solver W}
    (h : Grows M D owed s s') (ht : TablesFit E s.toAnders) : TablesFit E s'.toAnders :=
  ht.of_eq (by rw [h.frame]; rfl) (by rw [h.frame]; rfl) (by rw [h.frame]; rfl)

theorem consLoop_ls (hE : Permits E) (drop : Nat → Node → Node) (n hcdRep : Nat)
    (d : Finset Nat) (cids : List Nat) (s : Solver W) (ht : TablesFit E s.toAnders) :
    Spec (consLoop (fun s seen cid => solveLsCons M s n hcdRep d seen cid) drop n cids s)
      (fun s' => (∃ seen, Chain (LsPassStep M drop n hcdRep d) cids (s, []) (s', seen)) ∧
        TablesFit E s'.toAnders) E := by
  unfold consLoop
  refine Spec.bind (Chain.ofLoop (R := LsPassStep M drop n hcdRep d)
    (fun t => TablesFit E t.1.toAnders) ht fun cid _ t hfit => ?_) fun t ⟨hc, hfit⟩ => ?_
  · refine (solveLsCons_step (M := M) hE n hcdRep d t.2 cid t.1 fun C hC =>
      (hfit C (List.mem_of_getElem? hC)).1).bind fun u ⟨C0, C, I, hu⟩ => ?_
    refine ⟨⟨C0, C, I, u, hu, rfl⟩, ?_⟩
    have hfit' : TablesFit E u.1.toAnders :=
      hu.handled.grows.tablesFit (hfit.set hu.get (by rw [← hu.rewritten]) rfl rfl)
    dsimp only
    split
    · exact hfit'.of_eq rfl rfl rfl
    · exact hfit'
  · exact ⟨⟨t.2, hc⟩, hfit⟩

theorem consLoop_gep (hE : Permits E) (drop : Nat → Node → Node) (n : Nat)
    (d : Finset Nat) (cids : List Nat) (s : Solver W) (ht : TablesFit E s.toAnders) :
    Spec (consLoop (fun s seen cid => solveGepCons s n d seen cid) drop n cids s)
      (fun s' => (∃ seen, Chain (GepPassStep M drop n d) cids (s, []) (s', seen)) ∧
        TablesFit E s'.toAnders) E := by
  unfold consLoop
  refine Spec.bind (Chain.ofLoop (R := GepPassStep M drop n d)
    (fun t => TablesFit E t.1.toAnders) ht fun cid _ t hfit => ?_) fun t ⟨hc, hfit⟩ => ?_
  · refine (solveGepCons_step (M := M) hE n d t.2 cid t.1 fun C hC =>
      (hfit C (List.mem_of_getElem? hC)).2).bind fun u ⟨C0, C, hu⟩ => ?_
    refine ⟨⟨C0, C, u, hu, rfl⟩, ?_⟩
    have hfit' : TablesFit E u.1.toAnders :=
      hu.grows.tablesFit (hfit.set hu.get (by rw [← hu.rewritten]) rfl rfl)
    dsimp only
    split
    · exact hfit'.of_eq rfl rfl rfl
    · exact hfit'
  · exact ⟨⟨t.2, hc⟩, hfit⟩

theorem solveEdges_visit (hE : Permits E) (s : Solver W) (n hcdRep : Nat) (d : Finset Nat)
    (ht : TablesFit E s.toAnders) :
    Spec (solveEdges M s n hcdRep d)
      (fun s' => (∃ s1 s2 s3, VisitSteps M n hcdRep d s s1 s2 s3 s') ∧ TablesFit E s'.toAnders)
      E := by
  unfold solveEdges
  refine (consLoop_ls (M := M) hE dropLoad n hcdRep d _ s ht).bind fun s1 ⟨h1, ht1⟩ => ?_
  refine (consLoop_ls (M := M) hE dropStore n hcdRep d _ s1 ht1).bind fun s2 ⟨h2, ht2⟩ => ?_
  refine (consLoop_gep (M := M) hE dropGep n d _ s2 ht2).bind fun s3 ⟨h3, ht3⟩ => ?_
  refine (solveProp_grows (M := M) hE s3 n d).imp fun s' h4 => ?_
  exact ⟨⟨s1, s2, s3, h1, h2, h3, h4⟩, h4.tablesFit ht3⟩

end

/-! ## Collapsing pointees -/

section

variable {W : Type} {E : Stop → Prop}

/-- `s` on another graph. -/
def Solver.withGraph (s : Solver W) (g : Graph) : Solver W := { s with toGraph := g }

/-- One pointee: it is in the collapsed set already, it is `i2p`, or it is merged
into the set. -/
inductive CollapseStep (x0 : Nat) : Solver W × Nat → Solver W × Nat → Prop
  | skip {s : Solver W} {r : Nat} (h : s.rep x0 = r ∨ s.rep x0 = i2p) :
      CollapseStep x0 (s, r) (s, r)
  | merge {s : Solver W} {r r' : Nat} {g : Graph} (hx : s.rep x0 ≠ i2p)
      (h : MergeRun s.toGraph r (s.rep x0) g r') :
      CollapseStep x0 (s, r) (s.withGraph g, r')

/-- The collapse of the pointees in `d`, if there is an offline cycle with `n`. -/
def CollapseRun (n : Nat) (d : Finset Nat) (s : Solver W) (t : Solver W × Nat) : Prop :=
  (s.hcdVar n = none ∧ t = (s, 0)) ∨
  ∃ h, s.hcdVar n = some h ∧ Chain CollapseStep (ascending d) (s, s.rep h) t

/-- A collapse changes the graph only. -/
theorem CollapseRun.solver {n : Nat} {d : Finset Nat} {s : Solver W} {t : Solver W × Nat}
    (h : CollapseRun n d s t) : t.1 = s.withGraph t.1.toGraph := by
  rcases h with ⟨-, rfl⟩ | ⟨hv, -, hc⟩
  · rfl
  · refine hc.inv (P := fun t => t.1 = s.withGraph t.1.toGraph) (fun x0 _ c c' hR h0 => ?_) rfl
    cases hR with
    | skip _ => exact h0
    | @merge s1 r r' g _ _ =>
        have hg := congrArg (fun s : Solver W => s.withGraph g) h0
        exact hg

/-- The fuel of `mergeNodes` is as good as the node count. -/
def Fueled (E : Stop → Prop) (g : Graph) : Prop := E .fuel ∨ 0 < g.size

theorem Graph.reps_card_le (g : Graph) : g.reps.card ≤ g.size :=
  (Finset.card_filter_le ..).trans (by rw [Finset.card_range])

theorem merge_run (hE : Permits E) {g : Graph} (hf : Fueled E g) (n1 n2 : Nat) :
    Spec (mergeNodes g.size g n1 n2) (fun t => MergeRun g n1 n2 t.1 t.2) E :=
  mergeNodes_run hE.assertion g.size g n1 n2 (hf.imp id fun h => ⟨g.reps_card_le, h⟩)

theorem collapse_run (hE : Permits E) {s : Solver W} (hf : Fueled E s.toGraph) (n : Nat)
    (d : Finset Nat) : Spec (collapse s n d) (CollapseRun n d s) E := by
  unfold collapse
  split
  · exact .inl ⟨‹_›, rfl⟩
  · rename_i h hh
    refine (Chain.ofLoop (R := CollapseStep) (fun t => Fueled E t.1.toGraph) hf
      fun x0 _ t hft => ?_).imp fun t ht => .inr ⟨h, hh, ht.1⟩
    obtain ⟨s1, r⟩ := t
    unfold collapseOne
    dsimp only
    split
    · rename_i hx
      refine (merge_run hE hft _ _).bind fun u hu => ⟨.merge hx.2 hu, ?_⟩
      exact hft.imp id fun h => by rw [show u.1.size = _ from hu.spec.1.size]; exact h
    · rename_i hx
      exact ⟨.skip (by tauto), hft⟩

end

/-! ## A whole visit -/

section

variable {W : Type} [Worklist W] [LawfulWorklist W] {M : Module} {E : Stop → Prop}

/-- The start of a visit of `n` that found the new pointees `d`: the collapse from
`visitStart` to `s1` and the push of the collapsed set `r`. -/
structure StartRun (n : Nat) (s : Solver W) (r : Nat) (d : Finset Nat) (s1 s2 : Solver W) :
    Prop where
  new : s.pts n \ s.prev n = d
  ne : d ≠ ∅
  collapse : CollapseRun n d (visitStart s n) (s1, r)
  wl : ∃ wl, s2 = { s1 with wl }
  pushed : Live s2 r
  live : ∀ m, Live s1 m → Live s2 m
  rep : s2.isRep n = true ∨ s2.rep n = r

/-- What a visit of `n` does. -/
inductive VisitRun (M : Module) (n : Nat) (s : Solver W) : Solver W → Prop
  | idle (h : s.pts n \ s.prev n = ∅) : VisitRun M n s (touch s n)
  | full {r : Nat} {d : Finset Nat} {s1 s2 t1 t2 t3 s' : Solver W} (start : StartRun n s r d s1 s2)
      (edges : VisitSteps M n r d s2 t1 t2 t3 s') : VisitRun M n s s'

theorem startVisit_run (hE : Permits E) (s : Solver W) (n : Nat) (hf : Fueled E s.toGraph) :
    Spec (startVisit s n) (fun o => match o with
      | none => s.pts n \ s.prev n = ∅
      | some (s2, r, d) => ∃ s1, StartRun n s r d s1 s2) E := by
  unfold startVisit
  dsimp only
  split
  · assumption
  · rename_i hd
    refine (collapse_run hE (s := visitStart s n) hf n _).bind fun t ht => ?_
    refine (pushNode_spec hE t.1 t.2).bind fun s2 hs2 => ?_
    obtain ⟨hwl, hpushed, hlive⟩ := hs2
    refine spec_require (fun _ => hE.assertion _ (by decide)) fun hrep => ?_
    exact ⟨t.1, rfl, hd, ht, hwl, hpushed, hlive, hrep⟩

theorem solveNode_run (hE : Permits E) (s : Solver W) (n : Nat) (hf : Fueled E s.toGraph)
    (ht : TablesFit E s.toAnders) :
    Spec (solveNode M s n) (fun s' => VisitRun M n s s' ∧ TablesFit E s'.toAnders) E := by
  unfold solveNode
  refine (startVisit_run hE s n hf).bind fun o ho => ?_
  match o with
  | none => exact ⟨.idle ho, ht.of_eq rfl rfl rfl⟩
  | some (s2, r, d) =>
      obtain ⟨s1, hstart⟩ := ho
      have ht2 : TablesFit E s2.toAnders := by
        obtain ⟨wl, hwl⟩ := hstart.wl
        have hs1 : s1 = (visitStart s n).withGraph s1.toGraph := hstart.collapse.solver
        rw [hwl, hs1]
        exact ht.of_eq rfl rfl rfl
      exact (solveEdges_visit hE s2 n r d ht2).imp fun s' ⟨⟨t1, t2, t3, h⟩, hfit⟩ =>
        ⟨.full hstart h, hfit⟩

end

end PtrAnalysis
