import PtrAnalysis.Effects

/-!
# The state `solveInit` builds

The constraint list becomes a graph: points-to sets from `addrOf`, copy edges
from `copy`, and the complex constraints numbered in the order of the list and
attached to the nodes they dereference.
-/

namespace PtrAnalysis

open Run

/-- Loads, stores and GEPs. -/
def Constraint.complex (C : Constraint) : Bool :=
  C.type = .load ∨ C.type = .store ∨ C.type = .gep

/-- No node has a points-to set, an edge or a constraint yet. -/
def Anders.Fresh (a : Anders) : Prop :=
  ∀ n, (a.nodes n).pointsTo = ∅ ∧ (a.nodes n).prevPointsTo = ∅ ∧ (a.nodes n).copyTo = ∅ ∧
    (a.nodes n).loadTo = ∅ ∧ (a.nodes n).storeFrom = ∅ ∧ (a.nodes n).gepTo = ∅

/-- The constraints of one kind in a node's list: those that dereference it. -/
def Attached (a : Anders) (cs : List Constraint) (t : ConsType) (n cid : Nat) : Prop :=
  ∃ C, cs[cid]? = some C ∧ C.type = t ∧ a.rep C.ptr = n

/-- `b` is the graph for the constraints `cs` over the nodes of `a`. -/
structure Built (a : Anders) (cs : List Constraint) (b : Anders) : Prop where
  frame : b = { a with nodes := b.nodes, cplxCons := b.cplxCons }
  cplx : b.cplxCons = cs.filter Constraint.complex
  kept : ∀ n, (b.nodes n).val = (a.nodes n).val ∧ (b.nodes n).objSz = (a.nodes n).objSz ∧
    (b.nodes n).prevPointsTo = ∅
  pts : ∀ n o, o ∈ (b.nodes n).pointsTo ↔
    ∃ C ∈ cs, C.type = .addrOf ∧ a.rep C.dest = n ∧ a.rep C.src = o
  copy : ∀ n e, e ∈ (b.nodes n).copyTo ↔
    ∃ C ∈ cs, C.type = .copy ∧ a.rep C.src = n ∧ a.rep C.dest = e
  load : ∀ n cid, cid ∈ (b.nodes n).loadTo ↔ Attached a b.cplxCons .load n cid
  store : ∀ n cid, cid ∈ (b.nodes n).storeFrom ↔ Attached a b.cplxCons .store n cid
  gep : ∀ n cid, cid ∈ (b.nodes n).gepTo ↔ Attached a b.cplxCons .gep n cid

theorem Built.nil {a : Anders} (h : a.Fresh) : Built a [] { a with cplxCons := [] } := by
  have hf := fun n => h n
  refine ⟨rfl, rfl, fun n => ⟨rfl, rfl, (hf n).2.1⟩, fun n o => ?_, fun n e => ?_, fun n cid => ?_,
    fun n cid => ?_, fun n cid => ?_⟩ <;> simp [hf n, Attached]

/-- Appending a constraint attaches it and leaves the others where they were. -/
theorem Attached.append {a : Anders} {cs : List Constraint} {C : Constraint} {t : ConsType}
    {n cid : Nat} : Attached a (cs ++ [C]) t n cid ↔
      Attached a cs t n cid ∨ (cid = cs.length ∧ C.type = t ∧ a.rep C.ptr = n) := by
  unfold Attached
  rw [List.getElem?_append]
  constructor
  · rintro ⟨D, hD, ht, hn⟩
    split at hD
    · exact .inl ⟨D, hD, ht, hn⟩
    · have hlt := (List.getElem?_eq_some_iff.mp hD).1
      simp only [List.length_singleton] at hlt
      obtain rfl : cid = cs.length := by omega
      simp only [Nat.sub_self, List.getElem?_cons_zero, Option.some.injEq] at hD
      subst hD
      exact .inr ⟨rfl, ht, hn⟩
  · rintro (⟨D, hD, ht, hn⟩ | ⟨rfl, ht, hn⟩)
    · have hlt := (List.getElem?_eq_some_iff.mp hD).1
      exact ⟨D, by rw [if_pos hlt]; exact hD, ht, hn⟩
    · exact ⟨C, by simp, ht, hn⟩

/-- What one constraint adds to the graph: a fact, an edge, or itself to the list
of the node it dereferences. -/
structure AddsCons (a : Anders) (C : Constraint) (b b' : Anders) : Prop where
  frame : b' = { b with nodes := b'.nodes, cplxCons := b'.cplxCons }
  cplx : b'.cplxCons = if C.complex then b.cplxCons ++ [C] else b.cplxCons
  kept : ∀ n, (b'.nodes n).val = (b.nodes n).val ∧ (b'.nodes n).objSz = (b.nodes n).objSz ∧
    (b'.nodes n).prevPointsTo = (b.nodes n).prevPointsTo
  pts : ∀ n o, o ∈ (b'.nodes n).pointsTo ↔ o ∈ (b.nodes n).pointsTo ∨
    C.type = .addrOf ∧ a.rep C.dest = n ∧ a.rep C.src = o
  copy : ∀ n e, e ∈ (b'.nodes n).copyTo ↔ e ∈ (b.nodes n).copyTo ∨
    C.type = .copy ∧ a.rep C.src = n ∧ a.rep C.dest = e
  load : ∀ n cid, cid ∈ (b'.nodes n).loadTo ↔ cid ∈ (b.nodes n).loadTo ∨
    cid = b.cplxCons.length ∧ C.type = .load ∧ a.rep C.ptr = n
  store : ∀ n cid, cid ∈ (b'.nodes n).storeFrom ↔ cid ∈ (b.nodes n).storeFrom ∨
    cid = b.cplxCons.length ∧ C.type = .store ∧ a.rep C.ptr = n
  gep : ∀ n cid, cid ∈ (b'.nodes n).gepTo ↔ cid ∈ (b.nodes n).gepTo ∨
    cid = b.cplxCons.length ∧ C.type = .gep ∧ a.rep C.ptr = n

theorem solveInitCons_adds {E : Stop → Prop} (hE : Permits E) {a b : Anders} {C : Constraint}
    (hrep : b.rep = a.rep) : Spec (solveInitCons b C) (AddsCons a C b) E := by
  unfold solveInitCons
  dsimp only
  rw [hrep]
  cases hC : C.type with
  | addrOf =>
      refine spec_require (fun _ => hE.assertion _ (by decide)) fun _ => ?_
      refine (nodeVar_spec hE b _).bind fun v ⟨hv, _⟩ => ?_
      refine ⟨rfl, by simp [Constraint.complex, hC], fun n => ?_, fun n o => ?_, fun n e => ?_,
        fun n cid => ?_, fun n cid => ?_, fun n cid => ?_⟩ <;>
        simp only [Graph.modify, Function.update_apply, hC] <;> grind
  | copy =>
      refine spec_require (fun _ => hE.assertion _ (by decide)) fun _ => ?_
      refine ⟨rfl, by simp [Constraint.complex, hC], fun n => ?_, fun n o => ?_, fun n e => ?_,
        fun n cid => ?_, fun n cid => ?_, fun n cid => ?_⟩ <;>
        simp only [Graph.modify, Function.update_apply, hC] <;> grind
  | load =>
      refine ⟨rfl, by simp [Constraint.complex, hC], fun n => ?_, fun n o => ?_, fun n e => ?_,
        fun n cid => ?_, fun n cid => ?_, fun n cid => ?_⟩ <;>
        simp only [Graph.modify, Function.update_apply, hC, Constraint.ptr] <;> grind
  | store =>
      refine ⟨rfl, by simp [Constraint.complex, hC], fun n => ?_, fun n o => ?_, fun n e => ?_,
        fun n cid => ?_, fun n cid => ?_, fun n cid => ?_⟩ <;>
        simp only [Graph.modify, Function.update_apply, hC, Constraint.ptr] <;> grind
  | gep =>
      refine ⟨rfl, by simp [Constraint.complex, hC], fun n => ?_, fun n o => ?_, fun n e => ?_,
        fun n cid => ?_, fun n cid => ?_, fun n cid => ?_⟩ <;>
        simp only [Graph.modify, Function.update_apply, hC, Constraint.ptr] <;> grind

/-- One more constraint. -/
theorem Built.append {a b b' : Anders} {cs : List Constraint} {C : Constraint}
    (h : Built a cs b) (hadd : AddsCons a C b b') : Built a (cs ++ [C]) b' := by
  have hlist : ∀ t n cid, Attached a b'.cplxCons t n cid ↔ Attached a b.cplxCons t n cid ∨
      (cid = b.cplxCons.length ∧ C.complex = true ∧ C.type = t ∧ a.rep C.ptr = n) := by
    intro t n cid
    rw [hadd.cplx]
    split
    · rename_i hc
      rw [Attached.append]
      simp [hc]
    · rename_i hc
      simp [hc]
  refine ⟨?_, ?_, fun n => ?_, fun n o => ?_, fun n e => ?_, fun n cid => ?_, fun n cid => ?_,
    fun n cid => ?_⟩
  · have hf := congrArg (fun x : Anders => { x with nodes := b'.nodes, cplxCons := b'.cplxCons })
      h.frame
    exact hadd.frame.trans hf
  · rw [hadd.cplx, h.cplx, List.filter_append]
    cases hc : C.complex <;> simp [hc]
  · obtain ⟨h1, h2, h3⟩ := hadd.kept n
    obtain ⟨h4, h5, h6⟩ := h.kept n
    exact ⟨h1.trans h4, h2.trans h5, h3.trans h6⟩
  · rw [hadd.pts, h.pts]
    simp only [List.mem_append, List.mem_singleton, or_and_right, exists_or, exists_eq_left]
  · rw [hadd.copy, h.copy]
    simp only [List.mem_append, List.mem_singleton, or_and_right, exists_or, exists_eq_left]
  · rw [hadd.load, h.load, hlist]
    simp only [Constraint.complex, decide_eq_true_eq]
    grind
  · rw [hadd.store, h.store, hlist]
    simp only [Constraint.complex, decide_eq_true_eq]
    grind
  · rw [hadd.gep, h.gep, hlist]
    simp only [Constraint.complex, decide_eq_true_eq]
    grind

section

variable {W : Type}

/-- The graph of a solver state before `solveInit` cleared the constraint list and
the history. -/
def Solver.unclear (s : Solver W) (a : Anders) : Anders :=
  { s.toAnders with constraints := a.constraints, cascades := a.cascades }

/-- `s'` is `s` up to the times of last visits and the worklist. -/
structure SameWork (s s' : Solver W) : Prop where
  state : s' = { s with wl := s'.wl, nodes := s'.nodes }
  node : ∀ n, s'.nodes n = { s.nodes n with vtime := (s'.nodes n).vtime }

theorem SameWork.trans {s s' s'' : Solver W} (h : SameWork s s') (h' : SameWork s' s'') :
    SameWork s s'' where
  state := by
    have hs := congrArg (fun x : Solver W => { x with wl := s''.wl, nodes := s''.nodes }) h.state
    exact h'.state.trans hs
  node n := by rw [h'.node, h.node]

theorem SameWork.built {a : Anders} {cs : List Constraint} {s s' : Solver W} (h : SameWork s s')
    (hb : Built a cs (s.unclear a)) : Built a cs (s'.unclear a) := by
  have hcplx : s'.cplxCons = s.cplxCons := by rw [h.state]
  refine ⟨?_, ?_, fun n => ?_, fun n o => ?_, fun n e => ?_, fun n cid => ?_, fun n cid => ?_,
    fun n cid => ?_⟩
  · have h1 := congrArg (fun x : Solver W => x.unclear a) h.state
    have h2 := congrArg (fun x : Anders => { x with nodes := s'.nodes }) hb.frame
    rw [show (s'.unclear a).cplxCons = s.cplxCons from hcplx]
    exact h1.trans h2
  · exact hcplx.trans hb.cplx
  · have hn := hb.kept n
    rw [show (s'.unclear a).nodes n = _ from h.node n]
    exact hn
  · rw [show (s'.unclear a).nodes n = _ from h.node n]
    exact hb.pts n o
  · rw [show (s'.unclear a).nodes n = _ from h.node n]
    exact hb.copy n e
  · rw [show (s'.unclear a).nodes n = _ from h.node n,
      show (s'.unclear a).cplxCons = s.cplxCons from hcplx]
    exact hb.load n cid
  · rw [show (s'.unclear a).nodes n = _ from h.node n,
      show (s'.unclear a).cplxCons = s.cplxCons from hcplx]
    exact hb.store n cid
  · rw [show (s'.unclear a).nodes n = _ from h.node n,
      show (s'.unclear a).cplxCons = s.cplxCons from hcplx]
    exact hb.gep n cid

end

section

variable {W : Type} [Worklist W] [LawfulWorklist W] {E : Stop → Prop}

/-- Whether anything happens when node `n` is visited. -/
def HasWork (N : Node) : Prop :=
  N.pointsTo ≠ ∅ ∧ ¬ (N.copyTo = ∅ ∧ N.loadTo = ∅ ∧ N.storeFrom = ∅ ∧ N.gepTo = ∅)

/-- The state the main loop starts in. -/
structure InitState (a : Anders) (s : Solver W) : Prop where
  built : Built a a.constraints (s.unclear a)
  constraints : s.constraints = []
  cascades : s.cascades = []
  lcdStarts : s.lcdStarts = ∅
  extSeen : s.extSeen = ∅
  live : ∀ n < a.size, a.isRep n = true → HasWork (s.nodes n) → Live s n

theorem solveInitPush_spec (hE : Permits E) (s : Solver W) (i : Nat) :
    Spec (solveInitPush s i) (fun s' => SameWork s s' ∧
      (s.isRep i = true → HasWork (s.nodes i) → Live s' i) ∧
      ∀ n, n ≠ i → Live s n → Live s' n) E := by
  unfold solveInitPush
  have hrefl : SameWork s s := ⟨rfl, fun _ => rfl⟩
  split
  · rename_i hrep
    exact ⟨hrefl, fun h => absurd h hrep, fun _ _ => id⟩
  · have hsame : SameWork s (s.modify i fun N => { N with vtime := 0 }) := by
      refine ⟨rfl, fun n => ?_⟩
      rw [modify_nodes]
      split
      · rename_i hn; rw [hn]
      · rfl
    have hlive : ∀ n, n ≠ i → Live s n → Live (s.modify i fun N => { N with vtime := 0 }) n :=
      fun n hn hl => hl.still rfl (by rw [modify_nodes, if_neg hn])
    have hi : (s.modify i fun N => { N with vtime := 0 }).nodes i = { s.nodes i with vtime := 0 } := by
      rw [modify_nodes, if_pos rfl]
    dsimp only
    generalize s.modify i (fun N => { N with vtime := 0 }) = s1 at hsame hlive hi
    rw [hi]
    dsimp only
    split
    · rename_i hp
      exact ⟨hsame, fun _ h => absurd hp h.1, hlive⟩
    · split
      · rename_i hnone
        exact ⟨hsame, fun _ h => absurd hnone h.2, hlive⟩
      · have hp := pushNode_spec hE s1 i
        unfold pushNode at hp
        rw [hi] at hp
        refine hp.imp fun s' ⟨⟨wl, hwl⟩, hpushed, hkeep⟩ => ?_
        subst hwl
        exact ⟨⟨by rw [hsame.state], hsame.node⟩, fun _ _ => hpushed,
          fun n hn hl => hkeep n (hlive n hn hl)⟩

/-- The loop that starts the worklist leaves every node with work on it. -/
theorem solveInitPush_loop (hE : Permits E) (s : Solver W) (k : Nat) :
    Spec ((List.range k).foldlM solveInitPush s) (fun s' => SameWork s s' ∧
      ∀ n < k, s.isRep n = true → HasWork (s.nodes n) → Live s' n) E := by
  refine (spec_foldlM (fun done s' => SameWork s s' ∧
    ∀ n ∈ done, s.isRep n = true → HasWork (s.nodes n) → Live s' n)
    ⟨⟨rfl, fun _ => rfl⟩, fun n hn => by cases hn⟩ fun done i rest c hl ⟨hc, hlive⟩ => ?_).imp
    fun s' h => ⟨h.1, fun n hn => h.2 n (List.mem_range.mpr hn)⟩
  have hnodup : (done ++ i :: rest).Nodup := hl ▸ List.nodup_range
  have hfresh : i ∉ done := fun h => (List.nodup_append.mp hnodup).2.2 i h i (by simp) rfl
  refine (solveInitPush_spec hE c i).imp fun c' ⟨hc', hi, hkeep⟩ => ⟨hc.trans hc', fun n hn => ?_⟩
  intro hrep hwork
  rcases List.mem_append.mp hn with hn | hn
  · exact hkeep n (fun h => hfresh (h ▸ hn)) (hlive n hn hrep hwork)
  · obtain rfl := List.mem_singleton.mp hn
    have hrep' : c.isRep n = true := by rw [hc.state]; exact hrep
    exact hi hrep' (by rw [hc.node]; exact hwork)

/-- Whatever the nodes hold before, the complex constraints of the solver are
those of the list. -/
theorem solveInit_cplx (hE : Permits E) (a : Anders) :
    Spec (solveInit (W := W) a) (fun s => s.cplxCons = a.constraints.filter Constraint.complex ∧
      s.offMask = a.offMask ∧ s.geps = a.geps ∧ s.size = a.size) E := by
  unfold solveInit
  refine (spec_foldlM (fun done (b : Anders) => b = { a with
    nodes := b.nodes, cplxCons := done.filter Constraint.complex }) rfl fun done C rest b _ hb => ?_).bind fun b hb => ?_
  · refine (solveInitCons_adds hE (a := b) rfl).imp fun b' hb' => ?_
    have hcplx : b'.cplxCons = (done ++ [C]).filter Constraint.complex := by
      rw [hb'.cplx, show b.cplxCons = _ from congrArg Anders.cplxCons hb, List.filter_append]
      cases hc : C.complex <;> simp [hc]
    have hf := congrArg (fun x : Anders => { x with nodes := b'.nodes, cplxCons := b'.cplxCons }) hb
    rw [← hcplx]
    exact hb'.frame.trans hf
  · refine (solveInitPush_loop hE _ _).bind fun s hs => ?_
    have hs := hs.1.state
    rw [hb] at hs
    refine ⟨?_, ?_, ?_, ?_⟩ <;> rw [hs]

theorem solveInit_spec (hE : Permits E) {a : Anders} (ha : a.Fresh) :
    Spec (solveInit (W := W) a) (InitState a) E := by
  unfold solveInit
  refine (spec_foldlM (fun done b => Built a done b) (Built.nil ha) fun done C rest b _ hb =>
    (solveInitCons_adds hE (by rw [hb.frame]; rfl)).imp fun b' hb' => hb.append hb').bind
    fun b hb => ?_
  refine (solveInitPush_loop hE _ _).bind fun s ⟨hs, hlive⟩ => ?_
  have hb0 : Built a a.constraints
      ({ b with constraints := a.constraints, cascades := a.cascades } : Anders) := by
    have hf := congrArg (fun x : Anders =>
      { x with constraints := a.constraints, cascades := a.cascades }) hb.frame
    exact (show _ = b from hf.trans hb.frame.symm) ▸ hb
  refine ⟨hs.built hb0, ?_, ?_, ?_, ?_, fun n hn hrep hwork => ?_⟩
  · rw [hs.state]
  · rw [hs.state]
  · rw [hs.state]
  · rw [hs.state]
  · have hrep' : b.isRep n = true := by rw [hb.frame]; exact hrep
    have hsize : n < b.size := by rw [hb.frame]; exact hn
    have hnode := hs.node n
    obtain ⟨p, hp, hv⟩ := hlive n hsize hrep' (by
      have hw : HasWork (s.nodes n) := hwork
      rw [hnode] at hw
      exact hw)
    exact ⟨p, LawfulWorklist.swap_mem.mpr hp, hv⟩

end

end PtrAnalysis
