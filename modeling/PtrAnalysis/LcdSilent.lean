import PtrAnalysis.Lib.TwoRuns
import PtrAnalysis.Cleanup
import PtrAnalysis.LcdStates
import PtrAnalysis.Precise

/-!
# Cycle detection without cascades

A merge that starts no cascade does to the sets of nodes what it does with no target of an
offline cycle known. So does a run of cycle detection whose merges start none: it merges the
components it finds and nothing else. These have equal sets in every solution, because copy
edges lead to larger ones.
-/

namespace PtrAnalysis

open Run Relation PtrAnalysis.Graph PtrAnalysis.Search

/-! ## Forgetting the targets -/

/-- `g` without the targets of offline cycles. -/
def Graph.untargeted (g : Graph) : Graph := { g with hcdVar := fun _ => none }

/-- A merge adds an entry to the history or is the plain one. -/
theorem mergeNodes_silent : ∀ (fuel : Nat) (g : Graph) (n1 n2 : Nat),
    Silent (fun t => (t.1.untargeted, t.2)) (fun t => t.1.cascades.length) g.cascades.length
      (mergeNodes fuel g n1 n2) (mergeNodes fuel g.untargeted n1 n2)
  | 0, _, _, _ => fun a h => by cases h
  | fuel + 1, g, n1, n2 => by
      rw [mergeNodes, mergeNodes]
      refine .first (require _ _) fun _ => .first (require _ _) fun _ => .first (require _ _) fun _ =>
        .first (require _ _) fun _ => .first (require _ _) fun _ => ?_
      have hr : byRank g.untargeted n1 n2 = byRank g n1 n2 := rfl
      rw [hr]
      obtain ⟨⟨a, b⟩, hab⟩ : ∃ t, byRank g n1 n2 = t := ⟨_, rfl⟩
      rw [hab]
      change Silent _ _ _ (if g.hv b = 0 then _ else if g.hv a = 0 then _ else _)
        (.ok ((g.absorb a b).untargeted, a))
      have hstay : ∀ g' : Graph, g'.untargeted = (g.absorb a b).untargeted →
          g'.cascades = g.cascades → Silent (fun t : Graph × Nat => (t.1.untargeted, t.2))
            (fun t => t.1.cascades.length) g.cascades.length (.ok (g', a))
            (.ok ((g.absorb a b).untargeted, a)) := by
        intro g' hg hc t ht
        obtain rfl := Except.ok.inj ht
        exact ⟨(congrArg List.length hc).ge, fun _ => by rw [← hg]⟩
      split
      · exact hstay _ rfl rfl
      · split
        · exact hstay _ rfl rfl
        · change Silent _ _ _
            (if (g.absorb a b).rep (g.hv a) = (g.absorb a b).rep (g.hv b) then _ else _) _
          split
          · exact hstay _ rfl rfl
          · -- a cascade is in the history
            intro t ht
            obtain ⟨u, hu, ht⟩ := bind_ok.mp ht
            have hlen : g.cascades.length + 1 ≤ u.1.cascades.length :=
              (mergeNodes_silent fuel ((g.absorb a b).recordCascade a) _ _ u hu).1
            have hc : t.1.cascades = u.1.cascades := by
              change (if a = (g.absorb a b).rep (g.hv b) then _ else _) = _ at ht
              split at ht
              · obtain rfl := Except.ok.inj ht
                rfl
              · rw [require_bind_ok] at ht
                obtain rfl := Except.ok.inj ht.2
                rfl
            have hmore : g.cascades.length < t.1.cascades.length := hc ▸ hlen
            exact ⟨Nat.le_of_lt hmore, fun he => absurd he (Nat.ne_of_gt hmore)⟩

section

variable {W : Type}

/-- The state without the targets of offline cycles. -/
def Solver.untargeted (s : Solver W) : Solver W := { s with hcdVar := fun _ => none }

/-- How often a merge started another one. -/
def Solver.cascaded (s : Solver W) : Nat := s.cascades.length

/-! ## A search -/

section

variable [Worklist W]

theorem pushIf_silent (chg : Bool) (s : Solver W) (n : Nat) :
    Silent Solver.untargeted Solver.cascaded s.cascaded (pushIf chg s n)
      (pushIf chg s.untargeted n) := by
  unfold pushIf pushNode
  exact .ite (fun _ => .first _ fun _ => .pure _ rfl) fun _ => .pure _ rfl

end

/-- Recursive calls that commute with forgetting the targets. -/
def SilentVisit (visit : Solver W → Nat → Run (Solver W)) : Prop :=
  ∀ s n, Silent Solver.untargeted Solver.cascaded s.cascaded (visit s n) (visit s.untargeted n)

/-- The part of an edge behind a possible recursion. -/
theorem lcdLower_silent (n dest0 d : Nat) (s : Solver W) (e : LcdEdges) :
    Silent (fun t => (t.1.untargeted, t.2)) (fun t => t.1.cascaded) s.cascaded
      (do
        let s2 := setDfsId s d (dfsId s d)
        let s3 := if dfsId s d < dfsId s2 n then setDfsId s2 n (dfsId s d) else s2
        return (s3, ← lcdReplace n dest0 d e))
      (do
        let s2 := setDfsId s.untargeted d (dfsId s d)
        let s3 := if dfsId s d < dfsId s2 n then setDfsId s2 n (dfsId s d) else s2
        return (s3, ← lcdReplace n dest0 d e)) := by
  refine .first (lcdReplace ..) fun _ => ?_
  have hid : dfsId (setDfsId s.untargeted d (dfsId s d)) n =
    dfsId (setDfsId s d (dfsId s d)) n := rfl
  rw [hid]
  split
  · exact .pure _ rfl
  · exact .pure _ rfl

theorem lcdEdge_silent {visit : Solver W → Nat → Run (Solver W)} (hv : SilentVisit visit) (n : Nat)
    (s : Solver W) (e : LcdEdges) (dest0 : Nat) :
    Silent (fun t => (t.1.untargeted, t.2)) (fun t => t.1.cascaded) s.cascaded
      (lcdEdge visit n s e dest0) (lcdEdge visit n s.untargeted e dest0) := by
  unfold lcdEdge
  refine .first (require _ _) fun _ => .ite (fun _ => .pure _ rfl) fun _ =>
    .ite (fun _ => .first (lcdReplace ..) fun _ => .pure _ rfl) fun _ => ?_
  dsimp only
  have hid : s.untargeted.lcdDfsId (s.untargeted.rep dest0) = s.lcdDfsId (s.rep dest0) := rfl
  rw [hid]
  split
  · refine .bind (T := Solver.untargeted) (hv s _) fun s1 => ?_
    exact .first (inRange _ _) fun _ => lcdLower_silent n dest0 _ s1 e
  · exact lcdLower_silent n dest0 _ s e

theorem lcdWalk_silent {visit : Solver W → Nat → Run (Solver W)} (hv : SilentVisit visit) (n : Nat) :
    ∀ (steps : Nat) (s : Solver W) (e : LcdEdges),
      Silent (fun t => (t.1.untargeted, t.2)) (fun t => t.1.cascaded) s.cascaded
        (lcdWalk visit n steps s e) (lcdWalk visit n steps s.untargeted e)
  | 0, _, _ => fun a h => by cases h
  | steps + 1, s, e => by
      rw [lcdWalk, lcdWalk]
      have hnode : s.untargeted.nodes n = s.nodes n := rfl
      rw [hnode]
      split
      · exact .pure _ rfl
      · exact (lcdEdge_silent hv n s _ _).bind fun t => lcdWalk_silent hv n steps t.1 t.2

theorem lcdPop_silent (ourDfs : Nat) : ∀ (stk : List Nat) (s : Solver W) (n : Nat) (chg : Bool),
    Silent (fun t => (t.1.untargeted, t.2)) (fun t => t.1.cascaded) s.cascaded
      (lcdPop ourDfs stk s n chg) (lcdPop ourDfs stk s.untargeted n chg)
  | [], _, _, _ => .pure _ rfl
  | n2 :: stk, s, n, chg => by
      rw [lcdPop, lcdPop]
      refine .ite (fun _ => .pure _ rfl) fun _ => .ite (fun _ => ?_) fun _ =>
        lcdPop_silent ourDfs stk (setDfsId s n2 (dfsId s n2)) n true
      refine (mergeNodes_silent s.size s.toGraph n (s.rep n2)).bind fun t => ?_
      exact lcdPop_silent ourDfs stk { setDfsId s n2 (dfsId s n2) with toGraph := t.1 } t.2 true

section

variable [Worklist W]

theorem lcdDfs_silent : ∀ fuel, SilentVisit (lcdDfs (W := W) fuel)
  | 0, _, _ => fun a h => by cases h
  | fuel + 1, s, n => by
      rw [lcdDfs, lcdDfs]
      refine .first (require _ _) fun _ => .first (require _ _) fun _ => ?_
      refine .bind (lcdWalk_silent (lcdDfs_silent fuel) n (s.size + 1)
        (setDfsId { s with currLcdDfs := s.currLcdDfs + 1 } n s.currLcdDfs) _) fun t => ?_
      refine .first (require _ _) fun _ => .ite (fun _ => ?_) fun _ => .pure _ rfl
      refine .bind (lcdPop_silent s.currLcdDfs t.1.lcdStk
        (moveEdges t.1 n t.2.del t.2.add) n false) fun u => ?_
      exact pushIf_silent u.2.2 { u.1 with lcdRoots := insert u.2.1 u.1.lcdRoots } u.2.1

/-- A run of cycle detection starts a cascade or does what it does with no target known. -/
theorem runLcd_silent (s : Solver W) :
    Silent Solver.untargeted Solver.cascaded s.cascaded (runLcd s) (runLcd s.untargeted) := by
  unfold runLcd
  have hloop : ∀ start : Solver W, Silent Solver.untargeted Solver.cascaded start.cascaded
      ((ascending s.lcdStarts).foldlM (fun c n =>
        if c.isRep n ∧ (c.lcdDfsId n).isNone then lcdDfs (c.size + 1) c n else .ok c) start)
      ((ascending s.lcdStarts).foldlM (fun c n =>
        if c.isRep n ∧ (c.lcdDfsId n).isNone then lcdDfs (c.size + 1) c n else .ok c)
        start.untargeted) :=
    .foldlM _ fun c n => .ite (fun _ => lcdDfs_silent _ c n) fun _ => .pure _ rfl
  exact (hloop _).bind fun c => .first (require _ _) fun _ =>
    .pure ({ c with lcdStarts := ∅ } : Solver W) rfl

end

end

/-! ## What is merged has one set -/

section

variable {W : Type} [Worklist W] [LawfulWorklist W] {S : System} {F : Nat → Nat → Prop}
  {s s' : Solver W}

omit [Worklist W] [LawfulWorklist W] in
/-- Along copy edges the sets of a solution grow. -/
theorem Graph.Precise.reach {g : Graph} (h : g.Precise F) {x y : Nat}
    (hxy : ReflTransGen g.CopiesTo x y) : ∀ o, F x o → F y o := by
  induction hxy with
  | refl => exact fun _ => id
  | @tail u v _ hs ih =>
      obtain ⟨d, hd, rfl⟩ := hs
      exact fun o ho => (h.equal.rep d o).mpr (h.copy u d hd o (ih o ho))

/-- Cycle detection that starts no cascade merges nodes with one set. -/
theorem runLcd_equal (hs : LcdReady s) (h : s.toGraph.Precise F) (hrun : runLcd s = .ok s')
    (hquiet : s'.cascaded = s.cascaded) : s'.toGraph.Equal F := by
  have hplain := (runLcd_silent s s' hrun).2 hquiet
  have hready : LcdReady s.untargeted :=
    ⟨⟨rfl, hs.ranged.rep, hs.ranged.copy⟩, hs.loop, hs.edge, hs.start, hs.stk⟩
  have hrep := ((runLcd_spec hready fun x y _ _ hx => absurd rfl hx).result hplain).1
  intro x y hxy o hx
  rw [← h.equal.rep] at hx ⊢
  rcases (hrep x y).mp hxy with heq | ⟨-, hmut⟩
  · rwa [← show s.rep x = s.rep y from heq]
  · exact h.reach hmut.1 o hx

omit [Worklist W] [LawfulWorklist W] in
theorem Solver.Precise.ofLcd (h : s.Precise S F) (hs : LcdOnly s s') : s'.Precise S F := by
  obtain ⟨hgraph, hcons, hmask, hgep, hfunc, hcalls, hspecial⟩ := h
  exact ⟨hs.anders ▸ hgraph, hs.anders ▸ hcons, hs.anders ▸ hmask, hs.anders ▸ hgep,
    hs.anders ▸ hfunc, hs.anders ▸ hcalls, hs.anders ▸ hspecial⟩

/-- If what is merged in the end has one set, then all that is done before is right. -/
theorem lcdRules_precise : LcdRules (W := W) (fun _ => True)
    (fun t => t.toGraph.Equal F → t.Precise S F) (fun _ t => t.toGraph.Equal F → t.Precise S F)
    (fun _ _ => True) 0 where
  permits := permits_true
  fueled _ := .inl trivial
  weaken h _ := h
  merge {s n m r g} h hrun he := by
    have hold : s.toGraph.Equal F := fun x y hxy => he x y (hrun.spec.1.rep hxy)
    exact (h hold).merge hrun fun o =>
      Equal.iff he (hrun.spec.2.1.trans hrun.spec.2.2.1.symm) o
  push h _ hwl _ _ he := by
    obtain ⟨wl, rfl⟩ := hwl
    have hp := h he
    exact ⟨hp.graph, hp.cons, hp.mask, hp.gep, hp.func, hp.untagged, hp.special⟩
  lcd hs h he := (h (hs.anders ▸ he)).ofLcd hs
  lcdO hs h he := (h (hs.anders ▸ he)).ofLcd hs
  edge _ _ := trivial
  rep _ _ _ := trivial
  move {s n del add} h hn _ hadd he := by
    have hp := h he
    refine hp.withGraph (g := (moveEdges s n del add).toGraph)
      ⟨he, fun m o ho => ?_, fun m e hm o ho => ?_, hp.graph.target⟩ hp.special
    · rw [moveEdges_node] at ho
      exact hp.graph.pts m o ho
    · rw [moveEdges_nodes] at hm
      split at hm
      · rename_i hmn
        subst hmn
        rcases Finset.mem_union.mp hm with hm | hm
        · exact hp.graph.copy m e (Finset.mem_sdiff.mp hm).1 o ho
        · -- a new edge leads to the set an old one led to
          rcases (hadd e hm).2 with heq | ⟨d, hd, hde⟩
          · exact he m e heq o ho
          · rw [rep_eq_self.mpr hn] at hd
            exact he d e hde o (hp.graph.copy m d hd o ho)
      · exact hp.graph.copy m e hm o ho
  ends := .inl trivial

/-- A run of cycle detection starts a cascade or stays below every solution. -/
theorem runLcd_precise (hs : LcdReady s) (h : s.cascades = [] → s.Precise S F)
    (hrun : runLcd s = .ok s') (hquiet : s'.cascades = []) : s'.Precise S F := by
  have hnone : s'.cascaded = 0 := congrArg List.length hquiet
  have hle := (runLcd_silent s s' hrun).1
  have hbefore : s.cascaded = 0 := by omega
  have hp := h (List.length_eq_zero_iff.mp hbefore)
  exact (runLcd_keeps lcdRules_precise (fun _ => hp) (.inl trivial)).result hrun
    (runLcd_equal hs hp.graph hrun (hnone.trans hbefore.symm))

end

end PtrAnalysis
