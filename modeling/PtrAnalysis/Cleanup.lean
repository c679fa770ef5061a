import PtrAnalysis.Merge
import PtrAnalysis.Tables

/-!
# What is left for the clients

After solving, `runCleanup` drops the constraint graph and `ptsCleanup` the
points-to sets that no client asks for: those of object nodes, except for the
parameters of address-taken functions, which are variables as well. Nodes with
equal sets are merged on the way. Clients read with `pointsToSet`.

The sweep looks at the node that holds a set, which need not be the kind of node
a client asks for: an object node may represent a variable. `ptsCleanup_iff` says
that this is the only way in which an answer can change.
-/

namespace PtrAnalysis

open Run PtrAnalysis.Graph

/-- `isa<Argument>` of the node's value. -/
def Node.isArg (N : Node) : Bool :=
  match N.val with
  | some V => V.isArg
  | none => false

/-- Delete anything not needed to get the analysis results. -/
def runCleanup (a : Anders) : Anders :=
  { a with
    constraints := []
    indCalls := ∅
    icallCons := []
    hcdVar := fun _ => none
    offMask := []
    cplxCons := []
    nodes := fun n => { a.nodes n with
      prevPointsTo := ∅, copyTo := ∅, loadTo := ∅, storeFrom := ∅, gepTo := ∅ } }

/-- The sweep at node `i`; `eq` maps a points-to set to the first node found with it. -/
def ptsCleanupOne (t : Anders × List (Finset Nat × Nat)) (i : Nat) :
    Run (Anders × List (Finset Nat × Nat)) := do
  let (a, eq) := t
  let N := a.nodes i
  if N.objSz ≠ 0 ∧ N.isArg = false then
    return ({ a with toGraph := a.toGraph.modify i fun N => { N with pointsTo := ∅ } }, eq)
  if N.pointsTo = ∅ then return (a, eq)
  match eq.lookup N.pointsTo with
  | none => return (a, (N.pointsTo, i) :: eq)
  | some j => do
      let (g, _) ← mergeNodes a.size a.toGraph (a.rep i) (a.rep j)
      return ({ a with toGraph := g }, eq)

/-- Delete the points-to sets not needed by the clients. -/
def ptsCleanup (a : Anders) : Run Anders := do
  let (a, _) ← (List.range a.size).foldlM ptsCleanupOne (a, [])
  return a

/-- The points-to set of node `n` with offset `off`, as clients read it. -/
def pointsToSet (a : Anders) (n off : Nat) : Run (Finset Nat) := do
  require (n ≠ 0 ∧ n < a.size) "node ID out of range"
  if off = 0 then return (a.nodes (a.rep n)).pointsTo
  require (off < a.geps.length ∧ a.geps.getD off ∅ ≠ ∅) "off < geps.size() && geps[off] != bddfalse"
  return gepImage a.geps off (a.nodes (a.rep n)).pointsTo

/-- What the solver leaves behind: points-to sets at representatives only, and
none at the null node; the object `i2p` is not part of any program. -/
structure Solved (a : Anders) : Prop where
  inside : ∀ n < a.size, a.rep n < a.size
  atReps : ∀ n, a.isRep n = false → (a.nodes n).pointsTo = ∅
  null : (a.nodes 0).pointsTo = ∅
  i2pObject : (a.nodes i2p).objSz ≠ 0 ∧ (a.nodes i2p).isArg = false

/-- The nodes clients ask for: variables and parameters. -/
def Visible (a : Anders) (n : Nat) : Prop :=
  n ≠ 0 ∧ n < a.size ∧ ((a.nodes n).objSz = 0 ∨ (a.nodes n).isArg = true)

instance (a : Anders) (n : Nat) : Decidable (Visible a n) := by
  unfold Visible
  infer_instance

/-- Whether the sweep spares the set of a node. -/
def Node.Spared (N : Node) : Prop := N.objSz = 0 ∨ N.isArg = true

instance (N : Node) : Decidable N.Spared := by
  unfold Node.Spared
  infer_instance

/-- The points-to set of the representative of `x`. -/
def Graph.setOf (g : Graph) (x : Nat) : Finset Nat := (g.nodes (g.rep x)).pointsTo

/-- Without offline cycles a merge of two nodes that may be merged is `absorb`. -/
theorem mergeNodes_plain {g : Graph} {n1 n2 : Nat} (fuel : Nat) (hm : Mergeable g n1 n2)
    (hnone : ∀ n, g.hcdVar n = none) :
    ∃ a b, byRank g n1 n2 = (a, b) ∧ mergeNodes (fuel + 1) g n1 n2 = .ok (g.absorb a b, a) := by
  obtain ⟨⟨a, b⟩, hr⟩ : ∃ t, byRank g n1 n2 = t := ⟨_, rfl⟩
  refine ⟨a, b, hr, ?_⟩
  have hb : (g.absorb a b).hcdVar b = none := hnone b
  simp only [mergeNodes, require, hm.valid1, hm.valid2, hm.ne, hm.not_i2p, hm.isRep, hr, hb, ne_eq,
    not_false_iff, and_self, if_true, Option.getD_none, bind, Except.bind, pure_eq]

/-- The sweep behind the first `k` nodes of `a`. -/
structure Swept (a : Anders) (k : Nat) (b : Anders) (eq : List (Finset Nat × Nat)) : Prop where
  frame : b = { a with nodes := b.nodes, forest := b.forest, indCalls := b.indCalls }
  static : ∀ n, (b.nodes n).objSz = (a.nodes n).objSz ∧ (b.nodes n).isArg = (a.nodes n).isArg
  atReps : ∀ n, b.isRep n = false → (b.nodes n).pointsTo = ∅
  null : (b.nodes 0).pointsTo = ∅
  /-- The sets of object nodes are gone. -/
  cleared : ∀ n < k, ¬ (a.nodes n).Spared → (b.nodes n).pointsTo = ∅
  /-- The nodes ahead represent what they did. -/
  ahead : ∀ n, k ≤ n → ∀ x, b.rep x = n ↔ a.rep x = n
  sets : ∀ x, b.setOf x = if a.rep x < k ∧ ¬ (a.nodes (a.rep x)).Spared then ∅ else a.setOf x
  found : ∀ S j, eq.lookup S = some j → S ≠ ∅ ∧ b.rep j < k ∧ b.setOf j = S

section

variable {a b : Anders} {k : Nat} {m : List (Finset Nat × Nat)}

theorem Swept.start (h : Solved a) : Swept a 0 a [] where
  frame := rfl
  static _ := ⟨rfl, rfl⟩
  atReps := h.atReps
  null := h.null
  cleared n hn := absurd hn (Nat.not_lt_zero n)
  ahead _ _ _ := Iff.rfl
  sets x := (if_neg fun hx => absurd hx.1 (Nat.not_lt_zero _)).symm
  found S j hj := by cases hj

/-- Nothing was done to node `k`, because it is spared. -/
theorem Swept.skip (h : Swept a k b m) (hk : (a.nodes k).Spared) : Swept a (k + 1) b m where
  frame := h.frame
  static := h.static
  atReps := h.atReps
  null := h.null
  cleared n hn hs := h.cleared n (Nat.lt_of_le_of_ne (Nat.le_of_lt_succ hn) fun he => hs (he ▸ hk)) hs
  ahead n hn := h.ahead n (Nat.le_of_succ_le hn)
  sets x := by
    rw [h.sets x]
    by_cases hx : a.rep x = k
    · rw [hx, if_neg fun hc => hc.2 hk, if_neg fun hc => hc.2 hk]
    · have hlt : a.rep x < k + 1 ↔ a.rep x < k := by omega
      simp only [hlt]
  found S j hj := by
    obtain ⟨h1, h2, h3⟩ := h.found S j hj
    exact ⟨h1, Nat.lt_succ_of_lt h2, h3⟩

/-- Node `k` is an object: its set is cleared. -/
theorem Swept.clear (h : Swept a k b m) (hk : ¬ (a.nodes k).Spared) :
    Swept a (k + 1) { b with toGraph := b.toGraph.modify k fun N => { N with pointsTo := ∅ } } m where
  frame := by
    have hf := congrArg (fun c : Anders =>
      { c with toGraph := c.toGraph.modify k fun N => { N with pointsTo := ∅ } }) h.frame
    exact hf
  static n := by
    simp only [Graph.modify, Function.update_apply]
    split
    · rename_i hn
      rw [hn]
      exact h.static k
    · exact h.static n
  atReps n hn := by
    simp only [Graph.modify, Function.update_apply]
    split
    · rfl
    · exact h.atReps n hn
  null := by
    simp only [Graph.modify, Function.update_apply]
    split
    · rfl
    · exact h.null
  cleared n hn hs := by
    simp only [Graph.modify, Function.update_apply]
    split
    · rfl
    · exact h.cleared n (by omega) hs
  ahead n hn := h.ahead n (by omega)
  sets x := by
    have hrep : b.rep x = k ↔ a.rep x = k := h.ahead k (Nat.le_refl k) x
    have hset : ({ b with
        toGraph := b.toGraph.modify k fun N => { N with pointsTo := ∅ } } : Anders).setOf x =
        if b.rep x = k then ∅ else b.setOf x := by
      change (Function.update b.nodes k _ (b.rep x)).pointsTo = _
      rw [Function.update_apply]
      split <;> rfl
    rw [hset, h.sets x]
    by_cases hx : a.rep x = k
    · rw [if_pos (hrep.mpr hx), if_pos ⟨by omega, hx ▸ hk⟩]
    · have hlt : a.rep x < k + 1 ↔ a.rep x < k := by omega
      simp only [if_neg fun hb => hx (hrep.mp hb), hlt]
  found S j hj := by
    obtain ⟨h1, h2, h3⟩ := h.found S j hj
    refine ⟨h1, Nat.lt_succ_of_lt h2, ?_⟩
    rw [← h3]
    change (Function.update b.nodes k _ (b.rep j)).pointsTo = _
    rw [Function.update_apply, if_neg (Nat.ne_of_lt h2)]
    rfl

/-- Node `k` is the first one with its set. -/
theorem Swept.enter (h : Swept a (k + 1) b m) (hrep : b.rep k = k)
    (hne : (b.nodes k).pointsTo ≠ ∅) : Swept a (k + 1) b (((b.nodes k).pointsTo, k) :: m) where
  frame := h.frame
  static := h.static
  atReps := h.atReps
  null := h.null
  cleared := h.cleared
  ahead := h.ahead
  sets := h.sets
  found S j hj := by
    rw [List.lookup_cons] at hj
    split at hj
    · rename_i hS
      obtain rfl := Option.some.inj hj
      have hS : S = (b.nodes k).pointsTo := by simpa using hS
      refine ⟨hS ▸ hne, by rw [hrep]; omega, ?_⟩
      rw [hS, Graph.setOf, hrep]
    · exact h.found S j hj

/-- Two nodes behind the sweep that hold the same set are merged. -/
theorem Swept.merge {p c : Nat} (h : Swept a k b m) (hm : Mergeable b.toGraph p c)
    (hp : p < k) (hc : c < k)
    (heq : (b.nodes c).pointsTo = (b.nodes p).pointsTo) :
    Swept a k { b with toGraph := b.toGraph.absorb p c } m := by
  have hpts : ∀ n, ((b.toGraph.absorb p c).nodes n).pointsTo =
      if n = c then ∅ else (b.nodes n).pointsTo := by
    intro n
    simp only [absorb, takeOver]
    by_cases hnp : n = p
    · rw [if_pos hnp, if_neg fun hn => hm.ne (hnp.symm.trans hn), hnp, heq]
      exact Finset.union_self _
    · rw [if_neg hnp]
      split <;> rfl
  have hset : ∀ x, (b.toGraph.absorb p c).setOf x = b.setOf x := by
    intro x
    rw [Graph.setOf, hpts, absorb_rep hm, Graph.setOf]
    by_cases hx : b.rep x = c
    · rw [if_pos hx, if_neg hm.ne, hx, heq]
    · rw [if_neg hx, if_neg hx]
  have hst := (absorb_coarser hm)
  refine ⟨?_, fun n => ?_, fun n hn => ?_, ?_, fun n hn hs => ?_, fun n hn x => ?_, fun x => ?_,
    fun S j hj => ?_⟩
  · have hf := congrArg (fun e : Anders => { e with toGraph := b.toGraph.absorb p c }) h.frame
    rw [hf]
    have hsz : b.size = a.size := by rw [h.frame]
    have hhv : b.hcdVar = a.hcdVar := by rw [h.frame]
    have hcs : b.cascades = a.cascades := by rw [h.frame]
    simp only [absorb, hsz, hhv, hcs]
  · obtain ⟨h1, h2⟩ := h.static n
    refine ⟨(hst.objSz n).trans h1, Eq.trans ?_ h2⟩
    simp only [Node.isArg, hst.val n]
  · rw [hpts]
    split
    · rfl
    · rename_i hnc
      refine h.atReps n ?_
      by_contra hr
      have hr' : b.isRep n = true := by simpa using hr
      have habs : (b.toGraph.absorb p c).isRep n = true := (absorb_isRep hm n).mpr ⟨hr', hnc⟩
      rw [show (b.toGraph.absorb p c).isRep n = false from hn] at habs
      cases habs
  · rw [hpts]
    split
    · rfl
    · exact h.null
  · rw [hpts]
    split
    · rfl
    · exact h.cleared n hn hs
  · rw [← h.ahead n hn x]
    change (b.toGraph.absorb p c).rep x = n ↔ b.rep x = n
    rw [absorb_rep hm]
    split
    · rename_i hx
      rw [hx]
      constructor
      · intro he
        omega
      · intro he
        omega
    · exact Iff.rfl
  · exact (hset x).trans (h.sets x)
  · obtain ⟨h1, h2, h3⟩ := h.found S j hj
    refine ⟨h1, ?_, (hset j).trans h3⟩
    change (b.toGraph.absorb p c).rep j < k
    rw [absorb_rep hm]
    split
    · exact hp
    · exact h2

/-- One step of the sweep. -/
theorem Swept.step (ha : Solved a) (hnone : ∀ n, a.hcdVar n = none) (hk : k < a.size)
    (h : Swept a k b m) : Spec (ptsCleanupOne (b, m) k) (fun t => Swept a (k + 1) t.1 t.2) fun _ => False := by
  unfold ptsCleanupOne
  dsimp only
  have hspared : (b.nodes k).objSz ≠ 0 ∧ (b.nodes k).isArg = false ↔ ¬ (a.nodes k).Spared := by
    rw [(h.static k).1, (h.static k).2, Node.Spared]
    simp
  by_cases hobj : (a.nodes k).Spared
  · rw [if_neg fun hc => (hspared.mp hc) hobj]
    have hnext := h.skip hobj
    split
    · exact hnext
    · rename_i hne
      have hrep : b.rep k = k := by
        refine rep_eq_self.mpr ?_
        by_contra hr
        exact hne (h.atReps k (by simpa using hr))
      split
      · exact hnext.enter hrep hne
      · rename_i j hj
        obtain ⟨-, hlt, hset⟩ := h.found _ j hj
        have hsize : b.size = a.size := by rw [h.frame]
        have hm : Mergeable b.toGraph k (b.rep j) := by
          refine ⟨⟨fun h0 => hne (h0 ▸ h.null), by omega⟩, ⟨fun h0 => hne ?_, by omega⟩, by omega,
            ⟨fun hi => ?_, fun hi => hne ?_⟩, rep_eq_self.mp hrep, isRep_rep ..⟩
          · rw [← hset, Graph.setOf, h0]
            exact h.null
          · rw [hi] at hobj
            rcases hobj with h0 | h1
            · exact ha.i2pObject.1 h0
            · rw [ha.i2pObject.2] at h1
              cases h1
          · rw [← hset, Graph.setOf, hi]
            refine h.cleared i2p (hi ▸ hlt) fun hs => ?_
            rcases hs with h0 | h1
            · exact ha.i2pObject.1 h0
            · rw [ha.i2pObject.2] at h1
              cases h1
        have hb : ∀ n, b.hcdVar n = none := by
          rw [h.frame]
          exact hnone
        obtain ⟨p, c, hr, hrun⟩ := mergeNodes_plain (b.size - 1) hm hb
        rw [hrep]
        rw [show b.size - 1 + 1 = b.size by omega] at hrun
        rw [hrun]
        have hpc := hm.byRank hr
        rcases byRank_cases b.toGraph k (b.rep j) with hcase | hcase
        · obtain ⟨rfl, rfl⟩ := Prod.mk.inj (hr.symm.trans hcase)
          exact hnext.merge hpc (by omega) (by omega) hset
        · obtain ⟨rfl, rfl⟩ := Prod.mk.inj (hr.symm.trans hcase)
          exact hnext.merge hpc (by omega) (by omega) hset.symm
  · rw [if_pos (hspared.mpr hobj)]
    exact h.clear hobj

/-- The sweep comes to its end. -/
theorem ptsCleanup_swept (ha : Solved a) (hnone : ∀ n, a.hcdVar n = none) :
    ∃ b m, ptsCleanup a = .ok b ∧ Swept a a.size b m := by
  have hloop : Spec ((List.range a.size).foldlM ptsCleanupOne (a, []))
      (fun t : Anders × List (Finset Nat × Nat) => Swept a (List.range a.size).length t.1 t.2)
      fun _ => False := by
    refine spec_foldlM (fun done (t : Anders × List (Finset Nat × Nat)) => Swept a done.length t.1 t.2) (Swept.start ha)
      fun done i rest t hl ht => ?_
    obtain rfl := range_split hl
    have hlt : done.length < a.size := by
      have hlen := congrArg List.length hl
      rw [List.length_range, List.length_append, List.length_cons] at hlen
      omega
    rw [List.length_append, List.length_singleton]
    exact ht.step ha hnone hlt
  rw [List.length_range] at hloop
  cases hrun : (List.range a.size).foldlM ptsCleanupOne (a, []) with
  | error e => exact (hloop.stop hrun).elim
  | ok t =>
      refine ⟨t.1, t.2, ?_, hloop.result hrun⟩
      rw [ptsCleanup, hrun]
      rfl

/-- A client's question about an existing node is answered with the set of its
representative. -/
theorem pointsToSet_zero {n : Nat} (hn : n ≠ 0 ∧ n < a.size) :
    pointsToSet a n 0 = .ok (a.setOf n) := by
  unfold pointsToSet require
  rw [if_pos hn]
  rfl

theorem Solved.runCleanup (h : Solved a) : Solved (runCleanup a) :=
  ⟨h.inside, h.atReps, h.null, h.i2pObject⟩

/-- Clients see the same before and after the cleanup exactly if every visible
node with a non-empty set is represented by a node whose set is spared. -/
theorem ptsCleanup_iff (a : Anders) (h : Solved a) :
    (∃ b, ptsCleanup (runCleanup a) = .ok b ∧
      ∀ v, Visible a v → pointsToSet b v 0 = pointsToSet a v 0) ↔
    ∀ v, Visible a v → a.setOf v ≠ ∅ → (a.nodes (a.rep v)).Spared := by
  obtain ⟨b, m, hrun, hb⟩ := ptsCleanup_swept h.runCleanup fun _ => rfl
  have hsize : b.size = a.size := by rw [hb.frame]; rfl
  -- what a client sees of a visible node after the sweep
  have hsee : ∀ v, Visible a v → pointsToSet b v 0 =
      .ok (if (a.nodes (a.rep v)).Spared then a.setOf v else ∅) := by
    intro v hv
    rw [pointsToSet_zero ⟨hv.1, hsize ▸ hv.2.1⟩, hb.sets v]
    have hlt : a.rep v < a.size := h.inside v hv.2.1
    by_cases hs : (a.nodes (a.rep v)).Spared
    · rw [if_pos hs, if_neg fun hc => hc.2 hs]
      rfl
    · rw [if_neg hs, if_pos ⟨hlt, hs⟩]
  constructor
  · rintro ⟨b', hrun', hsame⟩ v hv hne
    obtain rfl := Except.ok.inj (hrun.symm.trans hrun')
    by_contra hs
    have heq := hsame v hv
    rw [hsee v hv, pointsToSet_zero ⟨hv.1, hv.2.1⟩, if_neg hs] at heq
    exact hne (Except.ok.inj heq).symm
  · intro hspared
    refine ⟨b, hrun, fun v hv => ?_⟩
    rw [hsee v hv, pointsToSet_zero ⟨hv.1, hv.2.1⟩]
    by_cases hne : a.setOf v = ∅
    · rw [hne, ite_self]
    · rw [if_pos (hspared v hv hne)]

end

/-- Function 3 returns the address of object 5 through its node 4, and variable 6
is the result of a call of it. Node `r` holds the set of both. -/
def resultOfCall (forest : Forest) (r : Nat) : Anders :=
  { Anders.initial 7 5 (fun n =>
      { (match n with
        | 1 => { objSz := 1 }
        | 3 => { val := some (.func 0), objSz := 2 }
        | 4 => { val := some (.func 0), objSz := 1 }
        | 5 => { val := some (.other 0 true), objSz := 1 }
        | 6 => { val := some (.other 1 true) }
        | _ => {} : Node) with pointsTo := if n = r then {5} else ∅ }) [] with
    forest }

theorem resultOfCall_solved {forest : Forest} {r : Nat} (hr : forest.isRep r = true) (h0 : r ≠ 0)
    (hin : ∀ n < 7, forest.find n < 7) : Solved (resultOfCall forest r) where
  inside := hin
  atReps n hn := by
    have hne : n ≠ r := by
      rintro rfl
      exact Bool.noConfusion (hr.symm.trans hn)
    exact if_neg hne
  null := if_neg h0.symm
  i2pObject := ⟨Nat.one_ne_zero, rfl⟩

/-- As long as variable 6 represents itself, it keeps its set. -/
theorem ptsCleanup_apart : Solved (resultOfCall .discrete 6) ∧
    ∃ b, ptsCleanup (runCleanup (resultOfCall .discrete 6)) = .ok b ∧
      ∀ v, Visible (resultOfCall .discrete 6) v →
        pointsToSet b v 0 = pointsToSet (resultOfCall .discrete 6) v 0 := by
  have hs : Solved (resultOfCall .discrete 6) :=
    resultOfCall_solved rfl (by decide) (by decide)
  have hspared : ∀ v < 7, (resultOfCall .discrete 6).setOf v ≠ ∅ →
      ((resultOfCall .discrete 6).nodes ((resultOfCall .discrete 6).rep v)).Spared := by decide
  exact ⟨hs, (ptsCleanup_iff _ hs).mpr fun v hv => hspared v hv.2.1⟩

/-- Pointer equivalence puts it under node 4 of the function, and the answer for
it gets lost with the set of that node. -/
theorem ptsCleanup_loses : Solved (resultOfCall (Forest.discrete.join 4 6) 4) ∧
    Visible (resultOfCall (Forest.discrete.join 4 6) 4) 6 ∧
    pointsToSet (resultOfCall (Forest.discrete.join 4 6) 4) 6 0 = .ok {5} ∧
    ∃ b, ptsCleanup (runCleanup (resultOfCall (Forest.discrete.join 4 6) 4)) = .ok b ∧
      pointsToSet b 6 0 = .ok ∅ :=
  ⟨resultOfCall_solved rfl (by decide) (by decide), by decide, rfl, _, rfl, rfl⟩

end PtrAnalysis
