import PtrAnalysis.CallUses
import PtrAnalysis.DeclMaps

/-!
# What the initializers write

The parts of a constant are constants, so no instruction, parameter or null pointer gets a
node while the initializers are processed, and what is entered stays as it is.
-/

namespace PtrAnalysis

open Run Act

mutual

/-- No instruction and no parameter is part of the value. -/
def Val.closed : Val → Bool
  | .arg _ _ | .inst _ => false
  | .struct _ vs | .array _ vs | .expr _ _ vs => vs.closed
  | _ => true

def Vals.closed : Vals → Bool
  | .nil => true
  | .cons v vs => v.closed && vs.closed

end

/-- The initializers of a module and the constant expressions in its use lists. -/
structure Ir.ClosedConstants (P : Ir) : Prop where
  init : ∀ i C, (P.global i).init = some C → C.closed = true
  users : ∀ v u, u ∈ P.users v → u.isExpr = true → u.closed = true

theorem Vals.closed_mem {vs : Vals} (h : vs.closed = true) {v : Val} (hv : v ∈ vs.toList) :
    v.closed = true := by
  induction vs using Vals.rec (motive_1 := fun _ => True) with
  | nil => cases hv
  | cons w ws _ ih =>
      simp only [Vals.closed, Bool.and_eq_true] at h
      rcases List.mem_cons.mp hv with rfl | hv
      · exact h.1
      · exact ih h.2 hv
  | _ => trivial

theorem Val.closed_operand0 {v : Val} (h : v.closed = true) : v.operand0.closed = true := by
  unfold Val.operand0
  cases hops : v.exprOps with
  | nil => rfl
  | cons w ws =>
      cases v with
      | expr op t ops =>
          have hw : w ∈ ops.toList := by
            have heq : ops.toList = w :: ws := hops
            simp [heq]
          exact Vals.closed_mem (by simpa only [Val.closed] using h) hw
      | _ => cases hops

namespace Gen

theorem stripInit_closed {fuel : Nat} {C C' : Val} (h : C.closed = true)
    (hs : stripInit fuel C = .ok (.value C')) : C'.closed = true := by
  induction fuel generalizing C with
  | zero => cases hs
  | succ fuel ih =>
      unfold stripInit at hs
      split at hs
      · split at hs
        · exact ih (Val.closed_operand0 h) hs
        · cases hs
          exact h
        · cases hs
        · cases hs
        · cases hs
      · cases hs
        exact h

theorem stripBase_closed {fuel : Nat} {R R' : Val} {nested : Bool} (h : R.closed = true)
    (hs : stripBase fuel R = .ok (some (R', nested))) : R'.closed = true := by
  induction fuel generalizing R with
  | zero => cases hs
  | succ fuel ih =>
      unfold stripBase at hs
      split at hs
      · split at hs
        · exact ih (Val.closed_operand0 h) hs
        · cases hs
        · cases hs
          exact h
        · cases hs
      · cases hs
        exact h

/-- The nodes of constant expressions. -/
def ClosedNodes (g : Gen) : Prop :=
  ∀ N ∈ g.nodes, ∀ v, N.val = some v → v.isExpr = true → v.closed = true

/-- The values that may get a node while initializers are processed. -/
def initFresh : Set Slot := {a | ∃ v, a = .val v ∧ v.closed = true ∧ v.isNullPtr = false}

/-- What processing initializers does to the maps. -/
def Inits (g g' : Gen) : Prop := ClosedNodes g → ClosedNodes g' ∧ Extends ∅ initFresh g g'

instance : IsPreorder Gen Inits where
  refl g h := ⟨h, refl g⟩
  trans _ _ _ h h' hg := by
    obtain ⟨hg', hE⟩ := h hg
    obtain ⟨hg'', hE'⟩ := h' hg'
    exact ⟨hg'', IsTrans.trans _ _ _ hE hE'⟩

theorem ClosedNodes.push {g : Gen} (h : ClosedNodes g) {v : Val} (hv : v.closed = true) (k : Nat)
    (vals : Val → Option Nat) : ClosedNodes { g with
      nodes := g.nodes ++ [{ val := some v }], nextNode := k, valNode := vals } := by
  intro N hN w hw _
  rcases List.mem_append.mp hN with hN | hN
  · exact h N hN w hw ‹_›
  · rw [List.mem_singleton.mp hN] at hw
    exact Option.some.inj hw ▸ hv

theorem Inits.same {g g' : Gen} (hn : g'.nodes = g.nodes) (hs : g'.slots = g.slots) :
    Inits g g' := fun h => by
  refine ⟨?_, ⟨hn ▸ List.prefix_refl _, .of_eq hs⟩⟩
  unfold ClosedNodes
  rw [hn]
  exact h

section

variable {P : Ir} {fuel : Nat}

theorem StructsOnly.inits {g g' : Gen} (h : StructsOnly g g') : Inits g g' := by
  obtain ⟨-, -, info, T, k, rfl⟩ := h
  exact .same rfl (by funext a; cases a <;> rfl)

theorem cons_inits {t : ConsType} {dest src off : Nat} : Runs Inits (cons t dest src off) :=
  fun _ => wp_cons.mpr fun _ _ _ => .same rfl (by funext a; cases a <;> rfl)

theorem setInitDone_inits (n k : Nat) : Runs Inits (setInitDone n k) :=
  .modify fun _ => .same rfl (by funext a; cases a <;> rfl)

theorem gepNode_inits {v : Val} (hv : v.closed = true) (hnull : v.isNullPtr = false) :
    Runs Inits (gepNode v) := by
  intro g
  unfold gepNode
  rw [wp_bind]
  cases hn : g.valNode v with
  | some n =>
      rw [findValNode_some hn]
      intro hne
      rw [if_pos hne]
      exact (refl g : Inits g g)
  | none =>
      rw [findValNode_none hn]
      simp only [ne_eq, not_true, if_false, takeNode, bump, pushNode, setValNode, wp_bind, wp_get,
        wp_modify, wp_pure]
      intro hg
      have hslots := slots_valNode (g := { g with
        nodes := g.nodes ++ [{ val := some v }], nextNode := g.nextNode + 1 }) v g.nextNode
      have hfresh : Slot.val v ∈ initFresh := ⟨v, rfl, hv, hnull⟩
      have hnone : g.slots (.val v) = none := hn
      exact ⟨hg.push hv _ _, ⟨List.prefix_append _ _, hslots ▸ .enter hnone hfresh _⟩⟩

/-- The two functions on initializers, by induction on the depth of the recursion. -/
theorem globalInit_inits (hP : P.ClosedConstants) :
    (∀ onG C first, C.closed = true → Runs Inits (procGlobalInit P fuel onG C first)) ∧
      ∀ vnE, Runs Inits (procGepCe P fuel vnE) := by
  induction fuel with
  | zero => exact ⟨fun _ _ _ _ => .throw _, fun _ => .throw _⟩
  | succ fuel ih =>
      obtain ⟨ihI, ihE⟩ := ih
      constructor
      · intro onG C first hC
        have hdone : ∀ m : Nat, Runs Inits
            (if first then setInitDone onG m >>= fun _ => pure m else pure m) :=
          fun m => .ite (.bind (setInitDone_inits _ _) fun _ => .pure _) (.pure _)
        unfold procGlobalInit
        refine .bind (.lift _) fun _ => .bind .get fun g => ?_
        split
        · exact .pure _
        · intro g1
          rw [wp_bind, wp_lift]
          intro S hS
          split
          · exact hdone 1 g1
          · exact (Runs.bind cons_inits fun _ => hdone 1) g1
          · rename_i C'
            have hC' := stripInit_closed hC hS
            refine Runs.ite (hdone 1) (.ite (.ite ?_ (hdone 1)) ?_) g1
            · split
              · exact .bind (gepNode_inits hC' rfl) fun vnE => .bind (ihE vnE) fun _ =>
                  .bind cons_inits fun _ => hdone 1
              · exact .bind (.bind .get fun _ => .lift _) fun _ => .bind cons_inits fun _ => hdone 1
            · split
              · rename_i s fields
                refine .bind (.foldlM _ fun C'' hC'' off => ?_) fun off => hdone off
                have hmem : C''.closed = true :=
                  Vals.closed_mem (by simpa only [Val.closed] using hC') hC''
                exact .bind (ihI _ _ _ hmem) fun _ => .pure _
              · rename_i t elems
                refine .bind (.foldlM _ fun C'' hC'' off => ?_) fun off => hdone off
                exact ihI _ _ _ (Vals.closed_mem (by simpa only [Val.closed] using hC') hC'')
              · exact .throw _
      · intro vnE g
        unfold procGepCe
        rw [wp_bind, wp_get]
        split
        · rename_i t ops hnode
          by_cases hg : ClosedNodes g
          · -- the expression at a node is closed
            have hE : (Val.expr .gep t ops).closed = true := by
              have hlt : vnE < g.nodes.length := by
                by_contra hge
                simp [List.getD_eq_getElem?_getD, List.getElem?_eq_none (not_lt.mp hge)] at hnode
              rw [List.getD_eq_getElem?_getD, List.getElem?_eq_getElem hlt] at hnode
              exact hg _ (List.getElem_mem hlt) _ hnode rfl
            refine Runs.bind .get (fun _ => .ite (.pure _) (.bind (setInitDone_inits _ _) fun _ => ?_)) g
            intro g1
            rw [wp_bind, wp_lift]
            intro S hS
            split
            · exact cons_inits g1
            · rename_i R nested
              have hR := stripBase_closed (Val.closed_operand0 hE) hS
              rw [wp_bind, wp_lift]
              intro _ hnull
              have hnull : R.isNullPtr = false := by simpa using require_ok.mp hnull
              refine Runs.bind (gepNode_inits hR hnull) (fun vnR => ?_) g1
              refine .bind (fun g => (computeGepOff_only _ g).imp fun _ _ h => h.inits) fun off => ?_
              refine .bind cons_inits fun _ => .ite (ihE _) ?_
              split
              · split
                · rename_i C hC
                  refine .bind (.bind .get fun _ => .lift _) fun _ => ?_
                  exact .bind (ihI _ _ _ (hP.init _ C hC)) fun _ => .pure _
                · exact .pure _
              · exact .pure _
          · exact wp_true.imp fun _ _ _ h => absurd h hg
        · trivial

/-! ## The declarations make no other nodes -/

theorem ClosedNodes.same {g g' : Gen} (hn : g'.nodes = g.nodes) : Keeping ClosedNodes g g' :=
  fun h => by
    unfold ClosedNodes
    rw [hn]
    exact h

theorem ClosedNodes.append {g g' : Gen} {l : List GenNode} (hn : g'.nodes = g.nodes ++ l)
    (hl : ∀ N ∈ l, ∀ v, N.val = some v → v.isExpr = true → v.closed = true) :
    Keeping ClosedNodes g g' := by
  intro h N hN
  rw [hn] at hN
  rcases List.mem_append.mp hN with hN | hN
  · exact h N hN
  · exact hl N hN

theorem pushNodes_closed {v : Val} (hv : v.isExpr = false) (sizes : List Nat) (weak : Bool) :
    Runs (Keeping ClosedNodes) (pushNodes v sizes weak) :=
  .modify fun g => .append (l := sizes.map fun sz => ⟨some v, sz, weak⟩) rfl fun N hN w hw he => by
    obtain ⟨sz, -, rfl⟩ := List.mem_map.mp hN
    obtain rfl := Option.some.inj hw
    simp [hv] at he

theorem closed_declares : Declares (Keeping ClosedNodes) where
  push N hN := .modify fun g => .append (l := [N]) rfl fun M hM v hv he => by
    rw [List.mem_singleton.mp hM] at hv
    simp [hN v hv] at he
  pushes _ _ _ hv := pushNodes_closed hv _ _
  bump _ := .modify fun _ => .same rfl
  val _ _ _ := .modify fun _ => .same rfl
  obj _ _ _ := .modify fun _ => .same rfl
  cons _ _ _ _ := fun _ => wp_cons.mpr fun _ _ _ => .same rfl
  ret _ _ := .same rfl
  vararg _ _ := .same rfl
  args _ _ := .same rfl
  size g n sz := fun h N hN v hv => by
    obtain ⟨i, hi, rfl⟩ := List.mem_iff_getElem.mp hN
    rw [List.length_modify] at hi
    refine h g.nodes[i] (List.getElem_mem hi) v ?_
    rw [← hv, List.getElem_modify]
    split <;> rfl

theorem idFunc_closed (f : Nat) : Runs (Keeping ClosedNodes) (idFunc P fuel f) :=
  closed_declares.func f

theorem idGepCe_closed (hP : P.ClosedConstants) (v : Val) :
    Runs (Keeping ClosedNodes) (idGepCe P fuel v) := by
  induction fuel generalizing v with
  | zero => exact .throw _
  | succ fuel ih =>
      rw [idGepCe]
      refine .forM fun u hu => ?_
      split
      · exact ih _
      · rename_i t ops
        refine .bind (.lift _) fun _ => .bind .get fun _ => .bind (.lift _) fun _ => ?_
        refine .bind closed_declares.take fun _ => .bind (.modify fun g => ?_) fun _ => ?_
        · refine .append (l := [{ val := some (.expr .gep t ops) }]) rfl fun N hN w hw _ => ?_
          rw [List.mem_singleton.mp hN] at hw
          exact Option.some.inj hw ▸ hP.users v _ hu rfl
        · exact .bind (.modify fun _ => .same rfl) fun _ => .modify fun _ => .same rfl
      · exact .pure _

theorem idGlobal_closed (hP : P.ClosedConstants) (i : Nat) :
    Runs (Keeping ClosedNodes) (idGlobal P fuel i) := by
  have hD := closed_declares
  have hlast : ∀ vnG onG, Runs (Keeping ClosedNodes) (cons .addrOf vnG onG) :=
    fun _ _ => hD.cons _ _ _ _
  refine .bind (hD.push _ fun v hv => ?_) fun _ => .bind hD.take fun vnG => ?_
  · obtain rfl := Option.some.inj hv
    rfl
  refine .bind (hD.val _ _ rfl) fun _ => .bind .get fun g => .bind (.modify fun _ => .same rfl) fun _ => ?_
  split
  · refine .bind (fun g => (getStructSz_only P fuel _ g).imp fun _ _ h => ?_) fun sz => ?_
    · obtain ⟨-, -, info, T, k, rfl⟩ := h
      exact .same rfl
    · refine .bind (pushNodes_closed rfl _ _) fun _ => .bind (hD.bump _) fun _ => ?_
      exact .bind (idGepCe_closed hP _) fun _ => hlast _ _
  · refine .bind (pushNodes_closed rfl _ _) fun _ => .bind (hD.bump _) fun _ => ?_
    exact .ite (.bind (idGepCe_closed hP _) fun _ => hlast _ _) (hlast _ _)

end

end Gen

end PtrAnalysis
