import PtrAnalysis.Saturated

/-!
# Deleted constraints

A load or store leaves the list of its node when an equal one was seen in the same visit, or
when the pointees of its node are collapsed into the target of an offline cycle. Its effect
stays: at every head of the main loop it holds for all pointees that count as processed.
Nobody has to visit a node again for that, so cascades do no harm here, and everything may
count as owed (`E = Set.univ`).
-/

namespace PtrAnalysis

open Run PtrAnalysis.Graph

section

variable {W : Type} [Worklist W] [LawfulWorklist W] {M : Module} {a : Anders} {s : Solver W}

/-- Every constraint of the list handed to the solver has its effect for the pointees that
were processed: loads and stores without offset an edge, GEPs the sums. -/
structure Effective (a : Anders) (s : Solver W) : Prop where
  load : ∀ C ∈ a.constraints, C.type = .load → C.off = 0 →
    ∀ o ∈ s.prev (s.rep C.src), o ≠ i2p → s.Edge o C.dest
  store : ∀ C ∈ a.constraints, C.type = .store → C.off = 0 →
    ∀ o ∈ s.prev (s.rep C.dest), o ≠ i2p → s.Edge C.src o
  gep : ∀ C ∈ a.constraints, C.type = .gep →
    ∀ o ∈ s.prev (s.rep C.src), C.off < (a.nodes o).objSz → o + C.off ∈ s.pts (s.rep C.dest)

theorem Intact.effective {b : Anders} {A : Set Nat} (h : Intact M b A s) (ha : a.NoTags)
    (ht : TablesReady M a b) : Effective a s := by
  have hmet : ∀ C ∈ a.constraints, C.complex = true → ∀ o ∈ s.prev (s.rep C.ptr),
      Met M b s C o := by
    intro C hC hc o ho
    refine h.sound.done C ?_ hc o ?_
    · rw [ht.frame]
      exact hC
    · rw [processed_empty]
      exact ho
  have htag : ∀ C, ¬ b.icallCons.Tagged C := (ha.plain ht).not_tagged
  refine ⟨fun C hC hty hoff o ho hi => ?_, fun C hC hty hoff o ho hi => ?_,
    fun C hC hty o ho hlt => ?_⟩
  · have hm := hmet C hC (by simp [Constraint.complex, hty]) o
      (by unfold Constraint.ptr; rw [hty]; exact ho)
    have hedge := hm.edges.load hty ⟨hi, .inl hoff⟩
    rwa [hoff] at hedge
  · have hm := hmet C hC (by simp [Constraint.complex, hty]) o
      (by unfold Constraint.ptr; rw [hty]; exact ho)
    have hedge := hm.edges.store hty ⟨hi, .inl hoff⟩ fun htg => absurd htg (htag C)
    rwa [hoff] at hedge
  · have hm := hmet C hC (by simp [Constraint.complex, hty]) o
      (by unfold Constraint.ptr; rw [hty]; exact ho)
    exact hm.sum ha ht hty (mem_validOff.mpr ⟨(ha.proper C hC).2.2 hty, C, hC, rfl⟩) hlt

/-- At every head of the main loop, whatever the targets of offline cycles, every constraint
has its effect, whether it was deleted or not. -/
theorem runSolver_effective (W : Type) [Worklist W] [LawfulWorklist W] (M : Module) (a : Anders)
    (ha : a.NoTags) (k : Nat) (s : Solver W) (hrun : runSolver W M k a = .ok (.more s)) :
    Effective a s := by
  obtain ⟨b, ht, hintact⟩ := (runSolver_intact ha Set.univ k).result hrun fun _ => rfl
  exact hintact.effective ha ht

end

/-- `p = &x; q = &y; *p = q; q = *p`, over the objects 3 and 4. -/
def storeAndLoad : Anders :=
  .initial 7 4 (fun n => { objSz := if n = 3 ∨ n = 4 then 1 else 0 })
    [⟨.addrOf, 5, 3, 0⟩, ⟨.addrOf, 6, 4, 0⟩, ⟨.store, 5, 6, 0⟩, ⟨.load, 6, 5, 0⟩]

/-- The pointees of `p` are to be collapsed with `q`. -/
def collapsedCycle : Anders :=
  { storeAndLoad with hcdVar := fun n => if n = 5 then some 6 else none }

theorem collapsedCycle_noTags : collapsedCycle.NoTags := by
  have h : storeAndLoad.NoCalls (.uniform false) := by
    refine Anders.initial_noCalls (by decide) fun n => ⟨rfl, rfl, fun hn => ?_⟩
    dsimp only at hn ⊢
    split
    · omega
    · rename_i h
      rw [if_neg h] at hn
      exact absurd rfl hn
  exact ⟨h.proper, h.node, h.rep, h.fresh, h.untagged, h.blocks, h.alone⟩

theorem runSolver_effective_deleted :
    ∃ s, runSolver (Lists true PrioHeap) (.uniform false) 1 collapsedCycle = .ok (.more s) ∧
      s.prev 5 = {3} ∧ (s.nodes 5).loadTo = ∅ ∧ (s.nodes 5).storeFrom = ∅ ∧
      Effective collapsedCycle s := by
  have hends : (runSolver (Lists true PrioHeap) (.uniform false) 1 collapsedCycle).toOption.any
      (fun l => l.isMore && decide (l.state.prev 5 = {3} ∧ (l.state.nodes 5).loadTo = ∅ ∧
        (l.state.nodes 5).storeFrom = ∅)) = true := by decide +kernel
  cases hrun : runSolver (Lists true PrioHeap) (.uniform false) 1 collapsedCycle with
  | error e =>
      rw [hrun] at hends
      cases hends
  | ok l =>
      rw [hrun] at hends
      cases l with
      | done s => cases hends
      | more s =>
          obtain ⟨hprev, hload, hstore⟩ := of_decide_eq_true hends
          exact ⟨s, rfl, hprev, hload, hstore,
            runSolver_effective _ _ _ collapsedCycle_noTags 1 s hrun⟩

end PtrAnalysis
