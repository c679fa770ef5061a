import PtrAnalysis.Visit
import PtrAnalysis.LcdRule

/-!
# Iterations of the main loop

`solveIter_rule` splits an iteration into its cases - nothing left to do, a
discarded entry, a visit with or without cycle detection behind it - so that an
invariant of the loop is proved case by case. `solveInit_spec` does the same for
the state the loop starts in.
-/

namespace PtrAnalysis

open Run

variable {W : Type} [Worklist W] [LawfulWorklist W] {M : Module} {E : Stop → Prop}

def Loop.state : Loop W → Solver W
  | .done s => s
  | .more s => s

def Loop.isMore : Loop W → Bool
  | .more _ => true
  | .done _ => false

/-- The state after the entry `(n, p)` was taken off the worklist. -/
structure Popped (s s' : Solver W) (n p : Nat) : Prop where
  wl : ∃ wl, s' = { s with wl }
  keeps : ∀ m q, (m, q) ≠ (n, p) → LawfulWorklist.Mem s.wl m q → LawfulWorklist.Mem s'.wl m q
  len : LawfulWorklist.len s'.wl < LawfulWorklist.len s.wl

theorem solveIter_rule (hE : Permits E) {s : Solver W} (hf : Fueled E s.toGraph)
    (ht : TablesFit E s.toAnders) {R : Loop W → Prop}
    (hdone : ∀ wl, (∀ n p, ¬ LawfulWorklist.Mem s.wl n p ∧ ¬ LawfulWorklist.Mem wl n p) →
      R (.done { s with wl }))
    (hskip : ∀ s1 n p, Popped s s1 n p →
      (s1.isRep n = false ∨ Worklist.usesPrio W = true ∧ p < (s1.nodes n).vtime) → R (.more s1))
    (hvisit : ∀ s1 n p s2, Popped s s1 n p → s1.isRep n = true →
      (Worklist.usesPrio W = true → (s1.nodes n).vtime ≤ p) → VisitRun M n s1 s2 →
      TablesFit E s2.toAnders → R (.more s2) ∧ Spec (runLcd s2) (fun s3 => R (.more s3)) E) :
    Spec (solveIter M s) R E := by
  unfold solveIter
  dsimp only
  split
  · rename_i hend
    have hempty : ∀ n p, ¬ LawfulWorklist.Mem s.wl n p := fun n p =>
      LawfulWorklist.swap_done hend.1 hend.2
    exact hdone _ fun n p => ⟨hempty n p, fun hm => hempty n p (LawfulWorklist.swap_mem.mp hm)⟩
  · cases hp : Worklist.pop (Worklist.swapIfEmpty s.wl).2 with
    | error e => exact hE.list (LawfulWorklist.pop_stop hp)
    | ok t =>
        obtain ⟨⟨n, p⟩, wl⟩ := t
        have hpop : Popped s { s with wl } n p := by
          refine ⟨⟨wl, rfl⟩, fun m q hne hm => ?_, ?_⟩
          · exact LawfulWorklist.pop_keeps hp hne (LawfulWorklist.swap_mem.mpr hm)
          · exact Nat.lt_of_lt_of_eq (LawfulWorklist.pop_len hp) (LawfulWorklist.swap_len s.wl)
        change Spec (if ¬ _ then _ else _) R E
        split
        · rename_i hrep
          exact hskip _ n p hpop (.inl (by simpa using hrep))
        · rename_i hrep
          split
          · rename_i hold
            exact hskip _ n p hpop (.inr hold)
          · rename_i hold
            refine (solveNode_run (M := M) hE { s with wl } n hf (ht.of_eq rfl rfl rfl)).bind fun s2 ⟨hrun, hfit⟩ => ?_
            obtain ⟨hmore, hlcd⟩ := hvisit _ n p s2 hpop (by simpa using hrep)
              (fun hu => Nat.le_of_not_lt fun hlt => hold ⟨hu, hlt⟩) hrun hfit
            split
            · exact hlcd.bind fun s3 h3 => h3
            · exact hmore

end PtrAnalysis
