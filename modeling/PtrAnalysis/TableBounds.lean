import PtrAnalysis.Iterate
import PtrAnalysis.SolveInit
import PtrAnalysis.TablesSpec

/-!
# The offset tables are not overrun

The tables are as long as the largest object is, and are indexed by the offsets
in the constraints; nothing in the source relates the two. `OffsetsFit` is the
relation that decides: with it no access of `ptsInit` and of the solver leaves
the tables and no GEP function is empty, and without it `ptsInit` itself
overruns `off_nodes`.
-/

namespace PtrAnalysis

open Run

/-- An access outside the offset tables, or the assertion that guards one. -/
def TableFault (e : Stop) : Prop :=
  e ∈ [.outOfRange "off_nodes", .outOfRange "geps", .outOfRange "off_mask",
    .assertion "off < geps.size() && geps[off] != bddfalse"]

instance (e : Stop) : Decidable (TableFault e) := by
  unfold TableFault
  infer_instance

theorem permits_noFault : Permits fun e => ¬ TableFault e where
  assertion text h := by simpa [TableFault] using h
  nodeVars := by decide
  cplxCons := by decide
  copyTo := by decide

/-- The tables of `ptsInit` are big enough for every constraint. -/
theorem TablesReady.tablesFit {E : Stop → Prop} {M : Module} {a b : Anders}
    (h : TablesReady M a b) (hgep : ∀ C ∈ a.constraints, C.type = .gep → C.off ≠ 0) {s : Anders}
    (hcplx : s.cplxCons = b.constraints.filter Constraint.complex)
    (hmask : s.offMask = b.offMask) (hgeps : s.geps = b.geps) : TablesFit E s := by
  intro C hC
  rw [hcplx, h.frame] at hC
  have hmem : C ∈ a.constraints := List.mem_of_mem_filter hC
  have hvalid : C.off ≠ 0 → C.off ∈ validOff a.constraints := fun h0 =>
    mem_validOff.mpr ⟨h0, C, hmem, rfl⟩
  rw [hmask, hgeps]
  refine ⟨fun h0 => .inl (h.inside _ (hvalid h0)).1, fun htype => .inl ?_⟩
  have h0 := hgep C hmem htype
  refine ⟨(h.inside _ (hvalid h0)).2, ?_⟩
  -- some object is bigger than the offset, so the GEP function has a member
  obtain ⟨i, hi, hlt⟩ := h.fit C hmem h0
  rw [h.geps _ (hvalid h0)]
  have hi' := (h.mask _ (hvalid h0) i).mpr ⟨hi, hlt⟩
  exact Finset.Nonempty.ne_empty ⟨_, Finset.mem_image_of_mem _ hi'⟩

section

variable {W : Type} [Worklist W] [LawfulWorklist W] {M : Module} {E : Stop → Prop}

/-- Cycle detection changes neither the tables nor the constraints. -/
theorem lcdRules_tables (hE : Permits E) (hfuel : E .fuel) :
    LcdRules (W := W) E (fun s => TablesFit E s.toAnders) (fun _ s => TablesFit E s.toAnders)
      (fun _ _ => True) 0 where
  permits := hE
  fueled _ := .inl hfuel
  weaken h _ := h
  merge h _ := h.of_eq rfl rfl rfl
  push h _ hwl _ _ := by
    obtain ⟨wl, rfl⟩ := hwl
    exact h.of_eq rfl rfl rfl
  lcd hs h := by rw [hs.anders]; exact h
  lcdO hs h := by rw [hs.anders]; exact h
  edge _ _ := trivial
  rep _ _ _ := trivial
  move h _ _ _ := h.of_eq rfl rfl rfl
  ends := .inl hfuel

/-- Iterations of the main loop stay inside the tables. -/
theorem solveLoop_tables (hE : Permits E) (hfuel : E .fuel) :
    ∀ (k : Nat) {s : Solver W}, TablesFit E s.toAnders →
      Spec (solveLoop M k s) (fun _ => True) E
  | 0, _, _ => trivial
  | k + 1, s, h => by
      rw [solveLoop]
      have hiter : Spec (solveIter M s) (fun l => TablesFit E l.state.toAnders) E :=
        solveIter_rule hE (.inl hfuel) h (fun _ _ => h.of_eq rfl rfl rfl)
          (fun s1 n p hp _ => by
            obtain ⟨wl, rfl⟩ := hp.wl
            exact h.of_eq rfl rfl rfl)
          fun s1 n p s2 _ _ _ _ hfit => ⟨hfit, runLcd_keeps (lcdRules_tables hE hfuel) hfit (.inl hfuel)⟩
      refine hiter.bind fun l hl => ?_
      cases l with
      | done s' => trivial
      | more s' => exact solveLoop_tables hE hfuel k hl

/-- The solver stays inside the offset tables, however long it runs and whatever worklist it
uses, exactly if every offset is below the size of some object. A GEP by 0 is a copy to
`addCons`. -/
theorem runSolver_tables_iff (W : Type) [Worklist W] [LawfulWorklist W] (M : Module) (a : Anders)
    (hgep : ∀ C ∈ a.constraints, C.type = .gep → C.off ≠ 0) :
    (∀ k e, runSolver W M k a = .error e → ¬ TableFault e) ↔ a.OffsetsFit := by
  constructor
  · intro hsafe
    by_contra hfit
    have hspec := ptsInit_spec M a
    cases hp : ptsInit M a with
    | ok b => exact hfit (hspec.result hp).fit
    | error e =>
        have hrun : runSolver W M 0 a = .error e := by
          unfold runSolver
          rw [hp]
          rfl
        rcases hspec.stop hp with ⟨-, h⟩ | ⟨rfl, -⟩
        · exact hfit h
        · exact hsafe 0 _ hrun (by decide)
  · intro hfit k e hrun
    have hrun' : Spec (runSolver W M k a) (fun _ => True) fun e => ¬ TableFault e := by
      unfold runSolver
      refine ((ptsInit_spec M a).stops fun e he => ?_).bind fun b hb => ?_
      · rcases he with ⟨rfl, -⟩ | ⟨-, h⟩
        · decide
        · exact absurd hfit h
      · refine (solveInit_cplx (W := W) permits_noFault b).bind fun s hs => ?_
        exact solveLoop_tables permits_noFault (by decide) k
          (hb.tablesFit hgep hs.1 hs.2.1 hs.2.2.1)
    exact hrun'.stop hrun

end

/-- Function 3 is called through pointer 4, and node 5 takes the result of the
call: `p = &f; q = *p + 1`. -/
def callThrough (N : Node) : Anders :=
  .initial 6 3 (fun n => if n = 3 then N else {}) [⟨.addrOf, 4, 3, 0⟩, ⟨.load, 5, 4, 1⟩]

/-- A function of the program has a field for its return value. -/
theorem runSolver_tables_call :
    (callThrough { val := some (.func 0), objSz := 2 }).OffsetsFit ∧ ∀ k e,
      runSolver (Lists true PrioHeap) (.uniform false) k
        (callThrough { val := some (.func 0), objSz := 2 }) = .error e → ¬ TableFault e := by
  have hfit : (callThrough { val := some (.func 0), objSz := 2 }).OffsetsFit := by
    intro C hC h0
    refine ⟨3, by decide, ?_⟩
    revert C
    decide
  exact ⟨hfit, (runSolver_tables_iff (Lists true PrioHeap) (.uniform false) _ (by decide)).mpr hfit⟩

/-- The object of an external function has not, and if nothing else is bigger the
return value of the call is looked up behind the end of the tables. -/
theorem runSolver_tables_extern :
    (∀ C ∈ (callThrough { val := some (.func 0), objSz := 1 }).constraints, C.Accepted) ∧
    runSolver (Lists true PrioHeap) (.uniform true) 0
      (callThrough { val := some (.func 0), objSz := 1 }) = .error (.outOfRange "off_nodes") :=
  ⟨by decide, rfl⟩

end PtrAnalysis
