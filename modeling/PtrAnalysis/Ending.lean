import Mathlib.Algebra.BigOperators.Group.Finset.Basic
import Mathlib.Algebra.Order.BigOperators.Group.Finset
import PtrAnalysis.Bounds

/-!
# The solver comes to an end

No single quantity goes down in every iteration. A merge removes a
representative, though it may take back which facts were processed. A visit that
finds something new processes facts. A run of cycle detection uses up its
candidates, and without candidates pushes nothing. Everything else takes an entry
off the worklist. Compared in this order, every iteration makes progress.
-/

namespace PtrAnalysis

open Run PtrAnalysis.Graph

section

variable {W : Type} {M : Module} {sz : Nat} {s s' s'' : Solver W}

/-- How many facts have not been processed yet, of those that can ever be known. -/
def unprocessed (sz : Nat) (s : Solver W) : Nat :=
  ∑ n ∈ Finset.range sz, (Finset.range sz \ s.prev n).card

/-- Nodes were merged, or the same facts are processed. -/
def Settled (s s' : Solver W) : Prop :=
  s'.reps.card < s.reps.card ∨ s'.reps.card = s.reps.card ∧ ∀ n, s'.prev n = s.prev n

theorem Settled.refl (s : Solver W) : Settled s s := .inr ⟨rfl, fun _ => rfl⟩

theorem Settled.trans (h : Settled s s') (h' : Settled s' s'') : Settled s s'' := by
  rcases h with h | ⟨h, hp⟩
  · rcases h' with h' | ⟨h', -⟩
    · exact .inl (by omega)
    · exact .inl (by omega)
  · rcases h' with h' | ⟨h', hp'⟩
    · exact .inl (by omega)
    · exact .inr ⟨by omega, fun n => (hp' n).trans (hp n)⟩

/-- Nodes were merged, or facts were processed. -/
def Shrinks (sz : Nat) (s s' : Solver W) : Prop :=
  s'.reps.card < s.reps.card ∨
    s'.reps.card = s.reps.card ∧ unprocessed sz s' < unprocessed sz s

theorem Settled.unprocessed_eq (h : ∀ n, s'.prev n = s.prev n) :
    unprocessed sz s' = unprocessed sz s := by
  unfold unprocessed
  simp only [h]

theorem Shrinks.settled (h : Shrinks sz s s') (h' : Settled s' s'') : Shrinks sz s s'' := by
  rcases h with h | ⟨h, hu⟩
  · rcases h' with h' | ⟨h', -⟩
    · exact .inl (by omega)
    · exact .inl (by omega)
  · rcases h' with h' | ⟨h', hp⟩
    · exact .inl (by omega)
    · exact .inr ⟨by omega, by rw [Settled.unprocessed_eq hp]; exact hu⟩

theorem CollapseRun.settled {n : Nat} {d : Finset Nat} {t : Solver W × Nat}
    (hrun : CollapseRun n d s t) : Settled s t.1 := by
  rcases hrun with ⟨-, rfl⟩ | ⟨v, -, hc⟩
  · exact .refl s
  · refine hc.inv (P := fun t => Settled s t.1) (fun x0 _ c c' hR hc => ?_) (.refl s)
    cases hR with
    | skip _ => exact hc
    | merge _ hm => exact hc.trans (.inl hm.spec.2.2.2)

end

section

variable {W : Type} [Worklist W] [LawfulWorklist W] {M : Module} {sz : Nat} {s s' : Solver W}

theorem Visits.settled {D : Demand} (h : Visits M D s s') : Settled s s' := by
  exact .inr ⟨by rw [h.reps], h.prev⟩

/-- A visit that finds something new shrinks what is left to do. -/
theorem VisitRun.shrinks {n r : Nat} {d : Finset Nat} {s1 s2 t1 t2 t3 : Solver W}
    (h : s.Within M sz) (hstart : StartRun n s r d s1 s2)
    (hedges : VisitSteps M n r d s2 t1 t2 t3 s') : Shrinks sz s s' := by
  obtain ⟨D, hD⟩ := hedges.visits
  obtain ⟨wl, hwl⟩ := hstart.wl
  have hs2 : Settled s1 s2 := by
    rw [hwl]
    exact .refl s1
  refine Shrinks.settled ?_ (hstart.collapse.settled.trans (hs2.trans hD.settled))
  -- the whole set of the node counts as processed
  obtain ⟨o, ho⟩ := Finset.nonempty_iff_ne_empty.mpr hstart.ne
  rw [← hstart.new, Finset.mem_sdiff] at ho
  obtain ⟨hn, hlt⟩ := h.graph.pts n o ho.1
  have hprev : ∀ m, (visitStart s n).prev m = if m = n then s.pts n else s.prev m := by
    intro m
    simp only [Solver.prev, visitStart, touch, modify_nodes, Solver.pts]
    by_cases hm : m = n
    · simp [hm]
    · simp [hm]
  refine .inr ⟨rfl, Finset.sum_lt_sum (fun m _ => Finset.card_le_card ?_)
    ⟨n, Finset.mem_range.mpr hn, Finset.card_lt_card ?_⟩⟩
  · rw [hprev]
    split
    · rename_i hm
      exact Finset.sdiff_subset_sdiff (Finset.Subset.refl _) (hm ▸ h.graph.prev n)
    · exact Finset.Subset.refl _
  · rw [hprev, if_pos rfl]
    refine Finset.ssubset_iff_of_subset (Finset.sdiff_subset_sdiff (Finset.Subset.refl _)
      (h.graph.prev n)) |>.mpr ⟨o, Finset.mem_sdiff.mpr ⟨Finset.mem_range.mpr hlt, ho.2⟩, ?_⟩
    exact fun hin => (Finset.mem_sdiff.mp hin).2 ho.1

/-! ## Cycle detection -/

theorem permits_noFuel : Permits fun e => e ≠ .fuel where
  assertion _ _ := by simp
  nodeVars := by simp
  cplxCons := by simp
  copyTo := by simp

/-- The candidates of cycle detection apart, the state is within the range. -/
def SearchWithin (M : Module) (sz : Nat) (s : Solver W) : Prop :=
  ({ s with lcdStarts := ∅ } : Solver W).Within M sz

/-- Cycle detection stays within the range, and undoes no progress unless it merges. -/
theorem lcdRules_within (hsz : 0 < sz) (s0 : Solver W) :
    LcdRules (W := W) (· ≠ .fuel) (fun s => SearchWithin M sz s ∧ Settled s0 s)
      (fun _ s => SearchWithin M sz s ∧ Settled s0 s) (fun _ b => b < sz) sz where
  permits := permits_noFuel
  fueled h := .inr (h.1.graph.size ▸ hsz)
  weaken h _ := h
  merge {s n m r g} h hrun :=
    ⟨h.1.withGraph (hrun.within h.1.graph), h.2.trans (.inl hrun.spec.2.2.2)⟩
  push {s s' n} h _ hwl _ _ := by
    obtain ⟨wl, rfl⟩ := hwl
    exact ⟨⟨h.1.graph, h.1.confined, h.1.cons, h.1.starts⟩, h.2⟩
  lcd {s s'} hs h := by
    have hg : s'.toGraph = s.toGraph := by rw [hs.anders]
    refine ⟨⟨?_, ?_, ?_, h.1.starts⟩, ?_⟩
    · exact hg ▸ h.1.graph
    · exact hs.anders ▸ h.1.confined
    · exact hs.anders ▸ h.1.cons
    · unfold Settled Solver.prev
      rw [hg]
      exact h.2
  lcdO {s s' n} hs h := by
    have hg : s'.toGraph = s.toGraph := by rw [hs.anders]
    refine ⟨⟨?_, ?_, ?_, h.1.starts⟩, ?_⟩
    · exact hg ▸ h.1.graph
    · exact hs.anders ▸ h.1.confined
    · exact hs.anders ▸ h.1.cons
    · unfold Settled Solver.prev
      rw [hg]
      exact h.2
  edge {s a b} h hb := h.1.graph.copy a b hb
  rep {s a b} h hb _ := h.1.graph.rep b hb
  move {s n del add} h _ _ hadd := by
    have hpts : ∀ m, ((moveEdges s n del add).nodes m).pointsTo = (s.nodes m).pointsTo :=
      fun m => by rw [moveEdges_node]
    have hprev : ∀ m, ((moveEdges s n del add).nodes m).prevPointsTo = (s.nodes m).prevPointsTo :=
      fun m => by rw [moveEdges_node]
    have hg : (moveEdges s n del add).toGraph.Within sz := by
      refine ⟨h.1.graph.size, h.1.graph.rep, h.1.graph.hcd, fun m o ho => ?_, fun m => ?_,
        fun m e he => ?_⟩
      · rw [hpts] at ho
        exact h.1.graph.pts m o ho
      · rw [hpts, hprev]
        exact h.1.graph.prev m
      · rw [moveEdges_nodes] at he
        split at he
        · rcases Finset.mem_union.mp he with he | he
          · exact h.1.graph.copy n e (Finset.mem_sdiff.mp he).1
          · exact (hadd e he).1
        · exact h.1.graph.copy m e he
    exact ⟨h.1.withGraph hg, h.2.trans (.inr ⟨rfl, hprev⟩)⟩
  ends := .inr ⟨fun _ _ h => h, fun _ h => h.1.graph.size⟩

omit [LawfulWorklist W] in
/-- A run of cycle detection uses up the candidates, and does nothing without any. -/
theorem runLcd_starts (h : runLcd s = .ok s') :
    s'.lcdStarts = ∅ ∧ (s.lcdStarts = ∅ → s'.wl = s.wl) := by
  unfold runLcd at h
  dsimp only at h
  obtain ⟨s1, h1, h⟩ := bind_ok.mp h
  rw [require_bind_ok] at h
  obtain rfl := Except.ok.inj h.2
  refine ⟨rfl, fun hempty => ?_⟩
  rw [hempty, ascending_empty] at h1
  obtain rfl := Except.ok.inj h1
  rfl

theorem runLcd_within (h : s.Within M sz) (hsz : 0 < sz) :
    Spec (runLcd s) (fun s' => s'.Within M sz ∧ Settled s s' ∧ s'.lcdStarts = ∅ ∧
      (s.lcdStarts = ∅ → s'.wl = s.wl)) (· ≠ .fuel) := by
  have hsearch : SearchWithin M sz s :=
    ⟨h.graph, h.confined, h.cons, fun n hn => by simp at hn⟩
  refine ((runLcd_keeps (lcdRules_within hsz s) ⟨hsearch, .refl s⟩ (.inr h.starts)).and_ok
    fun _ => runLcd_starts).imp fun s' hs' => ?_
  obtain ⟨⟨hw, hset⟩, hempty, hwl⟩ := hs'
  exact ⟨⟨hw.graph, hw.confined, hw.cons, fun n hn => by rw [hempty] at hn; simp at hn⟩,
    hset, hempty, hwl⟩

/-! ## Progress -/

/-- What an iteration makes smaller, in the order of importance. -/
inductive Progress (sz : Nat) (s s' : Solver W) : Prop
  | shrunk (h : Shrinks sz s s')
  | searched (hs : Settled s s') (h : s'.lcdStarts.card < s.lcdStarts.card)
  | popped (hs : Settled s s') (hl : s'.lcdStarts = s.lcdStarts)
      (h : LawfulWorklist.len s'.wl < LawfulWorklist.len s.wl)

/-- The quantities that progress compares. -/
def work (sz : Nat) (s : Solver W) : Nat × Nat × Nat × Nat :=
  (s.reps.card, unprocessed sz s, s.lcdStarts.card, LawfulWorklist.len s.wl)

def LessWork : Nat × Nat × Nat × Nat → Nat × Nat × Nat × Nat → Prop :=
  Prod.Lex (· < ·) (Prod.Lex (· < ·) (Prod.Lex (· < ·) (· < ·)))

theorem lessWork_wf : WellFounded LessWork :=
  Nat.lt_wfRel.wf.prod_lex (Nat.lt_wfRel.wf.prod_lex (Nat.lt_wfRel.wf.prod_lex Nat.lt_wfRel.wf))

theorem Progress.less (h : Progress sz s s') : LessWork (work sz s') (work sz s) := by
  have hfirst : s'.reps.card < s.reps.card → LessWork (work sz s') (work sz s) :=
    fun h => .left _ _ h
  cases h with
  | shrunk h =>
      rcases h with h | ⟨hr, hu⟩
      · exact hfirst h
      · unfold work
        rw [hr]
        exact .right _ (.left _ _ hu)
  | searched hs h =>
      rcases hs with h | ⟨hr, hp⟩
      · exact hfirst h
      · unfold work
        rw [hr, Settled.unprocessed_eq hp]
        exact .right _ (.right _ (.left _ _ h))
  | popped hs hl h =>
      rcases hs with h | ⟨hr, hp⟩
      · exact hfirst h
      · unfold work
        rw [hr, Settled.unprocessed_eq hp, hl]
        exact .right _ (.right _ (.right _ h))

omit [Worklist W] [LawfulWorklist W] in
theorem touch_settled (s : Solver W) (n : Nat) : Settled s (touch s n) := by
  refine .inr ⟨rfl, fun m => ?_⟩
  simp only [Solver.prev, touch, modify_nodes]
  split
  · rename_i hm
    rw [hm]
  · rfl

/-- Every iteration of the main loop that is not the last makes progress. -/
theorem solveIter_progress (h : s.Within M sz) (hsz : 0 < sz) :
    Spec (solveIter M s) (fun l => ∀ s', l = .more s' → s'.Within M sz ∧ Progress sz s s')
      (· ≠ .fuel) := by
  have hpos : 0 < s.size := h.graph.size ▸ hsz
  have hfit : TablesFit (· ≠ .fuel) s.toAnders :=
    fun _ _ => ⟨fun _ => .inr (by simp), fun _ => .inr (by simp)⟩
  refine solveIter_rule permits_noFuel (.inr hpos) hfit (fun _ _ s' he => by cases he) ?_ ?_
  · rintro s1 n p hpop - s' ⟨rfl⟩
    obtain ⟨wl, rfl⟩ := hpop.wl
    exact ⟨⟨h.graph, h.confined, h.cons, h.starts⟩, .popped (.refl s) rfl hpop.len⟩
  · intro s1 n p s2 hpop _ _ hrun _
    obtain ⟨wl, rfl⟩ := hpop.wl
    have h1 : ({ s with wl } : Solver W).Within M sz :=
      ⟨h.graph, h.confined, h.cons, h.starts⟩
    have h2 := hrun.within hsz h1
    have hlcd := runLcd_within h2 hsz
    cases hrun with
    | idle _ =>
        have hset : Settled s (touch { s with wl } n) := touch_settled { s with wl } n
        refine ⟨?_, hlcd.imp ?_⟩
        · rintro s' ⟨rfl⟩
          exact ⟨h2, .popped hset rfl hpop.len⟩
        · rintro s3 ⟨h3, hset3, hempty, hwl⟩ s' ⟨rfl⟩
          refine ⟨h3, ?_⟩
          by_cases hc : s.lcdStarts = ∅
          · refine .popped (hset.trans hset3) (hempty.trans hc.symm) ?_
            rw [hwl hc]
            exact hpop.len
          · refine .searched (hset.trans hset3) ?_
            rw [hempty, Finset.card_empty]
            exact Finset.card_pos.mpr (Finset.nonempty_iff_ne_empty.mpr hc)
    | full hstart hedges =>
        have hshrinks1 := VisitRun.shrinks h1 hstart hedges
        have hshrinks : Shrinks sz s s2 := hshrinks1
        refine ⟨?_, hlcd.imp ?_⟩
        · rintro s' ⟨rfl⟩
          exact ⟨h2, .shrunk hshrinks⟩
        · rintro s3 ⟨h3, hset3, -, -⟩ s' ⟨rfl⟩
          exact ⟨h3, .shrunk (hshrinks.settled hset3)⟩

/-- However many iterations the loop makes, no cascade of merges and no search for
cycles runs on for ever. -/
theorem solveLoop_ends (hsz : 0 < sz) :
    ∀ (k : Nat) {s : Solver W}, s.Within M sz → Ends (solveLoop M k s)
  | 0, s, _ => ends_ok _
  | k + 1, s, h => by
      rw [solveLoop]
      refine (solveIter_progress h hsz).bind fun l hl => ?_
      cases l with
      | done s' => exact ends_ok _
      | more s' => exact solveLoop_ends hsz k (hl s' rfl).1

/-- After enough iterations the loop is left. -/
theorem solveLoop_done (hsz : 0 < sz) {s : Solver W} (h : s.Within M sz) :
    ∃ k, ∀ s', solveLoop M k s ≠ .ok (.more s') := by
  induction hw : work sz s using lessWork_wf.induction generalizing s with
  | _ w ih =>
      have hprogress := solveIter_progress h hsz
      cases hiter : solveIter M s with
      | error e =>
          refine ⟨1, fun s' hs' => ?_⟩
          rw [solveLoop, hiter] at hs'
          cases hs'
      | ok l =>
          cases l with
          | done s1 =>
              refine ⟨1, fun s' hs' => ?_⟩
              rw [solveLoop, hiter] at hs'
              cases hs'
          | more s1 =>
              obtain ⟨h1, hp⟩ := hprogress.result hiter s1 rfl
              obtain ⟨k, hk⟩ := ih _ (hw ▸ hp.less) h1 rfl
              refine ⟨k + 1, fun s' hs' => hk s' ?_⟩
              rw [solveLoop, hiter] at hs'
              exact hs'

end

/-- Over any program, any entries of `hcdVar` and any worklist, every merge and every
search for cycles comes to an end, and so does the main loop. -/
theorem runSolver_ends (W : Type) [Worklist W] [LawfulWorklist W] (M : Module) (a : Anders)
    (ha : a.Valid M) :
    (∀ k, Ends (runSolver W M k a)) ∧ ∃ k, ∀ s, runSolver W M k a ≠ .ok (.more s) := by
  have hsz : 0 < a.size := Nat.lt_of_le_of_lt (Nat.zero_le _) ha.last
  have htables : Spec (ptsInit M a) (TablesReady M a) (· ≠ .fuel) := by
    refine (ptsInit_spec M a).stops fun e he => ?_
    rcases he with ⟨rfl, -⟩ | ⟨rfl, -⟩
    · simp
    · simp
  have hinit : Spec (do let b ← ptsInit M a; solveInit (W := W) b)
      (fun s => s.Within M a.size) (· ≠ .fuel) := by
    refine htables.bind fun b hb => ?_
    have hfresh : b.Fresh := by
      rw [hb.frame]
      exact ha.fresh
    exact (solveInit_spec permits_noFuel hfresh).imp fun s hs => hs.within hb ha
  have hrun : ∀ k, runSolver W M k a =
      (do let b ← ptsInit M a; solveInit (W := W) b) >>= fun s => solveLoop M k s := by
    intro k
    unfold runSolver
    rw [bind_assoc]
  refine ⟨fun k => ?_, ?_⟩
  · rw [hrun]
    exact hinit.bind fun s hs => solveLoop_ends hsz k hs
  · cases hs : (do let b ← ptsInit M a; solveInit (W := W) b) with
    | error e =>
        refine ⟨0, fun s hs' => ?_⟩
        rw [hrun, hs] at hs'
        cases hs'
    | ok s =>
        obtain ⟨k, hk⟩ := solveLoop_done (M := M) hsz (hinit.result hs)
        refine ⟨k, fun s' hs' => hk s' ?_⟩
        rw [hrun, hs] at hs'
        exact hs'

/-- Two pointers in an offline cycle, `p = &o; q = *p; *p = q`, over nodes 4 and 5. -/
def offlineCycle : Anders :=
  { Anders.initial 6 3 (fun n => if n = 3 then { objSz := 1 } else {})
      [⟨.addrOf, 4, 3, 0⟩, ⟨.load, 5, 4, 0⟩, ⟨.store, 4, 5, 0⟩] with
    hcdVar := fun n => if n = 4 then some 5 else none }

theorem offlineCycle_valid : offlineCycle.Valid (.uniform false) := by
  refine ⟨⟨by decide, by decide, by decide, by decide, fun x hx => hx, ?_,
    Finset.Subset.refl _, fun i vn h => (by cases h)⟩, fun n => ?_⟩
  · intro n h hh
    simp only [offlineCycle] at hh
    split at hh
    · rw [← Option.some.inj hh]
      decide
    · cases hh
  · simp only [offlineCycle, Anders.initial]
    split <;> exact ⟨rfl, rfl, rfl, rfl, rfl, rfl⟩

theorem runSolver_ends_cycle :
    (∀ k, Ends (runSolver (Lists true PrioHeap) (.uniform false) k offlineCycle)) ∧
    ∃ k, ∀ s, runSolver (Lists true PrioHeap) (.uniform false) k offlineCycle ≠ .ok (.more s) :=
  runSolver_ends _ _ _ offlineCycle_valid

end PtrAnalysis
