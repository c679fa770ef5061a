import PtrAnalysis.Lib.TwoRuns
import PtrAnalysis.LcdStates
import PtrAnalysis.Process

/-!
# The counter between two cycle detections

Only `lcdDfs` looks at the number of the current search and at the stack, and `runLcd` sets the
number before. What the rest of the solver does is the same for all values of the two: it
commutes with `withLcd`.
-/

namespace PtrAnalysis

open Run

namespace Solver

variable {W : Type}

/-- The same state at another place of a search. -/
def withLcd (c : Nat) (stk : List Nat) (s : Solver W) : Solver W :=
  { s with currLcdDfs := c, lcdStk := stk }

end Solver

open Solver

section

variable {W : Type} [Worklist W] (M : Module) (c : Nat) (stk : List Nat) (s : Solver W)

/-! ## Edges and external functions -/

theorem pushNode_withLcd (n : Nat) :
    pushNode (s.withLcd c stk) n = withLcd c stk <$> pushNode s n :=
  bind_map fun _ => rfl

theorem pushIf_withLcd (chg : Bool) (n : Nat) :
    pushIf chg (s.withLcd c stk) n = withLcd c stk <$> pushIf chg s n :=
  ite_map Iff.rfl (fun _ => pushNode_withLcd c stk s n) fun _ => rfl

theorem addPtsPush_withLcd (n : Nat) (x : Finset Nat) :
    addPtsPush (s.withLcd c stk) n x = withLcd c stk <$> addPtsPush s n x :=
  pushIf_withLcd c stk (s.addPts n x) _ n

omit [Worklist W] in
theorem addCopyEdge_withLcd (src dest : Nat) :
    addCopyEdge (s.withLcd c stk) src dest = (addCopyEdge s src dest).map (withLcd c stk) id := by
  unfold addCopyEdge
  split
  · rfl
  · by_cases hold : dest ∈ (s.nodes src).copyTo
    · rw [if_pos hold]
      exact if_pos hold
    · rw [if_neg hold]
      exact if_neg hold

theorem handleExtAlloc_withLcd (I : CallSite) :
    handleExtAlloc (s.withLcd c stk) I = withLcd c stk <$> handleExtAlloc s I :=
  ite_map Iff.rfl (fun _ => rfl) fun _ => bind_map fun _ => bind_map fun _ =>
    bind_map fun v => addPtsPush_withLcd c stk s _ v

theorem handleExtArg_withLcd (I : CallSite) (iArg : Nat) :
    handleExtArg (s.withLcd c stk) I iArg = withLcd c stk <$> handleExtArg s I iArg := by
  refine ite_map Iff.rfl (fun _ => rfl) fun _ => bind_map fun vn => ?_
  cases I.args[iArg]? with
  | none => rfl
  | some src =>
      refine ite_map Iff.rfl (fun _ => ?_) fun _ => bind_map fun v => addPtsPush_withLcd c stk s _ v
      refine ite_map Iff.rfl (fun _ => rfl) fun _ => ?_
      dsimp only
      rw [addCopyEdge_withLcd]
      exact pushIf_withLcd c stk _ _ _

theorem handleExt_withLcd (f i : Nat) :
    handleExt M (s.withLcd c stk) f i = withLcd c stk <$> handleExt M s f i := by
  refine bind_map fun _ => ite_map Iff.rfl (fun _ => rfl) fun _ => ?_
  have halloc := handleExtAlloc_withLcd c stk { s with extSeen := insert (f, i) s.extSeen }
    (M.callSite i)
  have harg := handleExtArg_withLcd c stk { s with extSeen := insert (f, i) s.extSeen }
    (M.callSite i)
  dsimp only
  cases M.extType f with
  | alloc => exact halloc
  | noStructAlloc => exact halloc
  | realloc =>
      cases (M.callSite i).args[0]? with
      | none => rfl
      | some a => exact ite_map Iff.rfl (fun _ => halloc) fun _ => harg 0
  | lA0 => exact harg 0
  | lA1 => exact harg 1
  | lA2 => exact harg 2
  | lA8 => exact harg 8
  | _ => rfl

theorem handleExts_withLcd (f : Nat) (I : Finset Nat) :
    handleExts M (s.withLcd c stk) f I = withLcd c stk <$> handleExts M s f I :=
  foldlM_map (fun s i => handleExt_withLcd M c stk s f i) _ s

/-! ## Loads and stores -/

theorem lsEdge_withLcd (load : Bool) (dest src r : Nat) (t : Solver W × Bool) :
    lsEdge load dest src (t.map (withLcd c stk) id) r =
      Prod.map (withLcd c stk) id <$> lsEdge load dest src t r := by
  cases load with
  | true =>
      simp only [lsEdge, if_true, Prod.map, addCopyEdge_withLcd]
      rfl
  | false =>
      simp only [lsEdge, Bool.false_eq_true, if_false, Prod.map, addCopyEdge_withLcd]
      exact call_map (pushIf_withLcd c stk _ _ _) fun _ => rfl

theorem solveLsOffOne_withLcd (load : Bool) (dest src off rn : Nat) (I : Option (Finset Nat))
    (t : Solver W × Bool) : solveLsOffOne M load dest src off I (t.map (withLcd c stk) id) rn =
      Prod.map (withLcd c stk) id <$> solveLsOffOne M load dest src off I t rn := by
  cases I with
  | none => exact ite_map Iff.rfl (fun _ => rfl) fun _ => lsEdge_withLcd c stk load dest src _ t
  | some ins =>
      refine bind_map fun _ => ite_map Iff.rfl (fun _ => rfl) fun _ => ite_map Iff.rfl (fun _ => ?_)
        fun _ => ite_map Iff.rfl (fun _ => rfl) fun _ => lsEdge_withLcd c stk load dest src _ t
      rw [show ((t.1.withLcd c stk).nodes rn).val = (t.1.nodes rn).val from rfl]
      cases (t.1.nodes rn).val.bind Value.func? with
      | none => rfl
      | some f => exact call_map (handleExts_withLcd M c stk t.1 f ins) fun _ => rfl

theorem solveLsOff_withLcd (d : Finset Nat) (load : Bool) (dest src off : Nat)
    (I : Option (Finset Nat)) : solveLsOff M (s.withLcd c stk) d load dest src off I =
      withLcd c stk <$> solveLsOff M s d load dest src off I :=
  bind_map fun _ => ite_map Iff.rfl (fun _ => rfl) fun _ =>
    call_map (foldlM_map (T := Prod.map (withLcd c stk) id)
      (fun t rn => solveLsOffOne_withLcd M c stk load dest src off rn I t) _ (s, false))
      fun t => pushIf_withLcd c stk t.1 t.2 dest

/-! ## Visiting a node -/

theorem seenExts_withLcd (load : Bool) (off : Nat) (ins : Finset Nat) (rn : Nat) :
    seenExts M load off ins (s.withLcd c stk) rn = withLcd c stk <$> seenExts M load off ins s rn := by
  refine bind_map fun _ => ?_
  rw [show ((s.withLcd c stk).nodes rn).val = (s.nodes rn).val from rfl]
  cases (s.nodes rn).val.bind Value.func? with
  | none => rfl
  | some f => exact ite_map Iff.rfl (fun _ => handleExts_withLcd M c stk s f ins) fun _ => rfl

theorem solveLsPlain_withLcd (d : Finset Nat) (load : Bool) (dest src : Nat) :
    solveLsPlain (s.withLcd c stk) d load dest src =
      withLcd c stk <$> solveLsPlain s d load dest src :=
  call_map (foldlM_map (T := Prod.map (withLcd c stk) id)
    (fun t x => lsEdge_withLcd c stk load dest src (t.1.rep x) t) _ (s, false))
    fun t => pushIf_withLcd c stk t.1 t.2 dest

theorem solveLsHcd_withLcd (hcdRep : Nat) (load : Bool) (dest src : Nat) :
    solveLsHcd (s.withLcd c stk) hcdRep load dest src =
      withLcd c stk <$> solveLsHcd s hcdRep load dest src :=
  call_map (lsEdge_withLcd c stk load dest src hcdRep (s, false))
    fun t => pushIf_withLcd c stk t.1 t.2 dest

theorem handleLs_withLcd (hcdRep : Nat) (d : Finset Nat) (seen : List Constraint) (load : Bool)
    (C : Constraint) (I : Option (Finset Nat)) :
    handleLs M hcdRep d seen load C I (s.withLcd c stk) =
      Prod.map (withLcd c stk) id <$> handleLs M hcdRep d seen load C I s := by
  refine ite_map Iff.rfl (fun _ => ?_) fun _ => ite_map Iff.rfl (fun _ => ?_) fun _ =>
    ite_map Iff.rfl (fun _ => ?_) fun _ => ?_
  · cases I with
    | none => rfl
    | some ins =>
        exact call_map (foldlM_map (fun s rn => seenExts_withLcd M c stk s load C.off ins rn) _ s)
          fun _ => rfl
  · exact bind_map fun _ => bind_map fun _ =>
      call_map (solveLsHcd_withLcd c stk s hcdRep load C.dest C.src) fun _ => rfl
  · exact call_map (solveLsOff_withLcd M c stk s d load C.dest C.src C.off I) fun _ => rfl
  · exact bind_map fun _ => call_map (solveLsPlain_withLcd c stk s d load C.dest C.src) fun _ => rfl

theorem solveLsCons_withLcd (n hcdRep : Nat) (d : Finset Nat) (seen : List Constraint) (cid : Nat) :
    solveLsCons M (s.withLcd c stk) n hcdRep d seen cid =
      Prod.map (withLcd c stk) id <$> solveLsCons M s n hcdRep d seen cid := by
  let C0 := s.cplxCons.getD cid ⟨.load, 0, 0, 0⟩
  let C := rewrite s.toAnders C0
  let I := icallOf s.toAnders n C0 C
  refine bind_map fun _ => bind_map fun _ => bind_map fun _ => ?_
  exact handleLs_withLcd M c stk { s with cplxCons := s.cplxCons.set cid C, icallCons := I.2 } hcdRep
    d seen (decide (C0.type = .load)) C I.1

theorem solveGepCons_withLcd (n : Nat) (d : Finset Nat) (seen : List Constraint) (cid : Nat) :
    solveGepCons (s.withLcd c stk) n d seen cid =
      Prod.map (withLcd c stk) id <$> solveGepCons s n d seen cid := by
  let C := rewrite s.toAnders (s.cplxCons.getD cid ⟨.gep, 0, 0, 0⟩)
  refine bind_map fun _ => bind_map fun _ => bind_map fun _ => ite_map Iff.rfl (fun _ => rfl) fun _ =>
    bind_map fun _ => ?_
  exact call_map (addPtsPush_withLcd c stk { s with cplxCons := s.cplxCons.set cid C } C.dest
    (gepImage s.geps C.off d)) fun _ => rfl

omit [Worklist W] in
theorem consLoop_withLcd
    {one : Solver W → List Constraint → Nat → Run (Solver W × List Constraint × Bool)}
    (hone : ∀ s seen cid, one (s.withLcd c stk) seen cid =
      Prod.map (withLcd c stk) id <$> one s seen cid)
    (drop : Nat → Node → Node) (n : Nat) (cids : List Nat) :
    consLoop one drop n cids (s.withLcd c stk) = withLcd c stk <$> consLoop one drop n cids s := by
  refine call_map (foldlM_map (T := Prod.map (withLcd c stk) id) (fun t cid => ?_) _ (s, []))
    fun _ => rfl
  refine call_map (hone t.1 t.2 cid) fun u => ?_
  obtain ⟨s', seen, redundant⟩ := u
  cases redundant <;> rfl

theorem solvePropOne_withLcd (n : Nat) (d : Finset Nat) (t : Solver W × Finset Nat) (dest0 : Nat) :
    solvePropOne n d (t.map (withLcd c stk) id) dest0 =
      Prod.map (withLcd c stk) id <$> solvePropOne n d t dest0 := by
  obtain ⟨s, seen⟩ := t
  have hpush := fun s : Solver W => addPtsPush_withLcd c stk s (s.rep dest0) d
  refine bind_map fun _ => ite_map Iff.rfl (fun _ => rfl) fun _ =>
    call_map (S := withLcd c stk) ?_ fun _ => rfl
  by_cases hadd : (n, s.rep dest0) ∉ s.lcdEdges ∧ s.pts n ≠ ∅ ∧ s.pts n = s.pts (s.rep dest0)
  · rw [if_pos hadd]
    exact (congrArg (addPtsPush · _ d) (if_pos hadd)).trans (hpush { s with
      lcdEdges := insert (n, s.rep dest0) s.lcdEdges, lcdStarts := insert n s.lcdStarts })
  · rw [if_neg hadd]
    exact (congrArg (addPtsPush · _ d) (if_neg hadd)).trans (hpush s)

theorem solveProp_withLcd (n : Nat) (d : Finset Nat) :
    solveProp (s.withLcd c stk) n d = withLcd c stk <$> solveProp s n d :=
  call_map (foldlM_map (T := Prod.map (withLcd c stk) id)
    (fun t dest0 => solvePropOne_withLcd c stk n d t dest0) _ (s, ∅)) fun _ => rfl

omit [Worklist W] in
theorem collapseOne_withLcd (t : Solver W × Nat) (x0 : Nat) :
    collapseOne (t.map (withLcd c stk) id) x0 =
      Prod.map (withLcd c stk) id <$> collapseOne t x0 :=
  ite_map Iff.rfl (fun _ => bind_map fun _ => rfl) fun _ => rfl

omit [Worklist W] in
theorem collapse_withLcd (n : Nat) (d : Finset Nat) :
    collapse (s.withLcd c stk) n d = Prod.map (withLcd c stk) id <$> collapse s n d := by
  unfold collapse
  rw [show (s.withLcd c stk).hcdVar n = s.hcdVar n from rfl]
  cases s.hcdVar n with
  | none => rfl
  | some hv =>
      exact foldlM_map (T := Prod.map (withLcd c stk) id)
        (fun t x0 => collapseOne_withLcd c stk t x0) _ (s, s.rep hv)

theorem solveEdges_withLcd (n hcdRep : Nat) (d : Finset Nat) :
    solveEdges M (s.withLcd c stk) n hcdRep d =
      withLcd c stk <$> solveEdges M s n hcdRep d :=
  have hls := fun s seen cid => solveLsCons_withLcd M c stk s n hcdRep d seen cid
  call_map (consLoop_withLcd c stk s hls _ n _) fun s => call_map (consLoop_withLcd c stk s hls _ n _)
    fun s => call_map (consLoop_withLcd c stk s
      (fun s seen cid => solveGepCons_withLcd c stk s n d seen cid) _ n _)
      fun s => solveProp_withLcd c stk s n d

theorem startVisit_withLcd (n : Nat) : startVisit (s.withLcd c stk) n =
    Option.map (Prod.map (withLcd c stk) id) <$> startVisit s n :=
  ite_map Iff.rfl (fun _ => rfl) fun _ =>
    call_map (collapse_withLcd c stk (visitStart s n) n _) fun t =>
      call_map (pushNode_withLcd c stk t.1 t.2) fun _ => bind_map fun _ => rfl

theorem solveNode_withLcd (n : Nat) :
    solveNode M (s.withLcd c stk) n = withLcd c stk <$> solveNode M s n := by
  refine call_map (startVisit_withLcd c stk s n) fun t => ?_
  cases t with
  | none => rfl
  | some t => exact solveEdges_withLcd M c stk t.1 n t.2.1 t.2.2

/-- A visit leaves the stack alone. -/
theorem solveNode_stk {s s' : Solver W} {n : Nat} (h : solveNode M s n = .ok s') :
    s'.lcdStk = s.lcdStk := by
  obtain ⟨s1, rfl⟩ := eq_map_ok (solveNode_withLcd M s.currLcdDfs s.lcdStk s n) h
  rfl

/-! ## The main loop -/

/-- Two states between searches that differ in the number of the last search only. -/
def Twin {W : Type} (s s' : Solver W) : Prop := s.lcdStk = [] ∧ ∃ c, s' = s.withLcd c []

omit [Worklist W] in
theorem Twin.refl (hstk : s.lcdStk = []) : Twin s s :=
  ⟨hstk, s.currLcdDfs, by rw [← hstk]; rfl⟩

/-- Two iterations that end with such states. -/
inductive Loop.Twin : Loop W → Loop W → Prop where
  | done {s s' : Solver W} (h : PtrAnalysis.Twin s s') : Twin (.done s) (.done s')
  | more {s s' : Solver W} (h : PtrAnalysis.Twin s s') : Twin (.more s) (.more s')

theorem solveIter_twin {s s' : Solver W} (h : Twin s s') :
    Agree Loop.Twin (solveIter M s) (solveIter M s') := by
  obtain ⟨hstk, c, rfl⟩ := h
  have hsame : ∀ wl : W, PtrAnalysis.Twin { s with wl } { s.withLcd c [] with wl } :=
    fun wl => ⟨hstk, c, rfl⟩
  unfold solveIter
  dsimp only
  rw [show (s.withLcd c []).wl = s.wl from rfl]
  obtain ⟨swapped, wl⟩ := Worklist.swapIfEmpty s.wl
  dsimp only
  refine .ite Iff.rfl (fun _ => .ok (.done (hsame wl))) fun _ => ?_
  refine (Agree.refl (R := Eq) fun _ _ => rfl).bind fun t u htu => ?_
  subst htu
  obtain ⟨⟨n, p⟩, wl⟩ := t
  refine .ite Iff.rfl (fun _ => .ok (.more (hsame wl))) fun _ =>
    .ite Iff.rfl (fun _ => .ok (.more (hsame wl))) fun _ => ?_
  have hvisit : Agree PtrAnalysis.Twin (solveNode M { s with wl } n)
      (solveNode M { s.withLcd c [] with wl } n) :=
    .map (solveNode_withLcd M c [] { s with wl } n) fun s1 h1 =>
      ⟨(solveNode_stk M h1).trans hstk, c, rfl⟩
  refine hvisit.bind fun s1 s2 h12 => ?_
  obtain ⟨hstk1, c1, rfl⟩ := h12
  refine .ite Iff.rfl (fun _ => ?_) fun _ => .ok (.more ⟨hstk1, c1, rfl⟩)
  -- the search sets the number and starts from the same state
  have hsearch : runLcd (s1.withLcd c1 []) = runLcd s1 := by
    rw [← hstk1]
    rfl
  rw [hsearch]
  refine (Agree.refl (R := fun a b => a = b ∧ a.lcdStk = []) fun s2 h2 => ⟨rfl, runLcd_stk h2⟩).bind
    fun s2 s3 h23 => ?_
  obtain ⟨rfl, hstk2⟩ := h23
  exact .ok (.more (Twin.refl s2 hstk2))

theorem solveLoop_twin (k : Nat) {s s' : Solver W} (h : Twin s s') :
    Agree Loop.Twin (solveLoop M k s) (solveLoop M k s') := by
  induction k generalizing s s' with
  | zero => exact .ok (.more h)
  | succ k ih =>
      refine (solveIter_twin M h).bind fun l l' hl => ?_
      cases hl with
      | done h1 => exact .ok (.done h1)
      | more h1 => exact ih h1

theorem solveIn_twin (k : Nat) {s s' : Solver W} (h : Twin s s') :
    Agree Twin (solveIn M k s) (solveIn M k s') := by
  refine (solveLoop_twin M k h).bind fun l l' hl => ?_
  cases hl with
  | more h1 => exact .error .fuel
  | done h1 =>
      obtain ⟨hstk, c, rfl⟩ := h1
      refine (Agree.refl (R := fun _ _ => True) fun _ _ => trivial).bind fun _ _ _ => ?_
      exact .ok ⟨hstk, c, rfl⟩

end

end PtrAnalysis
