import PtrAnalysis.Clump
import PtrAnalysis.Dormant
import PtrAnalysis.Leftovers

/-!
# Runs one after another

Between two runs a process is `Idle`: the solver cleared its sets, except for the starts of the
next cycle detection, and the release at the start of the next run clears the members. Two
variables survive: the starts, which only `runLcd` clears, and the number of variables `sat2vec`
looks at, which is never set again. Without them a run is the one of a fresh process.
-/

namespace PtrAnalysis

open Run

/-! ## Between two runs -/

section

variable {W : Type}

/-- What a run leaves. -/
structure Process.Idle (p : Process W) : Prop where
  wl : p.solver.wl = none
  extNodes : p.solver.extFuncNodes = ∅
  extSet : p.solver.extFuncNodeSet = ∅
  funcSet : p.solver.funcNodeSet = ∅
  edges : p.solver.lcdEdges = ∅
  ids : p.solver.lcdDfsId = fun _ => none
  roots : p.solver.lcdRoots = ∅
  stk : p.solver.lcdStk = []
  offStk : p.off.dfsStk = []
  bits : p.fdd0Bits = 0 ∨ ∃ b, 0 < b ∧ p.fdd0Bits = b * 2 - 1

theorem Process.fresh_idle : (fresh : Process W).Idle :=
  ⟨rfl, rfl, rfl, rfl, rfl, rfl, rfl, rfl, rfl, .inl rfl⟩

/-- How many object nodes the module has, with the special nodes in front of them. -/
def objectNodes (J : Job) : Run Nat := do
  let (_, g) ← Gen.objConsId J.ir J.fuel .empty
  return Gen.lastObjNode g.nodes + 1

/-- The phases before the tables, which see of an idle process no more than of a fresh one. -/
def frontEnd (J : Job) (left : OffGraph) : Run (Gen × Anders × OffGraph) := do
  let (_, g) ← Gen.objConsId J.ir J.fuel .empty
  let g := preOptCleanup g
  let (last, g) ← Gen.clumpAddrTaken (J.entries g) g
  let (a, left) ← optimize J left
    (handOver J.ir g last (Process.fresh (W := W)).releaseMemory.solver.toAnders)
  return (g, a, left)

/-- The process behind the optimizations. -/
def Process.loaded (p : Process W) (t : Gen × Anders × OffGraph) : Process W :=
  { p.releaseMemory with
    gen := t.1
    off := t.2.2
    currModule := true
    extinfo := true
    solver := { p.solver with toAnders := t.2.1 } }

variable [Worklist W]

/-- `pts_init` and `solve_init` -/
def tables (J : Job) (lib : BddLib) (p : Process W) : Run (Process W × Solver W) := do
  let p ← ptsInitIn J lib p
  let s ← solveInitIn p
  return (p, s)

theorem prepare_eq {p : Process W} (hp : p.Idle) (J : Job) (lib : BddLib) :
    prepare J lib p = frontEnd (W := W) J p.off >>= fun t => tables J lib (p.loaded t) := by
  have hover : ∀ g last, handOver J.ir g last p.releaseMemory.solver.toAnders =
      handOver J.ir g last (Process.fresh (W := W)).releaseMemory.solver.toAnders := by
    intro g last
    unfold handOver
    simp only [Process.releaseMemory, Process.cleanup, runCleanup, hp.extNodes, hp.extSet, hp.funcSet]
    rfl
  let p1 : Process W := { p.releaseMemory with currModule := true, extinfo := true }
  have hgen : objConsIdIn J p1 = (fun t => { p1 with gen := t.2 }) <$>
      Gen.objConsId J.ir J.fuel .empty := by
    rw [← Gen.objConsId_released J.ir J.fuel p.gen.nextNode p.gen.maxStructSz p.gen.maxStruct]
    exact bind_map fun _ => rfl
  have hopt : ∀ g : Gen, consOpt J { p1 with gen := g } = (do
      let (last, g) ← (Gen.clumpAddrTaken (J.entries g) g : Run (Nat × Gen))
      let (a, left) ← optimize J p.off
        (handOver J.ir g last (Process.fresh (W := W)).releaseMemory.solver.toAnders)
      return p.loaded (g, a, left)) := by
    intro g
    simp only [← hover]
    rfl
  have hphases : prepare J lib p = (do
      let q ← objConsIdIn J p1
      let q ← consOpt J { q with gen := preOptCleanup q.gen }
      tables J lib q) := rfl
  rw [hphases]
  unfold frontEnd
  rw [hgen, bind_map_left]
  simp only [hopt, bind_assoc]
  rfl

/-! ## The start of the solver -/

/-- The number of variables that `sat2vec` looks at is not known yet or right. -/
def Process.Fits (p : Process W) (npts : Nat) : Prop :=
  p.fdd0Bits = 0 ∨ p.fdd0Bits = fddBits npts * 2 - 1

omit [Worklist W] in
theorem testBdd2vec_solver {q r : Process W} {lib : BddLib} {npts : Nat}
    (h : testBdd2vec lib npts q = .ok r) : r = { q with cache := r.cache, fdd0Bits := r.fdd0Bits } ∧
      (r.fdd0Bits = fddBits npts * 2 - 1 ∨ r.fdd0Bits = q.fdd0Bits) := by
  unfold testBdd2vec at h
  obtain ⟨-, h⟩ := require_bind_ok.mp h
  obtain ⟨-, h⟩ := inRange_bind_ok.mp h
  obtain ⟨t, -, h⟩ := bind_ok.mp h
  obtain ⟨-, h⟩ := require_bind_ok.mp h
  obtain ⟨-, h⟩ := require_bind_ok.mp h
  cases h
  exact ⟨rfl, ite_eq_or_eq ..⟩

omit [Worklist W] in
/-- `pts_init` changes the tables, not the statics of the solver. -/
theorem ptsInitIn_statics {J : Job} {lib : BddLib} {q r : Process W}
    (hnpts : 2 ≤ q.solver.lastObjNode + 1) (h : ptsInitIn J lib q = .ok r) :
    r.solver = { q.solver with toAnders := r.solver.toAnders } ∧
      ∃ u, testBdd2vec lib (q.solver.lastObjNode + 1) { q with
        nodeVars := List.replicate (q.solver.lastObjNode + 1) ∅, ptsDom := true } = .ok u ∧
        r.fdd0Bits = u.fdd0Bits ∧ r.off = q.off := by
  unfold ptsInitIn at h
  obtain ⟨-, h⟩ := require_bind_ok.mp h
  obtain ⟨v, -, h⟩ := bind_ok.mp h
  dsimp only at h
  rw [if_pos hnpts] at h
  obtain ⟨u, hu, h⟩ := bind_ok.mp h
  obtain ⟨m, -, h⟩ := bind_ok.mp h
  obtain ⟨a, -, h⟩ := bind_ok.mp h
  have hkept := (testBdd2vec_solver hu).1
  cases h
  refine ⟨?_, u, hu, rfl, ?_⟩
  · rw [hkept]
  · rw [hkept]

/-- The leftovers of `p` in what a fresh process prepares. -/
def Process.leftIn (p : Process W) (t : Process W × Solver W) : Process W × Solver W :=
  ({ t.1 with solver := { p.solver with toAnders := t.1.solver.toAnders } },
    { t.2 with currLcdDfs := p.solver.currLcdDfs, lcdStarts := p.solver.lcdStarts })

theorem tables_fits {p : Process W} (hp : p.Idle) (J : Job) (lib : BddLib)
    {t : Gen × Anders × OffGraph} (hnpts : 2 ≤ t.2.1.lastObjNode + 1)
    (hfit : p.Fits (t.2.1.lastObjNode + 1)) :
    tables J lib (p.loaded t) = p.leftIn <$> tables J lib (Process.fresh.loaded t) := by
  have hpts : ptsInitIn J lib (p.loaded t) =
      (fun r : Process W => { r with solver := { p.solver with toAnders := r.solver.toAnders } }) <$>
        ptsInitIn J lib (Process.fresh.loaded t) := by
    refine bind_map fun _ => bind_map fun v => ?_
    refine ite_map Iff.rfl (fun _ => ?_) fun h => absurd hnpts h
    refine call_map_ok (testBdd2vec_fits lib _ rfl rfl (.inl rfl) hfit) fun u hu => ?_
    rw [(testBdd2vec_solver hu).1]
    exact bind_map fun m => bind_map fun a => rfl
  refine call_map_ok hpts fun r hr => ?_
  have hstatics := (ptsInitIn_statics (q := Process.fresh.loaded t) hnpts hr).1
  refine call_map (S := fun s => { s with
    currLcdDfs := p.solver.currLcdDfs, lcdStarts := p.solver.lcdStarts }) ?_ fun _ => rfl
  refine bind_map fun _ => bind_map fun s => ?_
  rw [hstatics]
  dsimp only
  rw [hp.wl, hp.edges, hp.ids, hp.stk, hp.roots]
  rfl

theorem tables_misfits {p : Process W} (hp : p.Idle) {J : Job} {lib : BddLib}
    {t : Gen × Anders × OffGraph} {u : Process W × Solver W} (hnpts : 2 ≤ t.2.1.lastObjNode + 1)
    (h : tables J lib (p.loaded t) = .ok u) : p.Fits (t.2.1.lastObjNode + 1) := by
  obtain ⟨r, hr, -⟩ := bind_ok.mp h
  obtain ⟨-, q, hq, -⟩ := ptsInitIn_statics (q := p.loaded t) hnpts hr
  rcases hp.bits with h0 | ⟨b, hb, hbits⟩
  · exact .inl h0
  · have heq : b = fddBits (t.2.1.lastObjNode + 1) := by
      refine testBdd2vec_misfits ?_ hb ?_ hq
      · rfl
      · exact hbits
    exact .inr (heq ▸ hbits)

/-! ## A run after others -/

omit [Worklist W] in
theorem clumpAddrTaken_last {entries : List Slot} {g g' : Gen} {last : Nat}
    (h : Gen.clumpAddrTaken entries g = .ok (last, g')) : last = Gen.lastObjNode g.nodes := by
  have hwp : Act.Wp (Gen.clumpAddrTaken entries) (fun last _ => last = Gen.lastObjNode g.nodes) g := by
    unfold Gen.clumpAddrTaken
    rw [Act.wp_bind, Act.wp_get, Act.wp_bind]
    refine Act.wp_true.imp fun _ _ _ => ?_
    rw [Act.wp_bind, Act.wp_modify, Act.wp_pure]
  exact hwp.result h

omit [Worklist W] in
theorem frontEnd_objects {J : Job} {left : OffGraph} {t : Gen × Anders × OffGraph}
    (h : frontEnd (W := W) J left = .ok t) : objectNodes J = .ok (t.2.1.lastObjNode + 1) ∧
      2 ≤ t.2.1.lastObjNode + 1 ∧ t.2.2.dfsStk = [] := by
  unfold frontEnd at h
  obtain ⟨⟨_, g⟩, hg, h⟩ := bind_ok.mp h
  obtain ⟨⟨last, g'⟩, hclump, h⟩ := bind_ok.mp h
  obtain ⟨⟨a, o⟩, hopt, h⟩ := bind_ok.mp h
  cases h
  obtain ⟨hkept, hstk⟩ := (optimize_keeps J left _).result hopt
  have hhand : a.lastObjNode = last := hkept
  have hlast : last = Gen.lastObjNode g.nodes := clumpAddrTaken_last (g := preOptCleanup g) hclump
  dsimp only
  rw [hhand, hlast]
  refine ⟨?_, Nat.le_trans (by decide) (Gen.lastObjNode_ge g.nodes), hstk⟩
  rw [objectNodes, hg]
  rfl

/-- Two processes at the start of the main loop: the solver is about to replace the members it was
made from. -/
def SameStart (t u : Process W × Solver W) : Prop :=
  u.1 = { t.1 with solver := u.1.solver } ∧ Twin t.2 u.2

/-- Two processes behind a run, with the same nodes and points-to sets. -/
def SameEnd (q r : Process W) : Prop :=
  r = { q with solver := r.solver } ∧ Twin q.solver r.solver

/-- The process is `Idle` and holds nothing that the run of `J` would see. -/
def Process.CleanFor (p : Process W) (J : Job) : Prop :=
  p.solver.lcdStarts = ∅ ∧ ∀ npts, objectNodes J = .ok npts → p.Fits npts

omit [Worklist W] in
theorem frontEnd_left {left left' : OffGraph} (J : Job) (h : left.dfsStk = [])
    (h' : left'.dfsStk = []) : frontEnd (W := W) J left = frontEnd (W := W) J left' := by
  unfold frontEnd
  simp only [optimize_left J h h']

theorem tables_statics {p : Process W} {J : Job} {lib : BddLib} {t : Gen × Anders × OffGraph}
    {u : Process W × Solver W} (hnpts : 2 ≤ t.2.1.lastObjNode + 1)
    (h : tables J lib (p.loaded t) = .ok u) :
    u.2.lcdStarts = p.solver.lcdStarts ∧ u.2.lcdStk = p.solver.lcdStk ∧ u.1.off = t.2.2 ∧
      (u.1.fdd0Bits = fddBits (t.2.1.lastObjNode + 1) * 2 - 1 ∨ u.1.fdd0Bits = p.fdd0Bits) := by
  unfold tables at h
  obtain ⟨r, hr, h⟩ := bind_ok.mp h
  obtain ⟨s, hs, h⟩ := bind_ok.mp h
  cases h
  obtain ⟨hstatics, v, hv, hbits, hoff⟩ := ptsInitIn_statics (q := p.loaded t) hnpts hr
  unfold solveInitIn at hs
  obtain ⟨-, hs⟩ := require_bind_ok.mp hs
  obtain ⟨s1, -, hs⟩ := bind_ok.mp hs
  obtain ⟨-, hs⟩ := require_bind_ok.mp hs
  cases hs
  exact ⟨congrArg (·.lcdStarts) hstatics, congrArg (·.lcdStk) hstatics, hoff,
    hbits ▸ (testBdd2vec_solver hv).2⟩

theorem prepare_clean {p : Process W} (hp : p.Idle) {J : Job} (lib : BddLib) (hclean : p.CleanFor J) :
    Agree SameStart (prepare J lib .fresh) (prepare J lib p) := by
  rw [prepare_eq hp, prepare_eq Process.fresh_idle, frontEnd_left J hp.offStk Process.fresh_idle.offStk]
  refine (Agree.refl (R := fun t t' => t' = t ∧ frontEnd (W := W) J Process.fresh.off = .ok t)
    fun t ht => ⟨rfl, ht⟩).bind fun t t' htt' => ?_
  obtain ⟨rfl, ht⟩ := htt'
  obtain ⟨hobj, hnpts, -⟩ := frontEnd_objects ht
  refine .map (tables_fits hp J lib hnpts (hclean.2 _ hobj)) fun u hu => ⟨rfl, ?_⟩
  obtain ⟨hstarts, hstk, -, -⟩ := tables_statics hnpts hu
  have hnone : u.2.lcdStarts = ∅ := hstarts
  refine ⟨hstk, p.solver.currLcdDfs, ?_⟩
  rw [Process.leftIn, hclean.1, ← hnone, ← (show u.2.lcdStk = [] from hstk)]
  rfl

/-- A run that starts the main loop like another one ends like it. -/
theorem runOnModule_agree {J : Job} {lib : BddLib} {p q : Process W}
    (h : Agree SameStart (prepare J lib p) (prepare J lib q)) :
    Agree SameEnd (runOnModule J lib p) (runOnModule J lib q) := by
  refine h.bind fun t u htu => ?_
  obtain ⟨h1, h2⟩ := htu
  have hgen : u.1.gen = t.1.gen := by rw [h1]
  dsimp only
  rw [hgen]
  refine (solveIn_twin (J.ir.window t.1.gen) J.fuel h2).bind fun s s' hs => ?_
  obtain ⟨hstk, c, rfl⟩ := hs
  refine (Agree.refl (R := Eq) fun _ _ => rfl).bind fun a a' ha => ?_
  subst ha
  rw [h1]
  exact .ok ⟨rfl, hstk, c, rfl⟩

omit [Worklist W] in
theorem ptsCleanup_frame (a : Anders) :
    Spec (ptsCleanup a) (fun b => b = { a with toGraph := b.toGraph }) fun _ => True := by
  refine (spec_foldlM_keeps (P := fun t : Anders × List (Finset Nat × Nat) =>
    t.1 = { a with toGraph := t.1.toGraph }) (b := (a, [])) rfl fun i _ t ht => ?_).bind fun t ht => ht
  unfold ptsCleanupOne
  dsimp only
  split
  · change ({ t.1 with toGraph := _ } : Anders) = _
    rw [ht]
  · split
    · exact ht
    · split
      · exact ht
      · refine (spec_true _).bind fun u _ => ?_
        change ({ t.1 with toGraph := _ } : Anders) = _
        rw [ht]

theorem solveIn_ended {M : Module} {k : Nat} {s : Solver W} {r : Solver (Option W)}
    (hstk : s.lcdStk = []) (h : solveIn M k s = .ok r) : r.wl = none ∧ r.extFuncNodes = ∅ ∧
      r.extFuncNodeSet = ∅ ∧ r.funcNodeSet = ∅ ∧ r.lcdEdges = ∅ ∧ (r.lcdDfsId = fun _ => none) ∧
      r.lcdRoots = ∅ ∧ r.lcdStk = [] := by
  obtain ⟨r', hr', hstk', -⟩ := (solveIn_twin M k (Twin.refl s hstk)).result h
  unfold solveIn at h
  obtain ⟨l, -, h⟩ := bind_ok.mp h
  cases l with
  | more s1 => cases h
  | done s1 =>
      obtain ⟨_, -, h⟩ := bind_ok.mp h
      cases h
      exact ⟨rfl, rfl, rfl, rfl, rfl, rfl, rfl, hstk'⟩

theorem runOnModule_idle {p q : Process W} (hp : p.Idle) {J : Job} {lib : BddLib}
    (h : runOnModule J lib p = .ok q) : q.Idle := by
  unfold runOnModule at h
  obtain ⟨u, hu, h⟩ := bind_ok.mp h
  obtain ⟨r, hr, h⟩ := bind_ok.mp h
  obtain ⟨b, hb, h⟩ := bind_ok.mp h
  cases h
  rw [prepare_eq hp] at hu
  obtain ⟨t, ht, hu⟩ := bind_ok.mp hu
  obtain ⟨-, hnpts, hoff⟩ := frontEnd_objects ht
  obtain ⟨-, hstk, hoff', hbits⟩ := tables_statics hnpts hu
  obtain ⟨hwl, h1, h2, h3, hedges, hids, hroots, hstk'⟩ := solveIn_ended (hstk.trans hp.stk) hr
  have hframe := (ptsCleanup_frame _).result hb
  refine ⟨hwl, ?_, ?_, ?_, hedges, hids, hroots, hstk',
    (congrArg OffGraph.dfsStk hoff').trans hoff, ?_⟩
  · rw [hframe]
    exact h1
  · rw [hframe]
    exact h2
  · rw [hframe]
    exact h3
  · rcases hbits with hbits | hbits
    · exact .inr ⟨_, bitsFrom_ge _ 1 _, hbits⟩
    · rcases hp.bits with h0 | hb
      · exact .inl (hbits.trans h0)
      · exact .inr (hb.imp fun _ hb => ⟨hb.1, hbits.trans hb.2⟩)

/-- The states of a process after some runs. What its clients ask for only changes the cache. -/
inductive Process.Ran (lib : BddLib) : Process W → Prop where
  | fresh : Ran lib .fresh
  | run {p q : Process W} {J : Job} (hp : Ran lib p) (hrun : runOnModule J lib p = .ok q) :
      Ran lib q
  | asked {p : Process W} (hp : Ran lib p) (c : BvCache) : Ran lib { p with cache := c }

theorem Process.Ran.idle {lib : BddLib} {p : Process W} (h : p.Ran lib) : p.Idle := by
  induction h with
  | fresh => exact fresh_idle
  | run _ hrun ih => exact runOnModule_idle ih hrun
  | asked _ c ih => exact { ih with }

/-- The run of `J` in process `p` is the one in a fresh process: the main loop starts from the same
state, and the run stops for the same reason or ends with the same nodes and sets. -/
structure Process.Independent (lib : BddLib) (p : Process W) (J : Job) : Prop where
  start : Agree SameStart (prepare J lib .fresh) (prepare J lib p)
  ends : Agree SameEnd (runOnModule J lib .fresh) (runOnModule J lib p)

end

/-- A run depends on those before exactly through the starts they left for the next cycle detection
and through the number of variables that the first one of them fixed. -/
theorem runs_independent (W : Type) [Worklist W] (lib : BddLib) (p : Process W) (hp : p.Ran lib)
    (J : Job) : (p.CleanFor J → p.Independent lib J) ∧
      ((∃ t, prepare J lib (.fresh : Process W) = .ok t) → p.Independent lib J → p.CleanFor J) := by
  have hidle := hp.idle
  refine ⟨fun hclean => ?_, fun ⟨u, hu⟩ hind => ?_⟩
  · have hstart := prepare_clean hidle lib hclean
    exact ⟨hstart, runOnModule_agree hstart⟩
  · obtain ⟨u', hu', -, -, c, htwin⟩ := hind.start.result hu
    rw [prepare_eq hidle, frontEnd_left J hidle.offStk Process.fresh_idle.offStk] at hu'
    rw [prepare_eq Process.fresh_idle] at hu
    obtain ⟨t, ht, hu⟩ := bind_ok.mp hu
    obtain ⟨t', ht', hu'⟩ := bind_ok.mp hu'
    obtain rfl := Except.ok.inj (ht.symm.trans ht')
    obtain ⟨hobj, hnpts, -⟩ := frontEnd_objects ht
    have hstarts : u'.2.lcdStarts = u.2.lcdStarts := by rw [htwin]; rfl
    refine ⟨?_, fun npts h => ?_⟩
    · calc p.solver.lcdStarts
          _ = u'.2.lcdStarts := (tables_statics hnpts hu').1.symm
          _ = u.2.lcdStarts := hstarts
          _ = ∅ := (tables_statics hnpts hu).1
    · obtain rfl := Except.ok.inj (hobj.symm.trans h)
      exact tables_misfits hidle hnpts hu'

/-- A module with so many numbers and no code. -/
def numbers (n : Nat) : Job where
  ir := {
    structs := fun _ => []
    named := []
    funcs := []
    globals := List.replicate n ⟨.int, none, false⟩
    insts := fun _ => ⟨.ret, .void, []⟩
    parent := fun _ => (0, 0)
    users := fun _ => []
    extInfo := fun _ => none
    setOrder := id
    ulongBits := 64 }
  fuel := 20
  entries _ := (List.range n).flatMap fun i => [.val (.global i), .obj (.global i)]
  loadKeys _ := []
  storeKeys _ := []

/-- A library that leaves no variable open. -/
def BddLib.plain : BddLib where
  allsat _ := minterms
  id _ S := if S = ∅ then 0 else 2

/-- Two numbers need one variable more than none, and the run of the module with none fixed it. -/
theorem numbers_wider : ∃ p : Process (Lists true PrioHeap),
    runOnModule (numbers 0) .plain .fresh = .ok p ∧
    runOnModule (numbers 2) .plain p = .error (.assertion "bdd2vec doesn't work") := by
  have hfails : (runOnModule (numbers 0) .plain
      (.fresh : Process (Lists true PrioHeap))).toOption.any (fun p =>
        failsWith (runOnModule (numbers 2) .plain p) (.assertion "bdd2vec doesn't work")) = true := by
    decide +kernel
  obtain ⟨p, hp, hfails⟩ := any_ok hfails
  exact ⟨p, hp, failsWith_iff.mp hfails⟩

theorem numbers_alone : ∃ q, runOnModule (numbers 2) .plain
    (.fresh : Process (Lists true PrioHeap)) = .ok q := by
  have hfine : (runOnModule (numbers 2) .plain
      (.fresh : Process (Lists true PrioHeap))).toOption.any (fun _ => true) = true := by
    decide +kernel
  exact (any_ok hfine).imp fun _ h => h.1

/-- In a fresh process the module with two numbers is analysed, behind one with none it is not. -/
theorem runs_independent_wider : ∃ p : Process (Lists true PrioHeap),
    runOnModule (numbers 0) .plain .fresh = .ok p ∧
    (∃ q, runOnModule (numbers 2) .plain (.fresh : Process (Lists true PrioHeap)) = .ok q) ∧
    runOnModule (numbers 2) .plain p = .error (.assertion "bdd2vec doesn't work") ∧
    ¬ p.Independent .plain (numbers 2) := by
  obtain ⟨p, hp, hstop⟩ := numbers_wider
  obtain ⟨q, hq⟩ := numbers_alone
  refine ⟨p, hp, ⟨q, hq⟩, hstop, fun h => ?_⟩
  obtain ⟨r, hr, -⟩ := h.ends.result hq
  cases hstop.symm.trans hr

/-- One number needs no more variables than none. -/
theorem runs_independent_equal : ∃ p : Process (Lists true PrioHeap),
    runOnModule (numbers 0) .plain .fresh = .ok p ∧ p.Independent .plain (numbers 1) := by
  have hends : (runOnModule (numbers 0) .plain
      (.fresh : Process (Lists true PrioHeap))).toOption.any (fun p =>
        p.solver.lcdStarts = ∅ ∧ p.fdd0Bits = 3) = true := by
    decide +kernel
  obtain ⟨p, hp, hends⟩ := any_ok hends
  obtain ⟨hstarts, hbits⟩ := of_decide_eq_true hends
  refine ⟨p, hp, (runs_independent _ .plain p (.run .fresh hp) (numbers 1)).1
    ⟨hstarts, fun npts h => .inr ?_⟩⟩
  have hobj : objectNodes (numbers 1) = .ok 4 := rfl
  rw [hobj] at h
  cases h
  exact hbits

end PtrAnalysis
