import PtrAnalysis.Cache
import PtrAnalysis.Cleanup
import PtrAnalysis.ExtCalls
import PtrAnalysis.Factor
import PtrAnalysis.Hcd
import PtrAnalysis.ObjConsId

/-!
# The runs of one process

`runOnModule` is the whole analysis of a module: the generator, the optimizations, the
tables, the solver and the cleanup behind it. A process can run it more than once, on one
`Anders` object, and between two runs it keeps the members and the statics of three files.
`Process` holds them, and every phase here starts from what it finds there.

The members that the generator fills and those that the optimizer and the solver work on
are two records, and `handOver` passes on what they share. The library for decision
diagrams starts anew with every run. Statistics and the numbers of unnamed temporaries,
which only printing reads, are left out.
-/

namespace PtrAnalysis

open Run

/-- What the members and the static variables hold. -/
structure Process (W : Type) where
  /-- The members of the constraint generator. -/
  gen : Gen
  /-- The members and the statics of optimizer and solver. Between runs there is no worklist. -/
  solver : Solver (Option W)
  /-- The statics of `cons_opt.cpp`. -/
  off : OffGraph
  nodeVars : List (Finset Nat)
  /-- The cache of `util.cpp`. -/
  cache : BvCache
  /-- The number of variables used by both domains, without the last; 0 before it is known. -/
  fdd0Bits : Nat
  /-- Whether there is a module, an `ExtInfo`, a points-to domain and a map between domains. -/
  currModule : Bool
  extinfo : Bool
  ptsDom : Bool
  gep2pts : Bool

/-- A module to analyse, with a bound on the depth of recursions and the number of loop passes,
and the order in which the hash maps are walked: those from values to nodes and those of loads and
stores. -/
structure Job where
  ir : Ir
  fuel : Nat
  entries : Gen → List Slot
  loadKeys : List Constraint → List LsKey
  storeKeys : List Constraint → List LsKey

/-- The library for decision diagrams: the assignments of a set over a domain of so many variables,
and the ID of its diagram. -/
structure BddLib where
  allsat : Nat → Finset Nat → List Assignment
  id : Nat → Finset Nat → Nat

/-! ## Cleaning up -/

/-- Delete what the optimizations and solver won't need. -/
def preOptCleanup (g : Gen) : Gen :=
  { g with
    structInfo := fun _ => none
    gepCe := []
    globalInitDone := fun _ => none
    statRetNode := fun _ => none
    atArgs := ∅ }

namespace Process

variable {W : Type}

/-- `run_cleanup` -/
def cleanup (p : Process W) : Process W :=
  { p with
    gen := { preOptCleanup p.gen with constraints := [], indCalls := ∅, icallCons := [] }
    solver := { p.solver with toAnders := runCleanup p.solver.toAnders }
    currModule := false
    extinfo := false }

/-- Delete all remaining data. -/
def releaseMemory (p : Process W) : Process W :=
  let p := p.cleanup
  { p with
    gen := { p.gen with
      nodes := []
      valNode := fun _ => none
      objNode := fun _ => none
      retNode := fun _ => none
      varargNode := fun _ => none }
    solver := { p.solver with
      size := 0
      nodes := fun _ => {}
      forest := .discrete
      cascades := []
      geps := [] }
    cache := .empty
    ptsDom := false
    gep2pts := false }

/-- Initialize all data before starting the run. -/
def runInit (p : Process W) : Run (Process W) := do
  let p := p.releaseMemory
  require (p.extinfo = false) "!extinfo && !stats"
  return { p with currModule := true, extinfo := true }

/-- A process before its first run. -/
def fresh : Process W where
  gen := .empty
  solver := {
    size := 0, nodes := fun _ => {}, forest := .discrete, indCalls := ∅, hcdVar := fun _ => none
    cascades := [], lastObjNode := 0, constraints := [], cplxCons := [], icallCons := [], geps := []
    offMask := [], extFuncNodes := ∅, extFuncNodeSet := ∅, funcNodeSet := ∅
    wl := none, now := 0, nNodeRuns := 0, lastLcd := 0, currLcdDfs := 0, lcdEdges := ∅
    lcdStarts := ∅, lcdDfsId := fun _ => none, lcdStk := [], lcdRoots := ∅, extSeen := ∅ }
  off := {
    size := 0, nodes := fun _ => {}, forest := .discrete, main2off := fun _ => 0, firstVAL := 0
    firstREF := 0, nextPtrEq := 0, currDfs := 0, dfsStk := [], lbl2pe := [], gep2pe := [] }
  nodeVars := []
  cache := .empty
  fdd0Bits := 0
  currModule := false
  extinfo := false
  ptsDom := false
  gep2pts := false

end Process

/-! ## From the generator to the optimizer -/

/-- What optimizer and solver see of value `v` of node `n`. -/
def Ir.value (P : Ir) (n : Nat) (v : Val) : Value :=
  match v with
  | .func f => .func f
  | .arg _ i => .arg i (P.isPtr v)
  | _ => .other n (P.isPtr v)

/-- The nodes and constraints of the generator become those of `a`. -/
def handOver (P : Ir) (g : Gen) (last : Nat) (a : Anders) : Anders :=
  { a with
    size := g.nodes.length
    nodes := fun n =>
      let N := g.nodes.getD n {}
      { val := N.val.map (P.value n), objSz := N.objSz }
    forest := .discrete
    constraints := g.constraints
    indCalls := g.indCalls
    icallCons := g.icallCons
    lastObjNode := last }

/-! ## The optimizations -/

/-- Make the offline nodes; what is not made anew is as it was left. -/
def makeOffNodesIn (left : OffGraph) (a : Anders) : Run OffGraph := do
  let o ← makeOffNodes a
  return { o with
    nextPtrEq := left.nextPtrEq
    currDfs := left.currDfs
    dfsStk := left.dfsStk
    lbl2pe := left.lbl2pe
    gep2pe := left.gep2pe }

/-- `off_nodes.clear(); main2off.clear()` -/
def OffGraph.cleared (o : OffGraph) : OffGraph :=
  { o with size := 0, nodes := fun _ => {}, forest := .discrete, main2off := fun _ => 0 }

/-- `hvn`, with the statics it leaves. -/
def hvnIn (doUnion : Bool) (left : OffGraph) (a : Anders) : Run (Anders × OffGraph) := do
  let o ← makeOffNodesIn left a
  let o ← addOffEdges a false { o with nextPtrEq := a.size, gep2pe := [] }
  let o ← hvnSearch doUnion o
  let a ← mergePtrEq o a
  return (a, { o.cleared with lbl2pe := [], gep2pe := [] })

/-- `hr`, with the statics it leaves. -/
def hrIn (doUnion : Bool) (minDel : Nat) : Nat → OffGraph → Anders → Run (Anders × OffGraph)
  | 0, _, _ => .error .fuel
  | fuel + 1, left, a => do
      let (a', left) ← hvnIn doUnion left a
      if a.constraints.length - a'.constraints.length ≥ minDel then hrIn doUnion minDel fuel left a'
      else return (a', left)

/-- `hcd`, with the statics it leaves. -/
def hcdIn (left : OffGraph) (a : Anders) : Run (Anders × OffGraph) := do
  let o ← makeOffNodesIn left a
  let o ← addOffEdges a true o
  let (a, o) ← hcdSearch a (setMainNodes a.size o)
  return ({ a with
    constraints := a.constraints.foldl (rewriteCons a) []
    icallCons := a.icallCons.foldl (rewriteIcall a) [] }, o.cleared)

/-- `hr` goes on as long as it deletes so many constraints. -/
def hrMinDel : Nat := 1000

variable {W : Type}

/-- `obj_cons_id` -/
def objConsIdIn (J : Job) (p : Process W) : Run (Process W) := do
  require (p.currModule = true) "obj_cons_id called when not running on a module"
  let (_, gen) ← Gen.objConsId J.ir J.fuel p.gen
  return { p with gen }

/-- The optimizations behind `clump_addr_taken`: one pass of value numbering first, to reduce the
memory that the others use. -/
def optimize (J : Job) (left : OffGraph) (a : Anders) : Run (Anders × OffGraph) := do
  let (a, left) ← hvnIn false left a
  let (a, left) ← hrIn true hrMinDel J.fuel left a
  let (a, left) ← hcdIn left a
  let a ← factorLs (J.loadKeys a.constraints) (J.storeKeys a.constraints) a
  return (a, left)

/-- `cons_opt` -/
def consOpt (J : Job) (p : Process W) : Run (Process W) := do
  require (p.currModule = true) "cons_opt called when not running on a module"
  let (last, gen) ← Gen.clumpAddrTaken (J.entries p.gen) p.gen
  let (a, off) ← optimize J p.off (handOver J.ir gen last p.solver.toAnders)
  return { p with gen, off, solver := { p.solver with toAnders := a } }

/-! ## The tables -/

/-- Expand a set of two far members, to see that the variables are where `sat2vec` expects them. The
first expansion of the process fixes how many it looks at. -/
def testBdd2vec (lib : BddLib) (npts : Nat) (p : Process W) : Run (Process W) := do
  let bits := fddBits npts
  let b : Finset Nat := {npts - 1, npts / 3}
  require (b.card = 2) "test set has wrong size"
  let id := lib.id bits b
  let fdd0Bits := if p.fdd0Bits = 0 ∧ p.cache.find id = none then bits * 2 - 1 else p.fdd0Bits
  inRange (fdd0Bits ≤ bits * 2) "v"
  let (v, cache) ← bdd2vec ((fdd0Bits + 1) / 2) (lib.allsat bits b) p.cache id
  require (v.length = 2) "bdd2vec doesn't work"
  let v := v.insertionSort (· ≤ ·)
  require (v[0]? = some (npts / 3) ∧ v[1]? = some (npts - 1)) "bdd2vec doesn't work"
  return { p with cache, fdd0Bits }

/-- `pts_init` -/
def ptsInitIn (J : Job) (lib : BddLib) (p : Process W) : Run (Process W) := do
  require (p.currModule = true) "pts_init called when not running on a module"
  let s := p.solver.toAnders
  let npts := s.lastObjNode + 1
  let valid := validOff s.constraints
  let (maxSz, offNodes) ← offNodes valid (fun i => (s.nodes i).objSz) npts
  let p := { p with nodeVars := List.replicate npts ∅, ptsDom := true }
  let p ← if npts ≥ 2 then testBdd2vec lib npts p else .ok p
  let t ← makeMasks (fddBits npts) maxSz valid offNodes
  let a ← (List.range npts).foldlM (recordFunction (J.ir.window p.gen))
    { s with geps := t.geps, offMask := t.offMask }
  return { p with gep2pts := true, solver := { p.solver with toAnders := a } }

/-! ## The solver -/

/-- `solve_init`, and the counters that `solve` resets. What neither of them resets is as it was
left. -/
def solveInitIn [Worklist W] (p : Process W) : Run (Solver W) := do
  require (p.ptsDom = true) "solve_init called before pts_init"
  let s : Solver W ← solveInit p.solver.toAnders
  require p.solver.wl.isNone "!WL"
  return { s with
    currLcdDfs := p.solver.currLcdDfs
    lcdEdges := p.solver.lcdEdges
    lcdStarts := p.solver.lcdStarts
    lcdDfsId := p.solver.lcdDfsId
    lcdStk := p.solver.lcdStk
    lcdRoots := p.solver.lcdRoots }

/-- Only representatives that may be pointers have a points-to set. -/
def checkSolved (s : Anders) : Run Unit :=
  (List.range s.size).forM fun i =>
    if (s.nodes i).pointsTo = ∅ then .ok ()
    else do
      require (s.isRep i) "non-rep node has a points_to"
      require ((s.nodes i).nonptr = false) "non-pointer has a points_to"

/-- `solve`, with at most `k` iterations of the main loop and the statics it leaves. -/
def solveIn [Worklist W] (M : Module) (k : Nat) (s : Solver W) : Run (Solver (Option W)) := do
  match ← solveLoop M k s with
  | .more _ => .error .fuel
  | .done s => do
      checkSolved s.toAnders
      return { s with
        wl := none
        extFuncNodes := ∅
        extFuncNodeSet := ∅
        funcNodeSet := ∅
        lcdEdges := ∅
        lcdDfsId := fun _ => none
        lcdRoots := ∅
        extSeen := ∅ }

/-! ## A run -/

/-- Everything before the main loop of the solver. -/
def prepare [Worklist W] (J : Job) (lib : BddLib) (p : Process W) : Run (Process W × Solver W) := do
  let p ← p.runInit
  let p ← objConsIdIn J p
  let p ← consOpt J { p with gen := preOptCleanup p.gen }
  let p ← ptsInitIn J lib p
  let s ← solveInitIn p
  return (p, s)

def runOnModule [Worklist W] (J : Job) (lib : BddLib) (p : Process W) : Run (Process W) := do
  let (p, s) ← prepare J lib p
  let solver ← solveIn (J.ir.window p.gen) J.fuel s
  let p := Process.cleanup { p with solver, nodeVars := [] }
  let a ← ptsCleanup p.solver.toAnders
  return { p with solver := { p.solver with toAnders := a } }

end PtrAnalysis
