import PtrAnalysis.Tables
import PtrAnalysis.Worklist

/-!
# The solver

`solve.cpp`, function by function, over any worklist `W`. A visit of a node
collapses its pointees into the target of its offline cycle if it has one, goes
over the constraints that dereference it and propagates the new part of its
points-to set along its copy edges; constraints are rewritten in place to
representatives and deleted when they became redundant. Lazy cycle detection
(`runLcd`) merges the cycles of the copy graph now and then.

An assertion of the source is a `require` with its text. A node that is merged
away while its own edge set is walked leaves the cursor dangling; `lcdDfs` stops
there, where the source runs into the assertion behind the loop.
-/

namespace PtrAnalysis

open Run

structure Solver (W : Type) extends Anders where
  wl : W
  /-- The sequence number of the current node visit. -/
  now : Nat
  nNodeRuns : Nat
  lastLcd : Nat
  currLcdDfs : Nat
  /-- The copy edges across which identical points-to sets were found. -/
  lcdEdges : Finset (Nat × Nat)
  lcdStarts : Finset Nat
  lcdDfsId : Nat → Option Nat
  lcdStk : List Nat
  lcdRoots : Finset Nat
  /-- The indirect external calls that have been handled. -/
  extSeen : Finset (Nat × Nat)

/-- `get_node_var`, an access to `node_vars`. -/
def nodeVar (s : Anders) (n : Nat) : Run (Finset Nat) := do
  inRange (n < s.lastObjNode + 1) "node_vars"
  return {n}

namespace Solver

variable {W : Type}

def pts (s : Solver W) (n : Nat) : Finset Nat := (s.nodes n).pointsTo

def prev (s : Solver W) (n : Nat) : Finset Nat := (s.nodes n).prevPointsTo

/-- Change the graph part of the state. -/
def onGraph (s : Solver W) (f : Graph → Graph) : Solver W :=
  { s with toGraph := f s.toGraph }

def modify (s : Solver W) (n : Nat) (f : Node → Node) : Solver W :=
  s.onGraph (·.modify n f)

/-- `D->points_to |= x` -/
def addPts (s : Solver W) (n : Nat) (x : Finset Nat) : Solver W :=
  s.modify n fun N => { N with pointsTo := N.pointsTo ∪ x }

end Solver

section

variable {W : Type} [Worklist W]

/-- `WL->push(n, nodes[n]->vtime)` -/
def pushNode (s : Solver W) (n : Nat) : Run (Solver W) := do
  let wl ← Worklist.push s.wl n (s.nodes n).vtime
  return { s with wl }

def pushIf (chg : Bool) (s : Solver W) (n : Nat) : Run (Solver W) :=
  if chg then pushNode s n else .ok s

/-- Add `x` to the points-to set of `n`, and push `n` if that changed it. -/
def addPtsPush (s : Solver W) (n : Nat) (x : Finset Nat) : Run (Solver W) :=
  pushIf (¬ x ⊆ s.pts n) (s.addPts n x) n

/-! ## Initialization -/

/-- One constraint of the list goes into the graph. -/
def solveInitCons (s : Anders) (C : Constraint) : Run Anders := do
  let dest := s.rep C.dest
  let src := s.rep C.src
  let ncplx := s.cplxCons.length
  match C.type with
  | .addrOf =>
      require (src < s.lastObjNode + 1) "src < npts"
      let v ← nodeVar s src
      return { s with toGraph := s.toGraph.modify dest fun N =>
        { N with pointsTo := N.pointsTo ∪ v } }
  | .copy =>
      require (src ≠ dest) "src != dest"
      return { s with toGraph := s.toGraph.modify src fun N =>
        { N with copyTo := insert dest N.copyTo } }
  | .load =>
      return { s with
        toGraph := s.toGraph.modify src fun N => { N with loadTo := insert ncplx N.loadTo }
        cplxCons := s.cplxCons ++ [C] }
  | .store =>
      return { s with
        toGraph := s.toGraph.modify dest fun N => { N with storeFrom := insert ncplx N.storeFrom }
        cplxCons := s.cplxCons ++ [C] }
  | .gep =>
      return { s with
        toGraph := s.toGraph.modify src fun N => { N with gepTo := insert ncplx N.gepTo }
        cplxCons := s.cplxCons ++ [C] }

/-- Start the worklist with `i` if it points to something and has outgoing
edges. -/
def solveInitPush (s : Solver W) (i : Nat) : Run (Solver W) := do
  if ¬ s.isRep i then return s
  let s := s.modify i fun N => { N with vtime := 0 }
  let N := s.nodes i
  if N.pointsTo = ∅ then return s
  if N.copyTo = ∅ ∧ N.loadTo = ∅ ∧ N.storeFrom = ∅ ∧ N.gepTo = ∅ then return s
  let wl ← Worklist.push s.wl i 0
  return { s with wl }

/-- The state of the solver behind `ptsInit`, before anything is solved. -/
def startState (W : Type) [Worklist W] (a : Anders) : Solver W :=
  { a with
    wl := Worklist.create a.size
    now := 1, nNodeRuns := 0, lastLcd := 0, currLcdDfs := 0
    lcdEdges := ∅, lcdStarts := ∅, lcdDfsId := fun _ => none
    lcdStk := [], lcdRoots := ∅, extSeen := ∅ }

/-- Build the constraint graph and the initial worklist. The merges before this
point do not count for the history of cascades. -/
def solveInit (a : Anders) : Run (Solver W) := do
  let a ← a.constraints.foldlM solveInitCons { a with cplxCons := [] }
  let s : Solver W :=
    { a with
      constraints := []
      cascades := []
      wl := Worklist.create a.size
      now := 1, nNodeRuns := 0, lastLcd := 0, currLcdDfs := 0
      lcdEdges := ∅, lcdStarts := ∅, lcdDfsId := fun _ => none
      lcdStk := [], lcdRoots := ∅, extSeen := ∅ }
  let s ← (List.range a.size).foldlM solveInitPush s
  return { s with wl := (Worklist.swapIfEmpty s.wl).2 }

/-! ## Edges -/

/-- Add the copy edge from `src` to `dest` and copy the entire points-to set.
Returns whether the points-to set of `dest` changed. -/
def addCopyEdge (s : Solver W) (src dest : Nat) : Solver W × Bool :=
  if src = i2p ∨ dest = i2p ∨ src = dest then (s, false)
  else if dest ∈ (s.nodes src).copyTo then (s, false)
  else
    let s1 := s.modify src fun N => { N with copyTo := insert dest N.copyTo }
    (s1.addPts dest (s.pts src), decide (¬ s.pts src ⊆ s.pts dest))

/-! ## External functions -/

/-- The entry of `val_node` or `obj_node`, which must exist and not be 0. -/
def getNode (entry : Option Nat) (missing zero : String) : Run Nat := do
  match entry with
  | none => .error (.assertion missing)
  | some n =>
      require (n ≠ 0) zero
      return n

/-- Point the caller's copy of the return value to its object. -/
def handleExtAlloc (s : Solver W) (I : CallSite) : Run (Solver W) := do
  if ¬ I.isPtr then return s
  let vn ← getNode I.valNode "Value has no node" "val_node map has a 0 entry"
  let onD ← getNode I.objNode "Value has no obj node" "obj_node map has a 0 entry"
  let v ← nodeVar s.toAnders onD
  addPtsPush s (s.rep vn) v

/-- The return value is argument `iArg`. -/
def handleExtArg (s : Solver W) (I : CallSite) (iArg : Nat) : Run (Solver W) := do
  if ¬ I.isPtr then return s
  let vn ← getNode I.valNode "Value has no node" "val_node map has a 0 entry"
  let vnD := s.rep vn
  match I.args[iArg]? with
  | none => return s
  | some src =>
    if src.isPtr then
      let vnS := s.rep (src.valNode.getD 0)
      if vnS = 0 then return s
      let (s, chg) := addCopyEdge s vnS vnD
      pushIf chg s vnD
    else
      let v ← nodeVar s.toAnders i2p
      addPtsPush s vnD v

/-- Add the edges for the indirect call `i` of external function `f`. A type not
handled here only goes on the list of unsupported calls that is printed. -/
def handleExt (M : Module) (s : Solver W) (f i : Nat) : Run (Solver W) := do
  require (M.isExt f) "extinfo->is_ext(F)"
  if (f, i) ∈ s.extSeen then return s
  let s := { s with extSeen := insert (f, i) s.extSeen }
  let I := M.callSite i
  match M.extType f with
  | .alloc | .noStructAlloc => handleExtAlloc s I
  | .realloc =>
      match I.args[0]? with
      | none => return s
      | some a => if a.isNull then handleExtAlloc s I else handleExtArg s I 0
  | .lA0 => handleExtArg s I 0
  | .lA1 => handleExtArg s I 1
  | .lA2 => handleExtArg s I 2
  | .lA8 => handleExtArg s I 8
  | _ => return s

/-- Handle one external function for every call in `I`. -/
def handleExts (M : Module) (s : Solver W) (f : Nat) (I : Finset Nat) : Run (Solver W) :=
  (ascending I).foldlM (fun s i => handleExt M s f i) s

/-! ## Loads and stores -/

/-- The offset of an indirect call's return value or argument. -/
def icallOffOk (load : Bool) (off : Nat) : Prop :=
  (load = true ∧ off = 1) ∨ (load = false ∧ off ≥ 2)

instance (load : Bool) (off : Nat) : Decidable (icallOffOk load off) := by
  unfold icallOffOk
  infer_instance

/-- A store of an indirect call is not made into a non-pointer argument. -/
def skipsParam (s : Anders) (r : Nat) : Bool :=
  match (s.nodes r).val with
  | some V => !V.isPtr
  | none => false

/-- The edge of a load or store for the node `r` it accesses; the flag says
whether the points-to set of the destination of a load changed. -/
def lsEdge (load : Bool) (dest src : Nat) (t : Solver W × Bool) (r : Nat) :
    Run (Solver W × Bool) := do
  let (s, chg) := t
  if load then
    let (s, c) := addCopyEdge s r dest
    return (s, chg || c)
  else
    let (s, c) := addCopyEdge s src r
    return (← pushIf c s r, chg)

/-- One pointee `rn` in `solveLsOff`. -/
def solveLsOffOne (M : Module) (load : Bool) (dest src off : Nat) (I : Option (Finset Nat))
    (t : Solver W × Bool) (rn : Nat) : Run (Solver W × Bool) := do
  let (s, chg) := t
  match I with
  | none =>
      -- only an indirect call looks at functions
      if rn ∈ s.funcNodeSet then return (s, chg)
      lsEdge load dest src t (s.rep (rn + off))
  | some ins =>
      require (icallOffOk load off) "wrong offset for icall retval or arg"
      if rn ∉ s.funcNodeSet then return (s, chg)
      if rn ∈ s.extFuncNodeSet then
        match (s.nodes rn).val.bind Value.func? with
        | none => return (s, chg)
        | some f => return (← handleExts M s f ins, chg)
      if load = false ∧ skipsParam s.toAnders (s.rep (rn + off)) then return (s, chg)
      lsEdge load dest src t (s.rep (rn + off))

/-- The pointees a load or store with offset looks at: those big enough, and for
an indirect call all external functions. -/
def offPointees (s : Anders) (d : Finset Nat) (off : Nat) (I : Option (Finset Nat)) : Finset Nat :=
  let om := s.offMask.getD off ∅
  d ∩ if I.isSome then om ∪ s.extFuncNodes else om

/-- Solve a load or store with offset, of an indirect call if `I` is given. -/
def solveLsOff (M : Module) (s : Solver W) (d : Finset Nat) (load : Bool)
    (dest src off : Nat) (I : Option (Finset Nat)) : Run (Solver W) := do
  inRange (off < s.offMask.length) "off_mask"
  let m := offPointees s.toAnders d off I
  if m = ∅ then return s
  let (s, chg) ← (ascending m).foldlM (solveLsOffOne M load dest src off I) (s, false)
  pushIf chg s dest

/-- The calls a constraint of node `n` belongs to, and the map after its entry
was moved from `C0` to the rewritten constraint `C`. -/
def icallOf (s : Anders) (n : Nat) (C0 C : Constraint) :
    Option (Finset Nat) × IcallCons :=
  if n ∈ s.indCalls then
    match s.icallCons.find C0 with
    | none => (none, s.icallCons)
    | some ins =>
        if C.dest ≠ C0.dest ∨ C.src ≠ C0.src then
          let m := (s.icallCons.erase C0).add C ins
          (m.find C, m)
        else (some ins, s.icallCons)
  else (none, s.icallCons)

/-- The external functions among the pointees of a constraint that was already
seen. -/
def seenExts (M : Module) (load : Bool) (off : Nat) (ins : Finset Nat) (s : Solver W)
    (rn : Nat) : Run (Solver W) := do
  require (icallOffOk load off) "wrong offset for icall retval or arg"
  match (s.nodes rn).val.bind Value.func? with
  | none => return s
  | some f => if M.isExt f then handleExts M s f ins else return s

/-- A load or store without offset adds an edge for each pointee. -/
def solveLsPlain (s : Solver W) (d : Finset Nat) (load : Bool) (dest src : Nat) :
    Run (Solver W) := do
  let (s, chg) ← (ascending d).foldlM (fun t x => lsEdge load dest src t (t.1.rep x)) (s, false)
  pushIf chg s dest

/-- The edge of a load or store whose pointees were collapsed into `hcdRep`. -/
def solveLsHcd (s : Solver W) (hcdRep : Nat) (load : Bool) (dest src : Nat) :
    Run (Solver W) := do
  let (s, chg) ← lsEdge load dest src (s, false) hcdRep
  pushIf chg s dest

/-- Constraint `C` rewritten to the representatives of its nodes. -/
def rewrite (s : Anders) (C : Constraint) : Constraint :=
  { C with dest := s.rep C.dest, src := s.rep C.src }

/-- Handle the rewritten load or store `C`, part of the calls `I`, given the part
`d` of the points-to set of its node that is new. Returns the constraints seen so
far in this visit and whether this one became redundant. -/
def handleLs (M : Module) (hcdRep : Nat) (d : Finset Nat) (seen : List Constraint) (load : Bool)
    (C : Constraint) (I : Option (Finset Nat)) (s : Solver W) :
    Run (Solver W × List Constraint × Bool) := do
  if C ∈ seen then
    match I with
    | none => return (s, seen, true)
    | some ins =>
        let s ← (ascending d).foldlM (seenExts M load C.off ins) s
        return (s, seen, true)
  let seen := C :: seen
  if hcdRep ≠ 0 ∧ C.off = 0 then
    require (I = none) "ind. call cons. has no offset"
    require (s.isRep hcdRep) "nodes[hcd_rep]->is_rep()"
    return (← solveLsHcd s hcdRep load C.dest C.src, seen, true)
  if C.off ≠ 0 then
    return (← solveLsOff M s d load C.dest C.src C.off I, seen, false)
  require (I = none) "!I"
  return (← solveLsPlain s d load C.dest C.src, seen, false)

/-- Rewrite and handle the load or store with index `cid` of node `n`. -/
def solveLsCons (M : Module) (s : Solver W) (n hcdRep : Nat) (d : Finset Nat)
    (seen : List Constraint) (cid : Nat) : Run (Solver W × List Constraint × Bool) := do
  inRange (cid < s.cplxCons.length) "cplx_cons"
  let C0 := s.cplxCons.getD cid ⟨.load, 0, 0, 0⟩
  let load := decide (C0.type = .load)
  require (load = true ∨ C0.type = .store) "load || C.type == store_cons"
  let C := rewrite s.toAnders C0
  require (C.ptr = n) (if load then "src == n" else "dest == n")
  let (I, icallCons) := icallOf s.toAnders n C0 C
  handleLs M hcdRep d seen load C I { s with cplxCons := s.cplxCons.set cid C, icallCons }

/-- Handle the GEP with index `cid` of node `n`. -/
def solveGepCons (s : Solver W) (n : Nat) (d : Finset Nat) (seen : List Constraint)
    (cid : Nat) : Run (Solver W × List Constraint × Bool) := do
  inRange (cid < s.cplxCons.length) "cplx_cons"
  let C0 := s.cplxCons.getD cid ⟨.gep, 0, 0, 0⟩
  require (C0.type = .gep) "C.type == gep_cons"
  require (s.rep C0.src = n) "get_node_rep(C.src) == n"
  let C := rewrite s.toAnders C0
  let s := { s with cplxCons := s.cplxCons.set cid C }
  if C ∈ seen then return (s, seen, true)
  let seen := C :: seen
  require (C.off < s.geps.length ∧ s.geps.getD C.off ∅ ≠ ∅)
    "off < geps.size() && geps[off] != bddfalse"
  let s ← addPtsPush s C.dest (gepImage s.geps C.off d)
  return (s, seen, false)

/-- Go over one of the three constraint lists of node `n`, deleting from it what
became redundant. -/
def consLoop (one : Solver W → List Constraint → Nat → Run (Solver W × List Constraint × Bool))
    (drop : Nat → Node → Node) (n : Nat) (cids : List Nat) (s : Solver W) : Run (Solver W) := do
  let (s, _) ← cids.foldlM (fun (t : Solver W × List Constraint) cid => do
    let (s, seen, redundant) ← one t.1 t.2 cid
    return (if redundant then s.modify n (drop cid) else s, seen)) (s, [])
  return s

/-! ## Propagation -/

/-- Propagate `d` along the copy edge from `n` to `dest0`; `seen` are the
destinations already served. -/
def solvePropOne (n : Nat) (d : Finset Nat) (t : Solver W × Finset Nat) (dest0 : Nat) :
    Run (Solver W × Finset Nat) := do
  let (s, seen) := t
  require (dest0 ≠ n) "copy self-loop not removed"
  let dest := s.rep dest0
  if dest = n ∨ dest ∈ seen then return (s, seen)
  let s := if (n, dest) ∉ s.lcdEdges ∧ s.pts n ≠ ∅ ∧ s.pts n = s.pts dest then
      { s with lcdEdges := insert (n, dest) s.lcdEdges, lcdStarts := insert n s.lcdStarts }
    else s
  let s ← addPtsPush s dest d
  return (s, insert dest seen)

def solveProp (s : Solver W) (n : Nat) (d : Finset Nat) : Run (Solver W) := do
  let (s, _) ← (ascending (s.nodes n).copyTo).foldlM (solvePropOne n d) (s, ∅)
  return s

/-! ## Visiting a node -/

/-- Merge one pointee into the target of the offline cycle. -/
def collapseOne (t : Solver W × Nat) (x0 : Nat) : Run (Solver W × Nat) := do
  let (s, hcdRep) := t
  let x := s.rep x0
  if x ≠ hcdRep ∧ x ≠ i2p then
    let (g, r) ← mergeNodes s.size s.toGraph hcdRep x
    return ({ s with toGraph := g }, r)
  return (s, hcdRep)

/-- If there is an offline cycle `(*n, hv)`, merge everything in `d` with `hv`.
Returns the representative, 0 without a cycle. -/
def collapse (s : Solver W) (n : Nat) (d : Finset Nat) : Run (Solver W × Nat) :=
  match s.hcdVar n with
  | none => .ok (s, 0)
  | some hv => (ascending d).foldlM collapseOne (s, s.rep hv)

/-- The constraint loops of a visit, and the propagation behind them. -/
def solveEdges (M : Module) (s : Solver W) (n hcdRep : Nat) (d : Finset Nat) :
    Run (Solver W) := do
  let s ← consLoop (fun s seen cid => solveLsCons M s n hcdRep d seen cid)
    (fun cid N => { N with loadTo := N.loadTo.erase cid }) n (ascending (s.nodes n).loadTo) s
  let s ← consLoop (fun s seen cid => solveLsCons M s n hcdRep d seen cid)
    (fun cid N => { N with storeFrom := N.storeFrom.erase cid }) n
    (ascending (s.nodes n).storeFrom) s
  let s ← consLoop (fun s seen cid => solveGepCons s n d seen cid)
    (fun cid N => { N with gepTo := N.gepTo.erase cid }) n (ascending (s.nodes n).gepTo) s
  solveProp s n d

/-- A visit of `n` starts. -/
def touch (s : Solver W) (n : Nat) : Solver W :=
  { s with nNodeRuns := s.nNodeRuns + 1, now := s.now + 1 }.modify n
    fun N => { N with vtime := s.now }

/-- Everything `n` points to counts as processed from now on. -/
def visitStart (s : Solver W) (n : Nat) : Solver W :=
  (touch s n).modify n fun N => { N with prevPointsTo := N.pointsTo }

/-- The state in which a visit of `n` starts its constraint loops, with the
representative of the collapsed pointees and the new part of the points-to set;
none if there is nothing new. -/
def startVisit (s : Solver W) (n : Nat) : Run (Option (Solver W × Nat × Finset Nat)) := do
  let d := s.pts n \ s.prev n
  if d = ∅ then return none
  let (s, hcdRep) ← collapse (visitStart s n) n d
  let s ← pushNode s hcdRep
  require (s.isRep n ∨ s.rep n = hcdRep) "nodes[n]->is_rep() || get_node_rep(n) == hcd_rep"
  return some (s, hcdRep, d)

def solveNode (M : Module) (s : Solver W) (n : Nat) : Run (Solver W) := do
  match ← startVisit s n with
  | none => return touch s n
  | some (s, hcdRep, d) => solveEdges M s n hcdRep d

/-! ## Lazy cycle detection -/

/-- What the edge loop of `lcd_dfs` works on besides the solver state: the
cursor and the edges to delete and to add. -/
structure LcdEdges where
  it : BitIter
  del : Finset Nat
  add : Finset Nat

/-- The part of the edge loop behind a possible recursion: make the edge point
to the representative. -/
def lcdReplace (n dest0 dest : Nat) (e : LcdEdges) : Run LcdEdges :=
  if dest ≠ dest0 then
    let e := { e with del := insert dest0 e.del }
    if dest ∈ e.add then .ok e
    else do
      require (dest ≠ n) "copy self-loop not removed"
      return { e with add := insert dest e.add }
  else .ok e

/-- `lcd_dfs_id[n]`, which creates a missing entry with value 0. -/
def dfsId (s : Solver W) (n : Nat) : Nat := (s.lcdDfsId n).getD 0

def setDfsId (s : Solver W) (n k : Nat) : Solver W :=
  { s with lcdDfsId := Function.update s.lcdDfsId n (some k) }

/-- One edge of `n`; `visit` is the recursive call. -/
def lcdEdge (visit : Solver W → Nat → Run (Solver W)) (n : Nat) (s : Solver W) (e : LcdEdges)
    (dest0 : Nat) : Run (Solver W × LcdEdges) := do
  require (dest0 ≠ n) "copy self-loop not removed"
  let dest := s.rep dest0
  if dest ∈ e.add ∨ dest = n then
    return (s, { e with del := insert dest0 e.del })
  if dest ∈ s.lcdRoots then
    return (s, ← lcdReplace n dest0 dest e)
  let (s, dest) ←
    if (s.lcdDfsId dest).isNone then do
      let s ← visit s dest
      -- a node that was merged has handed over its edges, and the iterator is on one that is erased
      inRange (s.isRep n) "N->copy_to"
      pure (s, s.rep dest)
    else pure (s, dest)
  let id := dfsId s dest
  let s := setDfsId s dest id
  let s := if id < dfsId s n then setDfsId s n id else s
  return (s, ← lcdReplace n dest0 dest e)

/-- Walk the edges of `n` for at most the given number of steps. -/
def lcdWalk (visit : Solver W → Nat → Run (Solver W)) (n : Nat) :
    Nat → Solver W → LcdEdges → Run (Solver W × LcdEdges)
  | 0, _, _ => .error .fuel
  | steps + 1, s, e =>
    match e.it.next (s.nodes n).copyTo with
    | none => .ok (s, e)
    | some (dest0, it) => do
        let (s, e) ← lcdEdge visit n s { e with it } dest0
        lcdWalk visit n steps s e

/-- Pop the nodes of the component with root number `ourDfs` and merge them
into `n`; the flag says whether there were any. -/
def lcdPop (ourDfs : Nat) : List Nat → Solver W → Nat → Bool → Run (Solver W × Nat × Bool)
  | [], s, n, chg => .ok ({ s with lcdStk := [] }, n, chg)
  | n2 :: stk, s, n, chg =>
    let id := dfsId s n2
    let s := setDfsId s n2 id
    if id < ourDfs then .ok ({ s with lcdStk := n2 :: stk }, n, chg)
    else
      let rn2 := s.rep n2
      if rn2 ≠ n then do
        let (g, r) ← mergeNodes s.size s.toGraph n rn2
        lcdPop ourDfs stk { s with toGraph := g } r true
      else lcdPop ourDfs stk s n true

/-- Detect cycles from node `n`, unifying every strongly connected component. -/
def lcdDfs : Nat → Solver W → Nat → Run (Solver W)
  | 0, _, _ => .error .fuel
  | fuel + 1, s, n => do
      require (n ≠ i2p ∧ n ∉ s.lcdRoots) "n != i2p && !lcd_roots.count(n)"
      require (s.isRep n) "N->is_rep()"
      let ourDfs := s.currLcdDfs
      let s := setDfsId { s with currLcdDfs := ourDfs + 1 } n ourDfs
      let (s, e) ← lcdWalk (lcdDfs fuel) n (s.size + 1) s ⟨.start, ∅, ∅⟩
      require (s.isRep n) "N->is_rep()"
      let s := s.modify n fun N => { N with copyTo := (N.copyTo \ e.del) ∪ e.add }
      if dfsId s n = ourDfs then
        let (s, n, chg) ← lcdPop ourDfs s.lcdStk s n false
        -- once this component is collapsed, the root is not processed again
        let s := { s with lcdRoots := insert n s.lcdRoots }
        pushIf chg s n
      else
        return { s with lcdStk := n :: s.lcdStk }

/-- Run cycle detection from every start that is a representative and was not
seen in this run. -/
def runLcd (s : Solver W) : Run (Solver W) := do
  let s := { s with
    lastLcd := s.nNodeRuns, currLcdDfs := 1, lcdDfsId := fun _ => none, lcdRoots := ∅ }
  let s ← (ascending s.lcdStarts).foldlM (fun s n =>
    if s.isRep n ∧ (s.lcdDfsId n).isNone then lcdDfs (s.size + 1) s n else .ok s) s
  require (s.lcdStk = []) "lcd_stk.empty()"
  return { s with lcdStarts := ∅ }

/-! ## The main loop -/

/-- Run cycle detection with at least this many candidates … -/
def lcdSz : Nat := 20

/-- … or if it has not run for this many visits. -/
def lcdPeriod : Nat := 50000

/-- What an iteration of the main loop ends with. -/
inductive Loop (W : Type) where
  | done (s : Solver W)
  | more (s : Solver W)

/-- One iteration of the main loop of `solve`, with time and memory limits that
are never reached. -/
def solveIter (M : Module) (s : Solver W) : Run (Loop W) := do
  let (swapped, wl) := Worklist.swapIfEmpty s.wl
  let s := { s with wl }
  if swapped ∧ Worklist.empty wl then return .done s
  let ((n, p), wl) ← Worklist.pop wl
  let s := { s with wl }
  if ¬ s.isRep n then return .more s
  -- the node was visited after this entry was pushed
  if Worklist.usesPrio W ∧ p < (s.nodes n).vtime then return .more s
  let s ← solveNode M s n
  if s.lcdStarts.card ≥ lcdSz ∨ s.nNodeRuns - s.lastLcd ≥ lcdPeriod then
    return .more (← runLcd s)
  return .more s

/-- At most `k` iterations of the main loop. -/
def solveLoop (M : Module) : Nat → Solver W → Run (Loop W)
  | 0, s => .ok (.more s)
  | k + 1, s => do
      match ← solveIter M s with
      | .done s => return .done s
      | .more s => solveLoop M k s

/-- `pts_init`, `solve_init` and at most `k` iterations of `solve`. -/
def runSolver (W : Type) [Worklist W] (M : Module) (k : Nat) (a : Anders) : Run (Loop W) := do
  let a ← ptsInit M a
  let s ← solveInit a
  solveLoop M k s

end

end PtrAnalysis
