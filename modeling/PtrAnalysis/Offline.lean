import PtrAnalysis.Tables

/-!
# The offline constraint graph

Value numbering and the offline half of hybrid cycle detection work on a graph
made from the constraint list: a node for every parameter and return object of
an address-taken function (AFP), for every value node (VAL), and one for the
dereference (REF) of each of these. Edges run from a destination to its sources.
-/

namespace PtrAnalysis

open Run

structure OffNode where
  /-- `X → Y` for any constraint `X = Y`. -/
  edges : Finset Nat := ∅
  /-- `*X → *Y` for any edge `X → Y`. -/
  implEdges : Finset Nat := ∅
  /-- The pointer-equivalence labels: empty while unlabeled, containing 0 for
  non-pointers. -/
  ptrEq : Finset Nat := ∅
  mainNode : Nat := 0
  /-- The number of the DFS call that first visited the node, 0 if unvisited. -/
  dfsId : Nat := 0
  sccRoot : Bool := false
  indirect : Bool := false

/-- The offline nodes, `| null | AFP | VAL | REF |`, with the counters and maps
of the walks over them. -/
structure OffGraph where
  size : Nat
  nodes : Nat → OffNode
  forest : Forest
  /-- The offline node of each main node, 0 if there is none. -/
  main2off : Nat → Nat
  firstVAL : Nat
  firstREF : Nat
  nextPtrEq : Nat
  currDfs : Nat
  dfsStk : List Nat
  lbl2pe : List (Finset Nat × Nat)
  gep2pe : List ((Nat × Nat) × Nat)

/-- The first AFP node. -/
def firstAFP : Nat := 1

namespace OffGraph

def modify (o : OffGraph) (n : Nat) (f : OffNode → OffNode) : OffGraph :=
  { o with nodes := Function.update o.nodes n (f (o.nodes n)) }

/-- `get_off_rep` -/
def rep (o : OffGraph) (n : Nat) : Nat := o.forest.find n

def isRep (o : OffGraph) (n : Nat) : Bool := o.forest.isRep n

/-- The node for the dereference of `p`. -/
def ref (o : OffGraph) (p : Nat) : Nat := p - firstAFP + o.firstREF

/-- How many nodes are not REF. -/
def nREF (o : OffGraph) : Nat := o.firstREF - firstAFP

/-- The data of `N1` after it took over `N2`. -/
def takeOver (N1 N2 : OffNode) : OffNode :=
  { N1 with
    edges := N1.edges ∪ N2.edges
    implEdges := N1.implEdges ∪ N2.implEdges
    ptrEq := N1.ptrEq ∪ N2.ptrEq
    indirect := N1.indirect || N2.indirect }

def absorb (o : OffGraph) (n1 n2 : Nat) : OffGraph :=
  { o with
    nodes := fun n =>
      if n = n1 then takeOver (o.nodes n1) (o.nodes n2)
      else if n = n2 then { o.nodes n2 with edges := ∅, implEdges := ∅, ptrEq := ∅ }
      else o.nodes n
    forest := o.forest.join n1 n2 }

end OffGraph

/-- Unify two offline nodes, returning the one of higher rank. -/
def mergeOffNodes (o : OffGraph) (n1 n2 : Nat) : Run (OffGraph × Nat) := do
  require (n1 ≠ 0 ∧ n1 < o.size) "invalid node 1"
  require (n2 ≠ 0 ∧ n2 < o.size) "invalid node 2"
  require (n1 ≠ n2) "trying to merge a node with itself"
  require ((o.nodes n1).dfsId ≠ 0 ∧ (o.nodes n2).dfsId ≠ 0) "trying to merge unvisited nodes"
  require (o.isRep n1 ∧ o.isRep n2) "only rep nodes may be merged"
  if o.forest.rank n1 < o.forest.rank n2 then return (o.absorb n2 n1, n2)
  return (o.absorb n1 n2, n1)

/-! ## Making the nodes -/

/-- The offline number of the next node, and the numbers given so far. -/
structure Numbering where
  next : Nat
  main2off : Nat → Nat

namespace Numbering

/-- `main2off[i]= onn++` -/
def give (m : Numbering) (i : Nat) : Numbering :=
  { next := m.next + 1, main2off := Function.update m.main2off i m.next }

def giveIf (isRep : Nat → Bool) (m : Numbering) (i : Nat) : Numbering :=
  if isRep i then m.give i else m

end Numbering

/-- Number the return and parameter nodes of the function objects from `i` on;
only representatives occur in constraints. -/
def numberAFP (a : Anders) : Nat → Nat → Numbering → Run Numbering
  | 0, _, _ => .error .fuel
  | fuel + 1, i, m =>
    if i > a.lastObjNode then .ok m
    else do
      let sz := (a.nodes i).objSz
      require (sz ≠ 0) "object nodes are not clumped"
      require ((a.nodes i).val.isSome) "obj node has no value"
      let m := match (a.nodes i).val.bind Value.func? with
        | none => m
        | some _ => (List.range' (i + funcNodeOffRet) (sz - funcNodeOffRet)).foldl
            (Numbering.giveIf a.isRep) m
      numberAFP a fuel (i + sz) m

/-- The nodes behind the objects. -/
def valueNodes (a : Anders) : List Nat :=
  List.range' (a.lastObjNode + 1) (a.size - (a.lastObjNode + 1))

/-- Make the offline nodes of all representatives. -/
def makeOffNodes (a : Anders) : Run OffGraph := do
  require (a.lastObjNode ≠ 0) "clump_addr_taken is required"
  let m ← numberAFP a (a.lastObjNode + 1) firstVarNode ⟨firstAFP, fun _ => 0⟩
  let firstVAL := m.next
  let m := m.give pI2p
  let m ← (valueNodes a).foldlM (fun m i => do
    require ((a.nodes i).objSz = 0) "unexpected obj node"
    return m.giveIf a.isRep i) m
  let firstREF := m.next
  return {
    size := firstREF + (firstREF - firstAFP)
    nodes := fun n =>
      { indirect := decide (firstAFP ≤ n ∧ n < firstVAL ∨ firstREF ≤ n) }
    forest := .discrete
    main2off := m.main2off
    firstVAL, firstREF
    nextPtrEq := 0, currDfs := 0, dfsStk := [], lbl2pe := [], gep2pe := [] }

/-! ## Adding the edges -/

namespace OffGraph

def addEdge (o : OffGraph) (n dest : Nat) : OffGraph :=
  o.modify n fun N => { N with edges := insert dest N.edges }

def addImpl (o : OffGraph) (n dest : Nat) : OffGraph :=
  o.modify n fun N => { N with implEdges := insert dest N.implEdges }

def addLabel (o : OffGraph) (n l : Nat) : OffGraph :=
  o.modify n fun N => { N with ptrEq := insert l N.ptrEq }

def setIndirect (o : OffGraph) (n : Nat) : OffGraph :=
  o.modify n fun N => { N with indirect := true }

/-- The label of the pair of a GEP's source and offset, a new one for a new
pair. -/
def gepLabel (o : OffGraph) (R : Nat × Nat) : OffGraph × Nat :=
  match o.gep2pe.lookup R with
  | some pe => (o, pe)
  | none => ({ o with gep2pe := (R, o.nextPtrEq) :: o.gep2pe, nextPtrEq := o.nextPtrEq + 1 },
      o.nextPtrEq)

end OffGraph

/-- The edges of one constraint. With `hcd` there are neither implicit edges nor
labels, and no node is marked indirect. Loads and stores with offset only occur
in indirect calls and get no edges. -/
def addOffEdge (a : Anders) (hcd : Bool) (o : OffGraph) (C : Constraint) : Run OffGraph := do
  require (a.isRep C.dest ∧ a.isRep C.src) "nodes[C.dest]->is_rep() && nodes[C.src]->is_rep()"
  let od := o.main2off C.dest
  let os := o.main2off C.src
  if od = 0 then
    -- a few constraints have an object node for the destination
    require ((a.nodes C.dest).objSz ≠ 0) "no offline node for dest"
    return o
  require (os ≠ 0 ∨ (a.nodes C.src).objSz ≠ 0) "no offline node for non-obj src"
  match C.type with
  | .addrOf =>
      if hcd then return o
      let o := o.addLabel od C.src
      return if os = 0 then o else o.addImpl (o.ref od) os
  | .copy =>
      if os = 0 then return if hcd then o else o.setIndirect od
      let o := o.addEdge od os
      return if hcd then o else o.addImpl (o.ref od) (o.ref os)
  | .load =>
      if C.off ≠ 0 then return if hcd then o else o.setIndirect od
      require (os ≠ 0) "no offline node for src"
      return o.addEdge od (o.ref os)
  | .store =>
      if C.off ≠ 0 then return o
      require (os ≠ 0) "no offline node for src"
      return o.addEdge (o.ref od) os
  | .gep =>
      if hcd then return o
      let (o, pe) := o.gepLabel (C.src, C.off)
      return o.addLabel od pe

def addOffEdges (a : Anders) (hcd : Bool) (o : OffGraph) : Run OffGraph :=
  a.constraints.foldlM (addOffEdge a hcd) o

end PtrAnalysis
