import Mathlib.Data.Finset.Union
import PtrAnalysis.Lib.Forest
import PtrAnalysis.Lib.Ascending
import PtrAnalysis.Program

/-!
# The constraint graph and `mergeNodes`

A node holds its points-to set, the part of it that was already propagated, its
copy edges and the indices of the constraints that dereference it. The `rep`
fields of all nodes form one `Forest`; lookups are `find`, because the path
compression of `get_node_rep` changes no representative (`find_compress`).

`mergeNodes` unifies two representatives. When both are keys of `hcdVar`, their
targets are in one cycle as well and are merged in turn; such a cascade can
merge the very node the outer call is about to return.
-/

namespace PtrAnalysis

structure Node where
  /-- The LLVM value represented by this node, none for artificial nodes. -/
  val : Option Value := none
  /-- How many nodes are in the object that starts here. -/
  objSz : Nat := 0
  /-- The time of the last visit. -/
  vtime : Nat := 0
  nonptr : Bool := false
  pointsTo : Finset Nat := ∅
  /-- The `pointsTo` at the start of the last visit. -/
  prevPointsTo : Finset Nat := ∅
  copyTo : Finset Nat := ∅
  /-- Indices of the loads, stores and GEPs that dereference this node. -/
  loadTo : Finset Nat := ∅
  storeFrom : Finset Nat := ∅
  gepTo : Finset Nat := ∅

structure Graph where
  size : Nat
  nodes : Nat → Node
  forest : Forest
  /-- The function pointer nodes used for indirect calls. -/
  indCalls : Finset Nat
  /-- A dereferenced node and the variable in its offline cycle. -/
  hcdVar : Nat → Option Nat
  /-- History: for every cascade, the points-to set of the node that started it. -/
  cascades : List (Finset Nat)

namespace Graph

/-- `get_node_rep` -/
def rep (g : Graph) (n : Nat) : Nat := g.forest.find n

/-- `is_rep` -/
def isRep (g : Graph) (n : Nat) : Bool := g.forest.isRep n

def modify (g : Graph) (n : Nat) (f : Node → Node) : Graph :=
  { g with nodes := Function.update g.nodes n (f (g.nodes n)) }

def setHcdVar (g : Graph) (n : Nat) (v : Option Nat) : Graph :=
  { g with hcdVar := Function.update g.hcdVar n v }

/-- The data of `N1` after it took over everything `N2` had; its whole points-to
set is to be propagated across the new edges. -/
def takeOver (n1 n2 : Nat) (N1 N2 : Node) : Node :=
  { N1 with
    vtime := min N1.vtime N2.vtime
    pointsTo := N1.pointsTo ∪ N2.pointsTo
    prevPointsTo := ∅
    copyTo := ((N1.copyTo ∪ N2.copyTo).erase n1).erase n2
    loadTo := N1.loadTo ∪ N2.loadTo
    storeFrom := N1.storeFrom ∪ N2.storeFrom
    gepTo := N1.gepTo ∪ N2.gepTo
    nonptr := N1.nonptr && N2.nonptr }

/-- What is left of a node that was merged into another. -/
def cleared (N : Node) : Node :=
  { N with
    pointsTo := ∅
    prevPointsTo := ∅
    copyTo := ∅
    loadTo := ∅
    storeFrom := ∅
    gepTo := ∅ }

/-- The first half of `merge_nodes`: `n2` goes under `n1` and hands over its
data. `hcd_var` is not touched yet. -/
def absorb (g : Graph) (n1 n2 : Nat) : Graph :=
  { g with
    nodes := fun n =>
      if n = n1 then takeOver n1 n2 (g.nodes n1) (g.nodes n2)
      else if n = n2 then cleared (g.nodes n2)
      else g.nodes n
    forest := g.forest.join n1 n2
    indCalls :=
      if n2 ∈ g.indCalls then insert n1 (g.indCalls.erase n2) else g.indCalls }

/-- Enter a cascade started by the merged node `n` into the history. -/
def recordCascade (g : Graph) (n : Nat) : Graph :=
  { g with cascades := (g.nodes n).pointsTo :: g.cascades }

end Graph

open Run PtrAnalysis.Graph

/-- Which of two nodes becomes the parent: the one of higher rank, the first
one on a tie. -/
def byRank (g : Graph) (n1 n2 : Nat) : Nat × Nat :=
  if g.forest.rank n1 < g.forest.rank n2 then (n2, n1) else (n1, n2)

/-- Unify two nodes, returning the representative of both. -/
def mergeNodes : Nat → Graph → Nat → Nat → Run (Graph × Nat)
  | 0, _, _, _ => .error .fuel
  | fuel + 1, g, n1, n2 => do
      require (n1 ≠ 0 ∧ n1 < g.size) "invalid node 1"
      require (n2 ≠ 0 ∧ n2 < g.size) "invalid node 2"
      require (n1 ≠ n2) "trying to merge a node with itself"
      require (n1 ≠ i2p ∧ n2 ≠ i2p) "trying to merge i2p"
      require (g.isRep n1 ∧ g.isRep n2) "only rep nodes may be merged"
      let (n1, n2) := byRank g n1 n2
      let g := g.absorb n1 n2
      let hv1 := (g.hcdVar n1).getD 0
      let hv2 := (g.hcdVar n2).getD 0
      if hv2 = 0 then
        return (g, n1)
      else if hv1 = 0 then
        -- *n1 is the same as *n2, so it is in a cycle with hv2
        return ((g.setHcdVar n1 (some hv2)).setHcdVar n2 none, n1)
      else
        let rhv1 := g.rep hv1
        let rhv2 := g.rep hv2
        if rhv1 = rhv2 then
          return (g.setHcdVar n2 none, n1)
        else
          let (g, _) ← mergeNodes fuel (g.recordCascade n1) rhv1 rhv2
          if n1 = rhv2 then
            return (g.setHcdVar n2 none, g.rep n1)
          else
            require (g.isRep n1) "nodes[n1]->is_rep()"
            return (g.setHcdVar n2 none, n1)

end PtrAnalysis
