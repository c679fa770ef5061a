import PtrAnalysis.Offline

/-!
# Hash-based value numbering

One pass of `hvn` labels every node of the offline graph so that nodes with one
label are pointer-equivalent, merges them and rewrites the constraints. With
`doUnion` (HU) a node is given the union of its neighbours' labels, else (HVN)
one number for it. `hr` repeats the pass, because equivalent pointers have
equivalent dereferences.
-/

namespace PtrAnalysis

open Run

/-! ## Labels -/

/-- Collect all incoming labels into `n`, ignoring non-pointer neighbours. -/
def collectLabels (n : Nat) (o : OffGraph) (dest : Nat) : Run OffGraph := do
  let n2 := o.rep dest
  if n2 = n then return o
  let pe2 := (o.nodes n2).ptrEq
  require (pe2 ≠ ∅) "unlabeled neighbor"
  return if 0 ∈ pe2 then o else o.modify n fun N => { N with ptrEq := N.ptrEq ∪ pe2 }

def setLabels (o : OffGraph) (n : Nat) (pe : Finset Nat) : OffGraph :=
  o.modify n fun N => { N with ptrEq := pe }

/-- Label a node based on its neighbours' labels (for HVN). -/
def hvnLabel (o : OffGraph) (n : Nat) : Run OffGraph := do
  require (o.isRep n ∧ (o.nodes n).sccRoot) "N->is_rep() && N->scc_root"
  if (o.nodes n).indirect then
    -- this also removes the pre-labeling of a node merged with an indirect one
    return { setLabels o n {o.nextPtrEq} with nextPtrEq := o.nextPtrEq + 1 }
  let o ← (ascending (o.nodes n).edges).foldlM (collectLabels n) o
  let pe := (o.nodes n).ptrEq
  if pe = ∅ then return setLabels o n {0}
  if pe.card = 1 then return o
  match o.lbl2pe.lookup pe with
  | some l => return setLabels o n {l}
  | none =>
      return { setLabels o n {o.nextPtrEq} with
        lbl2pe := (pe, o.nextPtrEq) :: o.lbl2pe
        nextPtrEq := o.nextPtrEq + 1 }

/-- Label a node with the union of incoming labels (for HU). -/
def huLabel (o : OffGraph) (n : Nat) : Run OffGraph := do
  require (o.isRep n ∧ (o.nodes n).sccRoot) "N->is_rep() && N->scc_root"
  let o := if (o.nodes n).indirect then
      { o.modify n fun N => { N with ptrEq := insert o.nextPtrEq N.ptrEq } with
        nextPtrEq := o.nextPtrEq + 1 }
    else o
  let o ← (ascending (o.nodes n).edges).foldlM (collectLabels n) o
  return if (o.nodes n).ptrEq = ∅ then setLabels o n {0} else o

/-! ## The depth-first search -/

/-- Merge the stack nodes of the component with root number `ourDfs` into `n`. -/
def hvnPop (ourDfs : Nat) : List Nat → OffGraph → Nat → Run (OffGraph × Nat)
  | [], o, n => .ok ({ o with dfsStk := [] }, n)
  | n2 :: stk, o, n =>
    if (o.nodes n2).dfsId < ourDfs then .ok ({ o with dfsStk := n2 :: stk }, n)
    else do
      let (o, n) ← mergeOffNodes o n n2
      hvnPop ourDfs stk o n

/-- Look at the offline edge from `n` to `dest` and possibly continue the search
along it. -/
def hvnCheckEdge (visit : OffGraph → Nat → Run OffGraph) (n : Nat) (o : OffGraph) (dest : Nat) :
    Run OffGraph := do
  require (o.isRep n) "N->is_rep()"
  let n2 := o.rep dest
  if n2 = n ∨ (o.nodes n2).sccRoot then return o
  let o ← if (o.nodes n2).dfsId = 0 then visit o n2 else pure o
  let id2 := (o.nodes n2).dfsId
  let o := if id2 < (o.nodes n).dfsId then o.modify n fun N => { N with dfsId := id2 } else o
  require (o.isRep n) "N->is_rep()"
  return o

/-- Tarjan's algorithm from `n`: collapse cycles and label the components. -/
def hvnDfs (doUnion : Bool) : Nat → OffGraph → Nat → Run OffGraph
  | 0, _, _ => .error .fuel
  | fuel + 1, o, n => do
      require (n ≠ 0) "n"
      require (¬ (o.nodes n).sccRoot ∧ o.isRep n) "!N->scc_root && N->is_rep()"
      let ourDfs := o.currDfs
      let o := { o with currDfs := ourDfs + 1 }.modify n fun N => { N with dfsId := ourDfs }
      let o ← (ascending (o.nodes n).edges).foldlM (hvnCheckEdge (hvnDfs doUnion fuel) n) o
      let o ← (ascending (o.nodes n).implEdges).foldlM (hvnCheckEdge (hvnDfs doUnion fuel) n) o
      require (o.isRep n) "N->is_rep()"
      if (o.nodes n).dfsId = ourDfs then
        let (o, n) ← hvnPop ourDfs o.dfsStk o n
        require (n ≠ 0) "n"
        let o := o.modify n fun N => { N with sccRoot := true }
        if doUnion then huLabel o n else hvnLabel o n
      else
        return { o with dfsStk := n :: o.dfsStk }

/-- Search from every node that was not reached before. -/
def hvnSearch (doUnion : Bool) (o : OffGraph) : Run OffGraph := do
  let o ← (List.range' firstAFP (o.firstREF + o.nREF - firstAFP)).foldlM (fun o i =>
    if (o.nodes i).dfsId = 0 then hvnDfs doUnion (o.size + 1) o i else .ok o)
    { o with currDfs := 1, lbl2pe := [] }
  require (o.dfsStk = []) "dfs_stk.empty()"
  return o

/-! ## Merging -/

/-- The first main node with each label set, and the state. -/
abbrev PeNodes := List (Finset Nat × Nat)

/-- Merge main node `i` into the first one with its label, or mark it as a
non-pointer. -/
def mergeOne (o : OffGraph) (t : Anders × PeNodes) (i : Nat) : Run (Anders × PeNodes) := do
  let (a, pe2node) := t
  let on := o.main2off i
  if on = 0 then return t
  let pe := (o.nodes (o.rep on)).ptrEq
  require (pe ≠ ∅) "!pe.empty()"
  if 0 ∈ pe then
    require (pe.card = 1) "pe.single_bit_p()"
    return ({ a with toGraph := a.toGraph.modify i fun N => { N with nonptr := true } }, pe2node)
  require (¬ (a.nodes i).nonptr) "!nodes[i]->nonptr"
  match pe2node.lookup pe with
  | none =>
      require (a.isRep i) "nodes[i]->is_rep()"
      return (a, (pe, i) :: pe2node)
  | some en =>
      let (g, r) ← mergeNodes a.size a.toGraph en i
      return ({ a with toGraph := g }, (pe, r) :: pe2node)

/-- A constraint over representatives; the source of `addrOf` stays, because
a node that was merged away may still be pointed to. -/
def repCons (a : Anders) (C : Constraint) : Constraint :=
  { C with
    dest := a.rep C.dest
    src := if C.type = .addrOf then C.src else a.rep C.src }

/-- Whether a rewritten constraint is new and not `(copy X X)`. -/
def keepCons (cs : List Constraint) (C : Constraint) : Bool :=
  (C.type ≠ .copy ∨ C.dest ≠ C.src) ∧ C ∉ cs

/-- One step of rewriting the constraint list: `(copy X X)` and duplicates are
ignored. -/
def rewriteCons (a : Anders) (cs : List Constraint) (C : Constraint) : List Constraint :=
  if keepCons cs (repCons a C) then cs ++ [repCons a C] else cs

/-- Whether either side of a constraint is a non-pointer. -/
def touchesNonptr (a : Anders) (C : Constraint) : Bool :=
  (a.nodes C.dest).nonptr || (a.nodes C.src).nonptr

/-- The same for the constraints of indirect calls. -/
def rewriteIcall (a : Anders) (m : IcallCons) (CI : Constraint × Finset Nat) : IcallCons :=
  m.add { CI.1 with dest := a.rep CI.1.dest, src := a.rep CI.1.src } CI.2

/-- Merge all pointer-equivalent nodes and update the constraint list. -/
def mergePtrEq (o : OffGraph) (a : Anders) : Run Anders := do
  let (a, _) ← (List.range a.size).foldlM (mergeOne o) (a, [])
  return { a with
    constraints := (a.constraints.filter fun C => ¬ touchesNonptr a C).foldl (rewriteCons a) []
    icallCons := (a.icallCons.filter fun CI => ¬ touchesNonptr a CI.1).foldl (rewriteIcall a) [] }

/-- One pass of value numbering. Labels of GEPs are disjoint from node IDs,
because `addrOf` uses its source as a label. -/
def hvn (doUnion : Bool) (a : Anders) : Run Anders := do
  let o ← makeOffNodes a
  let o ← addOffEdges a false { o with nextPtrEq := a.size, gep2pe := [] }
  let o ← hvnSearch doUnion o
  mergePtrEq o a

/-- Repeat the pass as long as it removes at least `minDel` constraints, for at
most `fuel` passes. -/
def hr (doUnion : Bool) (minDel : Nat) : Nat → Anders → Run Anders
  | 0, _ => .error .fuel
  | fuel + 1, a => do
      let a' ← hvn doUnion a
      if a.constraints.length - a'.constraints.length ≥ minDel then hr doUnion minDel fuel a'
      else return a'

end PtrAnalysis
