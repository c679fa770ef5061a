import PtrAnalysis.Hvn

/-!
# Hybrid cycle detection, offline part

A variable `A` in an offline cycle with `*X` is recorded as `hcdVar X`: as soon
as the points-to set of `X` is known, all its members are in a cycle with `A`.
The search collapses no component of the offline graph; the variables of one
component are merged in the main graph.
-/

namespace PtrAnalysis

open Run

/-- The search works on the offline graph and the main graph. -/
abbrev HcdState := Anders × OffGraph

/-- One edge to `dest`. -/
def hcdCheckEdge (visit : HcdState → Nat → Run HcdState) (n : Nat) (t : HcdState) (dest : Nat) :
    Run HcdState := do
  require (t.2.isRep dest) "N2->is_rep()"
  if (t.2.nodes dest).sccRoot then return t
  let (a, o) ← if (t.2.nodes dest).dfsId = 0 then visit t dest else pure t
  let id2 := (o.nodes dest).dfsId
  return (a, if id2 < (o.nodes n).dfsId then o.modify n fun N => { N with dfsId := id2 } else o)

/-- The nodes popped for the component with root number `ourDfs`, and the rest
of the stack. -/
def hcdPop (o : OffGraph) (ourDfs : Nat) : List Nat → List Nat × List Nat
  | [] => ([], [])
  | n2 :: stk =>
    if (o.nodes n2).dfsId < ourDfs then ([], n2 :: stk)
    else ((n2 :: (hcdPop o ourDfs stk).1), (hcdPop o ourDfs stk).2)

/-- Merge the main nodes of the variables of a component; returns the
representative. -/
def mergeVars (o : OffGraph) (a : Anders) (v : Nat) (vs : List Nat) : Run (Anders × Nat) :=
  vs.foldlM (fun t v' => do
    let (g, r) ← mergeNodes t.1.size t.1.toGraph t.2 (o.nodes v').mainNode
    return ({ t.1 with toGraph := g }, r)) (a, (o.nodes v).mainNode)

/-- Label a node of a component as processed and, if it is a REF, map its main
node to the representative of the variables. -/
def recordScc (varRep : Nat) (t : HcdState) (n : Nat) : Run HcdState := do
  let (a, o) := t
  require (n ≠ 0) "n"
  let o := o.modify n fun N => { N with sccRoot := true }
  if n ≥ o.firstREF then
    return ({ a with toGraph := a.toGraph.setHcdVar (o.nodes n).mainNode (some varRep) }, o)
  return (a, o)

/-- Process the component `scc`, whose first member is its root. -/
def hcdScc (t : HcdState) (scc : List Nat) : Run HcdState := do
  let (a, o) := t
  match scc.filter (· < o.firstREF) with
  | [] => .error (.assertion "no VAR node in SCC")
  | v :: vs =>
      let (a, varRep) ← mergeVars o a v vs
      scc.foldlM (recordScc varRep) (a, o)

def hcdDfs : Nat → HcdState → Nat → Run HcdState
  | 0, _, _ => .error .fuel
  | fuel + 1, (a, o), n => do
      require (n ≠ 0) "n"
      require (¬ (o.nodes n).sccRoot ∧ o.isRep n) "!N->scc_root && N->is_rep()"
      let ourDfs := o.currDfs
      let o := { o with currDfs := ourDfs + 1 }.modify n fun N => { N with dfsId := ourDfs }
      let (a, o) ← (ascending (o.nodes n).edges).foldlM (hcdCheckEdge (hcdDfs fuel) n) (a, o)
      require (o.isRep n) "N->is_rep()"
      if (o.nodes n).dfsId = ourDfs then
        let (popped, rest) := hcdPop o ourDfs o.dfsStk
        require (n ∉ popped) "n2 != n"
        let o := { o with dfsStk := rest }
        -- components of one node are ignored
        if popped = [] then return (a, o.modify n fun N => { N with sccRoot := true })
        hcdScc (a, o) (n :: popped)
      else
        return (a, { o with dfsStk := n :: o.dfsStk })

/-- Map the offline nodes to the main graph. -/
def setMainNodes (size : Nat) (o : OffGraph) : OffGraph :=
  (List.range size).foldl (fun o i =>
    let n := o.main2off i
    if n = 0 then o
    else (o.modify n fun N => { N with mainNode := i }).modify (o.ref n)
      fun N => { N with mainNode := i }) o

def hcdSearch (a : Anders) (o : OffGraph) : Run HcdState := do
  let t ← (List.range' firstAFP (o.firstREF + o.nREF - firstAFP)).foldlM (fun (t : HcdState) i =>
    if (t.2.nodes i).dfsId = 0 then hcdDfs (t.2.size + 1) t i else .ok t)
    (a, { o with currDfs := 1 })
  require (t.2.dfsStk = []) "dfs_stk.empty()"
  return t

/-- Fill `hcdVar` and rewrite the constraints to the nodes merged on the way. -/
def hcd (a : Anders) : Run Anders := do
  let o ← makeOffNodes a
  let o ← addOffEdges a true o
  let (a, _) ← hcdSearch a (setMainNodes a.size o)
  return { a with
    constraints := a.constraints.foldl (rewriteCons a) []
    icallCons := a.icallCons.foldl (rewriteIcall a) [] }

end PtrAnalysis
