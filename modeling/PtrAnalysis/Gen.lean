import PtrAnalysis.Ir
import PtrAnalysis.Lib.Act
import PtrAnalysis.Tables

/-!
# The state of the constraint generator

`obj_cons_id` makes the nodes and the constraints of a module. Every handler pushes
nodes and counts them in `nextNode` by hand; the IDs it gives out are values of that
counter. `valNode` and `objNode` map a value to its node and to the first node of its
object. The operations here are those the handlers are made of.
-/

namespace PtrAnalysis

open Run

/-- A node while the constraints are generated. -/
structure GenNode where
  val : Option Val := none
  objSz : Nat := 0
  /-- An array or heap-allocated. -/
  weak : Bool := false
  deriving DecidableEq, Repr

structure Gen where
  nodes : List GenNode
  /-- The ID of the node to create next. -/
  nextNode : Nat
  valNode : Val → Option Nat
  objNode : Val → Option Nat
  retNode : Nat → Option Nat
  varargNode : Nat → Option Nat
  constraints : List Constraint
  /-- The function pointer nodes used for indirect calls. -/
  indCalls : Finset Nat
  icallCons : IcallCons
  /-- Sizes and offsets of the analysed structs. -/
  structInfo : Nat → Option (List Nat × List Nat)
  /-- The struct type with the most fields. -/
  maxStruct : Ty
  maxStructSz : Nat
  /-- The nodes of constant GEP expressions. -/
  gepCe : List Nat
  /-- What was visited for global initializers, with the number of fields. -/
  globalInitDone : Nat → Option Nat
  /-- The static object of an external function. -/
  statRetNode : String → Option Nat
  /-- The arguments of address-taken functions. -/
  atArgs : Finset Val

/-- The members of a released `Anders`. -/
def Gen.empty : Gen where
  nodes := []
  nextNode := 0
  valNode _ := none
  objNode _ := none
  retNode _ := none
  varargNode _ := none
  constraints := []
  indCalls := ∅
  icallCons := []
  structInfo _ := none
  maxStruct := .int
  maxStructSz := 0
  gepCe := []
  globalInitDone _ := none
  statRetNode _ := none
  atArgs := ∅

/-- A key of one of the four maps from values and functions to nodes. -/
inductive Slot where
  | val (v : Val)
  | obj (v : Val)
  | ret (f : Nat)
  | vararg (f : Nat)
  deriving DecidableEq

/-- The four maps as one. -/
def Gen.slots (g : Gen) : Slot → Option Nat
  | .val v => g.valNode v
  | .obj v => g.objNode v
  | .ret f => g.retNode f
  | .vararg f => g.varargNode f

/-- Code of the constraint generator. -/
abbrev GenM := Act Gen

namespace Gen

/-! ## Nodes -/

/-- `nodes.push_back(N)` -/
def pushNode (N : GenNode) : GenM Unit := modify fun g => { g with nodes := g.nodes ++ [N] }

/-- Push one node for each size. -/
def pushNodes (v : Val) (sizes : List Nat) (weak : Bool) : GenM Unit :=
  modify fun g => { g with nodes := g.nodes ++ sizes.map fun sz => ⟨some v, sz, weak⟩ }

/-- `next_node += k` -/
def bump (k : Nat) : GenM Unit := modify fun g => { g with nextNode := g.nextNode + k }

/-- `next_node++` -/
def takeNode : GenM Nat := do
  let n := (← get).nextNode
  bump 1
  return n

def setValNode (v : Val) (n : Nat) : GenM Unit :=
  modify fun g => { g with valNode := Function.update g.valNode v (some n) }

def setObjNode (v : Val) (n : Nat) : GenM Unit :=
  modify fun g => { g with objNode := Function.update g.objNode v (some n) }

/-- The entry of a value in one of the maps, which is not 0; 0 if there is none. -/
def entry (zero : String) (e : Option Nat) : Run Nat :=
  match e with
  | none => .ok 0
  | some n => do
      require (n ≠ 0) zero
      return n

/-- The same, where the entry must exist. -/
def needEntry (missing zero : String) (e : Option Nat) : Run Nat :=
  match e with
  | none => .error (.assertion missing)
  | some n => entry zero (some n)

/-- `get_val_node(V, 1)` -/
def findValNode (v : Val) : GenM Nat := do
  entry "val_node map has a 0 entry" ((← get).valNode v)

/-- `get_val_node(V)` -/
def getValNode (v : Val) : GenM Nat := do
  needEntry "Value has no node" "val_node map has a 0 entry" ((← get).valNode v)

/-- `get_obj_node(V)` -/
def getObjNode (v : Val) : GenM Nat := do
  needEntry "Value has no obj node" "obj_node map has a 0 entry" ((← get).objNode v)

/-- The node of a function in one of the maps, or a node of its object; address-taken
functions have the latter. -/
def funcNode (missing zero : String) (e on : Option Nat) (node : Nat → Nat) : Run Nat :=
  match e with
  | some n => entry zero (some n)
  | none => do
      let on ← entry "obj_node map has a 0 entry" on
      require (on ≠ 0) missing
      return node on

/-- The object size of a node. -/
def objSz (g : Gen) (n : Nat) : Nat := (g.nodes.getD n {}).objSz

/-- Find the node for the return value of `f`; 0 if it does not return a pointer. -/
def getRetNode (P : Ir) (f : Nat) : GenM Nat := do
  let g ← get
  if !(P.func f).ret.isPtr then return 0
  funcNode "missing ret_node entry" "ret_node map has a 0 entry" (g.retNode f)
    (g.objNode (.func f)) fun on => on + funcNodeOffRet

/-- Find the node for the vararg part of `f`; 0 if it is not vararg. -/
def getVarargNode (P : Ir) (f : Nat) : GenM Nat := do
  let g ← get
  if !(P.func f).isVarArg then return 0
  funcNode "missing vararg_node entry" "vararg_node map has a 0 entry" (g.varargNode f)
    (g.objNode (.func f)) fun on => on + g.objSz on - 1

/-! ## Constraints -/

/-- `add_cons` on the member `constraints`. -/
def cons (t : ConsType) (dest src : Nat) (off : Nat := 0) : GenM Unit := do
  let (cs, _) ← addCons (← get).constraints t dest src off
  modify fun g => { g with constraints := cs }

/-- `if(vnS) add_cons(…)`: null pointers need no constraint. -/
def consUnless0 (t : ConsType) (dest src : Nat) : GenM Unit :=
  if src = 0 then pure () else cons t dest src

/-- Enter the instruction of an indirect call for its constraint. -/
def tagCall (C : Constraint) (i : Nat) : GenM Unit :=
  modify fun g => { g with icallCons := g.icallCons.add C {i} }

/-! ## Structs -/

section

variable (P : Ir)

mutual

/-- Fill in the sizes and offsets of the fields of struct `s`. -/
def analyzeStruct : Nat → Nat → GenM Unit
  | 0, _ => throw .fuel
  | fuel + 1, s => do
    if ((← get).structInfo s).isSome then return
    let (sz, off, nf) ← (P.structs s).foldlM (fun (t : List Nat × List Nat × Nat) ET => do
      let (sz, off, nf) := t
      -- the offset is where this element is placed in the expanded struct
      let off := off ++ [nf]
      match ET.strip with
      | .struct s' =>
          let szE ← getStructSz fuel s'
          return (sz ++ szE, off, nf + szE.length)
      | _ => return (sz ++ [1], off, nf + 1)) ([], [], 0)
    inRange (0 < sz.length) "sz"
    -- the first field stands for the complete struct
    let sz := sz.set 0 nf
    if nf > (← get).maxStructSz then
      modify fun g => { g with maxStruct := .struct s, maxStructSz := nf }
    modify fun g => { g with structInfo := Function.update g.structInfo s (some (sz, off)) }

/-- The sizes of the fields of struct `s`, which is analysed when needed. -/
def getStructSz : Nat → Nat → GenM (List Nat)
  | 0, _ => throw .fuel
  | fuel + 1, s => do
    if ((← get).structInfo s).isNone then analyzeStruct fuel s
    return (((← get).structInfo s).getD ([], [])).1

end

def getStructOff (fuel s : Nat) : GenM (List Nat) := do
  if ((← get).structInfo s).isNone then analyzeStruct P fuel s
  return (((← get).structInfo s).getD ([], [])).2

/-- How many fields type `t` has as the type of a variable: 1 unless it is a struct. -/
def sizesOf (fuel : Nat) (t : Ty) : GenM (List Nat) :=
  match t with
  | .struct s => getStructSz P fuel s
  | _ => pure [1]

/-- The offset of a GEP, over the indices behind the first and the type they start in. -/
def gepOff (fuel : Nat) : Ty → List Val → Nat → GenM Nat
  | _, [], off => pure off
  | .struct s, idx :: rest, off => do
      match idx with
      | .num _ n =>
          let so ← getStructOff P fuel s
          let n := n % 2 ^ 32
          require (n < so.length) "Struct index out of bounds"
          gepOff fuel ((P.structs s).getD n .other) rest (off + so.getD n 0)
      | _ => throw (.assertion "non-const struct index in GEP")
  | t, _ :: rest, off => gepOff fuel t.contained rest off

/-- The offset in the object that corresponds to a GEP; the first index only steps over the
pointer. -/
def computeGepOff (fuel : Nat) (ops : List Val) : GenM Nat :=
  match ops with
  | [] | [_] => pure 0
  | base :: _ :: rest => gepOff P fuel (P.typeOf base).contained rest 0

end

end Gen

end PtrAnalysis
