import PtrAnalysis.GenCalls
import PtrAnalysis.GenGlobals

/-!
# The constraint generator

`objConsId` identifies the objects and constraints of a module: the special nodes, the
structs, functions and globals, the initializers, and then every instruction, block by
block. `clumpAddrTaken` moves all object nodes to the front.
-/

namespace PtrAnalysis

open Run

namespace Gen

section

variable (P : Ir)

/-! ## Functions -/

/-- Push a value node for `v`. -/
def newValNode (v : Val) : GenM Nat := do
  let vn ← takeNode
  pushNode { val := some v }
  return vn

/-- The arguments `argv` and `envp` of `main` are external variables `v -> o0 -> o1`. -/
def idMainArgs (f : Nat) : GenM Unit :=
  (List.range (P.func f).params.length).forM fun i => do
    if 1 ≤ i ∧ i ≤ 2 then
      let A : Val := .arg f i
      let vn ← newValNode A
      setValNode A vn
      let on := (← get).nextNode
      pushNodes A [2, 1] false
      bump 2
      setObjNode A on
      cons .addrOf vn on
      cons .addrOf on (on + 1)

/-- Value nodes for the parameters, the result and the varargs of a function whose address is
not taken. -/
def idPlainFunc (f : Nat) : GenM Unit := do
  let F := P.func f
  (List.range F.params.length).forM fun i => do
    if P.isPtr (.arg f i) then
      let vn ← newValNode (.arg f i)
      setValNode (.arg f i) vn
  if F.ret.isPtr then
    let rn ← newValNode (.func f)
    modify fun g => { g with retNode := Function.update g.retNode f (some rn) }
  if F.isVarArg then
    let va ← newValNode (.func f)
    modify fun g => { g with varargNode := Function.update g.varargNode f (some va) }

/-- The number of the last pointer parameter of `f`, the largest 32-bit number if there is
none. -/
def lastPtr (f : Nat) : Nat :=
  (List.range (P.func f).params.length).foldl (fun last i =>
    if P.isPtr (.arg f i) then i else last) (2 ^ 32 - 1)

/-- `~0UL` -/
def allOnes : Nat := 2 ^ P.ulongBits - 1

/-- The rest of the object of the address-taken function `f`, whose first node is `onF`: the
return node, the parameters up to the last pointer and the varargs. -/
def idTakenFunc (f onF : Nat) : GenM Unit := do
  let F := P.func f
  (List.range F.params.length).forM fun i => do
    setValNode (.arg f i) (onF + funcNodeOffArg0 + i)
    modify fun g => { g with atArgs := insert (.arg f i) g.atArgs }
  let last := lastPtr P f
  require ((← get).nextNode = onF + funcNodeOffRet) "next_node == onF + func_node_off_ret"
  pushNodes (.func f) [1] false
  bump 1
  require ((← get).nextNode = onF + funcNodeOffArg0) "next_node == onF + func_node_off_arg0"
  if last ≠ allOnes P then
    inRange (last < F.params.length) "args"
    (List.range (last + 1)).forM fun i => pushNode { val := some (.arg f i), objSz := 1 }
    bump (last + 1)
  if F.isVarArg then
    pushNodes (.func f) [1] false
    bump 1
  -- now we have the complete object
  modify fun g => { g with nodes := g.nodes.modify onF fun N =>
    { N with objSz := g.nextNode - onF } }

/-- Add the nodes and constraints for the declaration of function `f`. -/
def idFunc (fuel f : Nat) : GenM Unit := do
  let AT ← P.escapes fuel (.func f)
  let onF ← if AT then do
      let vnF ← takeNode
      let onF ← takeNode
      pushNode { val := some (.func f) }
      pushNode { val := some (.func f), objSz := 1 }
      setValNode (.func f) vnF
      setObjNode (.func f) onF
      cons .addrOf vnF onF
      pure onF
    else pure 0
  -- external functions are handled at the call site
  if P.isExt f then return
  if (P.func f).name = "main" then idMainArgs P f
  else if AT then idTakenFunc P f onF
  else idPlainFunc P f

/-! ## Instructions -/

/-- A copy for every operand that is not null. -/
def copyAll (fuel vnI : Nat) (ops : List Val) : GenM Unit :=
  ops.forM fun op => do
    let vnS ← getValNodeCptr P fuel op
    consUnless0 .copy vnI vnS

def idRetInsn (fuel i : Nat) : GenM Unit :=
  match (P.insts i).ops with
  | [] => pure ()
  | src :: _ => do
      if P.isPtr src then
        let rnF ← getRetNode P (P.parent i).1
        let vnS ← getValNodeCptr P fuel src
        require (rnF ≠ 0) "rnF"
        consUnless0 .copy rnF vnS

/-- The callee of a call, also through a bitcast. -/
def calleeOf (I : Inst) : Option Nat :=
  match I.operand 0 with
  | .func f => some f
  | .expr .bitCast _ (.cons (.func f) _) => some f
  | _ => none

def idCallInsn (fuel i : Nat) : GenM Unit := do
  let I := P.insts i
  let vnI ← findValNode (.inst i)
  let F := calleeOf I
  if vnI ≠ 0 then idCallObj P fuel vnI F
  match F with
  | some f => if P.isExt f then idExtCall P fuel i f else idDirCall P fuel i f
  | none => idIndCall P fuel i

/-- The type of the allocated data is only looked up where `KSA` is set; here it is null. -/
def idAllocInsn (i : Nat) : GenM Unit := do
  let _ ← getValNode (.inst i)
  let on := (← get).nextNode
  setObjNode (.inst i) on
  throw (.assertion "isa<> used on a null pointer")

def idLoadInsn (fuel i : Nat) : GenM Unit := do
  let vnI ← getValNode (.inst i)
  let vnS ← getValNodeCptr P fuel ((P.insts i).operand 0)
  -- a load from null only prints a warning
  consUnless0 .load vnI vnS

def idStoreInsn (fuel i : Nat) : GenM Unit := do
  let dest := (P.insts i).operand 1
  let src := (P.insts i).operand 0
  if P.isPtr src then
    let vnD ← getValNodeCptr P fuel dest
    let vnS ← getValNodeCptr P fuel src
    if vnS ≠ 0 ∧ vnD ≠ 0 then cons .store vnD vnS

def idGepInsn (fuel i : Nat) : GenM Unit := do
  let vnI ← getValNode (.inst i)
  let ops := (P.insts i).ops
  let S := (P.insts i).operand 0
  if S.isNullPtr then
    -- with more indices the result is considered null
    if ops.length = 2 then idI2pInsn P fuel (.inst i)
  else
    let vnS ← getValNodeCptr P fuel S
    require (vnS ≠ 0) "non-null GEP operand has no node"
    let off ← computeGepOff P fuel ops
    cons .gep vnI vnS off

def idBitcastInsn (fuel i : Nat) : GenM Unit := do
  let vnI ← getValNode (.inst i)
  let op := (P.insts i).operand 0
  require (P.isPtr op) "isa<PointerType>(op->getType())"
  let vnS ← getValNodeCptr P fuel op
  consUnless0 .copy vnI vnS

def idPhiInsn (fuel i : Nat) : GenM Unit := do
  let vnI ← getValNode (.inst i)
  copyAll P fuel vnI (P.insts i).ops

/-- `a0 ? a1 : a2` -/
def idSelectInsn (fuel i : Nat) : GenM Unit := do
  let vnI ← getValNode (.inst i)
  let vnS1 ← getValNodeCptr P fuel ((P.insts i).operand 1)
  let vnS2 ← getValNodeCptr P fuel ((P.insts i).operand 2)
  consUnless0 .copy vnI vnS1
  consUnless0 .copy vnI vnS2

def idVaargInsn (i : Nat) : GenM Unit := do
  let vnI ← getValNode (.inst i)
  let vaF ← getVarargNode P (P.parent i).1
  require (vaF ≠ 0) "va_list args not handled yet"
  cons .copy vnI vaF

def idExtractInsn : GenM Unit := throw (.assertion "ExtractValue not handled yet")

/-- Handle an instruction by its opcode. -/
def visitInsn (fuel i : Nat) : GenM Unit := do
  let I := P.insts i
  let isPtr := I.ty.isPtr
  match I.op with
  | .ret => do
      require (!isPtr) "!is_ptr"
      idRetInsn P fuel i
  | .invoke | .call => idCallInsn P fuel i
  | .alloca => do
      require isPtr "is_ptr"
      idAllocInsn i
  | .load => if isPtr then idLoadInsn P fuel i
  | .store => do
      require (!isPtr) "!is_ptr"
      idStoreInsn P fuel i
  | .gep => do
      require isPtr "is_ptr"
      idGepInsn P fuel i
  | .intToPtr => do
      require isPtr "is_ptr"
      idI2pInsn P fuel (.inst i)
  | .bitCast => if isPtr then idBitcastInsn P fuel i
  | .phi => if isPtr then idPhiInsn P fuel i
  | .select => if isPtr then idSelectInsn P fuel i
  | .vaArg => if isPtr then idVaargInsn P i
  | .extractValue => if isPtr then idExtractInsn
  | _ => require (!isPtr) "unknown insn has a pointer return type"

/-- Handle block `b` of function `f` and the blocks behind it that were not seen yet. -/
def processBlock : Nat → Nat → Nat → List Nat → GenM (List Nat)
  | 0, _, _, _ => throw .fuel
  | fuel + 1, f, b, seen => do
    if b ∈ seen then return seen
    match (P.func f).blocks[b]? with
    | none => return b :: seen
    | some B =>
        B.insts.forM fun i => visitInsn P fuel i
        B.succs.foldlM (fun seen b' => processBlock fuel f b' seen) (b :: seen)

/-- Process all instructions in `f`, after making the nodes of those that return pointers. -/
def visitFunc (fuel f : Nat) : GenM Unit := do
  ((P.func f).blocks.flatMap Block.insts).forM fun i => do
    if (P.insts i).ty.isPtr then
      pushNode { val := some (.inst i) }
      let n ← takeNode
      setValNode (.inst i) n
  let _ ← processBlock P fuel f 0 []

/-! ## The whole module -/

/-- Insert the special nodes. -/
def specialNodes : GenM Unit := do
  modify fun g => { g with nextNode := firstVarNode }
  (List.range firstVarNode).forM fun _ => pushNode {}
  -- i2p is an object, since its address is taken
  modify fun g => { g with nodes := g.nodes.modify i2p fun N => { N with objSz := 1 } }
  cons .addrOf pI2p i2p

/-- Identify the objects and constraints of the module. -/
def objConsId (fuel : Nat) : GenM Unit := do
  specialNodes
  modify fun g => { g with maxStruct := .int, maxStructSz := 0 }
  P.named.forM fun s => analyzeStruct P fuel s
  (List.range P.funcs.length).forM fun f => idFunc P fuel f
  (List.range P.globals.length).forM fun i => idGlobal P fuel i
  -- an initializer may refer to a global below it
  (List.range P.globals.length).forM fun i =>
    match (P.global i).init with
    | some C => do
        let _ ← procGlobalInit P fuel (← getObjNode (.global i)) C true
    | none => pure ()
  -- the GEP expressions that are left may be local
  (← get).gepCe.forM fun vn => procGepCe P fuel vn
  (List.range P.funcs.length).forM fun f =>
    if P.isExt f then pure () else visitFunc P fuel f
  let g ← get
  require (g.nextNode = g.nodes.length) "wrong node count"

end

/-! ## Clumping -/

/-- Which nodes are moved to the front. -/
def isObj (N : GenNode) : Bool := decide (N.objSz ≠ 0)

/-- The node at `i` goes behind the special nodes and the object nodes before it; a value node
goes behind all object nodes. -/
def moveTo (nodes : List GenNode) (i : Nat) : Nat :=
  if i < firstVarNode then i
  else
    let vars := nodes.drop firstVarNode
    let before := vars.take (i - firstVarNode)
    if isObj (nodes.getD i {}) then firstVarNode + before.countP isObj
    else firstVarNode + vars.countP isObj + before.countP fun N => !isObj N

def lastObjNode (nodes : List GenNode) : Nat :=
  firstVarNode + (nodes.drop firstVarNode).countP isObj - 1

/-- The nodes in their new order. -/
def clumped (nodes : List GenNode) : List GenNode :=
  nodes.take firstVarNode ++ (nodes.drop firstVarNode).filter isObj ++
    (nodes.drop firstVarNode).filter fun N => !isObj N

def moveCons (mv : Nat → Nat) (C : Constraint) : Constraint :=
  { C with dest := mv C.dest, src := mv C.src }

/-- The array `move_to` has an element for every node of `g`. -/
def readMoveTo (g : Gen) (n : Nat) : GenM Unit := inRange (n < g.nodes.length) "move_to"

/-- What is read of `move_to`, with `entries` for the keys in the maps. -/
def clumpReads (entries : List Slot) (g : Gen) : GenM Unit := do
  g.constraints.forM fun C => do
    readMoveTo g C.dest
    readMoveTo g C.src
    -- no value node has its address taken
    require (C.type = .addrOf → moveTo g.nodes C.src ≤ lastObjNode g.nodes)
      "C.type != addr_of_cons || C.src <= last_obj_node"
  entries.forM fun a =>
    match g.slots a with
    | some n => readMoveTo g n
    | none => pure ()
  (ascending g.indCalls).forM (readMoveTo g)
  g.icallCons.forM fun e => do
    readMoveTo g e.1.dest
    readMoveTo g e.1.src

/-- Move all address-taken nodes to the front and renumber everything; the maps are walked in the
order of `entries`. -/
def clumpAddrTaken (entries : List Slot) : GenM Nat := do
  let g ← get
  let mv := moveTo g.nodes
  let last := lastObjNode g.nodes
  clumpReads entries g
  modify fun g => { g with
    nodes := clumped g.nodes
    constraints := g.constraints.map (moveCons mv)
    valNode := fun v => (g.valNode v).map mv
    objNode := fun v => (g.objNode v).map mv
    retNode := fun f => (g.retNode f).map mv
    varargNode := fun f => (g.varargNode f).map mv
    indCalls := g.indCalls.image mv
    icallCons := g.icallCons.map fun e => (moveCons mv e.1, e.2) }
  return last

end Gen

end PtrAnalysis
