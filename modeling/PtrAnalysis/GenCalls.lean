import PtrAnalysis.GenValues

/-!
# Calls

A call whose result is a pointer gets an object if the callee allocates or may allocate
(`idCallObj`). A direct call copies arguments and result (`idDirCall`), an indirect one
loads and stores at the offsets of the function object (`idIndCall`), to be resolved by
the solver, and the call of an external function has the effect its type says
(`idExtCall`).
-/

namespace PtrAnalysis

open Run

namespace Gen

section

variable (P : Ir)

/-! ## Objects of allocations -/

/-- Find the largest type that the result of instruction `i` may be cast to. -/
def traceAllocType (fuel i : Nat) : GenM Ty := do
  let structSz (T : Ty) : GenM Nat :=
    match T with
    | .struct s => do return (← getStructSz P fuel s).length
    | _ => pure 0
  let MT := (P.insts i).ty.contained.strip
  let msz ← structSz MT
  let (MT, msz, found) ← (P.users (.inst i)).foldlM (fun (t : Ty × Nat × Bool) u => do
    let (MT, msz, found) := t
    match u with
    | .inst j =>
        let CI := P.insts j
        -- only casts to other pointer types
        if CI.op.isCast ∧ CI.ty.isPtr then
          let T := CI.ty.contained.strip
          let sz ← structSz T
          if sz > msz then return (T, sz, true) else return (MT, msz, true)
        else return (MT, msz, found)
    | _ => return (MT, msz, found)) (MT, msz, false)
  -- without any casts it may be cast to the largest struct later on
  if !found ∧ msz = 0 then return (← get).maxStruct
  return MT

/-- Push the nodes of an object for `v` of type `T`, and count them. -/
def pushObject (fuel : Nat) (v : Val) (T : Ty) (weak : Bool) : GenM Unit :=
  match T with
  | .struct s => do
      let sz ← getStructSz P fuel s
      pushNodes v sz weak
      bump sz.length
  | _ => do
      pushNodes v [1] weak
      bump 1

/-- The static object that the external function `f` returns, for the call `I`: it may point
to another one. -/
def staticObj (fuel : Nat) (I : Val) (f : Nat) : GenM Nat := do
  let fn := (P.func f).name
  match (← get).statRetNode fn with
  | some on => return on
  | none =>
      let on := (← get).nextNode
      setObjNode I on
      modify fun g => { g with statRetNode := Function.update g.statRetNode fn (some on) }
      if P.hasStatic2 f then
        pushNodes I [2, 1] true
        bump 2
        cons .addrOf on (on + 1)
      else pushObject P fuel I (P.typeOf I).contained true
      return on

/-- Make the object nodes for the call at node `vnI` of function `F`, if that is known. -/
def idCallObj (fuel vnI : Nat) (F : Option Nat) : GenM Unit := do
  match ((← get).nodes.getD vnI {}).val with
  | some (.inst i) =>
    let I : Val := .inst i
    match F with
    | none => do
        let T ← traceAllocType P fuel i
        let on := (← get).nextNode
        setObjNode I on
        -- the solver will determine if the result points to it
        pushObject P fuel I T true
    | some f =>
      if P.noStructAlloc f then do
        let on ← takeNode
        setObjNode I on
        pushNodes I [1] true
        cons .addrOf vnI on
      else do
        let fresh ← if P.isAlloc f then pure true
          else if P.extType f = .realloc then do
            match (P.insts i).args with
            | [] => throw (.assertion "Argument # out of range!")
            | a :: _ => pure a.isNullPtr
          else pure false
        if fresh then
          -- an external allocation is equivalent to a malloc
          let T ← traceAllocType P fuel i
          let on := (← get).nextNode
          setObjNode I on
          pushObject P fuel I T true
          cons .addrOf vnI on
        else if P.hasStatic f then
          let on ← staticObj P fuel I f
          cons .addrOf vnI on
  | _ => throw (.assertion "I")

/-! ## Direct and indirect calls -/

/-- Copy an actual argument to the node `vnF`. -/
def passArg (fuel vnF : Nat) (AA : Val) : GenM Unit := do
  if P.isPtr AA then
    let vnAA ← getValNodeCptr P fuel AA
    consUnless0 .copy vnF vnAA
  else cons .addrOf vnF i2p

/-- The fixed parameters of a direct call of `f`, from number `i` on; returns the actual
arguments behind them. Some programs leave unneeded parameters empty. -/
def passFixed (fuel f : Nat) : Nat → List Ty → List Val → GenM (List Val)
  | _, [], as => pure as
  | _, _ :: _, [] => pure []
  | i, T :: Ts, AA :: as => do
      -- formal parameters that are no pointers need no constraints
      if T.isPtr then
        let vnFA ← getValNode (.arg f i)
        passArg P fuel vnFA AA
      passFixed fuel f (i + 1) Ts as

/-- Add the constraints for the direct call `i` of function `f` of the program. -/
def idDirCall (fuel i f : Nat) : GenM Unit := do
  let I := P.insts i
  let F := P.func f
  -- the result only matters if it is used as a pointer
  if I.ty.isPtr then
    let vnI ← getValNode (.inst i)
    if F.ret.isPtr then
      let rnF ← getRetNode P f
      require (rnF ≠ 0) "rnF"
      cons .copy vnI rnF
    else
      -- an int->ptr cast that we cannot trace
      cons .addrOf vnI i2p
  let rest ← passFixed P fuel f 0 F.params I.args
  if F.isVarArg then
    let vaF ← getVarargNode P f
    require (vaF ≠ 0) "vaF"
    rest.forM fun AA => passArg P fuel vaF AA
  else require (rest = []) "too many args to non-vararg func."

/-- Add a load or store of the indirect call `i`. -/
def consCall (i : Nat) (t : ConsType) (dest src off : Nat) : GenM Unit := do
  cons t dest src off
  tagCall ⟨t, dest, src, off⟩ i

/-- The arguments of the indirect call `i` of `vnC`, the first of them at the given offset. -/
def storeArgs (fuel i vnC : Nat) : Nat → List Val → GenM Unit
  | _, [] => pure ()
  | off, AA :: as => do
      -- the solver ignores this where the formal parameter is no pointer
      if P.isPtr AA then
        let vnAA ← getValNodeCptr P fuel AA
        if vnAA ≠ 0 then consCall i .store vnC vnAA off
      else consCall i .store vnC pI2p off
      storeArgs fuel i vnC (off + 1) as

/-- Add the constraints for the indirect call `i`. -/
def idIndCall (fuel i : Nat) : GenM Unit := do
  let I := P.insts i
  match I.called with
  | .inlineAsm _ => pure ()
  | C => do
    -- the callee may be a constant made from an integer
    let vnC ← getValNodeCptr P fuel C
    require (vnC ≠ 0) "null callee"
    modify fun g => { g with indCalls := insert vnC g.indCalls }
    if I.ty.isPtr then
      let vnI ← getValNode (.inst i)
      consCall i .load vnI vnC funcNodeOffRet
    storeArgs P fuel i vnC funcNodeOffArg0 I.args

/-! ## Calls of external functions -/

/-- `getArgument(k)` -/
def callArg (I : Inst) (k : Nat) : GenM Val :=
  match I.args[k]? with
  | none => throw (.assertion "Argument # out of range!")
  | some v => pure v

/-- Find the largest offset in an object that `v` points to. -/
def getMaxOffset (fuel : Nat) (v : Val) : GenM Nat := do
  let pointee (T : Ty) : GenM Nat :=
    match T with
    | .ptr t => do return (← sizesOf P fuel t.strip).length
    | _ => pure 1
  match v with
  -- behind a cast, the type of its operand
  | .expr .. => pointee (P.typeOf v.operand0)
  | .inst i =>
      let I := P.insts i
      if I.op = .bitCast then pointee (P.typeOf (I.operand 0))
      else I.ops.foldlM (fun msz op => do
        let sz ← pointee (P.typeOf op)
        return if msz < sz then sz else msz) 1
  | .global g =>
      -- the initializer is its operand
      match (P.global g).init with
      | some C => do
          let sz ← pointee (P.typeOf C)
          return if 1 < sz then sz else 1
      | none => pure 1
  | _ => pure 1

/-- Add the load/store constraints and temporary nodes for `*D = *S`, where both may point to
structs; without a size the largest possible one is copied. -/
def addStore2Cons (fuel : Nat) (D S : Val) (sz : Nat) : GenM Unit := do
  let vnD ← getValNodeCptr P fuel D
  let vnS ← getValNodeCptr P fuel S
  if vnD = 0 ∨ vnS = 0 then return
  let sz ← if sz = 0 then do
      let szD ← getMaxOffset P fuel D
      let szS ← getMaxOffset P fuel S
      pure (min szD szS)
    else pure sz
  (List.range sz).forM fun i => do
    let tn ← takeNode
    pushNode {}
    cons .load tn vnS i
    cons .store vnD tn i

/-- `*D = S` for two arguments. -/
def storeArg (fuel : Nat) (I : Inst) (d s : Nat) : GenM Unit := do
  let vnD ← getValNodeCptr P fuel (← callArg I d)
  let vnS ← getValNodeCptr P fuel (← callArg I s)
  if vnD ≠ 0 ∧ vnS ≠ 0 then cons .store vnD vnS

/-- The result of `i` is argument `k`, if it is used as a pointer. -/
def returnArg (fuel i k : Nat) : GenM Unit := do
  let I := P.insts i
  if I.ty.isPtr then
    let vnD ← getValNode (.inst i)
    let src ← callArg I k
    passArg P fuel vnD src

/-- `*argK` points to a new object. -/
def newArg (fuel : Nat) (I : Inst) (k : Nat) : GenM Unit := do
  let dest ← callArg I k
  let vnD ← getValNodeCptr P fuel dest
  if vnD = 0 then return
  let T := (P.typeOf dest).contained
  require T.isPtr "arg is not a double pointer"
  let on := (← get).nextNode
  setObjNode dest on
  pushObject P fuel dest T.contained.strip true
  let vn ← takeNode
  pushNode {}
  cons .addrOf vn on
  cons .store vnD vn

/-- Add the constraints for the direct call `i` of the external function `f`. -/
def idExtCall (fuel i f : Nat) : GenM Unit := do
  require (P.isExt f) "F && extinfo->is_ext(F)"
  let I := P.insts i
  -- static and alloc were handled with the object of the call
  if P.isAlloc f ∨ P.hasStatic f then return
  match P.extType f with
  | .realloc => do
      -- the result may as well point to the object that arg0 points to
      if (← callArg I 0).isNullPtr then return
      returnArg P fuel i 0
  | .lA0 => returnArg P fuel i 0
  | .lA1 => returnArg P fuel i 1
  | .lA2 => returnArg P fuel i 2
  | .lA8 => returnArg P fuel i 8
  | .lA0_A0rA1r => do
      let a0 ← callArg I 0
      let a1 ← callArg I 1
      addStore2Cons P fuel a0 a1 0
      -- memcpy returns the destination
      if I.ty.isPtr then cons .copy (← getValNode (.inst i)) (← getValNode a0)
  | .a1rA0r => do
      addStore2Cons P fuel (← callArg I 1) (← callArg I 0) 0
  | .a3rA1rNs => do
      -- these are never used to copy structs
      addStore2Cons P fuel (← callArg I 3) (← callArg I 1) 1
  | .a1rA0 => storeArg P fuel I 1 0
  | .a2rA1 => storeArg P fuel I 2 1
  | .a4rA1 => storeArg P fuel I 4 1
  | .lA0_A2rA0 => do
      returnArg P fuel i 0
      storeArg P fuel I 2 0
  | .a0rNew => newArg P fuel I 0
  | .a1rNew => newArg P fuel I 1
  | .a2rNew => newArg P fuel I 2
  | .a4rNew => newArg P fuel I 4
  | .a11rNew => newArg P fuel I 11
  | .alloc | .noStructAlloc | .stat | .stat2 =>
      throw (.assertion "alloc type func. are not handled here")
  | .noop | .other => return

end

end Gen

end PtrAnalysis
