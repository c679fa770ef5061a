import PtrAnalysis.Gen

/-!
# Nodes for values

`getValNodeCptr` finds the node of an operand, with special handling of constant
pointers: null has none, a bitcast has that of its operand, and a pointer made from an
integer gets a node of its own, whose sources `traceInt` looks for.
-/

namespace PtrAnalysis

open Run

/-! ## Tracing integers to pointers -/

/-- The pointers found so far, and the values visited with what they returned. -/
structure Trace where
  src : List Val
  seen : Val → Option Bool

namespace Trace

/-- `src.insert(V)` -/
def insert (t : Trace) (v : Val) : Trace := { t with src := if v ∈ t.src then t.src else t.src ++ [v] }

def see (t : Trace) (v : Val) (r : Bool) : Trace :=
  { t with seen := Function.update t.seen v (some r) }

/-- `if(r) seen[V]= 1; return r` -/
def found (v : Val) (r : Bool) (t : Trace) : Run (Bool × Trace) :=
  .ok (r, if r then t.see v true else t)

end Trace

section

variable (P : Ir)

/-- What was last stored to `addr` in the block of the load `i`, before it. -/
def lastStore (i : Nat) (addr : Val) : List Nat → Option Val → Run (Option Val)
  | [], _ => .error (.assertion "found")
  | j :: rest, S =>
    let I := P.insts j
    match I.op with
    | .store => lastStore i addr rest (if I.operand 1 = addr then some (I.operand 0) else S)
    | .load => if j = i then .ok S else lastStore i addr rest S
    | _ => lastStore i addr rest S

/-- The instructions in the block of `i`. -/
def blockOf (i : Nat) : List Nat :=
  let (f, b) := P.parent i
  (((P.func f).blocks[b]?).map Block.insts).getD []

/-- What the load `i` from `addr` gives, if we can tell: the initializer of a constant, or
what was last stored. -/
def loadSource (i : Nat) (addr : Val) : Run (Option Val) :=
  let stored := lastStore P i addr (blockOf P i) none
  match addr with
  | .global g =>
      match (P.global g).init with
      | some C => if (P.global g).isConstant then .ok (some C) else stored
      | none => stored
  | _ => stored

/-- Find the possible pointer sources of the integer `v`. Returns true if some path cannot be
traced to a pointer. -/
def traceInt : Nat → Val → Trace → Run (Bool × Trace)
  | 0, _, _ => .error .fuel
  | fuel + 1, v, t =>
    match t.seen v with
    | some r => .ok (r, t)
    | none => do
      require ((P.typeOf v).isInt) "trying to trace non-int value"
      let t := t.see v false
      let unknown : Run (Bool × Trace) := .ok (true, t.see v true)
      let trace1 (op : Val) : Run (Bool × Trace) := do
        let (r, t) ← traceInt fuel op t
        Trace.found v r t
      let trace2 (f : Bool → Bool → Bool) (a b : Val) : Run (Bool × Trace) := do
        let (r1, t) ← traceInt fuel a t
        let (r2, t) ← traceInt fuel b t
        Trace.found v (f r1 r2) t
      let step (load : Val → Run (Bool × Trace)) (op : Op) (ops : List Val) :
          Run (Bool × Trace) :=
        let a := ops.headD (.misc .other 0)
        let b := ops.getD 1 (.misc .other 0)
        match op with
        | .invoke | .fpToUI | .fpToSI | .iCmp | .fCmp | .call | .vaArg | .extractElement => unknown
        | .ptrToInt => .ok (false, t.insert a)
        | .load => load a
        | .shl | .lShr | .aShr | .trunc | .zExt | .sExt | .bitCast =>
            if (P.typeOf a).isInt then trace1 a
            else do
              require (op = .bitCast) "invalid operand for int insn"
              require (P.typeOf a = .float) "invalid cast to int"
              unknown
        -- with two possible addresses, assume the unknown one is an offset for the other
        | .add | .sub | .mul | .uDiv | .sDiv | .uRem | .sRem | .and | .or | .xor =>
            trace2 Bool.and a b
        | .phi => do
            let (r, t) ← ops.foldlM (fun (u : Bool × Trace) x =>
              if (P.typeOf x).isInt then do
                let (r, t) ← traceInt fuel x u.2
                return (u.1 || r, t)
              else if P.isPtr x then .ok (u.1, u.2.insert x)
              else .ok (true, u.2)) (false, t)
            Trace.found v r t
        | .select => trace2 Bool.or a b
        | _ => .error (.assertion "this insn should not produce an int value")
      match v with
      | .arg _ _ | .num _ _ => unknown
      | .expr op _ ops =>
          step (fun _ => .error (.assertion "cast<LoadInst>")) op ops.toList
      | .inst i =>
          step (fun addr => do
            match ← loadSource P i addr with
            | some S => trace1 S
            | none => unknown) (P.insts i).op (P.insts i).ops
      | _ => .error (.assertion "unknown type of int value")

/-! ## Constant pointers -/

namespace Gen

/-- What `id_i2p_insn` converts: the node and the integer operand. -/
def i2pOperand (v : Val) : GenM (Nat × Val) :=
  match v with
  | .inst i => do
      let I := P.insts i
      match I.op with
      | .intToPtr => return (← getValNode v, I.operand 0)
      | .gep => do
          require ((I.operand 0).isNullPtr ∧ I.ops.length = 2)
            "only single-index GEP of null is used for i2p"
          return (← getValNode v, I.operand 1)
      | _ => throw (.assertion "value is not i2p, gep, or const.expr")
  | .expr op _ ops => do
      require (((← get).valNode v).isNone) "!val_node.count(E)"
      let vnD ← takeNode
      pushNode { val := some v }
      setValNode v vnD
      match op with
      | .intToPtr => return (vnD, v.operand0)
      | .gep => do
          require (v.operand0.isNullPtr ∧ ops.toList.length = 2)
            "only single-index GEP of null is used for i2p"
          return (vnD, ops.toList.getD 1 (.misc .other 0))
      | _ => throw (.assertion "const.expr is not i2p or gep")
  | _ => throw (.assertion "value is not i2p, gep, or const.expr")

mutual

/-- The value node of `v`, with special handling of constant pointers. -/
def getValNodeCptr : Nat → Val → GenM Nat
  | 0, _ => throw .fuel
  | fuel + 1, v => do
    let vn ← findValNode v
    if vn ≠ 0 then return vn
    require (v.isConstant ∧ P.isPtr v) "value w/o node is not a const ptr"
    require (!v.isGlobal) "global const.ptr has no node"
    if v.isNullPtr ∨ v.isUndef then return 0
    match v with
    | .expr op _ ops =>
        match op with
        | .bitCast => getValNodeCptr fuel v.operand0
        | .intToPtr => do
            idI2pInsn fuel v
            getValNode v
        | .gep => do
            require v.operand0.isNullPtr "unexpected GEP CE"
            if ops.toList.length > 2 then return 0
            idI2pInsn fuel v
            getValNode v
        | _ => throw (.assertion "unknown opcode in const.ptr expr")
    | _ => throw (.assertion "unknown const.ptr type")

/-- Handle an instruction or constant expression that makes a pointer from an integer. -/
def idI2pInsn : Nat → Val → GenM Unit
  | 0, _ => throw .fuel
  | fuel + 1, v => do
    let (vnD, op) ← i2pOperand P v
    let (hasI2p, t) ← traceInt P fuel op ⟨[], fun _ => none⟩
    (P.setOrder t.src).forM fun S => do
      let vnS ← getValNodeCptr fuel S
      consUnless0 .copy vnD vnS
    if hasI2p then cons .addrOf vnD i2p

end

/-! ## What the search for a node keeps -/

theorem getValNode_runs {R : Gen → Gen → Prop} [IsPreorder Gen R] (v : Val) :
    Act.Runs R (getValNode v) :=
  .bind .get fun _ => .lift _

/-- A relation that the operations keep is kept by both functions, by induction on the depth of
the recursion. -/
theorem cptr_runs {P : Ir} {R : Gen → Gen → Prop} [IsPreorder Gen R]
    (hoperand : ∀ v, Act.Runs R (i2pOperand P v))
    (hcopy : ∀ dest src, Act.Runs R (cons .copy dest src))
    (hi2p : ∀ dest, Act.Runs R (cons .addrOf dest i2p)) (fuel : Nat) :
    (∀ v, Act.Runs R (getValNodeCptr P fuel v)) ∧ ∀ v, Act.Runs R (idI2pInsn P fuel v) := by
  induction fuel with
  | zero => exact ⟨fun _ => .throw _, fun _ => .throw _⟩
  | succ fuel ih =>
      obtain ⟨ihV, ihI⟩ := ih
      constructor
      · intro v
        unfold getValNodeCptr
        refine .bind (.bind .get fun _ => .lift _) fun vn => .ite (.pure _) ?_
        refine .bind (.lift _) fun _ => .bind (.lift _) fun _ => .ite (.pure _) ?_
        split
        · split
          · exact ihV _
          · exact .bind (ihI _) fun _ => getValNode_runs _
          · refine .bind (.lift _) fun _ => .ite (.pure _) ?_
            exact .bind (ihI _) fun _ => getValNode_runs _
          · exact .throw _
        · exact .throw _
      · intro v
        rw [idI2pInsn]
        refine .bind (hoperand v) fun _ => .bind (.lift _) fun _ => .bind (.forM ?_) ?_
        · exact fun S _ => .bind (ihV S) fun _ => .ite (.pure _) (hcopy _ _)
        · exact fun _ => .ite (hi2p _) (.pure _)

end Gen

end

end PtrAnalysis
