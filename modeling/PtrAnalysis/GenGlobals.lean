import PtrAnalysis.GenValues

/-!
# Globals and their initializers

`idGlobal` makes the node of a global and its object, `idGepCe` the nodes of the constant
GEPs that use it. `procGlobalInit` walks an initializer along the fields of the object;
`procGepCe` adds the constraint of a constant GEP, for which the global it starts from has
to be initialized: the two call each other.
-/

namespace PtrAnalysis

open Run

namespace Gen

section

variable (P : Ir)

/-- Add nodes for the constant GEP expressions that use `v`, also through bitcasts. -/
def idGepCe : Nat → Val → GenM Unit
  | 0, _ => throw .fuel
  | fuel + 1, v => (P.users v).forM fun u =>
    match u with
    | .expr .bitCast _ _ => idGepCe fuel u
    | .expr .gep _ _ => do
        require (u.operand0 = v) "ptr used as index operand"
        require (((← get).valNode u).isNone) "!val_node.count(E)"
        let vn ← takeNode
        pushNode { val := some u }
        setValNode u vn
        modify fun g => { g with gepCe := g.gepCe ++ [vn] }
    | _ => pure ()

/-- Add the nodes and constraints for the declaration of global `i`. -/
def idGlobal (fuel i : Nat) : GenM Unit := do
  let G : Val := .global i
  pushNode { val := some G }
  let vnG ← takeNode
  setValNode G vnG
  let T := (P.global i).elem.strip
  let isArray := decide ((P.global i).elem ≠ T)
  let onG := (← get).nextNode
  setObjNode G onG
  match T with
  | .struct s => do
      -- all fields are there, with the sizes of the structs they begin
      let sz ← getStructSz P fuel s
      pushNodes G sz isArray
      bump sz.length
      idGepCe P fuel G
  | _ => do
      pushNodes G [1] isArray
      bump 1
      if isArray then idGepCe P fuel G
  cons .addrOf vnG onG

/-- The entry of a node that was visited for global initializers. -/
def setInitDone (n k : Nat) : GenM Unit :=
  modify fun g => { g with globalInitDone := Function.update g.globalInitDone n (some k) }

/-- A value node for the constant expression `v`, which may be reached for the first time. -/
def gepNode (v : Val) : GenM Nat := do
  let vn ← findValNode v
  if vn ≠ 0 then return vn
  let vn ← takeNode
  pushNode { val := some v }
  setValNode v vn
  return vn

/-- What is behind the bitcasts around an initializer. -/
inductive Stripped where
  | value (C : Val)
  /-- Made from an integer, which is not traced for globals. -/
  | unknown
  /-- A pointer turned into an integer. -/
  | number
  deriving DecidableEq, Repr

/-- Strip bitcasts, until we get to a GEP or anything but an expression. -/
def stripInit : Nat → Val → Run Stripped
  | 0, _ => .error .fuel
  | fuel + 1, C =>
    match C with
    | .expr op _ _ =>
        match op with
        | .bitCast => stripInit fuel C.operand0
        | .gep => .ok (.value C)
        | .intToPtr => .ok .unknown
        | .ptrToInt => .ok .number
        | _ => .error (.assertion "unexpected constant expr type")
    | _ => .ok (.value C)

/-- Strip bitcasts from the base of a GEP; the flag says that another GEP was reached, and
none stands for a pointer made from an integer. -/
def stripBase : Nat → Val → Run (Option (Val × Bool))
  | 0, _ => .error .fuel
  | fuel + 1, R =>
    match R with
    | .expr op _ _ =>
        match op with
        | .bitCast => stripBase fuel R.operand0
        | .intToPtr => .ok none
        | .gep => .ok (some (R, true))
        | _ => .error (.assertion "unexpected constant expr type")
    | _ => .ok (some (R, false))

mutual

/-- Add constraints for the global with object node `onG` and initializer `C`; returns the
number of fields processed. `first` is unset in the recursion over parts of `C`. -/
def procGlobalInit : Nat → Nat → Val → Bool → GenM Nat
  | 0, _, _, _ => throw .fuel
  | fuel + 1, onG, C, first => do
    require (onG ≠ 0) "onG && C"
    match (← get).globalInitDone onG with
    | some k => return k
    | none =>
      let done (k : Nat) : GenM Nat := do
        if first then setInitDone onG k
        return k
      match ← stripInit fuel C with
      | .number => done 1
      | .unknown =>
          cons .addrOf onG i2p
          done 1
      | .value C =>
        if C.isNullValue ∨ C.isUndef then done 1
        else if (P.typeOf C).isSingleValue then
          if P.isPtr C then
            match C with
            | .expr .. => do
                let vnE ← gepNode C
                procGepCe fuel vnE
                cons .copy onG vnE
            | _ => do
                -- a global pointer that was identified before
                let onC ← getObjNode C
                cons .addrOf onG onC
          done 1
        else
          match C with
          | .struct _ fields => do
              let off ← fields.toList.foldlM (fun off C' => do
                let k ← procGlobalInit fuel (onG + off) C' false
                return off + k) 0
              done off
          | .array _ elems => do
              -- every element goes into the same nodes
              let off ← elems.toList.foldlM (fun _ C' => procGlobalInit fuel onG C' false) 0
              done off
          | _ => throw (.assertion "unexpected non-1st-class constant")

/-- Add constraints for the constant GEP at node `vnE`. -/
def procGepCe : Nat → Nat → GenM Unit
  | 0, _ => throw .fuel
  | fuel + 1, vnE => do
    match ((← get).nodes.getD vnE {}).val with
    | some E@(.expr .gep _ ops) =>
        if ((← get).globalInitDone vnE).isSome then return
        setInitDone vnE 1
        match ← stripBase fuel E.operand0 with
        | none => cons .addrOf vnE i2p
        | some (R, nested) =>
            require (!R.isNullPtr) "GEP of null not supported for global init"
            let vnR ← gepNode R
            let off ← computeGepOff P fuel ops.toList
            cons .gep vnE vnR off
            if nested then procGepCe fuel vnR
            else match R with
              | .global g =>
                  match (P.global g).init with
                  | some C => do
                      let _ ← procGlobalInit fuel (← getObjNode R) C true
                  | none => pure ()
              | _ => pure ()
    | _ => throw (.assertion "E->getOpcode() == Instruction::GetElementPtr")

end

end

end Gen

end PtrAnalysis
