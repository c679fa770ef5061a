import PtrAnalysis.Program

/-!
# The analysed module

The part of LLVM's representation that the constraint generator reads: types,
values, instructions with their operands, functions and globals. Constants are
trees and compare by structure, because LLVM keeps one copy of each; everything else
is a number. Operands stand in the order of the LLVM the headers come from: the
arguments of a call come first and its callee after them.
-/

namespace PtrAnalysis

inductive Ty where
  | void
  | int
  | float
  | ptr (elem : Ty)
  | array (elem : Ty)
  | struct (s : Nat)
  | vector (elem : Ty)
  | other
  deriving DecidableEq, Repr

namespace Ty

def isPtr : Ty → Bool
  | .ptr _ => true
  | _ => false

def isInt : Ty → Bool
  | .int => true
  | _ => false

/-- `isSingleValueType` -/
def isSingleValue : Ty → Bool
  | .int | .float | .ptr _ | .vector _ => true
  | _ => false

/-- An array is considered a single element of its type. -/
def strip : Ty → Ty
  | .array t => t.strip
  | t => t

/-- `getContainedType(0)` -/
def contained : Ty → Ty
  | .ptr t | .array t | .vector t => t
  | _ => .other

end Ty

inductive Op where
  | ret | br | invoke | call | alloca | load | store | gep | phi | select | vaArg | extractValue
  | intToPtr | ptrToInt | bitCast
  | add | sub | mul | uDiv | sDiv | uRem | sRem | and | or | xor
  | shl | lShr | aShr | trunc | zExt | sExt
  | fpToUI | fpToSI | iCmp | fCmp | extractElement
  | other
  deriving DecidableEq, Repr

/-- `isa<CastInst>` -/
def Op.isCast : Op → Bool
  | .intToPtr | .ptrToInt | .bitCast | .trunc | .zExt | .sExt | .fpToUI | .fpToSI => true
  | _ => false

/-- `isa<CmpInst>` -/
def Op.isCmp : Op → Bool
  | .iCmp | .fCmp => true
  | _ => false

mutual

inductive Val where
  | func (f : Nat)
  | global (g : Nat)
  /-- Formal parameter `i` of function `f`. -/
  | arg (f i : Nat)
  | inst (i : Nat)
  | null (t : Ty)
  | undef (t : Ty)
  /-- `zeroinitializer` of a struct or array type. -/
  | zero (t : Ty)
  | num (t : Ty) (n : Nat)
  | struct (s : Nat) (fields : Vals)
  | array (elem : Ty) (elems : Vals)
  /-- An array of plain numbers, which LLVM stores as raw data. -/
  | dataArray (elem : Ty) (elems : List Nat)
  | expr (op : Op) (t : Ty) (ops : Vals)
  | inlineAsm (t : Ty)
  | misc (t : Ty) (n : Nat)
  deriving DecidableEq, Repr

inductive Vals where
  | nil
  | cons (v : Val) (vs : Vals)
  deriving DecidableEq, Repr

end

def Vals.toList : Vals → List Val
  | .nil => []
  | .cons v vs => v :: vs.toList

def Vals.ofList : List Val → Vals
  | [] => .nil
  | v :: vs => .cons v (.ofList vs)

@[simp] theorem Vals.toList_ofList (l : List Val) : (Vals.ofList l).toList = l := by
  induction l with
  | nil => rfl
  | cons v l ih => simp [ofList, toList, ih]

namespace Val

/-- `isNullValue` of a constant. -/
def isNullValue : Val → Bool
  | .null _ | .zero _ => true
  | .num _ n => n == 0
  | _ => false

/-- `isa<Constant>` -/
def isConstant : Val → Bool
  | .arg _ _ | .inst _ | .inlineAsm _ | .misc _ _ => false
  | _ => true

/-- `isa<GlobalValue>` -/
def isGlobal : Val → Bool
  | .func _ | .global _ => true
  | _ => false

/-- `isa<ConstantPointerNull>` -/
def isNullPtr : Val → Bool
  | .null _ => true
  | _ => false

def isUndef : Val → Bool
  | .undef _ => true
  | _ => false

/-- `dyn_cast<Function>` -/
def func? : Val → Option Nat
  | .func f => some f
  | _ => none

/-- The operands of a constant expression. -/
def exprOps : Val → List Val
  | .expr _ _ ops => ops.toList
  | _ => []

/-- The first operand of a constant expression. -/
def operand0 (v : Val) : Val := v.exprOps.headD (.misc .other 0)

end Val

structure Inst where
  op : Op
  ty : Ty
  ops : List Val
  deriving Repr

namespace Inst

/-- `getOperand(i)` -/
def operand (I : Inst) (i : Nat) : Val := I.ops.getD i (.misc .other 0)

/-- How many operands of a call or invoke are not arguments: the callee, and for an invoke
the two blocks behind it. -/
def nonArgs (I : Inst) : Nat := if I.op = .invoke then 3 else 1

def args (I : Inst) : List Val := I.ops.take (I.ops.length - I.nonArgs)

/-- `getCalledValue` -/
def called (I : Inst) : Val := I.operand (I.ops.length - I.nonArgs)

end Inst

structure Block where
  insts : List Nat
  succs : List Nat
  deriving Repr

structure Func where
  name : String
  isDeclaration : Bool
  isIntrinsic : Bool
  isVarArg : Bool
  params : List Ty
  ret : Ty
  /-- The entry block comes first. -/
  blocks : List Block
  deriving Repr

instance : Inhabited Func := ⟨⟨"", true, false, false, [], .void, []⟩⟩

structure Global where
  /-- The type this global points to. -/
  elem : Ty
  init : Option Val
  isConstant : Bool
  deriving Repr

instance : Inhabited Global := ⟨⟨.other, none, false⟩⟩

/-- A module, the table of known external functions and the machine we run on. -/
structure Ir where
  /-- The element types of a struct. -/
  structs : Nat → List Ty
  /-- The named structs, in the order of their table. -/
  named : List Nat
  funcs : List Func
  globals : List Global
  insts : Nat → Inst
  /-- The function of an instruction, and the number of its block there. -/
  parent : Nat → Nat × Nat
  /-- The use list of a value. -/
  users : Val → List Val
  /-- The table of external functions. -/
  extInfo : String → Option ExtType
  /-- The order in which a hash set of values is walked. -/
  setOrder : List Val → List Val
  /-- The width of `unsigned long`. -/
  ulongBits : Nat

namespace Ir

variable (P : Ir)

def func (f : Nat) : Func := P.funcs.getD f default

def global (g : Nat) : Global := P.globals.getD g default

/-- `getType` -/
def typeOf : Val → Ty
  | .func _ => .ptr .other
  | .global g => .ptr (P.global g).elem
  | .arg f i => (P.func f).params.getD i .other
  | .inst i => (P.insts i).ty
  | .null t | .undef t | .zero t | .num t _ | .expr _ t _ | .inlineAsm t | .misc t _ => t
  | .struct s _ => .struct s
  | .array t _ | .dataArray t _ => .array t

/-- `isa<PointerType>(V->getType())` -/
def isPtr (v : Val) : Bool := (P.typeOf v).isPtr

/-! ## External functions -/

/-- `get_type` -/
def extType (f : Nat) : ExtType := (P.extInfo (P.func f).name).getD .other

def hasStatic (f : Nat) : Bool := P.extType f = .stat ∨ P.extType f = .stat2

def hasStatic2 (f : Nat) : Bool := P.extType f = .stat2

def isAlloc (f : Nat) : Bool := P.extType f = .alloc ∨ P.extType f = .noStructAlloc

def noStructAlloc (f : Nat) : Bool := P.extType f = .noStructAlloc

/-- Not defined in the program, or a version of a known function that allocates or does
nothing. -/
def isExt (f : Nat) : Bool :=
  (P.func f).isDeclaration || (P.func f).isIntrinsic ||
    decide (P.extType f = .alloc ∨ P.extType f = .realloc ∨ P.extType f = .noStructAlloc ∨
      P.extType f = .noop)

/-! ## Uses -/

/-- Whether the address of `v` is ever taken: it is an operand of a call behind the first, or
of an instruction other than a comparison, also as a part of a constant expression. -/
def escapes : Nat → Val → Run Bool
  | 0, _ => .error .fuel
  | fuel + 1, v => (P.users v).foldlM (fun taken u =>
    if taken then .ok true
    else match u with
      | .inst i =>
          let I := P.insts i
          match I.op with
          | .call => .ok ((I.ops.drop 1).contains v)
          | .invoke => .ok ((I.ops.drop 3).contains v)
          | op => .ok !op.isCmp
      | .expr .. => escapes fuel u
      | _ => .ok true) false

end Ir

end PtrAnalysis
