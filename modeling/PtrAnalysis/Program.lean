import PtrAnalysis.Constraint

/-!
# The analysed program, as the solver sees it

Optimizer and solver look at the LLVM module through a narrow window: whether a
node's value is a function or an argument and whether it has pointer type, how
an external function is classified, and for a call instruction its type, its
arguments and the nodes assigned to it. `Module` is that window.
-/

namespace PtrAnalysis

/-- The LLVM value a node stands for. -/
inductive Value where
  | func (f : Nat)
  | arg (a : Nat) (isPtr : Bool)
  | other (v : Nat) (isPtr : Bool)
  deriving DecidableEq, Repr

namespace Value

/-- `dyn_cast<Function>` -/
def func? : Value → Option Nat
  | .func f => some f
  | _ => none

/-- `isa<Argument>` -/
def isArg : Value → Bool
  | .arg _ _ => true
  | _ => false

/-- `isa<PointerType>(V->getType())`; a function is a pointer constant. -/
def isPtr : Value → Bool
  | .func _ => true
  | .arg _ p => p
  | .other _ p => p

end Value

/-- External function types, for a call `L = F(arg0, arg1, …)`. -/
inductive ExtType where
  | noop | alloc | realloc | noStructAlloc | stat | stat2
  | lA0 | lA1 | lA2 | lA8
  | lA0_A0rA1r | a1rA0r | a3rA1rNs | a1rA0 | a2rA1 | a4rA1 | lA0_A2rA0
  | a0rNew | a1rNew | a2rNew | a4rNew | a11rNew
  | other
  deriving DecidableEq, Repr

/-- An actual argument: whether it is the null constant, whether it has pointer
type, and its entry in `val_node`. -/
structure CallArg where
  isNull : Bool
  isPtr : Bool
  valNode : Option Nat
  deriving Repr

/-- A call instruction: whether its result is a pointer, its entries in
`val_node` and `obj_node`, and its arguments. -/
structure CallSite where
  isPtr : Bool
  valNode : Option Nat
  objNode : Option Nat
  args : List CallArg
  deriving Repr

structure Module where
  isExt : Nat → Bool
  extType : Nat → ExtType
  callSite : Nat → CallSite

/-- A program without calls whose functions are all external, or all its own. -/
def Module.uniform (ext : Bool) : Module where
  isExt _ := ext
  extType _ := .noop
  callSite _ := { isPtr := false, valNode := none, objNode := none, args := [] }

end PtrAnalysis
