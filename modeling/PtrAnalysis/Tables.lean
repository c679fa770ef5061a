import Mathlib.Data.Finset.Image
import PtrAnalysis.Graph

/-!
# The offset tables of `ptsInit`

`Anders` is the state the optimizer leaves behind and the solver works on.
`ptsInit` fills `geps`, the function that adds an offset to every member of a
points-to set that is big enough, and `offMask`, the nodes that are. Decision
diagrams are finite sets: a points-to set of node IDs, a GEP function of pairs
(member, result). The tables have one entry for each offset below the size of
the largest object; the indices come from the constraints.
-/

namespace PtrAnalysis

/-- A constraint of an indirect call, with the calls that created it. -/
abbrev IcallCons := List (Constraint × Finset Nat)

namespace IcallCons

def find (m : IcallCons) (C : Constraint) : Option (Finset Nat) := m.lookup C

def erase (m : IcallCons) (C : Constraint) : IcallCons := m.filter (·.1 ≠ C)

/-- `m[C].insert(I.begin(), I.end())` -/
def add (m : IcallCons) (C : Constraint) (I : Finset Nat) : IcallCons :=
  (C, (find m C).getD ∅ ∪ I) :: erase m C

end IcallCons

structure Anders extends Graph where
  /-- The ID of the last object node. -/
  lastObjNode : Nat
  constraints : List Constraint
  /-- The complex constraints from the optimized list. -/
  cplxCons : List Constraint
  icallCons : IcallCons
  geps : List (Finset (Nat × Nat))
  offMask : List (Finset Nat)
  /-- The nodes of external functions, as a points-to set and as a set. -/
  extFuncNodes : Finset Nat
  extFuncNodeSet : Finset Nat
  /-- All nodes that start a function object. -/
  funcNodeSet : Finset Nat

/-- The state behind the constraint generator: every node on its own, nothing
known about any of them, and no table built. -/
def Anders.initial (size lastObjNode : Nat) (nodes : Nat → Node) (constraints : List Constraint) :
    Anders where
  size := size
  nodes := nodes
  forest := .discrete
  indCalls := ∅
  hcdVar := fun _ => none
  cascades := []
  lastObjNode := lastObjNode
  constraints := constraints
  cplxCons := []
  icallCons := []
  geps := []
  offMask := []
  extFuncNodes := ∅
  extFuncNodeSet := ∅
  funcNodeSet := ∅

open Run

/-- The offsets that occur in the constraints. -/
def validOff (cs : List Constraint) : Finset Nat :=
  ((cs.map Constraint.off).filter (· ≠ 0)).toFinset

/-- The largest valid offset up to the given one, 0 if there is none. -/
def lastValid (valid : Finset Nat) : Nat → Nat
  | 0 => 0
  | off + 1 => if off + 1 ∈ valid then off + 1 else lastValid valid off

/-- Append empty sets up to the given length. -/
def resize (v : List (Finset Nat)) (sz : Nat) : List (Finset Nat) :=
  v ++ List.replicate (sz - v.length) ∅

/-- Record node `i` in the largest valid offset it allows. -/
def recordNode (valid : Finset Nat) (objSz : Nat → Nat)
    (t : Nat × List (Finset Nat)) (i : Nat) : Run (Nat × List (Finset Nat)) := do
  let (maxSz, offNodes) := t
  let sz := objSz i
  if sz < 2 then return (maxSz, offNodes)
  let (maxSz, offNodes) := if maxSz < sz then (sz, resize offNodes sz) else (maxSz, offNodes)
  let off := lastValid valid (sz - 1)
  if off = 0 then return (maxSz, offNodes)
  inRange (off < offNodes.length) "off_nodes"
  return (maxSz, offNodes.modify off (insert i))

/-- For each offset the nodes for which it is the largest valid one, with the
size of the largest object. -/
def offNodes (valid : Finset Nat) (objSz : Nat → Nat) (npts : Nat) :
    Run (Nat × List (Finset Nat)) :=
  (List.range npts).foldlM (recordNode valid objSz) (0, [])

/-- The first width from `b` on with room for `n` values. -/
def bitsFrom : Nat → Nat → Nat → Nat
  | 0, b, _ => b
  | k + 1, b, n => if n ≤ 2 ^ b then b else bitsFrom k (b + 1) n

/-- The number of variables BuDDy gives a domain of `n` values. -/
def fddBits (n : Nat) : Nat := bitsFrom n 1 n

/-- The GEP function for `off`, on the members in `om`: bit vector addition. -/
def gepFunction (bits off : Nat) (om : Finset Nat) : Finset (Nat × Nat) :=
  om.image fun x => (x, (x + off) % 2 ^ bits)

/-- What a GEP makes of the points-to set `d`. -/
def gepImage (geps : List (Finset (Nat × Nat))) (off : Nat) (d : Finset Nat) : Finset Nat :=
  ((geps.getD off ∅).filter fun xy => xy.1 ∈ d).image Prod.snd

structure Masks where
  /-- The nodes with more fields than the current offset. -/
  om : Finset Nat
  geps : List (Finset (Nat × Nat))
  offMask : List (Finset Nat)

/-- One pass of the loop over the valid offsets. -/
def makeMask (bits : Nat) (offNodes : List (Finset Nat)) (t : Masks) (off : Nat) :
    Run Masks := do
  inRange (off < offNodes.length) "off_nodes"
  let om := t.om ∪ offNodes.getD off ∅
  inRange (off < t.geps.length) "geps"
  inRange (off < t.offMask.length) "off_mask"
  return { om, geps := t.geps.set off (gepFunction bits off om), offMask := t.offMask.set off om }

/-- The tables, from the largest valid offset down. -/
def makeMasks (bits maxSz : Nat) (valid : Finset Nat) (offNodes : List (Finset Nat)) :
    Run Masks :=
  (ascending valid).reverse.foldlM (makeMask bits offNodes)
    { om := ∅, geps := List.replicate maxSz ∅, offMask := List.replicate maxSz ∅ }

/-- Enter node `i` into the sets of function nodes. -/
def recordFunction (M : Module) (s : Anders) (i : Nat) : Run Anders :=
  match (s.nodes i).val.bind Value.func? with
  | none => .ok s
  | some f => do
      if M.isExt f then
        require ((s.nodes i).objSz = 1) "N->obj_sz == 1"
        return { s with
          extFuncNodes := insert i s.extFuncNodes
          extFuncNodeSet := insert i s.extFuncNodeSet
          funcNodeSet := insert i s.funcNodeSet }
      else if (s.nodes i).objSz > 1 then
        return { s with funcNodeSet := insert i s.funcNodeSet }
      else
        return s

/-- Initialize the tables for points-to sets and GEPs. -/
def ptsInit (M : Module) (s : Anders) : Run Anders := do
  let npts := s.lastObjNode + 1
  let valid := validOff s.constraints
  let (maxSz, offNodes) ← offNodes valid (fun i => (s.nodes i).objSz) npts
  let t ← makeMasks (fddBits npts) maxSz valid offNodes
  (List.range npts).foldlM (recordFunction M) { s with geps := t.geps, offMask := t.offMask }

end PtrAnalysis
