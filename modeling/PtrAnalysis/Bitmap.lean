import PtrAnalysis.BitElement
import PtrAnalysis.Lib.Keyed

/-!
# Sparse bit vectors

A bitmap is a list of elements in the order of their indices, none of them zero, and remembers the
element accessed last, from which `findLowerBound` starts. `Holds` is what a bitmap stands for; a
set has one list of elements only.
-/

namespace PtrAnalysis

open Keyed BitElement

/-- The elements, and the position of the one accessed last. -/
structure Bitmap (n : Nat) where
  elements : List (BitElement n)
  curr : Nat

/-- The index of the element that ends each list. -/
def sentinelIndex : Nat := 2 ^ 32 - 1

namespace Bitmap

variable {n : Nat}

def new : Bitmap n := ⟨[], 0⟩

def indexAt (l : List (BitElement n)) (p : Nat) : Nat := l[p]?.elim sentinelIndex index

/-- Go back while the index is too large. -/
def backward (l : List (BitElement n)) (k : Nat) : Nat → Nat
  | 0 => 0
  | p + 1 => if k < indexAt l (p + 1) then backward l k p else p + 1

/-- Go on while the index is too small; the list is what lies ahead. -/
def forward (k : Nat) : List (BitElement n) → Nat → Nat
  | [], p => p
  | e :: l, p => if e.index < k then forward k l (p + 1) else p

/-- Like `std::lower_bound`, but from the current position: also returns the position. -/
def findLowerBound (B : Bitmap n) (k : Nat) : Bitmap n × Nat :=
  if B.elements = [] then ({ B with curr := 0 }, 0)
  else
    -- make sure that the current position is valid
    let curr := if B.curr = B.elements.length then B.curr - 1 else B.curr
    if indexAt B.elements curr = k then ({ B with curr }, curr)
    else
      let p := if k < indexAt B.elements curr then backward B.elements k curr
        else forward k (B.elements.drop curr) curr
      ({ B with curr := p }, p)

/-- Where a new element `k` goes if `p` was found. -/
def insertPos (l : List (BitElement n)) (k p : Nat) : Nat :=
  match l[p]? with
  | none => p
  | some e => if e.index < k then p + 1 else p

variable [NeZero n]

def test (B : Bitmap n) (idx : Nat) : Bitmap n × Bool :=
  if B.elements = [] then (B, false)
  else
    let k := idx / elementSize n
    let (B, p) := B.findLowerBound k
    match B.elements[p]? with
    | none => (B, false)
    | some e => (B, if e.index ≠ k then false else e.test (idx % elementSize n))

def reset (B : Bitmap n) (idx : Nat) : Bitmap n :=
  if B.elements = [] then B
  else
    let k := idx / elementSize n
    let (B, p) := B.findLowerBound k
    match B.elements[p]? with
    | none => B
    | some e =>
      if e.index ≠ k then B
      else
        let l := B.elements.modify p (·.reset (idx % elementSize n))
        -- an element that is zero now goes, and the next one takes its position
        if (e.reset (idx % elementSize n)).empty then ⟨l.eraseIdx p, p⟩ else ⟨l, p⟩

def set (B : Bitmap n) (idx : Nat) : Bitmap n :=
  let k := idx / elementSize n
  let t : List (BitElement n) × Nat :=
    if B.elements = [] then ([BitElement.new k], 0)
    else
      let (B, p) := B.findLowerBound k
      if B.elements[p]?.any (·.index = k) then (B.elements, p)
      else
        let q := insertPos B.elements k p
        (insertAt B.elements q (BitElement.new k), q)
  ⟨t.1.modify t.2 (·.set (idx % elementSize n)), t.2⟩

def testAndSet (B : Bitmap n) (idx : Nat) : Bitmap n × Bool :=
  let (B, old) := B.test idx
  if !old then (B.set idx, true) else (B, false)

def clear (_ : Bitmap n) : Bitmap n := new

/-- The copy constructor. -/
def copy (rhs : Bitmap n) : Bitmap n := ⟨rhs.elements, 0⟩

/-- `operator=`. The elements are inserted in front of the position, which stays at the end. -/
def assign (_ rhs : Bitmap n) : Bitmap n := ⟨rhs.elements, rhs.elements.length⟩

def empty (B : Bitmap n) : Bool := B.elements.isEmpty

def count (B : Bitmap n) : Nat := B.elements.foldl (fun bitCount e => bitCount + e.count) 0

/-- Exactly one bit is set. -/
def singleBit (B : Bitmap n) : Bool :=
  match B.elements with
  | [] => false
  | e :: l => if indexAt l 0 = sentinelIndex then e.count = 1 else false

/-- The `int` of an unsigned number. -/
def asInt (x : Nat) : Int := (BitVec.ofNat 32 x).toInt

example : asInt (2 ^ 32 - 1) = -1 := by decide

/-- `find_first`, unless the assertion of an empty element fails. -/
def findFirst (B : Bitmap n) : Option Int :=
  match B.elements with
  | [] => some (-1)
  | e :: _ => e.findFirst.map fun bitPos => asInt (e.index * elementSize n + bitPos)

def getHashValue (B : Bitmap n) : BitVec 64 :=
  B.elements.foldl (fun hashVal e => hashVal ^^^ BitVec.ofNat 64 e.index ^^^ e.getHashValue) 0

/-- `operator==`. -/
def equal (B rhs : Bitmap n) : Bool := go B.elements rhs.elements
where
  go : List (BitElement n) → List (BitElement n) → Bool
    | e :: l, e' :: l' => if e ≠ e' then false else go l l'
    | l, l' => l.isEmpty && l'.isEmpty

/-! ## Two bitmaps -/

def unionElement (e r : BitElement n) : Option (BitElement n) × Bool :=
  let (e, changed) := e.unionWith r
  (some e, changed)

/-- What is left of an element, nothing if it became zero, and whether it changed. -/
def nonzero (t : BitElement n × Bool × Bool) : Option (BitElement n) × Bool :=
  (if t.2.2 then none else some t.1, t.2.1)

/-- `operator|=`. -/
def orAssign (B rhs : Bitmap n) : Bitmap n × Bool :=
  if rhs.elements = [] then (B, false)
  else
    let (l, changed) := combine index true true unionElement B.elements rhs.elements
    (⟨l, 0⟩, changed)

/-- `operator&=`. -/
def andAssign (B rhs : Bitmap n) : Bitmap n × Bool :=
  if B.elements = [] ∧ rhs.elements = [] then (B, false)
  else
    let (l, changed) := combine index false false (fun e r => nonzero (e.intersectWith r))
      B.elements rhs.elements
    (⟨l, 0⟩, changed)

def intersectWithComplement (B rhs : Bitmap n) : Bitmap n × Bool :=
  if B.elements = [] ∨ rhs.elements = [] then (B, false)
  else
    let (l, changed) := combine index true false (fun e r => nonzero (e.intersectWithComplement r))
      B.elements rhs.elements
    (⟨l, 0⟩, changed)

/-- The form with three arguments, which copies what it keeps of `rhs1`. -/
def setComplement (_ rhs1 rhs2 : Bitmap n) : Bitmap n :=
  let l := (combine index true false (fun e r => nonzero (e.intersectWithComplement r))
    rhs1.elements rhs2.elements).1
  ⟨l, l.length⟩

def intersects (B rhs : Bitmap n) : Bool :=
  (combine index false false (fun e r => (none, e.intersects r)) B.elements rhs.elements).2

/-! ## What a bitmap stands for -/

/-- Whether the bit of a number is set. -/
def bitAt (l : List (BitElement n)) (x : Nat) : Bool :=
  (entry index l (x / elementSize n)).any (·.test (x % elementSize n))

/-- What every operation keeps. -/
structure Wf (B : Bitmap n) : Prop where
  ascends : Ascends index B.elements
  nonzero : ∀ e ∈ B.elements, e.empty = false
  bounded : ∀ e ∈ B.elements, e.index < sentinelIndex
  curr : B.curr ≤ B.elements.length

/-- The bitmap stands for a set of numbers. -/
structure Holds (B : Bitmap n) (s : Finset Nat) : Prop extends B.Wf where
  mem : ∀ x, x ∈ s ↔ bitAt B.elements x = true

theorem size_pos : 0 < elementSize n := Nat.mul_pos (Nat.pos_of_neZero n) (by decide)

section

variable {k j : Nat} (hj : j < elementSize n)

include hj

theorem element_div : (k * elementSize n + j) / elementSize n = k := by
  rw [Nat.mul_comm, Nat.mul_add_div size_pos, Nat.div_eq_of_lt hj, Nat.add_zero]

omit [NeZero n] in
theorem element_mod : (k * elementSize n + j) % elementSize n = j := by
  rw [Nat.mul_comm, Nat.mul_add_mod, Nat.mod_eq_of_lt hj]

/-- Number `j` of element `k`. -/
theorem bitAt_element {l : List (BitElement n)} :
    bitAt l (k * elementSize n + j) = (entry index l k).any (·.test j) := by
  rw [bitAt, element_div hj, element_mod hj]

end

theorem exists_test {e : BitElement n} (h : e.empty = false) :
    ∃ j < elementSize n, e.test j = true := by
  by_contra hall
  refine Bool.eq_false_iff.mp h (empty_iff.mpr fun j hj => ?_)
  by_contra hbit
  exact hall ⟨j, hj, Bool.eq_true_of_not_eq_false hbit⟩

/-- Two bitmaps with the same bits have the same elements. -/
theorem Wf.canonical {B B' : Bitmap n} (h : B.Wf) (h' : B'.Wf)
    (hbits : ∀ x, bitAt B.elements x = bitAt B'.elements x) : B.elements = B'.elements := by
  have hany : ∀ k j, j < elementSize n →
      (entry index B.elements k).any (·.test j) = (entry index B'.elements k).any (·.test j) :=
    fun k j hj => by rw [← bitAt_element hj, ← bitAt_element hj, hbits]
  refine h.ascends.ext h'.ascends fun k => ?_
  cases he : entry index B.elements k with
  | none =>
      cases he' : entry index B'.elements k with
      | none => rfl
      | some e' =>
          obtain ⟨j, hj, hbit⟩ := exists_test (h'.nonzero e' (entry_some he').1)
          have hsame := hany k j hj
          rw [he, he', Option.any_none, Option.any_some, hbit] at hsame
          cases hsame
  | some e =>
      cases he' : entry index B'.elements k with
      | none =>
          obtain ⟨j, hj, hbit⟩ := exists_test (h.nonzero e (entry_some he).1)
          have hsame := hany k j hj
          rw [he, he', Option.any_none, Option.any_some, hbit] at hsame
          cases hsame
      | some e' =>
          have hindex : e.index = e'.index := (entry_some he).2.trans (entry_some he').2.symm
          refine congrArg some (ext_test hindex fun j hj => ?_)
          have hsame := hany k j hj
          rwa [he, he', Option.any_some, Option.any_some] at hsame

end Bitmap

end PtrAnalysis
