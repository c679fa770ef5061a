import PtrAnalysis.BitmapSpec

/-!
# Sequences of operations on bitmaps

A program works on any number of bitmaps, and an operand of `|=`, `&=` or a test may be the bitmap
itself; the other operations clear or erase their target while they walk an operand.
`BitmapOp.means` says what each operation does to sets; whatever sequence of operations is run,
the bitmaps return what the sets do. Bitmaps of one set have one hash value, so they can be keys of
a hash map.
-/

namespace PtrAnalysis

open BitElement

/-- An operation on some of the bitmaps. -/
inductive BitmapOp (ι : Type) where
  | set (a : ι) (x : Nat)
  | reset (a : ι) (x : Nat)
  | test (a : ι) (x : Nat)
  | testAndSet (a : ι) (x : Nat)
  | clear (a : ι)
  /-- Construct `a` from `b`. -/
  | copy (a b : ι)
  | assign (a b : ι)
  | union (a b : ι)
  | inter (a b : ι)
  | diff (a b : ι)
  /-- The form with three arguments. -/
  | diff3 (a b c : ι)
  | equal (a b : ι)
  | intersects (a b : ι)
  | empty (a : ι)
  | count (a : ι)
  | singleBit (a : ι)
  | findFirst (a : ι)

/-- What an operation returns. -/
inductive BitmapAnswer where
  | nothing
  | flag (b : Bool)
  | number (k : Nat)
  /-- An `int`, unless an assertion fails. -/
  | int (x : Option Int)
  /-- Where an iterator is. -/
  | bit (x : Option Nat)
  deriving DecidableEq

section

variable {ι : Type} [DecidableEq ι] {n : Nat} [NeZero n]

namespace BitmapOp

/-- Numbers have 32 bits, and a bitmap is not copied to itself or subtracted from itself. -/
def Allowed : BitmapOp ι → Prop
  | .set _ x | .testAndSet _ x => x < 2 ^ 32
  | .copy a b | .assign a b | .diff a b => a ≠ b
  | .diff3 a b c => a ≠ b ∧ a ≠ c
  | _ => True

instance : DecidablePred (Allowed (ι := ι))
  | .set _ x | .testAndSet _ x => inferInstanceAs (Decidable (x < 2 ^ 32))
  | .copy a b | .assign a b | .diff a b => inferInstanceAs (Decidable (a ≠ b))
  | .diff3 a b c => inferInstanceAs (Decidable (a ≠ b ∧ a ≠ c))
  | .reset .. | .test .. | .clear .. | .union .. | .inter .. | .equal .. | .intersects .. | .empty ..
  | .count .. | .singleBit .. | .findFirst .. => isTrue trivial

/-- The operation clears bitmap `a`, and takes other elements for it. -/
def Rebuilds (a : ι) : BitmapOp ι → Prop
  | .clear b | .copy b _ | .assign b _ | .diff3 b _ _ => b = a
  | _ => False

instance Rebuilds.decidable (a : ι) : DecidablePred (Rebuilds a)
  | .clear b | .copy b _ | .assign b _ | .diff3 b _ _ => inferInstanceAs (Decidable (b = a))
  | .set .. | .reset .. | .test .. | .testAndSet .. | .union .. | .inter .. | .diff .. | .equal ..
  | .intersects .. | .empty .. | .count .. | .singleBit .. | .findFirst .. => isFalse id

def run (Bs : ι → Bitmap n) : BitmapOp ι → BitmapAnswer × (ι → Bitmap n)
  | .set a x => (.nothing, Function.update Bs a ((Bs a).set x))
  | .reset a x => (.nothing, Function.update Bs a ((Bs a).reset x))
  | .test a x =>
      let (B, b) := (Bs a).test x
      (.flag b, Function.update Bs a B)
  | .testAndSet a x =>
      let (B, b) := (Bs a).testAndSet x
      (.flag b, Function.update Bs a B)
  | .clear a => (.nothing, Function.update Bs a (Bs a).clear)
  | .copy a b => (.nothing, Function.update Bs a (Bitmap.copy (Bs b)))
  | .assign a b =>
      -- the operands are looked at after the bitmap has been cleared
      let Cs := Function.update Bs a (Bs a).clear
      (.nothing, Function.update Cs a ((Cs a).assign (Cs b)))
  | .union a b =>
      let (B, b) := (Bs a).orAssign (Bs b)
      (.flag b, Function.update Bs a B)
  | .inter a b =>
      let (B, b) := (Bs a).andAssign (Bs b)
      (.flag b, Function.update Bs a B)
  | .diff a b =>
      let (B, b) := (Bs a).intersectWithComplement (Bs b)
      (.flag b, Function.update Bs a B)
  | .diff3 a b c =>
      let Cs := Function.update Bs a (Bs a).clear
      (.nothing, Function.update Cs a ((Cs a).setComplement (Cs b) (Cs c)))
  | .equal a b => (.flag ((Bs a).equal (Bs b)), Bs)
  | .intersects a b => (.flag ((Bs a).intersects (Bs b)), Bs)
  | .empty a => (.flag (Bs a).empty, Bs)
  | .count a => (.number (Bs a).count, Bs)
  | .singleBit a => (.flag (Bs a).singleBit, Bs)
  | .findFirst a => (.int (Bs a).findFirst, Bs)

/-- What an operation does to the sets, where a bitmap has elements of `size` numbers. -/
def means (size : Nat) (ss : ι → Finset Nat) : BitmapOp ι → BitmapAnswer × (ι → Finset Nat)
  | .set a x => (.nothing, Function.update ss a (insert x (ss a)))
  | .reset a x => (.nothing, Function.update ss a ((ss a).erase x))
  | .test a x => (.flag (decide (x ∈ ss a)), ss)
  | .testAndSet a x => (.flag (decide (x ∉ ss a)), Function.update ss a (insert x (ss a)))
  | .clear a => (.nothing, Function.update ss a ∅)
  | .copy a b => (.nothing, Function.update ss a (ss b))
  | .assign a b => (.nothing, Function.update ss a (ss b))
  | .union a b => (.flag (decide (ss a ∪ ss b ≠ ss a)), Function.update ss a (ss a ∪ ss b))
  | .inter a b =>
      (.flag (decide (∃ x ∈ ss a \ ss b, ∃ y ∈ ss b, y / size = x / size)),
        Function.update ss a (ss a ∩ ss b))
  | .diff a b => (.flag (decide (ss a \ ss b ≠ ss a)), Function.update ss a (ss a \ ss b))
  | .diff3 a b c => (.nothing, Function.update ss a (ss b \ ss c))
  | .equal a b => (.flag (decide (ss a = ss b)), ss)
  | .intersects a b => (.flag (decide (¬ Disjoint (ss a) (ss b))), ss)
  | .empty a => (.flag (decide (ss a = ∅)), ss)
  | .count a => (.number (ss a).card, ss)
  | .singleBit a => (.flag (decide ((ss a).card = 1)), ss)
  | .findFirst a => (.int (some ((nextFrom (ss a) 0).elim (-1) Bitmap.asInt)), ss)

end BitmapOp

/-- Run the operations, and list what they return. -/
def runBitmaps : List (BitmapOp ι) → (ι → Bitmap n) → List BitmapAnswer × (ι → Bitmap n)
  | [], Bs => ([], Bs)
  | op :: ops, Bs =>
      let (answer, Bs) := op.run Bs
      let (answers, Bs) := runBitmaps ops Bs
      (answer :: answers, Bs)

def runSets (size : Nat) : List (BitmapOp ι) → (ι → Finset Nat) → List BitmapAnswer × (ι → Finset Nat)
  | [], ss => ([], ss)
  | op :: ops, ss =>
      let (answer, ss) := op.means size ss
      let (answers, ss) := runSets size ops ss
      (answer :: answers, ss)

/-- Each bitmap holds its set. -/
def Holding (Bs : ι → Bitmap n) (ss : ι → Finset Nat) : Prop := ∀ a, (Bs a).Holds (ss a)

variable {Bs : ι → Bitmap n} {ss : ι → Finset Nat}

theorem Holding.update (h : Holding Bs ss) {a : ι} {B : Bitmap n} {s : Finset Nat} (hB : B.Holds s) :
    Holding (Function.update Bs a B) (Function.update ss a s) := by
  intro c
  by_cases hc : c = a
  · subst hc
    rwa [Function.update_self, Function.update_self]
  · rw [Function.update_of_ne hc, Function.update_of_ne hc]
    exact h c

/-- An operation that leaves the set as it is. -/
theorem Holding.same (h : Holding Bs ss) {a : ι} {B : Bitmap n} (hB : B.Holds (ss a)) :
    Holding (Function.update Bs a B) ss := by
  have hup := h.update (a := a) hB
  rwa [Function.update_eq_self] at hup

/-- An operand is still there after another bitmap has been cleared. -/
theorem Holding.cleared (h : Holding Bs ss) {a b : ι} (hab : a ≠ b) :
    (Function.update Bs a (Bs a).clear b).Holds (ss b) := by
  rw [Function.update_of_ne hab.symm]
  exact h b

/-- An operation returns what it should. -/
theorem BitmapOp.run_refines (h : Holding Bs ss) (op : BitmapOp ι) (hop : op.Allowed) :
    (op.run Bs).1 = (op.means (elementSize n) ss).1 ∧
      Holding (op.run Bs).2 (op.means (elementSize n) ss).2 := by
  cases op with
  | set a x => exact ⟨rfl, h.update (Bitmap.set_spec (h a) hop)⟩
  | reset a x => exact ⟨rfl, h.update (Bitmap.reset_spec (h a) x)⟩
  | test a x =>
      obtain ⟨hB, hb⟩ := Bitmap.test_spec (h a) x
      exact ⟨congrArg BitmapAnswer.flag hb, h.same hB⟩
  | testAndSet a x =>
      obtain ⟨hB, hb⟩ := Bitmap.testAndSet_spec (h a) hop
      exact ⟨congrArg BitmapAnswer.flag hb, h.update hB⟩
  | clear a => exact ⟨rfl, h.update Bitmap.new_holds⟩
  | copy a b => exact ⟨rfl, h.update (Bitmap.copy_spec (h b))⟩
  | assign a b =>
      have hB := Bitmap.assign_spec (B := Function.update Bs a (Bs a).clear a) (h.cleared hop)
      have hup := h.update (a := a) hB
      rw [run, means, Function.update_idem]
      exact ⟨rfl, hup⟩
  | union a b =>
      obtain ⟨hB, hb⟩ := Bitmap.orAssign_spec (h a) (h b)
      exact ⟨congrArg BitmapAnswer.flag hb, h.update hB⟩
  | inter a b =>
      obtain ⟨hB, hb⟩ := Bitmap.andAssign_spec (h a) (h b)
      have hflag := Bool.eq_iff_iff.mpr (hb.trans (decide_eq_true_iff ..).symm)
      exact ⟨congrArg BitmapAnswer.flag hflag, h.update hB⟩
  | diff a b =>
      obtain ⟨hB, hb⟩ := Bitmap.intersectWithComplement_spec (h a) (h b)
      exact ⟨congrArg BitmapAnswer.flag hb, h.update hB⟩
  | diff3 a b c =>
      have hB := Bitmap.setComplement_spec (h.cleared hop.1) (h.cleared hop.2)
        (Function.update Bs a (Bs a).clear a)
      have hup := h.update (a := a) hB
      rw [run, means, Function.update_idem]
      exact ⟨rfl, hup⟩
  | equal a b => exact ⟨congrArg BitmapAnswer.flag (Bitmap.equal_spec (h a) (h b)), h⟩
  | intersects a b => exact ⟨congrArg BitmapAnswer.flag (Bitmap.intersects_spec (h a) (h b)), h⟩
  | empty a => exact ⟨congrArg BitmapAnswer.flag (Bitmap.empty_spec (h a)), h⟩
  | count a => exact ⟨congrArg BitmapAnswer.number (Bitmap.count_spec (h a)), h⟩
  | singleBit a => exact ⟨congrArg BitmapAnswer.flag (Bitmap.singleBit_spec (h a)), h⟩
  | findFirst a => exact ⟨congrArg BitmapAnswer.int (Bitmap.findFirst_eq (h a)), h⟩

/-- A bitmap that is assigned to itself is cleared. -/
theorem BitmapOp.assign_self (Bs : ι → Bitmap n) (a : ι) :
    (((assign a a).run Bs).2 a).elements = [] := by
  simp [run, Bitmap.assign, Bitmap.clear, Bitmap.new]

theorem Holding.run (h : Holding Bs ss) (ops : List (BitmapOp ι)) (hops : ∀ op ∈ ops, op.Allowed) :
    (runBitmaps ops Bs).1 = (runSets (elementSize n) ops ss).1 ∧
      Holding (runBitmaps ops Bs).2 (runSets (elementSize n) ops ss).2 := by
  induction ops generalizing Bs ss with
  | nil => exact ⟨rfl, h⟩
  | cons op ops ih =>
      obtain ⟨hanswer, h1⟩ := op.run_refines h (hops op List.mem_cons_self)
      obtain ⟨hanswers, h2⟩ := ih h1 fun op' hop' => hops op' (List.mem_cons_of_mem op hop')
      rw [runBitmaps, runSets]
      exact ⟨congrArg₂ List.cons hanswer hanswers, h2⟩

/-- Whatever sequence of operations is run on empty bitmaps, they return what the operations on sets
do, and two bitmaps of one set end with one hash value. -/
theorem runBitmaps_refines (n : Nat) [NeZero n] (ops : List (BitmapOp ι))
    (hops : ∀ op ∈ ops, op.Allowed) :
    (runBitmaps ops fun _ => (Bitmap.new : Bitmap n)).1 =
        (runSets (elementSize n) ops fun _ => ∅).1 ∧
      (∀ a, ((runBitmaps ops fun _ => (Bitmap.new : Bitmap n)).2 a).Holds
        ((runSets (elementSize n) ops fun _ => ∅).2 a)) ∧
      ∀ a b, (runSets (elementSize n) ops fun _ => ∅).2 a =
          (runSets (elementSize n) ops fun _ => ∅).2 b →
        ((runBitmaps ops fun _ => (Bitmap.new : Bitmap n)).2 a).getHashValue =
          ((runBitmaps ops fun _ => (Bitmap.new : Bitmap n)).2 b).getHashValue := by
  have hnew : Holding (fun _ : ι => (Bitmap.new : Bitmap n)) fun _ => ∅ := fun _ => Bitmap.new_holds
  obtain ⟨hanswers, h⟩ := hnew.run ops hops
  refine ⟨hanswers, h, fun a b hab => ?_⟩
  have ha := h a
  rw [hab] at ha
  exact Bitmap.getHashValue_eq ha (h b)

end

/-- Elements of two words: `5` and `300` are put in two orders, and `&=` takes `300` out, in an
element of its own, without saying so. -/
theorem runBitmaps_refines_orders :
    (runBitmaps [.set true 5, .set true 300, .set false 300, .set false 5, .equal true false,
        .reset false 300, .inter true false, .equal true false, .union true true, .findFirst true,
        .clear true, .findFirst true]
      fun _ : Bool => (Bitmap.new : Bitmap 2)).1 =
      [.nothing, .nothing, .nothing, .nothing, .flag true, .nothing, .flag false, .flag true,
        .flag false, .int (some 5), .nothing, .int (some (-1))] := by
  refine (runBitmaps_refines 2 _ (by decide)).1.trans ?_
  decide

end PtrAnalysis
