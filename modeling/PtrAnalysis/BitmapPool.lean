import PtrAnalysis.BitmapRuns
import PtrAnalysis.Lib.Pool

/-!
# The elements of all bitmaps

The elements that were erased from any bitmap are on one stack, and a new element is taken from there.
`Bitmap.setEdits` and the others say in which order an operation takes, writes and gives back
elements. Run on the memory in this way, the bitmaps still hold their sets, and no element is lost or
in two bitmaps.
-/

namespace PtrAnalysis

open Keyed BitElement

namespace Bitmap

variable {n : Nat}

section

variable [NeZero n]

def setEdits (B : Bitmap n) (idx : Nat) : List (Edit (BitElement n)) :=
  let k := idx / elementSize n
  let t : List (Edit (BitElement n)) × Nat :=
    if B.elements = [] then ([.insert 0 (BitElement.new k)], 0)
    else
      let (B, p) := B.findLowerBound k
      if B.elements[p]?.any (·.index = k) then ([], p)
      else
        let q := insertPos B.elements k p
        ([.insert q (BitElement.new k)], q)
  t.1 ++ [.write t.2 (·.set (idx % elementSize n))]

def resetEdits (B : Bitmap n) (idx : Nat) : List (Edit (BitElement n)) :=
  if B.elements = [] then []
  else
    let k := idx / elementSize n
    let (B, p) := B.findLowerBound k
    match B.elements[p]? with
    | none => []
    | some e =>
      if e.index ≠ k then []
      else
        .write p (·.reset (idx % elementSize n)) ::
          if (e.reset (idx % elementSize n)).empty then [.erase p] else []

def testAndSetEdits (B : Bitmap n) (idx : Nat) : List (Edit (BitElement n)) :=
  let (B, old) := B.test idx
  if !old then B.setEdits idx else []

end

def clearEdits (B : Bitmap n) : List (Edit (BitElement n)) := eraseEdits 0 B.elements

def orEdits (B rhs : Bitmap n) : List (Edit (BitElement n)) :=
  if rhs.elements = [] then []
  else combineEdits index true true (fun e r => (e.unionWith r).1) unionElement 0
    B.elements rhs.elements

def andEdits (B rhs : Bitmap n) : List (Edit (BitElement n)) :=
  if B.elements = [] ∧ rhs.elements = [] then []
  else combineEdits index false false (fun e r => (e.intersectWith r).1)
    (fun e r => nonzero (e.intersectWith r)) 0 B.elements rhs.elements

def complementEdits (B rhs : Bitmap n) : List (Edit (BitElement n)) :=
  if B.elements = [] ∨ rhs.elements = [] then []
  else combineEdits index true false (fun e r => (e.intersectWithComplement r).1)
    (fun e r => nonzero (e.intersectWithComplement r)) 0 B.elements rhs.elements

/-- The form with three arguments, after the bitmap was cleared. -/
def setComplementEdits (rhs1 rhs2 : Bitmap n) : List (Edit (BitElement n)) :=
  copyCombineEdits index (fun e r => (e.intersectWithComplement r).1)
    (fun e r => nonzero (e.intersectWithComplement r)) 0 rhs1.elements rhs2.elements

/-! ## The edits do what the operations do -/

section

variable [NeZero n] {B : Bitmap n} {s : Finset Nat}

theorem setEdits_spec (h : B.Holds s) (x : Nat) :
    applyEdits (B.setEdits x) B.elements = some (B.set x).elements := by
  have hinsert : ∀ {l : List (BitElement n)} {p : Nat} (e : BitElement n)
      (f : BitElement n → BitElement n), p ≤ l.length →
      applyEdits [.insert p e, .write p f] l = some ((insertAt l p e).modify p f) := by
    intro l p e f hp
    refine (applyEdits_cons (Edit.apply_insert hp e)).trans (applyEdits_cons (Edit.apply_write ?_ f))
    rw [insertAt, List.length_append, List.length_cons, List.length_take_of_le hp]
    omega
  unfold setEdits set
  split
  · rename_i hnil
    dsimp only
    rw [hnil]
    exact hinsert _ _ le_rfl
  · obtain ⟨hB, hloc⟩ := findLowerBound_spec h.toWf (x / elementSize n)
    dsimp only
    rw [hB]
    generalize (B.findLowerBound (x / elementSize n)).2 = p at hloc ⊢
    dsimp only
    split
    · rename_i hany
      obtain ⟨e, he, -⟩ := Option.any_eq_true .. |>.mp hany
      exact applyEdits_cons (Edit.apply_write (List.getElem?_eq_some_iff.mp he).1 _)
    · refine hinsert _ _ ?_
      unfold insertPos
      split
      · exact hloc.le
      · rename_i e he
        have hp := (List.getElem?_eq_some_iff.mp he).1
        split <;> omega

theorem resetEdits_spec (h : B.Holds s) (x : Nat) :
    applyEdits (B.resetEdits x) B.elements = some (B.reset x).elements := by
  unfold resetEdits reset
  split
  · rfl
  · obtain ⟨hB, -⟩ := findLowerBound_spec h.toWf (x / elementSize n)
    dsimp only
    rw [hB]
    generalize (B.findLowerBound (x / elementSize n)).2 = p
    dsimp only
    cases he : B.elements[p]? with
    | none => rfl
    | some e =>
        have hp := (List.getElem?_eq_some_iff.mp he).1
        dsimp only
        split
        · rfl
        · refine (applyEdits_cons (Edit.apply_write hp _)).trans ?_
          split
          · refine applyEdits_cons (Edit.apply_erase ?_)
            rwa [List.length_modify]
          · rfl

theorem test_elements (h : B.Holds s) (x : Nat) : (B.test x).1.elements = B.elements := by
  unfold test
  split
  · rfl
  · obtain ⟨hB, -⟩ := findLowerBound_spec h.toWf (x / elementSize n)
    dsimp only
    rw [hB]
    split <;> rfl

theorem testAndSetEdits_spec (h : B.Holds s) (x : Nat) :
    applyEdits (B.testAndSetEdits x) B.elements = some (B.testAndSet x).1.elements := by
  have htest := (test_spec h x).1
  have hsame := test_elements h x
  unfold testAndSetEdits testAndSet
  dsimp only
  split
  · rw [← hsame]
    exact setEdits_spec htest x
  · exact congrArg some hsame.symm

end

theorem clearEdits_spec (B : Bitmap n) : applyEdits B.clearEdits B.elements = some [] :=
  eraseEdits_spec [] B.elements

/-- What is left of an element is what was written. -/
theorem nonzero_some {t : BitElement n × Bool × Bool} {e : BitElement n}
    (h : (nonzero t).1 = some e) : t.1 = e :=
  Option.some.inj (Option.ite_none_left_eq_some.mp h).2

theorem orEdits_spec (B R : Bitmap n) :
    applyEdits (B.orEdits R) B.elements = some (B.orAssign R).1.elements := by
  unfold orEdits orAssign
  split
  · rfl
  · exact combineEdits_spec (fun _ _ _ => Option.some.inj) [] B.elements R.elements

theorem andEdits_spec (B R : Bitmap n) :
    applyEdits (B.andEdits R) B.elements = some (B.andAssign R).1.elements := by
  unfold andEdits andAssign
  split
  · rfl
  · exact combineEdits_spec (fun _ _ _ => nonzero_some) [] B.elements R.elements

theorem complementEdits_spec (B R : Bitmap n) :
    applyEdits (B.complementEdits R) B.elements =
      some (B.intersectWithComplement R).1.elements := by
  unfold complementEdits intersectWithComplement
  split
  · rfl
  · exact combineEdits_spec (fun _ _ _ => nonzero_some) [] B.elements R.elements

theorem setComplementEdits_spec (B R1 R2 : Bitmap n) :
    applyEdits (setComplementEdits R1 R2) [] = some (B.setComplement R1 R2).elements :=
  copyCombineEdits_spec (fun _ _ _ => nonzero_some) [] R1.elements R2.elements

/-! ## What stays in place -/

section

variable [NeZero n]

theorem setEdits_adds (B : Bitmap n) (x : Nat) : ∀ e ∈ B.setEdits x, e.Adds index := by
  have hwrite : ∀ p, (Edit.write p (·.set (x % elementSize n)) : Edit (BitElement n)).Adds index :=
    fun _ _ => rfl
  unfold setEdits
  intro e he
  rcases List.mem_append.mp he with he | he
  · split at he
    · obtain rfl := List.mem_singleton.mp he
      trivial
    · dsimp only at he
      split at he
      · cases he
      · obtain rfl := List.mem_singleton.mp he
        trivial
  · obtain rfl := List.mem_singleton.mp he
    exact hwrite _

theorem testAndSetEdits_adds (B : Bitmap n) (x : Nat) :
    ∀ e ∈ B.testAndSetEdits x, e.Adds index := by
  unfold testAndSetEdits
  dsimp only
  split
  · exact setEdits_adds _ x
  · exact List.forall_mem_nil _

theorem resetEdits_removes (B : Bitmap n) (x : Nat) : ∀ e ∈ B.resetEdits x, e.Removes index := by
  unfold resetEdits
  split
  · exact List.forall_mem_nil _
  · dsimp only
    split
    · exact List.forall_mem_nil _
    · split
      · exact List.forall_mem_nil _
      · refine List.forall_mem_cons.mpr ⟨fun _ => rfl, ?_⟩
        split
        · exact List.forall_mem_singleton.mpr trivial
        · exact List.forall_mem_nil _

end

theorem orEdits_adds (B R : Bitmap n) : ∀ e ∈ B.orEdits R, e.Adds index := by
  unfold orEdits
  split
  · exact List.forall_mem_nil _
  · exact combineEdits_adds (fun _ _ => eachWord_index) (fun _ _ h => by cases h) 0 B.elements R.elements

theorem andEdits_removes (B R : Bitmap n) : ∀ e ∈ B.andEdits R, e.Removes index := by
  unfold andEdits
  split
  · exact List.forall_mem_nil _
  · exact combineEdits_removes (fun _ _ => eachWord_index) 0 B.elements R.elements

theorem complementEdits_removes (B R : Bitmap n) :
    ∀ e ∈ B.complementEdits R, e.Removes index := by
  unfold complementEdits
  split
  · exact List.forall_mem_nil _
  · exact combineEdits_removes (fun _ _ => eachWord_index) 0 B.elements R.elements

end Bitmap

/-- The memory, and the position of the element each bitmap accessed last. -/
structure BitmapPool (ι : Type) (n : Nat) where
  store : Store ι (BitElement n)
  curr : ι → Nat

variable {ι : Type} {n : Nat}

/-- The bitmaps as they are read from the memory. -/
def BitmapPool.bitmaps (P : BitmapPool ι n) (a : ι) : Bitmap n := ⟨P.store.view a, P.curr a⟩

/-- No element has been allocated. -/
def BitmapPool.start : BitmapPool ι n := ⟨Store.start (BitElement.new 0), fun _ => 0⟩

variable [DecidableEq ι]

namespace BitmapOp

/-- The bitmap that changes, if one does. -/
def target : BitmapOp ι → ι
  | .set a _ | .reset a _ | .test a _ | .testAndSet a _ | .clear a | .copy a _ | .assign a _
  | .union a _ | .inter a _ | .diff a _ | .diff3 a _ _ | .equal a _ | .intersects a _ | .empty a
  | .count a | .singleBit a | .findFirst a => a

variable [NeZero n]

/-- What the operation does to the elements of its target. -/
def edits (Bs : ι → Bitmap n) : BitmapOp ι → List (Edit (BitElement n))
  | .set a x => (Bs a).setEdits x
  | .reset a x => (Bs a).resetEdits x
  | .testAndSet a x => (Bs a).testAndSetEdits x
  | .clear a => (Bs a).clearEdits
  -- the bitmap that was there is destroyed first
  | .copy a b => (Bs a).clearEdits ++ copyEdits 0 (Bs b).elements
  | .assign a b =>
      let Cs := Function.update Bs a (Bs a).clear
      (Bs a).clearEdits ++ copyEdits 0 (Cs b).elements
  | .union a b => (Bs a).orEdits (Bs b)
  | .inter a b => (Bs a).andEdits (Bs b)
  | .diff a b => (Bs a).complementEdits (Bs b)
  | .diff3 a b c =>
      let Cs := Function.update Bs a (Bs a).clear
      (Bs a).clearEdits ++ Bitmap.setComplementEdits (Cs b) (Cs c)
  | .test .. | .equal .. | .intersects .. | .empty .. | .count .. | .singleBit .. | .findFirst .. => []

/-- Run the operation on the memory. -/
def runIn (P : BitmapPool ι n) (op : BitmapOp ι) : Option (BitmapAnswer × BitmapPool ι n) :=
  let (answer, Bs) := op.run P.bitmaps
  (P.store.edits op.target (op.edits P.bitmaps)).map fun store =>
    (answer, ⟨store, fun a => (Bs a).curr⟩)

variable {Bs : ι → Bitmap n} {ss : ι → Finset Nat}

/-- Only the target changes. -/
theorem run_others (op : BitmapOp ι) {b : ι} (hb : b ≠ op.target) : (op.run Bs).2 b = Bs b := by
  cases op with
  | equal | intersects | empty | count | singleBit | findFirst => rfl
  | assign a c | diff3 a c d =>
      rw [run]
      dsimp only
      rw [Function.update_idem]
      exact Function.update_of_ne hb ..
  | _ => exact Function.update_of_ne hb ..

/-- The edits of an operation make of the elements what the operation makes of them. -/
theorem edits_spec (h : Holding Bs ss) (op : BitmapOp ι) :
    applyEdits (op.edits Bs) (Bs op.target).elements = some ((op.run Bs).2 op.target).elements := by
  have hself : ∀ {Cs : ι → Bitmap n} {a : ι} {B : Bitmap n} {l : Option (List (BitElement n))},
      l = some B.elements → l = some (Function.update Cs a B a).elements := by
    intro Cs a B l hl
    rwa [Function.update_self]
  have hcleared : ∀ {a : ι} {es : List (Edit (BitElement n))} {l : Option (List (BitElement n))},
      applyEdits es [] = l → applyEdits ((Bs a).clearEdits ++ es) (Bs a).elements = l := fun hes =>
    (applyEdits_append (Bitmap.clearEdits_spec ..)).trans hes
  cases op with
  | set a x => exact hself (Bitmap.setEdits_spec (h a) x)
  | reset a x => exact hself (Bitmap.resetEdits_spec (h a) x)
  | test a x => exact hself (congrArg some (Bitmap.test_elements (h a) x).symm)
  | testAndSet a x => exact hself (Bitmap.testAndSetEdits_spec (h a) x)
  | clear a => exact hself (Bitmap.clearEdits_spec ..)
  | copy a b => exact hself (hcleared (copyEdits_spec [] (Bs b).elements))
  | assign a b => exact hself (hcleared (copyEdits_spec [] _))
  | union a b => exact hself (Bitmap.orEdits_spec ..)
  | inter a b => exact hself (Bitmap.andEdits_spec ..)
  | diff a b => exact hself (Bitmap.complementEdits_spec ..)
  | diff3 a b c => exact hself (hcleared (Bitmap.setComplementEdits_spec ..))
  | equal | intersects | empty | count | singleBit | findFirst => rfl

/-- On the memory an operation is what it is on lists, and each element stays in one place. -/
theorem runIn_spec {P : BitmapPool ι n} (hown : P.store.Owned) (h : Holding P.bitmaps ss)
    (op : BitmapOp ι) : ∃ P', op.runIn P = some ((op.run P.bitmaps).1, P') ∧ P'.store.Owned ∧
      P'.bitmaps = (op.run P.bitmaps).2 := by
  obtain ⟨S, hS, hown', hview⟩ := hown.edits (edits_spec h op)
  refine ⟨⟨S, fun a => ((op.run P.bitmaps).2 a).curr⟩, ?_, hown', funext fun b => ?_⟩
  · rw [runIn, hS]
    rfl
  · change (⟨S.view b, ((op.run P.bitmaps).2 b).curr⟩ : Bitmap n) = (op.run P.bitmaps).2 b
    rw [hview]
    by_cases hb : b = op.target
    · subst hb
      rw [Function.update_self]
    · rw [Function.update_of_ne hb, op.run_others hb]
      rfl

/-- No operation but those that rebuild a bitmap erases an element and takes one with its index. -/
theorem edits_oneWay {a : ι} (op : BitmapOp ι) (ha : op.target = a) (hop : ¬ op.Rebuilds a) :
    OneWay index (op.edits Bs) := by
  cases op with
  | set b x => exact .inl (Bitmap.setEdits_adds (Bs b) x)
  | testAndSet b x => exact .inl (Bitmap.testAndSetEdits_adds (Bs b) x)
  | union b c => exact .inl (Bitmap.orEdits_adds (Bs b) (Bs c))
  | reset b x => exact .inr (Bitmap.resetEdits_removes (Bs b) x)
  | inter b c => exact .inr (Bitmap.andEdits_removes (Bs b) (Bs c))
  | diff b c => exact .inr (Bitmap.complementEdits_removes (Bs b) (Bs c))
  | clear | copy | assign | diff3 => exact absurd ha hop
  | test | equal | intersects | empty | count | singleBit | findFirst =>
      exact .inl (List.forall_mem_nil _)

/-- A pointer to an element of a bitmap that is not rebuilt: if the bitmap has an element with the
same index afterwards, the pointer still leads to it. -/
theorem runIn_stays {P P' : BitmapPool ι n} {answer : BitmapAnswer} (hown : P.store.Owned)
    (h : Holding P.bitmaps ss) {op : BitmapOp ι} {a : ι} (hop : ¬ op.Rebuilds a)
    (hrun : op.runIn P = some (answer, P')) {el : Nat} (hel : el ∈ P.store.lists a)
    (hindex : ∃ e ∈ (P'.bitmaps a).elements, e.index = (P.store.cells el).index) :
    el ∈ P'.store.lists a ∧ (P'.store.cells el).index = (P.store.cells el).index := by
  obtain ⟨S, hS, heq⟩ := Option.map_eq_some_iff.mp hrun
  obtain rfl : S = P'.store := congrArg (fun t => t.2.store) heq
  by_cases ha : op.target = a
  · subst ha
    exact hown.edits_stay (h op.target).ascends (op.edits_oneWay rfl hop) (edits_spec h op) hS hel
      hindex
  · -- another bitmap changes
    obtain ⟨S', hS', -, hview⟩ := hown.edits (edits_spec h op)
    obtain rfl : S' = P'.store := Option.some.inj (hS'.symm.trans hS)
    have hlists := Store.edits_others (Ne.symm ha) hS
    have hsame : P'.store.view a = P.store.view a := by
      rw [hview, Function.update_of_ne (Ne.symm ha)]
    rw [Store.view, Store.view, hlists] at hsame
    exact ⟨hlists ▸ hel, congrArg index (List.map_inj_left.mp hsame el hel)⟩

end BitmapOp

variable [NeZero n]

def runPool : List (BitmapOp ι) → BitmapPool ι n → Option (List BitmapAnswer × BitmapPool ι n)
  | [], P => some ([], P)
  | op :: ops, P => do
      let (answer, P) ← op.runIn P
      let (answers, P) ← runPool ops P
      return (answer :: answers, P)

theorem runPool_holding {P : BitmapPool ι n} {ss : ι → Finset Nat} (hown : P.store.Owned)
    (h : Holding P.bitmaps ss) (ops : List (BitmapOp ι)) (hops : ∀ op ∈ ops, op.Allowed) :
    ∃ P', runPool ops P = some ((runSets (elementSize n) ops ss).1, P') ∧ P'.store.Owned ∧
      Holding P'.bitmaps (runSets (elementSize n) ops ss).2 := by
  induction ops generalizing P ss with
  | nil => exact ⟨P, rfl, hown, h⟩
  | cons op ops ih =>
      obtain ⟨P1, hP1, hown1, hbits⟩ := op.runIn_spec hown h
      obtain ⟨hanswer, h1⟩ := op.run_refines h (hops op List.mem_cons_self)
      rw [← hbits] at h1
      obtain ⟨P', hP', hown', h'⟩ := ih hown1 h1 fun op' hop' => hops op' (List.mem_cons_of_mem op hop')
      refine ⟨P', ?_, hown', h'⟩
      rw [runPool, hP1, hanswer]
      exact congrArg (Option.bind · _) hP'

/-- Whatever sequence of operations is run on empty bitmaps in one memory, they return what the
operations on sets do and hold their sets, and every element that was allocated is in one bitmap or
on the stack. -/
theorem runPool_refines (n : Nat) [NeZero n] (ops : List (BitmapOp ι))
    (hops : ∀ op ∈ ops, op.Allowed) :
    ∃ P : BitmapPool ι n, runPool ops BitmapPool.start =
        some ((runSets (elementSize n) ops fun _ => ∅).1, P) ∧
      P.store.Owned ∧ ∀ a, (P.bitmaps a).Holds ((runSets (elementSize n) ops fun _ => ∅).2 a) := by
  have hstart : Holding (BitmapPool.start : BitmapPool ι n).bitmaps fun _ => ∅ := fun _ =>
    Bitmap.new_holds
  exact runPool_holding (Store.start_owned _) hstart ops hops

/-- `300` has an element of its own, which is erased and then taken for the other bitmap. -/
def reusedElement : List (BitmapOp Bool) :=
  [.set true 5, .set true 300, .reset true 300, .set false 300, .equal true false]

theorem runPool_refines_reuse : ∃ P : BitmapPool Bool 2,
    runPool reusedElement BitmapPool.start =
      some ([.nothing, .nothing, .nothing, .nothing, .flag false], P) ∧
    P.store.Owned ∧ P.store.fresh = 2 := by
  have hanswers : (runSets (elementSize 2) reusedElement fun _ => ∅).1 =
      [.nothing, .nothing, .nothing, .nothing, .flag false] := by decide
  have hfresh : (runPool reusedElement (BitmapPool.start : BitmapPool Bool 2)).map
      (·.2.store.fresh) = some 2 := by decide +kernel
  obtain ⟨P, hP, hown, -⟩ := runPool_refines 2 reusedElement (by decide)
  rw [hP] at hfresh
  rw [hanswers] at hP
  exact ⟨P, hP, hown, Option.some.inj hfresh⟩

end PtrAnalysis
