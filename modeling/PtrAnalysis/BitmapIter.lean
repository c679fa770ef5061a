import PtrAnalysis.BitmapRuns
import PtrAnalysis.Lib.Run
import Mathlib.Data.List.Sort

/-!
# Walking a bitmap while it changes

The iterator of a bitmap keeps the bits of one word and a pointer to an element, which it follows
when the word is used up. The loops of the solver change a bitmap while they walk it. As long as the
current element is not erased, the iterator delivers what `BitIter` delivers from the sets.
-/

namespace PtrAnalysis

open Keyed BitElement Run

/-- `MySparseBitVectorIterator`. The pointer to an element is its index, which no other element of
the bitmap has. As long as the bitmap has one with this index, it is the element that was pointed
to (`BitmapOp.runIn_stays`), unless an operation rebuilds the bitmap. -/
structure BitmapIter where
  atEnd : Bool
  iter : Nat
  bitNumber : Nat
  wordNumber : Nat
  bits : BitVec wordBits

namespace BitmapIter

variable {n : Nat} [NeZero n]

/-- Load the word of bit `bitPos` of an element. -/
def load (it : BitmapIter) (e : BitElement n) (bitPos : Nat) : BitmapIter :=
  let wordNumber := bitPos % elementSize n / wordBits
  { it with
    iter := e.index
    bitNumber := e.index * elementSize n + bitPos
    wordNumber
    bits := e.word wordNumber >>> (bitPos % wordBits) }

/-- Stand at the first bit of an element. -/
def enter (it : BitmapIter) (e : BitElement n) : Run BitmapIter :=
  match e.findFirst with
  | none => .error (.assertion "Illegal empty element")
  | some bitPos => .ok (it.load e bitPos)

def advanceToFirstNonZero (B : Bitmap n) (it : BitmapIter) : Run BitmapIter :=
  if it.atEnd then .ok it
  else
    match B.elements with
    | [] => .ok { it with atEnd := true }
    | e :: _ => it.enter e

/-- `begin`: the constructor. -/
def start (B : Bitmap n) : Run BitmapIter :=
  advanceToFirstNonZero B ⟨false, Bitmap.indexAt B.elements 0, 0, 2 ^ 32 - 1, 0⟩

/-- Skip zeros of the loaded word, at most so many. -/
def skipZeros : Nat → BitmapIter → BitmapIter
  | 0, it => it
  | k + 1, it =>
    if it.bits ≠ 0 ∧ it.bits.getLsbD 0 = false then
      skipZeros k { it with bits := it.bits >>> 1, bitNumber := it.bitNumber + 1 }
    else it

/-- Go to the element behind the current one. -/
def nextElement (B : Bitmap n) (it : BitmapIter) : Run BitmapIter :=
  match B.elements.find? (it.iter < ·.index) with
  | none => .ok { it with iter := sentinelIndex, wordNumber := 0, atEnd := true }
  | some e => it.enter e

/-- The word is used up: follow the pointer, if its element was not erased. -/
def follow (B : Bitmap n) (it : BitmapIter) : Run BitmapIter :=
  match entry index B.elements it.iter with
  | none => .error (.outOfRange "Iter")
  | some e =>
    match e.findNext (it.bitNumber % elementSize n) with
    | none => nextElement B it
    | some bitPos =>
      if it.bitNumber % elementSize n = 0 then nextElement B it else .ok (it.load e bitPos)

def advanceToNextNonZero (B : Bitmap n) (it : BitmapIter) : Run BitmapIter :=
  if it.atEnd then .ok it
  else
    let it := skipZeros wordBits it
    if it.bits ≠ 0 then .ok it else follow B it

/-- `operator++` -/
def next (B : Bitmap n) (it : BitmapIter) : Run BitmapIter :=
  advanceToNextNonZero B { it with bitNumber := it.bitNumber + 1, bits := it.bits >>> 1 }

end BitmapIter

/-! ## The loaded bits -/

/-- The numbers of the set bits of a word whose first bit is number `p`. -/
def loadedBits (p : Nat) (w : BitVec wordBits) : List Nat :=
  ((List.range wordBits).filter w.getLsbD).map (p + ·)

theorem mem_loadedBits {p x : Nat} {w : BitVec wordBits} :
    x ∈ loadedBits p w ↔ ∃ i, w.getLsbD i = true ∧ p + i = x := by
  rw [loadedBits, List.mem_map]
  refine exists_congr fun i => and_congr_left' ?_
  rw [List.mem_filter, List.mem_range]
  refine and_iff_right_of_imp fun hbit => ?_
  by_contra hlt
  rw [BitVec.getLsbD_of_ge w i (Nat.not_lt.mp hlt)] at hbit
  cases hbit

theorem loadedBits_sorted (p : Nat) (w : BitVec wordBits) : (loadedBits p w).Pairwise (· < ·) := by
  refine List.Pairwise.map _ (fun a b hab => Nat.add_lt_add_left hab p) ?_
  exact List.Pairwise.sublist List.filter_sublist List.pairwise_lt_range

/-- Ascending lists with the same members are the same. -/
theorem sorted_ext {l l' : List Nat} (h : l.Pairwise (· < ·)) (h' : l'.Pairwise (· < ·))
    (hmem : ∀ x, x ∈ l ↔ x ∈ l') : l = l' :=
  List.Pairwise.eq_of_mem_iff h h' hmem

theorem loadedBits_eq_nil {p : Nat} {w : BitVec wordBits} : loadedBits p w = [] ↔ w = 0 := by
  constructor
  · intro hnil
    refine BitVec.eq_of_getLsbD_eq fun i _ => ?_
    rw [zero_bit]
    by_contra hbit
    have hmem := mem_loadedBits.mpr ⟨i, Bool.eq_true_of_not_eq_false hbit, (rfl : p + i = p + i)⟩
    rw [hnil] at hmem
    cases hmem
  · rintro rfl
    refine List.eq_nil_iff_forall_not_mem.mpr fun x hx => ?_
    obtain ⟨i, hbit, -⟩ := mem_loadedBits.mp hx
    rw [zero_bit] at hbit
    cases hbit

/-- A zero in front of a word. -/
theorem loadedBits_shift {p : Nat} {w : BitVec wordBits} (hw : w.getLsbD 0 = false) :
    loadedBits (p + 1) (w >>> 1) = loadedBits p w := by
  refine sorted_ext (loadedBits_sorted ..) (loadedBits_sorted ..) fun x => ?_
  rw [mem_loadedBits, mem_loadedBits]
  constructor
  · rintro ⟨i, hbit, rfl⟩
    rw [BitVec.getLsbD_ushiftRight] at hbit
    exact ⟨1 + i, hbit, by omega⟩
  · rintro ⟨i, hbit, rfl⟩
    cases i with
    | zero =>
        rw [hw] at hbit
        cases hbit
    | succ i =>
        refine ⟨i, ?_, by omega⟩
        rwa [BitVec.getLsbD_ushiftRight, Nat.add_comm]

/-- A bit in front of a word. -/
theorem loadedBits_cons {p : Nat} {w : BitVec wordBits} (hw : w.getLsbD 0 = true) :
    loadedBits p w = p :: loadedBits (p + 1) (w >>> 1) := by
  have hbehind : ∀ x ∈ loadedBits (p + 1) (w >>> 1), p < x := by
    intro x hx
    obtain ⟨i, -, rfl⟩ := mem_loadedBits.mp hx
    omega
  refine sorted_ext (loadedBits_sorted ..) (.cons hbehind (loadedBits_sorted ..)) fun x => ?_
  rw [List.mem_cons, mem_loadedBits, mem_loadedBits]
  constructor
  · rintro ⟨i, hbit, rfl⟩
    cases i with
    | zero => exact .inl rfl
    | succ i =>
        refine .inr ⟨i, ?_, by omega⟩
        rwa [BitVec.getLsbD_ushiftRight, Nat.add_comm]
  · rintro (rfl | ⟨i, hbit, rfl⟩)
    · exact ⟨0, hw, rfl⟩
    · rw [BitVec.getLsbD_ushiftRight] at hbit
      exact ⟨1 + i, hbit, by omega⟩

namespace BitmapIter

/-- Skipping ends at a set bit, unless there is none. -/
theorem skipZeros_spec (k : Nat) (it : BitmapIter) (hk : ∀ i, k ≤ i → it.bits.getLsbD i = false) :
    (skipZeros k it).atEnd = it.atEnd ∧ (skipZeros k it).iter = it.iter ∧
      loadedBits (skipZeros k it).bitNumber (skipZeros k it).bits =
        loadedBits it.bitNumber it.bits ∧
      (it.bits = 0 → skipZeros k it = it) ∧
      (it.bits ≠ 0 → (skipZeros k it).bits.getLsbD 0 = true) := by
  induction k generalizing it with
  | zero =>
      have hzero : it.bits = 0 := BitVec.eq_of_getLsbD_eq fun i _ => by
        rw [hk i (Nat.zero_le i), zero_bit]
      exact ⟨rfl, rfl, rfl, fun _ => rfl, fun hne => absurd hzero hne⟩
  | succ k ih =>
      rw [skipZeros]
      split
      · rename_i hskip
        obtain ⟨hne, hlow⟩ := hskip
        obtain ⟨hend, hiter, hbits, -, hset⟩ := ih
          { it with bits := it.bits >>> 1, bitNumber := it.bitNumber + 1 } fun i hi => by
            rw [BitVec.getLsbD_ushiftRight]
            exact hk _ (by omega)
        refine ⟨hend, hiter, hbits.trans (loadedBits_shift hlow), fun hz => absurd hz hne, fun _ => ?_⟩
        refine hset fun hz => hne ?_
        rw [← loadedBits_eq_nil (p := it.bitNumber), ← loadedBits_shift hlow]
        exact loadedBits_eq_nil.mpr hz
      · rename_i hstop
        refine ⟨rfl, rfl, rfl, fun _ => rfl, fun hne => ?_⟩
        by_contra hlow
        exact hstop ⟨hne, Bool.eq_false_of_not_eq_true hlow⟩

/-! ## One step -/

variable {n : Nat} [NeZero n] {B : Bitmap n} {s : Finset Nat} {it : BitmapIter} {c : BitIter} {b : Nat}

/-- The iterator stands at bit `b`, and the cursor is behind it. -/
structure Stands (n : Nat) (it : BitmapIter) (b : Nat) (c : BitIter) : Prop where
  notEnd : it.atEnd = false
  bit : it.bitNumber = b
  element : it.iter = b / elementSize n
  pos : c.pos = b + 1
  loaded : c.loaded = loadedBits (b + 1) (it.bits >>> 1)
  word : ∀ x ∈ c.loaded, x / wordBits = b / wordBits

/-- What the iterator and the cursor came to. -/
def Arrives (n : Nat) (it : BitmapIter) : Option (Nat × BitIter) → Prop
  | none => it.atEnd = true
  | some (b, c) => Stands n it b c

omit [NeZero n] in
/-- Numbers of one word are in one element. -/
theorem div_elementSize (x : Nat) : x / elementSize n = x / wordBits / n := by
  rw [elementSize, Nat.mul_comm, Nat.div_div_eq_div_mul]

/-- Bit `i` of word `w` of an element. -/
theorem mem_word (h : B.Holds s) {e : BitElement n} (he : e ∈ B.elements) {w i : Nat} (hw : w < n)
    (hi : i < wordBits) :
    e.index * elementSize n + (w * wordBits + i) ∈ s ↔ (e.word w).getLsbD i = true := by
  rw [h.mem, Bitmap.bitAt_element (bit_lt ⟨w, hw⟩ hi), h.ascends.entry_mem he, Option.any_some,
    word_test hw hi]

/-- Loading a word stands at the bit, with the rest of the word as it is now. -/
theorem load_stands (h : B.Holds s) (hend : it.atEnd = false) {e : BitElement n}
    (he : e ∈ B.elements) {j : Nat} (hj : j < elementSize n) :
    Stands n (it.load e j) (e.index * elementSize n + j)
      ⟨e.index * elementSize n + j + 1, (ascending s).filter fun c =>
        e.index * elementSize n + j < c ∧
          c / wordBits = (e.index * elementSize n + j) / wordBits⟩ := by
  have hw : j / wordBits < n := Nat.div_lt_of_lt_mul (by rwa [elementSize, Nat.mul_comm] at hj)
  have hbase : e.index * elementSize n = e.index * n * wordBits := (Nat.mul_assoc ..).symm
  have hsplit := Nat.div_add_mod' j wordBits
  have hlow := mod_lt j
  have hword : (e.index * elementSize n + j) / wordBits = e.index * n + j / wordBits := by
    rw [hbase, Nat.mul_comm, Nat.mul_add_div (by decide)]
  refine ⟨hend, rfl, ?_, rfl, ?_, fun x hx => ?_⟩
  · exact (Bitmap.element_div hj).symm
  · refine sorted_ext ((ascending_sorted s).filter _) (loadedBits_sorted ..) fun x => ?_
    rw [List.mem_filter, mem_ascending, decide_eq_true_eq, mem_loadedBits]
    unfold load
    dsimp only
    rw [Nat.mod_eq_of_lt hj, hword]
    constructor
    · rintro ⟨hx, hbehind, hsame⟩
      -- `x` is bit `i` of the word
      have hx' := Nat.div_add_mod' x wordBits
      have hlow' := mod_lt x
      rw [hsame, Nat.add_mul] at hx'
      refine ⟨x - (e.index * elementSize n + j + 1), ?_, by omega⟩
      rw [BitVec.getLsbD_ushiftRight, BitVec.getLsbD_ushiftRight]
      have hi : j % wordBits + (1 + (x - (e.index * elementSize n + j + 1))) = x % wordBits := by omega
      rw [hi, ← mem_word h he hw hlow']
      have heq : e.index * elementSize n + (j / wordBits * wordBits + x % wordBits) = x := by omega
      rwa [heq]
    · rintro ⟨i, hbit, rfl⟩
      rw [BitVec.getLsbD_ushiftRight, BitVec.getLsbD_ushiftRight] at hbit
      have hi : j % wordBits + (1 + i) < wordBits := by
        by_contra hge
        rw [BitVec.getLsbD_of_ge _ _ (Nat.not_lt.mp hge)] at hbit
        cases hbit
      have heq : e.index * elementSize n + (j / wordBits * wordBits + (j % wordBits + (1 + i))) =
          e.index * elementSize n + j + 1 + i := by omega
      have hmem := (mem_word h he hw hi).mpr hbit
      rw [heq] at hmem
      refine ⟨hmem, by omega, ?_⟩
      have hmul : e.index * elementSize n + j + 1 + i =
          wordBits * (e.index * n + j / wordBits) + (j % wordBits + (1 + i)) := by
        rw [Nat.mul_add, Nat.mul_comm wordBits, Nat.mul_comm wordBits]
        omega
      rw [hmul, Nat.mul_add_div (by decide), Nat.div_eq_of_lt hi, Nat.add_zero]
  · have hx := (List.mem_filter.mp hx).2
    rw [decide_eq_true_eq] at hx
    exact hx.2

/-- Standing at the first bit of an element, from which on the cursor looks. -/
theorem enter_arrives (h : B.Holds s) (hend : it.atEnd = false) (hl : c.loaded = [])
    {e : BitElement n} (he : e ∈ B.elements) (hpos : c.pos ≤ e.index * elementSize n)
    (hge : ∀ x ∈ s, c.pos ≤ x → e.index ≤ x / elementSize n) :
    ∃ it', it.enter e = .ok it' ∧ Arrives n it' (c.next s) := by
  obtain ⟨j, hj, hfirst⟩ := h.findFirst_some he
  have hnext := h.nextFrom_element he hfirst (Nat.le_add_right_of_le hpos) fun x hx hk =>
    ⟨hge x hx hk, fun _ => Nat.zero_le _⟩
  refine ⟨it.load e j, ?_, ?_⟩
  · rw [enter, hj]
  · rw [BitIter.next, hl]
    dsimp only
    rw [hnext]
    exact load_stands h hend he hfirst.2.1

theorem start_arrives (h : B.Holds s) :
    ∃ it, start B = .ok it ∧ Arrives n it (BitIter.start.next s) := by
  rw [start, advanceToFirstNonZero, if_neg Bool.false_ne_true]
  split
  · rename_i hnil
    refine ⟨_, rfl, ?_⟩
    rw [h.nil_iff.mp hnil, BitIter.next, BitIter.start, nextFrom_eq_none fun c hc => by simp at hc]
    rfl
  · rename_i e l hl
    have he : e ∈ B.elements := by
      rw [hl]
      exact List.mem_cons_self
    refine enter_arrives h rfl rfl he (Nat.zero_le _) fun x hx _ => ?_
    obtain ⟨r, hr, hindex⟩ := h.mem_element hx
    exact hindex ▸ h.head_le hl hr

/-- Behind an element without numbers from `c.pos` on, the next one has them. -/
theorem nextElement_arrives (h : B.Holds s) (hend : it.atEnd = false) (hl : c.loaded = [])
    (hpos : c.pos ≤ (it.iter + 1) * elementSize n)
    (hnone : ∀ x ∈ s, c.pos ≤ x → it.iter < x / elementSize n) :
    ∃ it', nextElement B it = .ok it' ∧ Arrives n it' (c.next s) := by
  unfold nextElement
  cases hf : B.elements.find? (it.iter < ·.index) with
  | none =>
      refine ⟨_, rfl, ?_⟩
      rw [BitIter.next, hl]
      dsimp only
      rw [nextFrom_eq_none fun x hx => ?_]
      · rfl
      · by_contra hge
        obtain ⟨r, hr, hindex⟩ := h.mem_element hx
        have hno := List.find?_eq_none.mp hf r hr
        rw [decide_eq_true_eq, hindex] at hno
        exact hno (hnone x hx (Nat.not_lt.mp hge))
  | some e =>
      obtain ⟨hbehind, as, bs, hsplit, hbefore⟩ := List.find?_eq_some_iff_append.mp hf
      rw [decide_eq_true_eq] at hbehind
      have hmul := Nat.mul_le_mul_right (elementSize n) (Nat.succ_le_of_lt hbehind)
      refine enter_arrives h hend hl (List.mem_of_find?_eq_some hf) (hpos.trans hmul) fun x hx hk => ?_
      obtain ⟨r, hr, hindex⟩ := h.mem_element hx
      rw [← hindex]
      have ha := h.ascends
      rw [hsplit] at hr ha
      rcases List.mem_append.mp hr with hr | hr
      · -- in front of `e` there are only elements up to the current one
        have hno := hbefore r hr
        rw [Bool.not_eq_true', decide_eq_false_iff_not, hindex] at hno
        exact absurd (hnone x hx hk) hno
      · rcases List.mem_cons.mp hr with heq | hr
        · rw [heq]
        · exact ((List.pairwise_cons.mp (List.pairwise_append.mp ha).2.1).1 r hr).le

/-- Behind the last bit of an element the next one follows. -/
theorem div_lt_of_border {b x : Nat} (hborder : (b + 1) % elementSize n = 0) (hx : b + 1 ≤ x) :
    b / elementSize n < x / elementSize n := by
  have hsplit := Nat.div_add_mod' (b + 1) (elementSize n)
  rw [hborder, Nat.add_zero] at hsplit
  have hlt : b < (b + 1) / elementSize n * elementSize n := by omega
  exact ((Nat.div_lt_iff_lt_mul Bitmap.size_pos).mpr hlt).trans_le (Nat.div_le_div_right hx)

omit [NeZero n] in
/-- From number `b + 1` on, inside the element of `b`. -/
theorem behind_bit {b : Nat} (hborder : (b + 1) % elementSize n ≠ 0) :
    (b + 1) / elementSize n = b / elementSize n ∧ ∀ x, b + 1 ≤ x →
      b / elementSize n ≤ x / elementSize n ∧ (b / elementSize n = x / elementSize n →
        (b + 1) % elementSize n ≤ x % elementSize n) := by
  have hdiv : (b + 1) / elementSize n = b / elementSize n := by
    rw [Nat.succ_div, if_neg fun hd => hborder (Nat.mod_eq_zero_of_dvd hd), Nat.add_zero]
  refine ⟨hdiv, fun x hx => ⟨hdiv ▸ Nat.div_le_div_right hx, fun heq => ?_⟩⟩
  have hsplit := Nat.div_add_mod' (b + 1) (elementSize n)
  have hsplit' := Nat.div_add_mod' x (elementSize n)
  rw [← heq] at hsplit'
  rw [hdiv] at hsplit
  omega

/-- With the word of bit `b` used up, the rest of its element is looked at as it is now. -/
theorem follow_arrives (h : B.Holds s) (hend : it.atEnd = false) (hbit : it.bitNumber = b + 1)
    (hiter : it.iter = b / elementSize n) (hl : c.loaded = []) (hpos : c.pos = b + 1)
    (hkept : ∃ x ∈ s, x / elementSize n = b / elementSize n) :
    ∃ it', follow B it = .ok it' ∧ Arrives n it' (c.next s) := by
  obtain ⟨e, he⟩ := h.entry_isSome.mpr hkept
  obtain ⟨hmem, hindex⟩ := entry_some he
  have hat : entry index B.elements it.iter = some e := by rwa [hiter]
  -- the next element, if the current one has no numbers from here on
  have hbehind : (∀ x ∈ s, b + 1 ≤ x → b / elementSize n < x / elementSize n) →
      ∃ it', nextElement B it = .ok it' ∧ Arrives n it' (c.next s) := by
    intro hnone
    refine nextElement_arrives h hend hl ?_ fun x hx hk => ?_
    · have hsplit := Nat.div_add_mod' b (elementSize n)
      have hlow := Nat.mod_lt b (Bitmap.size_pos (n := n))
      rw [hpos, hiter, Nat.succ_mul]
      omega
    · rw [hiter]
      exact hnone x hx (hpos ▸ hk)
  rw [follow, hat, hbit]
  dsimp only
  by_cases hborder : (b + 1) % elementSize n = 0
  · have hrest := hbehind fun x _ hx => div_lt_of_border hborder hx
    cases e.findNext ((b + 1) % elementSize n) with
    | none => exact hrest
    | some j =>
        dsimp only
        rw [if_pos hborder]
        exact hrest
  · obtain ⟨hdiv, hfrom⟩ := behind_bit hborder
    have hfirst := findNext_spec e ((b + 1) % elementSize n)
    cases hn : e.findNext ((b + 1) % elementSize n) with
    | none =>
        rw [hn] at hfirst
        refine hbehind fun x hx hk => ?_
        obtain ⟨hle, hcurr⟩ := hfrom x hk
        refine lt_of_le_of_ne hle fun heq => ?_
        have htest := h.entry_test (heq ▸ he)
        rw [hfirst _ (Nat.mod_lt x Bitmap.size_pos) (hcurr heq), decide_eq_true hx] at htest
        cases htest
    | some j =>
        rw [hn] at hfirst
        have hle := hfirst.1
        have hsplit := Nat.div_add_mod' (b + 1) (elementSize n)
        rw [hdiv] at hsplit
        have hnext := h.nextFrom_element (k := b + 1) hmem hfirst (by rw [hindex]; omega)
          fun x _ hx => by
            rw [hindex]
            exact hfrom x hx
        dsimp only
        rw [if_neg hborder]
        refine ⟨_, rfl, ?_⟩
        rw [BitIter.next, hl, hpos]
        dsimp only
        rw [hnext]
        exact load_stands h hend hmem hfirst.2.1

/-- One step of the iterator is one of the cursor, if the element it stands at is still there. -/
theorem next_arrives (h : B.Holds s) (hs : Stands n it b c)
    (hkept : ∃ x ∈ s, x / elementSize n = b / elementSize n) :
    ∃ it', next B it = .ok it' ∧ Arrives n it' (c.next s) := by
  obtain ⟨hend, rfl, hiter, hpos, hloaded, hword⟩ := hs
  obtain ⟨hend', hiter', hbits, hsame, hset⟩ := skipZeros_spec wordBits
    { it with bitNumber := it.bitNumber + 1, bits := it.bits >>> 1 }
    fun i hi => BitVec.getLsbD_of_ge _ _ hi
  rw [next, advanceToNextNonZero, if_neg (by rw [hend]; exact Bool.false_ne_true)]
  by_cases hzero : it.bits >>> 1 = 0
  · rw [hsame hzero]
    dsimp only
    rw [if_neg (not_not.mpr hzero)]
    exact follow_arrives h hend rfl hiter (hloaded.trans (loadedBits_eq_nil.mpr hzero)) hpos hkept
  · have hone := hset hzero
    rw [if_pos fun hz => by
      rw [hz, zero_bit] at hone
      cases hone]
    refine ⟨_, rfl, ?_⟩
    rw [loadedBits_cons hone, ← hloaded] at hbits
    rw [BitIter.next, ← hbits]
    rw [← hbits] at hword
    have hb := hword _ List.mem_cons_self
    refine ⟨hend'.trans hend, rfl, ?_, rfl, rfl, fun x hx => ?_⟩
    · refine hiter'.trans (hiter.trans ?_)
      rw [div_elementSize, div_elementSize (skipZeros _ _).bitNumber, hb]
    · rw [hb]
      exact hword x (List.mem_cons_of_mem _ hx)

end BitmapIter

/-! ## Walks -/

/-- What `*it` is, if the iterator is not at the end. -/
def BitmapIter.deref (it : BitmapIter) : Option Nat := if it.atEnd then none else some it.bitNumber

theorem BitmapIter.Arrives.deref {n : Nat} {it : BitmapIter} {o : Option (Nat × BitIter)}
    (h : Arrives n it o) : it.deref = o.map (·.1) := by
  unfold BitmapIter.deref
  cases o with
  | none => exact if_pos h
  | some t =>
      rw [if_neg (by rw [h.notEnd]; exact Bool.false_ne_true)]
      exact congrArg some h.bit

/-- What a loop over a bitmap does: operations on any of the bitmaps, and `++it`. -/
inductive WalkOp (ι : Type) where
  | run (op : BitmapOp ι)
  | next

section

variable {ι : Type} [DecidableEq ι] {n : Nat} [NeZero n]

/-- A walk over bitmap `a`, with what the operations return and each bit arrived at. -/
def runWalk (a : ι) : List (WalkOp ι) → (ι → Bitmap n) → BitmapIter →
    Run (List BitmapAnswer × (ι → Bitmap n))
  | [], Bs, _ => .ok ([], Bs)
  | .run op :: ops, Bs, it => do
      let (answers, Cs) ← runWalk a ops (op.run Bs).2 it
      return ((op.run Bs).1 :: answers, Cs)
  | .next :: ops, Bs, it => do
      let it ← it.next (Bs a)
      let (answers, Cs) ← runWalk a ops Bs it
      return (.bit it.deref :: answers, Cs)

/-- The walk of a cursor over set `a`, from the bit it is at. -/
def walkSets (size : Nat) (a : ι) : List (WalkOp ι) → (ι → Finset Nat) → Option (Nat × BitIter) →
    List BitmapAnswer × (ι → Finset Nat)
  | [], ss, _ => ([], ss)
  | .run op :: ops, ss, o =>
      let (answers, ts) := walkSets size a ops (op.means size ss).2 o
      ((op.means size ss).1 :: answers, ts)
  | .next :: ops, ss, o =>
      let o := o.bind fun t => t.2.next (ss a)
      let (answers, ts) := walkSets size a ops ss o
      (.bit (o.map (·.1)) :: answers, ts)

/-- The element of the current bit has numbers in a set. -/
def Keeps (size : Nat) (s : Finset Nat) (o : Option (Nat × BitIter)) : Prop :=
  ∀ t ∈ o, ∃ x ∈ s, x / size = t.1 / size

instance (size : Nat) (s : Finset Nat) (o : Option (Nat × BitIter)) : Decidable (Keeps size s o) :=
  inferInstanceAs (Decidable (∀ t ∈ o, ∃ x ∈ s, x / size = t.1 / size))

/-- All operations are allowed, and none of them erases the element the iterator stands at, whether
or not there is one with the same index afterwards. -/
def KeepsElement (size : Nat) (a : ι) : List (WalkOp ι) → (ι → Finset Nat) →
    Option (Nat × BitIter) → Prop
  | [], _, _ => True
  | .run op :: ops, ss, o => op.Allowed ∧ ¬ op.Rebuilds a ∧ Keeps size ((op.means size ss).2 a) o ∧
      KeepsElement size a ops (op.means size ss).2 o
  | .next :: ops, ss, o => KeepsElement size a ops ss (o.bind fun t => t.2.next (ss a))

instance KeepsElement.decidable (size : Nat) (a : ι) : (ops : List (WalkOp ι)) → (ss : ι → Finset Nat) →
    (o : Option (Nat × BitIter)) → Decidable (KeepsElement size a ops ss o)
  | [], _, _ => isTrue trivial
  | .run op :: ops, ss, o =>
      have := KeepsElement.decidable size a ops (op.means size ss).2 o
      inferInstanceAs (Decidable (op.Allowed ∧ ¬ op.Rebuilds a ∧
        Keeps size ((op.means size ss).2 a) o ∧ KeepsElement size a ops (op.means size ss).2 o))
  | .next :: ops, ss, o => KeepsElement.decidable size a ops ss (o.bind fun t => t.2.next (ss a))

variable {Bs : ι → Bitmap n} {ss : ι → Finset Nat} {it : BitmapIter} {o : Option (Nat × BitIter)}
  {B : Bitmap n} {s : Finset Nat}

/-- A step from wherever the iterator is, the end included. -/
theorem BitmapIter.Arrives.next (h : B.Holds s) (ha : Arrives n it o)
    (hkeeps : Keeps (elementSize n) s o) :
    ∃ it', it.next B = .ok it' ∧ Arrives n it' (o.bind fun t => t.2.next s) := by
  cases o with
  | none =>
      have hend : it.atEnd = true := ha
      refine ⟨{ it with bitNumber := it.bitNumber + 1, bits := it.bits >>> 1 }, ?_, hend⟩
      rw [BitmapIter.next, advanceToNextNonZero]
      exact if_pos hend
  | some t => exact next_arrives h ha (hkeeps t rfl)

omit [NeZero n] in
/-- A bit that was loaded is in the element that is kept, and any other one is in the set. -/
theorem BitmapIter.Arrives.keeps (ha : Arrives n it o) (hkeeps : Keeps (elementSize n) s o) :
    Keeps (elementSize n) s (o.bind fun t => t.2.next s) := by
  intro t ht
  cases o with
  | none => cases ht
  | some u =>
      rw [Option.bind_some, BitIter.next] at ht
      cases hl : u.2.loaded with
      | cons b rest =>
          rw [hl] at ht
          obtain rfl := Option.some.inj ht
          have hb := ha.word b (hl ▸ List.mem_cons_self)
          obtain ⟨x, hx, hdiv⟩ := hkeeps u rfl
          refine ⟨x, hx, hdiv.trans ?_⟩
          rw [div_elementSize, div_elementSize b, hb]
      | nil =>
          rw [hl] at ht
          dsimp only at ht
          split at ht
          · cases ht
          · rename_i b hb
            obtain rfl := Option.some.inj ht
            exact ⟨b, (nextFrom_some hb).1, rfl⟩

theorem runWalk_arrives {a : ι} (ops : List (WalkOp ι)) (h : Holding Bs ss) (ha : BitmapIter.Arrives n it o)
    (hkeeps : Keeps (elementSize n) (ss a) o) (hops : KeepsElement (elementSize n) a ops ss o) :
    ∃ Cs, runWalk a ops Bs it = .ok ((walkSets (elementSize n) a ops ss o).1, Cs) ∧
      Holding Cs (walkSets (elementSize n) a ops ss o).2 := by
  induction ops generalizing Bs ss it o with
  | nil => exact ⟨Bs, rfl, h⟩
  | cons op ops ih =>
      cases op with
      | run op =>
          obtain ⟨hallowed, -, hkept, hops⟩ := hops
          obtain ⟨hanswer, h1⟩ := op.run_refines h hallowed
          obtain ⟨Cs, hrun, hCs⟩ := ih h1 ha hkept hops
          refine ⟨Cs, ?_, hCs⟩
          rw [runWalk, hrun, hanswer]
          rfl
      | next =>
          obtain ⟨it', hnext, ha'⟩ := ha.next (h a) hkeeps
          obtain ⟨Cs, hrun, hCs⟩ := ih h ha' (ha.keeps hkeeps) hops
          refine ⟨Cs, ?_, hCs⟩
          rw [runWalk, hnext]
          change (runWalk a ops Bs it' >>= _) = _
          rw [hrun, ha'.deref]
          rfl

/-- Whatever a loop over bitmap `a` does to the bitmaps between the steps of its iterator, it sees
what a cursor over the set sees that reads one word at a time, and it never follows a pointer to
nowhere, if no operation erases the element of the current bit. -/
theorem runWalk_refines {n : Nat} [NeZero n] (a : ι) (ops : List (WalkOp ι)) {Bs : ι → Bitmap n}
    {ss : ι → Finset Nat} (h : Holding Bs ss)
    (hops : KeepsElement (elementSize n) a ops ss (BitIter.start.next (ss a))) :
    ∃ it Cs, BitmapIter.start (Bs a) = .ok it ∧
      it.deref = (BitIter.start.next (ss a)).map (·.1) ∧
      runWalk a ops Bs it =
        .ok ((walkSets (elementSize n) a ops ss (BitIter.start.next (ss a))).1, Cs) ∧
      Holding Cs (walkSets (elementSize n) a ops ss (BitIter.start.next (ss a))).2 := by
  obtain ⟨it, hstart, ha⟩ := BitmapIter.start_arrives (h a)
  have hkeeps : Keeps (elementSize n) (ss a) (BitIter.start.next (ss a)) := by
    intro t ht
    rw [BitIter.next, BitIter.start] at ht
    dsimp only at ht
    split at ht
    · cases ht
    · rename_i b hb
      obtain rfl := Option.some.inj ht
      exact ⟨b, (nextFrom_some hb).1, rfl⟩
  obtain ⟨Cs, hrun, hCs⟩ := runWalk_arrives ops h ha hkeeps hops
  exact ⟨it, Cs, hstart, ha.deref, hrun, hCs⟩

end

/-- At `5` the word of `6` is loaded: that `6` is reset is not seen, and `7` is seen behind it. -/
theorem runWalk_refines_stale : ∃ it Cs,
    BitmapIter.start ((runBitmaps [.set () 5, .set () 6, .set () 70, .set () 200]
      fun _ => (Bitmap.new : Bitmap 2)).2 ()) = .ok it ∧ it.deref = some 5 ∧
    runWalk () [.run (.set () 7), .run (.reset () 6), .next, .next, .next, .run (.reset () 5), .next,
        .next] (runBitmaps [.set () 5, .set () 6, .set () 70, .set () 200]
          fun _ => (Bitmap.new : Bitmap 2)).2 it =
      .ok ([.nothing, .nothing, .bit (some 6), .bit (some 7), .bit (some 70), .nothing,
        .bit (some 200), .bit none], Cs) := by
  have hnew : Holding (fun _ : Unit => (Bitmap.new : Bitmap 2)) fun _ => ∅ := fun _ => Bitmap.new_holds
  have h := (hnew.run [.set () 5, .set () 6, .set () 70, .set () 200] (by decide)).2
  obtain ⟨it, Cs, hstart, hbit, hrun, -⟩ := runWalk_refines () [.run (.set () 7), .run (.reset () 6),
    .next, .next, .next, .run (.reset () 5), .next, .next] h (by decide)
  exact ⟨it, Cs, hstart, hbit.trans (by decide), hrun⟩

end PtrAnalysis
