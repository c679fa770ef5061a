import PtrAnalysis.Lib.Ascending
import Mathlib.Algebra.GroupWithZero.Nat
import Mathlib.Data.Fintype.Pi
import Mathlib.Data.List.FinRange
import Mathlib.Logic.Function.Basic

/-!
# The elements of a sparse bit vector

`bitmap.h` keeps a set of numbers as a linked list of elements. An element holds the numbers of one
range of `elementSize n` numbers as `n` words of bits. Its operations are loops over the words; the
lemmas about them are about `test`.
-/

namespace PtrAnalysis

/-- Element `index` of a vector: `n` words of bits. -/
structure BitElement (n : Nat) where
  index : Nat
  bits : Fin n → BitVec wordBits
  deriving DecidableEq

namespace BitElement

variable {n : Nat}

/-- How many numbers an element is for. -/
def elementSize (n : Nat) : Nat := n * wordBits

def new (idx : Nat) : BitElement n := ⟨idx, fun _ => 0⟩

def empty (e : BitElement n) : Bool := decide (∀ i, e.bits i = 0)

def write (e : BitElement n) (i : Fin n) (w : BitVec wordBits) : BitElement n :=
  { e with bits := Function.update e.bits i w }

section

variable [NeZero n]

/-- The word and the bit in it of a number. -/
def wordOf (idx : Nat) : Fin n := Fin.ofNat n (idx / wordBits)

def bitOf (idx : Nat) : BitVec wordBits := (1 : BitVec wordBits) <<< (idx % wordBits)

def set (e : BitElement n) (idx : Nat) : BitElement n :=
  e.write (wordOf idx) (e.bits (wordOf idx) ||| bitOf idx)

def reset (e : BitElement n) (idx : Nat) : BitElement n :=
  e.write (wordOf idx) (e.bits (wordOf idx) &&& ~~~ bitOf idx)

def test (e : BitElement n) (idx : Nat) : Bool :=
  decide (e.bits (wordOf idx) &&& bitOf idx ≠ 0)

end

/-! ## Loops over the words -/

/-- One word of the loop that the operations with another element share, with what becomes of it:
the element, whether a word changed so far, and whether all of them are zero. -/
def wordStep (f : BitVec wordBits → BitVec wordBits → BitVec wordBits) (r : BitElement n)
    (t : BitElement n × Bool × Bool) (i : Fin n) : BitElement n × Bool × Bool :=
  let old := if t.2.1 then 0 else t.1.bits i
  let w := f (t.1.bits i) (r.bits i)
  (t.1.write i w, t.2.1 || decide (old ≠ w), t.2.2 && decide (w = 0))

def eachWord (f : BitVec wordBits → BitVec wordBits → BitVec wordBits) (e r : BitElement n) :
    BitElement n × Bool × Bool :=
  (List.finRange n).foldl (wordStep f r) (e, false, true)

/-- The element with the bits of both, and whether it changed. -/
def unionWith (e r : BitElement n) : BitElement n × Bool :=
  let t := eachWord (· ||| ·) e r
  (t.1, t.2.1)

/-- The element, whether it changed, and whether it became zero. -/
def intersectWith (e r : BitElement n) : BitElement n × Bool × Bool :=
  eachWord (· &&& ·) e r

def intersectWithComplement (e r : BitElement n) : BitElement n × Bool × Bool :=
  eachWord (fun w v => w &&& ~~~ v) e r

def intersects (e r : BitElement n) : Bool :=
  (List.finRange n).any fun i => decide (r.bits i &&& e.bits i ≠ 0)

/-- `CountPopulation_64`. -/
def countPopulation (w : BitVec wordBits) : Nat := (List.range wordBits).countP w.getLsbD

def countTrailingZeros (w : BitVec wordBits) : Nat :=
  ((List.range wordBits).find? w.getLsbD).getD wordBits

section

variable [NeZero n]

def word (e : BitElement n) (i : Nat) : BitVec wordBits := e.bits (Fin.ofNat n i)

def count (e : BitElement n) : Nat :=
  (List.range n).foldl (fun numBits i => numBits + countPopulation (e.word i)) 0

/-- The first set bit from word `i` on. -/
def firstFrom (e : BitElement n) (i : Nat) : Option Nat :=
  ((List.range' i (n - i)).find? fun i => decide (e.word i ≠ 0)).map fun i =>
    i * wordBits + countTrailingZeros (e.word i)

def findFirst (e : BitElement n) : Option Nat := e.firstFrom 0

/-- The first set bit from `curr` on. -/
def findNext (e : BitElement n) (curr : Nat) : Option Nat :=
  if elementSize n ≤ curr then none
  else
    let wordPos := curr / wordBits
    let copy := e.word wordPos &&& (BitVec.allOnes wordBits <<< (curr % wordBits))
    if copy ≠ 0 then some (wordPos * wordBits + countTrailingZeros copy)
    else e.firstFrom (wordPos + 1)

end

def getHashValue (e : BitElement n) : BitVec 64 :=
  (List.finRange n).foldl (fun hashVal i => hashVal ^^^ (e.bits i).setWidth 64) 0

/-! ## What the operations do to each bit -/

theorem eq_mk {e : BitElement n} {i : Nat} {bits : Fin n → BitVec wordBits} (hi : e.index = i)
    (hb : ∀ i, e.bits i = bits i) : e = ⟨i, bits⟩ := by
  obtain ⟨j, bits'⟩ := e
  obtain rfl : j = i := hi
  obtain rfl : bits' = bits := funext hb
  rfl

/-- All bits of an element are numbers of it. -/
theorem bit_lt (i : Fin n) {b : Nat} (hb : b < wordBits) : i.val * wordBits + b < elementSize n :=
  calc i.val * wordBits + b < (i.val + 1) * wordBits := by rw [Nat.add_mul]; omega
    _ ≤ n * wordBits := Nat.mul_le_mul_right _ i.isLt

section

variable [NeZero n] {e r : BitElement n} {j k : Nat}

theorem bitOf_eq (k : Nat) : bitOf k = BitVec.twoPow wordBits (k % wordBits) :=
  (BitVec.twoPow_eq ..).symm

@[simp] theorem zero_bit (b : Nat) : (0 : BitVec wordBits).getLsbD b = false := BitVec.getLsbD_zero

theorem mod_lt (k : Nat) : k % wordBits < wordBits := Nat.mod_lt k (by decide)

theorem test_eq : e.test k = (e.bits (wordOf k)).getLsbD (k % wordBits) := by
  have hpow : BitVec.twoPow wordBits (k % wordBits) ≠ 0 := fun h => by
    have := congrArg (fun w : BitVec wordBits => w.getLsbD (k % wordBits)) h
    simp [mod_lt] at this
  rw [test, bitOf_eq, BitVec.and_twoPow]
  cases (e.bits (wordOf k)).getLsbD (k % wordBits)
  · rw [if_neg Bool.false_ne_true]
    exact decide_eq_false fun h => h rfl
  · rw [if_pos rfl]
    exact decide_eq_true hpow

/-- Two numbers of an element are the same if they have the same word and bit. -/
theorem wordOf_inj (hj : j < elementSize n) (hk : k < elementSize n)
    (hw : (wordOf j : Fin n) = wordOf k) (hb : j % wordBits = k % wordBits) : j = k := by
  have hdiv : ∀ {i}, i < elementSize n → (wordOf i : Fin n).val = i / wordBits := fun {i} hi =>
    Nat.mod_eq_of_lt (Nat.div_lt_of_lt_mul (by rwa [elementSize, Nat.mul_comm] at hi))
  have hw := congrArg Fin.val hw
  rw [hdiv hj, hdiv hk] at hw
  rw [← Nat.div_add_mod j wordBits, ← Nat.div_add_mod k wordBits, hw, hb]

theorem test_write {w : BitVec wordBits} (i : Fin n) :
    (e.write i w).test k = if wordOf k = i then w.getLsbD (k % wordBits) else e.test k := by
  rw [test_eq, test_eq, write]
  dsimp only
  rw [Function.update_apply]
  split <;> rfl

theorem test_set (hj : j < elementSize n) (hk : k < elementSize n) :
    (e.set k).test j = (decide (j = k) || e.test j) := by
  rw [set, test_write]
  split
  · rename_i hw
    rw [BitVec.getLsbD_or, bitOf_eq, BitVec.getLsbD_twoPow, test_eq, hw, Bool.or_comm]
    congr 1
    by_cases h : j = k
    · subst h
      simp [mod_lt]
    · have hb : k % wordBits ≠ j % wordBits := fun hb => h (wordOf_inj hj hk hw hb.symm)
      simp [h, hb]
  · rename_i hw
    have h : j ≠ k := fun h => hw (h ▸ rfl)
    simp [h]

theorem test_reset (hj : j < elementSize n) (hk : k < elementSize n) :
    (e.reset k).test j = (!decide (j = k) && e.test j) := by
  rw [reset, test_write]
  split
  · rename_i hw
    rw [BitVec.getLsbD_and, BitVec.getLsbD_not, bitOf_eq, BitVec.getLsbD_twoPow, test_eq, hw,
      Bool.and_comm]
    congr 1
    by_cases h : j = k
    · subst h
      simp [mod_lt]
    · have hb : k % wordBits ≠ j % wordBits := fun hb => h (wordOf_inj hj hk hw hb.symm)
      simp [h, hb, mod_lt]
  · rename_i hw
    have h : j ≠ k := fun h => hw (h ▸ rfl)
    simp [h]

theorem test_bit (i : Fin n) {b : Nat} (hb : b < wordBits) :
    e.test (i.val * wordBits + b) = (e.bits i).getLsbD b := by
  have hdiv : (i.val * wordBits + b) / wordBits = i.val := by
    rw [Nat.mul_comm, Nat.mul_add_div (by decide), Nat.div_eq_of_lt hb, Nat.add_zero]
  have hmod : (i.val * wordBits + b) % wordBits = b := by
    rw [Nat.mul_comm, Nat.mul_add_mod, Nat.mod_eq_of_lt hb]
  have hword : (wordOf (i.val * wordBits + b) : Fin n) = i := by
    rw [wordOf, hdiv]
    exact Fin.ext (Nat.mod_eq_of_lt i.isLt)
  rw [test_eq, hword, hmod]

/-- Words that differ have a bit that does. -/
theorem bits_ext (h : ∀ k < elementSize n, e.test k = r.test k) : e.bits = r.bits := by
  funext i
  refine BitVec.eq_of_getLsbD_eq fun b hb => ?_
  rw [← test_bit i hb, ← test_bit i hb]
  exact h _ (bit_lt i hb)

theorem ext_test (hi : e.index = r.index) (h : ∀ k < elementSize n, e.test k = r.test k) : e = r :=
  eq_mk hi fun i => congrFun (bits_ext h) i

theorem empty_iff : e.empty = true ↔ ∀ k < elementSize n, e.test k = false := by
  rw [empty, decide_eq_true_eq]
  constructor
  · intro h k _
    rw [test_eq, h]
    exact zero_bit _
  · intro h i
    refine BitVec.eq_of_getLsbD_eq fun b hb => ?_
    rw [← test_bit i hb, h _ (bit_lt i hb)]
    exact (zero_bit b).symm

theorem test_new {idx : Nat} : (new idx : BitElement n).test k = false := by
  rw [test_eq]
  exact zero_bit _

end

section

variable {f : BitVec wordBits → BitVec wordBits → BitVec wordBits} {e r : BitElement n}

theorem wordStep_loop (r : BitElement n) (l : List (Fin n)) (hl : l.Nodup)
    (t : BitElement n × Bool × Bool) :
    (l.foldl (wordStep f r) t).1.index = t.1.index ∧
      (∀ i, (l.foldl (wordStep f r) t).1.bits i =
        if i ∈ l then f (t.1.bits i) (r.bits i) else t.1.bits i) ∧
      ((l.foldl (wordStep f r) t).2.1 = true ↔
        t.2.1 = true ∨ ∃ i ∈ l, f (t.1.bits i) (r.bits i) ≠ t.1.bits i) ∧
      ((l.foldl (wordStep f r) t).2.2 = true ↔
        t.2.2 = true ∧ ∀ i ∈ l, f (t.1.bits i) (r.bits i) = 0) := by
  induction l generalizing t with
  | nil => simp
  | cons i l ih =>
      obtain ⟨hi, hl⟩ := List.nodup_cons.mp hl
      rw [List.foldl_cons]
      obtain ⟨hindex, hbits, hchanged, hzero⟩ := ih hl (wordStep f r t i)
      have hself : (wordStep f r t i).1.bits i = f (t.1.bits i) (r.bits i) :=
        Function.update_self ..
      have hother : ∀ j, j ≠ i → (wordStep f r t i).1.bits j = t.1.bits j := fun j hj =>
        Function.update_of_ne hj ..
      have hkeep : ∀ j ∈ l, (wordStep f r t i).1.bits j = t.1.bits j := fun j hj =>
        hother j fun h => hi (h ▸ hj)
      refine ⟨hindex, fun j => ?_, hchanged.trans ?_, hzero.trans ?_⟩
      · rw [hbits j]
        by_cases hj : j ∈ l
        · rw [if_pos hj, if_pos (List.mem_cons_of_mem i hj), hkeep j hj]
        · rw [if_neg hj]
          by_cases hji : j = i
          · rw [hji, hself, if_pos List.mem_cons_self]
          · rw [hother j hji, if_neg fun hmem => (List.mem_cons.mp hmem).elim hji hj]
      · have hrest : (∃ j ∈ l, f ((wordStep f r t i).1.bits j) (r.bits j) ≠
            (wordStep f r t i).1.bits j) ↔ ∃ j ∈ l, f (t.1.bits j) (r.bits j) ≠ t.1.bits j :=
          exists_congr fun j => and_congr_right fun hj => by rw [hkeep j hj]
        rw [hrest, List.exists_mem_cons_iff, ← or_assoc]
        refine or_congr_left ?_
        unfold wordStep
        dsimp only
        rw [Bool.or_eq_true, decide_eq_true_eq]
        by_cases hc : t.2.1 = true
        · exact iff_of_true (.inl hc) (.inl hc)
        · rw [if_neg hc]
          exact or_congr_right ne_comm
      · have hrest : (∀ j ∈ l, f ((wordStep f r t i).1.bits j) (r.bits j) = 0) ↔
            ∀ j ∈ l, f (t.1.bits j) (r.bits j) = 0 :=
          forall₂_congr fun j hj => by rw [hkeep j hj]
        rw [hrest, List.forall_mem_cons, ← and_assoc]
        refine and_congr_left' ?_
        unfold wordStep
        dsimp only
        rw [Bool.and_eq_true, decide_eq_true_eq]

theorem eachWord_spec (f : BitVec wordBits → BitVec wordBits → BitVec wordBits) (e r : BitElement n) :
    (eachWord f e r).1 = ⟨e.index, fun i => f (e.bits i) (r.bits i)⟩ ∧
      ((eachWord f e r).2.1 = true ↔ ∃ i, f (e.bits i) (r.bits i) ≠ e.bits i) ∧
      ((eachWord f e r).2.2 = true ↔ ∀ i, f (e.bits i) (r.bits i) = 0) := by
  obtain ⟨hindex, hbits, hchanged, hzero⟩ :=
    wordStep_loop (f := f) r (List.finRange n) (List.nodup_finRange n) (e, false, true)
  refine ⟨eq_mk hindex fun i => ?_, hchanged.trans (by simp), hzero.trans (by simp)⟩
  exact (hbits i).trans (if_pos (List.mem_finRange i))

/-- `f` is `g`, bit by bit. -/
def Bitwise (f : BitVec wordBits → BitVec wordBits → BitVec wordBits) (g : Bool → Bool → Bool) : Prop :=
  ∀ w v b, b < wordBits → (f w v).getLsbD b = g (w.getLsbD b) (v.getLsbD b)

theorem bitwise_union : Bitwise (· ||| ·) or := fun _ _ _ _ => BitVec.getLsbD_or

theorem bitwise_intersect : Bitwise (· &&& ·) and := fun _ _ _ _ => BitVec.getLsbD_and

theorem bitwise_complement : Bitwise (fun w v => w &&& ~~~ v) fun x y => x && !y :=
  fun _ _ _ hb => by simp [hb]

theorem eachWord_index : (eachWord f e r).1.index = e.index := by rw [(eachWord_spec f e r).1]

variable [NeZero n] {g : Bool → Bool → Bool} {k : Nat}

theorem eachWord_test (hf : Bitwise f g) : (eachWord f e r).1.test k = g (e.test k) (r.test k) := by
  rw [(eachWord_spec f e r).1, test_eq, test_eq, test_eq]
  exact hf _ _ _ (mod_lt k)

theorem eachWord_changed (hf : Bitwise f g) : (eachWord f e r).2.1 = true ↔
    ∃ k < elementSize n, g (e.test k) (r.test k) ≠ e.test k := by
  rw [(eachWord_spec f e r).2.1]
  constructor
  · rintro ⟨i, hi⟩
    by_contra hall
    refine hi (BitVec.eq_of_getLsbD_eq fun b hb => ?_)
    rw [hf _ _ _ hb, ← test_bit i hb, ← test_bit i hb]
    by_contra hne
    exact hall ⟨_, bit_lt i hb, hne⟩
  · rintro ⟨k, -, hne⟩
    refine ⟨wordOf k, fun h => hne ?_⟩
    rw [test_eq, test_eq, ← hf _ _ _ (mod_lt k), h]

omit [NeZero n] in
theorem eachWord_zero : (eachWord f e r).2.2 = true ↔ (eachWord f e r).1.empty = true := by
  rw [(eachWord_spec f e r).2.2, (eachWord_spec f e r).1, empty, decide_eq_true_eq]

theorem intersects_iff : e.intersects r = true ↔
    ∃ k < elementSize n, e.test k = true ∧ r.test k = true := by
  rw [intersects, List.any_eq_true]
  constructor
  · rintro ⟨i, -, hi⟩
    by_contra hall
    refine of_decide_eq_true hi (BitVec.eq_of_getLsbD_eq fun b hb => ?_)
    rw [BitVec.getLsbD_and, ← test_bit i hb, ← test_bit i hb, zero_bit]
    by_contra hne
    rw [Bool.not_eq_false, Bool.and_eq_true] at hne
    exact hall ⟨_, bit_lt i hb, hne.2, hne.1⟩
  · rintro ⟨k, -, he, hr⟩
    refine ⟨wordOf k, List.mem_finRange _, decide_eq_true fun h => ?_⟩
    have hbit := congrArg (fun w : BitVec wordBits => w.getLsbD (k % wordBits)) h
    rw [test_eq] at he hr
    simp [he, hr] at hbit

end

/-! ## The first set bit -/

theorem countTrailingZeros_spec {w : BitVec wordBits} (hw : w ≠ 0) :
    countTrailingZeros w < wordBits ∧ w.getLsbD (countTrailingZeros w) = true ∧
      ∀ b < countTrailingZeros w, w.getLsbD b = false := by
  unfold countTrailingZeros
  cases hf : (List.range wordBits).find? w.getLsbD with
  | none =>
      refine absurd (BitVec.eq_of_getLsbD_eq fun b hb => ?_) hw
      rw [zero_bit]
      simpa using List.find?_eq_none.mp hf b (List.mem_range.mpr hb)
  | some b =>
      obtain ⟨hbit, hb, hleast⟩ := List.find?_range_eq_some.mp hf
      refine ⟨List.mem_range.mp hb, hbit, fun c hc => ?_⟩
      simpa using hleast c hc

section

variable [NeZero n] {e : BitElement n}

/-- The answer `o` is the first set bit of `e` from `curr` on. -/
def IsFirst (e : BitElement n) (curr : Nat) : Option Nat → Prop
  | none => ∀ c < elementSize n, curr ≤ c → e.test c = false
  | some b => curr ≤ b ∧ b < elementSize n ∧ e.test b = true ∧ ∀ c, curr ≤ c → c < b → e.test c = false

theorem word_test {i b : Nat} (hi : i < n) (hb : b < wordBits) :
    e.test (i * wordBits + b) = (e.word i).getLsbD b := by
  have hword : (⟨i, hi⟩ : Fin n) = Fin.ofNat n i := Fin.ext (Nat.mod_eq_of_lt hi).symm
  rw [word, ← hword]
  exact test_bit ⟨i, hi⟩ hb

/-- The bits of word `i` are the numbers from `i * wordBits` on. -/
theorem div_bounds (c : Nat) : c / wordBits * wordBits ≤ c ∧ c < (c / wordBits + 1) * wordBits := by
  have := Nat.div_add_mod c wordBits
  have := mod_lt c
  rw [Nat.add_mul, Nat.mul_comm]
  omega

theorem test_word {c : Nat} (hc : c < elementSize n) :
    c / wordBits < n ∧ e.test c = (e.word (c / wordBits)).getLsbD (c % wordBits) := by
  have hi : c / wordBits < n := Nat.div_lt_of_lt_mul (by rwa [elementSize, Nat.mul_comm] at hc)
  refine ⟨hi, ?_⟩
  rw [← word_test hi (mod_lt c), Nat.mul_comm, Nat.div_add_mod]

theorem firstFrom_spec (e : BitElement n) (i : Nat) : IsFirst e (i * wordBits) (e.firstFrom i) := by
  have hpos : 0 < wordBits := by decide
  unfold firstFrom
  cases hf : (List.range' i (n - i)).find? fun i => decide (e.word i ≠ 0) with
  | none =>
      intro c hc hic
      obtain ⟨hi, ht⟩ := test_word (e := e) hc
      have hzero := List.find?_eq_none.mp hf (c / wordBits) (List.mem_range'_1.mpr
        ⟨(Nat.le_div_iff_mul_le hpos).mpr hic, by omega⟩)
      simp only [decide_eq_true_eq, not_not] at hzero
      rw [ht, hzero]
      exact zero_bit _
  | some j =>
      obtain ⟨hword, hj, hleast⟩ := List.find?_range'_eq_some.mp hf
      obtain ⟨hij, hjn⟩ := List.mem_range'_1.mp hj
      obtain ⟨hlt, hbit, hfirst⟩ := countTrailingZeros_spec (of_decide_eq_true hword)
      have hjn : j < n := by omega
      change _ ≤ _ ∧ _
      refine ⟨Nat.le_add_right_of_le (Nat.mul_le_mul_right _ hij), bit_lt ⟨j, hjn⟩ hlt,
        (word_test hjn hlt).trans hbit, fun c hic hc => ?_⟩
      have hc : c < j * wordBits + countTrailingZeros (e.word j) := hc
      have hcn : c < elementSize n := hc.trans (bit_lt ⟨j, hjn⟩ hlt)
      obtain ⟨-, ht⟩ := test_word (e := e) hcn
      have hbounds := div_bounds c
      have hle : c / wordBits ≤ j := by
        refine Nat.le_of_lt_succ ((Nat.div_lt_iff_lt_mul hpos).mpr ?_)
        rw [Nat.succ_mul]
        omega
      rw [ht]
      rcases Nat.lt_or_eq_of_le hle with hlt' | heq
      · have hzero := hleast (c / wordBits) ((Nat.le_div_iff_mul_le hpos).mpr hic) hlt'
        simp only [Bool.not_eq_true', decide_eq_false_iff_not, not_not] at hzero
        rw [hzero]
        exact zero_bit _
      · rw [heq]
        refine hfirst _ ?_
        have := Nat.div_add_mod c wordBits
        rw [heq, Nat.mul_comm] at this
        omega

theorem findNext_spec (e : BitElement n) (curr : Nat) : IsFirst e curr (e.findNext curr) := by
  unfold findNext
  split
  · intro c hc hcurr
    omega
  · rename_i hin
    rw [Nat.not_le] at hin
    have hin' := (test_word (e := e) hin).1
    have hcopy : ∀ {b}, b < wordBits →
        (e.word (curr / wordBits) &&& (BitVec.allOnes wordBits <<< (curr % wordBits))).getLsbD b =
          (e.test (curr / wordBits * wordBits + b) && decide (curr % wordBits ≤ b)) := fun {b} hb => by
      rw [BitVec.getLsbD_and, word_test hin' hb, BitVec.getLsbD_shiftLeft, BitVec.getLsbD_allOnes]
      congr 1
      simp only [hb, decide_true, Bool.true_and]
      by_cases hle : curr % wordBits ≤ b
      · simp [hle, Nat.not_lt.mpr hle]
        omega
      · simp [hle, Nat.not_le.mp hle]
    have hsplit : curr = curr / wordBits * wordBits + curr % wordBits := by
      rw [Nat.mul_comm, Nat.div_add_mod]
    have hsame : ∀ {c}, curr ≤ c → c < (curr / wordBits + 1) * wordBits →
        c - curr / wordBits * wordBits < wordBits ∧ c = curr / wordBits * wordBits +
          (c - curr / wordBits * wordBits) ∧ curr % wordBits ≤ c - curr / wordBits * wordBits := by
      intro c hc hlt
      rw [Nat.add_mul] at hlt
      omega
    dsimp only
    split
    · rename_i hne
      obtain ⟨hlt, hbit, hfirst⟩ := countTrailingZeros_spec hne
      rw [hcopy hlt, Bool.and_eq_true, decide_eq_true_eq] at hbit
      refine ⟨by omega, bit_lt ⟨_, hin'⟩ hlt, hbit.1, fun c hc hcb => ?_⟩
      obtain ⟨hb, heq, hle⟩ := hsame hc (by rw [Nat.add_mul]; omega)
      have hzero := hfirst (c - curr / wordBits * wordBits) (by omega)
      rw [hcopy hb, ← heq, decide_eq_true hle, Bool.and_true] at hzero
      exact hzero
    · rename_i hzero
      rw [not_not] at hzero
      have hword : ∀ c, curr ≤ c → c < (curr / wordBits + 1) * wordBits → e.test c = false := by
        intro c hc hlt
        obtain ⟨hb, heq, hle⟩ := hsame hc hlt
        have hbit := hcopy hb
        rw [hzero, ← heq, decide_eq_true hle, Bool.and_true, zero_bit] at hbit
        exact hbit.symm
      have hrest := firstFrom_spec e (curr / wordBits + 1)
      have hbounds := div_bounds curr
      cases hf : e.firstFrom (curr / wordBits + 1) with
      | none =>
          rw [hf] at hrest
          intro c hc hcurr
          by_cases hlt : c < (curr / wordBits + 1) * wordBits
          · exact hword c hcurr hlt
          · exact hrest c hc (Nat.not_lt.mp hlt)
      | some b =>
          rw [hf] at hrest
          obtain ⟨hle, hb, hbit, hfirst⟩ := hrest
          refine ⟨by omega, hb, hbit, fun c hcurr hcb => ?_⟩
          by_cases hlt : c < (curr / wordBits + 1) * wordBits
          · exact hword c hcurr hlt
          · exact hfirst c (Nat.not_lt.mp hlt) hcb

theorem findFirst_spec (e : BitElement n) : IsFirst e 0 e.findFirst := by
  have h := firstFrom_spec e 0
  rwa [Nat.zero_mul] at h

/-! ## How many bits are set -/

theorem count_eq (e : BitElement n) : e.count = (List.range (elementSize n)).countP e.test := by
  have hloop : ∀ m ≤ n, (List.range m).foldl (fun numBits i => numBits + countPopulation (e.word i)) 0 =
      (List.range (m * wordBits)).countP e.test := by
    intro m hm
    induction m with
    | zero => simp
    | succ m ih =>
        have hword : (List.range wordBits).countP (e.test ∘ fun b => m * wordBits + b) =
            countPopulation (e.word m) :=
          List.countP_congr fun b hb => by
            rw [Function.comp_apply, word_test hm (List.mem_range.mp hb)]
        rw [List.range_succ, List.foldl_append, ih (Nat.le_of_succ_le hm), List.foldl_cons,
          List.foldl_nil, Nat.succ_mul, List.range_add, List.countP_append, List.countP_map, hword]
  exact hloop n le_rfl

end

end BitElement

end PtrAnalysis
