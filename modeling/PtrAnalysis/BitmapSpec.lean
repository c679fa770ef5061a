import PtrAnalysis.Bitmap
import Mathlib.Data.Finset.Card

/-!
# Bitmaps hold sets

Every operation on bitmaps does to the sets they hold what it is named for, from any position of the
element accessed last, and keeps the elements in order and non-zero. What `operator&=` returns is
not whether the set changed: an element that the other bitmap lacks goes without notice.
-/

namespace PtrAnalysis

open Keyed BitElement

namespace Bitmap

variable {n : Nat}

/-! ## The position of an element -/

section

variable {l : List (BitElement n)} {k p : Nat}

/-- Position `p` is that of element `k`, or `insertPos` is where the element belongs. -/
structure Located (l : List (BitElement n)) (k p : Nat) : Prop where
  le : p ≤ l.length
  found : (∃ e, l[p]? = some e ∧ e.index = k) ∨ Gap index l k (insertPos l k p)

theorem indexAt_lt (hp : p < l.length) : indexAt l p = l[p].index := by
  rw [indexAt, List.getElem?_eq_getElem hp]
  rfl

theorem forward_located (l : List (BitElement n)) (pre : List (BitElement n))
    (hpre : ∀ e ∈ pre, e.index < k) (h : Ascends index (pre ++ l)) :
    Located (pre ++ l) k (forward k l pre.length) := by
  induction l generalizing pre with
  | nil =>
      rw [List.append_nil, forward]
      have hend : pre[pre.length]? = none := List.getElem?_eq_none le_rfl
      refine ⟨le_rfl, .inr ?_⟩
      rw [insertPos, hend]
      exact ⟨fun e he => hpre e (List.mem_of_mem_take he), fun e he => by simp at he⟩
  | cons e l ih =>
      have hat : (pre ++ e :: l)[pre.length]? = some e := by
        rw [List.getElem?_append_right le_rfl, Nat.sub_self]
        rfl
      rw [forward]
      split
      · rename_i hlt
        have hsnoc : ∀ x ∈ pre ++ [e], x.index < k := by
          intro x hx
          rcases List.mem_append.mp hx with hx | hx
          · exact hpre x hx
          · rwa [List.mem_singleton.mp hx]
        have hstep := ih (pre ++ [e]) hsnoc (by rwa [List.append_assoc])
        rwa [List.append_assoc, List.length_append] at hstep
      · rename_i hge
        refine ⟨by rw [List.length_append]; omega, ?_⟩
        by_cases hk : e.index = k
        · exact .inl ⟨e, hat, hk⟩
        · right
          rw [insertPos, hat]
          dsimp only
          rw [if_neg hge]
          refine ⟨fun x hx => ?_, fun x hx => ?_⟩
          · rw [List.take_left] at hx
            exact hpre x hx
          · rw [List.drop_left] at hx
            have hlt : k < e.index := by omega
            rcases List.mem_cons.mp hx with rfl | hx
            · exact hlt
            · exact hlt.trans ((List.pairwise_cons.mp (List.pairwise_append.mp h).2.1).1 x hx)

/-- The entries before and behind position `p` of an ascending list. -/
theorem around (h : Ascends index l) (hp : p < l.length) :
    (∀ e ∈ l.take p, e.index < l[p].index) ∧ ∀ e ∈ l.drop (p + 1), l[p].index < e.index := by
  have hsplit : Ascends index (l.take p ++ l[p] :: l.drop (p + 1)) := by
    rwa [← List.drop_eq_getElem_cons hp, List.take_append_drop]
  obtain ⟨-, h2, h12⟩ := List.pairwise_append.mp hsplit
  exact ⟨fun e he => h12 e he _ List.mem_cons_self, (List.pairwise_cons.mp h2).1⟩

theorem backward_located (h : Ascends index l) (hp : p < l.length)
    (hbehind : ∀ e ∈ l.drop (p + 1), k < e.index) : Located l k (backward l k p) := by
  have hstop : ∀ {p} (hp : p < l.length), (∀ e ∈ l.drop (p + 1), k < e.index) →
      (k < l[p].index → p = 0) → Located l k p := by
    intro p hp hbehind hfirst
    have hat := List.getElem?_eq_getElem hp
    refine ⟨hp.le, ?_⟩
    rcases Nat.lt_trichotomy l[p].index k with hlt | heq | hgt
    · right
      rw [insertPos, hat]
      dsimp only
      rw [if_pos hlt]
      refine ⟨fun e he => ?_, hbehind⟩
      rw [List.take_succ_eq_append_getElem hp] at he
      rcases List.mem_append.mp he with he | he
      · exact ((around h hp).1 e he).trans hlt
      · rwa [List.mem_singleton.mp he]
    · exact .inl ⟨_, hat, heq⟩
    · right
      rw [insertPos, hat]
      dsimp only
      rw [if_neg (Nat.lt_asymm hgt)]
      obtain rfl := hfirst hgt
      refine ⟨fun e he => by simp at he, fun e he => ?_⟩
      rw [List.drop_eq_getElem_cons hp] at he
      rcases List.mem_cons.mp he with rfl | he
      · exact hgt
      · exact hbehind e he
  induction p with
  | zero => exact hstop hp hbehind fun _ => rfl
  | succ p ih =>
      rw [backward, indexAt_lt hp]
      split
      · rename_i hlt
        have hp' := Nat.lt_of_succ_lt hp
        refine ih hp' fun e he => ?_
        rw [List.drop_eq_getElem_cons hp] at he
        rcases List.mem_cons.mp he with rfl | he
        · exact hlt
        · exact hbehind e he
      · rename_i hge
        exact hstop hp hbehind fun hgt => absurd hgt hge

/-- From any position, the position that is found is right, and it is remembered. -/
theorem findLowerBound_spec [NeZero n] {B : Bitmap n} (h : B.Wf) (k : Nat) :
    (B.findLowerBound k).1 = { B with curr := (B.findLowerBound k).2 } ∧
      Located B.elements k (B.findLowerBound k).2 := by
  unfold findLowerBound
  split
  · rename_i hnil
    rw [hnil]
    exact ⟨rfl, Nat.le_refl 0, .inr ⟨fun e he => by simp at he, fun e he => by simp at he⟩⟩
  · rename_i hne
    have hlen := List.length_pos_iff.mpr hne
    have hcurr := h.curr
    generalize hc : (if B.curr = B.elements.length then B.curr - 1 else B.curr) = curr
    have hlt : curr < B.elements.length := by
      rw [← hc]
      split <;> omega
    dsimp only
    rw [indexAt_lt hlt]
    obtain ⟨hbefore, hbehind⟩ := around h.ascends hlt
    split
    · rename_i hfound
      exact ⟨rfl, hlt.le, .inl ⟨_, List.getElem?_eq_getElem hlt, hfound⟩⟩
    · rename_i hother
      refine ⟨rfl, ?_⟩
      dsimp only
      split
      · rename_i hgt
        exact backward_located h.ascends hlt fun e he => hgt.trans (hbehind e he)
      · rename_i hge
        have hsplit := List.take_append_drop curr B.elements
        have hloc := forward_located (k := k) (B.elements.drop curr) (B.elements.take curr)
          (fun e he => (hbefore e he).trans (by omega)) (by rw [hsplit]; exact h.ascends)
        rwa [hsplit, List.length_take_of_le hlt.le] at hloc

/-- What is at the position is element `k`, or there is none. -/
theorem Located.entry_eq (hl : Located l k p) (h : Ascends index l) :
    entry index l k = (l[p]?).filter (·.index = k) := by
  rcases hl.found with ⟨e, he, rfl⟩ | hgap
  · rw [he, h.entry_mem (List.mem_of_getElem? he), Option.filter_some, if_pos (decide_eq_true rfl)]
  · rw [hgap.entry]
    cases he : l[p]? with
    | none => rfl
    | some e =>
        have hne := entry_none.mp hgap.entry e (List.mem_of_getElem? he)
        rw [Option.filter_some, if_neg (by simpa using hne)]

end

/-! ## Single numbers -/

variable [NeZero n] {B R : Bitmap n} {s t u : Finset Nat}

theorem Holds.move (h : B.Holds s) {p : Nat} (hp : p ≤ B.elements.length) :
    Holds { B with curr := p } s :=
  ⟨⟨h.ascends, h.nonzero, h.bounded, hp⟩, h.mem⟩

theorem Holds.entry_test (h : B.Holds s) {x : Nat} {e : BitElement n}
    (he : entry index B.elements (x / elementSize n) = some e) :
    e.test (x % elementSize n) = decide (x ∈ s) := by
  have hmem := h.mem x
  rw [bitAt, he, Option.any_some] at hmem
  exact Bool.eq_iff_iff.mpr (hmem.symm.trans (decide_eq_true_iff ..).symm)

theorem Holds.entry_absent (h : B.Holds s) {x : Nat}
    (he : entry index B.elements (x / elementSize n) = none) : x ∉ s := fun hx => by
  have hbit := (h.mem x).mp hx
  rw [bitAt, he] at hbit
  cases hbit

/-- What becomes of one element. -/
theorem Holds.change (h : B.Holds s) {l : List (BitElement n)} {k p : Nat}
    {o : Option (BitElement n)} (ha : Ascends index l)
    (hl : ∀ k', entry index l k' = if k = k' then o else entry index B.elements k')
    (ho : ∀ e, o = some e → e.empty = false ∧ e.index < sentinelIndex) (hp : p ≤ l.length)
    (ht : ∀ x, x ∈ t ↔ if k = x / elementSize n then o.any (·.test (x % elementSize n)) = true
      else x ∈ s) : Holds ⟨l, p⟩ t := by
  have hall : ∀ e ∈ l, e.empty = false ∧ e.index < sentinelIndex := by
    intro e he
    have hentry := ha.entry_mem he
    rw [hl] at hentry
    split at hentry
    · exact ho e hentry
    · have hold := (entry_some hentry).1
      exact ⟨h.nonzero e hold, h.bounded e hold⟩
  refine ⟨⟨ha, fun e he => (hall e he).1, fun e he => (hall e he).2, hp⟩, fun x => ?_⟩
  rw [ht, bitAt, hl]
  split
  · exact Iff.rfl
  · exact h.mem x

omit [NeZero n] in
/-- Two numbers of one element are the same if their bits are. -/
theorem eq_iff_mod {x y : Nat} (h : x / elementSize n = y / elementSize n) :
    x = y ↔ x % elementSize n = y % elementSize n := by
  refine ⟨fun he => he ▸ rfl, fun he => ?_⟩
  rw [← Nat.div_add_mod x (elementSize n), ← Nat.div_add_mod y (elementSize n), h, he]

theorem test_spec (h : B.Holds s) (x : Nat) :
    (B.test x).1.Holds s ∧ (B.test x).2 = decide (x ∈ s) := by
  unfold test
  split
  · rename_i hnil
    refine ⟨h, (decide_eq_false fun hx => ?_).symm⟩
    have hbit := (h.mem x).mp hx
    rw [bitAt, hnil] at hbit
    cases hbit
  · obtain ⟨hB, hloc⟩ := findLowerBound_spec h.toWf (x / elementSize n)
    have hmove := h.move hloc.le
    have hentry := hloc.entry_eq h.ascends
    dsimp only
    rw [hB]
    generalize (B.findLowerBound (x / elementSize n)).2 = p at hmove hentry ⊢
    dsimp only
    cases he : B.elements[p]? with
    | none =>
        rw [he] at hentry
        exact ⟨hmove, (decide_eq_false (h.entry_absent hentry)).symm⟩
    | some e =>
        rw [he, Option.filter_some] at hentry
        refine ⟨hmove, ?_⟩
        dsimp only
        by_cases hk : e.index = x / elementSize n
        · rw [if_pos (decide_eq_true hk)] at hentry
          rw [if_neg (not_not.mpr hk), h.entry_test hentry]
        · rw [if_neg (by simpa using hk)] at hentry
          rw [if_pos hk, decide_eq_false (h.entry_absent hentry)]

/-- Without its bits there is nothing to reset. -/
theorem Holds.erase_absent (h : B.Holds s) {x : Nat}
    (he : entry index B.elements (x / elementSize n) = none) {p : Nat} (hp : p ≤ B.elements.length) :
    Holds { B with curr := p } (s.erase x) := by
  rw [Finset.erase_eq_of_notMem (h.entry_absent he)]
  exact h.move hp

/-- The numbers of the element of `x` after its bit is reset. -/
theorem Holds.erase_iff (h : B.Holds s) {x y : Nat} {e : BitElement n}
    (he : entry index B.elements (x / elementSize n) = some e) :
    y ∈ s.erase x ↔ if x / elementSize n = y / elementSize n then
      (e.reset (x % elementSize n)).test (y % elementSize n) = true else y ∈ s := by
  rw [Finset.mem_erase]
  split
  · rename_i hy
    rw [hy] at he
    rw [test_reset (Nat.mod_lt y size_pos) (Nat.mod_lt x size_pos), h.entry_test he, Bool.and_eq_true,
      decide_eq_true_eq, ← decide_not, decide_eq_true_eq, ← not_congr (eq_iff_mod hy.symm)]
  · rename_i hy
    exact ⟨And.right, fun hs => ⟨fun he => hy (by rw [he]), hs⟩⟩

/-- The bit is reset in the element at position `p`, which goes if it is zero then. -/
theorem Holds.resetAt (h : B.Holds s) {x p : Nat} {e : BitElement n} (he : B.elements[p]? = some e)
    (hk : e.index = x / elementSize n) :
    Holds (if (e.reset (x % elementSize n)).empty then
        ⟨(B.elements.modify p (·.reset (x % elementSize n))).eraseIdx p, p⟩
      else ⟨B.elements.modify p (·.reset (x % elementSize n)), p⟩) (s.erase x) := by
  obtain ⟨hp, hat⟩ := List.getElem?_eq_some_iff.mp he
  have hmem := List.mem_of_getElem? he
  have hentry : entry index B.elements (x / elementSize n) = some e := hk ▸ h.ascends.entry_mem hmem
  have hindex : ∀ e : BitElement n, (e.reset (x % elementSize n)).index = e.index := fun _ => rfl
  have hmod := ascends_modify hindex h.ascends p
  have hl := fun k' => entry_modify (k := k') hindex h.ascends hp
  rw [hat, hk] at hl
  have hlen : p < (B.elements.modify p (·.reset (x % elementSize n))).length := by
    rwa [List.length_modify]
  split
  · rename_i hzero
    have hatm : (B.elements.modify p (·.reset (x % elementSize n)))[p].index = x / elementSize n := by
      rw [List.getElem_modify, if_pos rfl, hat]
      exact hk
    refine h.change (k := x / elementSize n) (o := none) (hmod.sublist (List.eraseIdx_sublist ..))
      (fun k' => ?_) (fun e he => by cases he) (by rw [List.length_eraseIdx_of_lt hlen]; omega)
      fun y => ?_
    · rw [entry_eraseIdx hmod hlen, hatm, hl]
      split <;> rfl
    · rw [h.erase_iff hentry]
      split
      · rw [empty_iff.mp hzero _ (Nat.mod_lt y size_pos)]
        rfl
      · exact Iff.rfl
  · rename_i hzero
    refine h.change hmod hl (fun e' he' => ?_) hlen.le fun y => h.erase_iff hentry
    obtain rfl := Option.some.inj he'
    exact ⟨Bool.eq_false_iff.mpr hzero, h.bounded e hmem⟩

theorem reset_spec (h : B.Holds s) (x : Nat) : (B.reset x).Holds (s.erase x) := by
  unfold reset
  split
  · rename_i hnil
    have hnone : entry index B.elements (x / elementSize n) = none := by rw [hnil, entry_nil]
    exact h.erase_absent hnone h.curr
  · obtain ⟨hB, hloc⟩ := findLowerBound_spec h.toWf (x / elementSize n)
    have hentry := hloc.entry_eq h.ascends
    have hle := hloc.le
    dsimp only
    rw [hB]
    generalize (B.findLowerBound (x / elementSize n)).2 = p at hle hentry ⊢
    dsimp only
    cases he : B.elements[p]? with
    | none =>
        rw [he] at hentry
        exact h.erase_absent hentry hle
    | some e =>
        rw [he, Option.filter_some] at hentry
        dsimp only
        by_cases hk : e.index = x / elementSize n
        · rw [if_neg (not_not.mpr hk)]
          exact h.resetAt he hk
        · rw [if_neg (by simpa using hk)] at hentry
          rw [if_pos hk]
          exact h.erase_absent hentry hle

/-- The element of a 32-bit number comes before the end. -/
theorem index_lt_sentinel {x : Nat} (hx : x < 2 ^ 32) : x / elementSize n < sentinelIndex := by
  have hsize : wordBits ≤ elementSize n := Nat.le_mul_of_pos_left _ (Nat.pos_of_neZero n)
  have hle : x / elementSize n ≤ x / wordBits := Nat.div_le_div_left hsize (by decide)
  have hword : x / wordBits < 2 ^ 26 := Nat.div_lt_of_lt_mul (by unfold wordBits; omega)
  unfold sentinelIndex
  omega

/-- The bit is set in an element at position `p`. -/
theorem Holds.setAt (h : B.Holds s) {l : List (BitElement n)} {e : BitElement n} {x p : Nat}
    (hx : x < 2 ^ 32) (ha : Ascends index l) (he : l[p]? = some e) (hk : e.index = x / elementSize n)
    (hl : ∀ k, x / elementSize n ≠ k → entry index l k = entry index B.elements k)
    (hbits : ∀ y, x / elementSize n = y / elementSize n →
      (e.test (y % elementSize n) = true ↔ y ∈ s)) :
    Holds ⟨l.modify p (·.set (x % elementSize n)), p⟩ (insert x s) := by
  obtain ⟨hp, hat⟩ := List.getElem?_eq_some_iff.mp he
  have hindex : ∀ e : BitElement n, (e.set (x % elementSize n)).index = e.index := fun _ => rfl
  have hset : ∀ y, (e.set (x % elementSize n)).test (y % elementSize n) =
      (decide (y % elementSize n = x % elementSize n) || e.test (y % elementSize n)) := fun y =>
    test_set (Nat.mod_lt y size_pos) (Nat.mod_lt x size_pos)
  refine h.change (k := x / elementSize n) (o := some (e.set (x % elementSize n)))
    (ascends_modify hindex ha p) (fun k => ?_) (fun e' he' => ?_)
    (by rw [List.length_modify]; exact hp.le) fun y => ?_
  · rw [entry_modify hindex ha hp, hat, hk]
    split
    · rfl
    · rename_i hne
      exact hl k hne
  · obtain rfl := Option.some.inj he'
    refine ⟨Bool.eq_false_iff.mpr fun hzero => ?_, hk ▸ index_lt_sentinel hx⟩
    have hbit := empty_iff.mp hzero _ (Nat.mod_lt x size_pos)
    rw [hset] at hbit
    simp at hbit
  · rw [Finset.mem_insert, Option.any_some]
    split
    · rename_i hy
      rw [hset, Bool.or_eq_true, decide_eq_true_eq, hbits y hy, ← eq_iff_mod hy.symm]
    · rename_i hy
      exact ⟨fun hmem => hmem.resolve_left fun he => hy (by rw [he]), .inr⟩

omit [NeZero n] in
theorem insertAt_getElem? {l : List (BitElement n)} {p : Nat} (hp : p ≤ l.length) (e : BitElement n) :
    (insertAt l p e)[p]? = some e := by
  have hlen := List.length_take_of_le hp
  rw [insertAt, List.getElem?_append_right hlen.le, hlen, Nat.sub_self]
  rfl

/-- The bit is set in a new element where there was none. -/
theorem Holds.setNew (h : B.Holds s) {x p : Nat} (hx : x < 2 ^ 32) (hp : p ≤ B.elements.length)
    (hgap : Gap index B.elements (x / elementSize n) p) :
    Holds ⟨(insertAt B.elements p (BitElement.new (x / elementSize n))).modify p
      (·.set (x % elementSize n)), p⟩ (insert x s) := by
  have hnew : index (BitElement.new (x / elementSize n) : BitElement n) = x / elementSize n := rfl
  rw [← hnew] at hgap
  refine h.setAt hx (hgap.ascends h.ascends) (insertAt_getElem? hp _) rfl (fun k hk => ?_) fun y hy => ?_
  · rw [hgap.entry_insertAt, hnew, if_neg hk]
  · rw [test_new]
    refine ⟨fun hf => (by cases hf), fun hys => absurd hys (h.entry_absent ?_)⟩
    rw [← hy]
    exact hgap.entry

theorem set_spec (h : B.Holds s) {x : Nat} (hx : x < 2 ^ 32) : (B.set x).Holds (insert x s) := by
  unfold set
  dsimp only
  split
  · rename_i hnil
    have hgap : Gap index B.elements (x / elementSize n) 0 := by
      rw [hnil]
      exact ⟨fun e he => by simp at he, fun e he => by simp at he⟩
    have hset := h.setNew hx (Nat.zero_le _) hgap
    rwa [hnil] at hset
  · obtain ⟨hB, hloc⟩ := findLowerBound_spec h.toWf (x / elementSize n)
    rw [hB]
    generalize (B.findLowerBound (x / elementSize n)).2 = p at hloc ⊢
    have hentry := hloc.entry_eq h.ascends
    dsimp only
    split
    · rename_i hany
      obtain ⟨e, he, hk⟩ := (Option.any_eq_true _ _).mp hany
      rw [he, Option.filter_some, if_pos hk] at hentry
      have hk := of_decide_eq_true hk
      refine h.setAt hx h.ascends he hk (fun _ _ => rfl) fun y hy => ?_
      rw [h.entry_test (hy ▸ hentry), decide_eq_true_eq]
    · rename_i hany
      have hgap := hloc.found.resolve_left fun ⟨e, he, hk⟩ => hany (by simp [he, hk])
      refine h.setNew hx ?_ hgap
      unfold insertPos
      cases he : B.elements[p]? with
      | none => exact hloc.le
      | some e =>
          have hp := (List.getElem?_eq_some_iff.mp he).1
          dsimp only
          split <;> omega

theorem testAndSet_spec (h : B.Holds s) {x : Nat} (hx : x < 2 ^ 32) :
    (B.testAndSet x).1.Holds (insert x s) ∧ (B.testAndSet x).2 = decide (x ∉ s) := by
  obtain ⟨hB, hold⟩ := test_spec h x
  unfold testAndSet
  dsimp only
  rw [hold]
  by_cases hmem : x ∈ s
  · rw [decide_eq_true hmem, Finset.insert_eq_of_mem hmem, decide_eq_false (not_not.mpr hmem)]
    exact ⟨hB, rfl⟩
  · rw [decide_eq_false hmem, decide_eq_true hmem]
    exact ⟨set_spec hB hx, rfl⟩

/-! ## Whole bitmaps -/

theorem new_holds : (new : Bitmap n).Holds ∅ where
  ascends := .nil
  nonzero _ he := by cases he
  bounded _ he := by cases he
  curr := Nat.le_refl 0
  mem x := by simp [new, bitAt]

theorem copy_spec (h : R.Holds t) : (copy R).Holds t := h.move (Nat.zero_le _)

theorem assign_spec (h : R.Holds t) : (B.assign R).Holds t := h.move le_rfl

theorem empty_spec (h : B.Holds s) : B.empty = decide (s = ∅) := by
  have hempty : B.elements = [] ↔ s = ∅ := by
    constructor
    · intro hnil
      refine Finset.eq_empty_of_forall_notMem fun x hx => ?_
      have hbit := (h.mem x).mp hx
      rw [bitAt, hnil] at hbit
      cases hbit
    · rintro rfl
      refine h.toWf.canonical (new_holds (n := n)).toWf fun x => ?_
      exact Bool.eq_iff_iff.mpr ((h.mem x).symm.trans ((new_holds (n := n)).mem x))
  rw [empty, Bool.eq_iff_iff, List.isEmpty_iff, decide_eq_true_eq, hempty]

omit [NeZero n] in
theorem equal_go (l l' : List (BitElement n)) : equal.go l l' = decide (l = l') := by
  induction l generalizing l' with
  | nil => cases l' <;> rfl
  | cons e l ih =>
      cases l' with
      | nil => rfl
      | cons e' l' =>
          rw [equal.go, ih]
          by_cases he : e = e' <;> simp [he]

/-- A set has one list of elements. -/
theorem Holds.elements_eq (h : B.Holds s) (h' : R.Holds s) : B.elements = R.elements :=
  h.toWf.canonical h'.toWf fun x => Bool.eq_iff_iff.mpr ((h.mem x).symm.trans (h'.mem x))

/-- Bitmaps are equal if their sets are. -/
theorem equal_spec (h : B.Holds s) (h' : R.Holds t) : B.equal R = decide (s = t) := by
  rw [equal, equal_go, decide_eq_decide]
  constructor
  · intro he
    ext x
    rw [h.mem, h'.mem, he]
  · intro hst
    subst hst
    exact h.elements_eq h'

theorem getHashValue_eq (h : B.Holds s) (h' : R.Holds s) : B.getHashValue = R.getHashValue := by
  rw [getHashValue, getHashValue, h.elements_eq h']

/-! ## Two bitmaps -/

/-- There is an element if one of its numbers is in the set. -/
theorem Holds.entry_isSome (h : B.Holds s) {k : Nat} :
    (∃ e, entry index B.elements k = some e) ↔ ∃ y ∈ s, y / elementSize n = k := by
  constructor
  · rintro ⟨e, he⟩
    obtain ⟨j, hj, hbit⟩ := exists_test (h.nonzero e (entry_some he).1)
    refine ⟨k * elementSize n + j, (h.mem _).mpr ?_, ?_⟩
    · rw [bitAt_element hj, he]
      exact hbit
    · exact element_div hj
  · rintro ⟨y, hy, rfl⟩
    cases he : entry index B.elements (y / elementSize n) with
    | none => exact absurd hy (h.entry_absent he)
    | some e => exact ⟨e, rfl⟩

/-- The parameters of a walk do to the bits what `op` says. -/
structure Rule (keepOwn addOther : Bool)
    (both : BitElement n → BitElement n → Option (BitElement n) × Bool) (op : Bool → Bool → Bool) :
    Prop where
  neither : op false false = false
  own : op true false = keepOwn
  other : op false true = addOther
  keepsIndex : ∀ e r z, (both e r).1 = some z → z.index = e.index
  keepsNonzero : ∀ e r z, e.empty = false → (both e r).1 = some z → z.empty = false
  bits : ∀ e r, ∀ j < elementSize n, (both e r).1.any (·.test j) = op (e.test j) (r.test j)

section

variable {keepOwn addOther : Bool}
  {both : BitElement n → BitElement n → Option (BitElement n) × Bool} {op : Bool → Bool → Bool}

theorem Rule.holds (hr : Rule keepOwn addOther both op) (h : B.Holds s) (h' : R.Holds t) {p : Nat}
    (hp : p ≤ (combine index keepOwn addOther both B.elements R.elements).1.length)
    (hu : ∀ x, x ∈ u ↔ op (decide (x ∈ s)) (decide (x ∈ t)) = true) :
    Holds ⟨(combine index keepOwn addOther both B.elements R.elements).1, p⟩ u := by
  have hentry : ∀ k, entry index (combine index keepOwn addOther both B.elements R.elements).1 k =
      combineAt keepOwn addOther both (entry index B.elements k) (entry index R.elements k) :=
    entry_combine hr.keepsIndex h.ascends h'.ascends
  have hascends : Ascends index (combine index keepOwn addOther both B.elements R.elements).1 :=
    combine_ascends hr.keepsIndex h.ascends h'.ascends
  have hall : ∀ z ∈ (combine index keepOwn addOther both B.elements R.elements).1,
      z.empty = false ∧ z.index < sentinelIndex := by
    intro z hz
    have hz := hascends.entry_mem hz
    rw [hentry] at hz
    cases he : entry index B.elements z.index with
    | none =>
        cases he' : entry index R.elements z.index with
        | none =>
            rw [he, he'] at hz
            cases hz
        | some r =>
            rw [he, he', combineAt] at hz
            obtain ⟨-, hz⟩ := Option.ite_none_right_eq_some.mp hz
            obtain rfl := Option.some.inj hz
            have hmem := (entry_some he').1
            exact ⟨h'.nonzero r hmem, h'.bounded r hmem⟩
    | some e =>
        have hmem := (entry_some he).1
        cases he' : entry index R.elements z.index with
        | none =>
            rw [he, he', combineAt] at hz
            obtain ⟨-, hz⟩ := Option.ite_none_right_eq_some.mp hz
            obtain rfl := Option.some.inj hz
            exact ⟨h.nonzero e hmem, h.bounded e hmem⟩
        | some r =>
            rw [he, he', combineAt] at hz
            exact ⟨hr.keepsNonzero e r z (h.nonzero e hmem) hz, hr.keepsIndex e r z hz ▸ h.bounded e hmem⟩
  refine ⟨⟨hascends, fun z hz => (hall z hz).1, fun z hz => (hall z hz).2, hp⟩, fun x => ?_⟩
  rw [hu, bitAt, hentry]
  cases he : entry index B.elements (x / elementSize n) with
  | none =>
      rw [decide_eq_false (h.entry_absent he)]
      cases he' : entry index R.elements (x / elementSize n) with
      | none => simp [decide_eq_false (h'.entry_absent he'), hr.neither, combineAt]
      | some r =>
          rw [← h'.entry_test he', combineAt]
          cases hbit : r.test (x % elementSize n)
          · cases addOther <;> simp [hr.neither, hbit]
          · rw [hr.other]
            cases addOther <;> simp [hbit]
  | some e =>
      rw [← h.entry_test he]
      cases he' : entry index R.elements (x / elementSize n) with
      | none =>
          rw [decide_eq_false (h'.entry_absent he'), combineAt]
          cases hbit : e.test (x % elementSize n)
          · cases keepOwn <;> simp [hr.neither, hbit]
          · rw [hr.own]
            cases keepOwn <;> simp [hbit]
      | some r =>
          rw [← h'.entry_test he', combineAt, hr.bits e r _ (Nat.mod_lt x size_pos)]

/-- When the walk reports a change, if two elements do so because of `c`. -/
theorem combine_changed_iff {c : Bool → Bool → Bool}
    (hc : ∀ e r, (both e r).2 = true ↔ ∃ j < elementSize n, c (e.test j) (r.test j) = true)
    (h : B.Holds s) (h' : R.Holds t) :
    (combine index keepOwn addOther both B.elements R.elements).2 = true ↔
      (addOther = true ∧ ∃ y ∈ t, ∀ x ∈ s, x / elementSize n ≠ y / elementSize n) ∨
      ∃ x, (∃ y ∈ s, y / elementSize n = x / elementSize n) ∧
        (∃ y ∈ t, y / elementSize n = x / elementSize n) ∧
        c (decide (x ∈ s)) (decide (x ∈ t)) = true := by
  rw [combine_changed h.ascends h'.ascends]
  constructor
  · rintro ⟨k, hk⟩
    cases he : entry index B.elements k with
    | none =>
        cases he' : entry index R.elements k with
        | none =>
            rw [he, he'] at hk
            cases hk
        | some r =>
            rw [he, he'] at hk
            obtain ⟨y, hy, rfl⟩ := h'.entry_isSome.mp ⟨r, he'⟩
            refine .inl ⟨hk, y, hy, fun x hx heq => ?_⟩
            rw [← heq] at he
            exact h.entry_absent he hx
    | some e =>
        cases he' : entry index R.elements k with
        | none =>
            rw [he, he'] at hk
            cases hk
        | some r =>
            rw [he, he'] at hk
            obtain ⟨j, hj, hcj⟩ := (hc e r).mp hk
            have hdiv := element_div (k := k) hj
            refine .inr ⟨k * elementSize n + j, ?_, ?_, ?_⟩
            · rw [hdiv]
              exact h.entry_isSome.mp ⟨e, he⟩
            · rw [hdiv]
              exact h'.entry_isSome.mp ⟨r, he'⟩
            · rwa [← h.entry_test (by rwa [hdiv]), ← h'.entry_test (by rwa [hdiv]), element_mod hj]
  · rintro (⟨hadd, y, hy, hno⟩ | ⟨x, hs, ht, hcx⟩)
    · refine ⟨y / elementSize n, ?_⟩
      obtain ⟨r, hr⟩ := h'.entry_isSome.mpr ⟨y, hy, rfl⟩
      cases he : entry index B.elements (y / elementSize n) with
      | none =>
          rw [hr]
          exact hadd
      | some e =>
          obtain ⟨x, hx, heq⟩ := h.entry_isSome.mp ⟨e, he⟩
          exact absurd heq (hno x hx)
    · obtain ⟨e, he⟩ := h.entry_isSome.mpr hs
      obtain ⟨r, hr⟩ := h'.entry_isSome.mpr ht
      refine ⟨x / elementSize n, ?_⟩
      rw [he, hr]
      refine (hc e r).mpr ⟨x % elementSize n, Nat.mod_lt x size_pos, ?_⟩
      rwa [h.entry_test he, h'.entry_test hr]

end

theorem union_rule : Rule (n := n) true true unionElement or where
  neither := rfl
  own := rfl
  other := rfl
  keepsIndex e r z hz := by
    obtain rfl := Option.some.inj hz
    exact eachWord_index
  keepsNonzero e r z he hz := by
    obtain rfl := Option.some.inj hz
    obtain ⟨j, hj, hbit⟩ := exists_test he
    refine Bool.eq_false_iff.mpr fun hzero => ?_
    have hunion : (eachWord (· ||| ·) e r).1.test j = false := empty_iff.mp hzero j hj
    rw [eachWord_test bitwise_union, hbit] at hunion
    cases hunion
  bits _ _ _ _ := eachWord_test bitwise_union

/-- The rule of a loop over the words that drops an element that became zero. -/
theorem nonzero_rule {keepOwn : Bool} {f : BitVec wordBits → BitVec wordBits → BitVec wordBits}
    {op : Bool → Bool → Bool} (hf : Bitwise f op) (neither : op false false = false)
    (own : op true false = keepOwn) (other : op false true = false) :
    Rule (n := n) keepOwn false (fun e r => nonzero (eachWord f e r)) op where
  neither := neither
  own := own
  other := other
  keepsIndex e r z hz := by
    obtain ⟨-, hz⟩ := Option.ite_none_left_eq_some.mp hz
    obtain rfl := Option.some.inj hz
    exact eachWord_index
  keepsNonzero e r z _ hz := by
    obtain ⟨hne, hz⟩ := Option.ite_none_left_eq_some.mp hz
    obtain rfl := Option.some.inj hz
    exact Bool.eq_false_iff.mpr fun hzero => hne (eachWord_zero.mpr hzero)
  bits e r j hj := by
    rw [nonzero, ← eachWord_test hf]
    dsimp only
    split
    · rename_i hzero
      rw [empty_iff.mp (eachWord_zero.mp hzero) j hj]
      rfl
    · rfl

theorem intersect_rule :
    Rule (n := n) false false (fun e r => nonzero (e.intersectWith r)) and :=
  nonzero_rule bitwise_intersect rfl rfl rfl

theorem complement_rule :
    Rule (n := n) true false (fun e r => nonzero (e.intersectWithComplement r)) fun x y => x && !y :=
  nonzero_rule bitwise_complement rfl rfl rfl

theorem Holds.nil_iff (h : B.Holds s) : B.elements = [] ↔ s = ∅ := by
  have hempty := empty_spec h
  rw [empty, Bool.eq_iff_iff, List.isEmpty_iff, decide_eq_true_eq] at hempty
  exact hempty

theorem changed_ne {op : Bool → Bool → Bool} {f : BitVec wordBits → BitVec wordBits → BitVec wordBits}
    (hf : Bitwise f op) (e r : BitElement n) : (eachWord f e r).2.1 = true ↔
      ∃ j < elementSize n, (op (e.test j) (r.test j) != e.test j) = true := by
  rw [eachWord_changed hf]
  simp only [bne_iff_ne]

theorem orAssign_spec (h : B.Holds s) (h' : R.Holds t) :
    (B.orAssign R).1.Holds (s ∪ t) ∧ (B.orAssign R).2 = decide (s ∪ t ≠ s) := by
  unfold orAssign
  split
  · rename_i hnil
    obtain rfl := h'.nil_iff.mp hnil
    rw [Finset.union_empty, decide_eq_false (not_not.mpr rfl)]
    exact ⟨h, rfl⟩
  · refine ⟨union_rule.holds h h' (Nat.zero_le _) fun x => by simp, ?_⟩
    rw [Bool.eq_iff_iff, decide_eq_true_eq]
    refine (combine_changed_iff (c := fun x y => (x || y) != x)
      (fun e r => changed_ne bitwise_union e r) h h').trans ?_
    rw [ne_eq, Finset.union_eq_left, Finset.not_subset]
    constructor
    · rintro (⟨-, y, hy, hno⟩ | ⟨x, -, -, hx⟩)
      · exact ⟨y, hy, fun hys => hno y hys rfl⟩
      · by_cases hs : x ∈ s <;> by_cases ht : x ∈ t <;> simp [hs, ht] at hx
        exact ⟨x, ht, hs⟩
    · rintro ⟨x, ht, hs⟩
      by_cases hel : ∃ y ∈ s, y / elementSize n = x / elementSize n
      · exact .inr ⟨x, hel, ⟨x, ht, rfl⟩, by simp [hs, ht]⟩
      · exact .inl ⟨rfl, x, ht, fun y hy heq => hel ⟨y, hy, heq⟩⟩

/-- What `operator&=` returns: whether a number goes from an element of which some other number is
in both bitmaps, or at least in the other one. -/
theorem andAssign_spec (h : B.Holds s) (h' : R.Holds t) :
    (B.andAssign R).1.Holds (s ∩ t) ∧ ((B.andAssign R).2 = true ↔
      ∃ x ∈ s \ t, ∃ y ∈ t, y / elementSize n = x / elementSize n) := by
  unfold andAssign
  split
  · rename_i hnil
    obtain rfl := h.nil_iff.mp hnil.1
    rw [Finset.empty_inter]
    exact ⟨h, by simp⟩
  · refine ⟨intersect_rule.holds h h' (Nat.zero_le _) fun x => by simp, ?_⟩
    refine (combine_changed_iff (c := fun x y => (x && y) != x)
      (fun e r => changed_ne bitwise_intersect e r) h h').trans ?_
    constructor
    · rintro (⟨hf, -⟩ | ⟨x, -, ht, hx⟩)
      · cases hf
      · by_cases hs : x ∈ s <;> by_cases hxt : x ∈ t <;> simp [hs, hxt] at hx
        exact ⟨x, Finset.mem_sdiff.mpr ⟨hs, hxt⟩, ht⟩
    · rintro ⟨x, hx, hy⟩
      obtain ⟨hs, ht⟩ := Finset.mem_sdiff.mp hx
      exact .inr ⟨x, ⟨x, hs, rfl⟩, hy, by simp [hs, ht]⟩

theorem intersectWithComplement_spec (h : B.Holds s) (h' : R.Holds t) :
    (B.intersectWithComplement R).1.Holds (s \ t) ∧
      (B.intersectWithComplement R).2 = decide (s \ t ≠ s) := by
  unfold intersectWithComplement
  split
  · rename_i hnil
    have hsame : s \ t = s := by
      rcases hnil with hnil | hnil
      · rw [h.nil_iff.mp hnil, Finset.empty_sdiff]
      · rw [h'.nil_iff.mp hnil, Finset.sdiff_empty]
    rw [hsame, decide_eq_false (not_not.mpr rfl)]
    exact ⟨h, rfl⟩
  · refine ⟨complement_rule.holds h h' (Nat.zero_le _) fun x => by simp, ?_⟩
    rw [Bool.eq_iff_iff, decide_eq_true_eq]
    refine (combine_changed_iff (c := fun x y => (x && !y) != x)
      (fun e r => changed_ne bitwise_complement e r) h h').trans ?_
    rw [ne_eq, Finset.sdiff_eq_self_iff_disjoint, Finset.not_disjoint_iff]
    constructor
    · rintro (⟨hf, -⟩ | ⟨x, -, -, hx⟩)
      · cases hf
      · by_cases hs : x ∈ s <;> by_cases ht : x ∈ t <;> simp [hs, ht] at hx
        exact ⟨x, hs, ht⟩
    · rintro ⟨x, hs, ht⟩
      exact .inr ⟨x, ⟨x, hs, rfl⟩, ⟨x, ht, rfl⟩, by simp [hs, ht]⟩

theorem setComplement_spec (h : B.Holds s) (h' : R.Holds t) (C : Bitmap n) :
    (C.setComplement B R).Holds (s \ t) :=
  complement_rule.holds h h' le_rfl fun x => by simp

theorem intersects_spec (h : B.Holds s) (h' : R.Holds t) :
    B.intersects R = decide (¬ Disjoint s t) := by
  rw [Bool.eq_iff_iff, decide_eq_true_eq, Finset.not_disjoint_iff]
  have hboth : ∀ e r : BitElement n, e.intersects r = true ↔
      ∃ j < elementSize n, (e.test j && r.test j) = true := fun e r => by
    rw [intersects_iff]
    simp only [Bool.and_eq_true]
  refine (combine_changed_iff hboth h h').trans ?_
  constructor
  · rintro (⟨hf, -⟩ | ⟨x, -, -, hx⟩)
    · cases hf
    · simp only [Bool.and_eq_true, decide_eq_true_eq] at hx
      exact ⟨x, hx⟩
  · rintro ⟨x, hs, ht⟩
    exact .inr ⟨x, ⟨x, hs, rfl⟩, ⟨x, ht, rfl⟩, by simp [hs, ht]⟩

/-! ## The least number -/

/-- The first bit of element `e` from `curr` on is the next number from `k` on, if every number from
there on is in an element behind `e`, or in `e` itself and not before `curr`. -/
theorem Holds.nextFrom_element (h : B.Holds s) {e : BitElement n} (he : e ∈ B.elements)
    {curr j k : Nat} (hj : IsFirst e curr (some j)) (hk : k ≤ e.index * elementSize n + j)
    (hge : ∀ c ∈ s, k ≤ c → e.index ≤ c / elementSize n ∧
      (e.index = c / elementSize n → curr ≤ c % elementSize n)) :
    nextFrom s k = some (e.index * elementSize n + j) := by
  obtain ⟨-, hlt, hbit, hleast⟩ := hj
  have hentry := h.ascends.entry_mem he
  refine nextFrom_eq_some ?_ hk fun c hc hkc => ?_
  · rw [h.mem, bitAt_element hlt, hentry]
    exact hbit
  · obtain ⟨hlow, hcurr⟩ := hge c hc hkc
    have hsplit := Nat.div_add_mod' c (elementSize n)
    rcases Nat.lt_or_eq_of_le hlow with hbehind | heq
    · have hmul : (e.index + 1) * elementSize n ≤ c / elementSize n * elementSize n :=
        Nat.mul_le_mul_right _ hbehind
      rw [Nat.succ_mul] at hmul
      omega
    · have htest := h.entry_test (heq ▸ hentry)
      rw [decide_eq_true hc] at htest
      rw [← heq] at hsplit
      by_contra hgt
      rw [hleast _ (hcurr heq) (by omega)] at htest
      cases htest

/-- An element that is walked into has a first bit. -/
theorem Holds.findFirst_some (h : B.Holds s) {e : BitElement n} (he : e ∈ B.elements) :
    ∃ j, e.findFirst = some j ∧ IsFirst e 0 (some j) := by
  obtain ⟨j, hj, hbit⟩ := exists_test (h.nonzero e he)
  have hfirst := BitElement.findFirst_spec e
  cases hf : e.findFirst with
  | none =>
      rw [hf] at hfirst
      rw [hfirst j hj (Nat.zero_le j)] at hbit
      cases hbit
  | some j =>
      rw [hf] at hfirst
      exact ⟨j, rfl, hfirst⟩

/-- Each number is in an element. -/
theorem Holds.mem_element (h : B.Holds s) {x : Nat} (hx : x ∈ s) :
    ∃ e ∈ B.elements, e.index = x / elementSize n := by
  obtain ⟨e, he⟩ := h.entry_isSome.mpr ⟨x, hx, rfl⟩
  exact ⟨e, entry_some he⟩

omit [NeZero n] in
/-- No element comes before the first one. -/
theorem Wf.head_le (h : B.Wf) {e r : BitElement n} {l : List (BitElement n)} (hl : B.elements = e :: l)
    (hr : r ∈ B.elements) : e.index ≤ r.index := by
  have ha := h.ascends
  rw [hl] at ha hr
  rcases List.mem_cons.mp hr with heq | hr
  · rw [heq]
  · exact (ha.head r hr).le

theorem findFirst_eq (h : B.Holds s) :
    B.findFirst = some ((nextFrom s 0).elim (-1) asInt) := by
  unfold findFirst
  split
  · rename_i hnil
    rw [h.nil_iff.mp hnil, nextFrom_eq_none fun c hc => by simp at hc]
    rfl
  · rename_i e l hl
    have he : e ∈ B.elements := by
      rw [hl]
      exact List.mem_cons_self
    obtain ⟨j, hj, hfirst⟩ := h.findFirst_some he
    have hnext := h.nextFrom_element he hfirst (Nat.zero_le _) fun c hc _ => by
      obtain ⟨r, hr, hindex⟩ := h.mem_element hc
      exact ⟨hindex ▸ h.head_le hl hr, fun _ => Nat.zero_le _⟩
    rw [hj, hnext]
    rfl

/-! ## Counting -/

omit [NeZero n] in
theorem card_range (m : Nat) (p : Nat → Bool) :
    ((Finset.range m).filter (p · = true)).card = (List.range m).countP p := by
  induction m with
  | zero => rfl
  | succ m ih =>
      rw [List.range_succ, List.countP_append, Finset.range_add_one, Finset.filter_insert, ← ih]
      cases hp : p m <;> simp [hp]

/-- The numbers of one element. -/
theorem card_element {e : BitElement n} {s : Finset Nat}
    (hs : ∀ x, x ∈ s ↔ x / elementSize n = e.index ∧ e.test (x % elementSize n) = true) :
    s.card = e.count := by
  rw [count_eq, ← card_range]
  have himage : s = ((Finset.range (elementSize n)).filter (e.test · = true)).image
      (e.index * elementSize n + ·) := by
    ext x
    rw [hs, Finset.mem_image]
    constructor
    · rintro ⟨hx, hbit⟩
      refine ⟨x % elementSize n, by simp [hbit, Nat.mod_lt x size_pos], ?_⟩
      rw [← hx, Nat.mul_comm, Nat.div_add_mod]
    · rintro ⟨j, hj, rfl⟩
      rw [Finset.mem_filter, Finset.mem_range] at hj
      rw [element_div hj.1, element_mod hj.1]
      exact ⟨rfl, hj.2⟩
  rw [himage, Finset.card_image_of_injective _ fun x y hxy => Nat.add_left_cancel hxy]

theorem count_loop (l : List (BitElement n)) (h : Ascends index l) (s : Finset Nat)
    (hs : ∀ x, x ∈ s ↔ bitAt l x = true) (c : Nat) :
    l.foldl (fun bitCount e => bitCount + e.count) c = c + s.card := by
  induction l generalizing s c with
  | nil =>
      have hempty : s = ∅ := Finset.eq_empty_of_forall_notMem fun x hx => by
        have hbit := (hs x).mp hx
        rw [bitAt] at hbit
        cases hbit
      rw [hempty]
      rfl
  | cons e l ih =>
      have hbit : ∀ x, bitAt (e :: l) x = if e.index = x / elementSize n then
          e.test (x % elementSize n) else bitAt l x := fun x => by
        rw [bitAt, entry_cons]
        split <;> rfl
      have hhead : (s.filter (· / elementSize n = e.index)).card = e.count := card_element fun x => by
        rw [Finset.mem_filter, hs, hbit, and_comm]
        refine and_congr_right fun hx => ?_
        rw [if_pos hx.symm]
      have htail := ih (List.pairwise_cons.mp h).2 (s.filter (¬ · / elementSize n = e.index)) (fun x => by
        rw [Finset.mem_filter, hs, hbit]
        by_cases hx : e.index = x / elementSize n
        · rw [if_pos hx, bitAt, ← hx, Ascends.entry_tail h]
          simp
        · rw [if_neg hx]
          exact and_iff_left fun he => hx he.symm) (c + e.count)
      rw [List.foldl_cons, htail, ← hhead, Nat.add_assoc, Finset.card_filter_add_card_filter_not]

theorem count_spec (h : B.Holds s) : B.count = s.card :=
  (count_loop B.elements h.ascends s h.mem 0).trans (Nat.zero_add _)

theorem count_loop_le (l : List (BitElement n)) (c : Nat) :
    c ≤ l.foldl (fun bitCount e => bitCount + e.count) c := by
  induction l generalizing c with
  | nil => exact le_rfl
  | cons e l ih => exact (Nat.le_add_right _ _).trans (ih _)

theorem count_pos {e : BitElement n} (h : e.empty = false) : 0 < e.count := by
  obtain ⟨j, hj, hbit⟩ := exists_test h
  rw [count_eq, List.countP_pos_iff]
  exact ⟨j, List.mem_range.mpr hj, hbit⟩

theorem singleBit_spec (h : B.Holds s) : B.singleBit = decide (s.card = 1) := by
  have hcount := count_spec h
  have hnonzero := h.nonzero
  have hbounded := h.bounded
  unfold count at hcount
  unfold singleBit
  rw [← hcount]
  split
  · rename_i hnil
    rw [hnil]
    rfl
  · rename_i e l hl
    rw [hl] at hnonzero hbounded ⊢
    cases l with
    | nil => simp [indexAt]
    | cons e' l =>
        have hlt := hbounded e' (by simp)
        have hone := count_pos (hnonzero e (by simp))
        have htwo := count_pos (hnonzero e' (by simp))
        have hge := count_loop_le l (0 + e.count + e'.count)
        have hne : indexAt (e' :: l) 0 ≠ sentinelIndex := Nat.ne_of_lt hlt
        rw [if_neg hne, List.foldl_cons, List.foldl_cons]
        exact (decide_eq_false (by omega)).symm

end Bitmap

end PtrAnalysis
