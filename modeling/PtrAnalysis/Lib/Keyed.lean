import Mathlib.Data.List.Basic
import Mathlib.Data.Nat.Basic

/-!
# Lists with ascending keys

The entries of such a list are in the order of their keys, and no two have the same key. Two lists
are combined by walking them side by side, in place of the first one: `combine` has the three
choices of such a loop as parameters, and `entry_combine` says what becomes of each key.
-/

namespace PtrAnalysis

namespace Keyed

variable {α : Type} (key : α → Nat)

/-- The keys ascend. -/
def Ascends (l : List α) : Prop := l.Pairwise fun x y => key x < key y

/-- The entry with key `k`. -/
def entry (l : List α) (k : Nat) : Option α := l.find? fun x => key x = k

variable {key} {l l' : List α} {x y : α} {k p : Nat}

@[simp] theorem entry_nil : entry key [] k = none := rfl

theorem entry_cons : entry key (x :: l) k = if key x = k then some x else entry key l k := by
  unfold entry
  rw [List.find?_cons]
  by_cases h : key x = k <;> simp [h]

theorem entry_append : entry key (l ++ l') k = (entry key l k).or (entry key l' k) :=
  List.find?_append

theorem entry_some (h : entry key l k = some x) : x ∈ l ∧ key x = k := by
  have hkey := List.find?_some h
  exact ⟨List.mem_of_find?_eq_some h, by simpa using hkey⟩

theorem entry_none : entry key l k = none ↔ ∀ x ∈ l, key x ≠ k := by
  simp [entry, List.find?_eq_none]

namespace Ascends

theorem tail (h : Ascends key (x :: l)) : Ascends key l := (List.pairwise_cons.mp h).2

theorem head (h : Ascends key (x :: l)) : ∀ y ∈ l, key x < key y := (List.pairwise_cons.mp h).1

theorem entry_mem (h : Ascends key l) (hx : x ∈ l) : entry key l (key x) = some x := by
  induction l with
  | nil => cases hx
  | cons y l ih =>
      rw [entry_cons]
      rcases List.mem_cons.mp hx with rfl | hx
      · rw [if_pos rfl]
      · rw [if_neg (Nat.ne_of_lt (h.head x hx)), ih h.tail hx]

/-- Below the first key there is nothing. -/
theorem entry_below (h : Ascends key (x :: l)) (hk : k < key x) : entry key (x :: l) k = none := by
  refine entry_none.mpr fun y hy heq => ?_
  rcases List.mem_cons.mp hy with rfl | hy
  · omega
  · have := h.head y hy
    omega

theorem entry_tail (h : Ascends key (x :: l)) : entry key l (key x) = none :=
  entry_none.mpr fun y hy heq => Nat.ne_of_gt (h.head y hy) heq

/-- A list is determined by its entries. -/
theorem ext (h : Ascends key l) (h' : Ascends key l') (he : ∀ k, entry key l k = entry key l' k) :
    l = l' := by
  induction l generalizing l' with
  | nil =>
      cases l' with
      | nil => rfl
      | cons y l' =>
          have := he (key y)
          rw [entry_cons, if_pos rfl] at this
          cases this
  | cons x l ih =>
      cases l' with
      | nil =>
          have := he (key x)
          rw [entry_cons, if_pos rfl] at this
          cases this
      | cons y l' =>
          have hkey : key x = key y := by
            rcases Nat.lt_trichotomy (key x) (key y) with hlt | heq | hgt
            · have := he (key x)
              rw [h'.entry_below hlt, entry_cons, if_pos rfl] at this
              cases this
            · exact heq
            · have := he (key y)
              rw [h.entry_below hgt, entry_cons, if_pos rfl] at this
              cases this
          have hxy := he (key x)
          rw [entry_cons, if_pos rfl, entry_cons, if_pos hkey.symm] at hxy
          obtain rfl := Option.some.inj hxy
          refine congrArg (x :: ·) (ih h.tail h'.tail fun k => ?_)
          have hk := he k
          rw [entry_cons, entry_cons] at hk
          by_cases hx : key x = k
          · rw [← hx, h.entry_tail, h'.entry_tail]
          · rwa [if_neg hx, if_neg hx] at hk

end Ascends

/-! ## Changes at a position -/

/-- Position `p` is where an entry with key `k` belongs, and there is none. -/
structure Gap (key : α → Nat) (l : List α) (k p : Nat) : Prop where
  below : ∀ x ∈ l.take p, key x < k
  above : ∀ x ∈ l.drop p, k < key x

theorem Gap.entry (h : Gap key l k p) : entry key l k = none := by
  refine entry_none.mpr fun x hx => ?_
  rw [← List.take_append_drop p l] at hx
  rcases List.mem_append.mp hx with hx | hx
  · exact Nat.ne_of_lt (h.below x hx)
  · exact Nat.ne_of_gt (h.above x hx)

/-- A new entry in front of position `p`. -/
def insertAt (l : List α) (p : Nat) (x : α) : List α := l.take p ++ x :: l.drop p

theorem Gap.ascends (h : Gap key l (key x) p) (hl : Ascends key l) :
    Ascends key (insertAt l p x) := by
  have hsplit : Ascends key (l.take p ++ l.drop p) := by rwa [List.take_append_drop]
  obtain ⟨h1, h2, h12⟩ := List.pairwise_append.mp hsplit
  refine List.pairwise_append.mpr ⟨h1, List.pairwise_cons.mpr ⟨h.above, h2⟩, fun a ha b hb => ?_⟩
  rcases List.mem_cons.mp hb with rfl | hb
  · exact h.below a ha
  · exact h12 a ha b hb

theorem Gap.entry_insertAt (h : Gap key l (key x) p) :
    Keyed.entry key (insertAt l p x) k = if key x = k then some x else Keyed.entry key l k := by
  have hold : Keyed.entry key l k =
      (Keyed.entry key (l.take p) k).or (Keyed.entry key (l.drop p) k) := by
    rw [← entry_append, List.take_append_drop]
  rw [hold, insertAt, entry_append, entry_cons]
  split
  · rename_i hk
    rw [entry_none.mpr fun y hy => hk ▸ Nat.ne_of_lt (h.below y hy)]
    rfl
  · rfl

theorem ascends_modify {f : α → α} (hf : ∀ x, key (f x) = key x) (h : Ascends key l) (p : Nat) :
    Ascends key (l.modify p f) := by
  induction l generalizing p with
  | nil => simpa using h
  | cons x l ih =>
      cases p with
      | zero =>
          rw [List.modify_zero_cons]
          exact List.pairwise_cons.mpr ⟨fun y hy => (hf x).symm ▸ h.head y hy, h.tail⟩
      | succ p =>
          rw [List.modify_succ_cons]
          refine List.pairwise_cons.mpr ⟨fun y hy => ?_, ih h.tail p⟩
          obtain ⟨i, hi, rfl⟩ := List.getElem_of_mem hy
          rw [List.length_modify] at hi
          rw [List.getElem_modify]
          split
          · rw [hf]
            exact h.head _ (List.getElem_mem hi)
          · exact h.head _ (List.getElem_mem hi)

theorem entry_modify {f : α → α} (hf : ∀ x, key (f x) = key x) (h : Ascends key l)
    (hp : p < l.length) :
    entry key (l.modify p f) k = if key l[p] = k then some (f l[p]) else entry key l k := by
  induction l generalizing p with
  | nil => simp at hp
  | cons x l ih =>
      cases p with
      | zero =>
          rw [List.modify_zero_cons, entry_cons, entry_cons, hf]
          simp only [List.getElem_cons_zero]
          split <;> rfl
      | succ p =>
          have hp : p < l.length := by simpa using hp
          rw [List.modify_succ_cons, entry_cons, entry_cons, ih h.tail hp, List.getElem_cons_succ]
          have hlt := h.head _ (List.getElem_mem hp)
          by_cases hx : key x = k
          · rw [if_pos hx, if_pos hx, if_neg (by omega)]
          · rw [if_neg hx, if_neg hx]

theorem entry_eraseIdx (h : Ascends key l) (hp : p < l.length) :
    entry key (l.eraseIdx p) k = if key l[p] = k then none else entry key l k := by
  induction l generalizing p with
  | nil => simp at hp
  | cons x l ih =>
      cases p with
      | zero =>
          rw [List.eraseIdx_cons_zero, entry_cons, List.getElem_cons_zero]
          split
          · rename_i hx
            rw [← hx, h.entry_tail]
          · rfl
      | succ p =>
          have hp : p < l.length := by simpa using hp
          rw [List.eraseIdx_cons_succ, entry_cons, entry_cons, ih h.tail hp, List.getElem_cons_succ]
          have hlt := h.head _ (List.getElem_mem hp)
          by_cases hx : key x = k
          · rw [if_pos hx, if_pos hx, if_neg (by omega)]
          · rw [if_neg hx, if_neg hx]

/-! ## Two lists side by side -/

section

variable (key)

/-- Induction along the walk: the list whose next key is smaller goes on, or both do. -/
@[elab_as_elim]
theorem walk_induct {motive : List α → List α → Prop} (done : ∀ own, motive own [])
    (rest : ∀ y other, motive [] other → motive [] (y :: other))
    (other : ∀ x own y other, key y < key x → motive (x :: own) other → motive (x :: own) (y :: other))
    (both : ∀ x own y other, key x = key y → motive own other → motive (x :: own) (y :: other))
    (own : ∀ x own y other, key x < key y → motive own (y :: other) → motive (x :: own) (y :: other)) :
    ∀ l l', motive l l'
  | l, [] => done l
  | [], y :: l' => rest y l' (walk_induct done rest other both own [] l')
  | x :: l, y :: l' => by
      rcases Nat.lt_trichotomy (key y) (key x) with hlt | heq | hgt
      · exact other x l y l' hlt (walk_induct done rest other both own (x :: l) l')
      · exact both x l y l' heq.symm (walk_induct done rest other both own l l')
      · exact own x l y l' hgt (walk_induct done rest other both own l (y :: l'))
  termination_by l l' => l.length + l'.length

/-- Own entries stay or go, entries of the other list are added or not, and where both have an
entry of one key, `both` says what is left of the own one. Also returned is whether an entry was
added or `both` says so. -/
def combine (keepOwn addOther : Bool) (both : α → α → Option α × Bool) :
    List α → List α → List α × Bool
  | own, [] => (if keepOwn then own else [], false)
  | [], y :: other => if addOther then (y :: (combine keepOwn addOther both [] other).1, true) else ([], false)
  | x :: own, y :: other =>
      if key y < key x then
        let t := combine keepOwn addOther both (x :: own) other
        if addOther then (y :: t.1, true) else t
      else if key x = key y then
        let t := combine keepOwn addOther both own other
        ((both x y).1.toList ++ t.1, (both x y).2 || t.2)
      else
        let t := combine keepOwn addOther both own (y :: other)
        (if keepOwn then x :: t.1 else t.1, t.2)
  termination_by own other => own.length + other.length

end

/-- What becomes of one key. -/
def combineAt (keepOwn addOther : Bool) (both : α → α → Option α × Bool) :
    Option α → Option α → Option α
  | none, none => none
  | some x, none => if keepOwn then some x else none
  | none, some y => if addOther then some y else none
  | some x, some y => (both x y).1

/-- Whether one key is a reason to report a change. -/
def changedAt (addOther : Bool) (both : α → α → Option α × Bool) : Option α → Option α → Bool
  | none, some _ => addOther
  | some x, some y => (both x y).2
  | _, none => false

section

variable {keepOwn addOther : Bool} {both : α → α → Option α × Bool} {own other : List α}

theorem combine_keys (hboth : ∀ x y z, (both x y).1 = some z → key z = key x) {z : α}
    (hz : z ∈ (combine key keepOwn addOther both own other).1) :
    (∃ x ∈ own, key x = key z) ∨ ∃ y ∈ other, key y = key z := by
  induction own, other using walk_induct key with
  | done own =>
      rw [combine] at hz
      split at hz
      · exact .inl ⟨z, hz, rfl⟩
      · cases hz
  | rest y other ih =>
      rw [combine] at hz
      split at hz
      · rcases List.mem_cons.mp hz with rfl | hz
        · exact .inr ⟨z, List.mem_cons_self, rfl⟩
        · rcases ih hz with ⟨x, hx, -⟩ | ⟨w, hw, hk⟩
          · cases hx
          · exact .inr ⟨w, List.mem_cons_of_mem y hw, hk⟩
      · cases hz
  | other x own y other hlt ih =>
      have hcase : z = y ∨ z ∈ (combine key keepOwn addOther both (x :: own) other).1 := by
        rw [combine, if_pos hlt] at hz
        split at hz
        · exact List.mem_cons.mp hz
        · exact .inr hz
      rcases hcase with rfl | hz
      · exact .inr ⟨z, List.mem_cons_self, rfl⟩
      · exact (ih hz).imp id fun ⟨w, hw, hk⟩ => ⟨w, List.mem_cons_of_mem y hw, hk⟩
  | both x own y other heq ih =>
      have hlt : ¬ key y < key x := by omega
      rw [combine, if_neg hlt, if_pos heq] at hz
      rcases List.mem_append.mp hz with hz | hz
      · exact .inl ⟨x, List.mem_cons_self, (hboth x y z (Option.mem_toList.mp hz)).symm⟩
      · exact (ih hz).imp (fun ⟨w, hw, hk⟩ => ⟨w, List.mem_cons_of_mem x hw, hk⟩)
          fun ⟨w, hw, hk⟩ => ⟨w, List.mem_cons_of_mem y hw, hk⟩
  | own x own y other hxy ih =>
      have hlt : ¬ key y < key x := by omega
      have hne : key x ≠ key y := by omega
      have hcase : z = x ∨ z ∈ (combine key keepOwn addOther both own (y :: other)).1 := by
        rw [combine, if_neg hlt, if_neg hne] at hz
        dsimp only at hz
        split at hz
        · exact List.mem_cons.mp hz
        · exact .inr hz
      rcases hcase with rfl | hz
      · exact .inl ⟨z, List.mem_cons_self, rfl⟩
      · exact (ih hz).imp (fun ⟨w, hw, hk⟩ => ⟨w, List.mem_cons_of_mem x hw, hk⟩) id

variable (hboth : ∀ x y z, (both x y).1 = some z → key z = key x)

include hboth

theorem combine_ascends (h : Ascends key own) (h' : Ascends key other) :
    Ascends key (combine key keepOwn addOther both own other).1 := by
  induction own, other using walk_induct key with
  | done own =>
      rw [combine]
      split
      · exact h
      · exact .nil
  | rest y other ih =>
      rw [combine]
      split
      · refine List.pairwise_cons.mpr ⟨fun z hz => ?_, ih h h'.tail⟩
        rcases combine_keys hboth hz with ⟨x, hx, -⟩ | ⟨w, hw, hk⟩
        · cases hx
        · exact hk ▸ h'.head w hw
      · exact .nil
  | other x own y other hlt ih =>
      rw [combine, if_pos hlt]
      dsimp only
      split
      · refine List.pairwise_cons.mpr ⟨fun z hz => ?_, ih h h'.tail⟩
        rcases combine_keys hboth hz with ⟨w, hw, hk⟩ | ⟨w, hw, hk⟩
        · rcases List.mem_cons.mp hw with rfl | hw
          · exact hk ▸ hlt
          · exact hk ▸ Nat.lt_trans hlt (h.head w hw)
        · exact hk ▸ h'.head w hw
      · exact ih h h'.tail
  | both x own y other heq ih =>
      have hlt : ¬ key y < key x := by omega
      rw [combine, if_neg hlt, if_pos heq]
      have hbehind : ∀ z ∈ (combine key keepOwn addOther both own other).1, key x < key z := by
        intro z hz
        rcases combine_keys hboth hz with ⟨w, hw, hk⟩ | ⟨w, hw, hk⟩
        · exact hk ▸ h.head w hw
        · exact hk ▸ heq ▸ h'.head w hw
      refine List.pairwise_append.mpr ⟨?_, ih h.tail h'.tail, fun z hz w hw => ?_⟩
      · cases (both x y).1 <;> simp
      · rw [hboth x y z (Option.mem_toList.mp hz)]
        exact hbehind w hw
  | own x own y other hxy ih =>
      have hlt : ¬ key y < key x := by omega
      have hne : key x ≠ key y := by omega
      rw [combine, if_neg hlt, if_neg hne]
      dsimp only
      split
      · refine List.pairwise_cons.mpr ⟨fun z hz => ?_, ih h.tail h'⟩
        rcases combine_keys hboth hz with ⟨w, hw, hk⟩ | ⟨w, hw, hk⟩
        · exact hk ▸ h.head w hw
        · rcases List.mem_cons.mp hw with rfl | hw
          · omega
          · have := h'.head w hw
            omega
      · exact ih h.tail h'

/-- Key by key, the walk does what its parameters say. -/
theorem entry_combine (h : Ascends key own) (h' : Ascends key other) (k : Nat) :
    entry key (combine key keepOwn addOther both own other).1 k =
      combineAt keepOwn addOther both (entry key own k) (entry key other k) := by
  induction own, other using walk_induct key with
  | done own =>
      rw [combine, entry_nil]
      cases hk : entry key own k <;> cases keepOwn <;> simp [combineAt, hk]
  | rest y other ih =>
      have ih := ih h h'.tail
      rw [combine]
      cases addOther
      · rw [entry_nil]
        cases entry key (y :: other) k <;> rfl
      · rw [if_pos rfl, entry_cons, entry_cons, ih, entry_nil]
        by_cases hk : key y = k
        · rw [if_pos hk, if_pos hk]
          rfl
        · rw [if_neg hk, if_neg hk]
  | other x own y other hlt ih =>
      have ih := ih h h'.tail
      rw [combine, if_pos hlt, entry_cons (l := other)]
      dsimp only
      by_cases hk : key y = k
      · subst hk
        rw [h.entry_below hlt, h'.entry_tail] at ih
        rw [if_pos rfl, h.entry_below hlt]
        cases addOther
        · exact ih
        · rw [if_pos rfl, entry_cons, if_pos rfl]
          rfl
      · rw [if_neg hk, ← ih]
        cases addOther
        · rfl
        · rw [if_pos rfl, entry_cons, if_neg hk]
  | both x own y other heq ih =>
      have hlt : ¬ key y < key x := by omega
      have ih := ih h.tail h'.tail
      rw [combine, if_neg hlt, if_pos heq, entry_append, entry_cons, entry_cons]
      by_cases hk : key x = k
      · subst hk
        have hrest : entry key (combine key keepOwn addOther both own other).1 (key x) = none := by
          rw [ih, h.entry_tail, heq, h'.entry_tail]
          rfl
        rw [if_pos rfl, if_pos heq.symm, hrest, Option.or_none]
        change _ = (both x y).1
        cases hb : (both x y).1 with
        | none => rfl
        | some z =>
            rw [Option.toList_some, entry_cons, if_pos (hboth x y z hb)]
      · have hhead : entry key (both x y).1.toList k = none := by
          refine entry_none.mpr fun z hz => ?_
          rw [hboth x y z (Option.mem_toList.mp hz)]
          exact hk
        rw [if_neg hk, if_neg fun he => hk (heq.trans he), hhead, Option.none_or, ih]
  | own x own y other hxy ih =>
      have hlt : ¬ key y < key x := by omega
      have hne : key x ≠ key y := by omega
      have ih := ih h.tail h'
      rw [combine, if_neg hlt, if_neg hne, entry_cons (l := own)]
      dsimp only
      by_cases hk : key x = k
      · subst hk
        rw [h.entry_tail, h'.entry_below hxy] at ih
        rw [if_pos rfl, h'.entry_below hxy]
        cases keepOwn
        · exact ih
        · rw [if_pos rfl, entry_cons, if_pos rfl]
          rfl
      · rw [if_neg hk, ← ih]
        cases keepOwn
        · rfl
        · rw [if_pos rfl, entry_cons, if_neg hk]

omit hboth in
theorem combine_changed (h : Ascends key own) (h' : Ascends key other) :
    (combine key keepOwn addOther both own other).2 = true ↔
      ∃ k, changedAt addOther both (entry key own k) (entry key other k) = true := by
  induction own, other using walk_induct key with
  | done own =>
      rw [combine]
      refine ⟨fun hf => (by cases hf), fun ⟨k, hk⟩ => ?_⟩
      rw [entry_nil] at hk
      cases hown : entry key own k <;> rw [hown] at hk <;> cases hk
  | rest y other ih =>
      rw [combine]
      cases addOther
      · refine ⟨fun hf => (by cases hf), fun ⟨k, hk⟩ => ?_⟩
        rw [entry_nil] at hk
        cases hother : entry key (y :: other) k <;> rw [hother] at hk <;> cases hk
      · refine ⟨fun _ => ⟨key y, ?_⟩, fun _ => rfl⟩
        rw [entry_cons, if_pos rfl]
        rfl
  | other x own y other hlt ih =>
      have ih := ih h h'.tail
      rw [combine, if_pos hlt]
      dsimp only
      cases addOther
      · rw [if_neg Bool.false_ne_true, ih]
        refine exists_congr fun k => ?_
        rw [entry_cons (l := other)]
        by_cases hk : key y = k
        · subst hk
          rw [if_pos rfl, h.entry_below hlt, h'.entry_tail]
          rfl
        · rw [if_neg hk]
      · refine ⟨fun _ => ⟨key y, ?_⟩, fun _ => rfl⟩
        rw [h.entry_below hlt, entry_cons, if_pos rfl]
        rfl
  | both x own y other heq ih =>
      have hlt : ¬ key y < key x := by omega
      have ih := ih h.tail h'.tail
      rw [combine, if_neg hlt, if_pos heq]
      change ((both x y).2 || _) = true ↔ _
      rw [Bool.or_eq_true, ih]
      constructor
      · rintro (hb | ⟨k, hk⟩)
        · refine ⟨key x, ?_⟩
          rw [entry_cons, if_pos rfl, entry_cons, if_pos heq.symm]
          exact hb
        · refine ⟨k, ?_⟩
          have hxk : key x ≠ k := fun he => by
            rw [← he, h.entry_tail, heq, h'.entry_tail] at hk
            cases hk
          rwa [entry_cons, if_neg hxk, entry_cons, if_neg fun he => hxk (heq.trans he)]
      · rintro ⟨k, hk⟩
        rw [entry_cons, entry_cons] at hk
        by_cases hxk : key x = k
        · rw [if_pos hxk, if_pos (heq.symm.trans hxk)] at hk
          exact .inl hk
        · rw [if_neg hxk, if_neg fun he => hxk (heq.trans he)] at hk
          exact .inr ⟨k, hk⟩
  | own x own y other hxy ih =>
      have hlt : ¬ key y < key x := by omega
      have hne : key x ≠ key y := by omega
      have ih := ih h.tail h'
      rw [combine, if_neg hlt, if_neg hne]
      change _ = true ↔ _
      rw [ih]
      refine exists_congr fun k => ?_
      rw [entry_cons (l := own)]
      by_cases hk : key x = k
      · subst hk
        rw [if_pos rfl, h.entry_tail, h'.entry_below hxy]
        rfl
      · rw [if_neg hk]

end

end Keyed

end PtrAnalysis
