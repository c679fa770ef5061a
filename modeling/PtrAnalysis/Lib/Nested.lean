import Mathlib.Data.List.Basic

/-!
# Nested blocks

A list in which an element of size `k` speaks for itself and the `k - 1` elements behind
it: its block. The list is `Nested` if every block lies inside the list, has no element
without a size, holds only elements that belong to its first one, and ends no earlier than
the blocks that begin in it.
-/

namespace PtrAnalysis

variable {α : Type}

/-- The block of a first element of size `k` in front of `l`. -/
def HeadBlock (sz : α → Nat) (S : α → α → Prop) (a : α) (l : List α) : Prop :=
  sz a ≤ l.length + 1 ∧
    ∀ (j : Nat) (b : α), l[j]? = some b → j + 1 < sz a →
      0 < sz b ∧ S a b ∧ j + 1 + sz b ≤ sz a

def Nested (sz : α → Nat) (S : α → α → Prop) : List α → Prop
  | [] => True
  | a :: l => HeadBlock sz S a l ∧ Nested sz S l

namespace Nested

variable {sz : α → Nat} {S : α → α → Prop} {a b : α} {l l' : List α}

theorem head_append (h : HeadBlock sz S a l) : HeadBlock sz S a (l ++ l') := by
  constructor
  · have := h.1
    rw [List.length_append]
    omega
  · intro j b hj hlt
    have hlen := h.1
    rw [List.getElem?_append_left (by omega)] at hj
    exact h.2 j b hj hlt

theorem append (h : Nested sz S l) (h' : Nested sz S l') : Nested sz S (l ++ l') := by
  induction l with
  | nil => exact h'
  | cons a l ih => exact ⟨head_append h.1, ih h.2⟩

theorem right (h : Nested sz S (l ++ l')) : Nested sz S l' := by
  induction l with
  | nil => exact h
  | cons a l ih => exact ih h.2

/-- An element of size at most 1 is a block of its own. -/
theorem head_small (h : sz a ≤ 1) : HeadBlock sz S a l :=
  ⟨by omega, fun j b _ hlt => by omega⟩

theorem small (h : ∀ a ∈ l, sz a ≤ 1) : Nested sz S l := by
  induction l with
  | nil => trivial
  | cons a l ih =>
      exact ⟨head_small (h a (List.mem_cons_self ..)),
        ih fun b hb => h b (List.mem_cons_of_mem _ hb)⟩

/-- Elements that keep their sizes and belong together as before. -/
theorem map {β : Type} {szB : β → Nat} {R : β → β → Prop} {f : α → β} (h : Nested sz S l)
    (hsz : ∀ a ∈ l, szB (f a) = sz a) (hS : ∀ a ∈ l, ∀ b ∈ l, S a b → R (f a) (f b)) :
    Nested szB R (l.map f) := by
  induction l with
  | nil => trivial
  | cons a l ih =>
      refine ⟨⟨?_, fun j c hc hlt => ?_⟩, ih h.2 (fun b hb => hsz b (List.mem_cons_of_mem _ hb))
        fun b hb c hc => hS b (List.mem_cons_of_mem _ hb) c (List.mem_cons_of_mem _ hc)⟩
      · rw [hsz a (List.mem_cons_self ..), List.length_map]
        exact h.1.1
      · rw [List.getElem?_map, Option.map_eq_some_iff] at hc
        obtain ⟨b, hb, rfl⟩ := hc
        have hmem := List.mem_cons_of_mem a (List.mem_of_getElem? hb)
        rw [hsz a (List.mem_cons_self ..)] at hlt ⊢
        rw [hsz b hmem]
        obtain ⟨h0, hab, hin⟩ := h.1.2 j b hb hlt
        exact ⟨h0, hS a (List.mem_cons_self ..) b hmem hab, hin⟩

private theorem split_at_index {i : Nat} (hi : l[i]? = some a) :
    l = l.take i ++ a :: l.drop (i + 1) := by
  obtain ⟨hlt, rfl⟩ := List.getElem?_eq_some_iff.mp hi
  rw [List.getElem_cons_drop, List.take_append_drop]

/-- A new first element takes over the list as one block. -/
theorem whole (h : Nested sz S l) (h0 : ∀ b ∈ l, 0 < sz b ∧ S a b) (hsz : sz a = l.length + 1) :
    Nested sz S (a :: l) := by
  refine ⟨⟨Nat.le_of_eq hsz, fun j b hj hlt => ?_⟩, h⟩
  obtain ⟨hb, hS⟩ := h0 b (List.mem_of_getElem? hj)
  refine ⟨hb, hS, ?_⟩
  have hjl : j < l.length := (List.getElem?_eq_some_iff.mp hj).1
  have hdrop : Nested sz S (b :: l.drop (j + 1)) := by
    rw [split_at_index hj] at h
    exact h.right
  have := hdrop.1.1
  rw [List.length_drop] at this
  omega

/-- Without the elements that have no size the blocks are as before. -/
theorem filter (h : Nested sz S l) : Nested sz S (l.filter fun a => decide (sz a ≠ 0)) := by
  induction l with
  | nil => trivial
  | cons a l ih =>
      by_cases ha : sz a = 0
      · rw [List.filter_cons_of_neg (by simpa using ha)]
        exact ih h.2
      · rw [List.filter_cons_of_pos (by simpa using ha)]
        refine ⟨?_, ih h.2⟩
        -- the rest of the block is kept as it stands
        have hkeep : l.filter (fun a => decide (sz a ≠ 0)) =
            l.take (sz a - 1) ++ (l.drop (sz a - 1)).filter fun a => decide (sz a ≠ 0) := by
          conv_lhs => rw [← List.take_append_drop (sz a - 1) l, List.filter_append]
          congr 1
          apply List.filter_eq_self.mpr
          intro b hb
          obtain ⟨j, hj, rfl⟩ := List.mem_take_iff_getElem.mp hb
          have := h.1.2 j l[j] (List.getElem?_eq_getElem (by omega)) (by omega)
          simpa using Nat.ne_of_gt this.1
        have hlen : (l.take (sz a - 1)).length = sz a - 1 := by
          have := h.1.1
          rw [List.length_take]
          omega
        rw [hkeep]
        apply head_append
        refine ⟨by omega, fun j b hj hlt => h.1.2 j b ?_ hlt⟩
        rwa [List.getElem?_take_of_lt (by omega)] at hj

/-- The block at any place of the list. -/
theorem at_index (h : Nested sz S l) {i : Nat} (hi : l[i]? = some a) :
    i + sz a ≤ l.length ∧
      ∀ (j : Nat) (b : α), l[j]? = some b → i < j → j < i + sz a →
        0 < sz b ∧ S a b ∧ j + sz b ≤ i + sz a := by
  have hil : i < l.length := (List.getElem?_eq_some_iff.mp hi).1
  have hhead : HeadBlock sz S a (l.drop (i + 1)) := by
    rw [split_at_index hi] at h
    exact h.right.1
  constructor
  · have := hhead.1
    rw [List.length_drop] at this
    omega
  · intro j b hj hij hlt
    have := hhead.2 (j - (i + 1)) b
      (by rw [List.getElem?_drop, show i + 1 + (j - (i + 1)) = j by omega]; exact hj) (by omega)
    exact ⟨this.1, this.2.1, by omega⟩

end Nested

end PtrAnalysis
