import Mathlib.Data.List.Nodup
import Mathlib.Logic.Function.Basic

/-!
# Association lists as maps

A list of pairs with one pair for each key, read with `List.lookup`, and functions that are
changed at one key.
-/

namespace PtrAnalysis

variable {α β : Type} [BEq α] [LawfulBEq α]

/-- In a list with one pair for each key, lookup finds exactly its pairs. -/
theorem lookup_iff {l : List (α × β)} (h : (l.map Prod.fst).Nodup) {k : α} {v : β} :
    l.lookup k = some v ↔ (k, v) ∈ l := by
  induction l with
  | nil => simp
  | cons e l ih =>
      obtain ⟨k', v'⟩ := e
      rw [List.map_cons, List.nodup_cons] at h
      rw [List.lookup_cons, List.mem_cons, Prod.mk.injEq]
      by_cases hk : k = k'
      · subst hk
        have hno : (k, v) ∉ l := fun hm => h.1 (List.mem_map.mpr ⟨(k, v), hm, rfl⟩)
        simp [hno, eq_comm]
      · rw [show (k == k') = false by simpa using hk, ← ih h.2]
        simp [hk]

theorem lookup_mem {l : List (α × β)} {k : α} {v : β} (h : l.lookup k = some v) : (k, v) ∈ l := by
  obtain ⟨l1, l2, rfl, -⟩ := List.lookup_eq_some_iff.mp h
  exact List.mem_append_right l1 List.mem_cons_self

/-- Renaming the keys of a list renames the key that is looked up, if no other key gets the
same name. -/
theorem lookup_map_key {γ : Type} [BEq γ] [LawfulBEq γ] {l : List (α × β)} {f : α → γ} {k : α}
    (h : ∀ e ∈ l, f e.1 = f k → e.1 = k) :
    (l.map fun e => (f e.1, e.2)).lookup (f k) = l.lookup k := by
  induction l with
  | nil => rfl
  | cons e l ih =>
      rw [List.map_cons, List.lookup_cons, List.lookup_cons,
        ih fun e' he' => h e' (List.mem_cons_of_mem _ he')]
      have hkey : (f k == f e.1) = (k == e.1) := by
        rw [Bool.eq_iff_iff, beq_iff_eq, beq_iff_eq]
        exact ⟨fun hf => (h e (List.mem_cons_self ..) hf.symm).symm, congrArg f⟩
      rw [hkey]

theorem lookup_none_iff {l : List (α × β)} {k : α} :
    l.lookup k = none ↔ ∀ e ∈ l, e.1 ≠ k := by
  rw [List.lookup_eq_none_iff]
  constructor
  · intro h e he hk
    have hne := h e he
    rw [hk] at hne
    simp at hne
  · intro h e he
    simpa using (h e he).symm

/-- Erasing one key leaves the others. -/
theorem lookup_filter_ne [DecidableEq α] {l : List (α × β)} {k k' : α} (h : k' ≠ k) :
    (l.filter (·.1 ≠ k)).lookup k' = l.lookup k' := by
  induction l with
  | nil => rfl
  | cons e l ih =>
      obtain ⟨k1, v⟩ := e
      rw [List.filter_cons]
      by_cases hk : k1 = k
      · rw [if_neg (by simp [hk]), List.lookup_cons, hk, show (k' == k) = false by simpa using h]
        exact ih
      · rw [if_pos (by simpa using hk), List.lookup_cons, List.lookup_cons]
        split
        · rfl
        · exact ih

/-- A property of all values of a partial function, after one of them is set. -/
theorem update_entries {α β : Type} [DecidableEq α] {m : α → Option β} {p : β → Prop}
    (h : ∀ a b, m a = some b → p b) {x : α} {y : β} (hy : p y) :
    ∀ a b, Function.update m x (some y) a = some b → p b := by
  intro a b hb
  by_cases ha : a = x
  · rw [ha, Function.update_self, Option.some.injEq] at hb
    exact hb ▸ hy
  · rw [Function.update_of_ne ha] at hb
    exact h a b hb

end PtrAnalysis
