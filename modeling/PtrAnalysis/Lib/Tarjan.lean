import Mathlib.Logic.Relation
import Mathlib.Data.Set.Insert
import Mathlib.Order.MinMax
import Mathlib.Tactic.Tauto

/-!
# Depth-first search for strongly connected components

The states of a search in the variant of Tarjan's algorithm that Nuutila gave: a
node goes on the stack when it is finished and is not the root of its component,
so the stack holds no node that is still walked. The edges are a fixed relation
`succ`; what a program does with a component it found is not looked at.

`Inv` is what holds between two steps of the search. A program is proved to be
such a search by following it with the steps `enter`, `lower`, `retreat` and
`complete`. `Walked` is what a node has done since it was entered, `Visited` what
its whole visit does. `Walked.component` is the point of it all: at a root, the node
and what was put on the stack since it was entered are its component.
-/

namespace PtrAnalysis

open Relation

structure Search (α : Type) where
  /-- The nodes that are walked, innermost first. -/
  path : List α
  /-- The finished nodes of components that are not complete, last first. -/
  stack : List α
  /-- The nodes of complete components. -/
  done : Set α
  /-- The number a node was entered with, 0 if it was not. -/
  num : α → Nat
  /-- The least number known to be reachable. -/
  low : α → Nat
  clock : Nat

namespace Search

variable {α : Type} {succ : α → α → Prop} {T T1 T2 : Search α} {n m x y z : α}

/-- Before the first visit. -/
def start : Search α := ⟨[], [], ∅, fun _ => 0, fun _ => 0, 1⟩

/-- The node was entered and its component is not complete. -/
def Open (T : Search α) (x : α) : Prop := x ∈ T.path ∨ x ∈ T.stack

/-- The two nodes are in the same strongly connected component. -/
def Mutual (succ : α → α → Prop) (x y : α) : Prop :=
  ReflTransGen succ x y ∧ ReflTransGen succ y x

theorem Mutual.refl (x : α) : Mutual succ x x := ⟨.refl, .refl⟩

theorem Mutual.symm (h : Mutual succ x y) : Mutual succ y x := ⟨h.2, h.1⟩

theorem Mutual.trans (h : Mutual succ x y) (h' : Mutual succ y z) : Mutual succ x z :=
  ⟨h.1.trans h'.1, h'.2.trans h.2⟩

/-- In a component of more than one node every node has an edge that stays inside. -/
theorem Mutual.inside (h : Mutual succ x z) (hne : x ≠ z) : ∃ y, succ x y ∧ Mutual succ x y := by
  rcases h.1.cases_head with heq | ⟨y, hxy, hyz⟩
  · exact absurd heq hne
  · exact ⟨y, hxy, .single hxy, hyz.trans h.2⟩

/-- The edge from `u` to `w` asks for nothing more. -/
def Handled (T : Search α) (u w : α) : Prop :=
  w ∈ T.done ∨ T.Open w ∧ T.low u ≤ T.num w

structure Inv (succ : α → α → Prop) (T : Search α) : Prop where
  clock : 0 < T.clock
  seen : ∀ x, T.num x ≠ 0 ↔ T.Open x ∨ x ∈ T.done
  num_lt : ∀ x, T.num x < T.clock
  inj : ∀ x y, T.num x = T.num y → T.num x ≠ 0 → x = y
  notDone : ∀ x, T.Open x → x ∉ T.done
  apart : ∀ x ∈ T.path, x ∉ T.stack
  nodup : T.stack.Nodup
  closed : ∀ x ∈ T.done, ∀ y, succ x y → y ∈ T.done
  /-- What was entered after a node that is still walked can be reached from it. -/
  linked : ∀ z ∈ T.path, ∀ x, T.Open x → T.num z ≤ T.num x → ReflTransGen succ z x
  low_le : ∀ x, T.Open x → T.low x ≤ T.num x
  low_reached : ∀ x, T.Open x → ∃ y, T.Open y ∧ T.num y = T.low x ∧ ReflTransGen succ x y
  low_lt : ∀ x ∈ T.stack, T.low x < T.num x
  handled : ∀ u ∈ T.stack, ∀ w, succ u w → T.Handled u w

theorem start_inv : Inv succ (start : Search α) where
  clock := Nat.one_pos
  seen x := by simp [start, Open]
  num_lt x := Nat.one_pos
  inj x y _ h := absurd rfl h
  notDone x h := by simp [start]
  apart x h := by cases h
  nodup := .nil
  closed x h := by cases h
  linked z h := by cases h
  low_le x h := by simp [start, Open] at h
  low_reached x h := by simp [start, Open] at h
  low_lt x h := by cases h
  handled u h := by cases h

namespace Inv

theorem num_pos (h : Inv succ T) (hx : T.Open x) : T.num x ≠ 0 := (h.seen x).mpr (.inl hx)

theorem unseen_open (h : Inv succ T) (hn : T.num n = 0) : ¬ T.Open n := fun ho => h.num_pos ho hn

theorem unseen_done (h : Inv succ T) (hn : T.num n = 0) : n ∉ T.done :=
  fun hd => (h.seen n).mpr (.inr hd) hn

theorem low_pos (h : Inv succ T) (hx : T.Open x) : T.low x ≠ 0 := by
  obtain ⟨y, hy, hyx, -⟩ := h.low_reached x hx
  exact hyx ▸ h.num_pos hy

/-- What a complete component reaches is complete. -/
theorem done_of_reach (h : Inv succ T) (hx : x ∈ T.done) (hxy : ReflTransGen succ x y) :
    y ∈ T.done := by
  induction hxy with
  | refl => exact hx
  | tail _ hs ih => exact h.closed _ ih _ hs

end Inv

/-! ## The steps -/

/-- Finish `n`, which is not the root of its component. -/
def retreat (T : Search α) (n : α) : Search α :=
  { T with path := T.path.tail, stack := n :: T.stack }

/-- Finish `n` as the root of a component, down to the given rest of the stack. -/
def complete (T : Search α) (n : α) (rest : List α) : Search α :=
  { T with
    path := T.path.tail
    stack := rest
    done := T.done ∪ {x | x = n ∨ x ∈ T.stack ∧ x ∉ rest} }

theorem Handled.seen (h : Inv succ T) (hxy : T.Handled x y) : T.num y ≠ 0 :=
  (h.seen y).mpr (hxy.elim .inr fun ho => .inl ho.1)

/-- Without a node that is walked there is none on the stack. -/
theorem Inv.stack_empty (h : Inv succ T) (hp : T.path = []) : T.stack = [] := by
  refine List.eq_nil_iff_forall_not_mem.mpr fun x => ?_
  induction hk : T.num x using Nat.strong_induction_on generalizing x with
  | _ k ih =>
      intro hx
      obtain ⟨y, hy, hyx, -⟩ := h.low_reached x (.inr hx)
      have hys : y ∈ T.stack := hy.resolve_left (by simp [hp])
      refine ih _ ?_ y rfl hys
      rw [hyx, ← hk]
      exact h.low_lt x hx

section

variable [DecidableEq α]

/-- Start to walk `n`. -/
def enter (T : Search α) (n : α) : Search α :=
  { T with
    path := n :: T.path
    num := Function.update T.num n T.clock
    low := Function.update T.low n T.clock
    clock := T.clock + 1 }

/-- Take over the low number of the successor `m` of `n`. -/
def lower (T : Search α) (n m : α) : Search α :=
  { T with low := Function.update T.low n (min (T.low n) (T.low m)) }

theorem enter_num (T : Search α) (n x : α) :
    (T.enter n).num x = if x = n then T.clock else T.num x := Function.update_apply ..

theorem enter_low (T : Search α) (n x : α) :
    (T.enter n).low x = if x = n then T.clock else T.low x := Function.update_apply ..

theorem lower_low (T : Search α) (n m x : α) :
    (T.lower n m).low x = if x = n then min (T.low n) (T.low m) else T.low x :=
  Function.update_apply ..

theorem Handled.lower (h : T.Handled x y) (n m : α) : (T.lower n m).Handled x y := by
  refine h.imp id fun ⟨ho, hle⟩ => ⟨ho, ?_⟩
  rw [lower_low]
  split
  · rename_i hxn
    exact (min_le_left ..).trans (hxn ▸ hle)
  · exact hle

/-- After `n` took over the number of `m`, the edge between them is handled. -/
theorem Inv.handled_lower (h : Inv succ T) (n : α) (hm : T.Open m) : (T.lower n m).Handled n m := by
  refine .inr ⟨hm, ?_⟩
  rw [lower_low, if_pos rfl]
  exact (min_le_right ..).trans (h.low_le m hm)

theorem enter_open : (T.enter n).Open x ↔ x = n ∨ T.Open x := by
  simp [Open, enter, or_assoc]

theorem Inv.enter (h : Inv succ T) (hn : T.num n = 0)
    (hpath : ∀ z ∈ T.path, ReflTransGen succ z n) : Inv succ (T.enter n) where
  clock := Nat.succ_pos _
  seen x := by
    rw [enter_num, enter_open]
    split
    · rename_i hx
      exact iff_of_true h.clock.ne' (.inl (.inl hx))
    · rename_i hx
      rw [h.seen x, or_iff_right hx]
      rfl
  num_lt x := by
    rw [enter_num]
    split
    · exact Nat.lt_succ_self _
    · exact Nat.lt_succ_of_lt (h.num_lt x)
  inj x y hxy hx := by
    have hlt := h.num_lt
    rw [enter_num, enter_num] at hxy
    rw [enter_num] at hx
    split at hxy <;> split at hxy
    · simp_all
    · exact absurd hxy (hlt y).ne'
    · exact absurd hxy (hlt x).ne
    · rename_i hxn _
      rw [if_neg hxn] at hx
      exact h.inj x y hxy hx
  notDone x hx := by
    rcases enter_open.mp hx with rfl | hx
    · exact h.unseen_done hn
    · exact h.notDone x hx
  apart x hx hs := by
    rcases List.mem_cons.mp hx with rfl | hx
    · exact h.unseen_open hn (.inr hs)
    · exact h.apart x hx hs
  nodup := h.nodup
  closed := h.closed
  linked z hz x hx hzx := by
    rw [enter_num, enter_num] at hzx
    rcases enter_open.mp hx with rfl | hx
    · rcases List.mem_cons.mp hz with rfl | hz
      · exact .refl
      · exact hpath z hz
    · have hxn : x ≠ n := fun he => h.unseen_open hn (he ▸ hx)
      rw [if_neg hxn] at hzx
      rcases List.mem_cons.mp hz with rfl | hz
      · rw [if_pos rfl] at hzx
        exact absurd hzx (h.num_lt x).not_ge
      · have hzn : z ≠ n := fun he => h.unseen_open hn (.inl (he ▸ hz))
        rw [if_neg hzn] at hzx
        exact h.linked z hz x hx hzx
  low_le x hx := by
    rw [enter_num, enter_low]
    split
    · exact le_rfl
    · rename_i hxn
      exact h.low_le x ((enter_open.mp hx).resolve_left hxn)
  low_reached x hx := by
    by_cases hxn : x = n
    · refine ⟨n, enter_open.mpr (.inl rfl), ?_, hxn ▸ .refl⟩
      rw [enter_num, enter_low, if_pos rfl, if_pos hxn]
    · obtain ⟨y, hy, hyx, hr⟩ := h.low_reached x ((enter_open.mp hx).resolve_left hxn)
      have hyn : y ≠ n := fun he => h.unseen_open hn (he ▸ hy)
      refine ⟨y, enter_open.mpr (.inr hy), ?_, hr⟩
      rw [enter_num, enter_low, if_neg hyn, if_neg hxn, hyx]
  low_lt x hx := by
    have hxn : x ≠ n := fun he => h.unseen_open hn (.inr (he ▸ hx))
    rw [enter_num, enter_low, if_neg hxn, if_neg hxn]
    exact h.low_lt x hx
  handled u hu w hw := by
    have hun : u ≠ n := fun he => h.unseen_open hn (.inr (he ▸ hu))
    rcases h.handled u hu w hw with hd | ⟨ho, hle⟩
    · exact .inl hd
    · have hwn : w ≠ n := fun he => h.unseen_open hn (he ▸ ho)
      refine .inr ⟨enter_open.mpr (.inr ho), ?_⟩
      rwa [enter_num, enter_low, if_neg hun, if_neg hwn]

/-- The low number of an open successor is that of a node the walked one reaches. -/
theorem Inv.lower (h : Inv succ T) (hn : n ∈ T.path) (hm : T.Open m) (hnm : succ n m) :
    Inv succ (T.lower n m) where
  clock := h.clock
  seen := h.seen
  num_lt := h.num_lt
  inj := h.inj
  notDone := h.notDone
  apart := h.apart
  nodup := h.nodup
  closed := h.closed
  linked := h.linked
  low_le x hx := by
    rw [lower_low]
    split
    · rename_i hxn
      exact (min_le_left ..).trans (hxn ▸ h.low_le x hx)
    · exact h.low_le x hx
  low_reached x hx := by
    rw [lower_low]
    split
    · rename_i hxn
      rcases min_choice (T.low n) (T.low m) with hmin | hmin
      · rw [hmin, ← hxn]
        exact h.low_reached x hx
      · obtain ⟨y, hy, hym, hr⟩ := h.low_reached m hm
        exact ⟨y, hy, hym.trans hmin.symm, hxn ▸ .head hnm hr⟩
    · exact h.low_reached x hx
  low_lt x hx := by
    have hxn : x ≠ n := fun he => h.apart n hn (he ▸ hx)
    rw [lower_low, if_neg hxn]
    exact h.low_lt x hx
  handled u hu w hw := by
    have hun : u ≠ n := fun he => h.apart n hn (he ▸ hu)
    refine (h.handled u hu w hw).imp id fun ⟨ho, hle⟩ => ⟨ho, ?_⟩
    rwa [lower_low, if_neg hun]

end

/-! ## Visits -/

/-- What changed since `T`, of which the path is kept: nodes were entered, and `new`
was put on the stack. -/
structure Onward (succ : α → α → Prop) (T T' : Search α) (n : α) (new : List α) : Prop where
  clock : T.clock ≤ T'.clock
  done : T.done ⊆ T'.done
  stack : T'.stack = new ++ T.stack
  num : ∀ x, T.num x ≠ 0 → T'.num x = T.num x
  low : ∀ x, T.num x ≠ 0 → T'.low x = T.low x
  fresh : ∀ x, T.num x = 0 → T'.num x ≠ 0 → T.clock ≤ T'.num x ∧ ReflTransGen succ n x
  entered : ∀ x ∈ new, T.num x = 0
  low_done : ∀ x, T.num x = 0 → x ∈ T'.done → T.clock ≤ T'.low x

/-- The walked node `n` was entered in `T`, and its low number is that of the nodes
its successors put on the stack. -/
structure Walked (succ : α → α → Prop) (T T' : Search α) (n : α) (new : List α) : Prop
    extends Onward succ T T' n new where
  path : T'.path = n :: T.path
  unseen : T.num n = 0
  num_eq : T'.num n = T.clock
  low_new : ∀ x ∈ new, T'.low n ≤ T'.low x

/-- The visit of `n` that began in `T` completed its component or left `n` on the
stack. -/
structure Visited (succ : α → α → Prop) (T T' : Search α) (n : α) (new : List α) : Prop
    extends Onward succ T T' n new where
  path : T'.path = T.path
  left : n ∈ T'.done ∧ new = [] ∨ n ∈ new ∧ ∀ x ∈ new, T'.low n ≤ T'.low x

variable {new new' : List α}

namespace Onward

theorem num_ne (h : Onward succ T T1 n new) (hx : T.num x ≠ 0) : T1.num x ≠ 0 := by
  rwa [h.num x hx]

theorem unseen (h : Onward succ T T1 n new) (hx : T1.num x = 0) : T.num x = 0 :=
  not_not.mp fun hne => h.num_ne hne hx

theorem opened (h : Onward succ T T1 n new) (hp : ∀ x ∈ T.path, x ∈ T1.path) (hx : T.Open x) :
    T1.Open x :=
  hx.imp (hp x) fun hs => h.stack ▸ List.mem_append_right _ hs

/-- An edge that asked for nothing more does not later on. -/
theorem handled (h : Onward succ T T1 n new) (hT : Inv succ T) (hp : ∀ x ∈ T.path, x ∈ T1.path)
    (hx : T.Open x) (hxy : T.Handled x y) : T1.Handled x y := by
  rcases hxy with hd | ⟨ho, hle⟩
  · exact .inl (h.done hd)
  · refine .inr ⟨h.opened hp ho, ?_⟩
    rw [h.low x (hT.num_pos hx), h.num y (hT.num_pos ho)]
    exact hle

theorem trans (h : Onward succ T T1 n new) (h' : Onward succ T1 T2 m new') (h1 : Inv succ T1)
    (h2 : Inv succ T2) (hp : ∀ x ∈ T1.path, x ∈ T2.path) (hnm : ReflTransGen succ n m) :
    Onward succ T T2 n (new' ++ new) where
  clock := h.clock.trans h'.clock
  done := h.done.trans h'.done
  stack := by rw [h'.stack, h.stack, List.append_assoc]
  num x hx := (h'.num x (h.num_ne hx)).trans (h.num x hx)
  low x hx := (h'.low x (h.num_ne hx)).trans (h.low x hx)
  fresh x hx hx2 := by
    by_cases hx1 : T1.num x = 0
    · obtain ⟨hle, hr⟩ := h'.fresh x hx1 hx2
      exact ⟨h.clock.trans hle, hnm.trans hr⟩
    · rw [h'.num x hx1]
      exact h.fresh x hx hx1
  entered x hx := by
    rcases List.mem_append.mp hx with hx | hx
    · exact h.unseen (h'.entered x hx)
    · exact h.entered x hx
  low_done x hx hd := by
    by_cases hx1 : T1.num x = 0
    · exact h.clock.trans (h'.low_done x hx1 hd)
    · rw [h'.low x hx1]
      rcases (h1.seen x).mp hx1 with ho | hd1
      · exact absurd hd (h2.notDone x (h'.opened hp ho))
      · exact h.low_done x hx hd1

end Onward

/-- A completed component was entered after all that was open before its visit. -/
theorem Visited.low_component (h : Visited succ T T1 m new) (hT : Inv succ T) (h1 : Inv succ T1)
    (hm : T.num m = 0) (hd : x ∈ T1.done) (hx : ReflTransGen succ x m) : T.clock ≤ T1.low x := by
  refine h.low_done x (not_not.mp fun hs => ?_) hd
  rcases (hT.seen x).mp hs with ho | hxd
  · exact h1.notDone x (h.opened (fun z hz => h.path ▸ hz) ho) hd
  · exact hT.unseen_done hm (hT.done_of_reach hxd hx)

namespace Walked

theorem mem_path (h : Walked succ T T1 n new) : n ∈ T1.path := by simp [h.path]

theorem isOpen (h : Walked succ T T1 n new) : T1.Open n := .inl h.mem_path

theorem path_sub (h : Walked succ T T1 n new) : ∀ x ∈ T.path, x ∈ T1.path := fun x hx => by
  simp [h.path, hx]

/-- The open nodes are `n`, the new ones, and older ones with smaller numbers. -/
theorem open_iff (h : Walked succ T T1 n new) :
    T1.Open x ↔ (x = n ∨ x ∈ new) ∨ T.Open x := by
  unfold Open
  rw [h.path, h.stack, List.mem_cons, List.mem_append]
  tauto

theorem older (h : Walked succ T T1 n new) (hT : Inv succ T) (hx : T.Open x) :
    T1.num x < T1.num n := by
  rw [h.num_eq, h.num x (hT.num_pos hx)]
  exact hT.num_lt x

theorem newer (h : Walked succ T T1 n new) (h1 : Inv succ T1) (hx : x = n ∨ x ∈ new) :
    T1.num n ≤ T1.num x := by
  rcases hx with rfl | hx
  · exact le_rfl
  · rw [h.num_eq]
    refine (h.fresh x (h.entered x hx) (h1.num_pos (.inr ?_))).1
    rw [h.stack]
    exact List.mem_append_left _ hx

/-- The open nodes that were not entered before `n`. -/
theorem newer_iff (h : Walked succ T T1 n new) (hT : Inv succ T) (h1 : Inv succ T1)
    (hx : T1.Open x) : T1.num n ≤ T1.num x ↔ x = n ∨ x ∈ new := by
  refine ⟨fun hle => ?_, h.newer h1⟩
  refine (h.open_iff.mp hx).resolve_right fun ho => ?_
  exact absurd hle (h.older hT ho).not_ge

/-- From every node that is walked `n` can be reached. -/
theorem reaches (h : Walked succ T T1 n new) (hT : Inv succ T) (h1 : Inv succ T1) :
    ∀ z ∈ T1.path, ReflTransGen succ z n := by
  intro z hz
  refine h1.linked z hz n h.isOpen ?_
  rw [h.path] at hz
  rcases List.mem_cons.mp hz with rfl | hz
  · exact le_rfl
  · exact (h.older hT (.inl hz)).le

/-- A visit of `m` from `n` that completed the component of `m`. -/
theorem visited_done (h : Walked succ T T1 n new) (h1 : Inv succ T1) (h2 : Inv succ T2)
    (hv : Visited succ T1 T2 m new') (hnm : succ n m) (hd : m ∈ T2.done) :
    Walked succ T T2 n new := by
  have hnew : new' = [] := by
    rcases hv.left with ⟨-, he⟩ | ⟨hm, -⟩
    · exact he
    · refine absurd hd (h2.notDone m (.inr ?_))
      rw [hv.stack]
      exact List.mem_append_left _ hm
  have hon := h.trans hv.toOnward h1 h2 (fun x hx => hv.path ▸ hx) (.single hnm)
  have hlow : ∀ x, T1.Open x → T2.low x = T1.low x := fun x hx => hv.low x (h1.num_pos hx)
  subst hnew
  refine { hon with path := hv.path.trans h.path, unseen := h.unseen, num_eq := ?_, low_new := ?_ }
  · rw [hv.num n (h1.num_pos h.isOpen), h.num_eq]
  · intro x hx
    rw [hlow n h.isOpen, hlow x (.inr (h.stack ▸ List.mem_append_left _ hx))]
    exact h.low_new x hx

/-- Nodes above a root reach no number before it. -/
theorem low_ge (h : Walked succ T T1 n new) (hroot : T1.low n = T1.num n)
    (hx : x = n ∨ x ∈ new) : T1.num n ≤ T1.low x := by
  rcases hx with rfl | hx
  · exact hroot.ge
  · exact hroot.ge.trans (h.low_new x hx)

/-- At a root, no edge leaves the new nodes but into complete components. -/
theorem leaves (h : Walked succ T T1 n new) (hT : Inv succ T) (h1 : Inv succ T1)
    (hroot : T1.low n = T1.num n) (hall : ∀ w, succ n w → T1.Handled n w)
    (hx : x = n ∨ x ∈ new) (hxy : succ x y) : y ∈ T1.done ∨ y = n ∨ y ∈ new := by
  have hy : T1.Handled x y := by
    rcases hx with rfl | hx
    · exact hall y hxy
    · exact h1.handled x (h.stack ▸ List.mem_append_left _ hx) y hxy
  rcases hy with hd | ⟨ho, hle⟩
  · exact .inl hd
  · exact .inr ((h.newer_iff hT h1 ho).mp ((h.low_ge hroot hx).trans hle))

/-- At a root, all that can be reached is new or complete. -/
theorem reach_in (h : Walked succ T T1 n new) (hT : Inv succ T) (h1 : Inv succ T1)
    (hroot : T1.low n = T1.num n) (hall : ∀ w, succ n w → T1.Handled n w)
    (hx : ReflTransGen succ n x) : x ∈ T1.done ∨ x = n ∨ x ∈ new := by
  induction hx with
  | refl => exact .inr (.inl rfl)
  | tail _ huw ih =>
      rcases ih with hd | hu
      · exact .inl (h1.closed _ hd _ huw)
      · exact h.leaves hT h1 hroot hall hu huw

/-- At a root, the node and what its walk put on the stack are its component. -/
theorem component (h : Walked succ T T1 n new) (hT : Inv succ T) (h1 : Inv succ T1)
    (hroot : T1.low n = T1.num n) (hall : ∀ w, succ n w → T1.Handled n w) :
    x = n ∨ x ∈ new ↔ Mutual succ n x := by
  constructor
  · intro hx
    have hopen : ∀ u, u = n ∨ u ∈ new → T1.Open u := fun u hu => h.open_iff.mpr (.inl hu)
    refine ⟨h1.linked n h.mem_path x (hopen x hx) (h.newer h1 hx), ?_⟩
    -- the low number leads to a node with a smaller number, down to `n`
    induction hk : T1.num x using Nat.strong_induction_on generalizing x with
    | _ k ih =>
        rcases hx with rfl | hx
        · exact .refl
        · have hxs : x ∈ T1.stack := h.stack ▸ List.mem_append_left _ hx
          obtain ⟨y, hy, hyx, hr⟩ := h1.low_reached x (.inr hxs)
          have hy' : y = n ∨ y ∈ new := by
            rw [← h.newer_iff hT h1 hy, hyx]
            exact h.low_ge hroot (.inr hx)
          have hlt : T1.num y < k := by
            rw [hyx, ← hk]
            exact h1.low_lt x hxs
          exact hr.trans (ih _ hlt hy' rfl)
  · rintro ⟨hnx, hxn⟩
    refine (h.reach_in hT h1 hroot hall hnx).resolve_left fun hd => ?_
    exact h1.notDone n h.isOpen (h1.done_of_reach hd hxn)

/-- A node that is not a root goes on the stack. -/
theorem retreat (h : Walked succ T T1 n new) (hT : Inv succ T) (h1 : Inv succ T1)
    (hlt : T1.low n < T1.num n) (hall : ∀ w, succ n w → T1.Handled n w) :
    Inv succ (T1.retreat n) ∧ Visited succ T (T1.retreat n) n (n :: new) := by
  have hpath : (T1.retreat n).path = T.path := by rw [Search.retreat, h.path, List.tail_cons]
  have hopen : ∀ {x}, (T1.retreat n).Open x ↔ T1.Open x := by
    intro x
    unfold Open
    rw [hpath, h.path, Search.retreat, List.mem_cons, List.mem_cons]
    tauto
  have hhandled : ∀ {u w}, T1.Handled u w → (T1.retreat n).Handled u w :=
    fun hu => hu.imp id fun ⟨ho, hle⟩ => ⟨hopen.mpr ho, hle⟩
  constructor
  · refine
      { clock := h1.clock
        seen := fun x => by rw [hopen]; exact h1.seen x
        num_lt := h1.num_lt
        inj := h1.inj, notDone := fun x hx => h1.notDone x (hopen.mp hx)
        apart := ?_
        nodup := List.nodup_cons.mpr ⟨h1.apart n h.mem_path, h1.nodup⟩
        closed := h1.closed
        linked := ?_
        low_le := fun x hx => h1.low_le x (hopen.mp hx)
        low_reached := ?_
        low_lt := ?_
        handled := ?_ }
    · intro x hx hs
      rw [hpath] at hx
      rcases List.mem_cons.mp hs with rfl | hs
      · exact hT.unseen_open h.unseen (.inl hx)
      · exact h1.apart x (h.path_sub x hx) hs
    · intro z hz x hx
      exact h1.linked z (h.path_sub z (hpath ▸ hz)) x (hopen.mp hx)
    · intro x hx
      obtain ⟨y, hy, hyx⟩ := h1.low_reached x (hopen.mp hx)
      exact ⟨y, hopen.mpr hy, hyx⟩
    · intro x hx
      rcases List.mem_cons.mp hx with rfl | hx
      · exact hlt
      · exact h1.low_lt x hx
    · intro u hu w huw
      rcases List.mem_cons.mp hu with rfl | hu
      · exact hhandled (hall w huw)
      · exact hhandled (h1.handled u hu w huw)
  · refine
      { clock := h.clock
        done := h.done
        stack := ?_
        num := h.num
        low := h.low
        fresh := h.fresh
        entered := ?_
        low_done := h.low_done
        path := hpath
        left := ?_ }
    · rw [Search.retreat, h.stack]
      rfl
    · intro x hx
      rcases List.mem_cons.mp hx with rfl | hx
      · exact h.unseen
      · exact h.entered x hx
    · refine .inr ⟨List.mem_cons_self, fun x hx => ?_⟩
      rcases List.mem_cons.mp hx with rfl | hx
      · exact le_rfl
      · exact h.low_new x hx

/-- A root completes its component. -/
theorem complete (h : Walked succ T T1 n new) (hT : Inv succ T) (h1 : Inv succ T1)
    (hroot : T1.low n = T1.num n) (hall : ∀ w, succ n w → T1.Handled n w) :
    (∀ x, x ∈ (T1.complete n T.stack).done ↔ x ∈ T1.done ∨ Mutual succ n x) ∧
      Inv succ (T1.complete n T.stack) ∧ Visited succ T (T1.complete n T.stack) n [] := by
  have hpath : (T1.complete n T.stack).path = T.path := by
    rw [Search.complete, h.path, List.tail_cons]
  have hnew : ∀ {x}, x ∈ T1.stack ∧ x ∉ T.stack ↔ x ∈ new := by
    intro x
    rw [h.stack, List.mem_append]
    refine ⟨fun ⟨hx, hn⟩ => hx.resolve_right hn, fun hx => ⟨.inl hx, fun hs => ?_⟩⟩
    exact hT.unseen_open (h.entered x hx) (.inr hs)
  have hdone : ∀ {x}, x ∈ (T1.complete n T.stack).done ↔ x ∈ T1.done ∨ x = n ∨ x ∈ new := by
    intro x
    rw [← hnew]
    rfl
  have hopen : ∀ {x}, (T1.complete n T.stack).Open x ↔ T.Open x := by
    intro x
    unfold Open
    rw [hpath]
    rfl
  have hold : ∀ {x}, T.Open x → T1.Open x := fun hx => h.open_iff.mpr (.inr hx)
  refine ⟨fun x => by rw [hdone, h.component hT h1 hroot hall], ?_, ?_⟩
  · refine
      { clock := h1.clock
        seen := ?_
        num_lt := h1.num_lt
        inj := h1.inj, notDone := ?_
        apart := ?_
        nodup := hT.nodup
        closed := ?_
        linked := ?_
        low_le := ?_
        low_reached := ?_
        low_lt := ?_
        handled := ?_ }
    · intro x
      have hseen := h1.seen x
      rw [h.open_iff] at hseen
      rw [hopen, hdone]
      tauto
    · intro x hx hd
      rw [hopen] at hx
      rcases hdone.mp hd with hd | hd
      · exact h1.notDone x (hold hx) hd
      · exact (h.older hT hx).not_ge (h.newer h1 hd)
    · intro x hx hs
      exact hT.apart x (hpath ▸ hx) hs
    · intro x hx y hxy
      rw [hdone] at hx ⊢
      rcases hx with hx | hx
      · exact .inl (h1.closed x hx y hxy)
      · exact h.leaves hT h1 hroot hall hx hxy
    · intro z hz x hx
      exact h1.linked z (h.path_sub z (hpath ▸ hz)) x (hold (hopen.mp hx))
    · exact fun x hx => h1.low_le x (hold (hopen.mp hx))
    · intro x hx
      rw [hopen] at hx
      obtain ⟨y, hy, hyx, hr⟩ := h1.low_reached x (hold hx)
      refine ⟨y, hopen.mpr ((h.open_iff.mp hy).resolve_left fun hnew => ?_), hyx, hr⟩
      have hlt := (h1.low_le x (hold hx)).trans_lt (h.older hT hx)
      exact (hyx ▸ hlt).not_ge (h.newer h1 hnew)
    · exact fun x hx => h1.low_lt x (h.stack ▸ List.mem_append_right _ hx)
    · intro u hu w huw
      rcases h1.handled u (h.stack ▸ List.mem_append_right _ hu) w huw with hd | ⟨ho, hle⟩
      · exact .inl (hdone.mpr (.inl hd))
      · rcases h.open_iff.mp ho with hw | hw
        · exact .inl (hdone.mpr (.inr hw))
        · exact .inr ⟨hopen.mpr hw, hle⟩
  · refine
      { clock := h.clock
        done := fun x hx => hdone.mpr (.inl (h.done hx))
        stack := rfl
        num := h.num
        low := h.low
        fresh := h.fresh
        entered := fun x hx => by cases hx
        low_done := ?_
        path := hpath
        left := .inl ⟨hdone.mpr (.inr (.inl rfl)), rfl⟩ }
    intro x hx hd
    rcases hdone.mp hd with hd | rfl | hd
    · exact h.low_done x hx hd
    · exact (hroot.trans h.num_eq).ge
    · exact (hroot.trans h.num_eq).ge.trans (h.low_new x hd)

section

variable [DecidableEq α]

theorem enter (hT : Inv succ T) (hn : T.num n = 0) : Walked succ T (T.enter n) n [] where
  clock := Nat.le_succ _
  done := fun _ => id
  stack := rfl
  num x hx := by
    rw [enter_num, if_neg fun he : x = n => hx (he ▸ hn)]
  low x hx := by
    rw [enter_low, if_neg fun he : x = n => hx (he ▸ hn)]
  fresh x hx hx' := by
    rw [enter_num] at hx' ⊢
    split at hx'
    · rename_i hxn
      rw [if_pos hxn]
      exact ⟨le_rfl, hxn ▸ .refl⟩
    · exact absurd hx hx'
  entered x hx := by cases hx
  low_done x hx hd := absurd hd (hT.unseen_done hx)
  path := rfl
  unseen := hn
  num_eq := by rw [enter_num, if_pos rfl]
  low_new x hx := by cases hx

/-- To lower `n` is a step of its walk. -/
theorem lower (h : Walked succ T T1 n new) (h1 : Inv succ T1) (m : α) :
    Walked succ T (T1.lower n m) n new where
  clock := h.clock
  done := h.done
  stack := h.stack
  num := h.num
  low x hx := by
    rw [lower_low, if_neg fun he : x = n => hx (he ▸ h.unseen)]
    exact h.low x hx
  fresh := h.fresh
  entered := h.entered
  low_done x hx hd := by
    rw [lower_low, if_neg fun he : x = n => h1.notDone n h.isOpen (he ▸ hd)]
    exact h.low_done x hx hd
  path := h.path
  unseen := h.unseen
  num_eq := h.num_eq
  low_new x hx := by
    have hxn : x ≠ n := fun he => h1.apart n h.mem_path (by
      rw [h.stack]
      exact List.mem_append_left _ (he ▸ hx))
    rw [lower_low, lower_low, if_pos rfl, if_neg hxn]
    exact (min_le_left ..).trans (h.low_new x hx)

/-- A visit of `m` from `n` that left `m` on the stack. -/
theorem visited_left (h : Walked succ T T1 n new) (h1 : Inv succ T1) (h2 : Inv succ T2)
    (hv : Visited succ T1 T2 m new') (hnm : succ n m) (hd : m ∉ T2.done) :
    Walked succ T (T2.lower n m) n (new' ++ new) := by
  obtain ⟨hm, hmin⟩ := hv.left.resolve_left fun h => hd h.1
  have hon := h.trans hv.toOnward h1 h2 (fun x hx => hv.path ▸ hx) (.single hnm)
  have hlow : ∀ x, T1.Open x → T2.low x = T1.low x := fun x hx => hv.low x (h1.num_pos hx)
  have hpath : T2.path = n :: T.path := hv.path.trans h.path
  have hnot : ∀ x ∈ T2.stack, x ≠ n := fun x hx he => h2.apart n (by simp [hpath]) (he ▸ hx)
  refine
    { clock := hon.clock
      done := hon.done
      stack := hon.stack
      num := hon.num
      low := ?_
      fresh := hon.fresh
      entered := hon.entered
      low_done := ?_
      path := hpath
      unseen := h.unseen
      num_eq := ?_
      low_new := ?_ }
  · intro x hx
    rw [lower_low, if_neg fun he : x = n => hx (he ▸ h.unseen)]
    exact hon.low x hx
  · intro x hx hxd
    rw [lower_low, if_neg fun he : x = n => h2.notDone n (.inl (by simp [hpath])) (he ▸ hxd)]
    exact hon.low_done x hx hxd
  · exact (hv.num n (h1.num_pos h.isOpen)).trans h.num_eq
  · intro x hx
    have hxs : x ∈ T2.stack := by
      rw [hon.stack]
      exact List.mem_append_left _ hx
    rw [lower_low, lower_low, if_pos rfl, if_neg (hnot x hxs)]
    rcases List.mem_append.mp hx with hx | hx
    · exact (min_le_right ..).trans (hmin x hx)
    · rw [hlow n h.isOpen, hlow x (.inr (h.stack ▸ List.mem_append_left _ hx))]
      exact (min_le_left ..).trans (h.low_new x hx)

end

end Walked

end Search

end PtrAnalysis
