import PtrAnalysis.Lib.Ascending
import PtrAnalysis.Heap

/-!
# The solver's worklist

`worklist.h` offers one interface with three implementations, chosen when the
analysis is compiled: a deque, an ordered set and the priority heap, each with
one list or with two that are swapped when the current one runs empty.
`Worklist` is the interface and `LawfulWorklist` what the solver relies on:
nothing but the popped entry is ever lost, one push adds at most one entry, and
only the assertions of the lists themselves can fail.
A `Container` is one list; `Lists` makes a worklist of one or two of them.
-/

namespace PtrAnalysis

open Run

class Worklist (W : Type) where
  /-- `WL_ORDER == WLO_PRIO` -/
  usesPrio : Bool
  /-- The constructor, given the node count. -/
  create : Nat → W
  empty : W → Bool
  /-- Switch to the next list, and return true, if nothing remains in the
  current one. -/
  swapIfEmpty : W → Bool × W
  push : W → Nat → Nat → Run W
  /-- The first node in the order of the list, with its priority. -/
  pop : W → Run ((Nat × Nat) × W)

/-- The assertions of `worklist.h` and `heap.h`. -/
def listStops : List Stop :=
  [.assertion "trying to pop empty worklist", .assertion "v <= maxv", .assertion "i <= nv",
    .assertion "nv"]

class LawfulWorklist (W : Type) [Worklist W] where
  /-- Node `n` is on the list with priority `p`. -/
  Mem : W → Nat → Nat → Prop
  len : W → Nat
  push_mem : ∀ {w w' : W} {n p : Nat}, Worklist.push w n p = .ok w' →
    ∃ q, Mem w' n q ∧ (Worklist.usesPrio W = true → q = p)
  push_keeps : ∀ {w w' : W} {n p m q : Nat}, Worklist.push w n p = .ok w' →
    m ≠ n → Mem w m q → Mem w' m q
  push_len : ∀ {w w' : W} {n p : Nat}, Worklist.push w n p = .ok w' →
    len w' ≤ len w + 1
  push_stop : ∀ {w : W} {n p : Nat} {e : Stop}, Worklist.push w n p = .error e → e ∈ listStops
  pop_keeps : ∀ {w w' : W} {n p m q : Nat}, Worklist.pop w = .ok ((n, p), w') →
    (m, q) ≠ (n, p) → Mem w m q → Mem w' m q
  pop_len : ∀ {w w' : W} {e : Nat × Nat}, Worklist.pop w = .ok (e, w') →
    len w' < len w
  pop_stop : ∀ {w : W} {e : Stop}, Worklist.pop w = .error e → e ∈ listStops
  swap_mem : ∀ {w : W} {n p : Nat},
    Mem (Worklist.swapIfEmpty w).2 n p ↔ Mem w n p
  swap_len : ∀ w : W, len (Worklist.swapIfEmpty w).2 = len w
  swap_done : ∀ {w : W} {n p : Nat}, (Worklist.swapIfEmpty w).1 = true →
    Worklist.empty (Worklist.swapIfEmpty w).2 = true → ¬ Mem w n p

/-! ## One list -/

/-- The operations on one list of nodes. -/
class Container (L : Type) where
  usesPrio : Bool
  create : Nat → L
  empty : L → Bool
  push : L → Nat → Nat → Run L
  pop : L → Run ((Nat × Nat) × L)

class LawfulContainer (L : Type) [Container L] where
  Mem : L → Nat → Nat → Prop
  len : L → Nat
  empty_done : ∀ {l : L} {n p : Nat}, Container.empty l = true → ¬ Mem l n p
  push_mem : ∀ {l l' : L} {n p : Nat}, Container.push l n p = .ok l' →
    ∃ q, Mem l' n q ∧ (Container.usesPrio L = true → q = p)
  push_keeps : ∀ {l l' : L} {n p m q : Nat}, Container.push l n p = .ok l' →
    m ≠ n → Mem l m q → Mem l' m q
  push_len : ∀ {l l' : L} {n p : Nat}, Container.push l n p = .ok l' →
    len l' ≤ len l + 1
  push_stop : ∀ {l : L} {n p : Nat} {e : Stop}, Container.push l n p = .error e → e ∈ listStops
  pop_keeps : ∀ {l l' : L} {n p m q : Nat}, Container.pop l = .ok ((n, p), l') →
    (m, q) ≠ (n, p) → Mem l m q → Mem l' m q
  pop_len : ∀ {l l' : L} {e : Nat × Nat}, Container.pop l = .ok (e, l') →
    len l' < len l
  pop_stop : ∀ {l : L} {e : Stop}, Container.pop l = .error e → e ∈ listStops

/-! ## The deque -/

/-- The STL deque as a queue or, with `fifo` off, as a stack. The priority is
ignored. -/
structure Deque (fifo : Bool) where
  nodes : List Nat

namespace Deque

variable {fifo : Bool}

def pop (l : Deque fifo) : Run ((Nat × Nat) × Deque fifo) :=
  match l.nodes with
  | [] => .error (.assertion "trying to pop empty worklist")
  | n :: ns =>
    if fifo then .ok ((n, 0), ⟨ns⟩)
    else .ok (((n :: ns).getLast (List.cons_ne_nil n ns), 0), ⟨(n :: ns).dropLast⟩)

instance : Container (Deque fifo) where
  usesPrio := false
  create _ := ⟨[]⟩
  empty l := l.nodes.isEmpty
  push l n _ := .ok ⟨l.nodes ++ [n]⟩
  pop := pop

theorem pop_nodes {l l' : Deque fifo} {n p : Nat} (h : l.pop = .ok ((n, p), l')) :
    p = 0 ∧ (∀ m ∈ l.nodes, m = n ∨ m ∈ l'.nodes) ∧ l'.nodes.length + 1 = l.nodes.length := by
  obtain ⟨nodes⟩ := l
  cases nodes with
  | nil => cases h
  | cons a as =>
      simp only [pop] at h
      split at h
      · obtain ⟨⟨rfl, rfl⟩, rfl⟩ := by simpa using h
        exact ⟨rfl, fun m hm => List.mem_cons.mp hm, rfl⟩
      · obtain ⟨⟨rfl, rfl⟩, rfl⟩ := by simpa using h
        refine ⟨rfl, fun m hm => ?_, by simp⟩
        -- the list is its front followed by the popped element
        rw [← List.dropLast_append_getLast (List.cons_ne_nil a as)] at hm
        rcases List.mem_append.mp hm with hfront | hlast
        · exact .inr hfront
        · exact .inl (List.mem_singleton.mp hlast)

instance : LawfulContainer (Deque fifo) where
  Mem l n p := p = 0 ∧ n ∈ l.nodes
  len l := l.nodes.length
  empty_done := by
    rintro ⟨nodes⟩ n p he ⟨-, hm⟩
    rw [List.isEmpty_iff.mp he] at hm
    cases hm
  push_mem := by
    intro l l' n p h
    obtain rfl := Except.ok.inj h
    exact ⟨0, ⟨rfl, by simp⟩, fun hp => by cases hp⟩
  push_keeps := by
    intro l l' n p m q h _ hm
    obtain rfl := Except.ok.inj h
    exact ⟨hm.1, List.mem_append_left _ hm.2⟩
  push_len := by
    intro l l' n p h
    obtain rfl := Except.ok.inj h
    simp
  push_stop := fun h => by cases h
  pop_keeps := by
    intro l l' n p m q h hne hm
    obtain ⟨hp, hall, -⟩ := pop_nodes h
    refine ⟨hm.1, (hall m hm.2).resolve_left fun he => hne ?_⟩
    rw [he, hm.1, hp]
  pop_len := by
    rintro l l' ⟨n, p⟩ h
    have := (pop_nodes h).2.2
    omega
  pop_stop := by
    rintro ⟨nodes⟩ e h
    change pop ⟨nodes⟩ = _ at h
    unfold pop at h
    split at h
    · obtain rfl := Except.error.inj h
      simp [listStops]
    · split at h <;> cases h

end Deque

/-! ## The ordered set -/

/-- The STL tree set, which pops the lowest ID first. -/
structure IdSet where
  nodes : Finset Nat

namespace IdSet

def pop (l : IdSet) : Run ((Nat × Nat) × IdSet) :=
  match ascending l.nodes with
  | [] => .error (.assertion "trying to pop empty worklist")
  | n :: _ => .ok ((n, 0), ⟨l.nodes.erase n⟩)

instance : Container IdSet where
  usesPrio := false
  create _ := ⟨∅⟩
  empty l := decide (l.nodes = ∅)
  push l n _ := .ok ⟨insert n l.nodes⟩
  pop := pop

theorem pop_nodes {l l' : IdSet} {n p : Nat} (h : l.pop = .ok ((n, p), l')) :
    p = 0 ∧ n ∈ l.nodes ∧ l'.nodes = l.nodes.erase n := by
  unfold pop at h
  cases ha : ascending l.nodes with
  | nil => rw [ha] at h; cases h
  | cons a as =>
      rw [ha] at h
      obtain ⟨⟨rfl, rfl⟩, rfl⟩ := by simpa using h
      exact ⟨rfl, mem_ascending.mp (by rw [ha]; exact List.mem_cons_self ..), rfl⟩

instance : LawfulContainer IdSet where
  Mem l n p := p = 0 ∧ n ∈ l.nodes
  len l := l.nodes.card
  empty_done := by
    rintro ⟨nodes⟩ n p he ⟨-, hm⟩
    rw [of_decide_eq_true he] at hm
    cases hm
  push_mem := by
    intro l l' n p h
    obtain rfl := Except.ok.inj h
    exact ⟨0, ⟨rfl, Finset.mem_insert_self ..⟩, fun hp => by cases hp⟩
  push_keeps := by
    intro l l' n p m q h _ hm
    obtain rfl := Except.ok.inj h
    exact ⟨hm.1, Finset.mem_insert_of_mem hm.2⟩
  push_len := by
    intro l l' n p h
    obtain rfl := Except.ok.inj h
    exact Finset.card_insert_le ..
  push_stop := fun h => by cases h
  pop_keeps := by
    intro l l' n p m q h hne hm
    obtain ⟨hp, -, hl⟩ := pop_nodes h
    refine ⟨hm.1, hl ▸ Finset.mem_erase.mpr ⟨fun he => hne ?_, hm.2⟩⟩
    rw [he, hm.1, hp]
  pop_len := by
    rintro l l' ⟨n, p⟩ h
    obtain ⟨-, hn, hl⟩ := pop_nodes h
    rw [hl]
    exact Finset.card_erase_lt_of_mem hn
  pop_stop := by
    intro l e h
    change pop l = _ at h
    unfold pop at h
    split at h
    · obtain rfl := Except.error.inj h
      simp [listStops]
    · cases h

end IdSet

/-! ## The priority heap -/

/-- A heap whose index is in order. -/
structure PrioHeap where
  heap : Heap
  indexed : heap.Indexed

namespace PrioHeap

def push (l : PrioHeap) (n p : Nat) : Run PrioHeap :=
  match h : l.heap.push n p with
  | .ok (hp, _) => .ok ⟨hp, (Heap.push_spec l.indexed h).1⟩
  | .error e => .error e

def pop (l : PrioHeap) : Run ((Nat × Nat) × PrioHeap) :=
  match h : l.heap.pop with
  | .ok ((n, p), hp) => .ok ((n, p), ⟨hp, (Heap.pop_spec l.indexed h).1⟩)
  | .error e => .error e

instance : Container PrioHeap where
  usesPrio := true
  create nn := ⟨Heap.new nn, Heap.new_indexed nn⟩
  empty l := l.heap.empty
  push := push
  pop := pop

theorem push_heap {l l' : PrioHeap} {n p : Nat} (h : l.push n p = .ok l') :
    ∃ b, l.heap.push n p = .ok (l'.heap, b) := by
  unfold push at h
  split at h
  · rename_i hp b heq
    obtain rfl := Except.ok.inj h
    exact ⟨b, heq⟩
  · cases h

theorem pop_heap {l l' : PrioHeap} {n p : Nat} (h : l.pop = .ok ((n, p), l')) :
    l.heap.pop = .ok ((n, p), l'.heap) := by
  unfold pop at h
  split at h
  · rename_i n' p' hp heq
    obtain ⟨⟨rfl, rfl⟩, rfl⟩ := by simpa using h
    exact heq
  · cases h

instance : LawfulContainer PrioHeap where
  Mem l n p := l.heap.Mem n p
  len l := l.heap.nv
  empty_done := by
    rintro l n p he ⟨i, h1, h2, -, -⟩
    have hnv : l.heap.nv = 0 := by simpa [Container.empty, Heap.empty] using he
    omega
  push_mem := by
    intro l l' n p h
    obtain ⟨b, hb⟩ := push_heap h
    exact ⟨p, (Heap.push_spec l.indexed hb).2.1, fun _ => rfl⟩
  push_keeps := by
    intro l l' n p m q h hne hm
    obtain ⟨b, hb⟩ := push_heap h
    exact (Heap.push_spec l.indexed hb).2.2.1 m q hne hm
  push_len := by
    intro l l' n p h
    obtain ⟨b, hb⟩ := push_heap h
    exact (Heap.push_spec l.indexed hb).2.2.2
  push_stop := by
    intro l n p e h
    change push l n p = _ at h
    unfold push at h
    split at h
    · cases h
    · rename_i e' heq
      obtain rfl := Except.error.inj h
      rcases Heap.push_stop heq with rfl | rfl <;> simp [listStops]
  pop_keeps := by
    intro l l' n p m q h hne hm
    exact (Heap.pop_spec l.indexed (pop_heap h)).2.2.1 m q hne hm
  pop_len := by
    rintro l l' ⟨n, p⟩ h
    have := (Heap.pop_spec l.indexed (pop_heap h)).2.2.2
    omega
  pop_stop := by
    intro l e h
    change pop l = _ at h
    unfold pop at h
    split at h
    · cases h
    · rename_i e' heq
      obtain rfl := Except.error.inj h
      simp [listStops, Heap.pop_stop heq]

end PrioHeap

/-! ## One list or two -/

/-- The current list, and with `dual` (`DUAL_WL`) the one for the next round. -/
structure Lists (dual : Bool) (L : Type) where
  curr : L
  next : L

namespace Lists

variable {dual : Bool} {L : Type} [Container L]

def push (w : Lists dual L) (n p : Nat) : Run (Lists dual L) := do
  if dual then return { w with next := ← Container.push w.next n p }
  else return { w with curr := ← Container.push w.curr n p }

def pop (w : Lists dual L) : Run ((Nat × Nat) × Lists dual L) := do
  let (e, curr) ← Container.pop w.curr
  return (e, { w with curr })

def swapIfEmpty (w : Lists dual L) : Bool × Lists dual L :=
  if dual then
    if Container.empty w.curr then (true, ⟨w.next, w.curr⟩) else (false, w)
  else (Container.empty w.curr, w)

instance : Worklist (Lists dual L) where
  usesPrio := Container.usesPrio L
  create nn := ⟨Container.create nn, Container.create nn⟩
  empty w := Container.empty w.curr
  swapIfEmpty := swapIfEmpty
  push := push
  pop := pop

theorem push_cases {w w' : Lists dual L} {n p : Nat} (h : w.push n p = .ok w') :
    (dual = true ∧ ∃ l, Container.push w.next n p = .ok l ∧ w' = { w with next := l }) ∨
    (dual = false ∧ ∃ l, Container.push w.curr n p = .ok l ∧ w' = { w with curr := l }) := by
  unfold push at h
  cases dual with
  | true =>
      rw [if_pos rfl, bind_ok] at h
      obtain ⟨l, hl, h⟩ := h
      exact .inl ⟨rfl, l, hl, (Except.ok.inj h).symm⟩
  | false =>
      rw [if_neg (by decide), bind_ok] at h
      obtain ⟨l, hl, h⟩ := h
      exact .inr ⟨rfl, l, hl, (Except.ok.inj h).symm⟩

theorem pop_ok {w w' : Lists dual L} {e : Nat × Nat} (h : w.pop = .ok (e, w')) :
    ∃ l, Container.pop w.curr = .ok (e, l) ∧ w' = { w with curr := l } := by
  unfold pop at h
  rw [bind_ok] at h
  obtain ⟨⟨e', l⟩, hl, h⟩ := h
  obtain ⟨rfl, rfl⟩ := by simpa using h
  exact ⟨l, hl, rfl⟩

/-- The two lists are exchanged only when the current one is empty. -/
theorem swap_cases (w : Lists dual L) :
    (dual = true ∧ Container.empty w.curr = true ∧ w.swapIfEmpty = (true, ⟨w.next, w.curr⟩)) ∨
    (w.swapIfEmpty = (Container.empty w.curr, w)
      ∧ (dual = true → Container.empty w.curr = false)) := by
  unfold swapIfEmpty
  cases dual <;> cases he : Container.empty w.curr <;> simp

variable [LawfulContainer L]

open LawfulContainer in
instance : LawfulWorklist (Lists dual L) where
  Mem w n p := Mem w.curr n p ∨ (dual = true ∧ Mem w.next n p)
  len w := len w.curr + len w.next
  push_mem := by
    intro w w' n p h
    rcases push_cases h with ⟨hd, l, hl, rfl⟩ | ⟨hd, l, hl, rfl⟩
    · obtain ⟨q, hq, hp⟩ := push_mem hl
      exact ⟨q, .inr ⟨hd, hq⟩, hp⟩
    · obtain ⟨q, hq, hp⟩ := push_mem hl
      exact ⟨q, .inl hq, hp⟩
  push_keeps := by
    intro w w' n p m q h hne hm
    rcases push_cases h with ⟨hd, l, hl, rfl⟩ | ⟨hd, l, hl, rfl⟩
    · exact hm.imp id fun hm => ⟨hd, push_keeps hl hne hm.2⟩
    · exact hm.imp (push_keeps hl hne) id
  push_len := by
    intro w w' n p h
    rcases push_cases h with ⟨-, l, hl, rfl⟩ | ⟨-, l, hl, rfl⟩ <;>
    · have := push_len hl
      dsimp only
      omega
  push_stop := by
    intro w n p e h
    change push w n p = _ at h
    unfold push at h
    cases dual with
    | true => exact push_stop (bind_ok_error h)
    | false => exact push_stop (bind_ok_error h)
  pop_keeps := by
    intro w w' n p m q h hne hm
    obtain ⟨l, hl, rfl⟩ := pop_ok h
    exact hm.imp (pop_keeps hl hne) id
  pop_len := by
    intro w w' e h
    obtain ⟨l, hl, rfl⟩ := pop_ok h
    exact Nat.add_lt_add_right (pop_len hl) _
  pop_stop := fun h => pop_stop (bind_ok_error h)
  swap_mem := by
    intro w n p
    rcases swap_cases w with ⟨hd, he, hs⟩ | ⟨hs, -⟩
    · rw [show Worklist.swapIfEmpty w = (true, ⟨w.next, w.curr⟩) from hs]
      simp [hd, empty_done (n := n) (p := p) he]
    · rw [show Worklist.swapIfEmpty w = _ from hs]
  swap_len := by
    intro w
    rcases swap_cases w with ⟨-, -, hs⟩ | ⟨hs, -⟩
    · rw [show Worklist.swapIfEmpty w = (true, ⟨w.next, w.curr⟩) from hs]
      exact Nat.add_comm ..
    · rw [show Worklist.swapIfEmpty w = _ from hs]
  swap_done := by
    intro w n p hsw hem
    rcases swap_cases w with ⟨-, he, hs⟩ | ⟨hs, hd⟩
    · rw [show Worklist.swapIfEmpty w = (true, ⟨w.next, w.curr⟩) from hs] at hem
      rintro (hm | ⟨-, hm⟩)
      · exact empty_done he hm
      · exact empty_done hem hm
    · rw [show Worklist.swapIfEmpty w = _ from hs] at hsw
      rintro (hm | ⟨hdual, -⟩)
      · exact empty_done hsw hm
      · exact absurd hsw (by simp [hd hdual])

end Lists

end PtrAnalysis
