import Mathlib.Data.Finset.Lattice.Fold
import Mathlib.Data.Finset.Lattice.Lemmas
import Mathlib.Order.Lattice.Nat

/-!
# Walking a finite set of numbers

Bit vectors and decision diagrams over numbers are modelled by `Finset Nat`.
The code walks them in increasing order; `ascending` is that order as a list.

`BitIter` is the cursor of a sparse bit vector that may change while it is
walked: it reads one machine word at a time, so it still delivers the bits of
the word it has loaded and sees changes only in what lies behind that word.
-/

namespace PtrAnalysis

/-- The members of `s` in increasing order. -/
def ascending (s : Finset Nat) : List Nat :=
  (List.range (s.sup id + 1)).filter (· ∈ s)

@[simp] theorem mem_ascending {s : Finset Nat} {x : Nat} :
    x ∈ ascending s ↔ x ∈ s := by
  simp only [ascending, List.mem_filter, List.mem_range, decide_eq_true_eq]
  constructor
  · exact fun h => h.2
  · intro hx
    have : x ≤ s.sup id := Finset.le_sup (f := id) hx
    exact ⟨by omega, hx⟩

theorem ascending_sorted (s : Finset Nat) : (ascending s).Pairwise (· < ·) :=
  List.Pairwise.sublist List.filter_sublist List.pairwise_lt_range

theorem ascending_nodup (s : Finset Nat) : (ascending s).Nodup :=
  (ascending_sorted s).imp fun h => Nat.ne_of_lt h

theorem ascending_length (s : Finset Nat) : (ascending s).length = s.card := by
  have heq : (ascending s).toFinset = s := by
    ext x
    rw [List.mem_toFinset, mem_ascending]
  rw [← List.toFinset_card_of_nodup (ascending_nodup s), heq]

@[simp] theorem ascending_empty : ascending ∅ = [] := by
  refine List.eq_nil_iff_forall_not_mem.mpr fun x hx => ?_
  simp at hx

theorem ascending_singleton (x : Nat) : ascending {x} = [x] := by
  have hlen := ascending_length {x}
  rw [Finset.card_singleton] at hlen
  obtain ⟨y, hy⟩ := List.length_eq_one_iff.mp hlen
  have hmem : y ∈ ascending {x} := by simp [hy]
  rw [hy, Finset.mem_singleton.mp (mem_ascending.mp hmem)]

/-- A loop over a range has processed as many elements as its current one. -/
theorem range_split {n a : Nat} {done rest : List Nat} (h : List.range n = done ++ a :: rest) :
    a = done.length := by
  have hlen := congrArg List.length h
  rw [List.length_range, List.length_append, List.length_cons] at hlen
  have hget := congrArg (fun l => l[done.length]?) h
  rw [List.getElem?_range (by omega), List.getElem?_append_right (Nat.le_refl _), Nat.sub_self] at hget
  exact (Option.some.inj hget).symm

/-- The least member of `s` that is at least `k`. -/
def nextFrom (s : Finset Nat) (k : Nat) : Option Nat :=
  (ascending s).find? (k ≤ ·)

theorem nextFrom_some {s : Finset Nat} {k x : Nat} (h : nextFrom s k = some x) :
    x ∈ s ∧ k ≤ x := by
  have hp := List.find?_some h
  exact ⟨mem_ascending.mp (List.mem_of_find?_eq_some h), by simpa using hp⟩

/-! ## The cursor of a bit vector -/

/-- Bits in a machine word of a sparse bit vector. -/
def wordBits : Nat := 64

/-- A cursor: the next position to look at, and the bits of the loaded word
that were not delivered yet. -/
structure BitIter where
  pos : Nat
  loaded : List Nat
  deriving Repr

def BitIter.start : BitIter := ⟨0, []⟩

/-- The next bit and the cursor behind it, reading `live` only when the loaded
word is used up. -/
def BitIter.next (live : Finset Nat) (it : BitIter) : Option (Nat × BitIter) :=
  match it.loaded with
  | b :: rest => some (b, ⟨b + 1, rest⟩)
  | [] =>
    match nextFrom live it.pos with
    | none => none
    | some b =>
      some (b, ⟨b + 1, (ascending live).filter fun c => b < c ∧ c / wordBits = b / wordBits⟩)

/-- The loaded bits are in order, lie ahead and satisfy `V`. -/
structure BitIter.Ahead (V : Nat → Prop) (it : BitIter) : Prop where
  sorted : it.loaded.Pairwise (· < ·)
  ahead : ∀ b ∈ it.loaded, it.pos ≤ b
  valid : ∀ b ∈ it.loaded, V b

theorem BitIter.start_ahead (V : Nat → Prop) : BitIter.start.Ahead V where
  sorted := .nil
  ahead _ h := by simp [start] at h
  valid _ h := by simp [start] at h

/-- Every bit delivered satisfies `V`, if the bits of the live set and the loaded
ones do, and the cursor moves past it. -/
theorem BitIter.Ahead.next {V : Nat → Prop} {live : Finset Nat} {it it' : BitIter} {b : Nat}
    (h : it.Ahead V) (hlive : ∀ c ∈ live, V c) (hn : it.next live = some (b, it')) :
    V b ∧ it.pos ≤ b ∧ it'.pos = b + 1 ∧ it'.Ahead V := by
  unfold BitIter.next at hn
  split at hn
  · rename_i c rest hl
    obtain ⟨rfl, rfl⟩ := by simpa using hn
    have hs := h.sorted
    have ha := h.ahead
    have hv := h.valid
    rw [hl] at hs ha hv
    refine ⟨hv c (List.mem_cons_self ..), ha c (List.mem_cons_self ..), rfl, (List.pairwise_cons.mp hs).2,
      fun x hx => (List.pairwise_cons.mp hs).1 x hx, fun x hx => hv x (List.mem_cons_of_mem _ hx)⟩
  · split at hn
    · cases hn
    · rename_i c hc
      obtain ⟨rfl, rfl⟩ := by simpa using hn
      obtain ⟨hmem, hpos⟩ := nextFrom_some hc
      refine ⟨hlive c hmem, hpos, rfl, (ascending_sorted live).filter _, fun x hx => ?_,
        fun x hx => hlive x (mem_ascending.mp (List.mem_filter.mp hx).1)⟩
      have := (List.mem_filter.mp hx).2
      simp only [Bool.and_eq_true, decide_eq_true_eq] at this
      exact this.1

/-- The cursor walks `s`, which stays as it is: the loaded bits are the next ones. -/
structure BitIter.Over (s : Finset Nat) (it : BitIter) : Prop where
  sorted : it.loaded.Pairwise (· < ·)
  ahead : ∀ b ∈ it.loaded, b ∈ s ∧ it.pos ≤ b
  next : ∀ c ∈ s, it.pos ≤ c → c ∈ it.loaded ∨ ∀ b ∈ it.loaded, b < c

theorem BitIter.start_over (s : Finset Nat) : BitIter.start.Over s where
  sorted := .nil
  ahead _ h := by simp [start] at h
  next _ _ _ := .inr fun _ h => by simp [start] at h

theorem nextFrom_none {s : Finset Nat} {k : Nat} (h : nextFrom s k = none) : ∀ c ∈ s, c < k := by
  intro c hc
  have hno := List.find?_eq_none.mp h c (mem_ascending.mpr hc)
  simpa using hno

/-- Nothing of `s` from `k` on lies before the next member. -/
theorem nextFrom_least {s : Finset Nat} {k b c : Nat} (h : nextFrom s k = some b) (hc : c ∈ s)
    (hkc : k ≤ c) : b ≤ c := by
  obtain ⟨as, bs, hsplit, hbefore⟩ := (List.find?_eq_some_iff_append.mp h).2
  have hmem : c ∈ as ++ b :: bs := hsplit ▸ mem_ascending.mpr hc
  rcases List.mem_append.mp hmem with hc' | hc'
  · have := hbefore c hc'
    simp only [Bool.not_eq_true', decide_eq_false_iff_not] at this
    exact absurd hkc this
  · have hsorted := ascending_sorted s
    rw [hsplit] at hsorted
    rcases List.mem_cons.mp hc' with rfl | hc'
    · exact Nat.le_refl _
    · exact Nat.le_of_lt ((List.pairwise_cons.mp (List.pairwise_append.mp hsorted).2.1).1 c hc')

theorem nextFrom_eq_none {s : Finset Nat} {k : Nat} (h : ∀ c ∈ s, c < k) : nextFrom s k = none := by
  cases hn : nextFrom s k with
  | none => rfl
  | some x =>
      obtain ⟨hx, hkx⟩ := nextFrom_some hn
      exact absurd (h x hx) (Nat.not_lt.mpr hkx)

theorem nextFrom_eq_some {s : Finset Nat} {k x : Nat} (hx : x ∈ s) (hkx : k ≤ x)
    (hleast : ∀ c ∈ s, k ≤ c → x ≤ c) : nextFrom s k = some x := by
  cases hn : nextFrom s k with
  | none => exact absurd (nextFrom_none hn x hx) (Nat.not_lt.mpr hkx)
  | some y =>
      obtain ⟨hy, hky⟩ := nextFrom_some hn
      exact congrArg some (Nat.le_antisymm (nextFrom_least hn hx hkx) (hleast y hy hky))

/-- A walk that ends has delivered all of `s`. -/
theorem BitIter.Over.finished {s : Finset Nat} {it : BitIter} (h : it.next s = none) :
    ∀ c ∈ s, c < it.pos := by
  unfold BitIter.next at h
  split at h
  · cases h
  · split at h
    · rename_i hnone
      exact nextFrom_none hnone
    · cases h

/-- The cursor delivers the least member of `s` ahead of it. -/
theorem BitIter.Over.step {s : Finset Nat} {it it' : BitIter} {b : Nat} (h : it.Over s)
    (hn : it.next s = some (b, it')) :
    b ∈ s ∧ it'.Over s ∧ ∀ c ∈ s, c < it'.pos → c = b ∨ c < it.pos := by
  unfold BitIter.next at hn
  split at hn
  · rename_i d rest hl
    obtain ⟨rfl, rfl⟩ := by simpa using hn
    obtain ⟨hsorted, hahead, hnext⟩ := h
    rw [hl] at hsorted hahead hnext
    have hlt := (List.pairwise_cons.mp hsorted).1
    refine ⟨(hahead d List.mem_cons_self).1, ⟨(List.pairwise_cons.mp hsorted).2, ?_, ?_⟩, ?_⟩
    · exact fun b hb => ⟨(hahead b (List.mem_cons_of_mem _ hb)).1, hlt b hb⟩
    · intro c hc hdc
      have hle : it.pos ≤ c :=
        Nat.le_trans (hahead d List.mem_cons_self).2 (Nat.le_of_succ_le hdc)
      refine (hnext c hc hle).imp (fun hin => ?_) fun hall b hb => hall b (List.mem_cons_of_mem _ hb)
      exact (List.mem_cons.mp hin).resolve_left (Nat.ne_of_gt hdc)
    · intro c hc hcd
      by_cases hpos : it.pos ≤ c
      · rcases hnext c hc hpos with hin | hall
        · rcases List.mem_cons.mp hin with rfl | hin
          · exact .inl rfl
          · exact absurd (hlt c hin) (by simp at hcd; omega)
        · exact absurd (hall d List.mem_cons_self) (by simp at hcd; omega)
      · exact .inr (Nat.lt_of_not_le hpos)
  · split at hn
    · cases hn
    · rename_i hl _ d hd
      obtain ⟨rfl, rfl⟩ := by simpa using hn
      obtain ⟨hmem, hpos⟩ := nextFrom_some hd
      refine ⟨hmem, ⟨(ascending_sorted s).filter _, ?_, ?_⟩, ?_⟩
      · intro b hb
        obtain ⟨hbs, hword⟩ := List.mem_filter.mp hb
        simp only [Bool.and_eq_true, decide_eq_true_eq] at hword
        exact ⟨mem_ascending.mp hbs, hword.1⟩
      · intro c hc hdc
        simp only [List.mem_filter, mem_ascending, Bool.and_eq_true, decide_eq_true_eq] at *
        by_cases hword : c / wordBits = d / wordBits
        · exact .inl ⟨hc, hdc, hword⟩
        · refine .inr fun b hb => ?_
          -- `c` lies behind the word that was loaded
          have hdiv : d / wordBits ≤ c / wordBits := Nat.div_le_div_right (Nat.le_of_lt hdc)
          refine Nat.lt_of_not_le fun hcb => ?_
          have := Nat.div_le_div_right (c := wordBits) hcb
          omega
      · intro c hc hcd
        by_cases hle : it.pos ≤ c
        · have := nextFrom_least hd hc hle
          simp only at hcd
          exact .inl (by omega)
        · exact .inr (Nat.lt_of_not_le hle)

end PtrAnalysis
