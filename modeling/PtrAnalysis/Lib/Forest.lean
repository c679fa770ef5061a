import Mathlib.Data.Nat.Basic
import Mathlib.Logic.Function.Basic

/-!
# Union-find forests with union by rank

A forest over the natural numbers: every element carries either its rank (it
represents its set) or the number of another element of the same set. The
structure carries the proof that following the links ends, so `find` is total
and every forest that can be built is a valid one.

`find` is computed by following links; the number of unions made so far bounds
how far a root can be. `find_compress` says that path compression - pointing an
element straight at its root - changes no answer.
-/

namespace PtrAnalysis

/-- The link of one element: its rank at a root, its parent elsewhere. -/
inductive Link where
  | rank (r : Nat)
  | parent (p : Nat)
  deriving DecidableEq, Repr

structure Forest where
  link : Nat → Link
  /-- How many unions were made; no element is deeper than this. -/
  unions : Nat
  shallow : ∃ depth : Nat → Nat, (∀ n, depth n ≤ unions)
    ∧ ∀ n p, link n = .parent p → depth p < depth n

namespace Forest

/-- Every element on its own, with rank 0. -/
def discrete : Forest where
  link := fun _ => .rank 0
  unions := 0
  shallow := ⟨fun _ => 0, fun _ => Nat.le_refl 0, fun _ _ h => by cases h⟩

def isRep (f : Forest) (n : Nat) : Bool :=
  match f.link n with
  | .rank _ => true
  | .parent _ => false

def rank (f : Forest) (n : Nat) : Nat :=
  match f.link n with
  | .rank r => r
  | .parent _ => 0

/-- Follow at most `k` links. -/
def climb (link : Nat → Link) : Nat → Nat → Nat
  | 0, n => n
  | k + 1, n =>
    match link n with
    | .rank _ => n
    | .parent p => climb link k p

/-- The representative of the set of `n`. -/
def find (f : Forest) (n : Nat) : Nat := climb f.link f.unions n

/-! ## Climbing -/

theorem climb_of_rank {link : Nat → Link} {n r : Nat} (h : link n = .rank r) :
    ∀ k, climb link k n = n
  | 0 => rfl
  | k + 1 => by rw [climb, h]

theorem climb_root {link : Nat → Link} {depth : Nat → Nat}
    (hd : ∀ n p, link n = .parent p → depth p < depth n) :
    ∀ {k n : Nat}, depth n ≤ k → ∃ r, link (climb link k n) = .rank r
  | 0, n, hk => by
      cases hl : link n with
      | rank r => exact ⟨r, hl⟩
      | parent p =>
          have := hd n p hl
          omega
  | k + 1, n, hk => by
      cases hl : link n with
      | rank r => exact ⟨r, by rw [climb_of_rank hl]; exact hl⟩
      | parent p =>
          have := hd n p hl
          rw [climb, hl]
          exact climb_root hd (by omega)

theorem climb_enough {link : Nat → Link} {depth : Nat → Nat}
    (hd : ∀ n p, link n = .parent p → depth p < depth n) :
    ∀ {k m n : Nat}, depth n ≤ k → depth n ≤ m → climb link k n = climb link m n
  | 0, m, n, hk, _ => by
      cases hl : link n with
      | rank r => rw [climb_of_rank hl, climb_of_rank hl]
      | parent p =>
          have := hd n p hl
          omega
  | k + 1, 0, n, _, hm => by
      cases hl : link n with
      | rank r => rw [climb_of_rank hl, climb_of_rank hl]
      | parent p =>
          have := hd n p hl
          omega
  | k + 1, m + 1, n, hk, hm => by
      cases hl : link n with
      | rank r => rw [climb_of_rank hl, climb_of_rank hl]
      | parent p =>
          have := hd n p hl
          rw [climb, climb, hl]
          exact climb_enough hd (by omega) (by omega)

/-! ## Representatives -/

theorem isRep_iff {f : Forest} {n : Nat} :
    f.isRep n = true ↔ ∃ r, f.link n = .rank r := by
  unfold isRep
  cases f.link n <;> simp

theorem not_isRep_iff {f : Forest} {n : Nat} :
    f.isRep n = false ↔ ∃ p, f.link n = .parent p := by
  unfold isRep
  cases f.link n <;> simp

theorem find_of_isRep {f : Forest} {n : Nat} (h : f.isRep n = true) :
    f.find n = n := by
  obtain ⟨r, hr⟩ := isRep_iff.mp h
  exact climb_of_rank hr _

theorem isRep_find (f : Forest) (n : Nat) : f.isRep (f.find n) = true := by
  obtain ⟨depth, hle, hd⟩ := f.shallow
  exact isRep_iff.mpr (climb_root hd (hle n))

@[simp] theorem find_find (f : Forest) (n : Nat) : f.find (f.find n) = f.find n :=
  find_of_isRep (isRep_find f n)

theorem find_eq_self {f : Forest} {n : Nat} : f.find n = n ↔ f.isRep n = true :=
  ⟨fun h => h ▸ isRep_find f n, find_of_isRep⟩

theorem find_parent {f : Forest} {n p : Nat} (h : f.link n = .parent p) :
    f.find n = f.find p := by
  obtain ⟨depth, hle, hd⟩ := f.shallow
  have hp := hd n p h
  have hn := hle n
  unfold find
  obtain ⟨k, hk⟩ : ∃ k, f.unions = k + 1 := ⟨f.unions - 1, by omega⟩
  rw [hk, climb, h]
  exact climb_enough hd (by omega) (by omega)

/-- A map that is constant along links and the identity at roots is `find`. -/
theorem find_unique {f : Forest} {g : Nat → Nat}
    (hroot : ∀ n r, f.link n = .rank r → g n = n)
    (hstep : ∀ n p, f.link n = .parent p → g n = g p) (n : Nat) :
    f.find n = g n := by
  obtain ⟨depth, hle, hd⟩ := f.shallow
  have key : ∀ k n, g (climb f.link k n) = g n := by
    intro k
    induction k with
    | zero => intro n; rfl
    | succ k ih =>
        intro n
        rw [climb]
        cases hl : f.link n with
        | rank r => rfl
        | parent p => exact (ih p).trans (hstep n p hl).symm
  obtain ⟨r, hr⟩ := isRep_iff.mp (isRep_find f n)
  rw [← key f.unions n]
  exact (hroot _ r hr).symm

/-! ## Joining two sets -/

/-- The links after element `b` was put under `a`; a tie raises the rank of
`a`. -/
def joinLink (f : Forest) (a b n : Nat) : Link :=
  if n = b then .parent a
  else if n = a then .rank (if f.rank a = f.rank b then f.rank a + 1 else f.rank a)
  else f.link n

/-- Put the root `b` under the root `a`. On anything but two different roots
the forest stays as it is. -/
def join (f : Forest) (a b : Nat) : Forest :=
  if h : f.isRep a = true ∧ f.isRep b = true ∧ a ≠ b then
    { link := f.joinLink a b
      unions := f.unions + 1
      shallow := by
        obtain ⟨ha, hb, hab⟩ := h
        obtain ⟨depth, hle, hd⟩ := f.shallow
        -- the set of `b` sinks below everything that was there before
        refine ⟨fun n => if n = a then 0 else
          if f.find n = b then depth n + 1 else depth n, fun n => ?_, fun n p hp => ?_⟩
        · have := hle n
          dsimp only
          split
          · omega
          · split <;> omega
        · unfold joinLink at hp
          dsimp only
          by_cases hnb : n = b
          · rw [if_pos hnb] at hp
            obtain rfl := Link.parent.inj hp
            rw [if_pos rfl, if_neg (by rw [hnb]; exact fun h => hab h.symm),
              if_pos (by rw [hnb]; exact find_of_isRep hb)]
            omega
          · rw [if_neg hnb] at hp
            by_cases hna : n = a
            · rw [if_pos hna] at hp
              cases hp
            · rw [if_neg hna] at hp
              have hlt := hd n p hp
              rw [if_neg hna, find_parent hp]
              split
              · split <;> omega
              · split <;> omega }
  else f

section Join

variable {f : Forest} {a b : Nat}

theorem join_link (ha : f.isRep a = true) (hb : f.isRep b = true) (hab : a ≠ b)
    (n : Nat) : (f.join a b).link n = f.joinLink a b n := by
  rw [join, dif_pos ⟨ha, hb, hab⟩]

theorem isRep_join (ha : f.isRep a = true) (hb : f.isRep b = true) (hab : a ≠ b)
    (n : Nat) : (f.join a b).isRep n = true ↔ f.isRep n = true ∧ n ≠ b := by
  rw [isRep_iff, join_link ha hb hab, joinLink]
  by_cases hnb : n = b
  · simp [hnb]
  · by_cases hna : n = a
    · simp [hna, hab, ha]
    · simp [hnb, hna, isRep_iff]

theorem find_join (ha : f.isRep a = true) (hb : f.isRep b = true) (hab : a ≠ b)
    (n : Nat) : (f.join a b).find n = if f.find n = b then a else f.find n := by
  refine find_unique (g := fun n => if f.find n = b then a else f.find n)
    (fun n r hr => ?_) (fun n p hp => ?_) n
  · have hrep : (f.join a b).isRep n = true := isRep_iff.mpr ⟨r, hr⟩
    obtain ⟨hn, hnb⟩ := (isRep_join ha hb hab n).mp hrep
    simp only [find_of_isRep hn, if_neg hnb]
  · rw [join_link ha hb hab, joinLink] at hp
    by_cases hnb : n = b
    · rw [if_pos hnb] at hp
      obtain rfl := Link.parent.inj hp
      simp only [hnb, find_of_isRep hb, find_of_isRep ha, if_true, if_neg hab]
    · rw [if_neg hnb] at hp
      by_cases hna : n = a
      · rw [if_pos hna] at hp
        cases hp
      · rw [if_neg hna] at hp
        simp only [find_parent hp]

end Join

/-! ## Path compression -/

/-- Point `n` straight at its representative, as a lookup does on its way. -/
def compress (f : Forest) (n : Nat) : Forest where
  link := fun m => if m = n ∧ f.isRep n = false then .parent (f.find n) else f.link m
  unions := f.unions
  shallow := by
    obtain ⟨depth, hle, hd⟩ := f.shallow
    refine ⟨fun m => if f.isRep m = true then 0 else depth m, fun m => ?_, fun m p hp => ?_⟩
    · dsimp only
      split
      · exact Nat.zero_le _
      · exact hle m
    · have hpos : ∀ x, f.isRep x = false → 0 < depth x := fun x hx => by
        obtain ⟨q, hq⟩ := not_isRep_iff.mp hx
        exact Nat.lt_of_le_of_lt (Nat.zero_le _) (hd x q hq)
      dsimp only at hp ⊢
      by_cases hc : m = n ∧ f.isRep n = false
      · rw [if_pos hc] at hp
        obtain rfl := Link.parent.inj hp
        have hm : f.isRep m = false := hc.1 ▸ hc.2
        rw [if_pos (isRep_find f n), if_neg (by simp [hm])]
        exact hpos m hm
      · rw [if_neg hc] at hp
        have hm : f.isRep m = false := not_isRep_iff.mpr ⟨p, hp⟩
        rw [if_neg (by simp [hm] : ¬ f.isRep m = true)]
        split
        · exact hpos m hm
        · exact hd m p hp

theorem find_compress (f : Forest) (n m : Nat) : (f.compress n).find m = f.find m := by
  refine find_unique (g := f.find) (fun m r hr => ?_) (fun m p hp => ?_) m
  · simp only [compress] at hr
    split at hr
    · cases hr
    · exact find_of_isRep (isRep_iff.mpr ⟨r, hr⟩)
  · simp only [compress] at hp
    split at hp
    · rename_i h
      obtain rfl := Link.parent.inj hp
      rw [h.1, find_find]
    · exact find_parent hp

end Forest

end PtrAnalysis
