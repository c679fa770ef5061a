import Mathlib.Logic.Function.Basic
import PtrAnalysis.Lib.Run

/-!
# The priority heap

`heap.h`: a binary min-heap of keys with a value at each key and the position
of every value. Positions start at 1; `hk`, `hv` are meant on `1 … nv`, which is
also what the two vectors hold.

`Indexed` is the invariant of the three arrays, kept by every operation; under
it a heap is a finite set of entries `(value, key)` with one entry per value,
and `push` and `pop` do to that set what their names say.
-/

namespace PtrAnalysis

structure Heap where
  hk : Nat → Nat
  hv : Nat → Nat
  maxv : Nat
  nv : Nat
  idxv : Nat → Option Nat

namespace Heap

open Run

/-- The constructor: an empty heap for values up to `mv`. -/
def new (mv : Nat) : Heap :=
  { hk := fun _ => 0, hv := fun _ => 0, maxv := mv, nv := 0, idxv := fun _ => none }

def empty (h : Heap) : Bool := h.nv == 0

/-- Swap key and value of two positions, and the values' indices. -/
def exchange (h : Heap) (i j : Nat) : Heap :=
  { h with
    hk := Function.update (Function.update h.hk i (h.hk j)) j (h.hk i)
    hv := Function.update (Function.update h.hv i (h.hv j)) j (h.hv i)
    idxv := Function.update (Function.update h.idxv (h.hv i) (some j)) (h.hv j) (some i) }

/-- Percolate up from position `i`; `i` steps are always enough. -/
def percUp : Nat → Heap → Nat → Heap
  | 0, h, _ => h
  | steps + 1, h, i =>
    let ip := i / 2
    if ip = 0 then h
    else if h.hk ip ≤ h.hk i then h
    else percUp steps (h.exchange i ip) ip

/-- The child of `i` with the smaller key, the left one on a tie. -/
def minChild (h : Heap) (i : Nat) : Nat :=
  if i * 2 < h.nv ∧ h.hk (i * 2 + 1) < h.hk (i * 2) then i * 2 + 1 else i * 2

/-- Percolate down from position `i`; `nv` steps are always enough. -/
def percDn : Nat → Heap → Nat → Heap
  | 0, h, _ => h
  | steps + 1, h, i =>
    if i * 2 > h.nv then h
    else if h.hk (h.minChild i) ≥ h.hk i then h
    else percDn steps (h.exchange i (h.minChild i)) (h.minChild i)

/-- Insert value `v` with key `k`, or change its key; returns whether it was
there before. -/
def push (h : Heap) (v k : Nat) : Run (Heap × Bool) := do
  require (v ≤ h.maxv) "v <= maxv"
  match h.idxv v with
  | none =>
      let h := { h with
        hk := Function.update h.hk (h.nv + 1) k
        hv := Function.update h.hv (h.nv + 1) v
        nv := h.nv + 1
        idxv := Function.update h.idxv v (some (h.nv + 1)) }
      return (percUp h.nv h h.nv, false)
  | some i =>
      require (i ≤ h.nv) "i <= nv"
      let pk := h.hk i
      if k = pk then return (h, true)
      let h := { h with hk := Function.update h.hk i k }
      if k < pk then return (percUp i h i, true)
      return (percDn h.nv h i, true)

/-- Delete and return the minimum as `(value, key)`. -/
def pop (h : Heap) : Run ((Nat × Nat) × Heap) := do
  require (h.nv ≠ 0) "nv"
  let k := h.hk 1
  let v := h.hv 1
  let h := { h with idxv := Function.update h.idxv v none, nv := h.nv - 1 }
  if h.nv ≠ 0 then
    let lv := h.hv (h.nv + 1)
    let h := { h with
      hk := Function.update h.hk 1 (h.hk (h.nv + 1))
      hv := Function.update h.hv 1 lv
      idxv := Function.update h.idxv lv (some 1) }
    return ((v, k), percDn h.nv h 1)
  return ((v, k), h)

/-! ## The invariant of the index -/

/-- `idxv` is the inverse of `hv` on the occupied positions. -/
structure Indexed (h : Heap) : Prop where
  at_index : ∀ {v i}, h.idxv v = some i → 1 ≤ i ∧ i ≤ h.nv ∧ h.hv i = v
  index_at : ∀ {i}, 1 ≤ i → i ≤ h.nv → h.idxv (h.hv i) = some i

theorem new_indexed (mv : Nat) : (new mv).Indexed where
  at_index := fun h => by simp [new] at h
  index_at := fun h1 h2 => by simp [new] at h2; omega

/-- The entries of a heap: values with their keys. -/
def Mem (h : Heap) (v k : Nat) : Prop :=
  ∃ i, 1 ≤ i ∧ i ≤ h.nv ∧ h.hv i = v ∧ h.hk i = k

theorem Indexed.inj {h : Heap} (hh : h.Indexed) {i j : Nat} (hi : 1 ≤ i ∧ i ≤ h.nv)
    (hj : 1 ≤ j ∧ j ≤ h.nv) (hv : h.hv i = h.hv j) : i = j := by
  have h1 := hh.index_at hi.1 hi.2
  rw [hv, hh.index_at hj.1 hj.2] at h1
  exact (Option.some.inj h1).symm

/-! ## Exchanging two positions -/

section Exchange

variable {h : Heap} {i j : Nat}

@[simp] theorem exchange_nv : (h.exchange i j).nv = h.nv := rfl

@[simp] theorem exchange_maxv : (h.exchange i j).maxv = h.maxv := rfl

theorem exchange_hv (m : Nat) : (h.exchange i j).hv m =
    if m = j then h.hv i else if m = i then h.hv j else h.hv m := by
  simp only [exchange, Function.update_apply]

theorem exchange_hk (m : Nat) : (h.exchange i j).hk m =
    if m = j then h.hk i else if m = i then h.hk j else h.hk m := by
  simp only [exchange, Function.update_apply]

theorem exchange_idxv (v : Nat) : (h.exchange i j).idxv v =
    if v = h.hv j then some i else if v = h.hv i then some j else h.idxv v := by
  simp only [exchange, Function.update_apply]

theorem exchange_indexed (hh : h.Indexed) (hi : 1 ≤ i ∧ i ≤ h.nv)
    (hj : 1 ≤ j ∧ j ≤ h.nv) : (h.exchange i j).Indexed where
  at_index := by
    intro v m hm
    rw [exchange_idxv] at hm
    rw [exchange_hv, exchange_nv]
    by_cases hvj : v = h.hv j
    · rw [if_pos hvj] at hm
      obtain rfl := Option.some.inj hm
      refine ⟨hi.1, hi.2, ?_⟩
      by_cases hij : i = j
      · rw [if_pos hij, hvj, hij]
      · rw [if_neg hij, if_pos rfl, hvj]
    · rw [if_neg hvj] at hm
      by_cases hvi : v = h.hv i
      · rw [if_pos hvi] at hm
        obtain rfl := Option.some.inj hm
        exact ⟨hj.1, hj.2, by rw [if_pos rfl, hvi]⟩
      · rw [if_neg hvi] at hm
        obtain ⟨h1, h2, h3⟩ := hh.at_index hm
        have hmj : m ≠ j := fun h => hvj (by rw [← h3, h])
        have hmi : m ≠ i := fun h => hvi (by rw [← h3, h])
        exact ⟨h1, h2, by rw [if_neg hmj, if_neg hmi, h3]⟩
  index_at := by
    intro m h1 h2
    rw [exchange_nv] at h2
    rw [exchange_hv, exchange_idxv]
    by_cases hmj : m = j
    · rw [if_pos hmj]
      by_cases hvv : h.hv i = h.hv j
      · rw [if_pos hvv, hh.inj hi hj hvv, hmj]
      · rw [if_neg hvv, if_pos rfl, hmj]
    · rw [if_neg hmj]
      by_cases hmi : m = i
      · rw [if_pos hmi, if_pos rfl, hmi]
      · rw [if_neg hmi, if_neg (fun h => hmj (hh.inj ⟨h1, h2⟩ hj h)),
          if_neg (fun h => hmi (hh.inj ⟨h1, h2⟩ hi h))]
        exact hh.index_at h1 h2

theorem exchange_mem (hi : 1 ≤ i ∧ i ≤ h.nv) (hj : 1 ≤ j ∧ j ≤ h.nv) {v k : Nat}
    (hm : h.Mem v k) : (h.exchange i j).Mem v k := by
  obtain ⟨m, h1, h2, hv, hk⟩ := hm
  by_cases hmi : m = i
  · subst hmi
    exact ⟨j, hj.1, hj.2, by rw [exchange_hv, if_pos rfl, hv],
      by rw [exchange_hk, if_pos rfl, hk]⟩
  · by_cases hmj : m = j
    · subst hmj
      exact ⟨i, hi.1, hi.2, by rw [exchange_hv, if_neg (Ne.symm hmi), if_pos rfl, hv],
        by rw [exchange_hk, if_neg (Ne.symm hmi), if_pos rfl, hk]⟩
    · exact ⟨m, h1, h2, by rw [exchange_hv, if_neg hmj, if_neg hmi, hv],
        by rw [exchange_hk, if_neg hmj, if_neg hmi, hk]⟩

end Exchange

/-! ## Percolation keeps the index and the entries -/

/-- What percolation preserves: the index, the size and every entry. -/
structure Keeps (h h' : Heap) : Prop where
  indexed : h'.Indexed
  nv : h'.nv = h.nv
  maxv : h'.maxv = h.maxv
  mem : ∀ {v k}, h.Mem v k → h'.Mem v k

theorem Keeps.refl {h : Heap} (hh : h.Indexed) : Keeps h h :=
  ⟨hh, rfl, rfl, fun hm => hm⟩

theorem Keeps.trans {h1 h2 h3 : Heap} (h12 : Keeps h1 h2) (h23 : Keeps h2 h3) :
    Keeps h1 h3 :=
  ⟨h23.indexed, h23.nv.trans h12.nv, h23.maxv.trans h12.maxv, fun hm => h23.mem (h12.mem hm)⟩

theorem exchange_keeps {h : Heap} {i j : Nat} (hh : h.Indexed)
    (hi : 1 ≤ i ∧ i ≤ h.nv) (hj : 1 ≤ j ∧ j ≤ h.nv) : Keeps h (h.exchange i j) :=
  ⟨exchange_indexed hh hi hj, rfl, rfl, exchange_mem hi hj⟩

theorem percUp_keeps : ∀ (steps : Nat) {h : Heap} {i : Nat}, h.Indexed →
    1 ≤ i ∧ i ≤ h.nv → Keeps h (percUp steps h i)
  | 0, _, _, hh, _ => Keeps.refl hh
  | steps + 1, h, i, hh, hi => by
      rw [percUp]
      split
      · exact Keeps.refl hh
      · rename_i hip
        split
        · exact Keeps.refl hh
        · have hp : 1 ≤ i / 2 ∧ i / 2 ≤ h.nv := by omega
          have hx := exchange_keeps hh hi hp
          exact hx.trans (percUp_keeps steps hx.indexed (by rw [hx.nv]; exact hp))

theorem minChild_range {h : Heap} {i : Nat} (hi : 1 ≤ i) (hc : ¬ i * 2 > h.nv) :
    1 ≤ h.minChild i ∧ h.minChild i ≤ h.nv := by
  unfold minChild
  split <;> omega

theorem percDn_keeps : ∀ (steps : Nat) {h : Heap} {i : Nat}, h.Indexed →
    1 ≤ i ∧ i ≤ h.nv → Keeps h (percDn steps h i)
  | 0, _, _, hh, _ => Keeps.refl hh
  | steps + 1, h, i, hh, hi => by
      rw [percDn]
      split
      · exact Keeps.refl hh
      · rename_i hleaf
        split
        · exact Keeps.refl hh
        · have hc := minChild_range hi.1 hleaf
          have hx := exchange_keeps hh hi hc
          exact hx.trans (percDn_keeps steps hx.indexed (by rw [hx.nv]; exact hc))

/-! ## What `push` and `pop` do -/

/-- Pushing `v` leaves one entry for `v`, with the new key, and every entry of
another value. -/
theorem push_spec {h h' : Heap} {v k : Nat} {b : Bool} (hh : h.Indexed)
    (hp : h.push v k = .ok (h', b)) :
    h'.Indexed ∧ h'.Mem v k ∧ (∀ w q, w ≠ v → h.Mem w q → h'.Mem w q)
      ∧ h'.nv ≤ h.nv + 1 := by
  unfold push at hp
  rw [require_bind_ok] at hp
  obtain ⟨-, hp⟩ := hp
  cases hidx : h.idxv v with
  | none =>
      simp only [hidx, pure_eq, Except.ok.injEq, Prod.mk.injEq] at hp
      obtain ⟨rfl, -⟩ := hp
      have hfresh : ∀ i, 1 ≤ i → i ≤ h.nv → h.hv i ≠ v := fun i h1 h2 he => by
        have := hh.index_at h1 h2
        rw [he, hidx] at this
        cases this
      set h1 : Heap := { h with
        hk := Function.update h.hk (h.nv + 1) k
        hv := Function.update h.hv (h.nv + 1) v
        nv := h.nv + 1
        idxv := Function.update h.idxv v (some (h.nv + 1)) } with hh1
      have hhv : ∀ m, m ≤ h.nv → h1.hv m = h.hv m := fun m hm => by
        simp only [hh1, Function.update_apply, if_neg (by omega : ¬ m = h.nv + 1)]
      have hhk : ∀ m, m ≤ h.nv → h1.hk m = h.hk m := fun m hm => by
        simp only [hh1, Function.update_apply, if_neg (by omega : ¬ m = h.nv + 1)]
      have hlast : h1.hv (h.nv + 1) = v := by simp [hh1]
      have hix : h1.Indexed := by
        constructor
        · intro w i hw
          simp only [hh1, Function.update_apply] at hw
          split at hw
          · rename_i hwv
            obtain rfl := Option.some.inj hw
            exact ⟨by omega, Nat.le_refl _, by rw [hlast, hwv]⟩
          · obtain ⟨h2, h3, h4⟩ := hh.at_index hw
            exact ⟨h2, by simp only [hh1]; omega, by rw [hhv i h3, h4]⟩
        · intro i hi1 hi2
          by_cases hil : i = h.nv + 1
          · subst hil
            rw [hlast]
            simp [hh1]
          · have hile : i ≤ h.nv := by simp only [hh1] at hi2; omega
            rw [hhv i hile]
            simp only [hh1, Function.update_apply, if_neg (hfresh i hi1 hile)]
            exact hh.index_at hi1 hile
      have hkeep := percUp_keeps h1.nv (i := h1.nv) hix ⟨by simp [hh1], Nat.le_refl _⟩
      refine ⟨hkeep.indexed, hkeep.mem ⟨h.nv + 1, by omega, Nat.le_refl _, hlast, by simp [hh1]⟩,
        fun w q _ hm => hkeep.mem ?_, by rw [hkeep.nv]⟩
      obtain ⟨i, h2, h3, h4, h5⟩ := hm
      exact ⟨i, h2, by simp only [hh1]; omega, by rw [hhv i h3, h4], by rw [hhk i h3, h5]⟩
  | some i =>
      simp only [hidx] at hp
      rw [require_bind_ok] at hp
      obtain ⟨-, hp⟩ := hp
      obtain ⟨hi1, hi2, hiv⟩ := hh.at_index hidx
      set h1 : Heap := { h with hk := Function.update h.hk i k } with hh1
      have hix : h1.Indexed := ⟨fun hw => hh.at_index hw, fun h2 h3 => hh.index_at h2 h3⟩
      have hv1 : h1.Mem v k := ⟨i, hi1, hi2, hiv, by simp [hh1]⟩
      have hold : ∀ w q, w ≠ v → h.Mem w q → h1.Mem w q := by
        rintro w q hwv ⟨m, h2, h3, h4, h5⟩
        have hmi : m ≠ i := fun he => hwv (by rw [← h4, he, hiv])
        exact ⟨m, h2, h3, h4, by simp only [hh1, Function.update_apply, if_neg hmi, h5]⟩
      by_cases hkk : k = h.hk i
      · rw [if_pos hkk] at hp
        obtain ⟨rfl, -⟩ := Prod.mk.inj (Except.ok.inj hp)
        exact ⟨hh, ⟨i, hi1, hi2, hiv, hkk.symm⟩, fun w q _ hm => hm, by omega⟩
      · rw [if_neg hkk] at hp
        have hfin : ∀ h2, Keeps h1 h2 → h2.Indexed ∧ h2.Mem v k
            ∧ (∀ w q, w ≠ v → h.Mem w q → h2.Mem w q) ∧ h2.nv ≤ h.nv + 1 := fun h2 hk2 =>
          ⟨hk2.indexed, hk2.mem hv1, fun w q hwv hm => hk2.mem (hold w q hwv hm),
            by rw [hk2.nv]; exact Nat.le_succ _⟩
        by_cases hlt : k < h.hk i
        · rw [if_pos hlt] at hp
          obtain ⟨rfl, -⟩ := Prod.mk.inj (Except.ok.inj hp)
          exact hfin _ (percUp_keeps _ hix ⟨hi1, hi2⟩)
        · rw [if_neg hlt] at hp
          obtain ⟨rfl, -⟩ := Prod.mk.inj (Except.ok.inj hp)
          exact hfin _ (percDn_keeps _ hix ⟨hi1, hi2⟩)

/-- Popping returns an entry and keeps every other one. -/
theorem pop_spec {h h' : Heap} {v k : Nat} (hh : h.Indexed)
    (hp : h.pop = .ok ((v, k), h')) :
    h'.Indexed ∧ h.Mem v k ∧ (∀ w q, (w, q) ≠ (v, k) → h.Mem w q → h'.Mem w q)
      ∧ h'.nv + 1 = h.nv := by
  unfold pop at hp
  rw [require_bind_ok] at hp
  obtain ⟨hne, hp⟩ := hp
  have hpos : 1 ≤ h.nv := by omega
  by_cases hone : h.nv - 1 = 0
  · simp only [hone, ne_eq, not_true_eq_false, if_false, pure_eq, Except.ok.injEq,
      Prod.mk.injEq] at hp
    obtain ⟨⟨rfl, rfl⟩, rfl⟩ := hp
    refine ⟨⟨?_, fun h1 h2 => absurd h2 (by simp only; omega)⟩, ⟨1, Nat.le_refl _, hpos, rfl, rfl⟩,
      ?_, by simp only; omega⟩
    · intro w i hw
      simp only [Function.update_apply] at hw
      split at hw
      · cases hw
      · rename_i hwv
        obtain ⟨h1, h2, h3⟩ := hh.at_index hw
        obtain rfl : i = 1 := by omega
        exact absurd h3.symm hwv
    · rintro w q hwq ⟨i, h1, h2, h3, h4⟩
      obtain rfl : i = 1 := by omega
      exact absurd (by rw [h3, h4]) hwq
  · simp only [ne_eq, hone, not_false_eq_true, if_true, pure_eq, Except.ok.injEq,
      Prod.mk.injEq] at hp
    obtain ⟨⟨rfl, rfl⟩, rfl⟩ := hp
    have hlast : h.nv - 1 + 1 = h.nv := by omega
    rw [hlast]
    set h1 : Heap := { h with
      hk := Function.update h.hk 1 (h.hk h.nv)
      hv := Function.update h.hv 1 (h.hv h.nv)
      nv := h.nv - 1
      idxv := Function.update (Function.update h.idxv (h.hv 1) none) (h.hv h.nv) (some 1) }
      with hh1
    have hhv : ∀ m, m ≠ 1 → h1.hv m = h.hv m := fun m hm => by
      simp only [hh1, Function.update_apply, if_neg hm]
    have hhk : ∀ m, m ≠ 1 → h1.hk m = h.hk m := fun m hm => by
      simp only [hh1, Function.update_apply, if_neg hm]
    have hix : h1.Indexed := by
      constructor
      · intro w i hw
        simp only [hh1, Function.update_apply] at hw
        split at hw
        · rename_i hwl
          obtain rfl := Option.some.inj hw
          exact ⟨Nat.le_refl _, by simp only [hh1]; omega, by simp [hh1, hwl]⟩
        · rename_i hwl
          split at hw
          · cases hw
          · rename_i hw1
            obtain ⟨h2, h3, h4⟩ := hh.at_index hw
            have hi1 : i ≠ 1 := fun he => hw1 (by rw [← h4, he])
            have hin : i ≠ h.nv := fun he => hwl (by rw [← h4, he])
            exact ⟨h2, by simp only [hh1]; omega, by rw [hhv i hi1, h4]⟩
      · intro i hi1 hi2
        have hi2' : i ≤ h.nv - 1 := hi2
        by_cases hi : i = 1
        · subst hi
          simp [hh1]
        · rw [hhv i hi]
          have hnl : h.hv i ≠ h.hv h.nv := fun he => by
            have := hh.inj ⟨hi1, by omega⟩ ⟨hpos, Nat.le_refl _⟩ he
            omega
          have hn1 : h.hv i ≠ h.hv 1 := fun he => by
            have := hh.inj ⟨hi1, by omega⟩ ⟨Nat.le_refl 1, hpos⟩ he
            omega
          simp only [hh1, Function.update_apply, if_neg hnl, if_neg hn1]
          exact hh.index_at hi1 (by omega)
    have hkeep := percDn_keeps h1.nv (i := 1) hix ⟨Nat.le_refl _, by simp only [hh1]; omega⟩
    refine ⟨hkeep.indexed, ⟨1, Nat.le_refl _, hpos, rfl, rfl⟩, ?_, hkeep.nv.symm ▸ hlast⟩
    rintro w q hwq ⟨i, h2, h3, h4, h5⟩
    refine hkeep.mem ?_
    by_cases hil : i = h.nv
    · exact ⟨1, Nat.le_refl _, by simp only [hh1]; omega, by simp [hh1, ← h4, hil],
        by simp [hh1, ← h5, hil]⟩
    · have hi1 : i ≠ 1 := fun he => hwq (by rw [← h4, ← h5, he])
      exact ⟨i, h2, by simp only [hh1]; omega, by rw [hhv i hi1, h4], by rw [hhk i hi1, h5]⟩

/-- The only ways to fail. -/
theorem push_stop {h : Heap} {v k : Nat} {e : Stop} (hp : h.push v k = .error e) :
    e = .assertion "v <= maxv" ∨ e = .assertion "i <= nv" := by
  have hs : Spec (h.push v k) (fun _ => True)
      fun e => e = .assertion "v <= maxv" ∨ e = .assertion "i <= nv" := by
    unfold push
    refine spec_require (fun _ => .inl rfl) fun _ => ?_
    split
    · trivial
    · refine spec_require (fun _ => .inr rfl) fun _ => ?_
      dsimp only
      split
      · trivial
      · split <;> trivial
  exact hs.stop hp

theorem pop_stop {h : Heap} {e : Stop} (hp : h.pop = .error e) : e = .assertion "nv" := by
  have hs : Spec h.pop (fun _ => True) fun e => e = .assertion "nv" := by
    unfold pop
    refine spec_require (fun _ => rfl) fun _ => ?_
    dsimp only
    split <;> trivial
  exact hs.stop hp

end Heap

end PtrAnalysis
