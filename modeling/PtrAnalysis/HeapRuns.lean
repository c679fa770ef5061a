import Mathlib.Data.Set.Card
import Mathlib.Order.Interval.Finset.Nat
import PtrAnalysis.Heap

/-!
# The heap as a map

A heap stands for a finite map from values to keys. `Represents` says how: the index is
the inverse of the values, and no key is less than that of its parent. Percolation
restores the order around the one position that was changed, so `push` sets a value of the
map and `pop` takes out one with a least key, in every sequence of operations on any
number of heaps.
-/

namespace PtrAnalysis

namespace Heap

open Run

/-! ## The order -/

/-- No key is less than the key of its parent. -/
def Ordered (h : Heap) : Prop := ∀ i, 2 ≤ i → i ≤ h.nv → h.hk (i / 2) ≤ h.hk i

/-- The order but for the key at `i`, which may be too small for its place. -/
structure UpOrder (h : Heap) (i : Nat) : Prop where
  except : ∀ j, 2 ≤ j → j ≤ h.nv → j ≠ i → h.hk (j / 2) ≤ h.hk j
  grand : 2 ≤ i → ∀ c, c ≤ h.nv → c / 2 = i → h.hk (i / 2) ≤ h.hk c

/-- The order but for the key at `i`, which may be too large for its place. -/
structure DownOrder (h : Heap) (i : Nat) : Prop where
  except : ∀ j, 2 ≤ j → j ≤ h.nv → j / 2 ≠ i → h.hk (j / 2) ≤ h.hk j
  grand : 2 ≤ i → ∀ c, c ≤ h.nv → c / 2 = i → h.hk (i / 2) ≤ h.hk c

variable {h : Heap} {i : Nat}

theorem UpOrder.finish (o : UpOrder h i) (hi : 2 ≤ i → i ≤ h.nv → h.hk (i / 2) ≤ h.hk i) :
    h.Ordered := by
  intro j hj hjn
  by_cases hji : j = i
  · subst hji
    exact hi hj hjn
  · exact o.except j hj hjn hji

theorem UpOrder.move (o : UpOrder h i) (hi : 2 ≤ i) (hin : i ≤ h.nv)
    (hlt : h.hk i < h.hk (i / 2)) : UpOrder (h.exchange i (i / 2)) (i / 2) := by
  have hup : 2 ≤ i / 2 → h.hk (i / 2 / 2) ≤ h.hk (i / 2) := fun h2 =>
    o.except (i / 2) h2 (by omega) (by omega)
  constructor
  · intro j hj hjn hne
    rw [exchange_nv] at hjn
    rw [exchange_hk, exchange_hk, if_neg hne]
    by_cases hji : j = i
    · subst hji
      rw [if_pos rfl, if_pos rfl]
      exact hlt.le
    · rw [if_neg hji]
      by_cases hjp : j / 2 = i / 2
      · rw [if_pos hjp]
        exact hlt.le.trans (hjp ▸ o.except j hj hjn hji)
      · rw [if_neg hjp]
        by_cases hjc : j / 2 = i
        · rw [if_pos hjc]
          exact o.grand hi j hjn hjc
        · rw [if_neg hjc]
          exact o.except j hj hjn hji
  · intro h2 c hcn hc
    rw [exchange_nv] at hcn
    rw [exchange_hk, exchange_hk, if_neg (by omega), if_neg (by omega), if_neg (by omega)]
    by_cases hci : c = i
    · rw [if_pos hci]
      exact hup h2
    · rw [if_neg hci]
      exact (hup h2).trans (hc ▸ o.except c (by omega) hcn hci)

theorem percUp_ordered : ∀ (steps : Nat) {h : Heap} {i : Nat}, i ≤ steps → i ≤ h.nv → UpOrder h i →
    (percUp steps h i).Ordered
  | 0, h, i, hle, _, o => o.finish fun h2 => by omega
  | steps + 1, h, i, hle, hin, o => by
      rw [percUp]
      split
      · exact o.finish fun h2 => by omega
      · split
        · rename_i hkey
          exact o.finish fun _ _ => hkey
        · rename_i hroot hkey
          exact percUp_ordered steps (by omega) (by rw [exchange_nv]; omega)
            (o.move (by omega) hin (by omega))

theorem DownOrder.finish (o : DownOrder h i) (hi : ∀ c, 2 ≤ c → c ≤ h.nv → c / 2 = i →
    h.hk i ≤ h.hk c) : h.Ordered := by
  intro j hj hjn
  by_cases hji : j / 2 = i
  · rw [hji]
    exact hi j hj hjn hji
  · exact o.except j hj hjn hji

/-- The chosen child has the least key of both. -/
theorem minChild_least {c : Nat} (hcn : c ≤ h.nv) (hc : c / 2 = i) :
    h.hk (h.minChild i) ≤ h.hk c := by
  have hcase : c = i * 2 ∨ c = i * 2 + 1 := by omega
  unfold minChild
  split
  · rename_i hright
    rcases hcase with rfl | rfl
    · exact hright.2.le
    · exact le_rfl
  · rename_i hright
    rcases hcase with rfl | rfl
    · exact le_rfl
    · exact Nat.le_of_not_lt fun hlt => hright ⟨by omega, hlt⟩

theorem minChild_half (i : Nat) : h.minChild i / 2 = i := by
  unfold minChild
  split <;> omega

theorem DownOrder.move (o : DownOrder h i) (hi : 1 ≤ i) (hleft : i * 2 ≤ h.nv)
    (hlt : h.hk (h.minChild i) < h.hk i) :
    DownOrder (h.exchange i (h.minChild i)) (h.minChild i) := by
  have hrange := minChild_range hi (Nat.not_lt.mpr hleft)
  have hhalf : h.minChild i / 2 = i := minChild_half i
  have hleast : ∀ c, c ≤ h.nv → c / 2 = i → h.hk (h.minChild i) ≤ h.hk c :=
    fun c hcn hc => minChild_least hcn hc
  have hgt : i < h.minChild i := by omega
  constructor
  · intro j hj hjn hne
    rw [exchange_nv] at hjn
    rw [exchange_hk, exchange_hk, if_neg hne]
    by_cases hjp : j / 2 = i
    · rw [if_pos hjp]
      by_cases hjc : j = h.minChild i
      · rw [if_pos hjc]
        exact hlt.le
      · rw [if_neg hjc, if_neg (by omega)]
        exact hleast j hjn hjp
    · have hjc : j ≠ h.minChild i := fun heq => hjp (by rw [heq, hhalf])
      rw [if_neg hjp, if_neg hjc]
      by_cases hji : j = i
      · subst hji
        rw [if_pos rfl]
        exact o.grand hj _ hrange.2 hhalf
      · rw [if_neg hji]
        exact o.except j hj hjn hjp
  · intro _ c hcn hc
    rw [exchange_nv] at hcn
    rw [hhalf, exchange_hk, exchange_hk, if_neg (by omega), if_pos rfl, if_neg (by omega),
      if_neg (by omega)]
    exact hc ▸ o.except c (by omega) hcn (by omega)

theorem percDn_ordered : ∀ (steps : Nat) {h : Heap} {i : Nat}, 1 ≤ i → h.nv < i + steps →
    DownOrder h i → (percDn steps h i).Ordered
  | 0, h, i, hi, hle, o => o.finish fun c hc hcn hci => by omega
  | steps + 1, h, i, hi, hle, o => by
      rw [percDn]
      split
      · exact o.finish fun c hc hcn hci => by omega
      · rename_i hleft
        split
        · rename_i hkey
          exact o.finish fun c hc hcn hci => hkey.trans (minChild_least hcn hci)
        · rename_i hkey
          have hrange := minChild_range hi hleft
          have hhalf : h.minChild i / 2 = i := minChild_half i
          exact percDn_ordered steps hrange.1 (by rw [exchange_nv]; omega)
            (o.move hi (by omega) (by omega))

/-- The first key is the least. -/
theorem Ordered.first (o : h.Ordered) : ∀ i, 1 ≤ i → i ≤ h.nv → h.hk 1 ≤ h.hk i := by
  intro i
  induction i using Nat.strongRecOn with
  | ind i ih =>
      intro h1 hn
      by_cases hi : i = 1
      · rw [hi]
      · exact (ih (i / 2) (by omega) (by omega) (by omega)).trans (o i (by omega) hn)

/-! ## The values of a heap -/

/-- The values in the occupied positions. -/
def values (h : Heap) : Finset Nat := (Finset.Icc 1 h.nv).image h.hv

theorem mem_values {v : Nat} : v ∈ h.values ↔ ∃ k, h.Mem v k := by
  unfold values Mem
  rw [Finset.mem_image]
  constructor
  · rintro ⟨i, hi, hv⟩
    obtain ⟨h1, h2⟩ := Finset.mem_Icc.mp hi
    exact ⟨h.hk i, i, h1, h2, hv, rfl⟩
  · rintro ⟨k, i, h1, h2, hv, -⟩
    exact ⟨i, Finset.mem_Icc.mpr ⟨h1, h2⟩, hv⟩

theorem Indexed.card_values (hh : h.Indexed) : h.values.card = h.nv := by
  unfold values
  rw [Finset.card_image_of_injOn, Nat.card_Icc]
  · omega
  · intro i hi j hj hij
    exact hh.inj (by simpa using hi) (by simpa using hj) hij

theorem Indexed.mem_iff (hh : h.Indexed) {v k : Nat} :
    h.Mem v k ↔ (h.idxv v).map h.hk = some k := by
  constructor
  · rintro ⟨i, h1, h2, rfl, rfl⟩
    rw [hh.index_at h1 h2]
    rfl
  · intro hk
    cases hidx : h.idxv v with
    | none =>
        rw [hidx] at hk
        cases hk
    | some i =>
        rw [hidx] at hk
        obtain ⟨h1, h2, hv⟩ := hh.at_index hidx
        exact ⟨i, h1, h2, hv, Option.some.inj hk⟩

/-- The map from values to keys that a heap stands for. -/
structure Represents (h : Heap) (m : Nat → Option Nat) : Prop where
  indexed : h.Indexed
  ordered : h.Ordered
  key : ∀ v, (h.idxv v).map h.hk = m v
  bound : ∀ v, m v ≠ none → v ≤ h.maxv

theorem Represents.mem_iff {m : Nat → Option Nat} (r : h.Represents m) {v k : Nat} :
    h.Mem v k ↔ m v = some k := by
  rw [r.indexed.mem_iff, r.key]

/-- The size is the number of values. -/
theorem Represents.size {m : Nat → Option Nat} (r : h.Represents m) :
    {v | m v ≠ none}.ncard = h.nv := by
  have hset : {v | m v ≠ none} = ↑h.values := by
    ext v
    rw [Finset.mem_coe, mem_values, Set.mem_ofPred_eq, Option.ne_none_iff_exists']
    exact exists_congr fun k => r.mem_iff.symm
  rw [hset, Set.ncard_coe_finset, r.indexed.card_values]

theorem new_represents (mv : Nat) : (new mv).Represents fun _ => none where
  indexed := new_indexed mv
  ordered i h2 hi := by
    simp only [new] at hi
    omega
  key _ := rfl
  bound _ hv := absurd rfl hv

/-- A heap with the values of a map and all its entries stands for it. -/
theorem represents_of_mem {m : Nat → Option Nat} (hh : h.Indexed) (ho : h.Ordered)
    (hmem : ∀ v k, m v = some k → h.Mem v k) (hval : ∀ v ∈ h.values, m v ≠ none)
    (hb : ∀ v, m v ≠ none → v ≤ h.maxv) : h.Represents m where
  indexed := hh
  ordered := ho
  key v := by
    cases hm : m v with
    | some k => exact hh.mem_iff.mp (hmem v k hm)
    | none =>
        cases hidx : h.idxv v with
        | none => rfl
        | some i =>
            obtain ⟨h1, h2, hv⟩ := hh.at_index hidx
            exact absurd hm (hval v (mem_values.mpr ⟨h.hk i, i, h1, h2, hv, rfl⟩))
  bound := hb

/-! ## The operations on the map -/

theorem percUp_size (steps : Nat) (h : Heap) (i : Nat) :
    (percUp steps h i).nv = h.nv ∧ (percUp steps h i).maxv = h.maxv := by
  induction steps generalizing h i with
  | zero => exact ⟨rfl, rfl⟩
  | succ steps ih =>
      rw [percUp]
      split
      · exact ⟨rfl, rfl⟩
      · split
        · exact ⟨rfl, rfl⟩
        · exact ih _ _

theorem percDn_size (steps : Nat) (h : Heap) (i : Nat) :
    (percDn steps h i).nv = h.nv ∧ (percDn steps h i).maxv = h.maxv := by
  induction steps generalizing h i with
  | zero => exact ⟨rfl, rfl⟩
  | succ steps ih =>
      rw [percDn]
      split
      · exact ⟨rfl, rfl⟩
      · split
        · exact ⟨rfl, rfl⟩
        · exact ih _ _

/-- What `push` does besides changing one entry. -/
theorem push_shape {h h' : Heap} {v k : Nat} {b : Bool} (hh : h.Indexed) (ho : h.Ordered)
    (hp : h.push v k = .ok (h', b)) : h'.Ordered ∧ b = (h.idxv v).isSome ∧ h'.maxv = h.maxv ∧
      h'.nv = if (h.idxv v).isSome then h.nv else h.nv + 1 := by
  unfold push at hp
  rw [require_bind_ok] at hp
  obtain ⟨-, hp⟩ := hp
  cases hidx : h.idxv v with
  | none =>
      rw [hidx] at hp
      obtain ⟨rfl, rfl⟩ := Prod.mk.inj (Except.ok.inj hp)
      refine ⟨percUp_ordered _ le_rfl le_rfl ⟨fun j h2 hj hne => ?_, fun _ c hc hci => ?_⟩, rfl,
        (percUp_size ..).2, (percUp_size ..).1⟩
      · dsimp only at hj hne ⊢
        rw [Function.update_of_ne (by omega), Function.update_of_ne hne]
        exact ho j h2 (by omega)
      · dsimp only at hc hci
        omega
  | some i =>
      rw [hidx] at hp
      obtain ⟨h1, hin, -⟩ := hh.at_index hidx
      dsimp only at hp
      rw [require_bind_ok] at hp
      obtain ⟨-, hp⟩ := hp
      split at hp
      · obtain ⟨rfl, rfl⟩ := Prod.mk.inj (Except.ok.inj hp)
        exact ⟨ho, rfl, rfl, rfl⟩
      · rename_i hne
        split at hp
        · rename_i hlt
          obtain ⟨rfl, rfl⟩ := Prod.mk.inj (Except.ok.inj hp)
          refine ⟨percUp_ordered _ le_rfl hin ⟨fun j h2 hj hji => ?_, fun h2 c hc hci => ?_⟩, rfl,
            (percUp_size ..).2, (percUp_size ..).1⟩
          · dsimp only at hj ⊢
            rw [Function.update_of_ne hji, Function.update_apply]
            split
            · rename_i hhalf
              exact hlt.le.trans (hhalf ▸ ho j h2 hj)
            · exact ho j h2 hj
          · dsimp only at hc ⊢
            rw [Function.update_of_ne (by omega), Function.update_of_ne (by omega)]
            exact (ho i h2 hin).trans (hci ▸ ho c (by omega) hc)
        · rename_i hge
          obtain ⟨rfl, rfl⟩ := Prod.mk.inj (Except.ok.inj hp)
          refine ⟨percDn_ordered _ h1 (by dsimp only; omega) ⟨fun j h2 hj hji => ?_,
            fun h2 c hc hci => ?_⟩, rfl, (percDn_size ..).2, (percDn_size ..).1⟩
          · dsimp only at hj ⊢
            rw [Function.update_of_ne hji, Function.update_apply]
            split
            · rename_i hjeq
              have hparent := ho j h2 hj
              rw [hjeq] at hparent ⊢
              omega
            · exact ho j h2 hj
          · dsimp only at hc ⊢
            rw [Function.update_of_ne (by omega), Function.update_of_ne (by omega)]
            exact (ho i h2 hin).trans (hci ▸ ho c (by omega) hc)

/-- What `pop` does besides removing an entry. -/
theorem pop_shape {h h' : Heap} {v k : Nat} (ho : h.Ordered) (hp : h.pop = .ok ((v, k), h')) :
    h'.Ordered ∧ h'.maxv = h.maxv ∧ ∀ w q, h.Mem w q → k ≤ q := by
  unfold pop at hp
  rw [require_bind_ok] at hp
  obtain ⟨-, hp⟩ := hp
  have hleast : ∀ w q, h.Mem w q → h.hk 1 ≤ q := by
    rintro w _ ⟨i, h1, h2, -, rfl⟩
    exact ho.first i h1 h2
  dsimp only at hp
  split at hp
  · rename_i hne
    obtain ⟨hvk, rfl⟩ := Prod.mk.inj (Except.ok.inj hp)
    obtain ⟨rfl, rfl⟩ := Prod.mk.inj hvk
    refine ⟨percDn_ordered _ le_rfl (by dsimp only; omega) ⟨fun j h2 hj hji => ?_,
      fun h2 => absurd h2 (by decide)⟩, (percDn_size ..).2, hleast⟩
    dsimp only at hj ⊢
    rw [Function.update_of_ne hji, Function.update_of_ne (by omega)]
    exact ho j h2 (by omega)
  · rename_i hone
    obtain ⟨hvk, rfl⟩ := Prod.mk.inj (Except.ok.inj hp)
    obtain ⟨rfl, rfl⟩ := Prod.mk.inj hvk
    refine ⟨fun j h2 hj => ?_, rfl, hleast⟩
    dsimp only at hj hone
    omega

/-- The values are those of `s`, if these are there and there are no more. -/
theorem Indexed.values_eq (hh : h.Indexed) {s : Finset Nat} (hs : ∀ v ∈ s, ∃ k, h.Mem v k)
    (hcard : h.nv ≤ s.card) : h.values = s := by
  refine (Finset.eq_of_subset_of_card_le (fun v hv => mem_values.mpr (hs v hv)) ?_).symm
  rw [hh.card_values]
  exact hcard

theorem push_ends (hh : h.Indexed) {v : Nat} (hv : v ≤ h.maxv) (k : Nat) :
    ∃ h' b, h.push v k = .ok (h', b) := by
  have hrun : Spec (h.push v k) (fun _ => True) fun _ => False := by
    refine spec_require (fun hno => hno hv) fun _ => ?_
    split
    · trivial
    · rename_i i hidx
      refine spec_require (fun hno => hno (hh.at_index hidx).2.1) fun _ => ?_
      dsimp only
      split
      · trivial
      · split <;> trivial
  cases hp : h.push v k with
  | error e => exact (hrun.stop hp).elim
  | ok t => exact ⟨t.1, t.2, rfl⟩

theorem pop_ends (hne : h.nv ≠ 0) : ∃ v k h', h.pop = .ok ((v, k), h') := by
  have hrun : Spec h.pop (fun _ => True) fun _ => False := by
    refine spec_require (fun hno => hno hne) fun _ => ?_
    dsimp only
    split <;> trivial
  cases hp : h.pop with
  | error e => exact (hrun.stop hp).elim
  | ok t => exact ⟨t.1.1, t.1.2, t.2, rfl⟩

/-- `push` sets the key of a value. -/
theorem Represents.push {m : Nat → Option Nat} (r : h.Represents m) {v : Nat} (hv : v ≤ h.maxv)
    (k : Nat) : ∃ h', h.push v k = .ok (h', (m v).isSome) ∧ h'.maxv = h.maxv ∧
      h'.Represents (Function.update m v (some k)) := by
  obtain ⟨h', b, hp⟩ := push_ends r.indexed hv k
  obtain ⟨hix, hnew, hold, -⟩ := push_spec r.indexed hp
  obtain ⟨hord, rfl, hmax, hnv⟩ := push_shape r.indexed r.ordered hp
  have hsome : (h.idxv v).isSome = (m v).isSome := by rw [← r.key v, Option.isSome_map]
  have hmem : ∀ w q, Function.update m v (some k) w = some q → h'.Mem w q := by
    intro w q hq
    by_cases hw : w = v
    · subst hw
      rw [Function.update_self] at hq
      exact Option.some.inj hq ▸ hnew
    · rw [Function.update_of_ne hw] at hq
      exact hold w q hw (r.mem_iff.mpr hq)
  have hhas : v ∈ h.values ↔ (h.idxv v).isSome = true := by
    rw [mem_values, hsome, Option.isSome_iff_exists]
    exact exists_congr fun q => r.mem_iff
  -- there is no room for another value
  have hvals : h'.values = insert v h.values := by
    refine hix.values_eq (fun w hw => ?_) ?_
    · by_cases hwv : w = v
      · exact ⟨k, hwv ▸ hnew⟩
      · obtain ⟨q, hq⟩ := mem_values.mp (Finset.mem_of_mem_insert_of_ne hw hwv)
        exact ⟨q, hold w q hwv hq⟩
    · rw [hnv]
      split
      · rename_i hin
        rw [Finset.insert_eq_of_mem (hhas.mpr hin), r.indexed.card_values]
      · rename_i hout
        rw [Finset.card_insert_of_notMem fun hin => hout (hhas.mp hin), r.indexed.card_values]
  refine ⟨h', by rw [← hsome]; exact hp, hmax, represents_of_mem hix hord hmem
    (fun w hw => ?_) fun w hw => ?_⟩
  · by_cases hwv : w = v
    · rw [hwv, Function.update_self]
      exact Option.some_ne_none k
    · rw [hvals] at hw
      obtain ⟨q, hq⟩ := mem_values.mp (Finset.mem_of_mem_insert_of_ne hw hwv)
      rw [Function.update_of_ne hwv, r.mem_iff.mp hq]
      exact Option.some_ne_none q
  · rw [hmax]
    by_cases hwv : w = v
    · exact hwv ▸ hv
    · exact r.bound w (by rwa [Function.update_of_ne hwv] at hw)

/-- `pop` takes out a value with a least key. -/
theorem Represents.pop {m : Nat → Option Nat} (r : h.Represents m) (hne : ∃ v, m v ≠ none) :
    ∃ v k h', h.pop = .ok ((v, k), h') ∧ m v = some k ∧ (∀ w q, m w = some q → k ≤ q) ∧
      h'.maxv = h.maxv ∧ h'.Represents (Function.update m v none) := by
  have hpos : h.nv ≠ 0 := by
    obtain ⟨w, hw⟩ := hne
    obtain ⟨q, hq⟩ := Option.ne_none_iff_exists'.mp hw
    obtain ⟨i, h1, h2, -⟩ := r.mem_iff.mpr hq
    omega
  obtain ⟨v, k, h', hp⟩ := pop_ends hpos
  obtain ⟨hix, hfirst, hold, hnv⟩ := pop_spec r.indexed hp
  obtain ⟨hord, hmax, hleast⟩ := pop_shape r.ordered hp
  have hmem : ∀ w q, Function.update m v none w = some q → h'.Mem w q := by
    intro w q hq
    by_cases hw : w = v
    · rw [hw, Function.update_self] at hq
      cases hq
    · rw [Function.update_of_ne hw] at hq
      exact hold w q (fun heq => hw (Prod.mk.inj heq).1) (r.mem_iff.mpr hq)
  -- all values but the popped one are left
  have hvals : h'.values = h.values.erase v := by
    refine hix.values_eq (fun w hw => ?_) ?_
    · obtain ⟨hwv, hin⟩ := Finset.mem_erase.mp hw
      obtain ⟨q, hq⟩ := mem_values.mp hin
      exact ⟨q, hold w q (fun heq => hwv (Prod.mk.inj heq).1) hq⟩
    · rw [Finset.card_erase_of_mem (mem_values.mpr ⟨k, hfirst⟩), r.indexed.card_values]
      omega
  refine ⟨v, k, h', hp, r.mem_iff.mp hfirst, fun w q hq => hleast w q (r.mem_iff.mpr hq), hmax,
    represents_of_mem hix hord hmem (fun w hw => ?_) fun w hw => ?_⟩
  · rw [hvals] at hw
    obtain ⟨hwv, hin⟩ := Finset.mem_erase.mp hw
    obtain ⟨q, hq⟩ := mem_values.mp hin
    rw [Function.update_of_ne hwv, r.mem_iff.mp hq]
    exact Option.some_ne_none q
  · by_cases hwv : w = v
    · rw [hwv, Function.update_self] at hw
      exact absurd rfl hw
    · rw [hmax]
      exact r.bound w (by rwa [Function.update_of_ne hwv] at hw)

end Heap

/-! ## Sequences of operations -/

/-- An operation on one of the heaps, or on two. -/
inductive HeapOp (ι : Type) where
  | push (a : ι) (v k : Nat)
  | pop (a : ι)
  | swap (a b : ι)

/-- What an operation returns. -/
inductive HeapAnswer where
  | pushed (existed : Bool)
  | popped (v k : Nat)
  | swapped

/-- A map to keys from values up to a maximum. -/
structure PrioMap where
  max : Nat
  map : Nat → Option Nat

def PrioMap.new (mv : Nat) : PrioMap := ⟨mv, fun _ => none⟩

def Heap.Refines (h : Heap) (m : PrioMap) : Prop := h.maxv = m.max ∧ h.Represents m.map

section

open Run

variable {ι : Type} [DecidableEq ι]

def HeapOp.run (hs : ι → Heap) : HeapOp ι → Run (HeapAnswer × (ι → Heap))
  | .push a v k => do
      let (h, existed) ← (hs a).push v k
      return (.pushed existed, Function.update hs a h)
  | .pop a => do
      let ((v, k), h) ← (hs a).pop
      return (.popped v k, Function.update hs a h)
  | .swap a b => return (.swapped, Function.update (Function.update hs a (hs b)) b (hs a))

/-- Run the operations, and list what they return. -/
def runHeaps : List (HeapOp ι) → (ι → Heap) → Run (List HeapAnswer × (ι → Heap))
  | [], hs => .ok ([], hs)
  | op :: ops, hs => do
      let (answer, hs) ← op.run hs
      let (answers, hs) ← runHeaps ops hs
      return (answer :: answers, hs)

/-- The values are within the maximum, and there is something to pop. -/
def HeapOp.Allowed (ms : ι → PrioMap) : HeapOp ι → Prop
  | .push a v _ => v ≤ (ms a).max
  | .pop a => ∃ v, (ms a).map v ≠ none
  | .swap _ _ => True

/-- What the operations mean for the maps. -/
inductive PrioStep (ms : ι → PrioMap) : HeapOp ι → HeapAnswer → (ι → PrioMap) → Prop where
  | push {a : ι} {v k : Nat} : PrioStep ms (.push a v k) (.pushed ((ms a).map v).isSome)
      (Function.update ms a ⟨(ms a).max, Function.update (ms a).map v (some k)⟩)
  | pop {a : ι} {v k : Nat} (hv : (ms a).map v = some k)
      (hleast : ∀ w q, (ms a).map w = some q → k ≤ q) : PrioStep ms (.pop a) (.popped v k)
      (Function.update ms a ⟨(ms a).max, Function.update (ms a).map v none⟩)
  | swap {a b : ι} : PrioStep ms (.swap a b) .swapped
      (Function.update (Function.update ms a (ms b)) b (ms a))

/-- A sequence of operations that are all allowed. -/
inductive PrioRun : (ι → PrioMap) → List (HeapOp ι) → List HeapAnswer → (ι → PrioMap) → Prop where
  | nil {ms : ι → PrioMap} : PrioRun ms [] [] ms
  | cons {ms ms1 ms2 : ι → PrioMap} {op : HeapOp ι} {ops : List (HeapOp ι)} {answer : HeapAnswer}
      {answers : List HeapAnswer} (hop : op.Allowed ms) (hstep : PrioStep ms op answer ms1)
      (hrun : PrioRun ms1 ops answers ms2) : PrioRun ms (op :: ops) (answer :: answers) ms2

/-- An operation that is allowed returns what it should. -/
theorem HeapOp.run_refines {hs : ι → Heap} {ms : ι → PrioMap} (h : ∀ a, (hs a).Refines (ms a))
    (op : HeapOp ι) (hop : op.Allowed ms) : ∃ answer hs' ms', op.run hs = .ok (answer, hs') ∧
      PrioStep ms op answer ms' ∧ ∀ a, (hs' a).Refines (ms' a) := by
  have hupdate : ∀ a h' m', h'.Refines m' → ∀ c, (Function.update hs a h' c).Refines
      (Function.update ms a m' c) := by
    intro a h' m' hr c
    by_cases hc : c = a
    · subst hc
      rwa [Function.update_self, Function.update_self]
    · rw [Function.update_of_ne hc, Function.update_of_ne hc]
      exact h c
  cases op with
  | push a v k =>
      obtain ⟨hmax, hr⟩ := h a
      have hv : v ≤ (hs a).maxv := hmax ▸ hop
      obtain ⟨h', hrun, hmax', hr'⟩ := hr.push hv k
      refine ⟨_, _, _, ?_, .push, hupdate a h' _ ⟨hmax'.trans hmax, hr'⟩⟩
      rw [HeapOp.run, hrun]
      rfl
  | pop a =>
      obtain ⟨hmax, hr⟩ := h a
      obtain ⟨v, k, h', hrun, hv, hleast, hmax', hr'⟩ := hr.pop hop
      refine ⟨_, _, _, ?_, .pop hv hleast, hupdate a h' _ ⟨hmax'.trans hmax, hr'⟩⟩
      rw [HeapOp.run, hrun]
      rfl
  | swap a b =>
      refine ⟨_, _, _, rfl, .swap, fun c => ?_⟩
      by_cases hcb : c = b
      · subst hcb
        rw [Function.update_self, Function.update_self]
        exact h a
      · rw [Function.update_of_ne hcb, Function.update_of_ne hcb]
        exact hupdate a _ _ (h b) c

/-- One that is not allowed fails an assertion. -/
theorem HeapOp.run_stops {hs : ι → Heap} {ms : ι → PrioMap} (h : ∀ a, (hs a).Refines (ms a))
    (op : HeapOp ι) (hop : ¬ op.Allowed ms) : ∃ text, op.run hs = .error (.assertion text) := by
  cases op with
  | push a v k =>
      have hv : ¬ v ≤ (hs a).maxv := fun hle => hop (hle.trans (h a).1.le)
      refine ⟨"v <= maxv", ?_⟩
      rw [HeapOp.run, Heap.push, require, if_neg hv]
      rfl
  | pop a =>
      have hempty : ¬ (hs a).nv ≠ 0 := fun hne => by
        obtain ⟨v, k, _, hrun⟩ := Heap.pop_ends hne
        refine hop ⟨v, ?_⟩
        rw [(h a).2.mem_iff.mp (Heap.pop_spec (h a).2.indexed hrun).2.1]
        exact Option.some_ne_none k
      refine ⟨"nv", ?_⟩
      rw [HeapOp.run, Heap.pop, require, if_neg hempty]
      rfl
  | swap a b => exact absurd trivial hop

theorem runHeaps_refines {hs : ι → Heap} {ms : ι → PrioMap} (h : ∀ a, (hs a).Refines (ms a))
    (ops : List (HeapOp ι)) : Spec (runHeaps ops hs)
      (fun t => ∃ ms', PrioRun ms ops t.1 ms' ∧ ∀ a, (t.2 a).Refines (ms' a))
      fun e => (∃ text, e = .assertion text) ∧ ∃ done op rest answers ms', ops = done ++ op :: rest ∧
        PrioRun ms done answers ms' ∧ ¬ op.Allowed ms' := by
  induction ops generalizing hs ms with
  | nil => exact ⟨ms, .nil, h⟩
  | cons op ops ih =>
      rw [runHeaps]
      by_cases hop : op.Allowed ms
      · obtain ⟨answer, hs1, ms1, hrun, hstep, h1⟩ := op.run_refines h hop
        rw [hrun]
        change Spec (runHeaps ops hs1 >>= _) _ _
        have ih := ih h1
        cases hrest : runHeaps ops hs1 with
        | error e =>
            obtain ⟨htext, done, op', rest, answers, ms', rfl, hdone, hno⟩ := ih.stop hrest
            exact ⟨htext, op :: done, op', rest, answer :: answers, ms', rfl, .cons hop hstep hdone,
              hno⟩
        | ok t =>
            obtain ⟨ms', hrun', h'⟩ := ih.result hrest
            exact ⟨ms', .cons hop hstep hrun', h'⟩
      · obtain ⟨text, hstop⟩ := op.run_stops h hop
        rw [hstop]
        exact ⟨⟨text, rfl⟩, [], op, ops, [], ms, rfl, .nil, hop⟩

/-- Heaps that start empty are maps from values to keys, whatever is done to them. A sequence of
operations gives the answers of the maps, and afterwards the index of every heap is the
inverse of its values, its keys are in the order of a heap, its size is the number of its
values and its entries are those of the map. It stops only at a value over the maximum and at
an empty heap. -/
theorem heaps_refine_maps (mv : ι → Nat) (ops : List (HeapOp ι)) :
    (∀ answers hs, runHeaps ops (fun a => .new (mv a)) = .ok (answers, hs) → ∃ ms,
      PrioRun (fun a => .new (mv a)) ops answers ms ∧ ∀ a, (hs a).Refines (ms a) ∧
        (hs a).nv = {v | (ms a).map v ≠ none}.ncard) ∧
    ∀ e, runHeaps ops (fun a => .new (mv a)) = .error e → ∃ done op rest answers ms,
      ops = done ++ op :: rest ∧ PrioRun (fun a => .new (mv a)) done answers ms ∧
        ¬ op.Allowed ms := by
  have hnew : ∀ a, (Heap.new (mv a)).Refines (.new (mv a)) := fun a =>
    ⟨rfl, Heap.new_represents (mv a)⟩
  have hruns := runHeaps_refines hnew ops
  constructor
  · intro answers hs hrun
    obtain ⟨ms, hprio, hms⟩ := hruns.result hrun
    exact ⟨ms, hprio, fun a => ⟨hms a, (hms a).2.size.symm⟩⟩
  · intro e hrun
    exact (hruns.stop hrun).2

theorem heaps_refine_maps_swap : ∃ answers ms, PrioRun (fun _ : Bool => .new 5)
    [.push true 3 7, .push true 1 4, .push true 3 2, .swap true false, .pop false] answers ms := by
  obtain ⟨ms, hrun, -⟩ := (heaps_refine_maps (fun _ : Bool => 5)
    [.push true 3 7, .push true 1 4, .push true 3 2, .swap true false, .pop false]).1 _ _ rfl
  exact ⟨_, ms, hrun⟩

end

end PtrAnalysis
