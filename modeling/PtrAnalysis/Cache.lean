import Mathlib.Data.List.Sort
import Mathlib.Data.Nat.Bitwise
import PtrAnalysis.Lib.Ascending
import PtrAnalysis.Lib.Run

/-!
# From decision diagrams to vectors

`bdd2vec` expands the points-to set held by a decision diagram into a sorted
vector. The enumeration of the diagram's assignments, in which a variable may be
left open, is a parameter; `sat2vec` fills in the open variables. Expansions are
kept in a cache of limited size under the ID of the diagram, and the ones used
least recently are dropped when it is full.
-/

namespace PtrAnalysis

open Run

/-- An assignment of the library: -1 for a variable that is left open. -/
abbrev Assignment := Nat → Int

/-- The bits that `v` sets, and the masks of those it leaves open. Odd variables
belong to the other domain. -/
def sat2vecScan (v : Assignment) (t : Nat × List Nat) (k : Nat) : Nat × List Nat :=
  if v (2 * k) = -1 then (t.1, t.2 ++ [2 ^ k])
  else if v (2 * k) = 1 then (t.1 ||| 2 ^ k, t.2)
  else t

/-- `base` with the open bits that the number `i` selects. -/
def pickBits (base : Nat) (dc : List Nat) (i : Nat) : Nat :=
  (List.range dc.length).foldl (fun x j => if i.testBit j then x ||| dc.getD j 0 else x) base

/-- Append all values of the assignment `v` of `bits` variables. -/
def sat2vec (bits : Nat) (bddexp : List Nat) (v : Assignment) : Run (List Nat) :=
  let t := (List.range bits).foldl (sat2vecScan v) (0, [])
  let base := t.1
  match t.2 with
  | [] => .ok (bddexp ++ [base])
  | [d0] => .ok (bddexp ++ [base ||| d0, base])
  | [d0, d1] => .ok (bddexp ++ [base ||| d1, base ||| d1 ||| d0, base ||| d0, base])
  | dc => do
      inRange (dc.length ≤ 32) "dc"
      require (dc.length ≤ 25) "too many assignments for BDD"
      return bddexp ++ (List.range (2 ^ dc.length)).map (pickBits base dc)

/-- Unsigned 32-bit arithmetic. -/
def u32 (n : Nat) : Nat := n % 2 ^ 32

/-- The limit of the cache in MB, and how much is freed when it is reached. -/
structure Limits where
  bvcMax : Nat
  bvcRemove : Nat
  pos : 0 < bvcRemove
  lt : bvcRemove < bvcMax
  /-- The sizes in words fit 32 bits. -/
  fits : bvcMax < 2 ^ 14

/-- The limits of the configuration. -/
def Limits.config : Limits := ⟨128, 8, by decide, by decide, by decide⟩

structure BvCache where
  /-- ID, time of last use and expansion of the cached diagrams. -/
  entries : List (Nat × Nat × List Nat)
  /-- The total number of values in all vectors of the cache. -/
  sz : Nat
  hits : Nat
  misses : Nat
  evictions : Nat
  evictUsed : Nat
  /-- The IDs that have been evicted. -/
  evicted : Finset Nat
  /-- The sequence number of the current call. -/
  time : Nat
  /-- Uses by time and ID, the oldest first. -/
  lru : List (Nat × Nat)

namespace BvCache

def empty : BvCache := ⟨[], 0, 0, 0, 0, 0, ∅, 0, []⟩

def find (c : BvCache) (id : Nat) : Option (Nat × List Nat) := c.entries.lookup id

/-- `bv_lru.push` -/
def pushLru (lru : List (Nat × Nat)) (t id : Nat) : List (Nat × Nat) :=
  lru.orderedInsert (fun x y => x.1 < y.1 ∨ x.1 = y.1 ∧ x.2 ≤ y.2) (t, id)

/-- Remove the oldest items until enough is free. -/
def evict (lim : Limits) : List (Nat × Nat) → BvCache → Run BvCache
  | lru, c =>
    if c.sz < (lim.bvcMax - lim.bvcRemove) * 2 ^ 18 then .ok { c with lru }
    else match lru with
    | [] => .error (.outOfRange "bv_lru")
    | (t, id) :: lru =>
      match c.find id with
      | none => .error (.assertion "i_bvc != bv_cache.end()")
      | some (t', v) =>
        -- some entries may have an older time than the cached diagram
        if t = t' then evict lim lru { c with
          sz := u32 (c.sz + 2 ^ 32 - u32 v.length)
          entries := c.entries.filter (·.1 ≠ id)
          evicted := insert id c.evicted
          evictions := u32 (c.evictions + 1) }
        else evict lim lru c

end BvCache

open BvCache

/-- Return the members of diagram `idB`, whose assignments are `sats`, for a cache with the given
limits. -/
def bdd2vecWithin (lim : Limits) (bits : Nat) (sats : List Assignment) (c : BvCache) (idB : Nat) :
    Run (List Nat × BvCache) := do
  require (idB ≠ 1) "B != bddtrue"
  if idB = 0 then return ([], c)
  let c := { c with time := u32 (c.time + 1) }
  match c.find idB with
  | some (_, v) =>
      return (v, { c with
        entries := c.entries.map fun e => if e.1 = idB then (idB, c.time, e.2.2) else e
        lru := pushLru c.lru c.time idB
        hits := u32 (c.hits + 1) })
  | none =>
      let c := { c with
        misses := u32 (c.misses + 1)
        evictUsed := if idB ∈ c.evicted then u32 (c.evictUsed + 1) else c.evictUsed }
      let c ← if c.sz ≥ lim.bvcMax * 2 ^ 18 then evict lim c.lru c else .ok c
      let bddexp ← sats.foldlM (sat2vec bits) []
      let v := bddexp.insertionSort (· ≤ ·)
      return (v, { c with
        entries := (idB, c.time, v) :: c.entries
        sz := u32 (c.sz + v.length)
        lru := pushLru c.lru c.time idB
        time := u32 (c.time + 1) })

/-- Return the members of diagram `idB`, whose assignments are `sats`. -/
def bdd2vec (bits : Nat) (sats : List Assignment) (c : BvCache) (idB : Nat) :
    Run (List Nat × BvCache) :=
  bdd2vecWithin .config bits sats c idB

/-! ## One assignment -/

/-- Number `x` is a value of the assignment `v`. -/
def Matches (bits : Nat) (v : Assignment) (x : Nat) : Prop :=
  x < 2 ^ bits ∧ ∀ k < bits, v (2 * k) ≠ -1 → (x.testBit k = true ↔ v (2 * k) = 1)

/-- The variables that `v` leaves open. -/
def openVars (v : Assignment) (bits : Nat) : List Nat :=
  (List.range bits).filter fun k => v (2 * k) = -1

theorem sat2vecScan_spec (v : Assignment) (bits : Nat) :
    ((List.range bits).foldl (sat2vecScan v) (0, [])).2 = (openVars v bits).map (2 ^ ·) ∧
    ∀ k, ((List.range bits).foldl (sat2vecScan v) (0, [])).1.testBit k = true ↔
      k < bits ∧ v (2 * k) = 1 := by
  induction bits with
  | zero => simp [openVars]
  | succ n ih =>
      obtain ⟨h1, h2⟩ := ih
      rw [List.range_succ, List.foldl_append, List.foldl_cons, List.foldl_nil]
      generalize (List.range n).foldl (sat2vecScan v) (0, []) = t at h1 h2
      have hopen : openVars v (n + 1) = openVars v n ++ if v (2 * n) = -1 then [n] else [] := by
        rw [openVars, List.range_succ, List.filter_append]
        by_cases hv : v (2 * n) = -1 <;> simp [openVars, hv]
      unfold sat2vecScan
      by_cases hv : v (2 * n) = -1
      · rw [if_pos hv]
        refine ⟨by simp [hopen, hv, h1], fun k => ?_⟩
        rw [h2 k]
        constructor
        · rintro ⟨hk, hv1⟩
          exact ⟨by omega, hv1⟩
        · rintro ⟨hk, hv1⟩
          refine ⟨Nat.lt_of_le_of_ne (Nat.le_of_lt_succ hk) fun he => ?_, hv1⟩
          rw [he, hv] at hv1
          omega
      · rw [if_neg hv]
        split
        · rename_i hv1
          refine ⟨by simp [hopen, hv, h1], fun k => ?_⟩
          rw [Nat.testBit_or, Bool.or_eq_true, h2 k, Nat.testBit_two_pow, decide_eq_true_eq]
          constructor
          · rintro (⟨hk, hv2⟩ | rfl)
            · exact ⟨by omega, hv2⟩
            · exact ⟨by omega, hv1⟩
          · rintro ⟨hk, hv2⟩
            by_cases hkn : n = k
            · exact .inr hkn
            · exact .inl ⟨by omega, hv2⟩
        · rename_i hv1
          refine ⟨by simp [hopen, hv, h1], fun k => ?_⟩
          rw [h2 k]
          constructor
          · rintro ⟨hk, hv2⟩
            exact ⟨by omega, hv2⟩
          · rintro ⟨hk, hv2⟩
            refine ⟨Nat.lt_of_le_of_ne (Nat.le_of_lt_succ hk) fun he => ?_, hv2⟩
            rw [he] at hv2
            exact hv1 hv2

/-- Bit `k` of a picked number comes from the base or from the selected masks. -/
theorem pickBits_testBit (base : Nat) (ks : List Nat) (i k : Nat) :
    (pickBits base (ks.map (2 ^ ·)) i).testBit k = true ↔
      base.testBit k = true ∨ ∃ j, ks[j]? = some k ∧ i.testBit j = true := by
  have hloop : ∀ n ≤ ks.length, ((List.range n).foldl (fun x j =>
      if i.testBit j then x ||| (ks.map (2 ^ ·)).getD j 0 else x) base).testBit k = true ↔
      base.testBit k = true ∨ ∃ j < n, ks[j]? = some k ∧ i.testBit j = true := by
    intro n hn
    induction n with
    | zero => simp
    | succ n ih =>
        have ih := ih (by omega)
        rw [List.range_succ, List.foldl_append, List.foldl_cons, List.foldl_nil]
        have hget : (ks.map (2 ^ ·)).getD n 0 = 2 ^ ks[n] := by
          rw [List.getD_eq_getElem?_getD, List.getElem?_map, List.getElem?_eq_getElem (by omega)]
          rfl
        have hks : ks[n]? = some ks[n] := List.getElem?_eq_getElem (by omega)
        split
        · rename_i hi
          rw [Nat.testBit_or, Bool.or_eq_true, ih, hget, Nat.testBit_two_pow, decide_eq_true_eq]
          constructor
          · rintro ((hb | ⟨j, hj, hjk⟩) | he)
            · exact .inl hb
            · exact .inr ⟨j, by omega, hjk⟩
            · exact .inr ⟨n, by omega, by rw [hks, he], hi⟩
          · rintro (hb | ⟨j, hj, hjk, hij⟩)
            · exact .inl (.inl hb)
            · by_cases hjn : j = n
              · subst hjn
                exact .inr (Option.some.inj (hks.symm.trans hjk))
              · exact .inl (.inr ⟨j, by omega, hjk, hij⟩)
        · rename_i hi
          rw [ih]
          constructor
          · rintro (hb | ⟨j, hj, hjk⟩)
            · exact .inl hb
            · exact .inr ⟨j, by omega, hjk⟩
          · rintro (hb | ⟨j, hj, hjk, hij⟩)
            · exact .inl hb
            · refine .inr ⟨j, Nat.lt_of_le_of_ne (Nat.le_of_lt_succ hj) ?_, hjk, hij⟩
              rintro rfl
              exact hi hij
  rw [pickBits, List.length_map, hloop ks.length (Nat.le_refl _)]
  refine or_congr Iff.rfl ⟨fun ⟨j, _, h⟩ => ⟨j, h⟩, fun ⟨j, h⟩ => ⟨j, ?_, h⟩⟩
  exact (List.getElem?_eq_some_iff.mp h.1).1

theorem mem_openVars {v : Assignment} {bits k : Nat} :
    k ∈ openVars v bits ↔ k < bits ∧ v (2 * k) = -1 := by
  simp [openVars]

/-- All values of an assignment, by the numbers that pick them. -/
def allPicks (bits : Nat) (v : Assignment) : List Nat :=
  (List.range (2 ^ (openVars v bits).length)).map
    (pickBits ((List.range bits).foldl (sat2vecScan v) (0, [])).1 ((openVars v bits).map (2 ^ ·)))

theorem mem_allPicks {bits : Nat} {v : Assignment} {x : Nat} :
    x ∈ allPicks bits v ↔ Matches bits v x := by
  have hbase := (sat2vecScan_spec v bits).2
  simp only [allPicks, List.mem_map, List.mem_range]
  generalize ((List.range bits).foldl (sat2vecScan v) (0, [])).1 = base at hbase
  have hbit : ∀ i k, (pickBits base ((openVars v bits).map (2 ^ ·)) i).testBit k = true ↔
      (k < bits ∧ v (2 * k) = 1) ∨ ∃ j, (openVars v bits)[j]? = some k ∧ i.testBit j = true :=
    fun i k => (pickBits_testBit base (openVars v bits) i k).trans (or_congr (hbase k) Iff.rfl)
  constructor
  · rintro ⟨i, -, rfl⟩
    refine ⟨Nat.lt_pow_two_of_testBit _ fun k hk => ?_, fun k hk hv => ?_⟩
    · by_contra hne
      rcases (hbit i k).mp (by simpa using hne) with h | ⟨j, hj, -⟩
      · omega
      · have := (mem_openVars.mp (List.mem_of_getElem? hj)).1
        omega
    · rw [hbit]
      constructor
      · rintro (h | ⟨j, hj, -⟩)
        · exact h.2
        · exact absurd (mem_openVars.mp (List.mem_of_getElem? hj)).2 hv
      · exact fun h => .inl ⟨hk, h⟩
  · rintro ⟨hlt, hx⟩
    -- the number that selects the open bits of `x`
    refine ⟨Nat.ofBits fun j : Fin (openVars v bits).length => x.testBit (openVars v bits)[j],
      Nat.ofBits_lt_two_pow _, Nat.eq_of_testBit_eq fun k => ?_⟩
    rw [Bool.eq_iff_iff, hbit]
    constructor
    · rintro (⟨hk, hv⟩ | ⟨j, hj, hi⟩)
      · exact (hx k hk (by omega)).mpr hv
      · obtain ⟨hlen, hget⟩ := List.getElem?_eq_some_iff.mp hj
        rw [Nat.testBit_ofBits_lt _ _ hlen] at hi
        rw [← hget]
        exact hi
    · intro hxk
      have hk : k < bits := by
        by_contra hge
        have := Nat.testBit_lt_two_pow (Nat.lt_of_lt_of_le hlt (Nat.pow_le_pow_right (by omega)
          (Nat.le_of_not_lt hge)))
        rw [this] at hxk
        cases hxk
      by_cases hv : v (2 * k) = -1
      · obtain ⟨j, hlen, hget⟩ := List.getElem_of_mem (mem_openVars.mpr ⟨hk, hv⟩)
        refine .inr ⟨j, List.getElem?_eq_some_iff.mpr ⟨hlen, hget⟩, ?_⟩
        rw [Nat.testBit_ofBits_lt _ _ hlen, Fin.getElem_fin, hget]
        exact hxk
      · exact .inl ⟨hk, (hx k hk hv).mp hxk⟩

theorem allPicks_nodup (bits : Nat) (v : Assignment) : (allPicks bits v).Nodup := by
  have hbase := (sat2vecScan_spec v bits).2
  refine List.Nodup.map_on (fun i hi i' hi' heq => ?_) List.nodup_range
  rw [List.mem_range] at hi hi'
  refine Nat.eq_of_testBit_eq fun j => ?_
  by_cases hlen : j < (openVars v bits).length
  · have hk := mem_openVars.mp (List.getElem_mem hlen)
    have hnodup : (openVars v bits).Nodup := List.Nodup.filter _ List.nodup_range
    -- bit `j` of the number is the bit of its open variable
    have hbit : ∀ i, (pickBits ((List.range bits).foldl (sat2vecScan v) (0, [])).1
        ((openVars v bits).map (2 ^ ·)) i).testBit (openVars v bits)[j] = true ↔
        i.testBit j = true := by
      intro i
      rw [pickBits_testBit, hbase]
      constructor
      · rintro (⟨-, hv⟩ | ⟨j', hj', hi⟩)
        · rw [hk.2] at hv
          omega
        · obtain ⟨hlen', hget⟩ := List.getElem?_eq_some_iff.mp hj'
          rw [(List.Nodup.getElem_inj_iff hnodup).mp hget] at hi
          exact hi
      · exact fun hi => .inr ⟨j, List.getElem?_eq_getElem hlen, hi⟩
    rw [Bool.eq_iff_iff, ← hbit i, ← hbit i', heq]
  · have hle := Nat.pow_le_pow_right (n := 2) (by omega) (Nat.le_of_not_lt hlen)
    rw [Nat.testBit_lt_two_pow (Nat.lt_of_lt_of_le hi hle),
      Nat.testBit_lt_two_pow (Nat.lt_of_lt_of_le hi' hle)]

/-- `sat2vec` appends the values of the assignment, each once, unless it leaves too
many variables open. -/
theorem sat2vec_perm (bits : Nat) (out : List Nat) (v : Assignment)
    (hopen : (openVars v bits).length ≤ 25) :
    ∃ l, sat2vec bits out v = .ok (out ++ l) ∧ l.Perm (allPicks bits v) := by
  have hscan := (sat2vecScan_spec v bits).1
  unfold sat2vec allPicks
  dsimp only
  rw [hscan]
  generalize ((List.range bits).foldl (sat2vecScan v) (0, [])).1 = base
  match hks : openVars v bits with
  | [] => exact ⟨_, rfl, List.Perm.refl _⟩
  | [k0] =>
      refine ⟨_, rfl, ?_⟩
      exact List.Perm.swap ..
  | [k0, k1] =>
      refine ⟨_, rfl, ?_⟩
      have hrange : (List.range (2 ^ [k0, k1].length)).map
          (pickBits base ([k0, k1].map (2 ^ ·))) =
          [base, base ||| 2 ^ k0, base ||| 2 ^ k1, base ||| 2 ^ k0 ||| 2 ^ k1] := by
        simp [pickBits, List.range_succ, Nat.testBit]
      rw [hrange, Nat.or_right_comm base (2 ^ k0)]
      exact (List.reverse_perm [base, base ||| 2 ^ k0, base ||| 2 ^ k1 ||| 2 ^ k0, base ||| 2 ^ k1]).trans
        (.cons _ (.cons _ (.swap ..)))
  | k0 :: k1 :: k2 :: ks =>
      rw [hks] at hopen
      refine ⟨_, ?_, List.Perm.refl _⟩
      simp only [List.map_cons]
      rw [inRange, require, if_pos (by simp at hopen ⊢; omega), if_pos (by simpa using hopen)]
      simp only [List.length_cons, List.length_map]
      rfl

/-- With at most 25 open variables `sat2vec` appends every value of the assignment, each once, and
nothing else; few open variables or many, it is the list that the loop over all subsets
makes, in some order. -/
theorem sat2vec_expands (bits : Nat) (out : List Nat) (v : Assignment) (hbits : bits ≤ 32)
    (hopen : (openVars v bits).length ≤ 25) :
    ∃ l, sat2vec bits out v = .ok (out ++ l) ∧ l.Nodup ∧ (∀ x, x ∈ l ↔ Matches bits v x) ∧
      (∀ x ∈ l, x < 2 ^ 32) ∧
      let t := (List.range bits).foldl (sat2vecScan v) (0, [])
      l.Perm ((List.range (2 ^ t.2.length)).map (pickBits t.1 t.2)) := by
  obtain ⟨l, hrun, hperm⟩ := sat2vec_perm bits out v hopen
  have hmem : ∀ x, x ∈ l ↔ Matches bits v x := fun x => hperm.mem_iff.trans mem_allPicks
  refine ⟨l, hrun, hperm.nodup_iff.mpr (allPicks_nodup bits v), hmem, fun x hx => ?_, ?_⟩
  · exact Nat.lt_of_lt_of_le ((hmem x).mp hx).1 (Nat.pow_le_pow_right (by decide) hbits)
  · have hscan := (sat2vecScan_spec v bits).1
    dsimp only
    rw [hscan, List.length_map]
    exact hperm

/-- Three open variables of four, the second variable of the domain is set. -/
theorem sat2vec_expands_three : ∃ l, sat2vec 4 [7] (fun i => if i = 2 then 1 else -1) = .ok ([7] ++ l) ∧
    l.Nodup ∧ (∀ x, x ∈ l ↔ Matches 4 (fun i => if i = 2 then 1 else -1) x) := by
  obtain ⟨l, hrun, hnodup, hmem, -⟩ :=
    sat2vec_expands 4 [7] (fun i => if i = 2 then 1 else -1) (by decide) (by decide)
  exact ⟨l, hrun, hnodup, hmem⟩

end PtrAnalysis
