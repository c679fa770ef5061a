import PtrAnalysis.CacheRuns

/-!
# The bookkeeping of the cache

Between calls of `bdd2vec` the size counter, the map and the queue of uses agree, whatever
the diagrams hold and whatever the limits are. So eviction finds every ID it takes from the
queue, ends, and takes the items in the order of their last use.
-/

namespace PtrAnalysis

open Run

namespace BvCache

/-- How many values all vectors of the cache have. -/
def total (c : BvCache) : Nat := (c.entries.map fun e => e.2.2.length).sum

/-- The cache after some calls for diagrams that are not constant, while the total fits 32
bits. -/
inductive Calls (lim : Limits) (bits : Nat) : Nat → BvCache → Prop where
  | start : Calls lim bits 0 .empty
  | call {n id : Nat} {sats : List Assignment} {v : List Nat} {c c' : BvCache}
      (h : Calls lim bits n c) (hid : 2 ≤ id)
      (hrun : bdd2vecWithin lim bits sats c id = .ok (v, c')) (hfits : c'.total < 2 ^ 32) :
      Calls lim bits (n + 1) c'

/-- What holds between two calls. -/
structure Kept (c : BvCache) : Prop where
  size : c.sz = c.total
  cached : ∀ x ∈ c.lru, ∃ t v, c.find x.2 = some (t, v) ∧ x.1 ≤ t
  current : ∀ id t v, c.find id = some (t, v) → c.lru.count (t, id) = 1

/-- The times of all uses have passed. -/
structure Tracked (c : BvCache) : Prop where
  cache : Consistent c.lru c.entries c.sz
  times : ∀ x ∈ c.lru, x.1 ≤ c.time
  sz : c.sz < 2 ^ 32

variable {lim : Limits} {bits : Nat} {c c' : BvCache}

theorem Tracked.kept (h : Tracked c) : Kept c where
  size := h.cache.size
  cached x hx := by
    obtain ⟨e, he, hid, hle⟩ := h.cache.cached x hx
    exact ⟨e.2.1, e.2.2, (lookup_iff h.cache.keys).mpr (hid ▸ he), hle⟩
  current id t v hfind := by
    have hmem : (t, id) ∈ c.lru := h.cache.cover _ ((lookup_iff h.cache.keys).mp hfind)
    have hnodup : c.lru.Nodup := h.cache.sorted.imp fun {x y} hlt heq => by
      rw [heq] at hlt
      exact absurd hlt (lt_irrefl _)
    exact List.count_eq_one_of_mem hnodup hmem

theorem tracked_empty : Tracked .empty where
  cache := ⟨List.nodup_nil, .nil, fun _ he => (List.not_mem_nil he).elim,
    fun _ hx => (List.not_mem_nil hx).elim, rfl⟩
  times _ hx := (List.not_mem_nil hx).elim
  sz := Nat.two_pow_pos 32

/-- A call only stops where filling in a vector does, and keeps track. -/
theorem Tracked.call (h : Tracked c) (htime : c.time + 1 < 2 ^ 32) {id : Nat} (hid : 2 ≤ id)
    (sats : List Assignment) :
    Spec (bdd2vecWithin lim bits sats c id)
      (fun t => t.2.total < 2 ^ 32 → c.time + 2 < 2 ^ 32 → Tracked t.2 ∧ t.2.time ≤ c.time + 2)
      fun e => sats.foldlM (sat2vec bits) [] = .error e := by
  have hnow : u32 (c.time + 1) = c.time + 1 := Nat.mod_eq_of_lt htime
  have h1 : id ≠ 1 := by omega
  have h0 : id ≠ 0 := by omega
  have hlt : ∀ x ∈ c.lru, x.1 < c.time + 1 := fun x hx => Nat.lt_succ_of_le (h.times x hx)
  cases hfind : c.find id with
  | some e =>
      obtain ⟨t, v⟩ := e
      have hmem : (id, t, v) ∈ c.entries := (lookup_iff h.cache.keys).mp hfind
      rw [bdd2vec_hit lim h1 h0 hfind, hnow, pushLru_last hlt]
      refine fun _ _ => ⟨⟨h.cache.hit hlt ⟨_, hmem, rfl⟩, fun x hx => ?_, h.sz⟩, Nat.le_succ _⟩
      rcases List.mem_append.mp hx with hx | hx
      · exact Nat.le_of_lt (hlt x hx)
      · rw [List.mem_singleton.mp hx]
  | none =>
      have hnew : ∀ e ∈ c.entries, e.1 ≠ id := lookup_none_iff.mp hfind
      obtain ⟨c', hroom, hc', htime', hle, hents, hlru⟩ := h.cache.room lim h.sz htime id
      have hlt' : ∀ x ∈ c'.lru, x.1 < c'.time := fun x hx => by
        rw [htime']
        exact hlt x (hlru x hx)
      rw [bdd2vec_expand h1 h0 hfind hroom]
      cases hl : sats.foldlM (sat2vec bits) [] with
      | error e => rfl
      | ok l =>
          have hmiss := hc'.miss hlt' (fun e he => hnew e (hents e he)) (l.insertionSort (· ≤ ·))
          intro hfits htime2
          have hsz : c'.sz + (l.insertionSort (· ≤ ·)).length < 2 ^ 32 := hmiss.size ▸ hfits
          have hnext : u32 (c'.time + 1) = c.time + 2 := by
            rw [htime']
            exact Nat.mod_eq_of_lt (by omega)
          refine ⟨⟨?_, fun x hx => ?_, Nat.mod_lt _ (Nat.two_pow_pos 32)⟩, hnext.le⟩
          · dsimp only
            rw [pushLru_last hlt', u32, Nat.mod_eq_of_lt hsz]
            exact hmiss
          · dsimp only at hx ⊢
            rw [pushLru_last hlt'] at hx
            rw [hnext]
            rcases List.mem_append.mp hx with hx | hx
            · have := hlt x (hlru x hx)
              omega
            · rw [List.mem_singleton.mp hx]
              dsimp only
              omega

theorem Calls.tracked {n : Nat} (h : Calls lim bits n c) (hn : n < 2 ^ 31) :
    Tracked c ∧ c.time ≤ 2 * n := by
  induction h with
  | start => exact ⟨tracked_empty, Nat.le_refl _⟩
  | @call n id sats v c c' h hid hrun hfits ih =>
      obtain ⟨hc, htime⟩ := ih (by omega)
      obtain ⟨hc', htime'⟩ : Tracked c' ∧ c'.time ≤ c.time + 2 :=
        (hc.call (by omega) hid sats).result hrun hfits (by omega)
      exact ⟨hc', by omega⟩

end BvCache

open BvCache

/-- After fewer than 2^31 calls of `bdd2vec`, of whatever diagrams, the counter is the total
length of the cached vectors, every use in the queue is one of an item that is cached and was not
used earlier, and the last use of every item is there once. Eviction then always gets below its
limit, and takes the items used least recently, the oldest first; the next call stops only
if `sat2vec` does. -/
theorem bdd2vec_bookkeeping (lim : Limits) (bits n : Nat) (c : BvCache) (h : Calls lim bits n c)
    (hn : n < 2 ^ 31) :
    c.Kept ∧ ∀ id, 2 ≤ id →
      (∃ c', evict lim c.lru (c.missed id) = .ok c' ∧
        c'.sz < (lim.bvcMax - lim.bvcRemove) * 2 ^ 18 ∧
        OldestFirst (evictedItems lim c.lru (c.missed id)) c.entries c'.entries) ∧
      ∀ sats e, bdd2vecWithin lim bits sats c id = .error e →
        sats.foldlM (sat2vec bits) [] = .error e := by
  obtain ⟨hc, htime⟩ := h.tracked hn
  refine ⟨hc.kept, fun id hid => ⟨?_, fun sats e hrun => ?_⟩⟩
  · obtain ⟨c', hrun, -, -, -, -, -, hfree, hold⟩ :=
      Consistent.evict lim (c := c.missed id) hc.cache hc.sz
    exact ⟨c', hrun, hfree, hold⟩
  · exact (hc.call (by omega) hid sats).stop hrun

/-- The smallest limits: when there are two MB, one is freed. -/
def Limits.least : Limits := ⟨2, 1, by decide, by decide, by decide⟩

/-- The cache after diagram 5 was expanded to `v`. -/
def BvCache.full (v : List Nat) : BvCache :=
  { BvCache.empty with entries := [(5, 1, v)], sz := v.length, misses := 1, time := 2, lru := [(1, 5)] }

/-- Diagram 5 was asked for again. -/
def BvCache.hit (v : List Nat) : BvCache :=
  { full v with entries := [(5, 3, v)], hits := 1, time := 3, lru := [(1, 5), (3, 5)] }

/-- The set of diagram 6 took its place. -/
def BvCache.replaced : BvCache :=
  { BvCache.empty with
    entries := [(6, 4, [1])]
    sz := 1
    hits := 1
    misses := 2
    evictions := 1
    evicted := {5}
    time := 5
    lru := [(4, 6)] }

/-- The first use of 5 is passed over, since the second one is later. -/
theorem BvCache.hit_room {v : List Nat} (hv : v.length = 2 ^ 19) :
    (if (hit v).sz ≥ Limits.least.bvcMax * 2 ^ 18 then evict .least (hit v).lru ((hit v).missed 6)
      else .ok ((hit v).missed 6)) =
    .ok { (hit v).missed 6 with entries := [], sz := 0, evictions := 1, evicted := {5}, lru := [] } := by
  have hfull : ¬ ((hit v).missed 6).sz < (Limits.least.bvcMax - Limits.least.bvcRemove) * 2 ^ 18 := by
    change ¬ v.length < _
    rw [hv]
    decide
  have hsz : u32 (v.length + 2 ^ 32 - u32 v.length) = 0 := by
    rw [hv]
    decide
  have hmax : (hit v).sz ≥ Limits.least.bvcMax * 2 ^ 18 := by
    change v.length ≥ _
    rw [hv]
    decide
  rw [if_pos hmax]
  have hfind : ((hit v).missed 6).find 5 = some (3, v) := rfl
  have h1 : evict .least [(1, 5), (3, 5)] ((hit v).missed 6) =
      evict .least [(3, 5)] ((hit v).missed 6) := by
    conv_lhs => rw [evict, if_neg hfull, hfind]
    exact if_neg (by decide)
  have h3 : evict .least [(3, 5)] ((hit v).missed 6) =
      evict .least [] { (hit v).missed 6 with
        entries := [], sz := u32 (v.length + 2 ^ 32 - u32 v.length), evictions := 1, evicted := {5} } := by
    conv_lhs => rw [evict, if_neg hfull, hfind]
    refine (if_pos rfl).trans (congrArg (evict .least []) ?_)
    rfl
  rw [hsz, evict] at h3
  have hfree : 0 < (Limits.least.bvcMax - Limits.least.bvcRemove) * 2 ^ 18 := by decide
  exact h1.trans (h3.trans (if_pos hfree))

theorem bdd2vec_bookkeeping_evicts : ∃ c, Calls .least 19 3 c ∧ c.Kept ∧ c.hits = 1 ∧
    c.evicted = {5} ∧ ∃ c', evict .least c.lru (c.missed 7) = .ok c' := by
  have hopen : (openVars (fun _ => -1) 19).length = 19 := by decide
  obtain ⟨l, hl, hperm⟩ := sat2vec_perm 19 [] (fun _ => -1) (hopen.le.trans (by decide))
  have hlen : (l.insertionSort (· ≤ ·)).length = 2 ^ 19 := by
    rw [List.length_insertionSort, hperm.length_eq, allPicks, List.length_map, List.length_range, hopen]
  generalize hv : l.insertionSort (· ≤ ·) = v at hlen
  have hfits : ∀ t, total { full v with entries := [(5, t, v)] } < 2 ^ 32 := fun t => by
    rw [show total { full v with entries := [(5, t, v)] } = v.length from Nat.add_zero _, hlen]
    decide
  have hsz : u32 (0 + v.length) = v.length := by
    rw [hlen]
    decide
  -- the numbers of 19 bits fill the cache
  have hmiss : bdd2vecWithin .least 19 [fun _ => -1] .empty 5 = .ok (v, full v) := by
    have hexpand : [fun _ => (-1 : Int)].foldlM (sat2vec 19) [] = .ok l := by
      rw [List.foldlM_cons, hl]
      rfl
    have hroom : (if BvCache.empty.sz ≥ Limits.least.bvcMax * 2 ^ 18 then
        evict .least BvCache.empty.lru (BvCache.empty.missed 5)
        else .ok (BvCache.empty.missed 5)) = .ok (BvCache.empty.missed 5) := if_neg (by decide)
    refine (bdd2vec_miss (by decide) (by decide) rfl hroom hexpand).trans ?_
    rw [hv]
    exact congrArg (fun k => Except.ok (v, { full v with sz := k })) hsz
  have hhit : bdd2vecWithin .least 19 [fun _ => -1] (full v) 5 = .ok (v, hit v) :=
    (bdd2vec_hit .least (by decide) (by decide) rfl).trans rfl
  have hnext : bdd2vecWithin .least 19 (minterms {1}) (hit v) 6 = .ok ([1], replaced) :=
    (bdd2vec_miss (by decide) (by decide) rfl (hit_room hlen) (l := [1]) rfl).trans rfl
  have hcalls : Calls .least 19 3 replaced :=
    ((Calls.start.call (by decide) hmiss (hfits 1)).call (by decide) hhit (hfits 3)).call
      (by decide) hnext (by decide)
  obtain ⟨hkept, hroom⟩ := bdd2vec_bookkeeping .least 19 3 replaced hcalls (by decide)
  obtain ⟨⟨c', hrun, -⟩, -⟩ := hroom 7 (by decide)
  exact ⟨replaced, hcalls, hkept, rfl, rfl, c', hrun⟩

end PtrAnalysis
