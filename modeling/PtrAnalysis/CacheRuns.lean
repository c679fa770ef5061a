import PtrAnalysis.Cache
import PtrAnalysis.Lib.Assoc

/-!
# The cache over the life of the diagrams

The cache knows a diagram by its ID alone and holds no reference to it. When the
last handle is gone and the library collects garbage, the ID can be given to
another diagram, and the expansion in the cache is not dropped.

`Reachable` are the states of library and cache after any sequence of creations,
releases, collections and expansions. Over the runs in which no ID is reused
while its old expansion is cached, `bdd2vec` returns what it should.
-/

namespace PtrAnalysis

open Run BvCache

/-! ## Filling in a vector -/

/-- What the library promises of an enumeration: the assignments cover the set, and
no two of them have a value in common. -/
structure Enumerates (bits : Nat) (S : Finset Nat) (sats : List Assignment) : Prop where
  cover : ∀ x, x ∈ S ↔ ∃ v ∈ sats, Matches bits v x
  disjoint : sats.Pairwise fun v w => ∀ x, Matches bits v x → ¬ Matches bits w x

theorem sat2vec_all {bits : Nat} {sats : List Assignment}
    (hopen : ∀ v ∈ sats, (openVars v bits).length ≤ 25) (out : List Nat) :
    ∃ l, sats.foldlM (sat2vec bits) out = .ok (out ++ l) ∧ l.Perm (sats.flatMap (allPicks bits)) := by
  induction sats generalizing out with
  | nil => exact ⟨[], by rw [List.append_nil]; rfl, List.Perm.refl _⟩
  | cons v sats ih =>
      obtain ⟨l, hl, hperm⟩ := sat2vec_perm bits out v (hopen v (List.mem_cons_self ..))
      obtain ⟨l', hl', hperm'⟩ := ih (fun w hw => hopen w (List.mem_cons_of_mem _ hw)) (out ++ l)
      refine ⟨l ++ l', ?_, ?_⟩
      · rw [List.foldlM_cons, hl, ← List.append_assoc]
        exact hl'
      · rw [List.flatMap_cons]
        exact hperm.append hperm'

/-- The sorted values of all assignments are the members of the set. -/
theorem sat2vec_sorted {bits : Nat} {S : Finset Nat} {sats : List Assignment}
    (h : Enumerates bits S sats) (hopen : ∀ v ∈ sats, (openVars v bits).length ≤ 25) :
    ∃ l, sats.foldlM (sat2vec bits) [] = .ok l ∧ l.insertionSort (· ≤ ·) = ascending S := by
  obtain ⟨l, hl, hperm⟩ := sat2vec_all hopen []
  refine ⟨l, hl, ?_⟩
  have hnodup : l.Nodup := by
    refine hperm.nodup_iff.mpr (List.nodup_flatMap.mpr ⟨fun v _ => allPicks_nodup bits v, ?_⟩)
    refine h.disjoint.imp fun hvw x hx hx' => ?_
    exact hvw x (mem_allPicks.mp hx) (mem_allPicks.mp hx')
  have hmem : ∀ x, x ∈ l ↔ x ∈ ascending S := by
    intro x
    rw [hperm.mem_iff, mem_ascending, h.cover, List.mem_flatMap]
    simp only [mem_allPicks]
  refine List.Perm.eq_of_pairwise (fun a b _ _ (hab : a ≤ b) hba => Nat.le_antisymm hab hba)
    (List.pairwise_insertionSort (· ≤ ·) l) ((ascending_sorted S).imp Nat.le_of_lt) ?_
  exact (List.perm_insertionSort _ l).trans
    ((List.perm_ext_iff_of_nodup hnodup (ascending_nodup S)).mpr hmem)

/-! ## The bookkeeping -/

/-- The entries of a cache, their uses in the order of time, and their size. -/
structure Consistent (lru : List (Nat × Nat)) (entries : List (Nat × Nat × List Nat)) (sz : Nat) :
    Prop where
  keys : (entries.map Prod.fst).Nodup
  sorted : lru.Pairwise fun x y => x.1 < y.1
  cover : ∀ e ∈ entries, (e.2.1, e.1) ∈ lru
  cached : ∀ x ∈ lru, ∃ e ∈ entries, e.1 = x.2 ∧ x.1 ≤ e.2.1
  size : sz = (entries.map fun e => e.2.2.length).sum

/-- An entry and those of the other IDs. -/
theorem perm_filter {entries : List (Nat × Nat × List Nat)} (h : (entries.map Prod.fst).Nodup)
    {id t : Nat} {v : List Nat} (hmem : (id, t, v) ∈ entries) :
    entries.Perm ((id, t, v) :: entries.filter (·.1 ≠ id)) := by
  have hrest : (entries.filter (·.1 ≠ id)).Nodup := h.of_map.filter _
  have hout : (id, t, v) ∉ entries.filter (·.1 ≠ id) := fun hin => by
    simpa using (List.mem_filter.mp hin).2
  refine (List.perm_ext_iff_of_nodup h.of_map (List.nodup_cons.mpr ⟨hout, hrest⟩)).mpr fun e => ?_
  rw [List.mem_cons, List.mem_filter]
  constructor
  · intro he
    by_cases hid : e.1 = id
    · left
      have he' : (id, e.2.1, e.2.2) ∈ entries := hid ▸ he
      have heq := ((lookup_iff h).mpr he').symm.trans ((lookup_iff h).mpr hmem)
      rw [← Option.some.inj heq, ← hid]
    · exact .inr ⟨he, decide_eq_true hid⟩
  · rintro (rfl | ⟨he, -⟩)
    · exact hmem
    · exact he

/-- Erasing an entry takes its length off the sum. -/
theorem sum_erase {entries : List (Nat × Nat × List Nat)} (h : (entries.map Prod.fst).Nodup)
    {id t : Nat} {v : List Nat} (hmem : (id, t, v) ∈ entries) :
    ((entries.filter (·.1 ≠ id)).map fun e => e.2.2.length).sum + v.length =
      (entries.map fun e => e.2.2.length).sum := by
  rw [((perm_filter h hmem).map fun e => e.2.2.length).sum_eq, List.map_cons, List.sum_cons]
  exact Nat.add_comm ..

/-- Without its oldest use the cache is consistent, if the entry is used later. -/
theorem Consistent.skip {t id t' : Nat} {v : List Nat} {lru : List (Nat × Nat)}
    {entries : List (Nat × Nat × List Nat)} {sz : Nat}
    (h : Consistent ((t, id) :: lru) entries sz) (hmem : (id, t', v) ∈ entries) (ht : t ≠ t') :
    Consistent lru entries sz := by
  refine ⟨h.keys, (List.pairwise_cons.mp h.sorted).2, ?_,
    fun x hx => h.cached x (List.mem_cons_of_mem _ hx), h.size⟩
  intro e he
  rcases List.mem_cons.mp (h.cover e he) with heq | hin
  · obtain ⟨h1, h2⟩ := Prod.mk.inj heq
    have h3 : (id, e.2.1, e.2.2) ∈ entries := by rw [← h2]; exact he
    have h4 := (lookup_iff h.keys).mpr h3
    rw [(lookup_iff h.keys).mpr hmem] at h4
    exact absurd ((Prod.mk.inj (Option.some.inj h4)).1.trans h1).symm ht
  · exact hin

/-- Dropping the entry with the oldest use keeps the cache consistent. -/
theorem Consistent.drop {t id : Nat} {v : List Nat} {lru : List (Nat × Nat)}
    {entries : List (Nat × Nat × List Nat)} {sz : Nat}
    (h : Consistent ((t, id) :: lru) entries sz) (hmem : (id, t, v) ∈ entries) :
    Consistent lru (entries.filter (·.1 ≠ id)) (sz - v.length) := by
  obtain ⟨hfirst, hsorted⟩ := List.pairwise_cons.mp h.sorted
  refine ⟨(List.filter_sublist.map _).nodup h.keys, hsorted, ?_, ?_, ?_⟩
  · intro e he
    obtain ⟨hin, hne⟩ := List.mem_filter.mp he
    rcases List.mem_cons.mp (h.cover e hin) with heq | hin
    · simp [(Prod.mk.inj heq).2] at hne
    · exact hin
  · intro x hx
    obtain ⟨e, he, hid, hle⟩ := h.cached x (List.mem_cons_of_mem _ hx)
    refine ⟨e, List.mem_filter.mpr ⟨he, decide_eq_true fun hk => ?_⟩, hid, hle⟩
    -- the last use of the dropped entry was the oldest of all
    have h1 : (id, e.2.1, e.2.2) ∈ entries := by rw [← hk]; exact he
    have h2 := (lookup_iff h.keys).mpr h1
    rw [(lookup_iff h.keys).mpr hmem] at h2
    have h3 := (Prod.mk.inj (Option.some.inj h2)).1
    have h4 := hfirst x hx
    omega
  · have h1 := sum_erase h.keys hmem
    have h2 := h.size
    omega

/-- The items that eviction removes, in this order. -/
def evictedItems (lim : Limits) : List (Nat × Nat) → BvCache → List (Nat × Nat × List Nat)
  | [], _ => []
  | (t, id) :: lru, c =>
    if c.sz < (lim.bvcMax - lim.bvcRemove) * 2 ^ 18 then []
    else match c.find id with
    | none => []
    | some (t', v) =>
      if t = t' then (id, t, v) :: evictedItems lim lru { c with
        sz := u32 (c.sz + 2 ^ 32 - u32 v.length)
        entries := c.entries.filter (·.1 ≠ id)
        evicted := insert id c.evicted
        evictions := u32 (c.evictions + 1) }
      else evictedItems lim lru c

/-- What is evicted is what was used least recently, the oldest first. -/
structure OldestFirst (gone before after : List (Nat × Nat × List Nat)) : Prop where
  order : gone.Pairwise fun x y => x.2.1 < y.2.1
  older : ∀ x ∈ gone, ∀ e ∈ after, x.2.1 < e.2.1
  split : before.Perm (gone ++ after)

theorem OldestFirst.none (entries : List (Nat × Nat × List Nat)) : OldestFirst [] entries entries where
  order := .nil
  older _ hx := absurd hx List.not_mem_nil
  split := .refl _

/-- Times differ, so whatever is used later is cached under another ID. -/
theorem Consistent.later {t id : Nat} {lru : List (Nat × Nat)}
    {entries : List (Nat × Nat × List Nat)} {sz : Nat} (h : Consistent ((t, id) :: lru) entries sz) :
    ∀ e ∈ entries.filter (·.1 ≠ id), t < e.2.1 := by
  intro e he
  obtain ⟨hin, hne⟩ := List.mem_filter.mp he
  rcases List.mem_cons.mp (h.cover e hin) with heq | hlater
  · simp [(Prod.mk.inj heq).2] at hne
  · exact (List.pairwise_cons.mp h.sorted).1 _ hlater

/-- Eviction always finds what it looks for, and ends. -/
theorem Consistent.evict (lim : Limits) {lru : List (Nat × Nat)} {c : BvCache}
    (h : Consistent lru c.entries c.sz) (hsz : c.sz < 2 ^ 32) :
    ∃ c', evict lim lru c = .ok c' ∧ Consistent c'.lru c'.entries c'.sz ∧ c'.time = c.time ∧
      c'.sz ≤ c.sz ∧ (∀ e ∈ c'.entries, e ∈ c.entries) ∧ (∀ x ∈ c'.lru, x ∈ lru) ∧
      c'.sz < (lim.bvcMax - lim.bvcRemove) * 2 ^ 18 ∧
      OldestFirst (evictedItems lim lru c) c.entries c'.entries := by
  have hroom : 0 < (lim.bvcMax - lim.bvcRemove) * 2 ^ 18 :=
    Nat.mul_pos (Nat.sub_pos_of_lt lim.lt) (Nat.two_pow_pos 18)
  induction lru generalizing c with
  | nil =>
      -- without uses there are no entries, so the cache is empty
      have hnone : c.entries = [] := List.eq_nil_iff_forall_not_mem.mpr fun e he => by
        cases h.cover e he
      have h0 : c.sz = 0 := by rw [h.size, hnone]; rfl
      refine ⟨{ c with lru := [] }, ?_, h, rfl, Nat.le_refl _, fun _ he => he, fun _ hx => hx,
        h0 ▸ hroom, .none _⟩
      rw [BvCache.evict, if_pos (h0 ▸ hroom)]
  | cons x lru ih =>
      obtain ⟨t, id⟩ := x
      rw [BvCache.evict, evictedItems]
      by_cases hlim : c.sz < (lim.bvcMax - lim.bvcRemove) * 2 ^ 18
      · rw [if_pos hlim, if_pos hlim]
        exact ⟨_, rfl, h, rfl, Nat.le_refl _, fun _ he => he, fun _ hx => hx, hlim, .none _⟩
      · rw [if_neg hlim, if_neg hlim]
        obtain ⟨e, he, hid, -⟩ := h.cached _ (List.mem_cons_self ..)
        obtain ⟨id', t', v⟩ := e
        cases hid
        have hfind : c.find id = some (t', v) := (lookup_iff h.keys).mpr he
        rw [hfind]
        dsimp only
        by_cases ht : t = t'
        · subst ht
          rw [if_pos rfl, if_pos rfl]
          have hlen := sum_erase h.keys he
          have hsub : u32 (c.sz + 2 ^ 32 - u32 v.length) = c.sz - v.length := by
            have h1 := h.size
            unfold u32
            omega
          rw [hsub]
          have hdrop := h.drop he
          obtain ⟨c', hrun, hc', htime, hle, hents, hlru, hfree, hold⟩ :=
            ih (c := { c with
                sz := c.sz - v.length
                entries := c.entries.filter (·.1 ≠ id)
                evicted := insert id c.evicted
                evictions := u32 (c.evictions + 1) }) hdrop (by dsimp only; omega)
          refine ⟨c', hrun, hc', htime, hle.trans (Nat.sub_le ..), fun e he => ?_,
            fun x hx => List.mem_cons_of_mem _ (hlru x hx), hfree, ?_⟩
          · exact (List.mem_filter.mp (hents e he)).1
          · refine ⟨List.pairwise_cons.mpr ⟨fun x hx => ?_, hold.order⟩, fun x hx e he' => ?_,
              (perm_filter h.keys he).trans (hold.split.cons _)⟩
            · exact h.later x (hold.split.mem_iff.mpr (List.mem_append_left _ hx))
            · rcases List.mem_cons.mp hx with rfl | hx
              · exact h.later e (hents e he')
              · exact hold.older x hx e he'
        · rw [if_neg ht, if_neg ht]
          obtain ⟨c', hrun, hc', htime, hle, hents, hlru, hfree, hold⟩ := ih (h.skip he ht) hsz
          exact ⟨c', hrun, hc', htime, hle, hents, fun x hx => List.mem_cons_of_mem _ (hlru x hx),
            hfree, hold⟩

/-- A use later than all others goes to the end. -/
theorem pushLru_last {lru : List (Nat × Nat)} {t id : Nat} (h : ∀ x ∈ lru, x.1 < t) :
    pushLru lru t id = lru ++ [(t, id)] := by
  induction lru with
  | nil => rfl
  | cons x lru ih =>
      have hx := h x (List.mem_cons_self ..)
      have hle : ¬ (t < x.1 ∨ t = x.1 ∧ id ≤ x.2) := by omega
      have ih := ih fun y hy => h y (List.mem_cons_of_mem _ hy)
      rw [pushLru] at ih ⊢
      rw [List.orderedInsert, if_neg hle, ih]
      rfl

theorem sorted_push {lru : List (Nat × Nat)} {t id : Nat} (h : lru.Pairwise fun x y => x.1 < y.1)
    (hlt : ∀ x ∈ lru, x.1 < t) : (lru ++ [(t, id)]).Pairwise fun x y => x.1 < y.1 := by
  refine List.pairwise_append.mpr ⟨h, List.pairwise_singleton .., fun x hx y hy => ?_⟩
  rw [List.mem_singleton.mp hy]
  exact hlt x hx

/-- A hit makes its entry the latest. -/
theorem Consistent.hit {lru : List (Nat × Nat)} {entries : List (Nat × Nat × List Nat)} {sz t id : Nat}
    (h : Consistent lru entries sz) (hlt : ∀ x ∈ lru, x.1 < t) (hid : ∃ e ∈ entries, e.1 = id) :
    Consistent (lru ++ [(t, id)])
      (entries.map fun e => if e.1 = id then (id, t, e.2.2) else e) sz := by
  have hmem : ∀ e ∈ entries, (if e.1 = id then (id, t, e.2.2) else e) ∈
      entries.map fun e => if e.1 = id then (id, t, e.2.2) else e :=
    fun e he => List.mem_map.mpr ⟨e, he, rfl⟩
  refine ⟨?_, sorted_push h.sorted hlt, ?_, ?_, ?_⟩
  · rw [List.map_map]
    refine cast (congrArg List.Nodup (List.map_congr_left fun e _ => ?_)) h.keys
    by_cases he : e.1 = id
    · simp [he]
    · simp [he]
  · intro e' he'
    obtain ⟨e, he, rfl⟩ := List.mem_map.mp he'
    by_cases heq : e.1 = id
    · rw [if_pos heq]
      exact List.mem_append_right _ (List.mem_singleton_self _)
    · rw [if_neg heq]
      exact List.mem_append_left _ (h.cover e he)
  · intro x hx
    rcases List.mem_append.mp hx with hx | hx
    · obtain ⟨e, he, hk, hle⟩ := h.cached x hx
      have hxt := hlt x hx
      refine ⟨_, hmem e he, ?_⟩
      by_cases heq : e.1 = id
      · rw [if_pos heq]
        exact ⟨heq.symm.trans hk, Nat.le_of_lt hxt⟩
      · rw [if_neg heq]
        exact ⟨hk, hle⟩
    · rw [List.mem_singleton.mp hx]
      obtain ⟨e, he, heq⟩ := hid
      refine ⟨_, hmem e he, ?_⟩
      rw [if_pos heq]
      exact ⟨rfl, Nat.le_refl _⟩
  · rw [h.size, List.map_map]
    refine congrArg List.sum (List.map_congr_left fun e _ => ?_)
    rw [Function.comp_apply]
    split <;> rfl

/-- A miss adds an entry. -/
theorem Consistent.miss {lru : List (Nat × Nat)} {entries : List (Nat × Nat × List Nat)} {sz t id : Nat}
    (h : Consistent lru entries sz) (hlt : ∀ x ∈ lru, x.1 < t) (hid : ∀ e ∈ entries, e.1 ≠ id)
    (v : List Nat) : Consistent (lru ++ [(t, id)]) ((id, t, v) :: entries) (sz + v.length) := by
  refine ⟨?_, sorted_push h.sorted hlt, ?_, ?_, ?_⟩
  · rw [List.map_cons, List.nodup_cons]
    refine ⟨fun hin => ?_, h.keys⟩
    obtain ⟨e, he, hk⟩ := List.mem_map.mp hin
    exact hid e he hk
  · intro e he
    rcases List.mem_cons.mp he with rfl | he
    · exact List.mem_append_right _ (List.mem_singleton_self _)
    · exact List.mem_append_left _ (h.cover e he)
  · intro x hx
    rcases List.mem_append.mp hx with hx | hx
    · obtain ⟨e, he, hk⟩ := h.cached x hx
      exact ⟨e, List.mem_cons_of_mem _ he, hk⟩
    · rw [List.mem_singleton.mp hx]
      exact ⟨_, List.mem_cons_self .., rfl, Nat.le_refl _⟩
  · rw [h.size, List.map_cons, List.sum_cons, Nat.add_comm]

/-! ## The library -/

/-- The diagrams of the library: the set of each that exists and the number of its
handles; and the cache. -/
structure Diagrams where
  table : Nat → Option (Finset Nat)
  live : Nat → Nat
  cache : BvCache

/-- The library with the two constants only, whose handles are never dropped. -/
def Diagrams.start (bits : Nat) : Diagrams where
  table id := if id = 0 then some ∅ else if id = 1 then some (.range (2 ^ bits)) else none
  live id := if id ≤ 1 then 1 else 0
  cache := .empty

inductive Diagrams.Event where
  /-- A handle of the diagram of a set, which may be new. -/
  | create (id : Nat) (S : Finset Nat)
  | release (id : Nat)
  /-- A garbage collection. -/
  | collect (freed : Finset Nat)
  | expand (id : Nat)
  /-- `clear_bdd2vec` -/
  | clear

/-- What the library and `bdd2vec` can do. A set has one diagram, a new diagram gets
any free ID, and what is collected has no handles. -/
inductive Diagrams.Step (bits : Nat) (allsat : Finset Nat → List Assignment) (w : Diagrams) :
    Event → Diagrams → Prop where
  | create {id : Nat} {S : Finset Nat} (hS : S ⊆ .range (2 ^ bits))
      (hone : ∀ id', w.table id' = some S → id' = id)
      (hid : w.table id = none ∨ w.table id = some S) :
      Step bits allsat w (.create id S) { w with
        table := Function.update w.table id (some S)
        live := Function.update w.live id (w.live id + 1) }
  | release {id : Nat} (hid : 2 ≤ id) (hlive : 0 < w.live id) :
      Step bits allsat w (.release id)
        { w with live := Function.update w.live id (w.live id - 1) }
  | collect {freed : Finset Nat} (hfree : ∀ id ∈ freed, 2 ≤ id ∧ w.live id = 0) :
      Step bits allsat w (.collect freed)
        { w with table := fun id => if id ∈ freed then none else w.table id }
  | expand {id : Nat} {S : Finset Nat} {v : List Nat} {c : BvCache} (hlive : 0 < w.live id)
      (hS : w.table id = some S) (hrun : bdd2vec bits (allsat S) w.cache id = .ok (v, c)) :
      Step bits allsat w (.expand id) { w with cache := c }
  | clear : Step bits allsat w .clear { w with cache := .empty }

/-- No expansion of another set is cached under the ID of a new diagram; and an
expansion is within the limits of the counters and of `sat2vec`. -/
def Diagrams.Fine (allsat : Finset Nat → List Assignment) (bits : Nat) (w : Diagrams) : Event → Prop
  | .create id S => ∀ e ∈ w.cache.entries, e.1 = id → e.2.2 = ascending S
  | .expand id => id ≠ 1 ∧ w.cache.time + 2 < 2 ^ 32 ∧ ∀ S, w.table id = some S →
      w.cache.sz + S.card < 2 ^ 32 ∧ ∀ v ∈ allsat S, (openVars v bits).length ≤ 25
  | _ => True

/-- The states after runs of fine steps. -/
inductive Diagrams.Reachable (bits : Nat) (allsat : Finset Nat → List Assignment) : Diagrams → Prop where
  | start : Reachable bits allsat (.start bits)
  | step {w w' : Diagrams} {e : Event} (hw : Reachable bits allsat w) (hstep : w.Step bits allsat e w')
      (hfine : w.Fine allsat bits e) : Reachable bits allsat w'

/-- Every cached expansion is that of the diagram that has its ID. -/
structure Diagrams.Sound (bits : Nat) (w : Diagrams) : Prop where
  cache : Consistent w.cache.lru w.cache.entries w.cache.sz
  times : ∀ x ∈ w.cache.lru, x.1 ≤ w.cache.time
  sz : w.cache.sz < 2 ^ 32
  right : ∀ e ∈ w.cache.entries, ∀ S, w.table e.1 = some S → e.2.2 = ascending S
  inside : ∀ id S, w.table id = some S → S ⊆ .range (2 ^ bits)
  false_ : w.table 0 = some ∅
  live : ∀ id, 0 < w.live id → w.table id ≠ none

theorem bdd2vec_hit (lim : Limits) {bits : Nat} {sats : List Assignment} {c : BvCache} {id t : Nat}
    {v : List Nat} (h1 : id ≠ 1) (h0 : id ≠ 0) (hfind : c.find id = some (t, v)) :
    bdd2vecWithin lim bits sats c id = .ok (v, { c with
      time := u32 (c.time + 1)
      entries := c.entries.map fun e => if e.1 = id then (id, u32 (c.time + 1), e.2.2) else e
      lru := pushLru c.lru (u32 (c.time + 1)) id
      hits := u32 (c.hits + 1) }) := by
  have hfind : find { c with time := u32 (c.time + 1) } id = some (t, v) := hfind
  simp only [bdd2vecWithin, require, if_pos h1, if_neg h0, hfind]
  rfl

/-- The cache of a miss before room is made. -/
def BvCache.missed (c : BvCache) (id : Nat) : BvCache :=
  { c with
    time := u32 (c.time + 1)
    misses := u32 (c.misses + 1)
    evictUsed := if id ∈ c.evicted then u32 (c.evictUsed + 1) else c.evictUsed }

theorem bdd2vec_expand {lim : Limits} {bits : Nat} {sats : List Assignment} {c c' : BvCache}
    {id : Nat} (h1 : id ≠ 1) (h0 : id ≠ 0) (hfind : c.find id = none)
    (hroom : (if c.sz ≥ lim.bvcMax * 2 ^ 18 then evict lim c.lru (c.missed id)
      else .ok (c.missed id)) = .ok c') :
    bdd2vecWithin lim bits sats c id = (sats.foldlM (sat2vec bits) [] >>= fun l =>
      .ok (l.insertionSort (· ≤ ·), { c' with
        entries := (id, c'.time, l.insertionSort (· ≤ ·)) :: c'.entries
        sz := u32 (c'.sz + (l.insertionSort (· ≤ ·)).length)
        lru := pushLru c'.lru c'.time id
        time := u32 (c'.time + 1) })) := by
  have hfind : find { c with time := u32 (c.time + 1) } id = none := hfind
  simp only [bdd2vecWithin, require, if_pos h1, if_neg h0, hfind]
  by_cases hfull : c.sz ≥ lim.bvcMax * 2 ^ 18
  · rw [if_pos hfull] at hroom ⊢
    change (evict lim c.lru (c.missed id) >>= _) = _
    rw [hroom]
    rfl
  · rw [if_neg hfull] at hroom ⊢
    cases hroom
    rfl

theorem bdd2vec_miss {lim : Limits} {bits : Nat} {sats : List Assignment} {c c' : BvCache} {id : Nat}
    {l : List Nat} (h1 : id ≠ 1) (h0 : id ≠ 0) (hfind : c.find id = none)
    (hroom : (if c.sz ≥ lim.bvcMax * 2 ^ 18 then evict lim c.lru (c.missed id)
      else .ok (c.missed id)) = .ok c')
    (hl : sats.foldlM (sat2vec bits) [] = .ok l) :
    bdd2vecWithin lim bits sats c id = .ok (l.insertionSort (· ≤ ·), { c' with
      entries := (id, c'.time, l.insertionSort (· ≤ ·)) :: c'.entries
      sz := u32 (c'.sz + (l.insertionSort (· ≤ ·)).length)
      lru := pushLru c'.lru c'.time id
      time := u32 (c'.time + 1) }) := by
  rw [bdd2vec_expand h1 h0 hfind hroom, hl]
  rfl

/-- What is left after room has been made. -/
theorem Consistent.room (lim : Limits) {c : BvCache} (h : Consistent c.lru c.entries c.sz)
    (hsz : c.sz < 2 ^ 32) (htime : c.time + 1 < 2 ^ 32) (id : Nat) :
    ∃ c', (if c.sz ≥ lim.bvcMax * 2 ^ 18 then BvCache.evict lim c.lru (c.missed id)
        else .ok (c.missed id)) = .ok c' ∧ Consistent c'.lru c'.entries c'.sz ∧
      c'.time = c.time + 1 ∧ c'.sz ≤ c.sz ∧ (∀ e ∈ c'.entries, e ∈ c.entries) ∧
      ∀ x ∈ c'.lru, x ∈ c.lru := by
  have hnow : u32 (c.time + 1) = c.time + 1 := Nat.mod_eq_of_lt htime
  by_cases hfull : c.sz ≥ lim.bvcMax * 2 ^ 18
  · rw [if_pos hfull, ← hnow]
    obtain ⟨c', hrun, hc', hrest⟩ := Consistent.evict lim (c := c.missed id) h hsz
    exact ⟨c', hrun, hc', hrest.1, hrest.2.1, hrest.2.2.1, hrest.2.2.2.1⟩
  · rw [if_neg hfull]
    exact ⟨_, rfl, h, hnow, Nat.le_refl _, fun _ he => he, fun _ hx => hx⟩

/-- One expansion returns the members of the diagram and leaves the cache sound. -/
theorem Diagrams.Sound.expand {bits : Nat} {allsat : Finset Nat → List Assignment}
    (hall : ∀ S ⊆ Finset.range (2 ^ bits), Enumerates bits S (allsat S)) {w : Diagrams}
    (h : w.Sound bits) {id : Nat} {S : Finset Nat} (hS : w.table id = some S)
    (hfine : w.Fine allsat bits (.expand id)) :
    ∃ c, bdd2vec bits (allsat S) w.cache id = .ok (ascending S, c) ∧
      ({ w with cache := c } : Diagrams).Sound bits := by
  obtain ⟨hid, htime, hlim⟩ := hfine
  obtain ⟨hcard, hopen⟩ := hlim S hS
  have hnow : u32 (w.cache.time + 1) = w.cache.time + 1 := Nat.mod_eq_of_lt (by omega)
  by_cases h0 : id = 0
  · subst h0
    cases Option.some.inj (h.false_.symm.trans hS)
    refine ⟨w.cache, ?_, h⟩
    rw [ascending_empty]
    rfl
  · have hlt : ∀ x ∈ w.cache.lru, x.1 < w.cache.time + 1 :=
      fun x hx => Nat.lt_succ_of_le (h.times x hx)
    cases hfind : w.cache.find id with
    | some e =>
        obtain ⟨t, v⟩ := e
        have hmem : (id, t, v) ∈ w.cache.entries := (lookup_iff h.cache.keys).mp hfind
        have hv : v = ascending S := h.right _ hmem S hS
        subst hv
        refine ⟨_, bdd2vec_hit .config hid h0 hfind, ?_⟩
        rw [hnow, pushLru_last hlt]
        refine ⟨h.cache.hit hlt ⟨_, hmem, rfl⟩, ?_, h.sz, ?_, h.inside, h.false_, h.live⟩
        · intro x hx
          rcases List.mem_append.mp hx with hx | hx
          · exact Nat.le_of_lt (hlt x hx)
          · rw [List.mem_singleton.mp hx]
        · intro e' he' S' hS'
          obtain ⟨e, he, rfl⟩ := List.mem_map.mp he'
          by_cases heq : e.1 = id
          · rw [if_pos heq] at hS' ⊢
            exact h.right e he S' (by rw [heq]; exact hS')
          · rw [if_neg heq] at hS' ⊢
            exact h.right e he S' hS'
    | none =>
        have hnew : ∀ e ∈ w.cache.entries, e.1 ≠ id := lookup_none_iff.mp hfind
        obtain ⟨l, hl, hsorted⟩ := sat2vec_sorted (hall S (h.inside id S hS)) hopen
        -- what is left after room has been made
        obtain ⟨c', hroom, hc', htime', hle, hents, hlru⟩ := h.cache.room .config h.sz (by omega) id
        have hlt' : ∀ x ∈ c'.lru, x.1 < c'.time := fun x hx => by
          rw [htime']
          exact hlt x (hlru x hx)
        have hsz : c'.sz + (ascending S).length < 2 ^ 32 := by
          rw [ascending_length]
          omega
        have hmiss := hc'.miss hlt' (fun e he => hnew e (hents e he)) (ascending S)
        have hrun := bdd2vec_miss hid h0 hfind hroom hl
        rw [hsorted] at hrun
        refine ⟨_, hrun, ?_⟩
        rw [pushLru_last hlt', htime', show u32 (w.cache.time + 1 + 1) = w.cache.time + 2 from
          Nat.mod_eq_of_lt (by omega), show u32 (c'.sz + (ascending S).length) =
          c'.sz + (ascending S).length from Nat.mod_eq_of_lt hsz]
        rw [htime'] at hmiss
        refine ⟨hmiss, ?_, hsz, ?_, h.inside, h.false_, h.live⟩
        · intro x hx
          rcases List.mem_append.mp hx with hx | hx
          · have hx := hlt x (hlru x hx)
            dsimp only
            omega
          · rw [List.mem_singleton.mp hx]
            dsimp only
            omega
        · intro e he S' hS'
          rcases List.mem_cons.mp he with rfl | he
          · rw [Option.some.inj (hS.symm.trans hS')]
          · exact h.right e (hents e he) S' hS'

/-- Fine steps keep the cache sound. -/
theorem Diagrams.Sound.step {bits : Nat} {allsat : Finset Nat → List Assignment}
    (hall : ∀ S ⊆ Finset.range (2 ^ bits), Enumerates bits S (allsat S)) {w w' : Diagrams}
    {e : Event} (h : w.Sound bits) (hstep : w.Step bits allsat e w')
    (hfine : w.Fine allsat bits e) : w'.Sound bits := by
  cases hstep with
  | @create id S hS hone hid =>
      have hne : ∀ id', id' ≠ id → Function.update w.table id (some S) id' = w.table id' :=
        fun id' hid' => Function.update_of_ne hid' ..
      refine ⟨h.cache, h.times, h.sz, fun e he S' hS' => ?_, fun id' S' hS' => ?_, ?_, fun id' hlive => ?_⟩
      · by_cases heq : e.1 = id
        · dsimp only at hS'
          rw [heq, Function.update_self] at hS'
          rw [← Option.some.inj hS']
          exact hfine e he heq
        · dsimp only at hS'
          rw [hne _ heq] at hS'
          exact h.right e he S' hS'
      · by_cases heq : id' = id
        · dsimp only at hS'
          rw [heq, Function.update_self] at hS'
          rw [← Option.some.inj hS']
          exact hS
        · dsimp only at hS'
          rw [hne _ heq] at hS'
          exact h.inside id' S' hS'
      · by_cases heq : 0 = id
        · subst heq
          rw [h.false_] at hid
          rcases hid with hid | hid
          · cases hid
          · dsimp only
            rw [Function.update_self, hid]
        · exact (hne 0 heq).trans h.false_
      · by_cases heq : id' = id
        · dsimp only
          rw [heq, Function.update_self]
          exact Option.some_ne_none _
        · dsimp only at hlive ⊢
          rw [Function.update_of_ne heq] at hlive
          rw [hne _ heq]
          exact h.live id' hlive
  | @release id hid hhad =>
      refine ⟨h.cache, h.times, h.sz, h.right, h.inside, h.false_, fun id' hlive => ?_⟩
      by_cases heq : id' = id
      · rw [heq]
        exact h.live id hhad
      · dsimp only at hlive
        rw [Function.update_of_ne heq] at hlive
        exact h.live id' hlive
  | @collect freed hfree =>
      refine ⟨h.cache, h.times, h.sz, fun e he S hS => ?_, fun id S hS => ?_, ?_, fun id hlive => ?_⟩
      · dsimp only at hS
        split at hS
        · cases hS
        · exact h.right e he S hS
      · dsimp only at hS
        split at hS
        · cases hS
        · exact h.inside id S hS
      · have h0 : 0 ∉ freed := fun hin => absurd (hfree 0 hin).1 (by decide)
        dsimp only
        rw [if_neg h0, h.false_]
      · have hin : id ∉ freed := fun hin => by
          have h0 := (hfree id hin).2
          dsimp only at hlive
          omega
        dsimp only
        rw [if_neg hin]
        exact h.live id hlive
  | @expand id S v c hlive hS hrun =>
      obtain ⟨c', hrun', hsound⟩ := h.expand hall hS hfine
      cases hrun.symm.trans hrun'
      exact hsound
  | clear =>
      refine ⟨⟨List.nodup_nil, .nil, ?_, ?_, rfl⟩, ?_, Nat.two_pow_pos 32, ?_, h.inside, h.false_, h.live⟩
      all_goals
        intro x hx
        cases hx

theorem Diagrams.Reachable.sound {bits : Nat} {allsat : Finset Nat → List Assignment}
    (hall : ∀ S ⊆ Finset.range (2 ^ bits), Enumerates bits S (allsat S)) {w : Diagrams}
    (h : Reachable bits allsat w) : w.Sound bits := by
  induction h with
  | start =>
      refine ⟨⟨List.nodup_nil, .nil, ?_, ?_, rfl⟩, ?_, Nat.two_pow_pos 32, ?_, ?_, rfl, ?_⟩
      · intro x hx
        cases hx
      · intro x hx
        cases hx
      · intro x hx
        cases hx
      · intro x hx
        cases hx
      · intro id S hS
        rw [show (Diagrams.start bits).table id = if id = 0 then some ∅ else
          if id = 1 then some (.range (2 ^ bits)) else none from rfl] at hS
        split at hS
        · cases hS
          exact Finset.empty_subset _
        · split at hS
          · cases hS
            exact Finset.Subset.refl _
          · cases hS
      · intro id hlive
        rw [show (Diagrams.start bits).live id = if id ≤ 1 then 1 else 0 from rfl] at hlive
        rw [show (Diagrams.start bits).table id = if id = 0 then some ∅ else
          if id = 1 then some (.range (2 ^ bits)) else none from rfl]
        split at hlive
        · split
          · exact Option.some_ne_none _
          · rw [if_pos (by omega)]
            exact Option.some_ne_none _
        · cases hlive
  | step hw hstep hfine ih => exact ih.step hall hstep hfine

/-- An enumeration without open variables. -/
def minterms (S : Finset Nat) : List Assignment :=
  (ascending S).map fun x k => if x.testBit (k / 2) then 1 else 0

theorem minterms_matches {bits x y : Nat} (hy : y < 2 ^ bits) :
    Matches bits (fun k => if y.testBit (k / 2) then 1 else 0) x ↔ x = y := by
  have hval : ∀ k, ((if y.testBit (2 * k / 2) then 1 else 0 : Int) = 1 ↔ y.testBit k = true) ∧
      (if y.testBit (2 * k / 2) then 1 else 0 : Int) ≠ -1 := by
    intro k
    rw [Nat.mul_div_cancel_left k (by decide)]
    cases y.testBit k <;> simp
  constructor
  · rintro ⟨hx, hbits⟩
    refine Nat.eq_of_testBit_eq fun k => ?_
    by_cases hk : k < bits
    · rw [Bool.eq_iff_iff, hbits k hk (hval k).2, (hval k).1]
    · have hle := Nat.pow_le_pow_right (n := 2) (by decide) (Nat.le_of_not_lt hk)
      rw [Nat.testBit_lt_two_pow (Nat.lt_of_lt_of_le hx hle),
        Nat.testBit_lt_two_pow (Nat.lt_of_lt_of_le hy hle)]
  · rintro rfl
    exact ⟨hy, fun k _ _ => (hval k).1.symm⟩

theorem minterms_enumerate {bits : Nat} {S : Finset Nat} (hS : S ⊆ .range (2 ^ bits)) :
    Enumerates bits S (minterms S) := by
  have hlt : ∀ y ∈ S, y < 2 ^ bits := fun y hy => Finset.mem_range.mp (hS hy)
  constructor
  · intro x
    constructor
    · intro hx
      exact ⟨_, List.mem_map.mpr ⟨x, mem_ascending.mpr hx, rfl⟩,
        (minterms_matches (hlt x hx)).mpr rfl⟩
    · rintro ⟨v, hv, hmatch⟩
      obtain ⟨y, hy, rfl⟩ := List.mem_map.mp hv
      have hy := mem_ascending.mp hy
      rw [(minterms_matches (hlt y hy)).mp hmatch]
      exact hy
  · refine List.pairwise_map.mpr ((ascending_nodup S).imp_of_mem fun {y z} hy hz hne x hx hx' => ?_)
    rw [minterms_matches (hlt y (mem_ascending.mp hy))] at hx
    rw [minterms_matches (hlt z (mem_ascending.mp hz))] at hx'
    exact hne (hx.symm.trans hx')

/-- The library after set {1} got diagram 5, was expanded and was collected, and set
{2} got diagram `id`. -/
def Diagrams.recycled (id : Nat) : Diagrams where
  table := Function.update (fun k => if k ∈ ({5} : Finset Nat) then none else
    Function.update (start 2).table 5 (some {1}) k) id (some {2})
  live := Function.update (Function.update (Function.update (start 2).live 5 1) 5 0) id 1
  cache := { BvCache.empty with
    entries := [(5, 1, [1])]
    sz := 1
    misses := 1
    time := 2
    lru := [(1, 5)] }

theorem Diagrams.recycled_first (id : Nat) :
    bdd2vec 2 (minterms {1}) .empty 5 = .ok ([1], (recycled id).cache) := by
  have hroom : (if BvCache.empty.sz ≥ Limits.config.bvcMax * 2 ^ 18 then
      evict .config BvCache.empty.lru (BvCache.empty.missed 5)
      else .ok (BvCache.empty.missed 5)) = .ok (BvCache.empty.missed 5) := if_neg (by decide)
  exact (bdd2vec_miss (by decide) (by decide) rfl hroom rfl).trans rfl

theorem Diagrams.recycled_step {id : Nat} (hid : id = 5 ∨ id = 6) :
    ∃ w, Reachable 2 minterms w ∧ w.cache = (recycled id).cache ∧
      w.Step 2 minterms (.create id {2}) (recycled id) := by
  have htable : ∀ id' S, (start 2).table id' = some S → S = ∅ ∨ S = .range 4 := by
    intro id' S hS
    rw [show (start 2).table id' = if id' = 0 then some ∅ else
      if id' = 1 then some (.range 4) else none from rfl] at hS
    split at hS
    · exact .inl (Option.some.inj hS).symm
    · split at hS
      · exact .inr (Option.some.inj hS).symm
      · cases hS
  have hmade := Reachable.start.step (@Step.create 2 minterms _ 5 {1} (by decide)
    (fun id' hS => absurd (htable id' _ hS) (by decide)) (.inl rfl)) fun e he => by cases he
  have hused := hmade.step (@Step.expand 2 minterms _ 5 {1} [1] (recycled id).cache Nat.zero_lt_one
    rfl (recycled_first id)) ⟨by decide, by decide, fun S hS => by cases hS; decide⟩
  have hdrop := hused.step (@Step.release 2 minterms _ 5 (by decide) Nat.zero_lt_one) trivial
  have hfree := hdrop.step (@Step.collect 2 minterms _ {5} fun k hk => by
    rw [Finset.mem_singleton.mp hk]
    exact ⟨by decide, rfl⟩) trivial
  refine ⟨_, hfree, rfl, ?_⟩
  have hone : ∀ id', (if id' ∈ ({5} : Finset Nat) then none else
      Function.update (start 2).table 5 (some {1}) id') ≠ some {2} := by
    intro id' hS
    split at hS
    · cases hS
    · rename_i hne
      rw [Function.update_of_ne (fun h => hne (Finset.mem_singleton.mpr h))] at hS
      exact absurd (htable id' _ hS) (by decide)
  rcases hid with rfl | rfl
  · exact .create (by decide) (fun id' hS => absurd hS (hone id')) (.inl rfl)
  · exact .create (by decide) (fun id' hS => absurd hS (hone id')) (.inl rfl)

/-- In every state that fine steps lead to, each diagram with a handle is expanded to
the sorted list of its members. -/
theorem bdd2vec_members {bits : Nat} {allsat : Finset Nat → List Assignment}
    (hall : ∀ S ⊆ Finset.range (2 ^ bits), Enumerates bits S (allsat S)) {w : Diagrams}
    (hw : w.Reachable bits allsat) {id : Nat} (hlive : 0 < w.live id)
    (hfine : w.Fine allsat bits (.expand id)) :
    ∃ S c, w.table id = some S ∧ bdd2vec bits (allsat S) w.cache id = .ok (ascending S, c) := by
  obtain ⟨S, hS⟩ := Option.ne_none_iff_exists'.mp ((hw.sound hall).live id hlive)
  obtain ⟨c, hrun, -⟩ := (hw.sound hall).expand hall hS hfine
  exact ⟨S, c, hS, hrun⟩

theorem bdd2vec_members_fresh : ∃ S c, (Diagrams.recycled 6).table 6 = some S ∧
    bdd2vec 2 (minterms S) (Diagrams.recycled 6).cache 6 = .ok (ascending S, c) := by
  obtain ⟨w, hw, hcache, hstep⟩ := Diagrams.recycled_step (.inr rfl)
  have hfine : w.Fine minterms 2 (.create 6 {2}) := by
    intro e he hid
    rw [hcache] at he
    rw [List.mem_singleton.mp he] at hid
    cases hid
  exact bdd2vec_members (fun _ hS => minterms_enumerate hS) (hw.step hstep hfine) Nat.zero_lt_one
    ⟨by decide, by decide, fun S hS => by cases hS; decide⟩

/-- The old expansion is returned for the diagram that has got its ID. -/
theorem bdd2vec_stale : (∀ S ⊆ Finset.range (2 ^ 2), Enumerates 2 S (minterms S)) ∧
    (∃ w, Diagrams.Reachable 2 minterms w ∧ w.cache = (Diagrams.recycled 5).cache ∧
      w.Step 2 minterms (.create 5 {2}) (.recycled 5)) ∧
    0 < (Diagrams.recycled 5).live 5 ∧ (Diagrams.recycled 5).table 5 = some {2} ∧
    ∃ c, bdd2vec 2 (minterms {2}) (Diagrams.recycled 5).cache 5 = .ok ([1], c) :=
  ⟨fun _ hS => minterms_enumerate hS, Diagrams.recycled_step (.inl rfl), Nat.zero_lt_one, rfl,
    _, rfl⟩

end PtrAnalysis
