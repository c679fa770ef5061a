import PtrAnalysis.Factor

/-!
# Factoring and the least solution

Two things can go wrong with factoring, and nothing else: `factorLs_keeps_iff`.
The table of new nodes is shared by loads and stores, so a call can be attached
to a constraint that does not exist. And one tagged constraint makes all others
of its group part of an indirect call.
-/

namespace PtrAnalysis

open Run

/-! ## What the result means -/

/-- A state factoring may be called in: the constraints stay among the nodes, the
tagged ones are loads and stores of the list, and the two lists enumerate the keys
of the groups. -/
structure FactorInput (a : Anders) (func : Nat → Prop) (loadKeys storeKeys : List LsKey) : Prop where
  size : 0 < a.size
  inside : (a.system func).Inside a.size
  icall : ∀ C, a.icallCons.Tagged C → C ∈ a.constraints ∧ (C.type = .load ∨ C.type = .store)
  map : (a.icallCons.map Prod.fst).Nodup
  loads : loadKeys.Nodup ∧ ∀ key, key ∈ loadKeys ↔ (lsGroup a.constraints true key).card ≠ 0
  stores : storeKeys.Nodup ∧ ∀ key, key ∈ storeKeys ↔ (lsGroup a.constraints false key).card ≠ 0

/-- Constraint `C'` of `b` stands for the load or store `C` of `a`: it is the same,
or it has a new node on its other side which is copied to or from the old one. -/
structure StandsFor (a b : Anders) (C C' : Constraint) : Prop where
  mem : C' ∈ b.constraints
  type : C'.type = C.type
  key : lsKey C' = lsKey C
  other : C'.other = C.other ∨
    a.size ≤ C'.other ∧ lsLink (decide (C.type = .load)) C'.other C.other ∈ b.constraints

/-- `b` means the same as `a`: it has the same least solution, only constraints of
its list are tagged, and the calls went to the constraints that stand for theirs. -/
structure FactorKeeps (a b : Anders) (func : Nat → Prop) : Prop where
  flow : ∀ n < a.size, ∀ o, (b.system func).Flow id n o ↔ (a.system func).Flow id n o
  keys : ∀ C, b.icallCons.Tagged C → C ∈ b.constraints
  calls : ∀ C' i, b.icallCons.Calls C' i ↔ ∃ C, a.icallCons.Calls C i ∧ StandsFor a b C C'

/-- A tagged load has no big group of stores with its key, and a tagged store no
big group of loads unless its own group is big. -/
def NoClash (a : Anders) : Prop :=
  ∀ C, a.icallCons.Tagged C →
    (C.type = .load → ¬ Big a.constraints (false, lsKey C)) ∧
    (C.type = .store → Big a.constraints (false, lsKey C) ∨ ¬ Big a.constraints (true, lsKey C))

/-- The system in which a tag of one constraint counts for all constraints with
the same type, dereferenced node and offset. -/
def System.spread (S : System) : System :=
  { S with tag := fun C => ∃ C2, S.cons C2 ∧ S.tag C2 ∧ C2.type = C.type ∧ lsKey C2 = lsKey C }

/-- The state after all groups were replaced. -/
structure Factored (a b : Anders) (T : Bool × LsKey → Nat) (temp : List (LsKey × Nat)) : Prop where
  icallCons : b.icallCons = a.icallCons
  old : ∀ n < a.size, b.nodes n = a.nodes n
  fresh : ∀ g, Big a.constraints g → a.size ≤ T g
  inj : ∀ g h, Big a.constraints g → Big a.constraints h → T g = T h → g = h
  cons : ∀ C, C ∈ b.constraints ↔
    C ∈ a.constraints ∧ C.plain ∨ ∃ g, groupCons a.constraints g (T g) C
  temp : ∀ key, temp.lookup key =
    if Big a.constraints (false, key) then some (T (false, key))
    else if Big a.constraints (true, key) then some (T (true, key))
    else none

section

variable {a b : Anders} {func : Nat → Prop} {loadKeys storeKeys : List LsKey}
  {T : Bool × LsKey → Nat} {temp : List (LsKey × Nat)}

theorem Big.card {cs : List Constraint} {g : Bool × LsKey} (h : Big cs g) :
    (lsGroup cs g.1 g.2).card ≠ 0 := by
  have h2 : 2 ≤ (lsGroup cs g.1 g.2).card := h
  omega

/-- Factoring does not fail, and replaces all groups. -/
theorem factorLs_factoring (h : FactorInput a func loadKeys storeKeys) :
    ∃ b T temp done, Factoring a done T b temp ∧
      (∀ g : Bool × LsKey, (lsGroup a.constraints g.1 g.2).card ≠ 0 → g ∈ done) ∧
      factorLs loadKeys storeKeys a = .ok { b with
        icallCons := a.icallCons.foldl (fun m e => m.add (moveIcall temp e.1) e.2) [] } := by
  have hspec := ((factorGroups_spec true loadKeys h.size (Factoring.start a fun _ => 0) (by simp)
    (by simp) h.loads.1 fun key hkey => (h.loads.2 key).mp hkey).bind (R := fun u => ∃ T',
      Factoring a (loadKeys.map (Prod.mk true) ++ storeKeys.map (Prod.mk false)) T' u.1 u.2)
    (f := fun t => factorGroups a.constraints false storeKeys t) fun u hu => ?_)
  · cases hrun : (factorGroups a.constraints true loadKeys ({ a with
        constraints := a.constraints.filter fun C => C.type ≠ .load ∧ C.type ≠ .store }, []) >>=
        fun t => factorGroups a.constraints false storeKeys t) with
    | error e => exact (hspec.stop hrun).elim
    | ok u =>
        obtain ⟨T, hT⟩ := hspec.result hrun
        refine ⟨u.1, T, u.2, _, hT, ?_, ?_⟩
        · rintro ⟨load, key⟩ hg
          rw [List.mem_append]
          cases load with
          | true => exact .inl (List.mem_map_of_mem ((h.loads.2 key).mpr hg))
          | false => exact .inr (List.mem_map_of_mem ((h.stores.2 key).mpr hg))
        · obtain ⟨t, ht, hu⟩ := bind_ok.mp hrun
          unfold factorLs
          dsimp only
          rw [ht]
          change (factorGroups a.constraints false storeKeys t >>= _) = _
          rw [hu]
          change Except.ok _ = _
          rw [show u.1.icallCons = a.icallCons by rw [hT.frame]]
  · obtain ⟨T', hT'⟩ := hu
    refine factorGroups_spec false storeKeys h.size (by simpa using hT') (fun key hc => ?_) (by simp)
      h.stores.1 fun key hkey => (h.stores.2 key).mp hkey
    obtain ⟨k, -, he⟩ := List.mem_map.mp hc
    exact Bool.noConfusion (Prod.mk.inj he).1

/-- All groups are replaced. -/
theorem Factoring.all {done : List (Bool × LsKey)} (hT : Factoring a done T b temp)
    (hdone : ∀ g : Bool × LsKey, (lsGroup a.constraints g.1 g.2).card ≠ 0 → g ∈ done) :
    Factored a b T temp := by
  have hbig : ∀ {g}, Big a.constraints g → g ∈ done := fun hb => hdone _ hb.card
  refine ⟨by rw [hT.frame], hT.old, fun g hb => (hT.fresh g (hbig hb) hb).1,
    fun g g' hb hb' => hT.inj g (hbig hb) g' (hbig hb') hb hb', fun C => ?_, fun key => ?_⟩
  · rw [hT.cons C]
    refine or_congr Iff.rfl ⟨fun ⟨g, _, hc⟩ => ⟨g, hc⟩, fun ⟨g, hc⟩ => ⟨g, hdone g ?_, hc⟩⟩
    unfold groupCons at hc
    split at hc
    · exact Big.card ‹_›
    · obtain ⟨x, hx, -⟩ := hc
      exact Finset.card_ne_zero_of_mem hx
  · rw [hT.temp key]
    have hiff : ∀ load, ((load, key) ∈ done ∧ Big a.constraints (load, key)) ↔
        Big a.constraints (load, key) := fun load => ⟨And.right, fun hb => ⟨hbig hb, hb⟩⟩
    simp only [hiff]

theorem factorLs_factored (h : FactorInput a func loadKeys storeKeys) :
    ∃ b T temp, Factored a b T temp ∧ factorLs loadKeys storeKeys a = .ok { b with
      icallCons := a.icallCons.foldl (fun m e => m.add (moveIcall temp e.1) e.2) [] } := by
  obtain ⟨b, T, temp, done, hT, hdone, hrun⟩ := factorLs_factoring h
  exact ⟨b, T, temp, hT.all hdone, hrun⟩

theorem lsCons_inj {l l' : Bool} {k k' : LsKey} {x x' : Nat} (h : lsCons l k x = lsCons l' k' x') :
    (l, k) = (l', k') ∧ x = x' := by
  obtain ⟨p, o⟩ := k
  obtain ⟨p', o'⟩ := k'
  cases l <;> cases l' <;> simp [lsCons] at h ⊢ <;> tauto

/-- A load or store is determined by its kind, its key and its other side. -/
theorem ls_cases {C : Constraint} (h : C.type = .load ∨ C.type = .store) :
    ∃ l k x, C = lsCons l k x := by
  obtain ⟨type, dest, src, off⟩ := C
  rcases h with rfl | rfl
  · exact ⟨true, (src, off), dest, rfl⟩
  · exact ⟨false, (dest, off), src, rfl⟩

theorem lsCons_not_plain (l : Bool) (k : LsKey) (x : Nat) : ¬ (lsCons l k x).plain := by
  cases l <;> simp [lsCons, Constraint.plain]

theorem lsLink_copy (l : Bool) (t x : Nat) : (lsLink l t x).type = .copy := by
  cases l <;> rfl

theorem move_lsCons (temp : List (LsKey × Nat)) (l : Bool) (k : LsKey) (x : Nat) :
    moveIcall temp (lsCons l k x) = lsCons l k ((temp.lookup k).getD x) := by
  have hkey : lsKey (lsCons l k x) = k := by cases l <;> rfl
  unfold moveIcall
  rw [hkey]
  cases temp.lookup k with
  | none => rfl
  | some t => cases l <;> rfl

namespace Factored

/-- The loads and stores of the new list. -/
theorem ls_iff (h : Factored a b T temp) {l : Bool} {k : LsKey} {y : Nat} :
    lsCons l k y ∈ b.constraints ↔
      if Big a.constraints (l, k) then y = T (l, k) else lsCons l k y ∈ a.constraints := by
  rw [h.cons]
  constructor
  · rintro (⟨-, hp⟩ | ⟨⟨l', k'⟩, hg⟩)
    · exact absurd hp (lsCons_not_plain _ _ _)
    · unfold groupCons at hg
      split at hg
      · rename_i hb
        rcases hg with he | ⟨x, -, he⟩
        · obtain ⟨hg, rfl⟩ := lsCons_inj he
          obtain ⟨rfl, rfl⟩ := Prod.mk.inj hg
          rw [if_pos hb]
        · have htype := congrArg Constraint.type he
          rw [lsLink_copy] at htype
          cases l <;> cases htype
      · rename_i hb
        obtain ⟨x, hx, he⟩ := hg
        obtain ⟨hg, rfl⟩ := lsCons_inj he
        obtain ⟨rfl, rfl⟩ := Prod.mk.inj hg
        rw [if_neg hb]
        exact mem_lsGroup.mp hx
  · intro hy
    refine .inr ⟨(l, k), ?_⟩
    unfold groupCons
    split at hy
    · rename_i hb
      rw [if_pos hb, hy]
      exact .inl rfl
    · rename_i hb
      rw [if_neg hb]
      exact ⟨y, mem_lsGroup.mpr hy, rfl⟩

/-- The other constraints of the new list. -/
theorem plain_iff (h : Factored a b T temp) {C : Constraint} (hp : C.plain) :
    C ∈ b.constraints ↔ C ∈ a.constraints ∨
      ∃ g, Big a.constraints g ∧ ∃ x ∈ lsGroup a.constraints g.1 g.2, C = lsLink g.1 (T g) x := by
  rw [h.cons]
  constructor
  · rintro (⟨hC, -⟩ | ⟨g, hg⟩)
    · exact .inl hC
    · unfold groupCons at hg
      split at hg
      · rename_i hb
        rcases hg with rfl | hx
        · exact absurd hp (lsCons_not_plain _ _ _)
        · exact .inr ⟨g, hb, hx⟩
      · obtain ⟨x, -, rfl⟩ := hg
        exact absurd hp (lsCons_not_plain _ _ _)
  · rintro (hC | ⟨g, hb, hx⟩)
    · exact .inl ⟨hC, hp⟩
    · refine .inr ⟨g, ?_⟩
      rw [groupCons, if_pos hb]
      exact .inr hx

/-- Without a clash the table leads to the node of the constraint's own group. -/
theorem move (h : Factored a b T temp) (hc : NoClash a) {l : Bool} {k : LsKey} {x : Nat}
    (ht : a.icallCons.Tagged (lsCons l k x)) : moveIcall temp (lsCons l k x) =
      lsCons l k (if Big a.constraints (l, k) then T (l, k) else x) := by
  obtain ⟨h1, h2⟩ := hc _ ht
  rw [move_lsCons, h.temp]
  cases l with
  | true =>
      have hno : ¬ Big a.constraints (false, k) := h1 rfl
      rw [if_neg hno]
      split <;> rfl
  | false =>
      have hown : Big a.constraints (false, k) ∨ ¬ Big a.constraints (true, k) := h2 rfl
      by_cases hb : Big a.constraints (false, k)
      · rw [if_pos hb, if_pos hb]
        rfl
      · rw [if_neg hb, if_neg hb, if_neg (hown.resolve_left hb)]
        rfl

end Factored

end

/-! ## The least solution -/

section

variable {a b : Anders} {func : Nat → Prop} {loadKeys storeKeys : List LsKey}
  {T : Bool × LsKey → Nat} {temp : List (LsKey × Nat)}

/-- The tags after factoring. -/
def movedIcall (temp : List (LsKey × Nat)) (a : Anders) : IcallCons :=
  a.icallCons.foldl (fun m e => m.add (moveIcall temp e.1) e.2) []

theorem movedIcall_tagged (hmap : (a.icallCons.map Prod.fst).Nodup) {C' : Constraint} :
    (movedIcall temp a).Tagged C' ↔ ∃ C, a.icallCons.Tagged C ∧ moveIcall temp C = C' := by
  have h := (IcallCons.find_move (moveIcall temp) a.icallCons [] C').1
  refine h.trans ?_
  constructor
  · rintro (hnone | ⟨⟨C, I⟩, he, rfl⟩)
    · cases hnone
    · refine ⟨C, ?_, rfl⟩
      have hfind : a.icallCons.find C = some I := (lookup_iff hmap).mpr he
      rw [IcallCons.Tagged, hfind]
      rfl
  · rintro ⟨C, hC, rfl⟩
    obtain ⟨I, hI⟩ := Option.isSome_iff_exists.mp hC
    exact .inr ⟨(C, I), (lookup_iff hmap).mp hI, rfl⟩

theorem movedIcall_calls (hmap : (a.icallCons.map Prod.fst).Nodup) {C' : Constraint} {i : Nat} :
    (movedIcall temp a).Calls C' i ↔ ∃ C, a.icallCons.Calls C i ∧ moveIcall temp C = C' := by
  have h := (IcallCons.find_move (moveIcall temp) a.icallCons [] C').2 i
  refine h.trans ?_
  constructor
  · rintro (⟨I, hnone, -⟩ | ⟨⟨C, I⟩, he, rfl, hi⟩)
    · cases hnone
    · exact ⟨C, ⟨I, (lookup_iff hmap).mpr he, hi⟩, rfl⟩
  · rintro ⟨C, ⟨I, hI, hi⟩, rfl⟩
    exact .inr ⟨(C, I), (lookup_iff hmap).mp hI, rfl, hi⟩

/-- The new system, and the old one with tags spread over the groups, agree on
the tags of the loads and stores that are left. -/
theorem Factored.tag_iff (h : Factored a b T temp) (hin : FactorInput a func loadKeys storeKeys)
    (hc : NoClash a) {l : Bool} {k : LsKey} {y : Nat} (hy : lsCons l k y ∈ b.constraints) :
    (movedIcall temp a).Tagged (lsCons l k y) ↔ (a.system func).spread.tag (lsCons l k y) := by
  have hkey : ∀ x, lsKey (lsCons l k x) = k := fun x => by cases l <;> rfl
  have htype : ∀ x x', (lsCons l k x).type = (lsCons l k x').type := fun x x' => by cases l <;> rfl
  rw [movedIcall_tagged hin.map]
  constructor
  · rintro ⟨C, hC, hmove⟩
    obtain ⟨hmem, hls⟩ := hin.icall C hC
    obtain ⟨l', k', x, rfl⟩ := ls_cases hls
    rw [move_lsCons] at hmove
    obtain ⟨hg, -⟩ := lsCons_inj hmove
    obtain ⟨rfl, rfl⟩ := Prod.mk.inj hg
    exact ⟨_, hmem, hC, htype _ _, (hkey _).trans (hkey _).symm⟩
  · rintro ⟨C, hmem, hC, ht, hk⟩
    obtain ⟨l', k', x, rfl⟩ := ls_cases (hin.icall C hC).2
    have hl : l' = l := by
      cases l' <;> cases l <;> first | rfl | cases ht
    subst hl
    have hk : k' = k := by
      rw [hkey y] at hk
      rw [← hk]
      cases l' <;> rfl
    subst hk
    refine ⟨_, hC, ?_⟩
    rw [h.move hc hC]
    by_cases hb : Big a.constraints (l', k')
    · rw [h.ls_iff, if_pos hb] at hy
      rw [if_pos hb, hy]
    · -- a group that is not big has one member
      rw [h.ls_iff, if_neg hb] at hy
      rw [if_neg hb]
      have hcard : (lsGroup a.constraints l' k').card ≤ 1 := by
        have : ¬ 2 ≤ (lsGroup a.constraints l' k').card := hb
        omega
      rw [Finset.card_le_one.mp hcard x (mem_lsGroup.mpr hmem) y (mem_lsGroup.mpr hy)]

/-- What the node of group `g` holds: all that the loads of the group read, or all
that its stores write. -/
def Through (S : System) (r : Nat → Nat) (cs : List Constraint) (g : Bool × LsKey) (x : Nat) :
    Prop :=
  if g.1 then ∃ o, S.Flow r g.2.1 o ∧ S.Acts (lsCons true g.2 0) o ∧ S.Flow r (o + g.2.2) x
  else ∃ y ∈ lsGroup cs false g.2, S.Flow r y x

/-- Whether a load or store acts on an object does not depend on its other side. -/
theorem spread_acts {S : System} {l : Bool} {k : LsKey} {x y o : Nat} :
    S.spread.Acts (lsCons l k x) o ↔ S.spread.Acts (lsCons l k y) o := by
  cases l <;> exact Iff.rfl

theorem Factored.acts_iff (h : Factored a b T temp)
    (hin : FactorInput a func loadKeys storeKeys) (hc : NoClash a) {l : Bool} {k : LsKey}
    {x y o : Nat} (hy : lsCons l k y ∈ b.constraints) (ho : o < a.size) :
    ({ b with icallCons := movedIcall temp a }.system func).Acts (lsCons l k y) o ↔
      (a.system func).spread.Acts (lsCons l k x) o := by
  rw [spread_acts (y := y)]
  have htag := h.tag_iff hin hc hy
  unfold System.Acts
  change _ ∧ (_ ∨ _ < (b.nodes o).objSz ∧ ((movedIcall temp a).Tagged _ ↔ _)) ↔ _
  rw [h.old o ho, htag]
  exact Iff.rfl

theorem FactorInput.inside_spread (hin : FactorInput a func loadKeys storeKeys) :
    (a.system func).spread.Inside a.size := ⟨hin.inside.node, hin.inside.object⟩

/-- Everything the old system with spread tags derives, the new one does. -/
theorem Factored.flow_of_spread_over {r : Nat → Nat} (h : Factored a b T temp)
    (hin : FactorInput a func loadKeys storeKeys) (hc : NoClash a) {n o : Nat}
    (hf : (a.system func).spread.Flow r n o) :
    ({ b with icallCons := movedIcall temp a }.system func).Flow r n o := by
  set S' := { b with icallCons := movedIcall temp a }.system func with hS'
  have hin' := hin.inside_spread
  have hplain : ∀ C ∈ a.constraints, C.plain → C ∈ b.constraints := fun C hC hp =>
    (h.plain_iff hp).mpr (.inl hC)
  have hlink : ∀ l k x, lsCons l k x ∈ a.constraints → Big a.constraints (l, k) →
      lsLink l (T (l, k)) x ∈ b.constraints := fun l k x hx hb =>
    (h.plain_iff (by rw [Constraint.plain, lsLink_copy]; decide)).mpr
      (.inr ⟨(l, k), hb, x, mem_lsGroup.mpr hx, rfl⟩)
  refine (System.Flow.least (P := fun n o => S'.Flow r n o ∧ o < a.size) ⟨?_, ?_, ?_, ?_, ?_, ?_⟩
    hf).1
  · intro C hC ht
    exact ⟨.addr (hplain C hC (by rw [Constraint.plain, ht]; decide)) ht, (hin'.node hC).2⟩
  · intro C o hC ht ho
    exact ⟨.copy (hplain C hC (by rw [Constraint.plain, ht]; decide)) ht ho.1, ho.2⟩
  · intro C o x hC ht ho ha hx
    refine ⟨?_, hx.2⟩
    obtain ⟨l, k, y, rfl⟩ := ls_cases (.inl ht)
    obtain rfl : l = true := by cases l <;> first | rfl | cases ht
    by_cases hb : Big a.constraints (true, k)
    · have hT : lsCons true k (T (true, k)) ∈ b.constraints := by
        rw [h.ls_iff, if_pos hb]
      have hflow : S'.Flow r (T (true, k)) x :=
        .load (C := lsCons true k (T (true, k))) hT rfl ho.1
          ((h.acts_iff hin hc hT ho.2).mpr ha) hx.1
      exact .copy (C := lsLink true (T (true, k)) y) (hlink true k y hC hb) rfl hflow
    · have hy : lsCons true k y ∈ b.constraints := by
        rw [h.ls_iff, if_neg hb]
        exact hC
      exact .load (C := lsCons true k y) hy rfl ho.1 ((h.acts_iff hin hc hy ho.2).mpr ha) hx.1
  · intro C o x hC ht ho ha hx
    refine ⟨?_, hx.2⟩
    obtain ⟨l, k, y, rfl⟩ := ls_cases (.inr ht)
    obtain rfl : l = false := by cases l <;> first | rfl | cases ht
    by_cases hb : Big a.constraints (false, k)
    · have hT : lsCons false k (T (false, k)) ∈ b.constraints := by
        rw [h.ls_iff, if_pos hb]
      have hflow : S'.Flow r (T (false, k)) x :=
        .copy (C := lsLink false (T (false, k)) y) (hlink false k y hC hb) rfl hx.1
      exact .store (C := lsCons false k (T (false, k))) hT rfl ho.1
        ((h.acts_iff hin hc hT ho.2).mpr ha) hflow
    · have hy : lsCons false k y ∈ b.constraints := by
        rw [h.ls_iff, if_neg hb]
        exact hC
      exact .store (C := lsCons false k y) hy rfl ho.1 ((h.acts_iff hin hc hy ho.2).mpr ha) hx.1
  · intro C o hC ht ho hs
    refine ⟨.gep (hplain C hC (by rw [Constraint.plain, ht]; decide)) ht ho.1 ?_, ?_⟩
    · change _ < (b.nodes o).objSz
      rw [h.old o ho.2]
      exact hs
    · exact hin'.step ho.2 (.inr hs)
  · exact fun hmn ho => ⟨.same hmn ho.1, ho.2⟩

theorem Factored.flow_of_spread (h : Factored a b T temp)
    (hin : FactorInput a func loadKeys storeKeys) (hc : NoClash a) {n o : Nat}
    (hf : (a.system func).spread.Flow id n o) :
    ({ b with icallCons := movedIcall temp a }.system func).Flow id n o :=
  h.flow_of_spread_over hin hc hf

/-- On the old nodes the new system derives nothing else, if only old nodes are identified. The
new nodes hold what goes through them. -/
theorem Factored.spread_of_flow_over {r : Nat → Nat} (h : Factored a b T temp)
    (hin : FactorInput a func loadKeys storeKeys) (hc : NoClash a)
    (hr : ∀ m n, r m = r n → m = n ∨ m < a.size ∧ n < a.size) {n o : Nat} (hn : n < a.size)
    (hf : ({ b with icallCons := movedIcall temp a }.system func).Flow r n o) :
    (a.system func).spread.Flow r n o := by
  set S := (a.system func).spread with hS
  have hin' : S.Inside a.size := hin.inside_spread
  have hold : ∀ {n}, n < a.size → ∀ g, Big a.constraints g → n ≠ T g := fun hn g hb he => by
    have := h.fresh g hb
    omega
  -- the two readings of a fact about an old node
  have hfact : ∀ {n o}, n < a.size → S.Flow r n o → o < a.size → (n < a.size → S.Flow r n o) ∧
      o < a.size ∧ ∀ g, Big a.constraints g → n = T g → Through S r a.constraints g o :=
    fun hn hf ho => ⟨fun _ => hf, ho, fun g hb he => absurd he (hold hn g hb)⟩
  have hplain : ∀ {C}, C ∈ b.constraints → C.type = .addrOf ∨ C.type = .gep →
      C ∈ a.constraints := by
    intro C hC ht
    have hp : C.plain := by
      unfold Constraint.plain
      rcases ht with ht | ht <;> rw [ht] <;> decide
    rcases (h.plain_iff hp).mp hC with hC | ⟨g, -, x, -, rfl⟩
    · exact hC
    · rw [lsLink_copy] at ht
      rcases ht with ht | ht <;> cases ht
  refine (System.Flow.least (P := fun n o => (n < a.size → S.Flow r n o) ∧ o < a.size ∧
    ∀ g, Big a.constraints g → n = T g → Through S r a.constraints g o) ⟨?_, ?_, ?_, ?_, ?_, ?_⟩
    hf).1 hn
  · intro C hC ht
    have hC := hplain hC (.inl ht)
    exact hfact (hin'.node hC).1 (.addr hC ht) (hin'.node hC).2
  · intro C o hC ht ho
    rcases (h.plain_iff (by rw [Constraint.plain, ht]; decide)).mp hC with hC | ⟨⟨l, k⟩, hb, x, hx, rfl⟩
    · exact hfact (hin'.node hC).1 (.copy hC ht (ho.1 (hin'.node hC).2)) ho.2.1
    · have hxC := mem_lsGroup.mp hx
      cases l with
      | true =>
          have hlt : x < a.size := (hin'.node hxC).1
          obtain ⟨p, hp, ha, hpx⟩ := ho.2.2 (true, k) hb rfl
          exact hfact hlt (.load (C := lsCons true k x) hxC rfl hp (spread_acts.mp ha) hpx) ho.2.1
      | false =>
          have hlt : x < a.size := (hin'.node hxC).2
          refine ⟨fun hT => absurd rfl (hold hT (false, k) hb), ho.2.1, fun g hb' he => ?_⟩
          obtain rfl := h.inj _ _ hb hb' he
          exact ⟨x, hx, ho.1 hlt⟩
  · intro C o x hC ht ho ha hx
    obtain ⟨l, k, y, rfl⟩ := ls_cases (.inl ht)
    obtain rfl : l = true := by cases l <;> first | rfl | cases ht
    have ha' := (h.acts_iff hin hc hC ho.2.1 (x := y)).mp ha
    have hlt : o + k.2 < a.size := hin'.step ho.2.1 (ha'.2.imp_right And.left)
    have hy := h.ls_iff.mp hC
    split at hy
    · rename_i hb
      obtain ⟨z, hz⟩ := Finset.card_pos.mp (Nat.pos_of_ne_zero hb.card)
      have hz := mem_lsGroup.mp hz
      refine ⟨fun hT => absurd hy (hold hT (true, k) hb), hx.2.1, fun g hb' he => ?_⟩
      obtain rfl := h.inj _ _ hb hb' (hy.symm.trans he)
      exact ⟨o, ho.1 (hin'.node hz).2, spread_acts.mp ha', hx.1 hlt⟩
    · exact hfact (hin'.node hy).1 (.load hy rfl (ho.1 (hin'.node hy).2) ha' (hx.1 hlt)) hx.2.1
  · intro C o x hC ht ho ha hx
    obtain ⟨l, k, y, rfl⟩ := ls_cases (.inr ht)
    obtain rfl : l = false := by cases l <;> first | rfl | cases ht
    have ha' := (h.acts_iff hin hc hC ho.2.1 (x := y)).mp ha
    have hlt : o + k.2 < a.size := hin'.step ho.2.1 (ha'.2.imp_right And.left)
    have hy := h.ls_iff.mp hC
    split at hy
    · rename_i hb
      obtain ⟨z, hz, hzx⟩ := hx.2.2 (false, k) hb hy
      have hz := mem_lsGroup.mp hz
      exact hfact hlt (.store (C := lsCons false k z) hz rfl (ho.1 (hin'.node hz).1)
        (spread_acts.mp ha') hzx) hx.2.1
    · exact hfact hlt (.store hy rfl (ho.1 (hin'.node hy).1) ha' (hx.1 (hin'.node hy).2)) hx.2.1
  · intro C o hC ht ho hs
    have hC := hplain hC (.inr ht)
    have hs : C.off < S.size o := by
      change _ < (b.nodes o).objSz at hs
      rw [h.old o ho.2.1] at hs
      exact hs
    exact hfact (hin'.node hC).1 (.gep hC ht (ho.1 (hin'.node hC).2) hs)
      (hin'.step ho.2.1 (.inr hs))
  · intro m n o hmn ho
    rcases hr m n hmn with rfl | ⟨hm, hn⟩
    · exact ho
    · exact hfact hn (.same hmn (ho.1 hm)) ho.2.1

theorem Factored.spread_of_flow (h : Factored a b T temp)
    (hin : FactorInput a func loadKeys storeKeys) (hc : NoClash a) {n o : Nat} (hn : n < a.size)
    (hf : ({ b with icallCons := movedIcall temp a }.system func).Flow id n o) :
    (a.system func).spread.Flow id n o :=
  h.spread_of_flow_over hin hc (fun _ _ hmn => .inl hmn) hn hf

/-- Without a clash, the constraint that stands for a tagged one is the one its
calls are moved to. -/
theorem Factored.standsFor_iff (h : Factored a b T temp)
    (hin : FactorInput a func loadKeys storeKeys) (hc : NoClash a) {C C' : Constraint}
    (hC : a.icallCons.Tagged C) :
    StandsFor a { b with icallCons := movedIcall temp a } C C' ↔ moveIcall temp C = C' := by
  obtain ⟨hmem, hls⟩ := hin.icall C hC
  obtain ⟨l, k, x, rfl⟩ := ls_cases hls
  rw [h.move hc hC]
  have hkey : ∀ y, lsKey (lsCons l k y) = k := fun y => by cases l <;> rfl
  have hother : ∀ y, (lsCons l k y).other = y := fun y => by cases l <;> rfl
  have htype : ∀ y, (lsCons l k y).type = (lsCons l k x).type := fun y => by cases l <;> rfl
  constructor
  · rintro ⟨hmem', ht, hk, ho⟩
    obtain ⟨l', k', y, rfl⟩ := ls_cases (C := C') (by rw [ht]; exact hls)
    obtain rfl : l' = l := by cases l' <;> cases l <;> first | rfl | cases ht
    obtain rfl : k' = k := by
      rw [hkey x] at hk
      rw [← hk]
      cases l' <;> rfl
    have hy := h.ls_iff.mp hmem'
    by_cases hb : Big a.constraints (l', k')
    · rw [if_pos hb] at hy
      rw [if_pos hb, hy]
    · rw [if_neg hb] at hy
      rw [if_neg hb]
      rw [hother, hother] at ho
      rcases ho with rfl | ⟨hle, -⟩
      · rfl
      · have hlt := hin.inside.node hy
        cases l' <;> simp only [lsCons, Bool.false_eq_true, if_false, if_true] at hlt <;> omega
  · rintro rfl
    by_cases hb : Big a.constraints (l, k)
    · rw [if_pos hb]
      refine ⟨h.ls_iff.mpr (if_pos hb ▸ rfl), htype _, (hkey _).trans (hkey _).symm, .inr ?_⟩
      rw [hother, hother]
      refine ⟨h.fresh _ hb, (h.plain_iff (by rw [Constraint.plain, lsLink_copy]; decide)).mpr
        (.inr ⟨(l, k), hb, x, mem_lsGroup.mpr hmem, ?_⟩)⟩
      cases l <;> rfl
    · rw [if_neg hb]
      exact ⟨h.ls_iff.mpr (by rwa [if_neg hb]), rfl, rfl, .inl rfl⟩

/-- Where keys clash, a call goes to a constraint that is not in the list. -/
theorem Factored.clash (h : Factored a b T temp) (hin : FactorInput a func loadKeys storeKeys)
    (hkeys : ∀ C, (movedIcall temp a).Tagged C → C ∈ b.constraints) : NoClash a := by
  intro C hC
  obtain ⟨hmem, hls⟩ := hin.icall C hC
  obtain ⟨l, k, x, rfl⟩ := ls_cases hls
  have hkey : lsKey (lsCons l k x) = k := by cases l <;> rfl
  have hlt := hin.inside.node hmem
  have hnew := hkeys _ ((movedIcall_tagged hin.map).mpr ⟨_, hC, rfl⟩)
  rw [move_lsCons, h.temp, h.ls_iff] at hnew
  rw [hkey]
  constructor
  · intro ht hb
    obtain rfl : l = true := by cases l <;> first | rfl | cases ht
    rw [if_pos hb] at hnew
    have hfresh := h.fresh _ hb
    split at hnew
    · rename_i hb'
      exact Bool.noConfusion (Prod.mk.inj (h.inj _ _ hb hb' hnew)).1
    · have hlt' := (hin.inside.node hnew).1
      change T (false, k) < a.size at hlt'
      omega
  · intro ht
    obtain rfl : l = false := by cases l <;> first | rfl | cases ht
    by_contra hno
    obtain ⟨hb, hb'⟩ := not_or.mp hno
    have hb' := not_not.mp hb'
    rw [if_neg hb, if_neg hb, if_pos hb'] at hnew
    have hlt' := (hin.inside.node hnew).2
    have hfresh := h.fresh _ hb'
    change T (true, k) < a.size at hlt'
    omega

/-- Factoring preserves the meaning of the constraints and of the calls exactly if
no keys clash and no least solution changes when a tag counts for its whole
group. -/
theorem factorLs_keeps_iff (a : Anders) (func : Nat → Prop) (loadKeys storeKeys : List LsKey)
    (hin : FactorInput a func loadKeys storeKeys) :
    (∃ b, factorLs loadKeys storeKeys a = .ok b ∧ FactorKeeps a b func) ↔
      NoClash a ∧
      ∀ n o, (a.system func).spread.Flow id n o ↔ (a.system func).Flow id n o := by
  obtain ⟨b, T, temp, h, hrun⟩ := factorLs_factored hin
  constructor
  · rintro ⟨b', hrun', hflow, hkeys, hcalls⟩
    obtain rfl := Except.ok.inj (hrun.symm.trans hrun')
    have hc := h.clash hin hkeys
    refine ⟨hc, fun n o => ⟨fun hf => ?_, fun hf => ?_⟩⟩
    · exact (hflow n (hf.node_lt hin.inside_spread) o).mp (h.flow_of_spread hin hc hf)
    · have hn := hf.node_lt hin.inside
      exact h.spread_of_flow hin hc hn ((hflow n hn o).mpr hf)
  · rintro ⟨hc, hspread⟩
    refine ⟨_, hrun, fun n hn o => ?_, fun C' hC' => ?_, fun C' i => ?_⟩
    · rw [← hspread]
      exact ⟨h.spread_of_flow hin hc hn, h.flow_of_spread hin hc⟩
    · obtain ⟨C, hC, rfl⟩ := (movedIcall_tagged hin.map).mp hC'
      exact ((h.standsFor_iff hin hc hC).mpr rfl).mem
    · refine (movedIcall_calls hin.map).trans ?_
      constructor
      · rintro ⟨C, hC, hmove⟩
        obtain ⟨I, hI, hi⟩ := hC
        have ht : a.icallCons.Tagged C := by
          rw [IcallCons.Tagged, hI]
          rfl
        exact ⟨C, ⟨I, hI, hi⟩, (h.standsFor_iff hin hc ht).mpr hmove⟩
      · rintro ⟨C, ⟨I, hI, hi⟩, hst⟩
        have ht : a.icallCons.Tagged C := by
          rw [IcallCons.Tagged, hI]
          rfl
        exact ⟨C, ⟨I, hI, hi⟩, (h.standsFor_iff hin hc ht).mp hst⟩

end

/-! ## Examples -/

/-- The keys of the loads or stores in a list. -/
def lsKeys (cs : List Constraint) (load : Bool) : List LsKey :=
  ((cs.filter fun C => C.type = if load then .load else .store).map lsKey).dedup

theorem lsKeys_spec (cs : List Constraint) (load : Bool) :
    (lsKeys cs load).Nodup ∧ ∀ key, key ∈ lsKeys cs load ↔ (lsGroup cs load key).card ≠ 0 := by
  refine ⟨List.nodup_dedup _, fun key => ?_⟩
  simp only [lsKeys, List.mem_dedup, List.mem_map, List.mem_filter, decide_eq_true_eq]
  constructor
  · rintro ⟨C, ⟨hC, ht⟩, rfl⟩
    refine Finset.card_ne_zero_of_mem (a := if load then C.dest else C.src) ?_
    simp only [lsGroup, List.mem_toFinset, List.mem_map, List.mem_filter, decide_eq_true_eq]
    exact ⟨C, ⟨hC, ht, rfl⟩, rfl⟩
  · intro hne
    obtain ⟨x, hx⟩ := Finset.card_pos.mp (Nat.pos_of_ne_zero hne)
    refine ⟨_, ⟨mem_lsGroup.mp hx, ?_⟩, ?_⟩ <;> cases load <;> rfl

/-- Where all constraints of a group are tagged or none is, spreading tags over the
groups changes nothing. -/
theorem spread_flow_iff {S : System} {r : Nat → Nat} (h : ∀ C C2, S.cons C → S.cons C2 → S.tag C2 →
    C2.type = C.type → lsKey C2 = lsKey C → S.tag C) (n o : Nat) :
    S.spread.Flow r n o ↔ S.Flow r n o := by
  have hacts : ∀ {C}, S.cons C → ∀ o, S.spread.Acts C o ↔ S.Acts C o := by
    intro C hC o
    have htag : S.spread.tag C ↔ S.tag C :=
      ⟨fun ⟨C2, hC2, ht, htype, hkey⟩ => h C C2 hC hC2 ht htype hkey, fun ht => ⟨C, hC, ht, rfl, rfl⟩⟩
    unfold System.Acts
    rw [htag]
    exact Iff.rfl
  constructor
  · refine fun hf => hf.least ⟨fun hC ht => .addr hC ht, fun hC ht ho => .copy hC ht ho, ?_, ?_,
      fun hC ht ho hs => .gep hC ht ho hs, .same⟩
    · exact fun hC ht ho ha hx => .load hC ht ho ((hacts hC _).mp ha) hx
    · exact fun hC ht ho ha hx => .store hC ht ho ((hacts hC _).mp ha) hx
  · refine fun hf => hf.least ⟨fun hC ht => .addr hC ht, fun hC ht ho => .copy hC ht ho, ?_, ?_,
      fun hC ht ho hs => .gep hC ht ho hs, .same⟩
    · exact fun hC ht ho ha hx => .load hC ht ho ((hacts hC _).mpr ha) hx
    · exact fun hC ht ho ha hx => .store hC ht ho ((hacts hC _).mpr ha) hx

theorem IcallCons.forall_tagged {m : IcallCons} {P : Constraint → Prop} (h : ∀ e ∈ m, P e.1)
    (C : Constraint) (hC : m.Tagged C) : P C := by
  obtain ⟨I, hI⟩ := Option.isSome_iff_exists.mp hC
  obtain ⟨l1, l2, hl, -⟩ := List.lookup_eq_some_iff.mp hI
  exact h (C, I) (by rw [hl]; simp)

/-- A state that passes these tests may be factored. -/
theorem factorInput_of {a : Anders} (func : Nat → Prop) (hsize : 0 < a.size)
    (hnode : ∀ C ∈ a.constraints, C.dest < a.size ∧ C.src < a.size)
    (hobject : ∀ o < a.size, o + (a.nodes o).objSz ≤ a.size)
    (hicall : ∀ e ∈ a.icallCons, e.1 ∈ a.constraints ∧ (e.1.type = .load ∨ e.1.type = .store))
    (hmap : (a.icallCons.map Prod.fst).Nodup) :
    FactorInput a func (lsKeys a.constraints true) (lsKeys a.constraints false) where
  size := hsize
  inside := ⟨fun hC => hnode _ hC, hobject⟩
  icall := IcallCons.forall_tagged hicall
  map := hmap
  loads := lsKeys_spec a.constraints true
  stores := lsKeys_spec a.constraints false

/-- Pointer 7 points to function 3, which has a return node, and to structure 5;
nodes 8 and 9 are the results of calls through it, and the nodes in `copies` are
copied into its second field. -/
def callAndCopy (copies : List Nat) : Anders :=
  { Anders.initial 12 6 (fun n => if n = 1 ∨ n = 4 ∨ n = 6 then { objSz := 1 }
      else if n = 3 ∨ n = 5 then { objSz := 2 } else {})
    ([⟨.addrOf, 7, 3, 0⟩, ⟨.addrOf, 7, 5, 0⟩, ⟨.load, 8, 7, 1⟩, ⟨.load, 9, 7, 1⟩] ++
      copies.map fun v => ⟨.store, 7, v, 1⟩) with
    icallCons := [(⟨.load, 8, 7, 1⟩, {0}), (⟨.load, 9, 7, 1⟩, {1})] }

/-- The two calls alone are factored without a loss. -/
theorem factorLs_calls : ∃ b, factorLs [(7, 1)] [] (callAndCopy []) = .ok b ∧
    FactorKeeps (callAndCopy []) b (· = 3) := by
  have hin : FactorInput (callAndCopy []) (· = 3) [(7, 1)] [] :=
    factorInput_of _ (by decide) (by decide) (by decide) (by decide) (by decide)
  have huniform : ∀ C ∈ (callAndCopy []).constraints, ∀ C2 ∈ (callAndCopy []).constraints,
      (callAndCopy []).icallCons.Tagged C2 → C2.type = C.type → lsKey C2 = lsKey C →
        (callAndCopy []).icallCons.Tagged C := by decide
  exact (factorLs_keeps_iff _ _ _ _ hin).mpr ⟨IcallCons.forall_tagged (by decide),
    spread_flow_iff fun C C2 hC => huniform C hC C2⟩

/-- With two copies into the field, the calls are attached to a load of the node
that stands for the copies; there is no such constraint. -/
theorem factorLs_clash :
    FactorInput (callAndCopy [10, 11]) (· = 3) [(7, 1)] [(7, 1)] ∧
    ∃ b, factorLs [(7, 1)] [(7, 1)] (callAndCopy [10, 11]) = .ok b ∧
      b.icallCons.Tagged ⟨.load, 13, 7, 1⟩ ∧ (⟨.load, 13, 7, 1⟩ : Constraint) ∉ b.constraints :=
  ⟨factorInput_of _ (by decide) (by decide) (by decide) (by decide) (by decide), _, rfl,
    by decide, by decide⟩

end PtrAnalysis
