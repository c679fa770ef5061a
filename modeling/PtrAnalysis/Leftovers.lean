import PtrAnalysis.CacheRuns
import PtrAnalysis.Lib.TwoRuns
import PtrAnalysis.Process

/-!
# What the phases see of earlier runs

The generator sets the counters that the release leaves, value numbering starts its search anew
on an empty stack, and `pts_init` tests the expansion of a set, where the number of variables that
the first run of the process fixed has to be right.
-/

namespace PtrAnalysis

open Run

/-! ## The generator -/

/-- The members that are not released are set at the start. -/
theorem Gen.objConsId_released (P : Ir) (fuel next sz : Nat) (t : Ty) :
    Gen.objConsId P fuel { Gen.empty with nextNode := next, maxStruct := t, maxStructSz := sz } =
      Gen.objConsId P fuel Gen.empty := by
  rfl

/-! ## The optimizations -/

/-- Other values of what a search sets at its start. -/
def OffGraph.withSearch (c : Nat) (l : List (Finset Nat × Nat)) (o : OffGraph) : OffGraph :=
  { o with currDfs := c, lbl2pe := l }

theorem gepLabel_withSearch (c : Nat) (l : List (Finset Nat × Nat)) (o : OffGraph) (R : Nat × Nat) :
    (o.withSearch c l).gepLabel R = (o.gepLabel R).map (OffGraph.withSearch c l) id := by
  unfold OffGraph.gepLabel
  rw [show (o.withSearch c l).gep2pe = o.gep2pe from rfl]
  cases o.gep2pe.lookup R <;> rfl

theorem addOffEdge_withSearch (a : Anders) (hcd : Bool) (c : Nat) (l : List (Finset Nat × Nat))
    (o : OffGraph) (C : Constraint) : addOffEdge a hcd (o.withSearch c l) C =
      OffGraph.withSearch c l <$> addOffEdge a hcd o C := by
  refine bind_map fun _ => ite_map Iff.rfl (fun _ => bind_map fun _ => rfl) fun _ =>
    bind_map fun _ => ?_
  cases C.type with
  | addrOf =>
      refine ite_map Iff.rfl (fun _ => rfl) fun _ => ?_
      by_cases hsrc : o.main2off C.src = 0
      · dsimp only
        rw [if_pos hsrc]
        exact congrArg Except.ok (if_pos hsrc)
      · dsimp only
        rw [if_neg hsrc]
        exact congrArg Except.ok (if_neg hsrc)
  | copy =>
      refine ite_map Iff.rfl (fun _ => ?_) fun _ => ?_ <;> cases hcd <;> rfl
  | load =>
      refine ite_map Iff.rfl (fun _ => ?_) fun _ => bind_map fun _ => rfl
      cases hcd <;> rfl
  | store => exact ite_map Iff.rfl (fun _ => rfl) fun _ => bind_map fun _ => rfl
  | gep =>
      refine ite_map Iff.rfl (fun _ => rfl) fun _ => ?_
      dsimp only
      rw [gepLabel_withSearch]
      rfl

/-- One pass of value numbering starts its search anew, whatever was left. -/
theorem hvnIn_left {left left' : OffGraph} (doUnion : Bool) (h : left.dfsStk = [])
    (h' : left'.dfsStk = []) (a : Anders) : hvnIn doUnion left a = hvnIn doUnion left' a := by
  have hedges := fun o => foldlM_map (T := OffGraph.withSearch left.currDfs left.lbl2pe)
    (addOffEdge_withSearch a false left.currDfs left.lbl2pe) a.constraints o
  have hedges' := fun o => foldlM_map (T := OffGraph.withSearch left'.currDfs left'.lbl2pe)
    (addOffEdge_withSearch a false left'.currDfs left'.lbl2pe) a.constraints o
  unfold hvnIn makeOffNodesIn addOffEdges
  rw [h, h']
  simp only [bind_assoc, pure_bind]
  refine bind_congr fun o => ?_
  have hstart := hedges { o with nextPtrEq := a.size, gep2pe := [], dfsStk := [] }
  have hstart' := hedges' { o with nextPtrEq := a.size, gep2pe := [], dfsStk := [] }
  unfold OffGraph.withSearch at hstart hstart'
  dsimp only at hstart hstart'
  rw [hstart, hstart', bind_map_left, bind_map_left]
  rfl

/-- The optimizer leaves an empty stack, and what it does does not depend on what it found. -/
theorem optimize_left {left left' : OffGraph} (J : Job) (h : left.dfsStk = [])
    (h' : left'.dfsStk = []) (a : Anders) : optimize J left a = optimize J left' a := by
  unfold optimize
  rw [hvnIn_left false h h']

/-! ## The number of object nodes -/

/-- The last object node is as before. -/
def KeepsLast (a b : Anders) : Prop := b.lastObjNode = a.lastObjNode

theorem mergeOne_last {a : Anders} (o : OffGraph) {t : Anders × PeNodes} (ht : KeepsLast a t.1)
    (i : Nat) : Spec (mergeOne o t i) (fun u => KeepsLast a u.1) fun _ => True := by
  unfold mergeOne
  dsimp only
  split
  · exact ht
  · refine spec_require (fun _ => trivial) fun _ => ?_
    split
    · exact spec_require (fun _ => trivial) fun _ => ht
    · refine spec_require (fun _ => trivial) fun _ => ?_
      split
      · exact spec_require (fun _ => trivial) fun _ => ht
      · exact (spec_true _).bind fun _ _ => ht

theorem hvnIn_last (doUnion : Bool) (left : OffGraph) (a : Anders) :
    Spec (hvnIn doUnion left a) (fun t => KeepsLast a t.1) fun _ => True := by
  refine (spec_true _).bind fun o _ => (spec_true _).bind fun o _ => (spec_true _).bind fun o _ => ?_
  have hmerge : Spec (mergePtrEq o a) (KeepsLast a) fun _ => True :=
    (spec_foldlM_keeps (P := fun t : Anders × PeNodes => KeepsLast a t.1) (b := (a, [])) rfl
      fun i _ t ht => mergeOne_last o ht i).bind fun t ht => ht
  exact hmerge.bind fun b hb => hb

theorem hrIn_last (doUnion : Bool) (minDel fuel : Nat) (left : OffGraph) (a : Anders) :
    Spec (hrIn doUnion minDel fuel left a) (fun t => KeepsLast a t.1) fun _ => True := by
  induction fuel generalizing left a with
  | zero => trivial
  | succ fuel ih =>
      refine (hvnIn_last doUnion left a).bind fun t ht => ?_
      dsimp only
      split
      · exact (ih t.2 t.1).imp fun u hu => Eq.trans hu ht
      · exact ht

section

variable {a : Anders}

theorem hcdScc_last {b : Anders} (hb : KeepsLast a b) (o : OffGraph) (scc : List Nat) :
    Spec (hcdScc (b, o) scc) (fun u => KeepsLast a u.1) fun _ => True := by
  unfold hcdScc
  dsimp only
  split
  · trivial
  · have hmerge : ∀ v vs, Spec (mergeVars o b v vs) (fun u => KeepsLast a u.1) fun _ => True :=
      fun v vs => spec_foldlM_keeps (P := fun u : Anders × Nat => KeepsLast a u.1) hb
        fun v' _ u hu => (spec_true _).bind fun _ _ => hu
    refine (hmerge _ _).bind fun u hu => ?_
    refine spec_foldlM_keeps (P := fun u : HcdState => KeepsLast a u.1) hu fun n _ w hw => ?_
    refine spec_require (fun _ => trivial) fun _ => ?_
    dsimp only
    split <;> exact hw

theorem hcdDfs_last (fuel : Nat) {t : HcdState} (ht : KeepsLast a t.1) (n : Nat) :
    Spec (hcdDfs fuel t n) (fun u => KeepsLast a u.1) fun _ => True := by
  induction fuel generalizing t n with
  | zero => trivial
  | succ fuel ih =>
      obtain ⟨b, o⟩ := t
      have hedge : ∀ (u : HcdState) (dest : Nat), KeepsLast a u.1 →
          Spec (hcdCheckEdge (hcdDfs fuel) n u dest) (fun u => KeepsLast a u.1) fun _ => True := by
        intro u dest hu
        refine spec_require (fun _ => trivial) fun _ => ?_
        split
        · exact hu
        · split
          · exact (ih hu dest).bind fun w hw => hw
          · exact hu
      rw [hcdDfs]
      refine spec_require (fun _ => trivial) fun _ => spec_require (fun _ => trivial) fun _ => ?_
      have hstart : ∀ o', KeepsLast a ((b, o') : HcdState).1 := fun _ => ht
      refine (spec_foldlM_keeps (P := fun u : HcdState => KeepsLast a u.1) (hstart _)
        fun dest _ u hu => hedge u dest hu).bind fun u hu => ?_
      refine spec_require (fun _ => trivial) fun _ => ?_
      split
      · refine spec_require (fun _ => trivial) fun _ => ?_
        dsimp only
        split
        · exact hu
        · exact hcdScc_last hu _ _
      · exact hu

end

theorem hcdIn_last (left : OffGraph) (a : Anders) : Spec (hcdIn left a)
    (fun t => KeepsLast a t.1 ∧ t.2.dfsStk = []) fun _ => True := by
  have hsearch : ∀ o, Spec (hcdSearch a o) (fun t => KeepsLast a t.1 ∧ t.2.dfsStk = [])
      fun _ => True := by
    intro o
    refine (spec_foldlM_keeps (P := fun t : HcdState => KeepsLast a t.1) (b := (a, _)) rfl
      fun i _ t ht => ?_).bind fun t ht => spec_require (fun _ => trivial) fun hstk => ⟨ht, hstk⟩
    split
    · exact hcdDfs_last _ ht i
    · exact ht
  refine (spec_true _).bind fun o _ => (spec_true _).bind fun o _ => ?_
  exact (hsearch _).bind fun t ht => ht

theorem factorLs_last (loadKeys storeKeys : List LsKey) (a : Anders) :
    Spec (factorLs loadKeys storeKeys a) (KeepsLast a) fun _ => True := by
  have hgroups : ∀ cs load keys, ∀ t : Anders × List (LsKey × Nat), KeepsLast a t.1 →
      Spec (factorGroups cs load keys t) (fun u => KeepsLast a u.1) fun _ => True := by
    intro cs load keys t ht
    refine spec_foldlM_keeps (P := fun u : Anders × List (LsKey × Nat) => KeepsLast a u.1) ht
      fun key _ u hu => ?_
    have hone : Spec (factorGroup u.1 (lsGroup cs load key) key load) (fun b => KeepsLast a b.1)
        fun _ => True := by
      refine spec_require (fun _ => trivial) fun _ => ?_
      split
      · exact hu
      · exact hu
    exact hone.bind fun b hb => hb
  let cs := a.constraints.filter fun C => C.type ≠ .load ∧ C.type ≠ .store
  exact (hgroups a.constraints true loadKeys ({ a with constraints := cs }, []) rfl).bind fun t ht =>
    (hgroups a.constraints false storeKeys t ht).bind fun u hu => hu

/-- The optimizer leaves the objects where they are, and an empty stack. -/
theorem optimize_keeps (J : Job) (left : OffGraph) (a : Anders) : Spec (optimize J left a)
    (fun t => KeepsLast a t.1 ∧ t.2.dfsStk = []) fun _ => True := by
  refine (hvnIn_last false left a).bind fun t ht => ?_
  refine (hrIn_last true hrMinDel J.fuel t.2 t.1).bind fun u hu => ?_
  refine (hcdIn_last u.2 u.1).bind fun v hv => ?_
  refine (factorLs_last _ _ v.1).bind fun b hb => ?_
  exact ⟨((Eq.trans hb hv.1).trans hu).trans ht, hv.2⟩

section

variable {W : Type}

/-! ## The test of the expansion -/

/-- Where the number of variables is right or not known, the test does not see the difference. -/
theorem testBdd2vec_fits {q r : Process W} (lib : BddLib) (npts : Nat) (hq : q.cache = .empty)
    (hr : r.cache = .empty) (hfq : q.fdd0Bits = 0 ∨ q.fdd0Bits = fddBits npts * 2 - 1)
    (hfr : r.fdd0Bits = 0 ∨ r.fdd0Bits = fddBits npts * 2 - 1) :
    testBdd2vec lib npts r =
      (fun u => { r with cache := u.cache, fdd0Bits := u.fdd0Bits }) <$> testBdd2vec lib npts q := by
  have hnum : ∀ u : Process W, u.cache = .empty →
      (u.fdd0Bits = 0 ∨ u.fdd0Bits = fddBits npts * 2 - 1) → ∀ id,
      (if u.fdd0Bits = 0 ∧ u.cache.find id = none then fddBits npts * 2 - 1 else u.fdd0Bits) =
        fddBits npts * 2 - 1 := by
    intro u hu hf id
    rw [hu]
    split
    · rfl
    · rename_i hn
      exact hf.resolve_left fun h0 => hn ⟨h0, rfl⟩
  unfold testBdd2vec
  dsimp only
  rw [hnum q hq hfq, hnum r hr hfr, hq, hr]
  exact bind_map fun _ => bind_map fun _ => bind_map fun _ => bind_map fun _ => bind_map fun _ => rfl

theorem sat2vec_lt {bits : Nat} {out out' : List Nat} {v : Assignment}
    (h : sat2vec bits out v = .ok out') (hout : ∀ x ∈ out, x < 2 ^ bits) :
    ∀ x ∈ out', x < 2 ^ bits := by
  by_cases hopen : (openVars v bits).length ≤ 25
  · obtain ⟨l, hl, hperm⟩ := sat2vec_perm bits out v hopen
    obtain rfl := Except.ok.inj (hl.symm.trans h)
    intro x hx
    rcases List.mem_append.mp hx with hx | hx
    · exact hout x hx
    · exact (mem_allPicks.mp (hperm.mem_iff.mp hx)).1
  · exfalso
    have hscan := (sat2vecScan_spec v bits).1
    unfold sat2vec at h
    dsimp only at h
    rw [hscan] at h
    have hlen : ((openVars v bits).map (2 ^ ·)).length = (openVars v bits).length :=
      List.length_map _
    split at h
    case h_4 =>
      rw [inRange_bind_ok, require_bind_ok, hlen] at h
      exact hopen h.2.1
    all_goals
      rename_i he
      rw [he] at hlen
      simp only [List.length_nil, List.length_cons] at hlen
      omega

/-- With an empty cache every member of the expansion fits the variables that are looked at. -/
theorem bdd2vec_lt {bits : Nat} {sats : List Assignment} {id : Nat} {v : List Nat} {c : BvCache}
    (h : bdd2vec bits sats .empty id = .ok (v, c)) : ∀ x ∈ v, x < 2 ^ bits := by
  by_cases h0 : id = 0
  · subst h0
    cases h
    exact fun x hx => absurd hx List.not_mem_nil
  · have h1 : id ≠ 1 := by
      unfold bdd2vec bdd2vecWithin at h
      exact (require_bind_ok.mp h).1
    have hroom : (if BvCache.empty.sz ≥ Limits.config.bvcMax * 2 ^ 18 then
        BvCache.evict .config BvCache.empty.lru (BvCache.empty.missed id)
        else .ok (BvCache.empty.missed id)) = .ok (BvCache.empty.missed id) := if_neg (by decide)
    rw [bdd2vec, bdd2vec_expand h1 h0 rfl hroom] at h
    obtain ⟨l, hl, h⟩ := bind_ok.mp h
    cases h
    intro x hx
    refine foldlM_keeps (P := fun l => ∀ x ∈ l, x < 2 ^ bits) hl ?_ (fun w _ l1 l2 h1 h2 => ?_) x
      ((List.perm_insertionSort _ l).mem_iff.mp hx)
    · exact fun x hx => absurd hx List.not_mem_nil
    · exact sat2vec_lt h2 h1

/-! ## The width of a domain -/

theorem bitsFrom_ge (k b n : Nat) : b ≤ bitsFrom k b n := by
  induction k generalizing b with
  | zero => exact Nat.le_refl b
  | succ k ih =>
      rw [bitsFrom]
      split
      · exact Nat.le_refl b
      · exact Nat.le_of_succ_le (ih (b + 1))

theorem bitsFrom_le {c n : Nat} (hn : n ≤ 2 ^ c) (k : Nat) {b : Nat} (hb : b ≤ c) :
    bitsFrom k b n ≤ c := by
  induction k generalizing b with
  | zero => exact hb
  | succ k ih =>
      rw [bitsFrom]
      split
      · exact hb
      · rename_i hnb
        exact ih (Nat.lt_of_le_of_ne hb fun he => hnb (he ▸ hn))

/-- Where another number of variables is expected, the test fails. -/
theorem testBdd2vec_misfits {q r : Process W} {lib : BddLib} {npts b : Nat} (hq : q.cache = .empty)
    (hb : 0 < b) (hf : q.fdd0Bits = b * 2 - 1) (hr : testBdd2vec lib npts q = .ok r) :
    b = fddBits npts := by
  unfold testBdd2vec at hr
  dsimp only at hr
  rw [if_neg (fun h => by omega), hf, hq, show (b * 2 - 1 + 1) / 2 = b by omega, require_bind_ok,
    inRange_bind_ok] at hr
  obtain ⟨-, hread, hr⟩ := hr
  obtain ⟨⟨v, c⟩, hv, hr⟩ := bind_ok.mp hr
  rw [require_bind_ok, require_bind_ok] at hr
  obtain ⟨-, ⟨-, hlast⟩, -⟩ := hr
  have hmem : npts - 1 ∈ v :=
    (List.perm_insertionSort _ v).mem_iff.mp (List.mem_of_getElem? hlast)
  have hlt := bdd2vec_lt hv _ hmem
  have hle : fddBits npts ≤ b := bitsFrom_le (by omega) npts hb
  omega

end

end PtrAnalysis
