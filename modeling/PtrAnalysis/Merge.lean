import PtrAnalysis.Graph

/-!
# Runs of `mergeNodes`

`MergeRun` is the graph of `mergeNodes` as an inductive relation: one constructor
for each way a merge of two nodes can go, the cascade with the run it starts.
What a merge preserves is proved by induction on it. The fuel of `mergeNodes` is
the number of representatives, of which every merge removes one.
-/

namespace PtrAnalysis

open Run

namespace Graph

/-- What the assertions of `mergeNodes` demand of the two nodes. -/
structure Mergeable (g : Graph) (n1 n2 : Nat) : Prop where
  valid1 : n1 ≠ 0 ∧ n1 < g.size
  valid2 : n2 ≠ 0 ∧ n2 < g.size
  ne : n1 ≠ n2
  not_i2p : n1 ≠ i2p ∧ n2 ≠ i2p
  isRep : g.isRep n1 = true ∧ g.isRep n2 = true

theorem byRank_cases (g : Graph) (n1 n2 : Nat) :
    byRank g n1 n2 = (n1, n2) ∨ byRank g n1 n2 = (n2, n1) := by
  unfold byRank
  split
  · exact .inr rfl
  · exact .inl rfl

/-- Parent and child have the same properties as the two nodes. -/
theorem Mergeable.byRank {g : Graph} {n1 n2 a b : Nat} (h : Mergeable g n1 n2)
    (hr : byRank g n1 n2 = (a, b)) : Mergeable g a b := by
  rcases byRank_cases g n1 n2 with h' | h' <;> rw [h'] at hr <;> cases hr
  · exact h
  · exact ⟨h.valid2, h.valid1, h.ne.symm, h.not_i2p.symm, h.isRep.symm⟩

/-- The entry of `hcdVar`, 0 if there is none. -/
def hv (g : Graph) (n : Nat) : Nat := (g.hcdVar n).getD 0

end Graph

/-- The indices of the constraints of one kind that dereference a node. -/
def Node.list (N : Node) : ConsType → Finset Nat
  | .load => N.loadTo
  | .store => N.storeFrom
  | .gep => N.gepTo
  | _ => ∅

open PtrAnalysis.Graph

/-- `MergeRun g n1 n2 g' r`: merging `n1` and `n2` turns `g` into `g'` and returns
`r`. -/
inductive MergeRun : Graph → Nat → Nat → Graph → Nat → Prop
  | plain {g : Graph} {n1 n2 a b : Nat} (hm : Mergeable g n1 n2)
      (hr : byRank g n1 n2 = (a, b)) (hb : g.hv b = 0) :
      MergeRun g n1 n2 (g.absorb a b) a
  | adopt {g : Graph} {n1 n2 a b : Nat} (hm : Mergeable g n1 n2)
      (hr : byRank g n1 n2 = (a, b)) (hb : g.hv b ≠ 0) (ha : g.hv a = 0) :
      MergeRun g n1 n2 (((g.absorb a b).setHcdVar a (some (g.hv b))).setHcdVar b none) a
  | same {g : Graph} {n1 n2 a b : Nat} (hm : Mergeable g n1 n2)
      (hr : byRank g n1 n2 = (a, b)) (hb : g.hv b ≠ 0) (ha : g.hv a ≠ 0)
      (heq : (g.absorb a b).rep (g.hv a) = (g.absorb a b).rep (g.hv b)) :
      MergeRun g n1 n2 ((g.absorb a b).setHcdVar b none) a
  | cascade {g g' : Graph} {n1 n2 a b r : Nat} (hm : Mergeable g n1 n2)
      (hr : byRank g n1 n2 = (a, b)) (hb : g.hv b ≠ 0) (ha : g.hv a ≠ 0)
      (hne : (g.absorb a b).rep (g.hv a) ≠ (g.absorb a b).rep (g.hv b))
      (hrun : MergeRun ((g.absorb a b).recordCascade a) ((g.absorb a b).rep (g.hv a))
        ((g.absorb a b).rep (g.hv b)) g' r)
      (hkeep : a ≠ (g.absorb a b).rep (g.hv b) → g'.isRep a = true) :
      MergeRun g n1 n2 (g'.setHcdVar b none) (g'.rep a)

namespace Graph

variable {g : Graph} {a b : Nat}

theorem absorb_rep (h : Mergeable g a b) (x : Nat) :
    (g.absorb a b).rep x = if g.rep x = b then a else g.rep x :=
  Forest.find_join h.isRep.1 h.isRep.2 h.ne x

theorem absorb_isRep (h : Mergeable g a b) (x : Nat) :
    (g.absorb a b).isRep x = true ↔ g.isRep x = true ∧ x ≠ b :=
  Forest.isRep_join h.isRep.1 h.isRep.2 h.ne x

@[simp] theorem rep_rep (g : Graph) (x : Nat) : g.rep (g.rep x) = g.rep x :=
  Forest.find_find ..

theorem isRep_rep (g : Graph) (x : Nat) : g.isRep (g.rep x) = true := Forest.isRep_find ..

theorem rep_eq_self {x : Nat} : g.rep x = x ↔ g.isRep x = true := Forest.find_eq_self

/-- The representatives in the graph. -/
def reps (g : Graph) : Finset Nat := (Finset.range g.size).filter fun n => g.isRep n = true

@[simp] theorem mem_reps {n : Nat} : n ∈ g.reps ↔ n < g.size ∧ g.isRep n = true := by
  simp [reps]

theorem absorb_reps (h : Mergeable g a b) : (g.absorb a b).reps = g.reps.erase b := by
  ext x
  rw [mem_reps, absorb_isRep h, Finset.mem_erase, mem_reps]
  exact ⟨fun ⟨h1, h2, h3⟩ => ⟨h3, h1, h2⟩, fun ⟨h3, h1, h2⟩ => ⟨h1, h2, h3⟩⟩

/-- The sets of `x` and `y` are the same, or there is a copy edge between them. -/
def Edge (g : Graph) (x y : Nat) : Prop :=
  g.rep x = g.rep y ∨ ∃ e ∈ (g.nodes (g.rep x)).copyTo, g.rep e = g.rep y

/-- Graph `g'` is `g` with some sets of nodes merged. -/
structure Coarser (g g' : Graph) : Prop where
  size : g'.size = g.size
  rep : ∀ {x y}, g.rep x = g.rep y → g'.rep x = g'.rep y
  isRep : ∀ {x}, g'.isRep x = true → g.isRep x = true
  /-- The null node and `i2p` stay alone. -/
  apart : ∀ {m}, m = 0 ∨ m = i2p → ∀ {x}, g'.rep x = m ↔ g.rep x = m
  /-- Representatives of nodes are nodes. -/
  inside : (∀ x < g.size, g.rep x < g.size) → ∀ x < g'.size, g'.rep x < g'.size
  val : ∀ n, (g'.nodes n).val = (g.nodes n).val
  objSz : ∀ n, (g'.nodes n).objSz = (g.nodes n).objSz
  pts : ∀ x, (g.nodes (g.rep x)).pointsTo ⊆ (g'.nodes (g'.rep x)).pointsTo
  /-- What was not processed for one of the sets is not for all of them. -/
  prev : ∀ x, (g'.nodes (g'.rep x)).prevPointsTo ⊆ (g.nodes (g.rep x)).prevPointsTo
  edge : ∀ {x y}, g.Edge x y → g'.Edge x y
  list : ∀ t x, (g.nodes (g.rep x)).list t ⊆ (g'.nodes (g'.rep x)).list t
  calls : ∀ {x}, g.rep x ∈ g.indCalls → g'.rep x ∈ g'.indCalls
  cascades : g.cascades ⊆ g'.cascades

namespace Coarser

variable {g' g'' : Graph}

theorem refl (g : Graph) : Coarser g g :=
  ⟨rfl, id, id, fun _ => Iff.rfl, id, fun _ => rfl, fun _ => rfl, fun _ => Finset.Subset.refl _,
    fun _ => Finset.Subset.refl _, id, fun _ _ => Finset.Subset.refl _, id, List.Subset.refl _⟩

theorem trans (h : Coarser g g') (h' : Coarser g' g'') : Coarser g g'' where
  size := h'.size.trans h.size
  rep hxy := h'.rep (h.rep hxy)
  isRep hx := h.isRep (h'.isRep hx)
  apart hm := (h'.apart hm).trans (h.apart hm)
  inside hx := h'.inside (h.inside hx)
  val n := (h'.val n).trans (h.val n)
  objSz n := (h'.objSz n).trans (h.objSz n)
  pts x := (h.pts x).trans (h'.pts x)
  prev x := (h'.prev x).trans (h.prev x)
  edge hxy := h'.edge (h.edge hxy)
  list t x := (h.list t x).trans (h'.list t x)
  calls hx := h'.calls (h.calls hx)
  cascades := List.Subset.trans h.cascades h'.cascades

/-- A change of `hcdVar` or of the history merges nothing. -/
theorem ofSame (hn : g'.nodes = g.nodes) (hf : g'.forest = g.forest) (hs : g'.size = g.size)
    (hi : g'.indCalls = g.indCalls) (hc : g.cascades ⊆ g'.cascades) : Coarser g g' := by
  have hrep : g'.rep = g.rep := by funext x; simp only [Graph.rep, hf]
  have hisRep : g'.isRep = g.isRep := by funext x; simp only [Graph.isRep, hf]
  exact ⟨hs, fun h => by rwa [hrep], fun h => by rwa [← hisRep], fun _ => by rw [hrep],
    fun h => by rwa [hrep, hs], fun n => by rw [hn], fun n => by rw [hn],
    fun x => by rw [hrep, hn], fun x => by rw [hrep, hn],
    fun h => by unfold Edge at h ⊢; rwa [hrep, hn], fun t x => by rw [hrep, hn],
    fun h => by rwa [hrep, hi], hc⟩

end Coarser

/-- After `b` was put under `a`, both are represented by `a`. -/
theorem absorb_both (h : Mergeable g a b) : (g.absorb a b).rep a = a ∧ (g.absorb a b).rep b = a := by
  rw [absorb_rep h, absorb_rep h, rep_eq_self.mpr h.isRep.1, rep_eq_self.mpr h.isRep.2, if_pos rfl,
    if_neg h.ne]
  exact ⟨rfl, rfl⟩

/-- Copy edges survive, apart from the loops at the merged node. -/
theorem absorb_edge (h : Mergeable g a b) {x y : Nat} (hxy : g.Edge x y) :
    (g.absorb a b).Edge x y := by
  have hrep := absorb_rep h
  have hto : ∀ {e}, g.rep e = g.rep y → (g.absorb a b).rep e = (g.absorb a b).rep y :=
    fun hey => by rw [hrep, hrep, hey]
  by_cases hx : g.rep x = a ∨ g.rep x = b
  · -- the edges of `a` and `b` are those of `a` now, without loops
    have hx' : (g.absorb a b).rep x = a := by
      rw [hrep]
      rcases hx with hx | hx
      · rw [hx, if_neg h.ne]
      · rw [if_pos hx]
    rcases hxy with heq | ⟨e, he, hey⟩
    · exact .inl (hto heq)
    · by_cases hloop : e = a ∨ e = b
      · refine .inl ?_
        have hea : (g.absorb a b).rep e = a := by
          rcases hloop with rfl | rfl
          · exact (absorb_both h).1
          · exact (absorb_both h).2
        exact hx'.trans (hea.symm.trans (hto hey))
      · refine .inr ⟨e, ?_, hto hey⟩
        rw [not_or] at hloop
        rw [hx']
        simp only [absorb, if_pos, takeOver]
        refine Finset.mem_erase.mpr ⟨hloop.2, Finset.mem_erase.mpr ⟨hloop.1, ?_⟩⟩
        rcases hx with hx | hx
        · exact Finset.mem_union_left _ (hx ▸ he)
        · exact Finset.mem_union_right _ (hx ▸ he)
  · rw [not_or] at hx
    have hx' : (g.absorb a b).rep x = g.rep x := by rw [hrep, if_neg hx.2]
    rcases hxy with heq | ⟨e, he, hey⟩
    · exact .inl (hto heq)
    · refine .inr ⟨e, ?_, hto hey⟩
      rw [hx']
      simp only [absorb, if_neg hx.1, if_neg hx.2]
      exact he

theorem absorb_coarser (h : Mergeable g a b) : Coarser g (g.absorb a b) where
  size := rfl
  rep hxy := by rw [absorb_rep h, absorb_rep h, hxy]
  isRep hx := ((absorb_isRep h _).mp hx).1
  apart hm x := by
    have ha : a ≠ _ := fun he : a = _ => hm.elim (fun h0 => h.valid1.1 (he.trans h0))
      fun hi => h.not_i2p.1 (he.trans hi)
    have hb : b ≠ _ := fun he : b = _ => hm.elim (fun h0 => h.valid2.1 (he.trans h0))
      fun hi => h.not_i2p.2 (he.trans hi)
    rw [absorb_rep h]
    split
    · rename_i hx
      rw [hx]
      exact ⟨fun he => absurd he ha, fun he => absurd he hb⟩
    · exact Iff.rfl
  inside hx x hlt := by
    rw [absorb_rep h]
    split
    · exact h.valid1.2
    · exact hx x hlt
  val n := by
    simp only [absorb, takeOver, cleared]
    split
    · rename_i hn; rw [hn]
    · split
      · rename_i hn; rw [hn]
      · rfl
  objSz n := by
    simp only [absorb, takeOver, cleared]
    split
    · rename_i hn; rw [hn]
    · split
      · rename_i hn; rw [hn]
      · rfl
  pts x := by
    rw [absorb_rep h]
    split
    · rename_i hx
      rw [hx]
      simp only [absorb, if_pos, takeOver]
      exact Finset.subset_union_right
    · rename_i hx
      simp only [absorb, takeOver]
      split
      · rename_i ha
        rw [ha]
        exact Finset.subset_union_left
      · exact Finset.Subset.refl _
  prev x := by
    rw [absorb_rep h]
    simp only [absorb, takeOver]
    split
    · rw [if_pos rfl]
      exact Finset.empty_subset _
    · split
      · exact Finset.empty_subset _
      · exact Finset.Subset.refl _
  edge := absorb_edge h
  list t x := by
    rw [absorb_rep h]
    split
    · rename_i hx
      rw [hx]
      simp only [absorb, if_pos, takeOver]
      cases t <;> first | exact Finset.Subset.refl _ | exact Finset.subset_union_right
    · simp only [absorb, takeOver]
      split
      · rename_i ha
        rw [ha]
        cases t <;> first | exact Finset.Subset.refl _ | exact Finset.subset_union_left
      · exact Finset.Subset.refl _
  calls {x} hx := by
    rw [absorb_rep h]
    simp only [absorb]
    by_cases hxb : g.rep x = b
    · rw [hxb] at hx
      rw [if_pos hxb, if_pos hx]
      exact Finset.mem_insert_self ..
    · rw [if_neg hxb]
      split
      · exact Finset.mem_insert_of_mem (Finset.mem_erase.mpr ⟨hxb, hx⟩)
      · exact hx
  cascades := List.Subset.refl _

theorem absorb_reps_card (h : Mergeable g a b) : (g.absorb a b).reps.card < g.reps.card := by
  rw [absorb_reps h]
  exact Finset.card_erase_lt_of_mem (mem_reps.mpr ⟨h.valid2.2, h.isRep.2⟩)

end Graph

/-- What holds of parent and child holds of the two nodes in either order. -/
theorem byRank_both {g : Graph} {n1 n2 a b : Nat} (hr : byRank g n1 n2 = (a, b)) {P : Nat → Prop}
    (ha : P a) (hb : P b) : P n1 ∧ P n2 := by
  rcases byRank_cases g n1 n2 with h | h <;> rw [h] at hr <;> cases hr
  · exact ⟨ha, hb⟩
  · exact ⟨hb, ha⟩

/-- A merge makes the partition coarser, puts the two nodes into one set and
removes a representative. -/
theorem MergeRun.spec {g g' : Graph} {n1 n2 r : Nat} (h : MergeRun g n1 n2 g' r) :
    Coarser g g' ∧ g'.rep n1 = r ∧ g'.rep n2 = r ∧ g'.reps.card < g.reps.card := by
  induction h with
  | plain hm hr hb =>
      have hab := hm.byRank hr
      obtain ⟨h1, h2⟩ := byRank_both (P := fun x => (absorb _ _ _).rep x = _) hr
        (absorb_both hab).1 (absorb_both hab).2
      exact ⟨absorb_coarser hab, h1, h2, absorb_reps_card hab⟩
  | adopt hm hr hb ha =>
      have hab := hm.byRank hr
      obtain ⟨h1, h2⟩ := byRank_both (P := fun x => (absorb _ _ _).rep x = _) hr
        (absorb_both hab).1 (absorb_both hab).2
      exact ⟨(absorb_coarser hab).trans (.ofSame rfl rfl rfl rfl (List.Subset.refl _)), h1, h2, absorb_reps_card hab⟩
  | same hm hr hb ha heq =>
      have hab := hm.byRank hr
      obtain ⟨h1, h2⟩ := byRank_both (P := fun x => (absorb _ _ _).rep x = _) hr
        (absorb_both hab).1 (absorb_both hab).2
      exact ⟨(absorb_coarser hab).trans (.ofSame rfl rfl rfl rfl (List.Subset.refl _)), h1, h2, absorb_reps_card hab⟩
  | @cascade g g' n1 n2 a b r hm hr hb ha hne hrun hkeep ih =>
      have hab := hm.byRank hr
      obtain ⟨hc, -, -, hcard⟩ := ih
      have hsame : Coarser (g.absorb a b) ((g.absorb a b).recordCascade a) :=
        .ofSame rfl rfl rfl rfl (List.subset_cons_self ..)
      have hc1 := hsame.trans hc
      have hba : g'.rep b = g'.rep a :=
        hc1.rep ((absorb_both hab).2.trans (absorb_both hab).1.symm)
      obtain ⟨h1, h2⟩ := byRank_both (P := fun x => g'.rep x = g'.rep a) hr rfl hba
      exact ⟨((absorb_coarser hab).trans hc1).trans (.ofSame rfl rfl rfl rfl (List.Subset.refl _)), h1, h2,
        Nat.lt_trans hcard (absorb_reps_card hab)⟩

/-! ## The targets of offline cycles -/

namespace Graph

@[simp] theorem setHcdVar_hv (g : Graph) (n : Nat) (v : Option Nat) (m : Nat) :
    (g.setHcdVar n v).hv m = if m = n then v.getD 0 else g.hv m := by
  simp only [hv, setHcdVar, Function.update_apply]
  split <;> rfl

@[simp] theorem setHcdVar_rep (g : Graph) (n : Nat) (v : Option Nat) (x : Nat) :
    (g.setHcdVar n v).rep x = g.rep x := rfl

@[simp] theorem absorb_hv (g : Graph) (a b m : Nat) : (g.absorb a b).hv m = g.hv m := rfl

end Graph

/-- The set of a node with a target keeps one, and it is in the set of the old. -/
theorem MergeRun.target {g g' : Graph} {n1 n2 r K : Nat} (h : MergeRun g n1 n2 g' r)
    (hK : g.isRep K = true) (hv : g.hv K ≠ 0) :
    g'.hv (g'.rep K) ≠ 0 ∧ g'.rep (g'.hv (g'.rep K)) = g'.rep (g.hv K) := by
  have hkeep : ∀ {g a b K}, Mergeable g a b → g.isRep K = true → K ≠ b →
      (g.absorb a b).rep K = K :=
    fun hm hK hb => rep_eq_self.mpr ((absorb_isRep hm _).mpr ⟨hK, hb⟩)
  induction h generalizing K with
  | @plain g n1 n2 a b hm hr hb =>
      have hKb : K ≠ b := fun h => hv (h ▸ hb)
      rw [hkeep (hm.byRank hr) hK hKb]
      exact ⟨hv, rfl⟩
  | @adopt g n1 n2 a b hm hr hb ha =>
      have hab := hm.byRank hr
      simp only [setHcdVar_rep, setHcdVar_hv, absorb_hv]
      by_cases hKb : K = b
      · subst hKb
        rw [(absorb_both hab).2, if_neg hab.ne, if_pos rfl]
        exact ⟨hb, rfl⟩
      · have hKa : K ≠ a := fun h => hv (h ▸ ha)
        rw [hkeep hab hK hKb, if_neg hKb, if_neg hKa]
        exact ⟨hv, rfl⟩
  | @same g n1 n2 a b hm hr hb ha heq =>
      have hab := hm.byRank hr
      simp only [setHcdVar_rep, setHcdVar_hv, absorb_hv]
      by_cases hKb : K = b
      · subst hKb
        rw [(absorb_both hab).2, if_neg hab.ne]
        exact ⟨ha, heq⟩
      · rw [hkeep hab hK hKb, if_neg hKb]
        exact ⟨hv, rfl⟩
  | @cascade g g' n1 n2 a b r hm hr hb ha hne hrun hstay ih =>
      have hab := hm.byRank hr
      have hc := hrun.spec.1
      have hmerged : g'.rep (g.hv a) = g'.rep (g.hv b) := by
        have h1 : g'.rep ((g.absorb a b).rep (g.hv a)) = g'.rep (g.hv a) := hc.rep (rep_rep _ _)
        have h2 : g'.rep ((g.absorb a b).rep (g.hv b)) = g'.rep (g.hv b) := hc.rep (rep_rep _ _)
        rw [← h1, ← h2, hrun.spec.2.1, hrun.spec.2.2.1]
      have hb' : ∀ x, g'.rep x ≠ b := fun x hx =>
        ((absorb_isRep hab b).mp (hc.isRep (hx ▸ isRep_rep g' x))).2 rfl
      simp only [setHcdVar_rep, setHcdVar_hv, if_neg (hb' _)]
      by_cases hKb : K = b
      · subst hKb
        have ha' : g'.rep K = g'.rep a :=
          hc.rep ((absorb_both hab).2.trans (absorb_both hab).1.symm)
        obtain ⟨h1, h2⟩ := ih ((absorb_isRep hab a).mpr ⟨hab.isRep.1, hab.ne⟩) ha
        rw [ha']
        exact ⟨h1, h2.trans hmerged⟩
      · exact ih ((absorb_isRep hab K).mpr ⟨hK, hKb⟩) hv

/-- Every successful merge is a run, and with as much fuel as representatives a
merge does not run out of it. -/
theorem mergeNodes_run {E : Stop → Prop} (hE : ∀ text,
      text ≠ "off < geps.size() && geps[off] != bddfalse" → E (.assertion text)) :
    ∀ (fuel : Nat) (g : Graph) (n1 n2 : Nat), (E .fuel ∨ g.reps.card ≤ fuel ∧ 0 < fuel) →
      Spec (mergeNodes fuel g n1 n2) (fun t => MergeRun g n1 n2 t.1 t.2) E
  | 0, _, _, _, hf => hf.resolve_right fun h => by omega
  | fuel + 1, g, n1, n2, hf => by
      rw [mergeNodes]
      refine spec_require (fun _ => hE _ (by decide)) fun hv1 => ?_
      refine spec_require (fun _ => hE _ (by decide)) fun hv2 => ?_
      refine spec_require (fun _ => hE _ (by decide)) fun hne => ?_
      refine spec_require (fun _ => hE _ (by decide)) fun hi => ?_
      refine spec_require (fun _ => hE _ (by decide)) fun hrep => ?_
      have hm : Mergeable g n1 n2 := ⟨hv1, hv2, hne, hi, hrep⟩
      obtain ⟨⟨a, b⟩, hr⟩ : ∃ t, byRank g n1 n2 = t := ⟨_, rfl⟩
      have hab := hm.byRank hr
      rw [hr]
      change Spec (if g.hv b = 0 then _ else if g.hv a = 0 then _ else _) _ _
      split
      · exact .plain hm hr ‹_›
      · split
        · exact .adopt hm hr ‹_› ‹_›
        · rename_i hb ha
          change Spec (if (g.absorb a b).rep (g.hv a) = (g.absorb a b).rep (g.hv b) then _ else _) _ _
          split
          · exact .same hm hr hb ha ‹_›
          · rename_i hcasc
            have hcard := absorb_reps_card hab
            have hpos : 0 < (g.absorb a b).reps.card := Finset.card_pos.mpr
              ⟨a, mem_reps.mpr ⟨hab.valid1.2, (absorb_isRep hab a).mpr ⟨hab.isRep.1, hab.ne⟩⟩⟩
            refine (mergeNodes_run hE fuel ((g.absorb a b).recordCascade a) _ _
              (hf.imp id fun h => ?_)).bind fun t ht => ?_
            · change (g.absorb a b).reps.card ≤ fuel ∧ 0 < fuel
              omega
            · change Spec (if a = (g.absorb a b).rep (g.hv b) then _ else _) _ _
              split
              · rename_i hself
                exact .cascade hm hr hb ha hcasc ht fun h => absurd hself h
              · refine spec_require (fun _ => hE _ (by decide)) fun hkeep => ?_
                have hrun := MergeRun.cascade hm hr hb ha hcasc ht fun _ => hkeep
                rwa [rep_eq_self.mpr hkeep] at hrun

end PtrAnalysis
