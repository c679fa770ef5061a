import PtrAnalysis.Bounds
import PtrAnalysis.HcdSearch
import PtrAnalysis.HvnFlow
import PtrAnalysis.Precise

/-!
# What offline cycles say about the least solution

Around a cycle of the offline graph all sets are equal, if every pointer that is stored through
points to something. So the variables of one component may be merged. A dereference in the
component is a union of sets, and a store puts the set of a variable of the component into each
of them: every node that is pointed to has just this set, too.
-/

namespace PtrAnalysis

open Run Relation PtrAnalysis.Graph PtrAnalysis.Search

namespace OffGraph

/-- The main nodes below `k` are entered in `g`, which is `o` otherwise. -/
structure Mapped (o : OffGraph) (k : Nat) (g : OffGraph) : Prop where
  edges : ∀ x, (g.nodes x).edges = (o.nodes x).edges
  node : ∀ x, (g.nodes x).dfsId = (o.nodes x).dfsId ∧ (g.nodes x).sccRoot = (o.nodes x).sccRoot
  main2off : g.main2off = o.main2off
  firstREF : g.firstREF = o.firstREF
  stk : g.dfsStk = o.dfsStk
  main : ∀ i < k, o.main2off i ≠ 0 → (g.nodes (o.main2off i)).mainNode = i ∧
    (g.nodes (o.ref (o.main2off i))).mainNode = i

variable {a : Anders} {func : Nat → Prop} {o g : OffGraph} {n x y v w i : Nat}

theorem setMainNodes_mapped {hcd : Bool} (h : o.Graphs a hcd) : ∀ k, o.Mapped k (setMainNodes k o)
  | 0 => ⟨fun _ => rfl, fun _ => ⟨rfl, rfl⟩, rfl, rfl, rfl, fun i hi => absurd hi (Nat.not_lt_zero i)⟩
  | k + 1 => by
      have hk := setMainNodes_mapped h k
      have hstep : setMainNodes (k + 1) o = if (setMainNodes k o).main2off k = 0 then setMainNodes k o
          else ((setMainNodes k o).modify ((setMainNodes k o).main2off k)
            fun N => { N with mainNode := k }).modify
              ((setMainNodes k o).ref ((setMainNodes k o).main2off k))
              fun N => { N with mainNode := k } := by
        unfold setMainNodes
        rw [List.range_succ, List.foldl_append]
        rfl
      have href : (setMainNodes k o).ref (o.main2off k) = o.ref (o.main2off k) := by
        rw [ref, ref, hk.firstREF]
      rw [hk.main2off, href] at hstep
      rw [hstep]
      split
      · rename_i h0
        refine ⟨hk.edges, hk.node, hk.main2off, hk.firstREF, hk.stk, fun i hi hoff => ?_⟩
        exact hk.main i (Nat.lt_of_le_of_ne (Nat.le_of_lt_succ hi) fun he => hoff (he ▸ h0)) hoff
      · rename_i h0
        have hkeep : ∀ {β : Type} (p : OffNode → β), (∀ N, p { N with mainNode := k } = p N) → ∀ x,
            p ((((setMainNodes k o).modify (o.main2off k) fun N => { N with mainNode := k }).modify
              (o.ref (o.main2off k)) fun N => { N with mainNode := k }).nodes x) =
              p ((setMainNodes k o).nodes x) := fun p hp x =>
          (modify_keeps p hp).trans (modify_keeps p hp)
        refine ⟨fun x => (hkeep OffNode.edges (fun _ => rfl) x).trans (hk.edges x),
          fun x => ⟨(hkeep OffNode.dfsId (fun _ => rfl) x).trans (hk.node x).1,
            (hkeep OffNode.sccRoot (fun _ => rfl) x).trans (hk.node x).2⟩,
          hk.main2off, hk.firstREF, hk.stk, fun i hi hoff => ?_⟩
        by_cases hik : i = k
        · subst hik
          rw [modify_node _ _ (o.main2off i), if_neg (h.ref_ne i _), modify_node, if_pos rfl,
            modify_node, if_pos rfl]
          exact ⟨rfl, rfl⟩
        · have hne : o.main2off i ≠ o.main2off k := fun he => hik (h.inj i k hoff he)
          have hrne : o.ref (o.main2off i) ≠ o.ref (o.main2off k) := fun he =>
            hne (ref_inj hoff h0 he)
          rw [modify_node _ _ (o.main2off i), if_neg (h.ref_ne i _), modify_node, if_neg hne,
            modify_node, if_neg hrne, modify_node, if_neg (h.ref_ne k _).symm]
          exact hk.main i (Nat.lt_of_le_of_ne (Nat.le_of_lt_succ hi) hik) hoff

/-! ## A component -/

section

variable (h : o.Graphs a true) (hm : o.Mapped a.size g) (hs : a.StoresReach func)
  (hnode : ∀ C ∈ a.constraints, C.dest < a.size ∧ C.src < a.size)

include h hm

theorem Mapped.uses (hxy : g.Uses x y) : ∃ C ∈ a.constraints, o.ConsEdge C x y := by
  unfold Uses at hxy
  rw [hm.edges] at hxy
  exact h.edge.mp hxy

include hs in
/-- The sets grow against the edges of the graph that is searched, so around a cycle they are
equal. -/
theorem Mapped.equal (hxy : Mutual g.Uses x y) : flowVal a func o x = flowVal a func o y := by
  have hgrow : ∀ {x y}, ReflTransGen g.Uses x y → flowVal a func o y ⊆ flowVal a func o x := by
    intro x y hxy
    induction hxy with
    | refl => exact subset_rfl
    | tail _ hs' ih =>
        unfold Uses at hs'
        rw [hm.edges] at hs'
        exact (flowVal_edge h hs hs').trans ih
  exact Set.Subset.antisymm (hgrow hxy.2) (hgrow hxy.1)

include hnode

/-- A variable with an edge stands for a node of the system. -/
theorem Mapped.var (hxy : g.Uses x y) (hx : x < g.firstREF) : (g.nodes x).mainNode < a.size ∧
    ∀ v, a.Flow func (g.nodes x).mainNode v ↔ v ∈ flowVal a func o x := by
  obtain ⟨C, hC, he⟩ := hm.uses h hxy
  have hrd := (h.edge_rep hC he).1
  obtain ⟨hd, -, hcase⟩ := he
  have hlt := (hnode C hC).1
  have hvar : x = o.main2off C.dest := by
    cases ht : C.type with
    | copy =>
        rw [ht] at hcase
        exact hcase.1
    | load =>
        rw [ht] at hcase
        exact hcase.2.1
    | store =>
        rw [ht] at hcase
        have hge := o.ref_ge (o.main2off C.dest)
        rw [← hcase.2.1, ← hm.firstREF] at hge
        exact absurd hx (Nat.not_lt.mpr hge)
    | addrOf =>
        rw [ht] at hcase
        exact hcase.elim
    | gep =>
        rw [ht] at hcase
        exact hcase.elim
  rw [hvar, (hm.main C.dest hlt hd).1]
  exact ⟨hlt, fun v => (mem_flowVal h hrd hd).symm⟩

include hs in
/-- A dereference in a component: what its node points to has the set of the variables. -/
theorem Mapped.target (hxy : g.Uses x y) (hmut : Mutual g.Uses x y) (hx : g.firstREF ≤ x)
    (hv : ∀ w, a.Flow func v w ↔ w ∈ flowVal a func o x) :
    TargetOf (a.Flow func) (g.nodes x).mainNode v := by
  obtain ⟨C, hC, he⟩ := hm.uses h hxy
  obtain ⟨hrd, hrs⟩ := h.edge_rep hC he
  obtain ⟨hd, hsrc, hcase⟩ := he
  have hlt := (hnode C hC).1
  have hvar : x ≠ o.main2off C.dest := fun he' => by
    have := h.lt C.dest
    rw [hm.firstREF] at hx
    omega
  cases ht : C.type with
  | copy =>
      rw [ht] at hcase
      exact absurd hcase.1 hvar
  | load =>
      rw [ht] at hcase
      exact absurd hcase.2.1 hvar
  | store =>
      rw [ht] at hcase
      obtain ⟨h0, rfl, rfl⟩ := hcase
      rw [(hm.main C.dest hlt hd).2]
      have hset := hm.equal h hs hmut
      obtain ⟨p, hp, hne⟩ := hs C hC ht h0
      refine ⟨⟨p, hp, hne⟩, fun q hq hqne w => ?_⟩
      rw [hv]
      constructor
      · exact fun hw => (mem_flowVal_ref h hrd hd).mpr ⟨q, hq, hqne, hw⟩
      · intro hw
        rw [hset, mem_flowVal h hrs hsrc] at hw
        have hst := System.Flow.store (S := a.system func) (r := a.rep) hC ht hq ⟨hqne, .inl h0⟩ hw
        rwa [h0] at hst
  | addrOf =>
      rw [ht] at hcase
      exact hcase.elim
  | gep =>
      rw [ht] at hcase
      exact hcase.elim

end

end OffGraph

/-! ## Processing it -/

section

variable {a b : Anders} {F : Nat → Nat → Prop} {func : Nat → Prop} {o g : OffGraph}

/-- The search stays below `F`, and inside the system. -/
structure HcdPrecise (F : Nat → Nat → Prop) (sz : Nat) (b : Anders) : Prop where
  precise : b.toGraph.Precise F
  within : b.toGraph.Within sz

/-- The variables of a component have one set, so merging them is right. -/
theorem mergeVars_precise {sz v : Nat} (hb : HcdPrecise F sz b) (hv : (o.nodes v).mainNode < sz) :
    ∀ (vs : List Nat), (∀ v' ∈ vs, ∀ w, F (o.nodes v').mainNode w ↔ F (o.nodes v).mainNode w) →
    Spec (mergeVars o b v vs) (fun t => HcdPrecise F sz t.1 ∧ t.2 < sz ∧
      ∀ w, F t.2 w ↔ F (o.nodes v).mainNode w) fun _ => True := by
  intro vs hvs
  unfold mergeVars
  refine spec_foldlM_keeps (P := fun t : Anders × Nat => HcdPrecise F sz t.1 ∧ t.2 < sz ∧
    ∀ w, F t.2 w ↔ F (o.nodes v).mainNode w) ⟨hb, hv, fun _ => Iff.rfl⟩ fun v' hv' t ht => ?_
  obtain ⟨hbt, hr, heq⟩ := ht
  refine (merge_run permits_true (.inl trivial) _ _).bind fun u hu => ?_
  have hp := hu.precise (fun w => (heq w).trans (hvs v' hv' w).symm) hbt.precise
  have hw := hu.within hbt.within
  refine ⟨⟨hp, hw⟩, ?_, fun w => ?_⟩
  · rw [← hu.spec.2.1]
    exact hw.rep _ hr
  · rw [← hu.spec.2.1, hp.equal.rep]
    exact heq w

/-- What the search does with a component agrees with the least solution. -/
theorem keepsScc_precise (h : o.Graphs a true) (hm : o.Mapped a.size g) (hs : a.StoresReach func)
    (hnode : ∀ C ∈ a.constraints, C.dest < a.size ∧ C.src < a.size) :
    KeepsScc g (HcdPrecise (a.Flow func) a.size) := by
  intro t n scc hb hshape hne hself hmut
  -- every member has an edge to another one, and all have one set
  have hin : ∀ x ∈ n :: scc, ∃ y, g.Uses x y ∧ Mutual g.Uses x y := by
    intro x hx
    obtain ⟨z, hz⟩ := List.exists_mem_of_ne_nil scc hne
    have hxn := (hmut x).mp hx
    by_cases hxe : x = n
    · refine (hxn.symm.trans ((hmut z).mp (List.mem_cons_of_mem _ hz))).inside ?_
      exact fun he => hself (hxe.symm.trans he ▸ hz)
    · exact hxn.symm.inside hxe
  have hset : ∀ x ∈ n :: scc, OffGraph.flowVal a func o x = OffGraph.flowVal a func o n := fun x hx =>
    (hm.equal h hs ((hmut x).mp hx)).symm
  have hvar : ∀ x ∈ n :: scc, x < g.firstREF → (g.nodes x).mainNode < a.size ∧
      ∀ v, a.Flow func (g.nodes x).mainNode v ↔ v ∈ OffGraph.flowVal a func o n := by
    intro x hx hlt
    obtain ⟨y, hxy, -⟩ := hin x hx
    rw [← hset x hx]
    exact hm.var h hnode hxy hlt
  unfold hcdScc
  dsimp only
  split
  · trivial
  · rename_i v vs hfilter
    have hmem : ∀ x ∈ v :: vs, (t.2.nodes x).mainNode < a.size ∧
        ∀ w, a.Flow func (t.2.nodes x).mainNode w ↔ w ∈ OffGraph.flowVal a func o n := by
      intro x hx
      rw [← hfilter, List.mem_filter] at hx
      rw [hshape.main]
      exact hvar x hx.1 (hshape.firstREF ▸ of_decide_eq_true hx.2)
    have hfirst := hmem v List.mem_cons_self
    refine (mergeVars_precise hb hfirst.1 vs fun x hx w => ?_).bind fun u hu => ?_
    · exact ((hmem x (List.mem_cons_of_mem _ hx)).2 w).trans (hfirst.2 w).symm
    obtain ⟨hbu, hr, heq⟩ := hu
    have hloop : Spec ((n :: scc).foldlM (recordScc u.2) (u.1, t.2)) (fun c =>
        HcdPrecise (a.Flow func) a.size c.1 ∧ g.Shape c.2) fun _ => True := by
      refine spec_foldlM_keeps ⟨hbu, hshape⟩ fun x hx c hc => ?_
      obtain ⟨hbc, hsc⟩ := hc
      unfold recordScc
      refine spec_require (fun _ => trivial) fun _ => ?_
      have hsx : g.Shape (c.2.modify x fun N => { N with sccRoot := true }) :=
        hsc.modify (fun _ => rfl) fun _ => rfl
      dsimp only
      split
      · rename_i href
        refine ⟨⟨hbc.precise.setHcdVar _ fun _ => ?_, hbc.within.setHcdVar fun w hw => ?_⟩, hsx⟩
        · obtain ⟨y, hxy, hmxy⟩ := hin x hx
          rw [hsx.main]
          refine hm.target h hs hnode hxy hmxy (hsx.firstREF ▸ href) fun w => ?_
          rw [hset x hx]
          exact (heq w).trans (hfirst.2 w)
        · exact Option.some.inj hw ▸ hr
      · exact ⟨hbc, hsx⟩
    exact hloop.imp fun c hc => hc.1

end

end PtrAnalysis
