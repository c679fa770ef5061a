import PtrAnalysis.Exact
import PtrAnalysis.HcdPass
import PtrAnalysis.HvnPass

/-!
# Systems without calls through function pointers

What the optimizer merges in them are variables only: objects represent themselves, and so do the
null node and the nodes that there are not. A pass leaves a system of the same kind, so the
passes may follow each other.
-/

namespace PtrAnalysis

open Run PtrAnalysis.Graph

/-- A node of the system that stands for a variable. -/
def Anders.VarNode (a : Anders) (n : Nat) : Prop := a.IsVariable n ∧ n < a.size

/-- A system without calls through function pointers: the constraints are between its nodes, and
what is pointed to are objects, which consist of object nodes. -/
structure Anders.Plain (M : Module) (a : Anders) : Prop extends a.NoCalls M where
  nonnull : ∀ C ∈ a.constraints, C.src ≠ 0 ∧ C.dest ≠ 0
  named : ∀ C ∈ a.constraints, C.type = .addrOf → (a.nodes C.src).objSz ≠ 0
  inner : ∀ o k, k < (a.nodes o).objSz → (a.nodes (o + k)).objSz ≠ 0
  pointer : pI2p < a.size ∧ (a.nodes pI2p).objSz = 0
  merged : ∀ {n}, ¬ a.VarNode n → ∀ {x}, a.rep x = n ↔ x = n
  last : a.lastObjNode < a.size
  ext : a.extFuncNodes ⊆ a.extFuncNodeSet
  call : ∀ i vn, (M.callSite i).valNode = some vn → vn < a.size
  single : (a.nodes i2p).objSz ≤ 1

namespace Anders.Plain

variable {M : Module} {a : Anders} {func : Nat → Prop}

theorem not_var (ha : a.Plain M) {n : Nat} (hn : (a.nodes n).objSz ≠ 0) : ¬ a.VarNode n := by
  have hle := (ha.blocks n hn).2
  rintro ⟨rfl | hlt, -⟩
  · exact hn ha.pointer.2
  · omega

/-- Objects represent themselves. -/
theorem rep_object (ha : a.Plain M) {n : Nat} (hn : (a.nodes n).objSz ≠ 0) : a.rep n = n :=
  (ha.merged (ha.not_var hn)).mpr rfl

theorem objectReps (ha : a.Plain M) : a.ObjectReps := fun x hx => by rwa [ha.rep_object hx]

theorem objects (ha : a.Plain M) : a.Objects where
  size := (Nat.zero_le _).trans_lt ha.last
  block := ha.inner
  addr C hC ht := ⟨ha.named C hC ht, (ha.nonnull C hC).1, (ha.node C hC).2⟩
  pointer := ha.pointer.2

theorem callsListed (ha : a.Plain M) : a.CallsListed := fun C hC => by
  rw [ha.untagged] at hC
  exact absurd hC (IcallCons.not_tagged_nil C)

theorem not_tagged (ha : a.Plain M) (func : Nat → Prop) (C : Constraint) :
    ¬ (a.system func).tag C := by
  have htag : (a.system func).tag C ↔ a.icallCons.Tagged C := Iff.rfl
  rw [htag, ha.untagged]
  exact IcallCons.not_tagged_nil C

theorem hcdReady (ha : a.Plain M) (ht : ∀ n, a.hcdVar n = none) : a.HcdReady :=
  ⟨ha.pointer.2, ha.node, ha.rep, ha.fresh, ha.callsListed, ht⟩

theorem solvable (ha : a.Plain M) (hh : ∀ n h, a.hcdVar n = some h → h < a.size) :
    a.Solvable M where
  toNoTags := ha.toNoCalls.noTags
  nonnull := ha.nonnull
  addr C hC ht := ha.rep_object (ha.named C hC ht)
  last := ha.last
  hcd := hh
  ext := ha.ext
  call := ha.call
  single := ha.single

end Anders.Plain

variable {M : Module} {a b c : Anders} {func : Nat → Prop} {T : Nat → Prop}
  {cs : List Constraint} {o : OffGraph}

/-- What merging variables and rewriting constraints makes of a system. -/
theorem HcdKeeps.plain (h : HcdKeeps a.VarNode a c) (ha : a.Plain M)
    (hcs : ∀ C ∈ cs, C ∈ a.constraints) : (c.rewrite cs c.icallCons).Plain M := by
  have hobj : ∀ n, (c.nodes n).objSz = (a.nodes n).objSz := h.coarser.objSz
  have hsize : c.size = a.size := h.coarser.size
  have hlast : c.lastObjNode = a.lastObjNode := by rw [h.frame]
  have hext : c.extFuncNodes = a.extFuncNodes := by rw [h.frame]
  have hset : c.extFuncNodeSet = a.extFuncNodeSet := by rw [h.frame]
  have hnull : ∀ {x}, x ≠ 0 → c.rep x ≠ 0 := fun hx h0 =>
    hx ((ha.alone (.inl rfl)).mp ((h.coarser.apart (.inl rfl)).mp h0))
  have hmem : ∀ {C}, C ∈ (c.rewrite cs c.icallCons).constraints →
      ∃ C0 ∈ a.constraints, C = repCons c C0 := fun hC => by
    obtain ⟨-, C0, hC0, heq⟩ := (mem_rewrites.mp hC).resolve_left List.not_mem_nil
    exact ⟨C0, hcs C0 hC0, heq⟩
  refine ⟨h.noCalls ha.toNoCalls hcs, fun C hC => ?_, fun C hC ht => ?_, fun o k hk => ?_, ⟨?_, ?_⟩,
    fun {n} hn => ?_, ?_, ?_, fun i vn hi => ?_, ?_⟩
  · obtain ⟨C0, hC0, rfl⟩ := hmem hC
    obtain ⟨hsrc, hdest⟩ := ha.nonnull C0 hC0
    refine ⟨?_, hnull hdest⟩
    unfold repCons
    dsimp only
    split
    · exact hsrc
    · exact hnull hsrc
  · obtain ⟨C0, hC0, rfl⟩ := hmem hC
    have ht0 : C0.type = .addrOf := ht
    change (c.nodes (repCons c C0).src).objSz ≠ 0
    rw [(repCons_alike c C0).addr ht0, hobj]
    exact ha.named C0 hC0 ht0
  · change k < (c.nodes o).objSz at hk
    change (c.nodes (o + k)).objSz ≠ 0
    rw [hobj] at hk ⊢
    exact ha.inner o k hk
  · exact hsize ▸ ha.pointer.1
  · exact (hobj _).trans ha.pointer.2
  · refine h.merged.alone fun hv => hn ?_
    unfold Anders.VarNode Anders.IsVariable at hv ⊢
    change (n = pI2p ∨ c.lastObjNode < n) ∧ n < c.size
    rwa [hlast, hsize]
  · change c.lastObjNode < c.size
    rw [hlast, hsize]
    exact ha.last
  · change c.extFuncNodes ⊆ c.extFuncNodeSet
    rw [hext, hset]
    exact ha.ext
  · exact hsize ▸ ha.call i vn hi
  · exact (hobj _).trans_le ha.single

/-- Only variables have an offline node. -/
theorem Anders.Plain.offNodes (ha : a.Plain M) :
    Spec (makeOffNodes a) (OffFits a.VarNode) fun _ => True :=
  makeOffNodes_fits ha.functions.2 ⟨.inl rfl, ha.pointer.1⟩ fun _ hlast hlt => ⟨.inr hlast, hlt⟩

/-! ## A pass of value numbering -/

/-- Marking a node as a non-pointer. -/
theorem Coarser.mark (g : Graph) (i : Nat) :
    Coarser g (g.modify i fun N => { N with nonptr := true }) := by
  have hkeep : ∀ {β : Type} (p : Node → β), (∀ N, p { N with nonptr := true } = p N) → ∀ n,
      p ((g.modify i fun N => { N with nonptr := true }).nodes n) = p (g.nodes n) := by
    intro β p hp n
    simp only [Graph.modify, Function.update_apply]
    split
    · rename_i hn
      rw [hp, hn]
    · rfl
  refine ⟨rfl, id, id, fun _ => Iff.rfl, id, hkeep Node.val fun _ => rfl,
    hkeep Node.objSz fun _ => rfl, fun x => ?_, fun x => ?_, fun {x y} hxy => ?_, fun t x => ?_, id,
    List.Subset.refl _⟩
  · exact (hkeep Node.pointsTo (fun _ => rfl) _).superset
  · exact (hkeep Node.prevPointsTo (fun _ => rfl) _).subset
  · rcases hxy with hrep | ⟨e, he, hey⟩
    · exact .inl hrep
    · exact .inr ⟨e, (hkeep Node.copyTo (fun _ => rfl) _).superset he, hey⟩
  · exact (hkeep (fun N => N.list t) (fun N => by cases t <;> rfl) _).superset

/-- The state and the table between two nodes: what was merged are nodes with `T`. -/
structure PeKeeps (T : Nat → Prop) (a : Anders) (t : Anders × PeNodes) : Prop where
  keeps : HcdKeeps T a t.1
  targets : ∀ n, t.1.hcdVar n = none
  table : ∀ pe r, t.2.lookup pe = some r → T r

theorem mergeOne_keeps (hT : ∀ i, o.main2off i ≠ 0 → T i) {t : Anders × PeNodes}
    (ht : PeKeeps T a t) (i : Nat) : Spec (mergeOne o t i) (PeKeeps T a) fun _ => True := by
  obtain ⟨b, P⟩ := t
  obtain ⟨hb, h0, hP⟩ := ht
  have htable : ∀ {pe r}, T r → ∀ pe' r', ((pe, r) :: P).lookup pe' = some r' → T r' := by
    intro pe r hr pe' r' hl
    rw [List.lookup_cons] at hl
    split at hl
    · exact Option.some.inj hl ▸ hr
    · exact hP pe' r' hl
  unfold mergeOne
  dsimp only
  split
  · exact ⟨hb, h0, hP⟩
  · rename_i hi
    refine spec_require (fun _ => trivial) fun _ => ?_
    split
    · refine spec_require (fun _ => trivial) fun _ => ?_
      have hmark := Coarser.mark b.toGraph i
      refine ⟨⟨?_, hb.coarser.trans hmark, hb.merged.alone, hb.merged.target, fun n => ?_⟩, h0, hP⟩
      · have hf := congrArg (fun x : Anders => { x with
          toGraph := b.toGraph.modify i fun N => { N with nonptr := true } }) hb.frame
        exact hf
      · have hn := hb.merged.fresh n
        simp only [Graph.modify, Function.update_apply]
        split
        · rename_i hni
          exact hni ▸ hn
        · exact hn
    · refine spec_require (fun _ => trivial) fun _ => ?_
      split
      · exact spec_require (fun _ => trivial) fun _ => ⟨hb, h0, htable (hT i hi)⟩
      · rename_i en hen
        have hte := hP _ _ hen
        refine (merge_run permits_true (.inl trivial) en i).bind fun u hu => ?_
        have hm := hu.mergedIn hte (hT i hi) hb.merged
        refine ⟨⟨?_, hb.coarser.trans hu.spec.1, hm⟩, fun n => ?_, htable ?_⟩
        · have hf := congrArg (fun x : Anders => { x with toGraph := u.1 }) hb.frame
          exact hf
        · obtain ⟨c, -, -, hg⟩ := hu.absorb fun n => by rw [Graph.hv, h0]; rfl
          change u.1.hcdVar n = none
          rw [hg]
          exact h0 n
        · rw [← hu.spec.2.1]
          exact hm.rep hte

/-- What a pass of value numbering merges are variables, and the constraints are some of the old
ones, rewritten. -/
theorem hvn_keeps (doUnion : Bool) (ha : a.Plain M) (h0 : ∀ n, a.hcdVar n = none)
    (hrun : hvn doUnion a = .ok b) : ∃ c cs, HcdKeeps a.VarNode a c ∧ (∀ n, c.hcdVar n = none) ∧
      (∀ C ∈ cs, C ∈ a.constraints) ∧ b = c.rewrite cs c.icallCons := by
  obtain ⟨o, hn, hrun⟩ := bind_ok.mp hrun
  obtain ⟨g, he, hrun⟩ := bind_ok.mp hrun
  obtain ⟨o', hs, hrun⟩ := bind_ok.mp hrun
  have hgraphs := OffGraph.graphs ha.pointer.2 hn he
  have hmade := (makeOffNodes_made ha.pointer.2).result hn
  have hmain : o'.main2off = o.main2off := by
    have hsearched := ((hvnSearch_means (OffGraph.built hn he).toUnsearched
      (OffGraph.mayPoint_means hgraphs ha.objects) doUnion).result hs).1
    have hdrawn := (addOffEdges_drawn a false { o with nextPtrEq := a.size, gep2pe := [] } hmade.2
      fun _ => ⟨fun R l h => absurd h List.not_mem_nil, fun R R' l h => absurd h List.not_mem_nil,
        le_rfl⟩).result he
    exact hsearched.trans hdrawn.main2off
  have hvar : ∀ i, o'.main2off i ≠ 0 → a.VarNode i := by
    rw [hmain]
    exact (ha.offNodes.result hn).main2off
  obtain ⟨t, hloop, hrun⟩ := bind_ok.mp hrun
  cases hrun
  have hstart : PeKeeps a.VarNode a (a, []) := by
    refine ⟨⟨rfl, .refl _, ha.merged, fun n => .inl ?_, ha.fresh⟩, h0, fun pe r hr => by cases hr⟩
    rw [Graph.hv, h0]
    rfl
  have ht : PeKeeps a.VarNode a t :=
    (spec_foldlM_keeps hstart fun i _ t ht => mergeOne_keeps hvar ht i).result hloop
  have hcons : t.1.constraints = a.constraints := by rw [ht.keeps.frame]
  have hicall : t.1.icallCons = [] := by
    rw [ht.keeps.frame]
    exact ha.untagged
  refine ⟨t.1, t.1.constraints.filter fun C => ¬ touchesNonptr t.1 C, ht.keeps, ht.targets,
    fun C hC => hcons ▸ List.mem_of_mem_filter hC, ?_⟩
  unfold Anders.rewrite
  rw [hicall]
  rfl

/-- Passes of value numbering follow each other, whatever they merge. -/
theorem hvnPasses (ha : a.Plain M) (h0 : ∀ n, a.hcdVar n = none) (hready : a.HvnReady func)
    (h : Relation.ReflTransGen (fun x y => ∃ doUnion, hvn doUnion x = .ok y) a b) :
    b.Plain M ∧ (∀ n, b.hcdVar n = none) ∧ b.size = a.size ∧
      Relation.ReflTransGen (HvnStep func) a b := by
  induction h with
  | refl => exact ⟨ha, h0, rfl, .refl⟩
  | @tail b c _ hbc ih =>
      obtain ⟨hb, hnone, hsize, hsteps⟩ := ih
      obtain ⟨doUnion, hrun⟩ := hbc
      have hpass : HvnPass b func c :=
        hvn_pass doUnion ((hvnSteps hready hsteps).ready hb.objectReps) hrun
      obtain ⟨d, cs, hkeeps, htargets, hcs, rfl⟩ := hvn_keeps doUnion hb hnone hrun
      exact ⟨hkeeps.plain hb hcs, htargets, hkeeps.coarser.size.trans hsize,
        hsteps.tail ⟨hb.objectReps, ⟨doUnion, hrun⟩, hpass.rewritten.apart (hb.not_tagged func)⟩⟩

/-! ## The pass of hybrid cycle detection -/

theorem HcdRun.keeps (h : HcdRun a c) (ha : a.Plain M) (h0 : ∀ n, a.hcdVar n = none) :
    HcdKeeps a.VarNode a c := by
  obtain ⟨o0, o, g, o', hn, -, hmaps, he, hsearch⟩ := h
  have ho : OffFits a.VarNode o := by
    have hfits := ha.offNodes.result hn
    exact ⟨hmaps.1 ▸ hfits.main2off, hmaps.2.1 ▸ hfits.mainNode⟩
  have hg : OffFits a.VarNode g := by
    unfold addOffEdges at he
    exact (spec_foldlM_keeps (E := fun _ => True) ho fun C _ o ho => addOffEdge_fits ho C).result he
  have hstart : HcdKeeps a.VarNode a a := by
    refine ⟨rfl, .refl _, ha.merged, fun n => .inl ?_, ha.fresh⟩
    rw [Graph.hv, h0]
    rfl
  exact ((hcdSearch_fits ⟨hstart, setMainNodes_fits _ hg⟩).result hsearch).1

theorem HcdRun.plain (h : HcdRun a c) (ha : a.Plain M) (h0 : ∀ n, a.hcdVar n = none) :
    (c.rewrite c.constraints c.icallCons).Plain M := by
  have hkeeps := h.keeps ha h0
  have hcons : c.constraints = a.constraints := by rw [hkeeps.frame]
  exact hkeeps.plain ha fun C hC => hcons ▸ hC

end PtrAnalysis
