import PtrAnalysis.Hcd
import PtrAnalysis.Saturated

/-!
# The solution satisfies the constraints

Hybrid cycle detection merges variables before the solver starts, and enters the targets
of offline cycles. Objects stay on their own, so the solver starts from a state as in
`Saturated`, and at the end of a run nothing is pending. What remains is a condition on
the run: no cascade of merges starts from a set that points to nothing.
-/

namespace PtrAnalysis

open Run PtrAnalysis.Graph

/-! ## What the offline search merges -/

namespace Graph

/-- Only nodes with `T` were merged or are targets, and no set was solved yet. -/
structure MergedIn (T : Nat → Prop) (g : Graph) : Prop where
  alone : ∀ {x}, ¬ T x → ∀ {y}, g.rep y = x ↔ y = x
  target : ∀ n, g.hv n = 0 ∨ T (g.hv n)
  fresh : ∀ n, (g.nodes n).pointsTo = ∅ ∧ (g.nodes n).prevPointsTo = ∅ ∧ (g.nodes n).copyTo = ∅ ∧
    (g.nodes n).loadTo = ∅ ∧ (g.nodes n).storeFrom = ∅ ∧ (g.nodes n).gepTo = ∅

namespace MergedIn

variable {T : Nat → Prop} {g : Graph} {a b : Nat}

/-- The sets of nodes with `T` are closed. -/
theorem rep (h : MergedIn T g) {x : Nat} (hx : T x) : T (g.rep x) := by
  by_contra hn
  exact hn ((h.alone hn).mp rfl ▸ hx)

theorem absorb (h : MergedIn T g) (hm : Mergeable g a b) (ha : T a) (hb : T b) :
    MergedIn T (g.absorb a b) where
  alone {x} hx y := by
    rw [absorb_rep hm]
    split
    · rename_i hy
      refine ⟨fun he => absurd (he ▸ ha) hx, fun he => absurd ?_ hx⟩
      have hself := (h.alone hx).mpr he
      rw [hy] at hself
      exact hself ▸ hb
    · exact h.alone hx
  target := h.target
  fresh n := by
    have h1 := h.fresh a
    have h2 := h.fresh b
    simp only [Graph.absorb, takeOver, cleared]
    split
    · simp [h1, h2]
    · split
      · simp
      · exact h.fresh n

theorem setHcdVar (h : MergedIn T g) (n : Nat) {v : Option Nat} (hv : v.getD 0 = 0 ∨ T (v.getD 0)) :
    MergedIn T (g.setHcdVar n v) where
  alone := h.alone
  target m := by
    rw [setHcdVar_hv]
    split
    · exact hv
    · exact h.target m
  fresh := h.fresh

theorem drop (h : MergedIn T g) (n : Nat) : MergedIn T (g.setHcdVar n none) :=
  h.setHcdVar n (.inl rfl)

end MergedIn

end Graph

theorem MergeRun.mergedIn {T : Nat → Prop} {g g' : Graph} {n1 n2 r : Nat}
    (hrun : MergeRun g n1 n2 g' r) (h1 : T n1) (h2 : T n2) (h : MergedIn T g) : MergedIn T g' := by
  have hboth : ∀ {g n1 n2 a b}, byRank g n1 n2 = (a, b) → T n1 → T n2 → T a ∧ T b := by
    intro g n1 n2 a b hr h1 h2
    rcases byRank_cases g n1 n2 with h | h <;> rw [h] at hr <;> cases hr
    · exact ⟨h1, h2⟩
    · exact ⟨h2, h1⟩
  induction hrun with
  | plain hm hr _ =>
      obtain ⟨ha, hb⟩ := hboth hr h1 h2
      exact h.absorb (hm.byRank hr) ha hb
  | @adopt g n1 n2 a b hm hr _ _ =>
      obtain ⟨ha, hb⟩ := hboth hr h1 h2
      exact ((h.absorb (hm.byRank hr) ha hb).setHcdVar a (v := some (g.hv b)) (h.target b)).drop b
  | same hm hr _ _ _ =>
      obtain ⟨ha, hb⟩ := hboth hr h1 h2
      exact (h.absorb (hm.byRank hr) ha hb).drop _
  | cascade hm hr hvb hva _ _ _ ih =>
      obtain ⟨ha, hb⟩ := hboth hr h1 h2
      have habs := h.absorb (hm.byRank hr) ha hb
      refine (ih (habs.rep ?_) (habs.rep ?_) ⟨habs.alone, habs.target, habs.fresh⟩).drop _
      · exact (h.target _).resolve_left hva
      · exact (h.target _).resolve_left hvb

/-- State `a` is `a0` after merges of nodes with `T`. -/
structure HcdKeeps (T : Nat → Prop) (a0 a : Anders) : Prop where
  frame : a = { a0 with toGraph := a.toGraph }
  coarser : Coarser a0.toGraph a.toGraph
  merged : MergedIn T a.toGraph

/-- Every offline node stands for a node with `T`, if for any. -/
structure OffFits (T : Nat → Prop) (o : OffGraph) : Prop where
  main2off : ∀ i, o.main2off i ≠ 0 → T i
  mainNode : ∀ n, (o.nodes n).mainNode = 0 ∨ T (o.nodes n).mainNode

theorem OffFits.modify {T : Nat → Prop} {o : OffGraph} (h : OffFits T o) (n : Nat)
    {f : OffNode → OffNode} (hf : ∀ N, (f N).mainNode = N.mainNode ∨ T (f N).mainNode) :
    OffFits T (o.modify n f) where
  main2off := h.main2off
  mainNode m := by
    simp only [OffGraph.modify, Function.update_apply]
    split
    · rcases hf (o.nodes n) with he | ht
      · rw [he]
        exact h.mainNode n
      · exact .inr ht
    · exact h.mainNode m

section

variable {T : Nat → Prop} {a0 : Anders} {t : HcdState}

/-- The state of the offline search. -/
def HcdFits (T : Nat → Prop) (a0 : Anders) (t : HcdState) : Prop := HcdKeeps T a0 t.1 ∧ OffFits T t.2

theorem mergeVars_keeps {a : Anders} {o : OffGraph} (ha : HcdKeeps T a0 a) (ho : OffFits T o)
    (v : Nat) (vs : List Nat) :
    Spec (mergeVars o a v vs) (fun t => HcdKeeps T a0 t.1 ∧ (t.2 = 0 ∨ T t.2)) fun _ => True := by
  refine spec_foldlM_keeps ⟨ha, ho.mainNode v⟩ fun v' _ t ⟨ht, hr⟩ => ?_
  refine (merge_run permits_true (.inl trivial) _ _).bind fun u hu => ?_
  have h1 := hr.resolve_left hu.mergeable.valid1.1
  have h2 := (ho.mainNode v').resolve_left hu.mergeable.valid2.1
  have hm := hu.mergedIn h1 h2 ht.merged
  refine ⟨⟨?_, ht.coarser.trans hu.spec.1, hm⟩, .inr ?_⟩
  · have hf := congrArg (fun x : Anders => { x with toGraph := u.1 }) ht.frame
    exact hf
  · rw [← hu.spec.2.1]
    exact hm.rep h1

theorem recordScc_fits {varRep : Nat} (ht : HcdFits T a0 t) (hv : varRep = 0 ∨ T varRep) (n : Nat) :
    Spec (recordScc varRep t n) (HcdFits T a0) fun _ => True := by
  obtain ⟨ha, ho⟩ := ht
  unfold recordScc
  refine spec_require (fun _ => trivial) fun _ => ?_
  have ho' := ho.modify n (f := fun N => { N with sccRoot := true }) fun _ => .inl rfl
  dsimp only
  split
  · refine ⟨⟨?_, ha.coarser.trans (.ofSame rfl rfl rfl rfl (List.Subset.refl _)),
      ha.merged.setHcdVar _ hv⟩, ho'⟩
    have hf := congrArg (fun x : Anders => { x with
      toGraph := t.1.setHcdVar ((t.2.modify n fun N => { N with sccRoot := true }).nodes n).mainNode
        (some varRep) }) ha.frame
    exact hf
  · exact ⟨ha, ho'⟩

theorem hcdScc_fits (ht : HcdFits T a0 t) (scc : List Nat) :
    Spec (hcdScc t scc) (HcdFits T a0) fun _ => True := by
  unfold hcdScc
  dsimp only
  split
  · trivial
  · rename_i v vs _
    refine (mergeVars_keeps ht.1 ht.2 v vs).bind fun u hmerged => ?_
    obtain ⟨hu, hr⟩ := hmerged
    exact spec_foldlM_keeps (P := HcdFits T a0) ⟨hu, ht.2⟩ fun n _ c hc => recordScc_fits hc hr n

theorem hcdCheckEdge_fits {visit : HcdState → Nat → Run HcdState}
    (hvisit : ∀ t n, HcdFits T a0 t → Spec (visit t n) (HcdFits T a0) fun _ => True)
    (n : Nat) (ht : HcdFits T a0 t) (dest : Nat) :
    Spec (hcdCheckEdge visit n t dest) (HcdFits T a0) fun _ => True := by
  unfold hcdCheckEdge
  refine spec_require (fun _ => trivial) fun _ => ?_
  split
  · exact ht
  · have hrest : ∀ u : HcdState, HcdFits T a0 u → HcdFits T a0 (u.1,
        if (u.2.nodes dest).dfsId < (u.2.nodes n).dfsId then
          u.2.modify n fun N => { N with dfsId := (u.2.nodes dest).dfsId } else u.2) := by
      intro u hu
      refine ⟨hu.1, ?_⟩
      dsimp only
      split
      · exact hu.2.modify n fun _ => .inl rfl
      · exact hu.2
    split
    · exact (hvisit t dest ht).bind hrest
    · exact hrest t ht

theorem hcdDfs_fits : ∀ (fuel : Nat) (t : HcdState) (n : Nat), HcdFits T a0 t →
    Spec (hcdDfs fuel t n) (HcdFits T a0) fun _ => True
  | 0, _, _, _ => trivial
  | fuel + 1, (a, o), n, ht => by
      rw [hcdDfs]
      refine spec_require (fun _ => trivial) fun _ => ?_
      refine spec_require (fun _ => trivial) fun _ => ?_
      have ho : OffFits T ({ o with currDfs := o.currDfs + 1 } : OffGraph) :=
        ⟨ht.2.main2off, ht.2.mainNode⟩
      have hfirst : HcdFits T a0 (a, ({ o with currDfs := o.currDfs + 1 } : OffGraph).modify n
          fun N => { N with dfsId := o.currDfs }) := ⟨ht.1, ho.modify n
            (f := fun N => { N with dfsId := o.currDfs }) fun _ => .inl rfl⟩
      refine (spec_foldlM_keeps hfirst
        fun dest _ c hc => hcdCheckEdge_fits (hcdDfs_fits fuel) n hc dest).bind fun u hu => ?_
      refine spec_require (fun _ => trivial) fun _ => ?_
      split
      · refine spec_require (fun _ => trivial) fun _ => ?_
        have hrest : HcdFits T a0
            (u.1, ({ u.2 with dfsStk := (hcdPop u.2 o.currDfs u.2.dfsStk).2 } : OffGraph)) :=
          ⟨hu.1, hu.2.main2off, hu.2.mainNode⟩
        dsimp only
        split
        · exact ⟨hu.1, hrest.2.modify n (f := fun N => { N with sccRoot := true }) fun _ => .inl rfl⟩
        · exact hcdScc_fits hrest _
      · exact ⟨hu.1, ⟨hu.2.main2off, hu.2.mainNode⟩⟩

theorem hcdSearch_fits {a : Anders} {o : OffGraph} (ht : HcdFits T a0 (a, o)) :
    Spec (hcdSearch a o) (HcdFits T a0) fun _ => True := by
  unfold hcdSearch
  have hstart : HcdFits T a0 (a, ({ o with currDfs := 1 } : OffGraph)) :=
    ⟨ht.1, ht.2.main2off, ht.2.mainNode⟩
  refine (spec_foldlM_keeps hstart fun i _ c hc => ?_).bind fun u hu => ?_
  · split
    · exact hcdDfs_fits _ c i hc
    · exact hc
  · exact spec_require (fun _ => trivial) fun _ => hu

end

/-! ## The offline nodes -/

/-- A node that stands for a variable: it is behind the objects, or the pointer that points
to the unknown one. -/
def Anders.IsVariable (a : Anders) (n : Nat) : Prop := n = pI2p ∨ a.lastObjNode < n

section

variable {M : Module} {a : Anders}

/-- Without function objects no object gets an offline node. -/
theorem numberAFP_none (hf : ∀ n, ¬ IsFuncNode M a n) : ∀ (fuel i : Nat) (m : Numbering),
    Spec (numberAFP a fuel i m) (fun m' => m' = m) fun _ => True
  | 0, _, _ => trivial
  | fuel + 1, i, m => by
      rw [numberAFP]
      split
      · rfl
      · refine spec_require (fun _ => trivial) fun _ => ?_
        refine spec_require (fun _ => trivial) fun _ => ?_
        cases hv : (a.nodes i).val.bind Value.func? with
        | none => exact numberAFP_none hf fuel _ m
        | some f =>
            have hsz : (a.nodes i).objSz - funcNodeOffRet = 0 := by
              have hle : ¬ 1 < (a.nodes i).objSz := fun h => hf i ⟨f, hv, .inr h⟩
              unfold funcNodeOffRet
              omega
            dsimp only
            rw [hsz]
            exact numberAFP_none hf fuel _ m

/-- Only variables have an offline node. -/
theorem makeOffNodes_fits {T : Nat → Prop} (hf : ∀ n, ¬ IsFuncNode M a n) (hp : T pI2p)
    (hT : ∀ i, a.lastObjNode < i → i < a.size → T i) :
    Spec (makeOffNodes a) (OffFits T) fun _ => True := by
  unfold makeOffNodes
  refine spec_require (fun _ => trivial) fun _ => ?_
  refine (numberAFP_none hf _ _ _).bind fun m hm => ?_
  subst hm
  have hgive : ∀ {m : Numbering} {i : Nat}, (∀ j, m.main2off j ≠ 0 → T j) → T i →
      ∀ j, (m.give i).main2off j ≠ 0 → T j := by
    intro m i hm hi j hj
    simp only [Numbering.give, Function.update_apply] at hj
    split at hj
    · rename_i hji
      exact hji ▸ hi
    · exact hm j hj
  refine (spec_foldlM_keeps (P := fun m : Numbering => ∀ j, m.main2off j ≠ 0 → T j)
    (hgive (fun j hj => absurd rfl hj) hp) fun i hi m hm => ?_).bind fun m hm => ?_
  · refine spec_require (fun _ => trivial) fun _ => ?_
    have hvar : T i := by
      have hrange := List.mem_range'_1.mp hi
      exact hT i (by omega) (by omega)
    unfold Numbering.giveIf
    split
    · exact hgive hm hvar
    · exact hm
  · exact ⟨hm, fun n => .inl rfl⟩

theorem addOffEdge_fits {T : Nat → Prop} {o : OffGraph} (ho : OffFits T o) (C : Constraint) :
    Spec (addOffEdge a true o C) (OffFits T) fun _ => True := by
  unfold addOffEdge
  refine spec_require (fun _ => trivial) fun _ => ?_
  dsimp only
  split
  · exact spec_require (fun _ => trivial) fun _ => ho
  · refine spec_require (fun _ => trivial) fun _ => ?_
    have hedge : ∀ n dest, OffFits T (o.addEdge n dest) := fun n dest =>
      ho.modify n (f := fun N => { N with edges := insert dest N.edges }) fun _ => .inl rfl
    cases C.type with
    | addrOf => exact ho
    | copy =>
        dsimp only
        split
        · exact ho
        · exact hedge _ _
    | load =>
        dsimp only
        split
        · exact ho
        · exact spec_require (fun _ => trivial) fun _ => hedge _ _
    | store =>
        dsimp only
        split
        · exact ho
        · exact spec_require (fun _ => trivial) fun _ => hedge _ _
    | gep => exact ho

theorem setMainNodes_fits {T : Nat → Prop} (size : Nat) {o : OffGraph} (ho : OffFits T o) :
    OffFits T (setMainNodes size o) := by
  unfold setMainNodes
  suffices h : ∀ (l : List Nat) (o : OffGraph), OffFits T o → OffFits T (l.foldl (fun o i =>
      let n := o.main2off i
      if n = 0 then o
      else (o.modify n fun N => { N with mainNode := i }).modify (o.ref n)
        fun N => { N with mainNode := i }) o) from h _ o ho
  intro l
  induction l with
  | nil => exact fun o ho => ho
  | cons i l ih =>
      intro o ho
      rw [List.foldl_cons]
      refine ih _ ?_
      dsimp only
      split
      · exact ho
      · rename_i hi
        have hT := ho.main2off i hi
        exact (ho.modify _ (f := fun N => { N with mainNode := i }) fun _ => .inr hT).modify _
          (f := fun N => { N with mainNode := i }) fun _ => .inr hT

end

/-! ## The state behind the offline search -/

/-- A system without calls through function pointers, as hybrid cycle detection gets it: what
is pointed to is an object, objects were not merged, and no target was entered. -/
structure Anders.BeforeHcd (M : Module) (a : Anders) : Prop extends a.NoCalls M where
  addr : ∀ C ∈ a.constraints, C.type = .addrOf → C.src ≤ a.lastObjNode
  objects : ∀ {n}, ¬ a.IsVariable n → ∀ {x}, a.rep x = n ↔ x = n
  targets : ∀ n, a.hcdVar n = none

section

variable {M : Module} {a0 a : Anders}

theorem mem_rewritten {C : Constraint} : ∀ {cs acc : List Constraint},
    C ∈ cs.foldl (rewriteCons a) acc → C ∈ acc ∨ ∃ C0 ∈ cs, C = repCons a C0
  | [], _, h => .inl h
  | C0 :: cs, acc, h => by
      rw [List.foldl_cons] at h
      rcases mem_rewritten h with hacc | ⟨C1, hC1, rfl⟩
      · unfold rewriteCons at hacc
        split at hacc
        · rcases List.mem_append.mp hacc with hacc | hC
          · exact .inl hacc
          · exact .inr ⟨C0, List.mem_cons_self, List.mem_singleton.mp hC⟩
        · exact .inl hacc
      · exact .inr ⟨C1, List.mem_cons_of_mem _ hC1, rfl⟩

theorem HcdKeeps.isVariable (h : HcdKeeps a0.IsVariable a0 a) : a.IsVariable = a0.IsVariable := by
  funext n
  unfold Anders.IsVariable
  rw [h.frame]

/-- Rewriting some of the constraints to what was merged leaves a system of the same kind. -/
theorem HcdKeeps.noCalls {T : Nat → Prop} {cs : List Constraint} (h : HcdKeeps T a0 a)
    (ha : a0.NoCalls M) (hcs : ∀ C ∈ cs, C ∈ a0.constraints) :
    Anders.NoCalls M { a with
      constraints := cs.foldl (rewriteCons a) []
      icallCons := a.icallCons.foldl (rewriteIcall a) [] } := by
  have halone : ∀ {m}, m = 0 ∨ m = i2p → ∀ {x}, a.rep x = m ↔ x = m := fun hm =>
    (h.coarser.apart hm).trans (ha.alone hm)
  have hrep : ∀ x < a.size, a.rep x < a.size := by
    intro x hx
    exact h.coarser.inside ha.rep x hx
  have hfunc : ∀ n, IsFuncNode M a n ↔ IsFuncNode M a0 n := by
    intro n
    unfold IsFuncNode
    rw [h.coarser.val, h.coarser.objSz]
  refine ⟨fun C hC => ?_, fun C hC => ?_, hrep, fun n => h.merged.fresh n, ?_,
    ⟨?_, fun n hn => ha.functions.2 n ((hfunc n).mp hn)⟩, fun n hn => ?_, halone⟩
  · obtain ⟨C0, hC0, rfl⟩ := (mem_rewritten hC).resolve_left List.not_mem_nil
    obtain ⟨hdest, hsrc, hgep⟩ := ha.proper C0 (hcs C0 hC0)
    refine ⟨fun he => hdest ((halone (.inr rfl)).mp he), fun ht he => ?_, hgep⟩
    unfold repCons at ht he
    dsimp only at ht he
    rw [if_neg ht] at he
    exact hsrc ht ((halone (.inr rfl)).mp he)
  · obtain ⟨C0, hC0, rfl⟩ := (mem_rewritten hC).resolve_left List.not_mem_nil
    have hsize : a.size = a0.size := h.coarser.size
    obtain ⟨hdest, hsrc⟩ := ha.node C0 (hcs C0 hC0)
    refine ⟨hrep _ (hsize ▸ hdest), ?_⟩
    unfold repCons
    dsimp only
    split
    · exact hsize ▸ hsrc
    · exact hrep _ (hsize ▸ hsrc)
  · have hic : a.icallCons = [] := by
      rw [h.frame]
      exact ha.untagged
    rw [hic]
    rfl
  · have hset : a.funcNodeSet = a0.funcNodeSet := by rw [h.frame]
    exact hset.trans ha.functions.1
  · have hlast : a.lastObjNode = a0.lastObjNode := by rw [h.frame]
    change n ≠ 0 ∧ n + (a.nodes n).objSz ≤ a.lastObjNode + 1
    rw [hlast, h.coarser.objSz]
    exact ha.blocks n (by rw [← h.coarser.objSz]; exact hn)

/-- What hybrid cycle detection hands to the solver. -/
theorem hcd_keeps (ha : a0.BeforeHcd M) : Spec (hcd a0) (fun a => a.NoCalls M ∧
    (∀ C ∈ a.constraints, C.type = .addrOf → C.src ≤ a.lastObjNode) ∧
    ∀ {n}, ¬ a.IsVariable n → ∀ {x}, a.rep x = n ↔ x = n) fun _ => True := by
  unfold hcd
  have hstart : HcdKeeps a0.IsVariable a0 a0 := by
    refine ⟨rfl, .refl _, ha.objects, fun n => .inl ?_, ha.fresh⟩
    unfold Graph.hv
    rw [ha.targets]
    rfl
  refine (makeOffNodes_fits (T := a0.IsVariable) ha.functions.2 (.inl rfl)
    fun _ h _ => .inr h).bind fun o ho => ?_
  refine (spec_foldlM_keeps (P := OffFits a0.IsVariable) ho
    fun C _ o ho => addOffEdge_fits ho C).bind fun o ho => ?_
  refine (hcdSearch_fits ⟨hstart, setMainNodes_fits _ ho⟩).bind fun u hsearched => ?_
  obtain ⟨hu, -⟩ := hsearched
  have hcons : u.1.constraints = a0.constraints := by rw [hu.frame]
  refine ⟨hu.noCalls ha.toNoCalls fun C hC => hcons ▸ hC, fun C hC ht => ?_, fun hn => ?_⟩
  · have hlast : u.1.lastObjNode = a0.lastObjNode := by rw [hu.frame]
    obtain ⟨C0, hC0, rfl⟩ := (mem_rewritten hC).resolve_left List.not_mem_nil
    have ht0 : C0.type = .addrOf := ht
    unfold repCons
    dsimp only
    rw [if_pos ht0, hlast]
    exact ha.addr C0 (hcons ▸ hC0) ht0
  · refine hu.merged.alone ?_
    rw [← hu.isVariable]
    exact hn

end

/-! ## The end of a run -/

section

variable {W : Type} [Worklist W] [LawfulWorklist W] {M : Module} {a : Anders} {s : Solver W}

/-- Only variables and what they point to go into the sets the solver starts with. -/
theorem solveInit_addr : Spec (solveInit (W := W) a) (fun _ => ∀ C ∈ a.constraints,
    C.type = .addrOf → a.rep C.src ≤ a.lastObjNode) fun _ => True := by
  unfold solveInit
  have hone : ∀ (b : Anders) (C : Constraint), b.rep = a.rep ∧ b.lastObjNode = a.lastObjNode →
      Spec (solveInitCons b C) (fun b' => (b'.rep = a.rep ∧ b'.lastObjNode = a.lastObjNode) ∧
        (C.type = .addrOf → a.rep C.src ≤ a.lastObjNode)) fun _ => True := by
    intro b C ⟨hrep, hlast⟩
    have hframe : Spec (solveInitCons b C) (fun b' => b'.rep = a.rep ∧ b'.lastObjNode = a.lastObjNode)
        fun _ => True := (solveInitCons_adds permits_true hrep).imp fun b' hb' => by
      rw [hb'.frame]
      exact ⟨hrep, hlast⟩
    refine hframe.and ?_
    unfold solveInitCons
    cases hC : C.type with
    | addrOf =>
        refine spec_require (fun _ => trivial) fun hlt => ?_
        refine (nodeVar_spec permits_true b _).bind fun v _ _ => ?_
        rw [hrep, hlast] at hlt
        omega
    | copy => exact spec_require (fun _ => trivial) fun _ h => by cases h
    | load => exact fun h => by cases h
    | store => exact fun h => by cases h
    | gep => exact fun h => by cases h
  have hall : Spec (a.constraints.foldlM solveInitCons { a with cplxCons := [] })
      (fun b => (b.rep = a.rep ∧ b.lastObjNode = a.lastObjNode) ∧
        ∀ C ∈ a.constraints, C.type = .addrOf → a.rep C.src ≤ a.lastObjNode) fun _ => True := by
    refine spec_foldlM (fun done (b : Anders) => (b.rep = a.rep ∧ b.lastObjNode = a.lastObjNode) ∧
      ∀ C : Constraint, C ∈ done → C.type = .addrOf → a.rep C.src ≤ a.lastObjNode)
      ⟨⟨rfl, rfl⟩, fun C hC => by cases hC⟩ fun done C rest b _ ⟨hb, hdone⟩ => ?_
    refine (hone b C hb).imp fun b' ⟨hb', hC⟩ => ⟨hb', fun C' hC' => ?_⟩
    rcases List.mem_append.mp hC' with hC' | hC'
    · exact hdone C' hC'
    · rw [List.mem_singleton.mp hC']
      exact hC
  exact hall.bind fun b hb => (solveInitPush_loop permits_true _ _).bind fun _ _ => hb.2

/-- When the main loop is left the worklist is empty. -/
theorem solveLoop_empty : ∀ (k : Nat) {s : Solver W},
    Spec (solveLoop M k s) (fun l => ∀ s', l = .done s' → ∀ n, ¬ Live s' n) fun _ => True
  | 0, s => fun s' he => by cases he
  | k + 1, s => by
      rw [solveLoop]
      have hfit : TablesFit (fun _ => True) s.toAnders :=
        fun _ _ => ⟨fun _ => .inr trivial, fun _ => .inr trivial⟩
      have hiter : Spec (solveIter M s) (fun l => ∀ s', l = .done s' → ∀ n, ¬ Live s' n)
          fun _ => True := by
        refine solveIter_rule permits_true (.inl trivial) hfit ?_ ?_ ?_
        · intro wl hend s' he n hl
          obtain ⟨p, hp, -⟩ := hl
          obtain rfl := Loop.done.inj he
          exact (hend n p).2 hp
        · intro s1 n p _ _ s' he
          cases he
        · intro s1 n p s2 _ _ _ _ _
          refine ⟨?_, ?_⟩
          · intro s' he
            cases he
          · cases hlcd : runLcd s2 with
            | error e => trivial
            | ok s3 =>
                intro s' he
                cases he
      refine hiter.bind fun l hl => ?_
      cases l with
      | done s' => exact hl
      | more s' => exact solveLoop_empty k

/-- An intact state without pending nodes satisfies all constraints. -/
theorem Intact.solves {b : Anders} (h : Intact M b ∅ s) (ha : a.NoTags) (ht : TablesReady M a b)
    (haddr : ∀ C ∈ a.constraints, C.type = .addrOf → a.rep C.src = C.src)
    (hend : ∀ n, ¬ Live s n) :
    (a.system (a.FuncNode M)).Closed s.rep fun n o => o ∈ s.pts (s.rep n) := by
  obtain ⟨hedges, hcons⟩ := h.sound.solved hend
  have hlist : b.constraints = a.constraints := by rw [ht.frame]
  have hoff : ∀ C ∈ a.constraints, C.off ≠ 0 → C.off ∈ validOff a.constraints :=
    fun C hC h0 => mem_validOff.mpr ⟨h0, C, hC, rfl⟩
  have hmet : ∀ {C o}, C ∈ a.constraints → C.complex = true → o ∈ s.pts (s.rep C.ptr) →
      Met M b s C o := fun {C o} hC hc ho => hcons C (hlist ▸ hC) hc o ho
  have hacts : ∀ {C o}, (a.system (a.FuncNode M)).Acts C o →
      C.off = 0 ∨ C.off < (a.nodes o).objSz ∧ ¬ a.FuncNode M o := by
    intro C o hacts
    refine hacts.2.imp_right fun h => ⟨h.1, fun hf => ?_⟩
    have htag : a.icallCons.Tagged C := h.2.mpr hf
    rw [ha.untagged] at htag
    simp [IcallCons.Tagged, IcallCons.find] at htag
  constructor
  · intro C hC ht'
    have hin := h.sound.addr C (hlist ▸ hC) ht'
    have hrep : b.rep = a.rep := by rw [ht.frame]
    rwa [hrep, haddr C hC ht'] at hin
  · intro C o hC ht' ho
    exact hedges _ _ (h.sound.copy C (hlist ▸ hC) ht') ho
  · intro C o x hC ht' ho ha' hx
    have hm := hmet hC (by simp [Constraint.complex, ht'])
      (by unfold Constraint.ptr; rw [ht']; exact ho)
    exact hedges _ _ ((hm.acts ha ht (hoff C hC) ha'.1 (hacts ha')).1 ht') hx
  · intro C o x hC ht' ho ha' hx
    have hm := hmet hC (by simp [Constraint.complex, ht'])
      (by unfold Constraint.ptr; rw [ht']; exact ho)
    exact hedges _ _ ((hm.acts ha ht (hoff C hC) ha'.1 (hacts ha')).2 ht') hx
  · intro C o hC ht' ho hlt
    have hm := hmet hC (by simp [Constraint.complex, ht'])
      (by unfold Constraint.ptr; rw [ht']; exact ho)
    exact hm.sum ha ht ht' (hoff C hC ((ha.proper C hC).2.2 ht')) hlt
  · intro m n o hmn ho
    rwa [← hmn]

theorem Intact.closed {b : Anders} (h : Intact M b ∅ s) (ha : a.NoCalls M) (ht : TablesReady M a b)
    (haddr : ∀ C ∈ a.constraints, C.type = .addrOf → a.rep C.src = C.src)
    (hend : ∀ n, ¬ Live s n) :
    (a.system fun _ => False).Closed s.rep fun n o => o ∈ s.pts (s.rep n) := by
  have hnone : a.FuncNode M = fun _ => False := funext fun o => eq_false (ha.not_func o)
  rw [← hnone]
  exact h.solves ha.noTags ht haddr hend

/-- Behind hybrid cycle detection, a run in which no cascade of merges starts from a set that
points to nothing ends with a solution of the constraints. -/
theorem runSolver_solves (W : Type) [Worklist W] [LawfulWorklist W] (M : Module) (a0 a : Anders)
    (ha : a0.BeforeHcd M) (hhcd : hcd a0 = .ok a) (k : Nat) (s : Solver W)
    (hrun : runSolver W M k a = .ok (.done s)) (hcasc : ∅ ∉ s.cascades) :
    (a.system fun _ => False).Closed s.rep fun n o => o ∈ s.pts (s.rep n) := by
  obtain ⟨hcalls, hobjects, halone⟩ := (hcd_keeps ha).result hhcd
  obtain ⟨b, ht, hintact⟩ := (runSolver_intact hcalls.noTags ∅ k).result hrun fun he => absurd he hcasc
  have hinit : Spec (runSolver W M k a) (fun l => (∀ s', l = .done s' → ∀ n, ¬ Live s' n) ∧
      ∀ C ∈ a.constraints, C.type = .addrOf → a.rep C.src ≤ a.lastObjNode) fun _ => True := by
    unfold runSolver
    refine ((ptsInit_spec M a).stops fun _ _ => trivial).bind fun b hb => ?_
    refine (solveInit_addr (W := W)).bind fun s0 haddr => ?_
    refine (solveLoop_empty k).imp fun l hl => ⟨hl, ?_⟩
    rw [hb.frame] at haddr
    exact haddr
  obtain ⟨hend, hlast⟩ := hinit.result hrun
  refine hintact.closed hcalls ht (fun C hC hty => ?_) (hend s rfl)
  -- an object is its own representative, and so is the other special node
  by_cases hvar : a.IsVariable C.src
  · have hle := hobjects C hC hty
    have hsrc : C.src = pI2p := hvar.resolve_right (by omega)
    by_cases hrep : a.IsVariable (a.rep C.src)
    · have hle' := hlast C hC hty
      rw [hrep.resolve_right (by omega), hsrc]
    · exact ((halone hrep).mp rfl).symm
  · exact (halone hvar).mpr rfl

end

/-- A system over new nodes with objects up to `last`. -/
theorem Anders.initial_beforeHcd {M : Module} {size last : Nat} {nodes : Nat → Node}
    {cs : List Constraint} (h : (Anders.initial size last nodes cs).NoCalls M)
    (haddr : ∀ C ∈ cs, C.type = .addrOf → C.src ≤ last) :
    (Anders.initial size last nodes cs).BeforeHcd M :=
  { h with addr := haddr, objects := fun _ => Iff.rfl, targets := fun _ => rfl }

/-- Node 3 and perhaps 4 are objects of one field. -/
def fieldlessObjects (last n : Nat) : Node :=
  if 3 ≤ n ∧ n ≤ last then { objSz := 1, val := some (.other n false) } else {}

theorem fieldlessObjects_node (last n : Nat) :
    fieldlessObjects last n =
      { val := (fieldlessObjects last n).val, objSz := (fieldlessObjects last n).objSz } ∧
    (fieldlessObjects last n).val.bind Value.func? = none ∧
    ((fieldlessObjects last n).objSz ≠ 0 → n ≠ 0 ∧ n + (fieldlessObjects last n).objSz ≤ last + 1) := by
  unfold fieldlessObjects
  split
  · exact ⟨rfl, rfl, fun _ => ⟨by omega, by dsimp only; omega⟩⟩
  · exact ⟨rfl, rfl, fun h => absurd rfl h⟩

theorem fieldlessObjects_inner {last o k : Nat} (hk : k < (fieldlessObjects last o).objSz) :
    (fieldlessObjects last (o + k)).objSz ≠ 0 := by
  unfold fieldlessObjects at hk
  split at hk
  · obtain rfl : k = 0 := by simpa using hk
    rw [Nat.add_zero, fieldlessObjects, if_pos ‹_›]
    exact Nat.one_ne_zero
  · exact absurd hk (Nat.not_lt_zero k)

/-- Hybrid cycle detection and the solver behind it. -/
def hcdSolver (W : Type) [Worklist W] (M : Module) (k : Nat) (a0 : Anders) : Run (Anders × Loop W) := do
  let a ← hcd a0
  let l ← runSolver W M k a
  return (a, l)

/-- What a successful run ends with. -/
theorem hcdSolver_any {W : Type} [Worklist W] {M : Module} {k : Nat} {a0 : Anders}
    {p : Anders × Loop W → Bool} (h : (hcdSolver W M k a0).toOption.any p = true) :
    ∃ a l, hcd a0 = .ok a ∧ runSolver W M k a = .ok l ∧ p (a, l) = true := by
  cases hrun : hcdSolver W M k a0 with
  | error e =>
      rw [hrun] at h
      cases h
  | ok t =>
      rw [hrun] at h
      unfold hcdSolver at hrun
      obtain ⟨a, ha, hrun⟩ := bind_ok.mp hrun
      obtain ⟨l, hl, hrun⟩ := bind_ok.mp hrun
      obtain rfl := Except.ok.inj hrun
      exact ⟨a, l, ha, hl, h⟩

/-- `p = &x; q = &x; q = *p; *p = q`, an offline cycle of `q` and `*p`. -/
def storedBack : Anders :=
  .initial 6 3 (fieldlessObjects 3)
    [⟨.addrOf, 4, 3, 0⟩, ⟨.addrOf, 5, 3, 0⟩, ⟨.load, 5, 4, 0⟩, ⟨.store, 4, 5, 0⟩]

/-- Nodes from 5 on are variables, 3 and 4 objects; 8, 9, 10 and 6 are stored to what 5, 7, 8
and 9 point to, and read back from it. -/
def emptyCascade : Anders :=
  .initial 12 4 (fieldlessObjects 4)
    [⟨.addrOf, 5, 3, 0⟩, ⟨.addrOf, 7, 3, 0⟩, ⟨.addrOf, 6, 4, 0⟩,
      ⟨.load, 8, 5, 0⟩, ⟨.store, 5, 8, 0⟩, ⟨.load, 9, 7, 0⟩, ⟨.store, 7, 9, 0⟩,
      ⟨.load, 10, 8, 0⟩, ⟨.store, 8, 10, 0⟩, ⟨.load, 6, 9, 0⟩, ⟨.store, 9, 6, 0⟩,
      ⟨.copy, 11, 6, 0⟩]

/-- In addition 8 points to 4. -/
def filledCascade : Anders :=
  .initial 12 4 (fieldlessObjects 4) (emptyCascade.constraints ++ [⟨.addrOf, 8, 4, 0⟩])

/-- The cascade that merges 10 and 6 starts from a set with 4 in it. -/
theorem runSolver_solves_cycle :
    ∃ a s, hcd filledCascade = .ok a ∧
      runSolver (Lists true PrioHeap) (.uniform false) 100 a = .ok (.done s) ∧ s.cascades = [{4}] ∧
      (a.system fun _ => False).Closed s.rep fun n o => o ∈ s.pts (s.rep n) := by
  have hrun : (hcdSolver (Lists true PrioHeap) (.uniform false) 100 filledCascade).toOption.any
      (fun t => !t.2.isMore && decide (t.2.state.cascades = [{4}])) = true := by decide +kernel
  obtain ⟨a, l, ha, hl, hp⟩ := hcdSolver_any hrun
  simp only [Bool.and_eq_true, decide_eq_true_eq, Bool.not_eq_true'] at hp
  have hbefore : filledCascade.BeforeHcd (.uniform false) := Anders.initial_beforeHcd
    (Anders.initial_noCalls (by decide) (fieldlessObjects_node 4)) (by decide)
  cases l with
  | more s => cases hp.1
  | done s =>
      have hcasc : s.cascades = [{4}] := hp.2
      exact ⟨a, s, ha, hl, hcasc, runSolver_solves _ _ _ a hbefore ha 100 s hl
        (by rw [hcasc]; decide)⟩

/-- Collapsing `*5` and `*7` merges 8 and 9 while neither points to anything. The cascade
merges 10 and 6 and pushes neither, so that 11 never gets what 6 points to. -/
theorem runSolver_loses : emptyCascade.BeforeHcd (.uniform false) ∧
    ∃ a s, hcd emptyCascade = .ok a ∧
      runSolver (Lists true PrioHeap) (.uniform false) 100 a = .ok (.done s) ∧
      ¬ (a.system fun _ => False).Closed s.rep fun n o => o ∈ s.pts (s.rep n) := by
  refine ⟨Anders.initial_beforeHcd
    (Anders.initial_noCalls (by decide) (fieldlessObjects_node 4)) (by decide), ?_⟩
  have hrun : (hcdSolver (Lists true PrioHeap) (.uniform false) 100 emptyCascade).toOption.any
      (fun t => !t.2.isMore && decide (⟨.copy, 11, 6, 0⟩ ∈ t.1.constraints) &&
        decide (4 ∈ t.2.state.pts (t.2.state.rep 6)) &&
        decide (4 ∉ t.2.state.pts (t.2.state.rep 11))) = true := by decide +kernel
  obtain ⟨a, l, ha, hl, hp⟩ := hcdSolver_any hrun
  simp only [Bool.and_eq_true, decide_eq_true_eq, Bool.not_eq_true'] at hp
  obtain ⟨⟨⟨hdone, hcopy⟩, h6⟩, h11⟩ := hp
  cases l with
  | more s => cases hdone
  | done s => exact ⟨a, s, ha, hl, fun hc => h11 (hc.copy hcopy rfl h6)⟩

end PtrAnalysis
