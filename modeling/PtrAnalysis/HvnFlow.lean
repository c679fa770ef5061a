import PtrAnalysis.HvnMeaning
import PtrAnalysis.Merge
import PtrAnalysis.OffEdges
import PtrAnalysis.Semantics

/-!
# The offline graph of a constraint system

The least solution of the constraints gives the offline graph a meaning: a variable has its
points-to set, and its dereference what the members of that set point to. What value
numbering leaves out (a load or store with offset, a copy from an object) makes a node
indirect, and so do all stores, because they write to objects. This needs the objects to
stay apart: an object node that is represented by a variable has no offline node any more,
and nobody knows what is stored in it.

Edges against which the sets grow are no problem for a load. A store through a pointer that
points to nothing has no effect, though; only where every such pointer points to something
are equal labels equal sets.
-/

namespace PtrAnalysis

open Run Relation PtrAnalysis.Search

/-- What is pointed to is a node of an object, and a whole object consists of such nodes. -/
structure Anders.Objects (a : Anders) : Prop where
  size : 0 < a.size
  block : ∀ o k, k < (a.nodes o).objSz → (a.nodes (o + k)).objSz ≠ 0
  addr : ∀ C ∈ a.constraints, C.type = .addrOf →
    (a.nodes C.src).objSz ≠ 0 ∧ C.src ≠ 0 ∧ C.src < a.size
  pointer : (a.nodes pI2p).objSz = 0

/-- Object nodes are represented by object nodes. -/
def Anders.ObjectReps (a : Anders) : Prop :=
  ∀ x, (a.nodes x).objSz ≠ 0 → (a.nodes (a.rep x)).objSz ≠ 0

/-- The least solution of the constraints of `a`, over its sets of merged nodes. -/
abbrev Anders.Flow (a : Anders) (func : Nat → Prop) (n o : Nat) : Prop :=
  (a.system func).Flow a.rep n o

/-- Every pointer that is stored through points to something. -/
def Anders.StoresReach (a : Anders) (func : Nat → Prop) : Prop :=
  ∀ C ∈ a.constraints, C.type = .store → C.off = 0 → ∃ o, a.Flow func C.dest o ∧ o ≠ i2p

variable {a : Anders} {func : Nat → Prop} {g : OffGraph}

theorem Anders.Objects.pointee (h : a.Objects) {n o : Nat} (hf : a.Flow func n o) :
    (a.nodes o).objSz ≠ 0 := by
  refine System.Flow.least (P := fun _ o => (a.nodes o).objSz ≠ 0) ⟨?_, ?_, ?_, ?_, ?_, ?_⟩ hf
  · exact fun hC ht => (h.addr _ hC ht).1
  · exact fun _ _ ho => ho
  · exact fun _ _ _ _ hx => hx
  · exact fun _ _ _ _ hx => hx
  · exact fun _ _ _ hs => h.block _ _ hs
  · exact fun _ ho => ho

/-- The node a store writes to is one of an object. -/
theorem Anders.Objects.stored (h : a.Objects) {n o : Nat} {C : Constraint}
    (hf : a.Flow func n o) (ha : (a.system func).Acts C o) : (a.nodes (o + C.off)).objSz ≠ 0 := by
  rcases ha.2 with h0 | h1
  · rw [h0, Nat.add_zero]
    exact h.pointee hf
  · exact h.block o C.off h1.1

namespace OffGraph

/-! ## Dereferences -/

theorem ref_ge (g : OffGraph) (x : Nat) : g.firstREF ≤ g.ref x := Nat.le_add_left ..

theorem ref_inj {x y : Nat} (hx : x ≠ 0) (hy : y ≠ 0) (h : g.ref x = g.ref y) : x = y := by
  unfold ref firstAFP at h
  omega

namespace Graphs

theorem edge {hcd : Bool} (h : g.Graphs a hcd) {u v : Nat} :
    v ∈ (g.nodes u).edges ↔ ∃ C ∈ a.constraints, g.ConsEdge C u v :=
  h.drawn.elim fun _ hd => hd.edge u v

/-- The constraint of an edge is between representatives. -/
theorem edge_rep {hcd : Bool} (h : g.Graphs a hcd) {C : Constraint} {u v : Nat}
    (hC : C ∈ a.constraints) (he : g.ConsEdge C u v) :
    a.isRep C.dest = true ∧ a.isRep C.src = true := by
  have hne : C.type ≠ .gep := fun ht => by
    rw [ConsEdge, ht] at he
    exact he.2.2
  exact h.drawn.elim fun _ hd => (hd.ends C hC (.inr hne)).rep

variable (h : g.Graphs a false)

include h

theorem ends {C : Constraint} (hC : C ∈ a.constraints) : ConsEnds a g C :=
  h.drawn.elim fun _ hd => hd.ends C hC (.inl rfl)

theorem impl {u v : Nat} : v ∈ (g.nodes u).implEdges ↔ ∃ C ∈ a.constraints, g.ConsImpl C u v :=
  h.drawn.elim fun _ hd => (hd.impl u v).trans (and_iff_right rfl)

theorem label {u l : Nat} : l ∈ (g.nodes u).ptrEq ↔ ∃ C ∈ a.constraints, g.ConsLabel C u l :=
  h.drawn.elim fun _ hd => (hd.label u l).trans (and_iff_right rfl)

theorem gep : g.GepLabels a.size := h.drawn.elim fun _ hd => hd.gep rfl

theorem indirect {C : Constraint} {u : Nat} (hC : C ∈ a.constraints) (hu : g.ConsIndirect C u) :
    (g.nodes u).indirect = true :=
  h.drawn.elim fun _ hd => (hd.indirect u).mpr (.inr ⟨rfl, C, hC, hu⟩)

/-- Implicit edges are of dereferences only. -/
theorem impl_indirect {u v : Nat} (hv : v ∈ (g.nodes u).implEdges) :
    (g.nodes u).indirect = true := by
  obtain ⟨C, -, -, -, rfl, -⟩ := h.impl.mp hv
  exact h.ref _ (g.ref_ge _)

/-- An object node in the graph is indirect. -/
theorem object_indirect {i : Nat} (hi : g.main2off i ≠ 0) (ho : (a.nodes i).objSz ≠ 0) :
    (g.nodes (g.main2off i)).indirect = true :=
  h.afp _ hi (h.object i hi ho)

/-- What is in the least solution is seen by a predicate of offline nodes that holds of indirect
nodes, labels and loads, and along copies. -/
theorem flow_offline (ho : a.Objects) (hr : a.ObjectReps) {Q : Nat → Nat → Prop}
    (hind : ∀ {i v}, g.main2off i ≠ 0 → a.isRep i = true → a.Flow func i v →
      (g.nodes (g.main2off i)).indirect = true → Q (g.main2off i) v)
    (haddr : ∀ {C}, C ∈ a.constraints → C.type = .addrOf → g.main2off C.dest ≠ 0 →
      Q (g.main2off C.dest) C.src)
    (hcopy : ∀ {C v}, C ∈ a.constraints → C.type = .copy → g.main2off C.dest ≠ 0 →
      g.main2off C.src ≠ 0 → Q (g.main2off C.src) v → Q (g.main2off C.dest) v)
    (hload : ∀ {C o v}, C ∈ a.constraints → C.type = .load → C.off = 0 → g.main2off C.dest ≠ 0 →
      g.main2off C.src ≠ 0 → a.Flow func C.src o → o ≠ i2p → a.Flow func o v →
      Q (g.main2off C.dest) v)
    (hgep : ∀ {C o}, C ∈ a.constraints → C.type = .gep → g.main2off C.dest ≠ 0 →
      a.Flow func C.src o → C.off < (a.nodes o).objSz → Q (g.main2off C.dest) (o + C.off))
    {n v : Nat} (hf : a.Flow func n v) (hn : g.main2off (a.rep n) ≠ 0) :
    Q (g.main2off (a.rep n)) v := by
  have hdest : ∀ {C : Constraint}, C ∈ a.constraints → a.rep C.dest = C.dest := fun hC =>
    Graph.rep_eq_self.mpr (h.ends hC).rep.1
  have hsrc : ∀ {C : Constraint}, C ∈ a.constraints → a.rep C.src = C.src := fun hC =>
    Graph.rep_eq_self.mpr (h.ends hC).rep.2
  refine (System.Flow.least (P := fun n v => a.Flow func n v ∧
    (g.main2off (a.rep n) ≠ 0 → Q (g.main2off (a.rep n)) v)) ⟨?_, ?_, ?_, ?_, ?_, ?_⟩ hf).2 hn
  · intro C hC ht
    refine ⟨.addr hC ht, fun hn => ?_⟩
    rw [hdest hC] at hn ⊢
    exact haddr hC ht hn
  · intro C o hC ht hs
    have hd : a.Flow func C.dest o := .copy hC ht hs.1
    refine ⟨hd, fun hn => ?_⟩
    rw [hdest hC] at hn ⊢
    by_cases h0 : g.main2off C.src = 0
    · exact hind hn (h.ends hC).rep.1 hd (h.indirect hC ⟨hn, rfl, by rwa [ht]⟩)
    · have hq := hs.2 (by rwa [hsrc hC])
      rw [hsrc hC] at hq
      exact hcopy hC ht hn h0 hq
  · intro C o x hC ht hs ha hx
    have hd : a.Flow func C.dest x := .load hC ht hs.1 ha hx.1
    refine ⟨hd, fun hn => ?_⟩
    rw [hdest hC] at hn ⊢
    by_cases h0 : C.off = 0
    · have hos : g.main2off C.src ≠ 0 := fun h1 => ((h.ends hC).src hn h1).2 (.inl ht) h0
      exact hload hC ht h0 hn hos hs.1 ha.1 (by simpa [h0] using hx.1)
    · exact hind hn (h.ends hC).rep.1 hd (h.indirect hC ⟨hn, rfl, by rwa [ht]⟩)
  · intro C o x hC ht hp ha hx
    have hd : a.Flow func (o + C.off) x := .store hC ht hp.1 ha hx.1
    refine ⟨hd, fun hn => ?_⟩
    have hobj := hr _ (ho.stored hp.1 ha)
    exact hind hn (a.toGraph.isRep_rep _) (.same (a.toGraph.rep_rep _).symm hd)
      (h.object_indirect hn hobj)
  · intro C o hC ht hs hlt
    have hd : a.Flow func C.dest (o + C.off) := .gep hC ht hs.1 hlt
    refine ⟨hd, fun hn => ?_⟩
    rw [hdest hC] at hn ⊢
    exact hgep hC ht hn hs.1 hlt
  · intro m n o hmn hm
    refine ⟨.same hmn hm.1, fun hn => ?_⟩
    rw [← hmn] at hn ⊢
    exact hm.2 hn

end Graphs

/-! ## The least solution as a meaning -/

/-- The set of an offline node: that of its variable, or what the members of that point to. -/
def flowVal (a : Anders) (func : Nat → Prop) (g : OffGraph) (x : Nat) : Set Nat :=
  {v | (∃ i, a.isRep i = true ∧ g.main2off i ≠ 0 ∧ x = g.main2off i ∧ a.Flow func i v) ∨
    ∃ i p, a.isRep i = true ∧ g.main2off i ≠ 0 ∧ x = g.ref (g.main2off i) ∧
      a.Flow func i p ∧ p ≠ i2p ∧ a.Flow func p v}

/-- What a label means at the start: a node ID itself, a pair of a source and an offset what the
GEP yields. -/
def flowPre (a : Anders) (func : Nat → Prop) (g : OffGraph) (l : Nat) : Set Nat :=
  {v | l < a.size ∧ v = l ∨ ∃ s k o, ((s, k), l) ∈ g.gep2pe ∧ a.Flow func s o ∧
    k < (a.nodes o).objSz ∧ v = o + k}

section

variable {hcd : Bool} (h : g.Graphs a hcd) {i v : Nat}

include h

theorem Graphs.ref_ne (i x : Nat) : g.main2off i ≠ g.ref x := fun he => by
  have := h.lt i
  have := g.ref_ge x
  omega

theorem mem_flowVal (hrep : a.isRep i = true) (hi : g.main2off i ≠ 0) :
    v ∈ flowVal a func g (g.main2off i) ↔ a.Flow func i v := by
  constructor
  · rintro (⟨j, -, -, heq, hf⟩ | ⟨j, -, -, -, heq, -⟩)
    · exact h.inj i j hi heq ▸ hf
    · exact absurd heq (h.ref_ne i _)
  · exact fun hf => .inl ⟨i, hrep, hi, rfl, hf⟩

theorem mem_flowVal_ref (hrep : a.isRep i = true) (hi : g.main2off i ≠ 0) :
    v ∈ flowVal a func g (g.ref (g.main2off i)) ↔
      ∃ p, a.Flow func i p ∧ p ≠ i2p ∧ a.Flow func p v := by
  constructor
  · rintro (⟨j, -, hj, heq, -⟩ | ⟨j, p, -, hj, heq, hf⟩)
    · exact absurd heq.symm (h.ref_ne j _)
    · exact ⟨p, h.inj i j hi (g.ref_inj hi hj heq) ▸ hf⟩
  · exact fun ⟨p, hf⟩ => .inr ⟨i, p, hrep, hi, rfl, hf⟩

/-- The sets grow against the edges. -/
theorem flowVal_edge (hs : a.StoresReach func) {x y : Nat} (hxy : y ∈ (g.nodes x).edges) :
    flowVal a func g y ⊆ flowVal a func g x := by
  intro v hv
  obtain ⟨C, hC, he⟩ := h.edge.mp hxy
  obtain ⟨hrd, hrs⟩ := h.edge_rep hC he
  obtain ⟨hd, hsrc, hcase⟩ := he
  cases ht : C.type with
  | copy =>
      rw [ht] at hcase
      rw [hcase.2, mem_flowVal h hrs hsrc] at hv
      rw [hcase.1, mem_flowVal h hrd hd]
      exact .copy hC ht hv
  | load =>
      rw [ht] at hcase
      rw [hcase.2.2, mem_flowVal_ref h hrs hsrc] at hv
      obtain ⟨p, hp, hne, hv⟩ := hv
      rw [hcase.2.1, mem_flowVal h hrd hd]
      exact .load hC ht hp ⟨hne, .inl hcase.1⟩ (by rwa [hcase.1])
  | store =>
      rw [ht] at hcase
      rw [hcase.2.2, mem_flowVal h hrs hsrc] at hv
      rw [hcase.2.1, mem_flowVal_ref h hrd hd]
      -- there is something to store into
      obtain ⟨p, hp, hne⟩ := hs C hC ht hcase.1
      have hst := System.Flow.store (S := a.system func) (r := a.rep) hC ht hp
        ⟨hne, .inl hcase.1⟩ hv
      rw [hcase.1] at hst
      exact ⟨p, hp, hne, hst⟩
  | addrOf =>
      rw [ht] at hcase
      exact hcase.elim
  | gep =>
      rw [ht] at hcase
      exact hcase.elim

end

section

variable (h : g.Graphs a false) {i v : Nat}

include h

theorem flowVal_mono (hs : a.StoresReach func) {x y : Nat} (hxy : g.Succ x y) :
    flowVal a func g y ⊆ flowVal a func g x := by
  intro v hv
  rcases hxy with hxy | hxy
  · exact flowVal_edge h hs hxy hv
  · obtain ⟨C, hC, hd, hsrc, rfl, hcase⟩ := h.impl.mp hxy
    obtain ⟨hrd, hrs⟩ := (h.ends hC).rep
    rw [mem_flowVal_ref h hrd hd]
    cases ht : C.type with
    | addrOf =>
        rw [ht] at hcase
        rw [hcase, mem_flowVal h hrs hsrc] at hv
        exact ⟨C.src, .addr hC ht, h.known _ hsrc, hv⟩
    | copy =>
        rw [ht] at hcase
        rw [hcase, mem_flowVal_ref h hrs hsrc] at hv
        obtain ⟨p, hp, hv⟩ := hv
        exact ⟨p, .copy hC ht hp, hv⟩
    | load =>
        rw [ht] at hcase
        exact hcase.elim
    | store =>
        rw [ht] at hcase
        exact hcase.elim
    | gep =>
        rw [ht] at hcase
        exact hcase.elim

theorem flowPre_old {l : Nat} (hl : l < a.size) : flowPre a func g l = {l} := by
  ext v
  constructor
  · rintro (⟨-, hv⟩ | ⟨s, k, o, hg, -⟩)
    · exact hv
    · exact absurd (h.gep.range _ l hg).1 (Nat.not_le.mpr hl)
  · exact fun hv => .inl ⟨hl, hv⟩

/-- No label of a node means too much. -/
theorem flowPre_sub (ho : a.Objects) {x l : Nat} (hl : l ∈ (g.nodes x).ptrEq) :
    l ≠ 0 ∧ l < g.nextPtrEq ∧ flowPre a func g l ⊆ flowVal a func g x := by
  obtain ⟨C, hC, hd, rfl, hcase⟩ := h.label.mp hl
  have hrd := (h.ends hC).rep.1
  cases ht : C.type with
  | addrOf =>
      rw [ht] at hcase
      subst hcase
      obtain ⟨-, h0, hlt⟩ := ho.addr C hC ht
      refine ⟨h0, hlt.trans_le h.gep.next, fun v hv => ?_⟩
      rw [flowPre_old h hlt] at hv
      rw [mem_flowVal h hrd hd, hv]
      exact .addr hC ht
  | gep =>
      rw [ht] at hcase
      have hmem := lookup_mem hcase
      obtain ⟨hle, hlt⟩ := h.gep.range _ l hmem
      refine ⟨(ho.size.trans_le hle).ne', hlt, ?_⟩
      rintro v (⟨hl', -⟩ | ⟨s, k, o, hg, hf, hk, rfl⟩)
      · exact absurd hle (Nat.not_le.mpr hl')
      · obtain ⟨rfl, rfl⟩ := Prod.mk.inj (h.gep.pair _ _ l hmem hg)
        rw [mem_flowVal h hrd hd]
        exact .gep hC ht hf hk
  | copy =>
      rw [ht] at hcase
      exact hcase.elim
  | load =>
      rw [ht] at hcase
      exact hcase.elim
  | store =>
      rw [ht] at hcase
      exact hcase.elim

/-- The least solution is a meaning of the offline graph. -/
theorem flow_means (ho : a.Objects) (hr : a.ObjectReps) (hs : a.StoresReach func) :
    Means g (flowPre a func g) (flowVal a func g) := by
  refine ⟨fun hxy => flowVal_mono h hs hxy, fun hl => flowPre_sub h ho hl,
    ho.size.trans_le h.gep.next, fun {x v} hv => ?_⟩
  rcases hv with ⟨i, hrep, hi, rfl, hf⟩ | ⟨i, p, hrep, hi, rfl, hf⟩
  · have hself := Graph.rep_eq_self.mpr hrep
    have hq := h.flow_offline ho hr (Q := Reason g (flowPre a func g) (flowVal a func g))
      (fun hi hrep hf hind => .indirect hind ((mem_flowVal h hrep hi).mpr hf))
      (fun {C} hC ht hd => ?_) (fun {C v} hC ht hd hsrc hr => ?_)
      (fun {C o v} hC ht h0 hd hsrc hp hne hv => ?_) (fun {C o} hC ht hd hp hlt => ?_) hf
      (by rwa [hself])
    · rwa [hself] at hq
    · refine .label (h.label.mpr ⟨C, hC, hd, rfl, by rw [ht]⟩) ?_
      rw [flowPre_old h (ho.addr C hC ht).2.2]
      rfl
    · exact .edge (h.edge.mpr ⟨C, hC, hd, hsrc, by rw [ht]; exact ⟨rfl, rfl⟩⟩) hr
    · refine .edge (d := g.ref (g.main2off C.src))
        (h.edge.mpr ⟨C, hC, hd, hsrc, by rw [ht]; exact ⟨h0, rfl, rfl⟩⟩) ?_
      exact .indirect (h.ref _ (g.ref_ge _))
        ((mem_flowVal_ref h (h.ends hC).rep.2 hsrc).mpr ⟨o, hp, hne, hv⟩)
    · obtain ⟨l, hl⟩ := Option.isSome_iff_exists.mp ((h.ends hC).gep hd ht)
      exact .label (h.label.mpr ⟨C, hC, hd, rfl, by rw [ht]; exact hl⟩)
        (.inr ⟨C.src, C.off, o, lookup_mem hl, hp, hlt, rfl⟩)
  · exact .indirect (h.ref _ (g.ref_ge _)) ((mem_flowVal_ref h hrep hi).mpr ⟨p, hf⟩)

/-! ## Possible pointers as a meaning -/

omit h in
/-- A node may be a pointer if it leads to one that is indirect or has a label. -/
def MayPoint (g : OffGraph) (x : Nat) : Prop :=
  ∃ y, ReflTransGen g.Succ x y ∧ ((g.nodes y).indirect = true ∨ (g.nodes y).ptrEq ≠ ∅)

/-- Whether a node may be a pointer is a meaning, too, also where stores have no effect. -/
theorem mayPoint_means (ho : a.Objects) :
    Means g (fun _ => Set.univ) (fun x => {_u : Unit | MayPoint g x}) := by
  refine ⟨fun hxy u hu => ?_, fun {x l} hl => ?_, ho.size.trans_le h.gep.next, fun {x u} hu => ?_⟩
  · obtain ⟨z, hz, hend⟩ := hu
    exact ⟨z, .head hxy hz, hend⟩
  · have hsub : l ≠ 0 ∧ l < g.nextPtrEq ∧ flowPre a (fun _ => False) g l ⊆ _ := flowPre_sub h ho hl
    obtain ⟨h0, hlt, -⟩ := hsub
    exact ⟨h0, hlt, fun _ _ => ⟨x, .refl, .inr (Finset.ne_empty_of_mem hl)⟩⟩
  · obtain ⟨y, hxy, hend⟩ := hu
    induction hxy using ReflTransGen.head_induction_on with
    | refl =>
        rcases hend with hi | hl
        · exact .indirect hi ⟨y, .refl, .inl hi⟩
        · obtain ⟨l, hl⟩ := Finset.nonempty_iff_ne_empty.mpr hl
          exact .label hl trivial
    | @head x z hxz hz ih =>
        rcases hxz with hxz | hxz
        · exact .edge hxz ih
        · exact .indirect (h.impl_indirect hxz) ⟨y, .head (.inr hxz) hz, hend⟩

/-- What points to something may be a pointer. -/
theorem flow_mayPoint (ho : a.Objects) (hr : a.ObjectReps) (hf : a.Flow func i v)
    (hi : g.main2off (a.rep i) ≠ 0) : MayPoint g (g.main2off (a.rep i)) := by
  refine h.flow_offline ho hr (Q := fun x _ => MayPoint g x) (fun _ _ _ hind => ⟨_, .refl, .inl hind⟩)
    (fun {C} hC ht hd => ?_) (fun {C v} hC ht hd hsrc hr => ?_)
    (fun {C o v} hC ht h0 hd hsrc _ _ _ => ?_) (fun {C o} hC ht hd _ _ => ?_) hf hi
  · have hl : C.src ∈ (g.nodes (g.main2off C.dest)).ptrEq :=
      h.label.mpr ⟨C, hC, hd, rfl, by rw [ht]⟩
    exact ⟨_, .refl, .inr (Finset.ne_empty_of_mem hl)⟩
  · obtain ⟨y, hy, hend⟩ := hr
    exact ⟨y, .head (.inl (h.edge.mpr ⟨C, hC, hd, hsrc, by rw [ht]; exact ⟨rfl, rfl⟩⟩)) hy, hend⟩
  · exact ⟨_, .single (.inl (h.edge.mpr ⟨C, hC, hd, hsrc, by rw [ht]; exact ⟨h0, rfl, rfl⟩⟩)),
      .inl (h.ref _ (g.ref_ge _))⟩
  · obtain ⟨l, hl⟩ := Option.isSome_iff_exists.mp ((h.ends hC).gep hd ht)
    have hl : l ∈ (g.nodes (g.main2off C.dest)).ptrEq :=
      h.label.mpr ⟨C, hC, hd, rfl, by rw [ht]; exact hl⟩
    exact ⟨_, .refl, .inr (Finset.ne_empty_of_mem hl)⟩

end

end OffGraph

/-! ## The labels after the search -/

/-- The labels of main node `i`. -/
def OffGraph.pe (o : OffGraph) (i : Nat) : Finset Nat := (o.nodes (o.rep (o.main2off i))).ptrEq

/-- What the labels say about main nodes. -/
structure OffGraph.Labels (a : Anders) (func : Nat → Prop) (o : OffGraph) : Prop where
  rep : ∀ i, o.main2off i ≠ 0 → a.isRep i = true ∨ i = pI2p
  labels : ∀ i, o.main2off i ≠ 0 → o.pe i ≠ ∅
  zero : ∀ i, o.main2off i ≠ 0 → 0 ∈ o.pe i → o.pe i = {0}
  /-- Nodes with label 0 point to nothing. -/
  nonptr : ∀ i v, o.main2off (a.rep i) ≠ 0 → 0 ∈ o.pe (a.rep i) → ¬ a.Flow func i v
  /-- An object has another label than 0. -/
  object : ∀ i, o.main2off i ≠ 0 → (a.nodes i).objSz ≠ 0 → 0 ∉ o.pe i
  /-- Nodes with equal labels point to the same. -/
  same : a.StoresReach func → ∀ i j, a.isRep i = true → a.isRep j = true → o.main2off i ≠ 0 →
    o.main2off j ≠ 0 → o.pe i = o.pe j → ∀ v, a.Flow func i v ↔ a.Flow func j v

/-- A meaning in which a node's labels contain 0 is empty there. -/
theorem Meant.empty {α : Type} {den : Nat → Set α} {V : Set α} {P : Finset Nat}
    (h : Meant den V P) (h0 : den 0 = ∅) (hP : 0 ∈ P) : V = ∅ := by
  rw [h.eq, h.zero hP, meaning_singleton, h0]

theorem hvnSearch_labels {o o' : OffGraph} (doUnion : Bool) (ho : a.Objects) (hr : a.ObjectReps)
    (hn : makeOffNodes a = .ok o)
    (he : addOffEdges a false { o with nextPtrEq := a.size, gep2pe := [] } = .ok g)
    (hrun : hvnSearch doUnion g = .ok o') : OffGraph.Labels a func o' := by
  have hb := OffGraph.built hn he
  have hg := OffGraph.graphs ho.pointer hn he
  obtain ⟨hmain, den, hden0, hden⟩ := (hvnSearch_means hb.toUnsearched
    (OffGraph.mayPoint_means hg ho) doUnion).result hrun
  have hvalid : ∀ {i}, g.main2off i ≠ 0 → g.Valid (g.main2off i) := fun hi => hb.val hi
  have hzero : ∀ {i}, g.main2off i ≠ 0 → 0 ∈ (o'.nodes (o'.rep (g.main2off i))).ptrEq →
      ¬ OffGraph.MayPoint g (g.main2off i) := fun hi h0 hp => by
    have hmem : () ∈ {_u : Unit | OffGraph.MayPoint g (g.main2off _)} := hp
    rw [(hden _ (hvalid hi)).empty hden0 h0] at hmem
    exact hmem
  have hpe : ∀ i, o'.pe i = (o'.nodes (o'.rep (g.main2off i))).ptrEq := fun i => by
    rw [OffGraph.pe, hmain]
  refine ⟨?_, ?_, ?_, ?_, ?_, ?_⟩ <;> rw [hmain] <;> try simp only [hpe]
  · exact hg.rep
  · exact fun i hi => (hden _ (hvalid hi)).nonempty
  · exact fun i hi => (hden _ (hvalid hi)).zero
  · exact fun i v hi h0 hf => hzero hi h0 (OffGraph.flow_mayPoint hg ho hr hf hi)
  · exact fun i hi hobj h0 => hzero hi h0 ⟨_, .refl, .inl (hg.object_indirect hi hobj)⟩
  · intro hs i j hri hrj hi hj heq v
    obtain ⟨-, den, -, hden⟩ := (hvnSearch_means hb.toUnsearched
      (OffGraph.flow_means hg ho hr hs) doUnion).result hrun
    rw [← OffGraph.mem_flowVal hg hri hi, ← OffGraph.mem_flowVal hg hrj hj,
      (hden _ (hvalid hi)).eq, (hden _ (hvalid hj)).eq, heq]

end PtrAnalysis
