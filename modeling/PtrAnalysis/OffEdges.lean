import PtrAnalysis.HvnComponents
import PtrAnalysis.Lib.Assoc

/-!
# What the offline graph is made of

Every main node that takes part has an offline node of its own, an object only if it is the
return value or a parameter of a function. The edges, labels and marks of the graph come from
the constraints one by one, and every constraint leaves its own.
-/

namespace PtrAnalysis

open Run

variable {a : Anders}

/-! ## The offline nodes -/

/-- Which main nodes have an offline node: representatives and the pointer to the unknown target,
objects only in front of `afp`, and each its own. -/
structure Numbering.Sorted (a : Anders) (afp : Nat) (m : Numbering) : Prop where
  given : m.Given
  inj : ∀ i j, m.main2off i ≠ 0 → m.main2off i = m.main2off j → i = j
  rep : ∀ i, m.main2off i ≠ 0 → a.isRep i = true ∨ i = pI2p
  object : ∀ i, m.main2off i ≠ 0 → (a.nodes i).objSz ≠ 0 → m.main2off i < afp
  known : ∀ i, m.main2off i ≠ 0 → i ≠ i2p

namespace Numbering.Sorted

variable {m : Numbering} {k i : Nat}

theorem mono {k' : Nat} (h : m.Sorted a k) (hk : k ≤ k') : m.Sorted a k' :=
  { h with object := fun i hi ho => (h.object i hi ho).trans_le hk }

theorem give (h : m.Sorted a k) (hrep : a.isRep i = true ∨ i = pI2p)
    (hobj : (a.nodes i).objSz ≠ 0 → m.next < k) (hi : i ≠ i2p) : (m.give i).Sorted a k := by
  have hnew : (m.give i).main2off i = m.next := Function.update_self ..
  have hold : ∀ j, j ≠ i → (m.give i).main2off j = m.main2off j := fun j hj =>
    Function.update_of_ne hj ..
  refine ⟨h.given.give i, fun j j' hj heq => ?_, fun j hj => ?_, fun j hj ho => ?_, fun j hj => ?_⟩
  · have hlt := h.given.2
    by_cases hji : j = i <;> by_cases hj'i : j' = i
    · exact hji.trans hj'i.symm
    · rw [hji, hnew, hold j' hj'i] at heq
      exact absurd heq (hlt j').ne'
    · rw [hj'i, hnew, hold j hji] at heq
      exact absurd heq (hlt j).ne
    · rw [hold j hji, hold j' hj'i] at heq
      exact h.inj j j' (hold j hji ▸ hj) heq
  all_goals by_cases hji : j = i
  · exact hji ▸ hrep
  · exact h.rep j (hold j hji ▸ hj)
  · rw [hji, hnew]
    exact hobj (hji ▸ ho)
  · rw [hold j hji] at hj ⊢
    exact h.object j hj ho
  · exact hji ▸ hi
  · exact h.known j (hold j hji ▸ hj)

theorem giveIf (h : m.Sorted a k) (hobj : (a.nodes i).objSz ≠ 0 → m.next < k) (hi : i ≠ i2p) :
    (m.giveIf a.isRep i).Sorted a k := by
  unfold Numbering.giveIf
  split
  · rename_i hrep
    exact h.give (.inl hrep) hobj hi
  · exact h

end Numbering.Sorted

/-- The nodes inside function objects are numbered first. -/
theorem numberAFP_sorted : ∀ (fuel i : Nat) {m : Numbering}, firstVarNode ≤ i → m.Sorted a m.next →
    Spec (numberAFP a fuel i m) (fun m => m.Sorted a m.next) fun _ => True
  | 0, _, _, _, _ => trivial
  | fuel + 1, i, m, hi, hm => by
      rw [numberAFP]
      split
      · exact hm
      · refine spec_require (fun _ => trivial) fun _ => ?_
        refine spec_require (fun _ => trivial) fun _ => ?_
        refine numberAFP_sorted fuel _ (hi.trans (Nat.le_add_right ..)) ?_
        split
        · exact hm
        · refine List.foldlRecOn (motive := fun m : Numbering => m.Sorted a m.next) _ _ hm
            fun m hm j hj => ?_
          have hj3 : i + funcNodeOffRet ≤ j := (List.mem_range'_1.mp hj).1
          have hji : j ≠ i2p := by
            unfold firstVarNode at hi
            unfold funcNodeOffRet at hj3
            unfold i2p
            omega
          unfold Numbering.giveIf
          split
          · rename_i hrep
            exact (hm.mono (Nat.le_succ _)).give (.inl hrep) (fun _ => Nat.lt_succ_self _) hji
          · exact hm

/-- The offline graph without edges: variables start direct, all other nodes are indirect. -/
structure OffGraph.Made (a : Anders) (o : OffGraph) : Prop where
  inj : ∀ i j, o.main2off i ≠ 0 → o.main2off i = o.main2off j → i = j
  rep : ∀ i, o.main2off i ≠ 0 → a.isRep i = true ∨ i = pI2p
  object : ∀ i, o.main2off i ≠ 0 → (a.nodes i).objSz ≠ 0 → o.main2off i < o.firstVAL
  known : ∀ i, o.main2off i ≠ 0 → i ≠ i2p
  lt : ∀ i, o.main2off i < o.firstREF
  afp : ∀ x, x ≠ 0 → x < o.firstVAL → (o.nodes x).indirect = true
  ref : ∀ x, o.firstREF ≤ x → (o.nodes x).indirect = true

theorem makeOffNodes_made (hp : (a.nodes pI2p).objSz = 0) : Spec (makeOffNodes a)
    (fun o => o.Made a ∧ ∀ x, (o.nodes x).edges = ∅ ∧ (o.nodes x).implEdges = ∅ ∧
      (o.nodes x).ptrEq = ∅) fun _ => True := by
  unfold makeOffNodes
  refine spec_require (fun _ => trivial) fun hlast => ?_
  have hstart : Numbering.Sorted a 1 ⟨firstAFP, fun _ => 0⟩ :=
    ⟨⟨Nat.one_pos, fun _ => Nat.one_pos⟩, fun i j hi => absurd rfl hi, fun i hi => absurd rfl hi,
      fun i hi => absurd rfl hi, fun i hi => absurd rfl hi⟩
  refine (numberAFP_sorted _ _ le_rfl hstart).bind fun m hm => ?_
  have hval := hm.give (i := pI2p) (.inr rfl) (fun ho => absurd hp ho) (by decide)
  refine (spec_foldlM_keeps (P := Numbering.Sorted a m.next) hval fun i hi m' hm' => ?_).bind
    fun m' hm' => ?_
  · refine spec_require (fun _ => trivial) fun hobj => ?_
    have hbehind : a.lastObjNode + 1 ≤ i := (List.mem_range'_1.mp hi).1
    exact hm'.giveIf (fun ho => absurd hobj ho) (by unfold i2p; omega)
  · refine ⟨⟨hm'.inj, hm'.rep, hm'.object, hm'.known, hm'.given.2, fun x h0 hlt => ?_,
      fun x hx => ?_⟩, fun x => ⟨rfl, rfl, rfl⟩⟩
    · exact decide_eq_true (.inl ⟨Nat.pos_of_ne_zero h0, hlt⟩)
    · exact decide_eq_true (.inr hx)

/-! ## The edges of a constraint -/

namespace OffGraph

/-- The edge from `u` to `v` that constraint `C` makes. -/
def ConsEdge (o : OffGraph) (C : Constraint) (u v : Nat) : Prop :=
  o.main2off C.dest ≠ 0 ∧ o.main2off C.src ≠ 0 ∧
    match C.type with
    | .copy => u = o.main2off C.dest ∧ v = o.main2off C.src
    | .load => C.off = 0 ∧ u = o.main2off C.dest ∧ v = o.ref (o.main2off C.src)
    | .store => C.off = 0 ∧ u = o.ref (o.main2off C.dest) ∧ v = o.main2off C.src
    | _ => False

/-- Its implicit edge. -/
def ConsImpl (o : OffGraph) (C : Constraint) (u v : Nat) : Prop :=
  o.main2off C.dest ≠ 0 ∧ o.main2off C.src ≠ 0 ∧ u = o.ref (o.main2off C.dest) ∧
    match C.type with
    | .addrOf => v = o.main2off C.src
    | .copy => v = o.ref (o.main2off C.src)
    | _ => False

/-- Its label `l` of node `u`, if pairs of a source and an offset have the labels of `gep2pe`. -/
def ConsLabel (o : OffGraph) (C : Constraint) (u l : Nat) : Prop :=
  o.main2off C.dest ≠ 0 ∧ u = o.main2off C.dest ∧
    match C.type with
    | .addrOf => l = C.src
    | .gep => o.gep2pe.lookup (C.src, C.off) = some l
    | _ => False

/-- The node `u` that it makes indirect. -/
def ConsIndirect (o : OffGraph) (C : Constraint) (u : Nat) : Prop :=
  o.main2off C.dest ≠ 0 ∧ u = o.main2off C.dest ∧
    match C.type with
    | .copy => o.main2off C.src = 0
    | .load => C.off ≠ 0
    | _ => False

/-- The labels of the pairs in `gep2pe` are different, and come from `start` on. -/
structure GepLabels (o : OffGraph) (start : Nat) : Prop where
  range : ∀ R l, (R, l) ∈ o.gep2pe → start ≤ l ∧ l < o.nextPtrEq
  pair : ∀ R R' l, (R, l) ∈ o.gep2pe → (R', l) ∈ o.gep2pe → R = R'
  next : start ≤ o.nextPtrEq

/-- Nodes without an offline node are objects, and no constraint needs it. -/
structure ConsEnds (a : Anders) (o : OffGraph) (C : Constraint) : Prop where
  rep : a.isRep C.dest = true ∧ a.isRep C.src = true
  dest : o.main2off C.dest = 0 → (a.nodes C.dest).objSz ≠ 0
  src : o.main2off C.dest ≠ 0 → o.main2off C.src = 0 → (a.nodes C.src).objSz ≠ 0 ∧
    (C.type = .load ∨ C.type = .store → C.off ≠ 0)
  gep : o.main2off C.dest ≠ 0 → C.type = .gep →
    (o.gep2pe.lookup (C.src, C.off)).isSome = true

/-- The graph `o` after the edges of the constraints `cs` were added to `o0`. -/
structure Drawn (a : Anders) (hcd : Bool) (o0 : OffGraph) (cs : List Constraint) (o : OffGraph) :
    Prop where
  main2off : o.main2off = o0.main2off
  firstVAL : o.firstVAL = o0.firstVAL
  firstREF : o.firstREF = o0.firstREF
  ends : ∀ C ∈ cs, hcd = false ∨ C.type ≠ .gep → ConsEnds a o C
  edge : ∀ u v, v ∈ (o.nodes u).edges ↔ ∃ C ∈ cs, o.ConsEdge C u v
  impl : ∀ u v, v ∈ (o.nodes u).implEdges ↔ hcd = false ∧ ∃ C ∈ cs, o.ConsImpl C u v
  label : ∀ u l, l ∈ (o.nodes u).ptrEq ↔ hcd = false ∧ ∃ C ∈ cs, o.ConsLabel C u l
  indirect : ∀ u, (o.nodes u).indirect = true ↔
    (o0.nodes u).indirect = true ∨ hcd = false ∧ ∃ C ∈ cs, o.ConsIndirect C u
  gep : hcd = false → o.GepLabels a.size

/-! ## Adding them -/

variable {o o' : OffGraph} {n d u v l : Nat} {f : OffNode → OffNode}

theorem modify_node (o : OffGraph) (n u : Nat) (f : OffNode → OffNode) :
    (o.modify n f).nodes u = if u = n then f (o.nodes n) else o.nodes u :=
  Function.update_apply ..

/-- What the change of a node leaves alone. -/
theorem modify_keeps {β : Type} (p : OffNode → β) (hf : ∀ N, p (f N) = p N) :
    p ((o.modify n f).nodes u) = p (o.nodes u) := by
  rw [modify_node]
  split
  · rename_i hu
    rw [hf, hu]
  · rfl

/-- What it inserts. -/
theorem modify_inserts (p : OffNode → Finset Nat) (hf : ∀ N, p (f N) = insert d (p N)) :
    v ∈ p ((o.modify n f).nodes u) ↔ v ∈ p (o.nodes u) ∨ u = n ∧ v = d := by
  rw [modify_node]
  split
  · rename_i hu
    rw [hf, Finset.mem_insert, hu]
    exact or_comm.trans (or_congr_right (and_iff_right rfl).symm)
  · rename_i hu
    exact (or_iff_left fun h => hu h.1).symm

@[simp] theorem addEdge_main2off : (o.addEdge n d).main2off = o.main2off := rfl

@[simp] theorem addImpl_main2off : (o.addImpl n d).main2off = o.main2off := rfl

@[simp] theorem addLabel_main2off : (o.addLabel n l).main2off = o.main2off := rfl

@[simp] theorem setIndirect_main2off : (o.setIndirect n).main2off = o.main2off := rfl

@[simp] theorem addEdge_ref : (o.addEdge n d).ref = o.ref := rfl

@[simp] theorem addLabel_ref : (o.addLabel n l).ref = o.ref := rfl

@[simp] theorem mem_addEdge_edges :
    v ∈ ((o.addEdge n d).nodes u).edges ↔ v ∈ (o.nodes u).edges ∨ u = n ∧ v = d :=
  modify_inserts OffNode.edges fun _ => rfl

@[simp] theorem addEdge_implEdges : ((o.addEdge n d).nodes u).implEdges = (o.nodes u).implEdges :=
  modify_keeps OffNode.implEdges fun _ => rfl

@[simp] theorem addEdge_ptrEq : ((o.addEdge n d).nodes u).ptrEq = (o.nodes u).ptrEq :=
  modify_keeps OffNode.ptrEq fun _ => rfl

@[simp] theorem addEdge_indirect : ((o.addEdge n d).nodes u).indirect = (o.nodes u).indirect :=
  modify_keeps OffNode.indirect fun _ => rfl

@[simp] theorem mem_addImpl_implEdges :
    v ∈ ((o.addImpl n d).nodes u).implEdges ↔ v ∈ (o.nodes u).implEdges ∨ u = n ∧ v = d :=
  modify_inserts OffNode.implEdges fun _ => rfl

@[simp] theorem addImpl_edges : ((o.addImpl n d).nodes u).edges = (o.nodes u).edges :=
  modify_keeps OffNode.edges fun _ => rfl

@[simp] theorem addImpl_ptrEq : ((o.addImpl n d).nodes u).ptrEq = (o.nodes u).ptrEq :=
  modify_keeps OffNode.ptrEq fun _ => rfl

@[simp] theorem addImpl_indirect : ((o.addImpl n d).nodes u).indirect = (o.nodes u).indirect :=
  modify_keeps OffNode.indirect fun _ => rfl

@[simp] theorem mem_addLabel_ptrEq :
    v ∈ ((o.addLabel n l).nodes u).ptrEq ↔ v ∈ (o.nodes u).ptrEq ∨ u = n ∧ v = l :=
  modify_inserts OffNode.ptrEq fun _ => rfl

@[simp] theorem addLabel_edges : ((o.addLabel n l).nodes u).edges = (o.nodes u).edges :=
  modify_keeps OffNode.edges fun _ => rfl

@[simp] theorem addLabel_implEdges : ((o.addLabel n l).nodes u).implEdges = (o.nodes u).implEdges :=
  modify_keeps OffNode.implEdges fun _ => rfl

@[simp] theorem addLabel_indirect : ((o.addLabel n l).nodes u).indirect = (o.nodes u).indirect :=
  modify_keeps OffNode.indirect fun _ => rfl

@[simp] theorem setIndirect_indirect :
    ((o.setIndirect n).nodes u).indirect = true ↔ (o.nodes u).indirect = true ∨ u = n := by
  unfold setIndirect
  rw [modify_node]
  split
  · rename_i hu
    exact iff_of_true rfl (.inr hu)
  · rename_i hu
    exact (or_iff_left hu).symm

@[simp] theorem setIndirect_edges : ((o.setIndirect n).nodes u).edges = (o.nodes u).edges :=
  modify_keeps OffNode.edges fun _ => rfl

@[simp] theorem setIndirect_implEdges :
    ((o.setIndirect n).nodes u).implEdges = (o.nodes u).implEdges :=
  modify_keeps OffNode.implEdges fun _ => rfl

@[simp] theorem setIndirect_ptrEq : ((o.setIndirect n).nodes u).ptrEq = (o.nodes u).ptrEq :=
  modify_keeps OffNode.ptrEq fun _ => rfl

/-- The pair has a label afterwards, an old or a new one. -/
theorem gepLabel_spec (o : OffGraph) (R : Nat × Nat) : ∃ o1 l, o.gepLabel R = (o1, l) ∧
    o1 = { o with gep2pe := o1.gep2pe, nextPtrEq := o1.nextPtrEq } ∧
    o1.gep2pe.lookup R = some l ∧
    (o1.gep2pe = o.gep2pe ∨ o.gep2pe.lookup R = none ∧ o1.gep2pe = (R, l) :: o.gep2pe) ∧
    ∀ start, o.GepLabels start → o1.GepLabels start := by
  unfold gepLabel
  cases hl : o.gep2pe.lookup R with
  | some l => exact ⟨o, l, rfl, rfl, hl, .inl rfl, fun _ h => h⟩
  | none =>
      refine ⟨_, _, rfl, rfl, by simp, .inr ⟨rfl, rfl⟩, fun start h => ⟨fun R' l he => ?_,
        fun R' R'' l he he' => ?_, h.next.trans (Nat.le_succ _)⟩⟩
      · rcases List.mem_cons.mp he with he | he
        · rw [(Prod.mk.inj he).2]
          exact ⟨h.next, Nat.lt_succ_self _⟩
        · exact (h.range R' l he).imp_right Nat.lt_succ_of_lt
      · rcases List.mem_cons.mp he with he | he <;> rcases List.mem_cons.mp he' with he' | he'
        · rw [(Prod.mk.inj he).1, (Prod.mk.inj he').1]
        · exact absurd (Prod.mk.inj he).2 (h.range R'' l he').2.ne
        · exact absurd (Prod.mk.inj he').2 (h.range R' l he).2.ne
        · exact h.pair R' R'' l he he'

/-- What one constraint adds to the graph. -/
structure Adds (a : Anders) (hcd : Bool) (o : OffGraph) (C : Constraint) (o' : OffGraph) : Prop where
  main2off : o'.main2off = o.main2off
  firstVAL : o'.firstVAL = o.firstVAL
  firstREF : o'.firstREF = o.firstREF
  ends : hcd = false ∨ C.type ≠ .gep → ConsEnds a o' C
  edge : ∀ u v, v ∈ (o'.nodes u).edges ↔ v ∈ (o.nodes u).edges ∨ o.ConsEdge C u v
  impl : ∀ u v, v ∈ (o'.nodes u).implEdges ↔
    v ∈ (o.nodes u).implEdges ∨ hcd = false ∧ o.ConsImpl C u v
  label : ∀ u l, l ∈ (o'.nodes u).ptrEq ↔ l ∈ (o.nodes u).ptrEq ∨ hcd = false ∧ o'.ConsLabel C u l
  indirect : ∀ u, (o'.nodes u).indirect = true ↔
    (o.nodes u).indirect = true ∨ hcd = false ∧ o.ConsIndirect C u
  pairs : o'.gep2pe = o.gep2pe ∨
    ∃ R l, o.gep2pe.lookup R = none ∧ o'.gep2pe = (R, l) :: o.gep2pe
  gep : o.GepLabels a.size → o'.GepLabels a.size

/-- A constraint between nodes that are in the graph, without a new label for a pair. -/
theorem Adds.plain {a : Anders} {hcd : Bool} {C : Constraint}
    (hrep : a.isRep C.dest = true ∧ a.isRep C.src = true) (hod : o.main2off C.dest ≠ 0)
    (hsrc : o.main2off C.src ≠ 0 ∨ (a.nodes C.src).objSz ≠ 0)
    (hls : C.type = .load ∨ C.type = .store → C.off = 0 → o.main2off C.src ≠ 0)
    (ht : C.type ≠ .gep ∨ hcd = true) (hm : o'.main2off = o.main2off) (hV : o'.firstVAL = o.firstVAL)
    (hR : o'.firstREF = o.firstREF) (hg : o'.gep2pe = o.gep2pe) (hn : o'.nextPtrEq = o.nextPtrEq)
    (hedge : ∀ u v, v ∈ (o'.nodes u).edges ↔ v ∈ (o.nodes u).edges ∨ o.ConsEdge C u v)
    (himpl : ∀ u v, v ∈ (o'.nodes u).implEdges ↔
      v ∈ (o.nodes u).implEdges ∨ hcd = false ∧ o.ConsImpl C u v)
    (hlabel : ∀ u l, l ∈ (o'.nodes u).ptrEq ↔
      l ∈ (o.nodes u).ptrEq ∨ hcd = false ∧ o'.ConsLabel C u l)
    (hind : ∀ u, (o'.nodes u).indirect = true ↔
      (o.nodes u).indirect = true ∨ hcd = false ∧ o.ConsIndirect C u) : Adds a hcd o C o' where
  main2off := hm
  firstVAL := hV
  firstREF := hR
  ends hne := by
    refine ⟨hrep, fun h => absurd (hm ▸ h) hod, fun _ h => ?_, fun _ hgep => ?_⟩
    · rw [hm] at h
      exact ⟨hsrc.resolve_left (not_not_intro h), fun hl h0 => hls hl h0 h⟩
    · rcases ht with ht | ht
      · exact absurd hgep ht
      · exact absurd hgep (hne.resolve_left (by simp [ht]))
  edge := hedge
  impl := himpl
  label := hlabel
  indirect := hind
  pairs := .inl hg
  gep h := ⟨hg ▸ hn ▸ h.range, hg ▸ h.pair, hn ▸ h.next⟩

end OffGraph

namespace OffGraph

variable {a : Anders} {hcd : Bool} {o0 : OffGraph} {cs : List Constraint} {C : Constraint}

/-- A pair that has a label keeps it. -/
theorem Adds.lookup (h : Adds a hcd o C o') {R : Nat × Nat}
    (hR : (o.gep2pe.lookup R).isSome = true) : o'.gep2pe.lookup R = o.gep2pe.lookup R := by
  rcases h.pairs with heq | ⟨R', l, hnone, heq⟩
  · rw [heq]
  · rw [heq, List.lookup_cons]
    have hne : R ≠ R' := fun he => by
      rw [he, hnone] at hR
      cases hR
    rw [show (R == R') = false by simpa using hne]

/-- What earlier constraints made stays theirs. -/
theorem Adds.before (h : Adds a hcd o C o') (C' : Constraint) (u v : Nat) :
    (o'.ConsEdge C' u v ↔ o.ConsEdge C' u v) ∧ (o'.ConsImpl C' u v ↔ o.ConsImpl C' u v) ∧
      (o'.ConsIndirect C' u ↔ o.ConsIndirect C' u) ∧
      ((o.main2off C'.dest ≠ 0 → C'.type = .gep →
        (o.gep2pe.lookup (C'.src, C'.off)).isSome = true) →
        (o'.ConsLabel C' u v ↔ o.ConsLabel C' u v)) := by
  have href : o'.ref = o.ref := by
    funext x
    rw [ref, ref, h.firstREF]
  unfold ConsEdge ConsImpl ConsIndirect ConsLabel
  rw [h.main2off, href]
  refine ⟨Iff.rfl, Iff.rfl, Iff.rfl, fun hgep => and_congr_right fun hd => and_congr_right fun _ => ?_⟩
  cases ht : C'.type with
  | gep =>
      dsimp only
      rw [h.lookup (hgep hd ht)]
  | _ => exact Iff.rfl

/-- A GEP with the label of its pair. -/
theorem Adds.gepLabel {a : Anders} {hcd : Bool} {D S k : Nat} (hh : ¬ hcd = true)
    (hrep : a.isRep D = true ∧ a.isRep S = true) (hod : o.main2off D ≠ 0)
    (hsrc : o.main2off S ≠ 0 ∨ (a.nodes S).objSz ≠ 0) : Adds a hcd o ⟨.gep, D, S, k⟩
      ((o.gepLabel (S, k)).1.addLabel (o.main2off D) (o.gepLabel (S, k)).2) := by
  obtain ⟨o1, l, hlab, ho1, hl, hpairs, hgep⟩ := o.gepLabel_spec (S, k)
  rw [hlab]
  have hnodes : o1.nodes = o.nodes := by rw [ho1]
  have hmain : o1.main2off = o.main2off := by rw [ho1]
  refine ⟨hmain, by rw [ho1]; rfl, by rw [ho1]; rfl, fun _ => ⟨hrep, fun h => ?_,
    fun _ h => ⟨?_, by simp⟩, fun _ _ => ?_⟩, fun u v => ?_, fun u v => ?_, fun u l' => ?_,
    fun u => ?_, hpairs.imp id fun h => ⟨_, _, h⟩, fun h => ?_⟩
  · exact absurd (hmain ▸ h) hod
  · exact hsrc.resolve_left (not_not_intro (hmain ▸ h))
  · exact hl ▸ rfl
  · simp [hnodes, ConsEdge]
  · simp [hnodes, ConsImpl]
  · rw [mem_addLabel_ptrEq, hnodes]
    refine or_congr_right ⟨fun h => ⟨by simpa using hh, ?_⟩, fun h => ?_⟩
    · refine ⟨hmain ▸ hod, hmain ▸ h.1, ?_⟩
      rw [h.2]
      exact hl
    · have hl' : o1.gep2pe.lookup (S, k) = some l' := h.2.2.2
      rw [hl, Option.some.injEq] at hl'
      exact ⟨hmain ▸ h.2.2.1, hl'.symm⟩
  · simp [hnodes, ConsIndirect]
  · have := hgep _ h
    exact ⟨this.range, this.pair, this.next⟩

/-- One constraint more. -/
theorem Drawn.add (h : Drawn a hcd o0 cs o) (hadd : Adds a hcd o C o') :
    Drawn a hcd o0 (cs ++ [C]) o' := by
  have hlast : ∀ {p : Constraint → Prop}, (∃ C' ∈ cs ++ [C], p C') ↔ (∃ C' ∈ cs, p C') ∨ p C := by
    intro p
    simp only [List.mem_append, List.mem_singleton, or_and_right, exists_or, exists_eq_left]
  have href : o'.ref = o.ref := by
    funext x
    rw [ref, ref, hadd.firstREF]
  have hedge : ∀ C' u v, o'.ConsEdge C' u v ↔ o.ConsEdge C' u v := fun C' u v =>
    (hadd.before C' u v).1
  have himpl : ∀ C' u v, o'.ConsImpl C' u v ↔ o.ConsImpl C' u v := fun C' u v =>
    (hadd.before C' u v).2.1
  have hind : ∀ C' u, o'.ConsIndirect C' u ↔ o.ConsIndirect C' u := fun C' u =>
    (hadd.before C' u 0).2.2.1
  have hlabel : hcd = false → ∀ C' ∈ cs, ∀ u l, o'.ConsLabel C' u l ↔ o.ConsLabel C' u l :=
    fun hh C' hC' u l => (hadd.before C' u l).2.2.2 (h.ends C' hC' (.inl hh)).gep
  refine ⟨hadd.main2off.trans h.main2off, hadd.firstVAL.trans h.firstVAL,
    hadd.firstREF.trans h.firstREF, fun C' hC' ht => ?_, fun u v => ?_, fun u v => ?_, fun u l => ?_,
    fun u => ?_, fun hh => hadd.gep (h.gep hh)⟩
  · rcases List.mem_append.mp hC' with hC' | hC'
    · obtain ⟨hrep, hd, hs, hg⟩ := h.ends C' hC' ht
      refine ⟨hrep, fun h0 => hd (hadd.main2off ▸ h0), fun h0 h1 => hs (hadd.main2off ▸ h0)
        (hadd.main2off ▸ h1), fun h0 hgep => ?_⟩
      have hsome := hg (hadd.main2off ▸ h0) hgep
      rw [hadd.lookup hsome]
      exact hsome
    · exact List.mem_singleton.mp hC' ▸ hadd.ends (List.mem_singleton.mp hC' ▸ ht)
  · rw [hadd.edge, h.edge, hlast, hedge]
    simp only [hedge]
  · rw [hadd.impl, h.impl, hlast, himpl, ← and_or_left]
    simp only [himpl]
  · rw [hadd.label, h.label, hlast, ← and_or_left]
    refine and_congr_right fun hh => or_congr_left ?_
    exact exists_congr fun C' => and_congr_right fun hC' => (hlabel hh C' hC' u l).symm
  · rw [hadd.indirect, h.indirect, hlast, hind, or_assoc, ← and_or_left]
    simp only [hind]

end OffGraph

theorem addOffEdge_adds (a : Anders) (hcd : Bool) (o : OffGraph) (C : Constraint) :
    Spec (addOffEdge a hcd o C) (OffGraph.Adds a hcd o C) fun _ => True := by
  unfold addOffEdge
  refine spec_require (fun _ => trivial) fun hrep => ?_
  dsimp only
  split
  · rename_i hod
    refine spec_require (fun _ => trivial) fun hobj => ?_
    refine spec_ok ⟨rfl, rfl, rfl, fun _ => ⟨hrep, fun _ => hobj, fun h => absurd hod h,
      fun h => absurd hod h⟩, fun u v => ?_, fun u v => ?_, fun u l => ?_, fun u => ?_, .inl rfl, id⟩
    · simp [OffGraph.ConsEdge, hod]
    · simp [OffGraph.ConsImpl, hod]
    · simp [OffGraph.ConsLabel, hod]
    · simp [OffGraph.ConsIndirect, hod]
  · rename_i hod
    refine spec_require (fun _ => trivial) fun hsrc => ?_
    obtain ⟨t, D, S, k⟩ := C
    cases t with
    | addrOf =>
        dsimp only at *
        split
        · refine .plain hrep hod hsrc (by simp) (by simp) rfl rfl rfl rfl rfl ?_ ?_ ?_ ?_ <;>
            simp_all [OffGraph.ConsEdge]
        · split
          · refine .plain hrep hod hsrc (by simp) (by simp) rfl rfl rfl rfl rfl ?_ ?_ ?_ ?_ <;>
              simp_all [OffGraph.ConsEdge, OffGraph.ConsImpl, OffGraph.ConsLabel,
                OffGraph.ConsIndirect]
          · refine .plain hrep hod hsrc (by simp) (by simp) rfl rfl rfl rfl rfl ?_ ?_ ?_ ?_ <;>
              simp_all [OffGraph.ConsEdge, OffGraph.ConsImpl, OffGraph.ConsLabel,
                OffGraph.ConsIndirect]
    | copy =>
        dsimp only at *
        split
        · split
          · refine .plain hrep hod hsrc (by simp) (by simp) rfl rfl rfl rfl rfl ?_ ?_ ?_ ?_ <;>
              simp_all [OffGraph.ConsEdge]
          · refine .plain hrep hod hsrc (by simp) (by simp) rfl rfl rfl rfl rfl ?_ ?_ ?_ ?_ <;>
              simp_all [OffGraph.ConsEdge, OffGraph.ConsImpl, OffGraph.ConsLabel,
                OffGraph.ConsIndirect]
        · split
          · refine .plain hrep hod hsrc (by simp) (by simp) rfl rfl rfl rfl rfl ?_ ?_ ?_ ?_ <;>
              simp_all [OffGraph.ConsEdge]
          · refine .plain hrep hod hsrc (by simp) (by simp) rfl rfl rfl rfl rfl ?_ ?_ ?_ ?_ <;>
              simp_all [OffGraph.ConsEdge, OffGraph.ConsImpl, OffGraph.ConsLabel,
                OffGraph.ConsIndirect]
    | load =>
        dsimp only at *
        split
        · split
          · refine .plain hrep hod hsrc (by simp_all) (by simp) rfl rfl rfl rfl rfl ?_ ?_ ?_ ?_ <;>
              simp_all [OffGraph.ConsEdge]
          · refine .plain hrep hod hsrc (by simp_all) (by simp) rfl rfl rfl rfl rfl ?_ ?_ ?_ ?_ <;>
              simp_all [OffGraph.ConsEdge, OffGraph.ConsImpl, OffGraph.ConsLabel,
                OffGraph.ConsIndirect]
        · refine spec_require (fun _ => trivial) fun hos => ?_
          refine .plain hrep hod hsrc (fun _ _ => hos) (by simp) rfl rfl rfl rfl rfl ?_ ?_ ?_ ?_ <;>
            simp_all [OffGraph.ConsEdge, OffGraph.ConsImpl, OffGraph.ConsLabel,
              OffGraph.ConsIndirect]
    | store =>
        dsimp only at *
        split
        · refine .plain hrep hod hsrc (by simp_all) (by simp) rfl rfl rfl rfl rfl ?_ ?_ ?_ ?_ <;>
            simp_all [OffGraph.ConsEdge, OffGraph.ConsImpl, OffGraph.ConsLabel,
              OffGraph.ConsIndirect]
        · refine spec_require (fun _ => trivial) fun hos => ?_
          refine .plain hrep hod hsrc (fun _ _ => hos) (by simp) rfl rfl rfl rfl rfl ?_ ?_ ?_ ?_ <;>
            simp_all [OffGraph.ConsEdge, OffGraph.ConsImpl, OffGraph.ConsLabel,
              OffGraph.ConsIndirect]
    | gep =>
        dsimp only at *
        split
        · refine .plain hrep hod hsrc (by simp) (.inr ‹_›) rfl rfl rfl rfl rfl ?_ ?_ ?_ ?_ <;>
            simp_all [OffGraph.ConsEdge]
        · exact .gepLabel ‹¬ hcd = true› hrep hod hsrc

/-- The edges of all constraints. -/
theorem addOffEdges_drawn (a : Anders) (hcd : Bool) (o : OffGraph)
    (hempty : ∀ x, (o.nodes x).edges = ∅ ∧ (o.nodes x).implEdges = ∅ ∧ (o.nodes x).ptrEq = ∅)
    (hgep : hcd = false → o.GepLabels a.size) :
    Spec (addOffEdges a hcd o) (OffGraph.Drawn a hcd o a.constraints) fun _ => True := by
  unfold addOffEdges
  refine spec_foldlM (fun cs o' => OffGraph.Drawn a hcd o cs o') ?_ ?_
  · have hnil : ∀ {p : Constraint → Prop}, ¬ ∃ C ∈ ([] : List Constraint), p C := fun h => by
      obtain ⟨C, hC, -⟩ := h
      cases hC
    refine ⟨rfl, rfl, rfl, fun C hC => absurd hC List.not_mem_nil, fun u v => ?_, fun u v => ?_,
      fun u l => ?_, fun u => (or_iff_left fun h => hnil h.2).symm, hgep⟩
    · rw [(hempty u).1]
      exact iff_of_false (Finset.notMem_empty v) hnil
    · rw [(hempty u).2.1]
      exact iff_of_false (Finset.notMem_empty v) fun h => hnil h.2
    · rw [(hempty u).2.2]
      exact iff_of_false (Finset.notMem_empty l) fun h => hnil h.2
  · intro cs C rest o1 _ h
    exact (addOffEdge_adds a hcd o1 C).imp fun o2 hadd => h.add hadd

/-- The nodes are still those that were made. -/
theorem OffGraph.Drawn.made {hcd : Bool} {o0 o : OffGraph} {cs : List Constraint}
    (h : OffGraph.Drawn a hcd o0 cs o) (hm : o0.Made a) : o.Made a := by
  obtain ⟨hinj, hrep, hobj, hknown, hlt, hafp, href⟩ := hm
  rw [← h.main2off] at hinj hrep hobj hknown hlt
  rw [← h.firstVAL] at hobj hafp
  rw [← h.firstREF] at hlt href
  exact ⟨hinj, hrep, hobj, hknown, hlt, fun x h0 hx => (h.indirect x).mpr (.inl (hafp x h0 hx)),
    fun x hx => (h.indirect x).mpr (.inl (href x hx))⟩

/-- The offline graph of the constraints of `a`. -/
structure OffGraph.Graphs (a : Anders) (hcd : Bool) (g : OffGraph) : Prop extends g.Made a where
  drawn : ∃ o0, OffGraph.Drawn a hcd o0 a.constraints g

theorem OffGraph.graphs {o g : OffGraph} (hp : (a.nodes pI2p).objSz = 0)
    (hn : makeOffNodes a = .ok o)
    (he : addOffEdges a false { o with nextPtrEq := a.size, gep2pe := [] } = .ok g) :
    g.Graphs a false := by
  obtain ⟨hmade, hempty⟩ := (makeOffNodes_made hp).result hn
  have hgep : ({ o with nextPtrEq := a.size, gep2pe := [] } : OffGraph).GepLabels a.size :=
    ⟨fun R l h => absurd h List.not_mem_nil, fun R R' l h => absurd h List.not_mem_nil, le_rfl⟩
  have hdrawn := (addOffEdges_drawn a false { o with nextPtrEq := a.size, gep2pe := [] } hempty
    fun _ => hgep).result he
  exact ⟨hdrawn.made ⟨hmade.inj, hmade.rep, hmade.object, hmade.known, hmade.lt, hmade.afp,
    hmade.ref⟩, _, hdrawn⟩

/-- The graph of a search for offline cycles, which starts with the data another one left. -/
theorem OffGraph.graphs_hcd {o0 o g : OffGraph} (hp : (a.nodes pI2p).objSz = 0)
    (hn : makeOffNodes a = .ok o0) (hnodes : o.nodes = o0.nodes)
    (hmaps : o.main2off = o0.main2off ∧ o.firstVAL = o0.firstVAL ∧ o.firstREF = o0.firstREF)
    (he : addOffEdges a true o = .ok g) : g.Graphs a true := by
  obtain ⟨⟨hinj, hrep, hobj, hknown, hlt, hafp, href⟩, hempty⟩ := (makeOffNodes_made hp).result hn
  rw [← hmaps.1] at hinj hrep hobj hknown hlt
  rw [← hmaps.2.1] at hobj hafp
  rw [← hmaps.2.2] at hlt href
  rw [← hnodes] at hafp href hempty
  have hdrawn := (addOffEdges_drawn a true o hempty (by simp)).result he
  exact ⟨hdrawn.made ⟨hinj, hrep, hobj, hknown, hlt, hafp, href⟩, o, hdrawn⟩

end PtrAnalysis
