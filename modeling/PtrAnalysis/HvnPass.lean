import PtrAnalysis.HvnFlow
import PtrAnalysis.Rewriting
import PtrAnalysis.Solved

/-!
# A pass of value numbering

A pass merges nodes with equal labels, marks those that point to nothing, and rewrites the
constraints. It loses nothing of the least solution, as long as objects are represented by
objects. Where every pointer that is stored through points to something it changes nothing.
-/

namespace PtrAnalysis

open Run PtrAnalysis.Graph

/-- With no target entered a merge only puts one node under the other. -/
theorem MergeRun.absorb {g g' : Graph} {n1 n2 r : Nat} (h : MergeRun g n1 n2 g' r)
    (h0 : ∀ n, g.hv n = 0) : ∃ c, byRank g n1 n2 = (r, c) ∧ Mergeable g r c ∧ g' = g.absorb r c := by
  cases h with
  | @plain _ _ _ _ c hm hr _ => exact ⟨c, hr, hm.byRank hr, rfl⟩
  | adopt _ _ hb _ => exact absurd (h0 _) hb
  | same _ _ hb _ _ => exact absurd (h0 _) hb
  | cascade _ _ hb _ _ _ _ => exact absurd (h0 _) hb

/-- Nodes marked as non-pointers point to nothing, and are no objects. -/
def Anders.NonptrEmpty (a : Anders) (func : Nat → Prop) : Prop :=
  ∀ n, a.isRep n = true → (a.nodes n).nonptr = true →
    (a.nodes n).objSz = 0 ∧ ∀ v, ¬ a.Flow func n v

/-! ## Merging -/

variable {a b : Anders} {func : Nat → Prop} {o : OffGraph} {i r c : Nat}

/-- Main node `i` was found to point to nothing. -/
def OffGraph.Nonptr (o : OffGraph) (i : Nat) : Prop := o.main2off i ≠ 0 ∧ 0 ∈ o.pe i

/-- State `b` is `a` after some nodes were merged by label, and some were marked. -/
structure PeMerged (a : Anders) (func : Nat → Prop) (o : OffGraph) (b : Anders) : Prop where
  frame : b = { a with toGraph := b.toGraph }
  size : b.size = a.size
  objSz : ∀ n, (b.nodes n).objSz = (a.nodes n).objSz
  coarser : ∀ {x y}, a.rep x = a.rep y → b.rep x = b.rep y
  isRep : ∀ {x}, b.isRep x = true → a.isRep x = true
  hv : ∀ n, b.hv n = 0
  equal : a.StoresReach func → ∀ {x y}, b.rep x = b.rep y → ∀ v, a.Flow func x v → a.Flow func y v
  nonptr : ∀ n, (b.nodes n).nonptr = true → (a.nodes n).nonptr = true ∨ o.Nonptr n
  /-- Non-pointers are not merged. -/
  alone : ∀ n, a.isRep n = true → ((b.nodes (b.rep n)).nonptr = true ∨ o.Nonptr (b.rep n)) →
    b.rep n = n

/-- The first node with each label set. -/
def PeTable (o : OffGraph) (b : Anders) (T : PeNodes) : Prop :=
  ∀ pe r, T.lookup pe = some r →
    b.isRep r = true ∧ (b.nodes r).nonptr = false ∧ o.main2off r ≠ 0 ∧ o.pe r = pe ∧ 0 ∉ pe

namespace PeMerged

theorem start (h0 : ∀ n, a.hv n = 0) : PeMerged a func o a := by
  refine ⟨rfl, rfl, fun _ => rfl, id, id, h0, fun _ x y hxy v hv => .same hxy hv, fun _ => .inl,
    fun n hn _ => rep_eq_self.mpr hn⟩

variable (h : PeMerged a func o b)

include h

/-- Marking a node. -/
theorem mark (hi : o.Nonptr i) : PeMerged a func o
    { b with toGraph := b.toGraph.modify i fun N => { N with nonptr := true } } := by
  have hnode : ∀ n, ((b.toGraph.modify i fun N => { N with nonptr := true }).nodes n) =
      if n = i then { b.nodes i with nonptr := true } else b.nodes n := fun n =>
    Function.update_apply ..
  have hnonptr : ∀ n, ((b.toGraph.modify i fun N => { N with nonptr := true }).nodes n).nonptr = true →
      (b.nodes n).nonptr = true ∨ o.Nonptr n := fun n hn => by
    rw [hnode] at hn
    split at hn
    · rename_i hni
      exact .inr (hni ▸ hi)
    · exact .inl hn
  refine ⟨?_, h.size, fun n => ?_, h.coarser, h.isRep, h.hv, h.equal, fun n hn => ?_, fun n hn hr => ?_⟩
  · have hf := congrArg (fun x : Anders => { x with
      toGraph := b.toGraph.modify i fun N => { N with nonptr := true } }) h.frame
    exact hf
  · rw [← h.objSz n, hnode]
    split
    · rename_i hni
      rw [hni]
    · rfl
  · exact (hnonptr n hn).elim (h.nonptr n) .inr
  · exact h.alone n hn (hr.elim (hnonptr _) .inr)

/-- Merging two nodes with equal labels. -/
theorem merge (hl : OffGraph.Labels a func o) (hm : Mergeable b.toGraph r c)
    (hr : (b.nodes r).nonptr = false ∧ o.main2off r ≠ 0) (hc : o.main2off c ≠ 0)
    (hpe : o.pe r = o.pe c) (h0 : 0 ∉ o.pe r) :
    PeMerged a func o { b with toGraph := b.toGraph.absorb r c } := by
  have hrep := absorb_rep hm
  have hself : (b.toGraph.absorb r c).rep r = r := (absorb_both hm).1
  have hnode : ∀ n, ((b.toGraph.absorb r c).nodes n).nonptr = true →
      n ≠ r ∧ (b.nodes n).nonptr = true := fun n hn => by
    simp only [Graph.absorb, takeOver, cleared] at hn
    split at hn
    · rw [hr.1] at hn
      simp at hn
    · rename_i hnr
      refine ⟨hnr, ?_⟩
      split at hn
      · rename_i hnc
        exact hnc ▸ hn
      · exact hn
  refine ⟨?_, h.size, fun n => ?_, fun {x y} hxy => ?_, fun {x} hx => ?_, h.hv, fun hs x y hxy v hv => ?_,
    fun n hn => h.nonptr n (hnode n hn).2, fun n hn hcase => ?_⟩
  · have hf := congrArg (fun x : Anders => { x with toGraph := b.toGraph.absorb r c }) h.frame
    exact hf
  · exact ((absorb_coarser hm).objSz n).trans (h.objSz n)
  · exact (absorb_coarser hm).rep (h.coarser hxy)
  · exact h.isRep ((absorb_coarser hm).isRep hx)
  · have hrc := hl.same hs r c (h.isRep hm.isRep.1) (h.isRep hm.isRep.2) hr.2 hc hpe
    have hat : ∀ x, a.Flow func x v ↔ a.Flow func (b.rep x) v := fun x =>
      ⟨h.equal hs (b.toGraph.rep_rep x).symm v, h.equal hs (b.toGraph.rep_rep x) v⟩
    have hnew : ∀ x, a.Flow func x v ↔ a.Flow func ((b.toGraph.absorb r c).rep x) v := fun x => by
      rw [hat, hrep]
      split
      · rename_i hx
        rw [hx]
        exact (hrc v).symm
      · exact Iff.rfl
    rw [hnew] at hv ⊢
    have hxy : (b.toGraph.absorb r c).rep x = (b.toGraph.absorb r c).rep y := hxy
    rwa [← hxy]
  · change (b.toGraph.absorb r c).rep n = n
    change ((b.toGraph.absorb r c).nodes ((b.toGraph.absorb r c).rep n)).nonptr = true ∨
      o.Nonptr ((b.toGraph.absorb r c).rep n) at hcase
    rw [hrep] at hcase ⊢
    split at hcase
    · rcases hcase with hcase | hcase
      · exact absurd rfl (hnode r hcase).1
      · exact absurd hcase.2 h0
    · rename_i hx
      rw [if_neg hx]
      exact h.alone n hn (hcase.imp_left fun hp => (hnode _ hp).2)

end PeMerged

/-- The state and the table before node `i` are as after it. -/
theorem mergeOne_spec {t : Anders × PeNodes} (hl : OffGraph.Labels a func o)
    (ht : PeMerged a func o t.1 ∧ PeTable o t.1 t.2) (i : Nat) :
    Spec (mergeOne o t i) (fun u => PeMerged a func o u.1 ∧ PeTable o u.1 u.2) fun _ => True := by
  obtain ⟨b, T⟩ := t
  obtain ⟨hb, hT⟩ := ht
  unfold mergeOne
  dsimp only
  rw [show (o.nodes (o.rep (o.main2off i))).ptrEq = o.pe i from rfl]
  split
  · exact ⟨hb, hT⟩
  · rename_i hi
    refine spec_require (fun _ => trivial) fun _ => ?_
    split
    · rename_i h0
      refine spec_require (fun _ => trivial) fun _ => ?_
      refine ⟨hb.mark ⟨hi, h0⟩, fun pe r hr => ?_⟩
      obtain ⟨h1, h2, h3, h4, h5⟩ := hT pe r hr
      refine ⟨h1, ?_, h3, h4, h5⟩
      -- the nodes of the table have other labels
      have hri : r ≠ i := fun he => h5 (h4 ▸ he ▸ h0)
      rwa [show (b.toGraph.modify i fun N => { N with nonptr := true }).nodes r = b.nodes r from
        Function.update_of_ne hri ..]
    · rename_i h0
      refine spec_require (fun _ => trivial) fun hnonptr => ?_
      rw [Bool.not_eq_true] at hnonptr
      split
      · refine spec_require (fun _ => trivial) fun hrep => ?_
        refine ⟨hb, fun pe r hr => ?_⟩
        rw [List.lookup_cons] at hr
        split at hr
        · rename_i heq
          cases hr
          obtain rfl := beq_iff_eq.mp heq
          exact ⟨hrep, hnonptr, hi, rfl, h0⟩
        · exact hT pe r hr
      · rename_i en hen
        obtain ⟨h1, h2, h3, h4, h5⟩ := hT _ _ hen
        refine (merge_run permits_true (.inl trivial) en i).bind fun u hu => ?_
        obtain ⟨g, r⟩ := u
        obtain ⟨c, hrank, hm, hg⟩ := hu.absorb hb.hv
        obtain rfl : g = b.toGraph.absorb r c := hg
        have hboth : ((b.nodes r).nonptr = false ∧ o.main2off r ≠ 0 ∧ o.pe r = o.pe i) ∧
            (b.nodes c).nonptr = false ∧ o.main2off c ≠ 0 ∧ o.pe c = o.pe i := by
          rcases byRank_cases b.toGraph en i with hc | hc <;>
            obtain ⟨rfl, rfl⟩ := Prod.mk.inj (hrank.symm.trans hc)
          · exact ⟨⟨h2, h3, h4⟩, hnonptr, hi, rfl⟩
          · exact ⟨⟨hnonptr, hi, rfl⟩, h2, h3, h4⟩
        obtain ⟨⟨hr1, hr2, hr3⟩, hc1, hc2, hc3⟩ := hboth
        refine ⟨hb.merge hl hm ⟨hr1, hr2⟩ hc2 (hr3.trans hc3.symm) (hr3 ▸ h0), fun pe q hq => ?_⟩
        have hisRep : ∀ {q}, b.isRep q = true → q ≠ c → (b.toGraph.absorb r c).isRep q = true :=
          fun hq hne => (absorb_isRep hm _).mpr ⟨hq, hne⟩
        rw [List.lookup_cons] at hq
        split at hq
        · rename_i heq
          cases hq
          obtain rfl := beq_iff_eq.mp heq
          refine ⟨hisRep hm.isRep.1 hm.ne, ?_, hr2, hr3, h0⟩
          simp [Graph.absorb, takeOver, hr1]
        · rename_i hne
          obtain ⟨q1, q2, q3, q4, q5⟩ := hT pe q hq
          have hpe : pe ≠ o.pe i := fun he => by simp [he, OffGraph.pe] at hne
          have hqc : q ≠ c := fun he => hpe (q4.symm.trans (he ▸ hc3))
          have hqr : q ≠ r := fun he => hpe (q4.symm.trans (he ▸ hr3))
          refine ⟨hisRep q1 hqc, ?_, q3, q4, q5⟩
          change ((b.toGraph.absorb r c).nodes q).nonptr = false
          rwa [show (b.toGraph.absorb r c).nodes q = b.nodes q by
            simp [Graph.absorb, hqr, hqc]]

/-! ## The pass -/

/-- A state a pass may start from. -/
structure Anders.HvnReady (a : Anders) (func : Nat → Prop) : Prop where
  objects : a.Objects
  reps : a.ObjectReps
  calls : a.CallsListed
  nonptr : a.NonptrEmpty func
  hv : ∀ n, a.hv n = 0

/-- State `b` is what a pass makes of `a`. -/
structure HvnPass (a : Anders) (func : Nat → Prop) (b : Anders) : Prop where
  rewritten : (a.system func).Rewritten (b.system func) a.rep b.rep
  equal : a.StoresReach func → ∀ {x y}, b.rep x = b.rep y → ∀ v, a.Flow func x v → a.Flow func y v
  /-- What is found to be a non-pointer points to nothing. -/
  nonptr : ∀ n, a.isRep n = true → (b.nodes n).nonptr = true → ∀ v, ¬ a.Flow func n v
  ready : b.ObjectReps → b.HvnReady func

/-- A node that was marked is not an object and points to nothing. -/
theorem PeMerged.empty (h : PeMerged a func o b) (ha : a.HvnReady func)
    (hl : OffGraph.Labels a func o) {n : Nat} (hn : a.isRep n = true)
    (hp : (b.nodes n).nonptr = true) : (a.nodes n).objSz = 0 ∧ ∀ v, ¬ a.Flow func n v := by
  rcases h.nonptr n hp with hold | ⟨hoff, h0⟩
  · exact ha.nonptr n hn hold
  · have hself := rep_eq_self.mpr hn
    refine ⟨by_contra fun hobj => hl.object n hoff hobj h0, fun v => ?_⟩
    rw [← hself] at hoff h0
    exact hl.nonptr n v hoff h0

/-- Nothing flows through a constraint that is dropped. -/
theorem PeMerged.idle (h : PeMerged a func o b) (ha : a.HvnReady func)
    (hl : OffGraph.Labels a func o) {C : Constraint} (hC : C ∈ a.constraints)
    (hrep : a.isRep C.dest = true ∧ a.isRep C.src = true) (hp : touchesNonptr b C = true) :
    (a.system func).Idle a.rep C := by
  rcases Bool.or_eq_true_iff.mp hp with hp | hp
  · exact .inl (h.empty ha hl hrep.1 hp).2
  · obtain ⟨hobj, hempty⟩ := h.empty ha hl hrep.2 hp
    exact .inr ⟨fun ht => (ha.objects.addr C hC ht).1 hobj, hempty⟩

theorem mem_kept {cs : List Constraint} {C : Constraint} :
    C ∈ cs.filter (fun C => ¬ touchesNonptr b C) ↔ C ∈ cs ∧ touchesNonptr b C = false := by
  simp [List.mem_filter]

/-- The constraints of the new list are about nodes that may be pointers. -/
theorem PeMerged.pointers (h : PeMerged a func o b)
    (hrep : ∀ C ∈ a.constraints, a.isRep C.dest = true) {C : Constraint} {cs : List Constraint}
    {ls : IcallCons} (hcs : ∀ C ∈ cs, C ∈ a.constraints ∧ touchesNonptr b C = false)
    (hC : C ∈ (b.rewrite cs ls).constraints) : (b.nodes (b.rep C.dest)).nonptr = false := by
  obtain ⟨-, C0, hC0, rfl⟩ := (mem_rewrites.mp hC).resolve_left List.not_mem_nil
  obtain ⟨hmem, hkeep⟩ := hcs C0 hC0
  have hdest : (b.nodes C0.dest).nonptr = false := (Bool.or_eq_false_iff.mp hkeep).1
  by_contra hp
  rw [Bool.not_eq_false] at hp
  change (b.nodes (b.rep (b.rep C0.dest))).nonptr = true at hp
  rw [Graph.rep_rep] at hp
  rw [h.alone C0.dest (hrep C0 hmem) (.inl hp), hdest] at hp
  exact Bool.noConfusion hp

/-- In the new system a node that points to something is not marked. -/
theorem PeMerged.flow_pointer {b' : Anders} (h : PeMerged a func o b) (ha : a.HvnReady func)
    (hl : OffGraph.Labels a func o) (ho : b'.Objects) (hreps : b'.ObjectReps)
    (hgraph : b'.toGraph = b.toGraph)
    (hdest : ∀ C ∈ b'.constraints, (b.nodes (b.rep C.dest)).nonptr = false) {n v : Nat}
    (hf : b'.Flow func n v) : (b.nodes (b.rep n)).nonptr = false := by
  refine (System.Flow.least (P := fun n v => b'.Flow func n v ∧
    (b.nodes (b.rep n)).nonptr = false) ⟨?_, ?_, ?_, ?_, ?_, ?_⟩ hf).2
  · exact fun {C} hC ht => ⟨.addr hC ht, hdest C hC⟩
  · exact fun {C _} hC ht hs => ⟨.copy hC ht hs.1, hdest C hC⟩
  · exact fun {C _ _} hC ht hs hact hx => ⟨.load hC ht hs.1 hact hx.1, hdest C hC⟩
  · intro C o x hC ht hp hact hx
    refine ⟨.store hC ht hp.1 hact hx.1, ?_⟩
    have hobj := hreps _ (ho.stored hp.1 hact)
    by_contra hp
    rw [Bool.not_eq_false] at hp
    rw [hgraph] at hobj
    rw [h.objSz] at hobj
    exact hobj (h.empty ha hl (h.isRep (Graph.isRep_rep ..)) hp).1
  · exact fun {C _} hC ht hs hlt => ⟨.gep hC ht hs.1 hlt, hdest C hC⟩
  · intro m n o hmn hm
    refine ⟨.same hmn hm.1, ?_⟩
    rw [hgraph] at hmn
    exact hmn ▸ hm.2

theorem Anders.Objects.rewritten (h : a.Objects)
    (hrw : (a.system func).Rewritten (b.system func) a.rep b.rep) (hsize : b.size = a.size) :
    b.Objects := by
  have hsz : ∀ n, (b.nodes n).objSz = (a.nodes n).objSz := fun n => congrFun hrw.size n
  refine ⟨hsize ▸ h.size, fun o k hk => ?_, fun C hC ht => ?_, (hsz _).trans h.pointer⟩
  · rw [hsz] at hk ⊢
    exact h.block o k hk
  · obtain ⟨C0, hC0, hal, -⟩ := hrw.origin hC
    have ht0 : C0.type = .addrOf := hal.type.symm.trans ht
    rw [hal.addr ht0, hsz, hsize]
    exact h.addr C0 hC0 ht0

theorem PeMerged.pass (h : PeMerged a func o b) (ha : a.HvnReady func)
    (hl : OffGraph.Labels a func o)
    (hrep : ∀ C ∈ a.constraints, a.isRep C.dest = true ∧ a.isRep C.src = true) :
    HvnPass a func (b.rewrite (a.constraints.filter fun C => ¬ touchesNonptr b C)
      (a.icallCons.filter fun CI => ¬ touchesNonptr b CI.1)) := by
  have hls : ∀ e, e ∈ a.icallCons.filter (fun CI => ¬ touchesNonptr b CI.1) ↔
      e ∈ a.icallCons ∧ touchesNonptr b e.1 = false := fun e => by simp [List.mem_filter]
  have hrw : (a.system func).Rewritten ((b.rewrite (a.constraints.filter fun C => ¬ touchesNonptr b C)
      (a.icallCons.filter fun CI => ¬ touchesNonptr b CI.1)).system func) a.rep b.rep := by
    refine Anders.rewritten h.coarser h.objSz ha.calls (fun C hC => (mem_kept.mp hC).1)
      (fun e he => ((hls e).mp he).1) (fun e he hC => (hls e).mpr ⟨he, (mem_kept.mp hC).2⟩)
      fun C hC => ?_
    by_cases hp : touchesNonptr b C = true
    · exact .inr (h.idle ha hl hC (hrep C hC) hp)
    · exact .inl (mem_kept.mpr ⟨hC, Bool.not_eq_true _ ▸ hp⟩)
  refine ⟨hrw, h.equal, fun n hn hp => (h.empty ha hl hn hp).2, fun hreps => ?_⟩
  have hobjects := ha.objects.rewritten hrw h.size
  refine ⟨hobjects, hreps, ha.calls.rewrite (fun e he => ((hls e).mp he).1) fun e he => ?_,
    fun n hn hp => ?_, h.hv⟩
  · obtain ⟨hmem, hp⟩ := (hls e).mp he
    exact mem_kept.mpr ⟨(ha.calls _ (a.icallCons.tagged_iff.mpr ⟨e, hmem, rfl⟩)).1, hp⟩
  · refine ⟨(h.objSz n).trans (h.empty ha hl (h.isRep hn) hp).1, fun v hf => ?_⟩
    have hfalse := h.flow_pointer ha hl hobjects hreps rfl
      (fun C hC => h.pointers (fun C hC => (hrep C hC).1) (fun C hC => mem_kept.mp hC) hC) hf
    have hself : b.rep n = n := rep_eq_self.mpr hn
    change (b.nodes n).nonptr = true at hp
    rw [hself, hp] at hfalse
    exact Bool.noConfusion hfalse

theorem hvn_pass (doUnion : Bool) (ha : a.HvnReady func) (hrun : hvn doUnion a = .ok b) :
    HvnPass a func b := by
  obtain ⟨o, hn, hrun⟩ := bind_ok.mp hrun
  obtain ⟨g, he, hrun⟩ := bind_ok.mp hrun
  obtain ⟨o', hs, hrun⟩ := bind_ok.mp hrun
  have hl : OffGraph.Labels a func o' := hvnSearch_labels doUnion ha.objects ha.reps hn he hs
  have hg := OffGraph.graphs ha.objects.pointer hn he
  obtain ⟨⟨c, T⟩, hloop, hrun⟩ := bind_ok.mp hrun
  cases hrun
  have hc := ((spec_foldlM_keeps (P := fun t : Anders × PeNodes =>
    PeMerged a func o' t.1 ∧ PeTable o' t.1 t.2) ⟨PeMerged.start ha.hv, fun _ _ h => by simp at h⟩
    fun i _ t ht => mergeOne_spec hl ht i).result hloop).1
  have hpass := hc.pass ha hl fun C hC => (hg.ends hC).rep
  have hframe : c = { a with toGraph := c.toGraph } := hc.frame
  have hcons : c.constraints = a.constraints := by rw [hframe]
  have hicall : c.icallCons = a.icallCons := by rw [hframe]
  rw [hcons, hicall]
  exact hpass

/-! ## Several passes -/

/-- One pass of either kind over a state whose objects are represented by objects. Where it merges
the constraint of an indirect call with another one, that one is of an indirect call, too. -/
structure HvnStep (func : Nat → Prop) (a b : Anders) : Prop where
  reps : a.ObjectReps
  run : ∃ doUnion, hvn doUnion a = .ok b
  apart : (a.system func).Apart (b.system func) b.rep

/-- The passes of `hr` follow each other. -/
theorem hr_passes {doUnion : Bool} {minDel : Nat} : ∀ {fuel : Nat} {a b : Anders},
    hr doUnion minDel fuel a = .ok b →
      Relation.ReflTransGen (fun x y => hvn doUnion x = .ok y) a b
  | 0, _, _, hrun => absurd hrun (by simp [hr])
  | fuel + 1, a, b, hrun => by
      obtain ⟨a', ha', hrest⟩ := bind_ok.mp hrun
      split at hrest
      · exact .head ha' (hr_passes hrest)
      · cases hrest
        exact .single ha'

theorem HvnStep.pass (hs : HvnStep func a b) (ha : a.ObjectReps → a.HvnReady func) :
    HvnPass a func b :=
  hs.run.elim fun u hrun => hvn_pass u (ha hs.reps) hrun

theorem HvnPass.storesReach (h : HvnPass a func b)
    (hapart : (a.system func).Apart (b.system func) b.rep) (hs : a.StoresReach func) :
    b.StoresReach func := by
  intro C' hC' ht h0
  obtain ⟨C, hC, hal, -⟩ := h.rewritten.origin hC'
  obtain ⟨o, ho, hne⟩ := hs C hC (hal.type.symm.trans ht) (hal.off.symm.trans h0)
  exact ⟨o, .same hal.dest.symm (h.rewritten.sound hapart ho), hne⟩

/-- What a number of passes keeps; objects need not be represented by objects at the end. -/
structure HvnSteps (func : Nat → Prop) (a b : Anders) : Prop where
  ready : b.ObjectReps → b.HvnReady func
  coarser : ∀ {x y}, a.rep x = a.rep y → b.rep x = b.rep y
  sound : ∀ {n o}, a.Flow func n o → b.Flow func n o
  precise : a.StoresReach func → b.StoresReach func ∧ ∀ {n o}, b.Flow func n o → a.Flow func n o

theorem hvnSteps (ha : a.HvnReady func) (h : Relation.ReflTransGen (HvnStep func) a b) :
    HvnSteps func a b := by
  induction h with
  | refl => exact ⟨fun _ => ha, id, id, fun hs => ⟨hs, id⟩⟩
  | @tail b c _ hbc ih =>
      have hpass := hbc.pass ih.ready
      refine ⟨hpass.ready, fun hxy => hpass.rewritten.coarser (ih.coarser hxy),
        fun hf => hpass.rewritten.sound hbc.apart (ih.sound hf), fun hs => ?_⟩
      obtain ⟨hsb, hba⟩ := ih.precise hs
      exact ⟨hpass.storesReach hbc.apart hsb,
        fun hf => hba (hpass.rewritten.precise (hpass.equal hsb) hf)⟩

/-- Any number of passes of value numbering loses nothing of the least solution. What is marked as
a non-pointer at the end stands for nodes that point to nothing. -/
theorem hvnSteps_sound (ha : a.HvnReady func) (h : Relation.ReflTransGen (HvnStep func) a b) :
    (∀ n o, a.Flow func n o → b.Flow func n o) ∧
      (b.ObjectReps → ∀ n, (b.nodes (b.rep n)).nonptr = true →
        ∀ o, ¬ a.Flow func n o) := by
  have hs := hvnSteps ha h
  refine ⟨fun n o => hs.sound, fun hreps n hp o hf => ?_⟩
  have hempty := ((hs.ready hreps).nonptr _ (b.toGraph.isRep_rep n) hp).2
  exact hempty o (.same (b.toGraph.rep_rep n).symm (hs.sound hf))

/-- `p = &x; q = p; r = p; *p = q; s = *q` -/
def copiedTwice : Anders :=
  .initial 8 3 (fieldlessObjects 3) [⟨.addrOf, 4, 3, 0⟩, ⟨.copy, 5, 4, 0⟩, ⟨.copy, 6, 4, 0⟩,
    ⟨.store, 4, 5, 0⟩, ⟨.load, 7, 5, 0⟩]

theorem copiedTwice_ready : copiedTwice.HvnReady fun _ => False := by
  have hnode := fieldlessObjects_node 3
  refine ⟨⟨by decide, fun o k hk => fieldlessObjects_inner hk, by decide, rfl⟩, fun _ => id,
    fun C hC => absurd hC (IcallCons.not_tagged_nil C), fun n _ hn => ?_, fun _ => rfl⟩
  change (fieldlessObjects 3 n).nonptr = true at hn
  rw [(hnode n).1] at hn
  exact Bool.noConfusion hn

theorem copiedTwice_pointer : copiedTwice.Flow (fun _ => False) 4 3 :=
  .addr (C := ⟨.addrOf, 4, 3, 0⟩) (List.mem_cons_self ..) rfl

/-- One pass puts `p`, `q` and `r` into one set. -/
theorem copiedTwice_step :
    ∃ b : Anders, HvnStep (fun _ => False) copiedTwice b ∧ b.rep 5 = 4 ∧ b.rep 6 = 4 := by
  have hrun : (hvn false copiedTwice).toOption.any
      (fun b => decide (b.rep 5 = 4 ∧ b.rep 6 = 4)) = true := by decide +kernel
  cases hb : hvn false copiedTwice with
  | error e =>
      rw [hb] at hrun
      cases hrun
  | ok b =>
      rw [hb] at hrun
      refine ⟨b, ⟨copiedTwice_ready.reps, ⟨false, hb⟩, ?_⟩, of_decide_eq_true hrun⟩
      exact (hvn_pass false copiedTwice_ready hb).rewritten.apart IcallCons.not_tagged_nil

theorem hvnSteps_sound_copies : ∃ b : Anders, b.rep 5 = 4 ∧ b.Flow (fun _ => False) 6 3 := by
  obtain ⟨b, hstep, h5, -⟩ := copiedTwice_step
  have hmem : (⟨.copy, 6, 4, 0⟩ : Constraint) ∈ copiedTwice.constraints := by decide
  have hflow : copiedTwice.Flow (fun _ => False) 6 3 :=
    System.Flow.copy (C := ⟨.copy, 6, 4, 0⟩) hmem rfl copiedTwice_pointer
  exact ⟨b, h5, (hvnSteps_sound copiedTwice_ready (.single hstep)).1 6 3 hflow⟩

/-- Where every pointer that is stored through points to something, the passes change nothing:
the answers are the same, and merged nodes had equal sets. -/
theorem hvnSteps_exact (ha : a.HvnReady func) (hs : a.StoresReach func)
    (h : Relation.ReflTransGen (HvnStep func) a b) :
    (∀ n o, b.Flow func n o ↔ a.Flow func n o) ∧
      ∀ x y, b.rep x = b.rep y → ∀ o, a.Flow func x o ↔ a.Flow func y o := by
  have hk := hvnSteps ha h
  have hflow : ∀ n o, b.Flow func n o ↔ a.Flow func n o := fun n o =>
    ⟨(hk.precise hs).2, hk.sound⟩
  refine ⟨hflow, fun x y hxy o => ?_⟩
  rw [← hflow, ← hflow]
  exact ⟨.same hxy, .same hxy.symm⟩

theorem hvnSteps_exact_copies : ∃ b : Anders, b.rep 5 = 4 ∧ ∀ o, b.Flow (fun _ => False) 6 o ↔
    copiedTwice.Flow (fun _ => False) 5 o := by
  obtain ⟨b, hstep, h5, h6⟩ := copiedTwice_step
  have hs : copiedTwice.StoresReach fun _ => False := fun C hC ht _ => by
    have hdest : ∀ C ∈ copiedTwice.constraints, C.type = .store → C.dest = 4 := by decide
    rw [hdest C hC ht]
    exact ⟨3, copiedTwice_pointer, by decide⟩
  obtain ⟨hflow, hequal⟩ := hvnSteps_exact copiedTwice_ready hs (.single hstep)
  exact ⟨b, h5, fun o => (hflow 6 o).trans (hequal 6 5 (h6.trans h5.symm) o)⟩

end PtrAnalysis
