import PtrAnalysis.Bounds
import PtrAnalysis.Serve

/-!
# A visit loses nothing

The passes over the constraints of a node serve all of them (`Passing.pass`), the
propagation behind them serves its copy edges. What the start of a visit owes is paid
by the push of the collapsed set. So a visit takes an intact state to an intact one,
provided that no cascade of merges starts from an empty points-to set.
-/

namespace PtrAnalysis

open Run PtrAnalysis.Graph

theorem icallOf_untagged {a : Anders} (h : a.icallCons = []) (n : Nat) (C0 C : Constraint) :
    icallOf a n C0 C = (none, []) := by
  unfold icallOf
  rw [h]
  split
  · rfl
  · rfl

theorem Plain.acts_ne {b : Anders} {call : Prop} {C : Constraint} {o : Nat} (hb : Plain b)
    (hoff : C.off ≠ 0 → C.off ∈ validOff b.constraints) (h : b.Acts call C o) : o + C.off ≠ i2p := by
  by_cases h0 : C.off = 0
  · rw [h0]
    exact h.1
  · have ho : o ≠ 0 := fun he => hb.null C.off (hoff h0) (he ▸ (h.2.resolve_left h0).1)
    unfold i2p
    omega

section

variable {W : Type} [Worklist W] [LawfulWorklist W] {M : Module} {b : Anders} {v r : Nat}
  {d : Finset Nat} {A : Set Nat} {tys : List ConsType} {s s' : Solver W} {C : Constraint}

/-! ## The passes over the constraints -/

/-- A demanded edge is there afterwards. -/
theorem Grows.demanded {D : Demand} {owed : Nat → Prop} (hg : Grows M D owed s s') {x y : Nat}
    (hD : D.edge (s.rep x) (s.rep y)) (hx : s.rep x ≠ i2p) (hy : s.rep y ≠ i2p) : s'.Edge x y := by
  unfold Graph.Edge
  rw [hg.rep]
  by_cases hxy : s.rep x = s.rep y
  · exact .inl hxy
  · exact .inr ⟨s.rep y, hg.copy_all _ _ hD ⟨hx, hy, hxy⟩, rep_rep ..⟩

/-- A constraint over representatives of which none is `i2p`, with an offset of the tables. -/
structure Tidy (b : Anders) (s : Solver W) (C : Constraint) : Prop where
  off : C.off ≠ 0 → C.off ∈ validOff b.constraints
  dest : s.rep C.dest = C.dest
  src : s.rep C.src = C.src
  dest_ne : C.dest ≠ i2p
  src_ne : C.src ≠ i2p

theorem Serving.tidy {C0 : Constraint} (h : Serving M b v r d A tys s) (hb : Plain b)
    (hC0 : C0 ∈ s.cplxCons) : Tidy b s (PtrAnalysis.rewrite s.toAnders C0) := by
  obtain ⟨C, hC, hcplx, hsame⟩ := h.covers.origin C0 hC0
  obtain ⟨hdest, hsrc, -⟩ := hb.proper C hC
  have haddr : C.type ≠ .addrOf := fun ht => by simp [Constraint.complex, ht] at hcplx
  refine ⟨fun h0 => mem_validOff.mpr ⟨h0, C, hC, hsame.off.symm⟩, rep_rep .., rep_rep ..,
    fun he => hdest ?_, fun he => hsrc haddr ?_⟩
  · exact (h.sound.apart (.inr rfl)).mp (hsame.dest.symm.trans he)
  · exact (h.sound.apart (.inr rfl)).mp (hsame.src.symm.trans he)

omit [Worklist W] [LawfulWorklist W] in
/-- A load or store that is handled for the first time demands the edge for every pointee
it acts on. -/
theorem handleDemand_acts {load : Bool} {seen : List Constraint} {o x y : Nat}
    (htables : SameTables b s.toAnders) (hnew : C ∉ seen) (ho : o ∈ d)
    (ha : b.Acts False C o) (hmerged : r ≠ 0 → s.rep o = r)
    (hD : (lsDemand load C.dest C.src (s.rep (o + C.off))).edge x y) :
    (handleDemand M s.toAnders r d seen load C none).edge x y := by
  unfold handleDemand
  rw [if_neg hnew]
  split
  · rename_i hh
    rw [hh.2, Nat.add_zero, hmerged hh.1] at hD
    exact hD
  · split
    · rename_i h0
      obtain ⟨hm, hf⟩ := ha.2.resolve_left h0
      have hfunc : o ∉ s.funcNodeSet := by
        rw [htables.func]
        exact (hf.resolve_left fun h => h.1).2
      refine ⟨o, mem_ascending.mpr ?_, ?_⟩
      · rw [offPointees, htables.offMask]
        exact Finset.mem_inter.mpr ⟨ho, hm⟩
      · simp only [lsOffDemand, if_neg hfunc]
        exact hD
    · rename_i h0
      rw [not_not.mp h0, Nat.add_zero] at hD
      exact ⟨o, mem_ascending.mpr ho, hD⟩

/-- A load or store that is handled for the first time is served. -/
theorem Serving.handled {seen : List Constraint} {t : Solver W × List Constraint × Bool}
    (h : Serving M b v r d A tys s) (hb : Plain b) (htype : C.type = .load ∨ C.type = .store)
    (htidy : Tidy b s C)
    (hu : Handled M r d seen (decide (C.type = .load)) C none s t) (hnew : C ∉ seen) :
    Served M b d t.1 C := by
  intro o ho
  have hacts : b.Acts (b.icallCons.Tagged C) C o → b.Acts False C o := fun ha => by
    rwa [show b.icallCons.Tagged C = False from eq_false (hb.not_tagged C)] at ha
  have hne : b.Acts (b.icallCons.Tagged C) C o → s.rep (o + C.off) ≠ i2p := fun ha he =>
    hb.acts_ne htidy.off ha ((h.sound.apart (.inr rfl)).mp he)
  have hmerged : b.Acts (b.icallCons.Tagged C) C o → r ≠ 0 → s.rep o = r := fun ha hr =>
    h.merged hr o ho ha.1
  refine hb.met ⟨fun ht ha => ?_, fun ht ha _ => ?_, fun ht => ?_⟩
  · refine hu.grows.demanded (handleDemand_acts h.sound.tables hnew ho (hacts ha) (hmerged ha) ?_)
      (hne ha) (htidy.dest.symm ▸ htidy.dest_ne)
    rw [ht, htidy.dest]
    exact ⟨rfl, rfl⟩
  · refine hu.grows.demanded (handleDemand_acts h.sound.tables hnew ho (hacts ha) (hmerged ha) ?_)
      (htidy.src.symm ▸ htidy.src_ne) (hne ha)
    rw [ht, htidy.src]
    exact ⟨rfl, rfl⟩
  · rcases htype with h | h <;> rw [h] at ht <;> cases ht

/-- If the pointees are collapsed, their set has the edge of a load or store without offset
once it was handled. -/
theorem Serving.redundant {seen : List Constraint} {t : Solver W × List Constraint × Bool}
    (h : Serving M b v r d A tys s) (htype : C.type = .load ∨ C.type = .store)
    (htidy : Tidy b s C) (hptr : s.rep C.ptr = v)
    (hu : Handled M r d seen (decide (C.type = .load)) C none s t) (hnew : C ∉ seen)
    (hr : r ≠ 0) (hoff : C.off = 0) : Carried t.1 C := by
  have hv : s.isRep v = true := hptr ▸ isRep_rep ..
  obtain ⟨htarget, hrep⟩ := (h.target hv).resolve_left fun hn => hr hn.2
  have hdem : ∀ x y, (lsDemand (decide (C.type = .load)) C.dest C.src r).edge x y →
      (handleDemand M s.toAnders r d seen (decide (C.type = .load)) C none).edge x y := by
    intro x y hD
    unfold handleDemand
    rw [if_neg hnew, if_pos ⟨hr, hoff⟩]
    exact hD
  have hhv : t.1.hv v = s.hv v := hu.grows.sameLists.hv v hv
  have hptr' : t.1.rep C.ptr = v := by rw [hu.grows.rep, hptr]
  refine ⟨hoff, htype, ?_, ?_⟩
  · rw [hptr', hhv]
    exact htarget
  · rw [hptr', hhv, hu.grows.rep, hrep]
    by_cases hi : r = i2p
    · exact .inl hi
    · refine .inr ⟨fun ht => ?_, fun ht => ?_⟩
      · refine hu.grows.demanded (hdem _ _ ?_) (hrep.symm ▸ hi) (htidy.dest.symm ▸ htidy.dest_ne)
        rw [ht, htidy.dest, hrep]
        exact ⟨rfl, rfl⟩
      · refine hu.grows.demanded (hdem _ _ ?_) (htidy.src.symm ▸ htidy.src_ne) (hrep.symm ▸ hi)
        rw [ht, htidy.src, hrep]
        exact ⟨rfl, rfl⟩

theorem LsPassStep.passing {ty : ConsType} {drop : Nat → Node → Node} {cid : Nat} {rest : List Nat}
    {t t' : Solver W × List Constraint} (hstep : LsPassStep M drop v r d cid t t') (hb : Plain b)
    (hdrop : Drops ty drop) (h : Passing M b v r d A tys ty (cid :: rest) t.2 t.1) :
    Passing M b v r d A tys ty rest t'.2 t'.1 := by
  obtain ⟨C0, C, I, u, hu, rfl⟩ := hstep
  have hicall := icallOf_untagged h.untagged v C0 C
  have hI : I = none := by rw [hu.tag, hicall]
  have hhand := hu.handled
  have htype : C.type = .load ∨ C.type = .store := hu.rewritten ▸ hu.type
  rw [hI, hicall, show C0.type = C.type from hu.rewritten ▸ rfl] at hhand
  have htidy := h.toServing.tidy hb (List.mem_of_getElem? hu.get)
  have hset : Serving M b v r d A tys { t.1 with
      cplxCons := t.1.cplxCons.set cid (rewrite t.1.toAnders C0), icallCons := [] } :=
    h.toServing.rewrite hu.get rfl
  rw [← hu.rewritten] at htidy hset
  have hrep : t.1.rep C.ptr = v := by
    rw [hu.ptr, rep_eq_self, ← hu.ptr, hu.rewritten, show (rewrite t.1.toAnders C0).ptr =
      t.1.rep C0.ptr from by unfold Constraint.ptr rewrite; cases C0.type <;> rfl]
    exact isRep_rep ..
  have hv : t.1.isRep v = true := hrep ▸ isRep_rep ..
  have hr : r ≠ 0 → t.1.rep r = r := fun hr => by
    obtain ⟨-, he⟩ := (h.target hv).resolve_left fun hn => hr hn.2
    rw [← he, rep_rep]
  have hD := (handleDemand_edge (M := M) (p := fun y => t.1.rep y = y) t.2 (decide (C.type = .load))
    none hr (fun x _ => rep_rep ..) htidy.dest (fun _ x _ _ => rep_rep ..)
    (a := t.1.toAnders) (d := d)).1
  have hpass := h.pass hb hdrop hu.get hu.rewritten rfl hhand.grows hD
    (fun hnew _ => hset.handled hb htype ⟨htidy.1, htidy.2, htidy.3, htidy.4, htidy.5⟩ hhand hnew)
    fun hred : u.2.2 = true => ?_
  · rw [← hhand.seen_eq] at hpass
    exact hpass
  · by_cases hseen : C ∈ t.2
    · exact .inl hseen
    · obtain ⟨hr, hoff⟩ := (hhand.redundant.mp hred).resolve_left hseen
      exact .inr (hset.redundant htype ⟨htidy.1, htidy.2, htidy.3, htidy.4, htidy.5⟩ hrep hhand hseen hr hoff)

omit [Worklist W] [LawfulWorklist W] in
theorem gepImage_mono {geps : List (Finset (Nat × Nat))} {off : Nat} {x y : Finset Nat} (h : x ⊆ y) :
    gepImage geps off x ⊆ gepImage geps off y :=
  Finset.image_subset_image (Finset.monotone_filter_right _ fun _ _ hp => h hp)

theorem GepPassStep.passing {drop : Nat → Node → Node} {cid : Nat} {rest : List Nat}
    {t t' : Solver W × List Constraint} (hstep : GepPassStep M drop v d cid t t') (hb : Plain b)
    (hdrop : Drops .gep drop) (h : Passing M b v r d A tys .gep (cid :: rest) t.2 t.1) :
    Passing M b v r d A tys .gep rest t'.2 t'.1 := by
  obtain ⟨C0, C, u, hu, rfl⟩ := hstep
  have hgep : C.type = .gep := by rw [hu.rewritten]; exact hu.type
  have hptr : C.ptr = v := by
    unfold Constraint.ptr
    rw [hgep]
    exact hu.ptr
  have hdest : t.1.rep C.dest = C.dest := by rw [hu.rewritten]; exact rep_rep ..
  have hD : ∀ x y, (if C ∈ t.2 then Demand.nothing else .facts C.dest (gepImage t.1.geps C.off d)).edge
      x y → t.1.rep y = y := by
    intro x y hD
    split at hD
    · exact hD.elim
    · exact hD.elim
  have hserved : C ∉ t.2 → C.type = .gep → Served M b d u.1 C := by
    intro hnew _ o ho
    have hg := hu.grows
    rw [if_neg hnew] at hg
    refine hb.met ⟨fun ht => ?_, fun ht => ?_, fun _ o' ho' => ?_⟩
    · rw [hgep] at ht
      cases ht
    · rw [hgep] at ht
      cases ht
    · rw [hg.rep, show _ = C.dest from hdest]
      refine hg.facts _ _ ⟨rfl, gepImage_mono (Finset.singleton_subset_iff.mpr ho) ?_⟩
      rw [h.sound.tables.geps]
      exact ho'
  have hpass := h.pass hb hdrop hu.get hu.rewritten h.untagged hu.grows hD hserved
    fun hred : u.2.2 = true => .inl (hu.redundant.mp hred)
  rw [← hu.seen_eq] at hpass
  exact hpass

/-- A loop whose passes keep what holds between them. -/
theorem Passing.loop {ty : ConsType} {R : Nat → Solver W × List Constraint →
      Solver W × List Constraint → Prop} {l : List Nat} {t t' : Solver W × List Constraint}
    (hstep : ∀ {cid rest t t'}, R cid t t' → Passing M b v r d A tys ty (cid :: rest) t.2 t.1 →
      Passing M b v r d A tys ty rest t'.2 t'.1)
    (hc : Chain R l t t') (h : Passing M b v r d A tys ty l t.2 t.1) :
    Passing M b v r d A tys ty [] t'.2 t'.1 := by
  induction hc with
  | nil => exact h
  | cons hR _ ih => exact ih (hstep hR h)

/-! ## The visit behind its collapse -/

/-- Nothing was lost so far, but what is owed to the sets of `A`. -/
structure Intact (M : Module) (b : Anders) (A : Set Nat) (s : Solver W) : Prop where
  sound : Sound M b 0 ∅ A s
  covers : Covers b s
  untagged : s.icallCons = []

/-- The loops over the constraints serve all of them. -/
theorem VisitSteps.serving {s1 s2 s3 : Solver W} (h : VisitSteps M v r d s s1 s2 s3 s')
    (hb : Plain b) (hs : Serving M b v r d A [] s) :
    Serving M b v r d A [.gep, .store, .load] s3 := by
  obtain ⟨seen1, hloads⟩ := h.loads
  obtain ⟨seen2, hstores⟩ := h.stores
  obtain ⟨seen3, hgeps⟩ := h.geps
  have h1 := Passing.loop (fun hR hp => hR.passing hb dropLoad_drops hp) hloads
    (hs.passing hb .load)
  have h2 := Passing.loop (fun hR hp => hR.passing hb dropStore_drops hp) hstores
    (h1.finish.passing hb .store)
  have h3 := Passing.loop (fun hR hp => hR.passing hb dropGep_drops hp) hgeps
    (h2.finish.passing hb .gep)
  exact h3.finish

/-- The propagation serves the copy edges, and the visit is over. -/
theorem VisitSteps.intact {s1 s2 s3 : Solver W} (h : VisitSteps M v r d s s1 s2 s3 s')
    (hb : Plain b) (hs : Serving M b v r d A [] s) : Intact M b A s' := by
  obtain ⟨hnoedge, hnoext⟩ :
      (∀ x y, ¬ (propDemand s3.rep v d (ascending (s3.nodes v).copyTo)).edge x y) ∧
        ∀ p, ¬ (propDemand s3.rep v d (ascending (s3.nodes v).copyTo)).ext p := propDemand_only
  have hend := (h.serving hb hs).grows h.prop fun x y hD => absurd hD (hnoedge x y)
  refine ⟨hend.sound.finish (fun hv e he => ?_) fun C hC hcplx hptr => ?_, hend.covers, hend.untagged⟩
  · -- propagation adds no edges
    have hold : e ∈ (s3.nodes v).copyTo := by
      rcases h.prop.copy_new v e he with hold | ⟨hm, -⟩
      · exact hold
      · rcases hm with hD | ⟨p, hD, -⟩
        · exact absurd hD (hnoedge v e)
        · exact absurd hD (hnoext p)
    rw [h.prop.rep]
    by_cases hself : s3.rep e = v
    · rw [hself]
      exact hend.part hv
    · exact fun o ho => h.prop.facts _ o
        (propDemand_fact.mpr ⟨ho, e, mem_ascending.mpr hold, rfl, hself⟩)
  · refine hend.done C hC hcplx ?_ hptr
    cases hty : C.type
    · simp [Constraint.complex, hty] at hcplx
    · simp [Constraint.complex, hty] at hcplx
    · simp
    · simp
    · simp

/-! ## The start of a visit -/

omit [Worklist W] [LawfulWorklist W] in
theorem MergeRun.mergeable {g g' : Graph} {n1 n2 r : Nat} (h : MergeRun g n1 n2 g' r) :
    Mergeable g n1 n2 := by
  cases h with
  | plain hm => exact hm
  | adopt hm => exact hm
  | same hm => exact hm
  | cascade hm => exact hm

/-- While the pointees `d` of `n` are collapsed into the target of `n`, whose set `r`
represents; those in `rest` are still to come. What is in `E` is owed a visit anyway. -/
structure Gathering (M : Module) (b : Anders) (E : Set Nat) (n : Nat) (d : Finset Nat)
    (rest : List Nat) (t : Solver W × Nat) : Prop where
  sound : ∃ A : Set Nat, E ⊆ A ∧ Sound M b n d A t.1 ∧ ∀ m ∈ A, m ∈ E ∨ t.1.rep m = t.2
  covers : Covers b t.1
  untagged : t.1.icallCons = []
  part : t.1.isRep n = true → d ⊆ t.1.pts n
  target : t.1.isRep n = true → t.1.hv n ≠ 0 ∧ t.1.rep (t.1.hv n) = t.2
  merged : ∀ o ∈ d, o ≠ i2p → t.1.rep o = t.2 ∨ o ∈ rest

variable {n x0 : Nat} {rest : List Nat} {t t' : Solver W × Nat} {E : Set Nat}

theorem CollapseStep.gathering (hstep : CollapseStep x0 t t')
    (hcasc : Watched E t'.1.toGraph) (h : Gathering M b E n d (x0 :: rest) t) :
    Gathering M b E n d rest t' := by
  obtain ⟨A, hE, hsound, hA⟩ := h.sound
  cases hstep with
  | @skip s r hx =>
      refine { h with merged := fun o ho hi => ?_ }
      rcases h.merged o ho hi with hrep | hin
      · exact .inl hrep
      · rcases List.mem_cons.mp hin with rfl | hin
        · exact .inl (hx.resolve_right fun he => hi ((hsound.apart (.inr rfl)).mp he))
        · exact .inr hin
  | @merge s r r' g hx hrun =>
      have hco := hrun.spec.1
      have hto : ∀ m, s.rep m = r → g.rep m = r' := fun m hm =>
        (hco.rep (hm.trans (rep_eq_self.mpr hrun.mergeable.isRep.1).symm)).trans hrun.spec.2.1
      have hall : Watched A g := fun he =>
        Set.univ_subset_iff.mp (hcasc he ▸ hE)
      refine ⟨⟨insert r A, hE.trans (Set.subset_insert _ _), hrun.sound hall hsound,
        fun m hm => ?_⟩, hrun.covers h.covers, h.untagged, fun hn => ?_, fun hn => ?_,
        fun o ho hi => ?_⟩
      · rcases hm with rfl | hm
        · exact .inr hrun.spec.2.1
        · exact (hA m hm).imp_right (hto m)
      · have hpts := hco.pts n
        rw [rep_eq_self.mpr (hco.isRep hn), show g.rep n = n from rep_eq_self.mpr hn] at hpts
        exact (h.part (hco.isRep hn)).trans hpts
      · obtain ⟨hv, hrep⟩ := h.target (hco.isRep hn)
        obtain ⟨hv', hrep'⟩ := hrun.target (hco.isRep hn) hv
        rw [show g.rep n = n from rep_eq_self.mpr hn] at hv' hrep'
        exact ⟨hv', hrep'.trans (hto _ hrep)⟩
      · rcases h.merged o ho hi with hrep | hin
        · exact .inl (hto o hrep)
        · rcases List.mem_cons.mp hin with rfl | hin
          · exact .inl ((hco.rep (rep_rep s.toGraph o)).symm.trans hrun.spec.2.2.1)
          · exact .inr hin

omit [Worklist W] [LawfulWorklist W] in
theorem CollapseStep.cascades (hstep : CollapseStep x0 t t') : t.1.cascades ⊆ t'.1.cascades := by
  cases hstep with
  | skip _ => exact List.Subset.refl _
  | merge _ hrun => exact hrun.spec.1.cascades

omit [Worklist W] [LawfulWorklist W] in
theorem collapse_cascades {l : List Nat} (hc : Chain CollapseStep l t t') :
    t.1.cascades ⊆ t'.1.cascades := by
  induction hc with
  | nil => exact List.Subset.refl _
  | cons hR _ ih => exact List.Subset.trans hR.cascades ih

theorem collapse_gathering {l : List Nat} (hc : Chain CollapseStep l t t')
    (hcasc : Watched E t'.1.toGraph) (h : Gathering M b E n d l t) :
    Gathering M b E n d [] t' := by
  induction hc with
  | nil => exact h
  | cons hR hrest ih =>
      exact ih hcasc (hR.gathering (fun he => hcasc (collapse_cascades hrest he)) h)

omit [Worklist W] [LawfulWorklist W] in
theorem visitStart_sameLists (s : Solver W) (n : Nat) : SameLists s (visitStart s n) where
  rep := rfl
  hv _ _ := rfl
  edge {x y} hxy := by
    unfold Graph.Edge at hxy ⊢
    rw [visitStart_copyTo]
    exact hxy
  list m t := by
    rw [visitStart_node]
    split
    · rename_i hm
      rw [hm]
      cases t <;> rfl
    · rfl

omit [Worklist W] [LawfulWorklist W] in
/-- Without a target a collapse does nothing. -/
theorem CollapseRun.untargeted (hc : CollapseRun n d s t) (hv : s.hv n = 0) (h0 : s.rep 0 = 0) :
    t = (s, 0) := by
  rcases hc with ⟨-, ht⟩ | ⟨h, hh, hc⟩
  · exact ht
  · have hz : h = 0 := by
      unfold Graph.hv at hv
      rwa [hh] at hv
    rw [hz, h0] at hc
    refine hc.inv (P := fun t => t = (s, 0)) (fun x0 _ c c' hR hc' => ?_) rfl
    subst hc'
    cases hR with
    | skip _ => rfl
    | merge _ hrun => exact absurd rfl hrun.mergeable.valid1.1

/-- A collapse merges the new pointees into the target of `n`. -/
theorem CollapseRun.gathering (hc : CollapseRun n d s t) (hv : s.hv n ≠ 0)
    (hcasc : Watched E t.1.toGraph)
    (h : Gathering M b E n d (ascending d) (s, s.rep (s.hv n))) : Gathering M b E n d [] t := by
  rcases hc with ⟨hnone, -⟩ | ⟨h', hh, hc⟩
  · unfold Graph.hv at hv
    rw [hnone] at hv
    exact absurd rfl hv
  · have hz : s.hv n = h' := by
      unfold Graph.hv
      rw [hh]
      rfl
    exact collapse_gathering hc hcasc (hz ▸ h)

/-- A visit starts: its constraints are still to be served, and nothing more is owed. -/
theorem StartRun.serving {s1 s2 : Solver W} (hstart : StartRun n s r d s1 s2)
    (h : Intact M b (insert n E) s) (hn : s.isRep n = true)
    (hcasc : Watched E s2.toGraph) : Serving M b n r d E [] s2 := by
  obtain ⟨wl, hwl⟩ := hstart.wl
  have hvisit : Sound M b n d (E ∪ {m | m = s.hv n ∧ s.hv n ≠ 0}) (visitStart s n) :=
    hstart.new ▸ h.sound.visitStart hn (fun m hm => hm.imp_right .inl) fun _ h0 => .inr ⟨rfl, h0⟩
  have hcovers : Covers b (visitStart s n) :=
    h.covers.sameLists (visitStart_sameLists s n) rfl
  have hpart : d ⊆ (visitStart s n).pts n := by
    rw [visitStart_pts, ← hstart.new]
    exact Finset.sdiff_subset
  by_cases hv : s.hv n = 0
  · obtain ⟨rfl, rfl⟩ := Prod.mk.inj (hstart.collapse.untargeted hv ((h.sound.apart (.inl rfl)).mpr rfl))
    have hsound : Sound M b n d E s2 :=
      hvisit.push hstart.wl hstart.pushed hstart.live fun m hm => hm.imp_right fun hm =>
        absurd hv hm.2
    subst hwl
    exact ⟨hsound, hcovers.sameLists ⟨⟨rfl, fun _ _ => rfl, id⟩, fun _ _ => rfl⟩ rfl, h.untagged,
      fun _ => hpart, fun _ => .inl ⟨hv, rfl⟩, fun hr => absurd rfl hr, fun C _ _ hC => by cases hC⟩
  · have hcasc1 : Watched E s1.toGraph := by
      rw [hwl] at hcasc
      exact hcasc
    have hend := hstart.collapse.gathering hv hcasc1
      ⟨⟨_, Set.subset_union_left, hvisit, fun m hm => hm.imp_right fun hm => by rw [hm.1]; rfl⟩,
        hcovers, h.untagged, fun _ => hpart, fun _ => ⟨hv, rfl⟩,
        fun o ho _ => .inr (mem_ascending.mpr ho)⟩
    obtain ⟨A, -, hsound, hA⟩ := hend.sound
    have hsound2 : Sound M b n d E s2 := hsound.push hstart.wl hstart.pushed hstart.live hA
    subst hwl
    exact ⟨hsound2, hend.covers.sameLists ⟨⟨rfl, fun _ _ => rfl, id⟩, fun _ _ => rfl⟩ rfl,
      hend.untagged, hend.part, fun hr => .inr (hend.target hr),
      fun _ o ho hi => (hend.merged o ho hi).resolve_right List.not_mem_nil,
      fun C _ _ hC => by cases hC⟩

/-! ## A whole visit -/

omit [Worklist W] [LawfulWorklist W] in
theorem touch_node (s : Solver W) (n m : Nat) : (touch s n).nodes m =
    if m = n then { s.nodes n with vtime := s.now } else s.nodes m := by
  simp only [touch, modify_nodes]

omit [Worklist W] [LawfulWorklist W] in
/-- A visit that finds nothing new is a visit of which nothing but the start is left. -/
theorem touch_alike (s : Solver W) (n : Nat) (hprev : s.pts n = s.prev n) :
    Alike (visitStart s n) (touch s n) := by
  have hnode : ∀ m, (touch s n).nodes m = (visitStart s n).nodes m := fun m => by
    rw [touch_node, visitStart_node]
    split
    · rw [hprev]
      rfl
    · rfl
  refine ⟨rfl, fun m => ?_, fun m => ?_, fun m => ?_, fun _ _ => rfl, rfl, rfl, rfl, rfl, rfl, rfl,
    fun m => ?_⟩
  · exact congrArg Node.pointsTo (hnode m)
  · exact congrArg Node.prevPointsTo (hnode m)
  · rw [hnode]
  · rw [hnode]

omit [Worklist W] [LawfulWorklist W] in
theorem CollapseRun.cascades (hc : CollapseRun n d s t) : s.cascades ⊆ t.1.cascades := by
  rcases hc with ⟨-, rfl⟩ | ⟨h, -, hc⟩
  · exact List.Subset.refl _
  · exact collapse_cascades hc

theorem VisitSteps.cascades {s1 s2 s3 : Solver W} (h : VisitSteps M n r d s s1 s2 s3 s') :
    s'.cascades = s.cascades := by
  obtain ⟨D, hD⟩ := h.visits
  have hframe := congrArg (fun a : Anders => a.cascades) (Grows.frame hD)
  exact hframe

/-- The history of cascades only grows. -/
theorem VisitRun.cascades (hrun : VisitRun M n s s') : s.cascades ⊆ s'.cascades := by
  cases hrun with
  | idle _ => exact List.Subset.refl _
  | full hstart hedges =>
      have h := hstart.collapse.cascades
      obtain ⟨wl, hwl⟩ := hstart.wl
      rw [hedges.cascades, hwl]
      exact h

/-- A visit loses nothing if no cascade on the way started from an empty set, or if everything
is owed a visit anyway. -/
theorem VisitRun.intact (hrun : VisitRun M n s s') (hb : Plain b) (h : Intact M b (insert n E) s)
    (hn : s.isRep n = true) (hcasc : Watched E s'.toGraph) : Intact M b E s' := by
  cases hrun with
  | idle hidle =>
      have hprev : s.pts n = s.prev n :=
        Finset.Subset.antisymm (Finset.sdiff_eq_empty_iff_subset.mp hidle) (h.sound.sub n)
      have hstart : Sound M b n (s.pts n \ s.prev n) E (visitStart s n) :=
        h.sound.visitStart hn (fun _ hm => hm) fun hnew =>
          absurd (Finset.sdiff_eq_empty_iff_subset.mp hidle) hnew
      rw [hidle] at hstart
      have hend : Sound M b 0 ∅ E (visitStart s n) := hstart.finish (fun _ _ _ => Finset.empty_subset _)
        fun _ _ _ _ o ho => absurd ho (Finset.notMem_empty o)
      have hal := touch_alike s n hprev
      have hlive : ∀ m, Live (visitStart s n) m → Live (touch s n) m := fun m hm =>
        hm.still rfl (by
          rw [touch_node, visitStart_node]
          split
          · rw [hprev]
            rfl
          · rfl)
      refine ⟨hend.alike hal (fun m _ hm => .live (hlive m hm)) fun m hm => .owed hm, ?_,
        h.untagged⟩
      refine (h.covers.sameLists (visitStart_sameLists s n) rfl).sameLists
        ⟨⟨rfl, fun _ _ => rfl, hal.further.edge⟩, fun m t => ?_⟩ rfl
      rw [touch_node, visitStart_node]
      split
      · cases t <;> rfl
      · rfl
  | full hstart hedges =>
      unfold Watched at hcasc
      rw [hedges.cascades] at hcasc
      exact hedges.intact hb (hstart.serving h hn hcasc)

end

end PtrAnalysis
