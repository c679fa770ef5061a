import PtrAnalysis.Covers

/-!
# A visit serves all constraints of its node

A visit goes over the three lists of its node. `Serving` is what holds between two
loops, `Passing` what holds between two passes of one: every constraint of the node is
satisfied for the new pointees, or waits in the rest of the list. A constraint is only
deleted if an equal one was handled in this visit, or the target of an offline cycle
has its edge. This is for systems without calls through function pointers.
-/

namespace PtrAnalysis

open Run PtrAnalysis.Graph

/-- What is left of `Accepted` when nodes were merged: only `addrOf` is about the unknown
pointer, and a GEP has an offset. -/
def Constraint.Proper (C : Constraint) : Prop :=
  C.dest ≠ i2p ∧ (C.type ≠ .addrOf → C.src ≠ i2p) ∧ (C.type = .gep → C.off ≠ 0)

instance (C : Constraint) : Decidable C.Proper := by
  unfold Constraint.Proper
  infer_instance

/-- A system without calls through function pointers: proper constraints, and a null node
without fields. -/
structure Plain (b : Anders) : Prop where
  proper : ∀ C ∈ b.constraints, C.Proper
  untagged : b.icallCons = []
  null : ∀ off ∈ validOff b.constraints, 0 ∉ b.offMask.getD off ∅

section

variable {W : Type} {M : Module} {b : Anders} {v r : Nat} {d : Finset Nat} {s s' : Solver W}
  {C C' : Constraint}

theorem Plain.not_tagged (hb : Plain b) (C : Constraint) : ¬ b.icallCons.Tagged C := by
  rw [hb.untagged]
  exact Bool.false_ne_true

theorem Plain.met (hb : Plain b) {o : Nat} (h : EdgesMet b (b.icallCons.Tagged C) s C o) :
    Met M b s C o :=
  ⟨h, fun ins hI => hb.not_tagged C (by
    unfold IcallCons.Tagged
    rw [hI]
    rfl) |>.elim⟩

/-- Constraint `C` is satisfied for all of `d`. -/
def Served (M : Module) (b : Anders) (d : Finset Nat) (s : Solver W) (C : Constraint) : Prop :=
  ∀ o ∈ d, Met M b s C o

theorem Served.congr (h : Served M b d s C) (hb : Plain b) (hc : SameCons s.rep C C') :
    Served M b d s C' := fun o ho =>
  hb.met ((h o ho).edges.congr hc (iff_of_false (hb.not_tagged C) (hb.not_tagged C')))

theorem Served.further (h : Served M b d s C) (hs : Further s s') : Served M b d s' C :=
  fun o ho => (h o ho).further hs

theorem Carried.congr (h : Carried s C) (hc : SameCons s.rep C C') : Carried s C' := by
  have hptr : s.rep C'.ptr = s.rep C.ptr := hc.ptr
  refine ⟨hc.off.trans h.off, hc.type ▸ h.type, hptr ▸ h.target, ?_⟩
  rw [hptr]
  refine h.edge.imp id fun he => ⟨fun ht => ?_, fun ht => ?_⟩
  · exact (he.1 (hc.type ▸ ht)).congr rfl hc.dest
  · exact (he.2 (hc.type ▸ ht)).congr hc.src rfl

/-- Deleting index `cid` from the list of `v` loses nothing if the constraints with that
index are covered otherwise. -/
theorem Covers.drop (h : Covers b s) (ty : ConsType) (cid : Nat) (hs : SameTargets s s')
    (hlist : ∀ n t, (s'.nodes n).list t =
      if n = v ∧ t = ty then ((s.nodes n).list t).erase cid else (s.nodes n).list t)
    (hc : s'.cplxCons = s.cplxCons)
    (hcid : ∀ C C', s.cplxCons[cid]? = some C' → SameCons s.rep C C' → C.type = ty →
      s.rep C.ptr = v → (∃ k ∈ (s.nodes v).list ty, k ≠ cid ∧ ∃ C', s.cplxCons[k]? = some C' ∧
        SameCons s.rep C C') ∨ Carried s C) : Covers b s' where
  cover C hC hcplx := by
    have hstored : ∀ {k C'}, k ∈ (s.nodes (s.rep C.ptr)).list C.type →
        ¬ (s.rep C.ptr = v ∧ C.type = ty ∧ k = cid) → s.cplxCons[k]? = some C' →
        SameCons s.rep C C' → Stored s' C := by
      intro k C' hk hne hget hsame
      refine ⟨k, ?_, C', hc ▸ hget, hs.rep ▸ hsame⟩
      rw [hs.rep, hlist]
      split
      · rename_i hvt
        exact Finset.mem_erase.mpr ⟨fun hkc => hne ⟨hvt.1, hvt.2, hkc⟩, hk⟩
      · exact hk
    rcases h.cover C hC hcplx with ⟨k, hk, C', hget, hsame⟩ | hcar
    · by_cases hhit : s.rep C.ptr = v ∧ C.type = ty ∧ k = cid
      · obtain ⟨hv, ht, rfl⟩ := hhit
        rcases hcid C C' hget hsame ht hv with ⟨k', hk', hne, C'', hget', hsame'⟩ | hcar
        · exact .inl (hstored (hv.symm ▸ ht.symm ▸ hk') (fun hh => hne hh.2.2) hget' hsame')
        · exact .inr (hcar.sameTargets hs)
      · exact .inl (hstored hk hhit hget hsame)
    · exact .inr (hcar.sameTargets hs)
  origin C' hC' := by
    rw [hc] at hC'
    rw [hs.rep]
    exact h.origin C' hC'

end

section

variable {W : Type} [Worklist W] [LawfulWorklist W] {M : Module} {b : Anders} {v r : Nat}
  {d : Finset Nat} {A : Set Nat} {tys : List ConsType} {s s' u : Solver W} {C C0 : Constraint}

theorem Grows.sameLists {D : Demand} {owed : Nat → Prop} (hg : Grows M D owed s s') :
    SameLists s s' where
  rep := hg.rep
  hv n _ := by
    have hh : s'.hcdVar = s.hcdVar := by rw [hg.frame]; rfl
    simp only [Graph.hv, hh]
  edge := hg.further.edge
  list n t := by
    have hl := congrArg (fun N : Node => N.list t) (hg.still n)
    cases t <;> exact hl

/-- Between two loops of a visit of `v` with the new pointees `d`, whose collapse gave
`r`: the constraints of the kinds `tys` are served. -/
structure Serving (M : Module) (b : Anders) (v r : Nat) (d : Finset Nat) (A : Set Nat)
    (tys : List ConsType) (s : Solver W) : Prop where
  sound : Sound M b v d A s
  covers : Covers b s
  untagged : s.icallCons = []
  part : s.isRep v = true → d ⊆ s.pts v
  target : s.isRep v = true → s.hv v = 0 ∧ r = 0 ∨ s.hv v ≠ 0 ∧ s.rep (s.hv v) = r
  merged : r ≠ 0 → ∀ o ∈ d, o ≠ i2p → s.rep o = r
  done : ∀ C ∈ b.constraints, C.complex = true → C.type ∈ tys → s.rep C.ptr = v →
    Served M b d s C

/-- A step to a state with the same partition and targets. -/
theorem Serving.step (h : Serving M b v r d A tys s) (hsound : Sound M b v d A s')
    (hcovers : Covers b s') (huntagged : s'.icallCons = []) (hs : SameTargets s s')
    (hf : Further s s') : Serving M b v r d A tys s' := by
  have hisRep : s'.isRep v = true → s.isRep v = true := fun hv => by
    rw [← rep_eq_self] at hv ⊢
    rwa [hs.rep] at hv
  refine ⟨hsound, hcovers, huntagged, fun hv => ?_, fun hv => ?_, fun hr o ho hi => ?_,
    fun C hC hcplx ht hptr => ?_⟩
  · have hsub := hf.pts v
    rw [hs.rep, rep_eq_self.mpr (hisRep hv)] at hsub
    exact (h.part (hisRep hv)).trans hsub
  · rw [hs.hv v (hisRep hv), hs.rep]
    exact h.target (hisRep hv)
  · rw [hs.rep]
    exact h.merged hr o ho hi
  · rw [hs.rep] at hptr
    exact (h.done C hC hcplx ht hptr).further hf

/-- The pointees of `v` are in the set that has the edge of a carried constraint. -/
theorem Serving.carried (h : Serving M b v r d A tys s) (hb : Plain b) (hcar : Carried s C)
    (hptr : s.rep C.ptr = v) : Served M b d s C := by
  have hv : s.isRep v = true := hptr ▸ isRep_rep ..
  have htarget : s.hv v ≠ 0 := hptr ▸ hcar.target
  intro o ho
  obtain ⟨-, hr⟩ := (h.target hv).resolve_left fun hn => htarget hn.1
  have hr0 : r ≠ 0 := fun h0 => htarget ((h.sound.apart (.inl rfl)).mp (hr.trans h0))
  have hrep : o ≠ i2p → s.rep (o + C.off) = s.rep (s.hv v) ∧
      s.rep (s.hv (s.rep C.ptr)) ≠ i2p := by
    intro hi
    rw [hcar.off, Nat.add_zero, h.merged hr0 o ho hi, hptr, hr]
    exact ⟨rfl, fun he => hi ((h.sound.apart (.inr rfl)).mp ((h.merged hr0 o ho hi).trans he))⟩
  refine hb.met ⟨fun ht ha => ?_, fun ht ha _ => ?_, fun ht => ?_⟩
  · obtain ⟨ho, hne⟩ := hrep ha.1
    exact ((hcar.edge.resolve_left hne).1 ht).congr (hptr ▸ ho) rfl
  · obtain ⟨ho, hne⟩ := hrep ha.1
    exact ((hcar.edge.resolve_left hne).2 ht).congr rfl (hptr ▸ ho)
  · rcases hcar.type with h | h <;> rw [h] at ht <;> cases ht

/-- Growth serves on. -/
theorem Serving.grows {D : Demand} (h : Serving M b v r d A tys s)
    (hg : Grows M D (fun _ => False) s s') (hD : ∀ x y, D.edge x y → s.rep y = y) :
    Serving M b v r d A tys s' := by
  have hcplx : s'.cplxCons = s.cplxCons := by rw [hg.frame]; rfl
  have hicall : s'.icallCons = s.icallCons := by rw [hg.frame]; rfl
  exact h.step (h.sound.grows hg hD) (h.covers.sameLists hg.sameLists hcplx)
    (hicall.trans h.untagged) hg.sameLists.toSameTargets hg.further

/-- Rewriting a constraint changes nothing. -/
theorem Serving.rewrite {cid : Nat} {ic : IcallCons} (h : Serving M b v r d A tys s)
    (hget : s.cplxCons[cid]? = some C0) (hic : ic = []) :
    Serving M b v r d A tys
      { s with cplxCons := s.cplxCons.set cid (PtrAnalysis.rewrite s.toAnders C0), icallCons := ic } := by
  have hal : Alike s { s with
      cplxCons := s.cplxCons.set cid (PtrAnalysis.rewrite s.toAnders C0), icallCons := ic } :=
    ⟨rfl, fun _ => rfl, fun _ => rfl, fun _ => rfl, fun _ _ => rfl, rfl,
      rfl, rfl, rfl, rfl, rfl, fun _ => rfl⟩
  have hs : SameLists s { s with
      cplxCons := s.cplxCons.set cid (PtrAnalysis.rewrite s.toAnders C0), icallCons := ic } :=
    ⟨⟨rfl, fun _ _ => rfl, id⟩, fun _ _ => rfl⟩
  refine h.step (h.sound.alike hal (fun m _ hm => .live hm) fun m hm => hal.rep ▸ .owed hm)
    (h.covers.rewrite hget hs rfl) hic hs.toSameTargets hal.further

/-! ## One pass -/

/-- What a pass does to the lists of its node when it deletes an index of kind `ty`. -/
structure Drops (ty : ConsType) (drop : Nat → Node → Node) : Prop where
  only : ∀ cid, ListsOnly (drop cid)
  list : ∀ cid N t, (drop cid N).list t = if t = ty then (N.list t).erase cid else N.list t

theorem dropLoad_drops : Drops .load dropLoad :=
  ⟨fun _ _ => rfl, fun cid N t => by cases t <;> rfl⟩

theorem dropStore_drops : Drops .store dropStore :=
  ⟨fun _ _ => rfl, fun cid N t => by cases t <;> rfl⟩

theorem dropGep_drops : Drops .gep dropGep :=
  ⟨fun _ _ => rfl, fun cid N t => by cases t <;> rfl⟩

/-- Between two passes of the loop over the constraints of kind `ty`. -/
structure Passing (M : Module) (b : Anders) (v r : Nat) (d : Finset Nat) (A : Set Nat)
    (tys : List ConsType) (ty : ConsType) (rest : List Nat) (seen : List Constraint) (s : Solver W) : Prop
    extends Serving M b v r d A tys s where
  nodup : rest.Nodup
  ahead : ∀ k ∈ rest, k ∈ (s.nodes v).list ty
  todo : ∀ C ∈ b.constraints, C.complex = true → C.type = ty → s.rep C.ptr = v →
    Served M b d s C ∨ ∃ k ∈ rest, ∃ C', s.cplxCons[k]? = some C' ∧ SameCons s.rep C C'
  seen : ∀ C ∈ seen, C.type = ty → Served M b d s C ∧
    ((∃ k ∈ (s.nodes v).list ty, k ∉ rest ∧ ∃ C', s.cplxCons[k]? = some C' ∧
      SameCons s.rep C C') ∨ Carried s C)

theorem Serving.passing (h : Serving M b v r d A tys s) (hb : Plain b) (ty : ConsType) :
    Passing M b v r d A tys ty (ascending ((s.nodes v).list ty)) [] s where
  toServing := h
  nodup := ascending_nodup _
  ahead k hk := mem_ascending.mp hk
  todo C hC hcplx ht hptr := by
    rcases h.covers.cover C hC hcplx with ⟨cid, hcid, C', hget, hsame⟩ | hcar
    · rw [hptr, ht] at hcid
      exact .inr ⟨cid, mem_ascending.mpr hcid, C', hget, hsame⟩
    · exact .inl (h.carried hb hcar hptr)
  seen C hC := by cases hC

/-- At the end of the loop all constraints of its kind are served. -/
theorem Passing.finish {ty : ConsType} {seen : List Constraint}
    (h : Passing M b v r d A tys ty [] seen s) : Serving M b v r d A (ty :: tys) s :=
  { h.toServing with
    done := fun C hC hcplx ht hptr => by
      rcases List.mem_cons.mp ht with ht | ht
      · exact (h.todo C hC hcplx ht hptr).resolve_right fun ⟨k, hk, _⟩ => by cases hk
      · exact h.done C hC hcplx ht hptr }

omit [Worklist W] [LawfulWorklist W] in
theorem modify_listsOnly {f : Node → Node} (hf : ListsOnly f) (s : Solver W) (v n : Nat) :
    (s.modify v f).nodes n = { s.nodes n with
      loadTo := ((s.modify v f).nodes n).loadTo
      storeFrom := ((s.modify v f).nodes n).storeFrom
      gepTo := ((s.modify v f).nodes n).gepTo } := by
  rw [modify_nodes]
  split
  · rename_i hn
    rw [hn]
    exact hf _
  · rfl

omit [Worklist W] [LawfulWorklist W] in
theorem modify_alike {f : Node → Node} (hf : ListsOnly f) (s : Solver W) (v : Nat) :
    Alike s (s.modify v f) where
  forest := rfl
  pts n := by
    have hn := congrArg Node.pointsTo (modify_listsOnly hf s v n)
    exact hn
  prev n := by
    have hn := congrArg Node.prevPointsTo (modify_listsOnly hf s v n)
    exact hn
  copyTo n := by rw [modify_listsOnly hf s v n]
  hv _ _ := rfl
  ext := rfl
  tables := ⟨rfl, rfl, rfl, rfl, rfl, fun n => by
    rw [show (s.modify v f).toAnders.nodes n = _ from modify_listsOnly hf s v n]⟩

theorem Live.modify {f : Node → Node} {n : Nat} (hf : ListsOnly f) (h : Live s n) :
    Live (s.modify v f) n := by
  obtain ⟨p, hp, hle⟩ := h
  have hv := congrArg Node.vtime (modify_listsOnly hf s v n)
  exact ⟨p, hp, fun hu => hv.trans_le (hle hu)⟩

/-- Within a pass: the constraint `C` of index `cid` was handled, and the index is still in the
list of its node. -/
structure Midway (M : Module) (b : Anders) (v r : Nat) (d : Finset Nat) (A : Set Nat)
    (tys : List ConsType) (ty : ConsType) (cid : Nat) (rest : List Nat) (seen : List Constraint)
    (C : Constraint) (s : Solver W) : Prop extends Serving M b v r d A tys s where
  nodup : (cid :: rest).Nodup
  ahead : ∀ k ∈ cid :: rest, k ∈ (s.nodes v).list ty
  self : s.cplxCons[cid]? = some C
  current : C.type = ty → Served M b d s C
  todo : ∀ C' ∈ b.constraints, C'.complex = true → C'.type = ty → s.rep C'.ptr = v →
    Served M b d s C' ∨ ∃ k ∈ rest, ∃ C'', s.cplxCons[k]? = some C'' ∧ SameCons s.rep C' C''
  seen : ∀ C' ∈ seen, C'.type = ty → Served M b d s C' ∧
    ((∃ k ∈ (s.nodes v).list ty, k ∉ cid :: rest ∧ ∃ C'', s.cplxCons[k]? = some C'' ∧
      SameCons s.rep C' C'') ∨ Carried s C')

/-- Index `cid` is rewritten from `C0` to `C` and handled. -/
theorem Passing.handle {ty : ConsType} {cid : Nat} {rest : List Nat} {seen : List Constraint}
    {D : Demand} {ic : IcallCons} (hb : Plain b)
    (h : Passing M b v r d A tys ty (cid :: rest) seen s)
    (hget : s.cplxCons[cid]? = some C0) (hC : C = PtrAnalysis.rewrite s.toAnders C0)
    (hic : ic = [])
    (hg : Grows M D (fun _ => False)
      { s with cplxCons := s.cplxCons.set cid C, icallCons := ic } u)
    (hD : ∀ x y, D.edge x y → s.rep y = y) (hserved : C ∉ seen → C.type = ty → Served M b d u C) :
    Midway M b v r d A tys ty cid rest seen C u := by
  subst hC
  have h1 := (h.toServing.rewrite hget hic).grows hg hD
  have hrep : u.rep = s.rep := hg.rep
  have hlist : ∀ n t, (u.nodes n).list t = (s.nodes n).list t := hg.sameLists.list
  have hcplx : u.cplxCons = s.cplxCons.set cid (PtrAnalysis.rewrite s.toAnders C0) := by
    rw [hg.frame]
    rfl
  have hself : u.cplxCons[cid]? = some (PtrAnalysis.rewrite s.toAnders C0) := by
    rw [hcplx, List.getElem?_set_self (List.getElem?_eq_some_iff.mp hget).1]
  have hother : ∀ k, k ≠ cid → u.cplxCons[k]? = s.cplxCons[k]? := fun k hk => by
    rw [hcplx, List.getElem?_set_ne (Ne.symm hk)]
  have hfu : Further s u := ⟨hg.further.edge, hg.further.pts, hg.further.ext⟩
  generalize hCdef : PtrAnalysis.rewrite s.toAnders C0 = C at *
  -- what was seen before is served, and covered by an index that is not on the way any more
  have hseen : ∀ C' ∈ seen, C'.type = ty → Served M b d u C' ∧
      ((∃ k ∈ (u.nodes v).list ty, k ∉ cid :: rest ∧ ∃ C'', u.cplxCons[k]? = some C'' ∧
        SameCons u.rep C' C'') ∨ Carried u C') := by
    intro C' hC' ht
    obtain ⟨hs, hc⟩ := h.seen C' hC' ht
    refine ⟨hs.further hfu, hc.imp ?_ fun hcar => ?_⟩
    · rintro ⟨k, hk, hnot, C'', hk', hsame⟩
      refine ⟨k, hlist v ty ▸ hk, hnot, C'', ?_, hrep ▸ hsame⟩
      rw [hother k fun he => hnot (he ▸ List.mem_cons_self)]
      exact hk'
    · exact hcar.sameTargets ⟨hrep, hg.sameLists.hv, hg.further.edge⟩
  have hcurrent : C.type = ty → Served M b d u C := fun ht =>
    if hin : C ∈ seen then (hseen C hin ht).1 else hserved hin ht
  refine { h1 with
    nodup := h.nodup, ahead := fun k hk => hlist v ty ▸ h.ahead k hk, self := hself,
    current := hcurrent, todo := ?_, seen := hseen }
  intro C' hC' hcplx' ht hp
  rw [hrep] at hp ⊢
  rcases h.todo C' hC' hcplx' ht hp with hs | ⟨k, hk, C'', hk', hsame⟩
  · exact .inl (hs.further hfu)
  · rcases List.mem_cons.mp hk with rfl | hk
    · -- this index was handled just now
      obtain rfl : C0 = C'' := Option.some.inj (hget.symm.trans hk')
      have hsame' : SameCons u.rep C C' := hrep ▸ (hCdef ▸ hsame.trans (rewrite_same ..)).symm
      exact .inl ((hcurrent (hsame'.type.symm.trans ht)).congr hb hsame')
    · refine .inr ⟨k, hk, C'', ?_, hsame⟩
      rw [hother k fun he => (List.nodup_cons.mp h.nodup).1 (he ▸ hk)]
      exact hk'

/-- Going on behind an index, in a state with the same constraints where the node has all other
indices. -/
theorem Midway.leave {ty : ConsType} {cid : Nat} {rest : List Nat} {seen : List Constraint}
    {w : Solver W} (h : Midway M b v r d A tys ty cid rest seen C u) (ht : SameTargets u w)
    (hf : Further u w) (hcplx : w.cplxCons = u.cplxCons) (hicall : w.icallCons = u.icallCons)
    (hsound : Sound M b v d A w) (hcovers : Covers b w)
    (hkeep : ∀ k, k ≠ cid → k ∈ (u.nodes v).list ty → k ∈ (w.nodes v).list ty)
    (hnew : C ∉ seen → cid ∈ (w.nodes v).list ty ∨ Carried u C) :
    Passing M b v r d A tys ty rest (if C ∈ seen then seen else C :: seen) w := by
  obtain ⟨hcid, hnodup⟩ := List.nodup_cons.mp h.nodup
  have hserving := h.toServing.step hsound hcovers (hicall.trans h.untagged) ht hf
  have hcov : ∀ C', Served M b d u C' →
      ((∃ k ∈ (w.nodes v).list ty, k ∉ rest ∧ ∃ C'', u.cplxCons[k]? = some C'' ∧
        SameCons u.rep C' C'') ∨ Carried u C') → Served M b d w C' ∧
      ((∃ k ∈ (w.nodes v).list ty, k ∉ rest ∧ ∃ C'', w.cplxCons[k]? = some C'' ∧
        SameCons w.rep C' C'') ∨ Carried w C') := by
    intro C' hs hc
    rw [hcplx, ht.rep]
    exact ⟨hs.further hf, hc.imp id fun hcar => hcar.sameTargets ht⟩
  have hold : ∀ C' ∈ seen, C'.type = ty → Served M b d w C' ∧
      ((∃ k ∈ (w.nodes v).list ty, k ∉ rest ∧ ∃ C'', w.cplxCons[k]? = some C'' ∧
        SameCons w.rep C' C'') ∨ Carried w C') := by
    intro C' hC' hty
    obtain ⟨hs, hc⟩ := h.seen C' hC' hty
    refine hcov C' hs (hc.imp ?_ id)
    rintro ⟨k, hk, hnot, hrest⟩
    exact ⟨k, hkeep k (fun he => hnot (he ▸ List.mem_cons_self)) hk,
      fun hr => hnot (List.mem_cons_of_mem _ hr), hrest⟩
  refine { hserving with nodup := hnodup, ahead := fun k hk => ?_, todo := ?_, seen := ?_ }
  · exact hkeep k (fun he => hcid (he ▸ hk)) (h.ahead k (List.mem_cons_of_mem _ hk))
  · intro C' hC' hcplx' hty hp
    rw [ht.rep] at hp ⊢
    rw [hcplx]
    exact (h.todo C' hC' hcplx' hty hp).imp_left fun hs => hs.further hf
  · split
    · exact hold
    · rename_i hin
      intro C' hC' hty
      rcases List.mem_cons.mp hC' with rfl | hC'
      · refine hcov C' (h.current hty) ((hnew hin).imp_left fun hmem => ?_)
        exact ⟨cid, hmem, hcid, C', h.self, .refl ..⟩
      · exact hold C' hC' hty

/-- The index is deleted: an equal constraint was seen, or the constraint is carried. -/
theorem Midway.delete {ty : ConsType} {drop : Nat → Node → Node} {cid : Nat} {rest : List Nat}
    {seen : List Constraint} (hdrop : Drops ty drop)
    (h : Midway M b v r d A tys ty cid rest seen C u) (hred : C ∈ seen ∨ Carried u C) :
    Passing M b v r d A tys ty rest (if C ∈ seen then seen else C :: seen)
      (u.modify v (drop cid)) := by
  have hal := modify_alike (hdrop.only cid) u v
  have ht : SameTargets u (u.modify v (drop cid)) := ⟨rfl, fun _ _ => rfl, hal.further.edge⟩
  have hlist : ∀ n t, ((u.modify v (drop cid)).nodes n).list t =
      if n = v ∧ t = ty then ((u.nodes n).list t).erase cid else (u.nodes n).list t := by
    intro n t
    rw [modify_nodes]
    by_cases hn : n = v
    · rw [if_pos hn, hdrop.list, hn]
      simp
    · rw [if_neg hn, if_neg fun hh => hn hh.1]
  have hsound : Sound M b v d A (u.modify v (drop cid)) :=
    h.sound.alike hal (fun m _ hm => .live (hm.modify (hdrop.only cid)))
      fun m hm => hal.rep ▸ .owed hm
  have hcovers : Covers b (u.modify v (drop cid)) := by
    refine h.covers.drop (v := v) ty cid ht hlist rfl fun C' C'' hget hsame hty _ => ?_
    obtain rfl : C = C'' := Option.some.inj (h.self.symm.trans hget)
    rcases hred with hin | hcar
    · refine (h.seen C hin (hsame.type.trans hty)).2.imp ?_ fun hcar => hcar.congr hsame.symm
      rintro ⟨k, hk, hnot, C'', hk', hsame'⟩
      exact ⟨k, hk, fun he => hnot (he ▸ List.mem_cons_self), C'', hk', hsame.trans hsame'⟩
    · exact .inr (hcar.congr hsame.symm)
  refine h.leave ht hal.further rfl rfl hsound hcovers (fun k hk hin => ?_)
    fun hin => .inr (hred.resolve_left hin)
  rw [hlist, if_pos ⟨rfl, rfl⟩]
  exact Finset.mem_erase.mpr ⟨hk, hin⟩

/-- Index `cid` of the loop over the constraints of kind `ty`: it was rewritten from `C0` to
`C` and handled, and deleted if an equal constraint was seen or `C` is carried. -/
theorem Passing.pass {ty : ConsType} {drop : Nat → Node → Node} {cid : Nat} {rest : List Nat}
    {seen : List Constraint} {D : Demand} {ic : IcallCons} {red : Bool} (hb : Plain b)
    (hdrop : Drops ty drop) (h : Passing M b v r d A tys ty (cid :: rest) seen s)
    (hget : s.cplxCons[cid]? = some C0) (hC : C = PtrAnalysis.rewrite s.toAnders C0)
    (hic : ic = [])
    (hg : Grows M D (fun _ => False)
      { s with cplxCons := s.cplxCons.set cid C, icallCons := ic } u)
    (hD : ∀ x y, D.edge x y → s.rep y = y) (hserved : C ∉ seen → C.type = ty → Served M b d u C)
    (hred : red = true → C ∈ seen ∨ Carried u C) :
    Passing M b v r d A tys ty rest (if C ∈ seen then seen else C :: seen)
      (if red then u.modify v (drop cid) else u) := by
  have hmid := h.handle hb hget hC hic hg hD hserved
  cases red with
  | true => exact hmid.delete hdrop (hred rfl)
  | false =>
      exact hmid.leave ⟨rfl, fun _ _ => rfl, id⟩ ⟨id, fun _ => Finset.Subset.refl _,
        Finset.Subset.refl _⟩ rfl rfl hmid.sound hmid.covers (fun _ _ hk => hk)
        fun _ => .inl (hmid.ahead cid List.mem_cons_self)

end

end PtrAnalysis
