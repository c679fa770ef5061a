import PtrAnalysis.MergeSound

/-!
# No constraint is lost

A load, store or GEP is rewritten to representatives whenever its pointer is visited,
and deleted from the list of the pointer when it became redundant. `Covers` says what
is left of the constraints the solver was handed: each is in the list of its pointer,
up to representatives (`Stored`), or every pointee of its pointer is merged with a
node that has the edge already (`Carried`).

A visit goes over the three lists of its node. `Serving` is what holds between two
passes, and at the end every constraint of the node is satisfied for the new
pointees. This is for systems without calls through function pointers.
-/

namespace PtrAnalysis

open Run PtrAnalysis.Graph

/-! ## Constraints up to representatives -/

/-- Constraint `C'` is `C` over the same sets. -/
structure SameCons (r : Nat → Nat) (C C' : Constraint) : Prop where
  type : C'.type = C.type
  off : C'.off = C.off
  dest : r C'.dest = r C.dest
  src : r C'.src = r C.src

namespace SameCons

variable {r r' : Nat → Nat} {C C' C'' : Constraint}

theorem refl (r : Nat → Nat) (C : Constraint) : SameCons r C C := ⟨rfl, rfl, rfl, rfl⟩

theorem trans (h : SameCons r C C') (h' : SameCons r C' C'') : SameCons r C C'' :=
  ⟨h'.type.trans h.type, h'.off.trans h.off, h'.dest.trans h.dest, h'.src.trans h.src⟩

theorem symm (h : SameCons r C C') : SameCons r C' C :=
  ⟨h.type.symm, h.off.symm, h.dest.symm, h.src.symm⟩

/-- Sets that were merged stay together. -/
theorem mono (h : SameCons r C C') (hr : ∀ {x y}, r x = r y → r' x = r' y) : SameCons r' C C' :=
  ⟨h.type, h.off, hr h.dest, hr h.src⟩

theorem ptr (h : SameCons r C C') : r C'.ptr = r C.ptr := by
  unfold Constraint.ptr
  rw [h.type]
  cases C.type
  · exact h.src
  · exact h.src
  · exact h.src
  · exact h.dest
  · exact h.src

end SameCons

theorem rewrite_same (a : Anders) (C : Constraint) : SameCons a.rep C (rewrite a C) :=
  ⟨rfl, rfl, rep_rep .., rep_rep ..⟩

/-- Edges are between sets. -/
theorem Graph.Edge.congr {g : Graph} {x x' y y' : Nat} (h : g.Edge x y) (hx : g.rep x' = g.rep x)
    (hy : g.rep y' = g.rep y) : g.Edge x' y' := by
  unfold Graph.Edge at h ⊢
  rw [hx, hy]
  exact h

section

variable {W : Type} {M : Module} {b : Anders} {s s' : Solver W} {C C' : Constraint} {o : Nat}

theorem EdgesMet.congr {call call' : Prop} (h : EdgesMet b call s C o) (hc : SameCons s.rep C C')
    (hcall : call ↔ call') : EdgesMet b call' s C' o where
  load ht ha := by
    have ha' : b.Acts call C o := by
      unfold Anders.Acts at ha ⊢
      rw [← hc.off, hcall]
      exact ha
    exact (h.load (hc.type ▸ ht) ha').congr (by rw [hc.off]) hc.dest
  store ht ha hs := by
    have ha' : b.Acts call C o := by
      unfold Anders.Acts at ha ⊢
      rw [← hc.off, hcall]
      exact ha
    refine (h.store (hc.type ▸ ht) ha' fun h => ?_).congr hc.src (by rw [hc.off])
    rw [← hc.off]
    exact hs (hcall.mp h)
  gep ht := by
    rw [hc.off, hc.dest]
    exact h.gep (hc.type ▸ ht)

/-! ## What is left of a constraint -/

/-- Constraint `C` is in the list of its pointer. -/
def Stored (s : Solver W) (C : Constraint) : Prop :=
  ∃ cid ∈ (s.nodes (s.rep C.ptr)).list C.type, ∃ C', s.cplxCons[cid]? = some C' ∧
    SameCons s.rep C C'

/-- Constraint `C` was deleted because the pointees of its pointer are merged with the
target of an offline cycle, which has the edge. Pointers to `i2p` alone merge nothing. -/
structure Carried (s : Solver W) (C : Constraint) : Prop where
  off : C.off = 0
  type : C.type = .load ∨ C.type = .store
  target : s.hv (s.rep C.ptr) ≠ 0
  edge : s.rep (s.hv (s.rep C.ptr)) = i2p ∨
    (C.type = .load → s.Edge (s.hv (s.rep C.ptr)) C.dest) ∧
    (C.type = .store → s.Edge C.src (s.hv (s.rep C.ptr)))

/-- Every complex constraint of `b` is stored or carried, and no others are stored. -/
structure Covers (b : Anders) (s : Solver W) : Prop where
  cover : ∀ C ∈ b.constraints, C.complex = true → Stored s C ∨ Carried s C
  origin : ∀ C' ∈ s.cplxCons, ∃ C ∈ b.constraints, C.complex = true ∧ SameCons s.rep C C'

/-- `s'` has the partition and the targets of `s`, and its edges. -/
structure SameTargets (s s' : Solver W) : Prop where
  rep : s'.rep = s.rep
  hv : ∀ n, s.isRep n = true → s'.hv n = s.hv n
  edge : ∀ {x y}, s.Edge x y → s'.Edge x y

/-- The lists of constraints are those of `s`, too. -/
structure SameLists (s s' : Solver W) : Prop extends SameTargets s s' where
  list : ∀ n t, (s'.nodes n).list t = (s.nodes n).list t

theorem Carried.sameTargets (h : Carried s C) (hs : SameTargets s s') : Carried s' C := by
  have hv : s'.hv (s'.rep C.ptr) = s.hv (s.rep C.ptr) := by
    rw [hs.rep]
    exact hs.hv _ (isRep_rep ..)
  refine ⟨h.off, h.type, hv ▸ h.target, ?_⟩
  rw [hv, hs.rep]
  exact h.edge.imp id fun he => ⟨fun ht => hs.edge (he.1 ht), fun ht => hs.edge (he.2 ht)⟩

theorem Covers.sameLists (h : Covers b s) (hs : SameLists s s') (hc : s'.cplxCons = s.cplxCons) :
    Covers b s' where
  cover C hC hcplx := by
    rcases h.cover C hC hcplx with ⟨cid, hcid, C', hget, hsame⟩ | hcar
    · refine .inl ⟨cid, ?_, C', hc ▸ hget, hs.rep ▸ hsame⟩
      rw [hs.rep, hs.list]
      exact hcid
    · exact .inr (hcar.sameTargets hs.toSameTargets)
  origin C' hC' := by
    rw [hc] at hC'
    rw [hs.rep]
    exact h.origin C' hC'

/-- A merge takes the lists and the targets along. -/
theorem MergeRun.covers {g g' : Graph} {n1 n2 r : Nat} (hrun : MergeRun g n1 n2 g' r)
    (h : Covers b (s.withGraph g)) : Covers b (s.withGraph g') where
  cover C hC hcplx := by
    have hco := hrun.spec.1
    rcases h.cover C hC hcplx with ⟨cid, hcid, C', hget, hsame⟩ | hcar
    · exact .inl ⟨cid, hco.list C.type C.ptr hcid, C', hget, hsame.mono fun h => hco.rep h⟩
    · have hK : g'.rep (g.rep C.ptr) = g'.rep C.ptr := hco.rep (rep_rep ..)
      have htarget : g.hv (g.rep C.ptr) ≠ 0 := hcar.target
      obtain ⟨hv, hrep⟩ := hrun.target (isRep_rep g C.ptr) htarget
      rw [hK] at hv hrep
      refine .inr ⟨hcar.off, hcar.type, hv, hcar.edge.imp (fun hi => ?_) fun he => ⟨fun ht => ?_, fun ht => ?_⟩⟩
      · exact hrep.trans ((hco.apart (.inr rfl)).mpr hi)
      · exact (hco.edge (he.1 ht)).congr hrep rfl
      · exact (hco.edge (he.2 ht)).congr rfl hrep
  origin C' hC' := by
    obtain ⟨C, hC, hcplx, hsame⟩ := h.origin C' hC'
    exact ⟨C, hC, hcplx, hsame.mono fun h => hrun.spec.1.rep h⟩

/-- Rewriting a constraint to representatives changes nothing. -/
theorem Covers.rewrite {cid : Nat} {C0 : Constraint} (h : Covers b s) {s' : Solver W}
    (hget : s.cplxCons[cid]? = some C0) (hs : SameLists s s')
    (hc : s'.cplxCons = s.cplxCons.set cid (rewrite s.toAnders C0)) : Covers b s' where
  cover C hC hcplx := by
    rcases h.cover C hC hcplx with ⟨k, hk, C', hk', hsame⟩ | hcar
    · have hlist : k ∈ (s'.nodes (s'.rep C.ptr)).list C.type := by
        rw [hs.rep, hs.list]
        exact hk
      rw [hs.rep] at hlist
      by_cases hkc : k = cid
      · subst hkc
        obtain rfl : C0 = C' := Option.some.inj (hget.symm.trans hk')
        refine .inl ⟨k, by rw [hs.rep]; exact hlist, PtrAnalysis.rewrite s.toAnders C0, ?_, ?_⟩
        · rw [hc, List.getElem?_set_self (List.getElem?_eq_some_iff.mp hget).1]
        · rw [hs.rep]
          exact hsame.trans (rewrite_same ..)
      · refine .inl ⟨k, by rw [hs.rep]; exact hlist, C', ?_, hs.rep ▸ hsame⟩
        rw [hc, List.getElem?_set_ne (Ne.symm hkc)]
        exact hk'
    · exact .inr (hcar.sameTargets hs.toSameTargets)
  origin C' hC' := by
    rw [hc] at hC'
    rw [hs.rep]
    rcases List.mem_or_eq_of_mem_set hC' with hC' | rfl
    · exact h.origin C' hC'
    · obtain ⟨C, hC, hcplx, hsame⟩ := h.origin C0 (List.mem_of_getElem? hget)
      exact ⟨C, hC, hcplx, hsame.trans (rewrite_same ..)⟩

end

end PtrAnalysis
