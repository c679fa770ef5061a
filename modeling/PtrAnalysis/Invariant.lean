import PtrAnalysis.Iterate
import PtrAnalysis.Semantics
import PtrAnalysis.SolveInit

/-!
# Nothing gets lost

The solver handles each fact once. What it may not lose is therefore a property of
every state: the part of a points-to set that counts as processed went along all
edges and through all constraints, and a node with more than that is pending - it
is on the worklist, it waits for a push, or it is the target of an offline cycle
with a pending node. `Sound` says so, relative to the state `b` the solver was
handed. During a visit of `v` the part `d` of its set counts as processed although
it is not yet.

Constraints that are rewritten and deleted on the way are a matter of their own
(`Covers`); here they are those of `b`.
-/

namespace PtrAnalysis

open Run PtrAnalysis.Graph

section

variable {W : Type}

/-! ## What a constraint demands -/

/-- Load or store `C` accesses object `o`, as part of a call or not. -/
def Anders.Acts (b : Anders) (call : Prop) (C : Constraint) (o : Nat) : Prop :=
  o ≠ i2p ∧ (C.off = 0 ∨ o ∈ b.offMask.getD C.off ∅ ∧
    (call ∧ o ∈ b.funcNodeSet ∧ o ∉ b.extFuncNodeSet ∨ ¬ call ∧ o ∉ b.funcNodeSet))

/-- The edges and facts that constraint `C` demands for pointee `o` are there. -/
structure EdgesMet (b : Anders) (call : Prop) (s : Solver W) (C : Constraint) (o : Nat) : Prop where
  load : C.type = .load → b.Acts call C o → s.Edge (o + C.off) C.dest
  store : C.type = .store → b.Acts call C o → (call → skipsParam b (o + C.off) = false) →
    s.Edge C.src (o + C.off)
  gep : C.type = .gep → gepImage b.geps C.off {o} ⊆ s.pts (s.rep C.dest)

/-- If pointee `o` is an external function, it was handled for all calls in `I`. -/
def CallsMet (M : Module) (b : Anders) (I : Option (Finset Nat)) (s : Solver W) (o : Nat) : Prop :=
  ∀ ins, I = some ins → o ∈ b.extFuncNodes → o ∈ b.extFuncNodeSet → o ∈ b.funcNodeSet →
    ∀ f, (b.nodes o).val.bind Value.func? = some f → M.isExt f = true →
      ∀ i ∈ ins, (f, i) ∈ s.extSeen

/-- Constraint `C` of the system is satisfied for pointee `o`. -/
structure Met (M : Module) (b : Anders) (s : Solver W) (C : Constraint) (o : Nat) : Prop where
  edges : EdgesMet b (b.icallCons.Tagged C) s C o
  calls : CallsMet M b (b.icallCons.find C) s o

/-- What was achieved stays. -/
structure Further (s s' : Solver W) : Prop where
  edge : ∀ {x y}, s.Edge x y → s'.Edge x y
  pts : ∀ x, s.pts (s.rep x) ⊆ s'.pts (s'.rep x)
  ext : s.extSeen ⊆ s'.extSeen

theorem EdgesMet.further {b : Anders} {call : Prop} {s s' : Solver W} {C : Constraint} {o : Nat}
    (h : EdgesMet b call s C o) (hs : Further s s') : EdgesMet b call s' C o where
  load ht ha := hs.edge (h.load ht ha)
  store ht ha hw := hs.edge (h.store ht ha hw)
  gep ht := (h.gep ht).trans (hs.pts C.dest)

theorem CallsMet.further {M : Module} {b : Anders} {I : Option (Finset Nat)} {s s' : Solver W}
    {o : Nat} (h : CallsMet M b I s o) (hs : Further s s') : CallsMet M b I s' o :=
  fun ins hI h1 h2 h3 f hf hx i hi => hs.ext (h ins hI h1 h2 h3 f hf hx i hi)

theorem Met.further {M : Module} {b : Anders} {s s' : Solver W} {C : Constraint} {o : Nat}
    (h : Met M b s C o) (hs : Further s s') : Met M b s' C o :=
  ⟨h.edges.further hs, h.calls.further hs⟩

/-- The edges of a merged graph. -/
theorem MergeRun.further {s : Solver W} {g : Graph} {n1 n2 r : Nat}
    (h : MergeRun s.toGraph n1 n2 g r) : Further s (s.withGraph g) :=
  ⟨h.spec.1.edge, h.spec.1.pts, Finset.Subset.refl _⟩

end

section

variable {W : Type} [Worklist W] [LawfulWorklist W] {M : Module} {b : Anders} {v : Nat}
  {d : Finset Nat} {A A' : Set Nat} {s s' : Solver W}

theorem Grows.further {D : Demand} {owed : Nat → Prop} (h : Grows M D owed s s') : Further s s' where
  edge {x y} hxy := by
    unfold Graph.Edge at hxy ⊢
    rw [h.rep]
    exact hxy.imp id fun ⟨e, he, hey⟩ => ⟨e, h.copy_mono _ he, hey⟩
  pts x := by
    rw [h.rep]
    exact h.pts_mono _
  ext := h.ext_mono

/-! ## The invariant -/

/-- Node `n` will be visited, or collapsed into a node that will be. -/
inductive Pending (A : Set Nat) (s : Solver W) : Nat → Prop
  | live {n : Nat} (h : Live s n) : Pending A s n
  | owed {m : Nat} (h : m ∈ A) : Pending A s (s.rep m)
  | target {K : Nat} (hK : s.isRep K = true) (hv : s.hv K ≠ 0) (hnew : ¬ s.pts K ⊆ s.prev K)
      (h : Pending A s K) : Pending A s (s.rep (s.hv K))

/-- The part of the set of `n` that was processed. -/
def Solver.processed (s : Solver W) (v : Nat) (d : Finset Nat) (n : Nat) : Finset Nat :=
  if n = v then s.prev n \ d else s.prev n

/-- A visit of `n` would achieve nothing. -/
structure Quiet (b : Anders) (v : Nat) (d : Finset Nat) (s : Solver W) (n : Nat) : Prop where
  edges : ∀ e ∈ (s.nodes n).copyTo, s.pts n ⊆ s.pts (s.rep e)
  cons : ∀ C ∈ b.constraints, C.complex = true → s.rep C.ptr = n → s.pts n ⊆ s.processed v d n

/-- The solver has not changed what `b` says of functions and offsets. -/
structure SameTables (b a : Anders) : Prop where
  offMask : a.offMask = b.offMask
  geps : a.geps = b.geps
  func : a.funcNodeSet = b.funcNodeSet
  ext : a.extFuncNodes = b.extFuncNodes
  extSet : a.extFuncNodeSet = b.extFuncNodeSet
  val : ∀ n, (a.nodes n).val = (b.nodes n).val

structure Sound (M : Module) (b : Anders) (v : Nat) (d : Finset Nat) (A : Set Nat) (s : Solver W) :
    Prop where
  tables : SameTables b s.toAnders
  apart : ∀ {m}, m = 0 ∨ m = i2p → ∀ {x}, s.rep x = m ↔ x = m
  addr : ∀ C ∈ b.constraints, C.type = .addrOf → b.rep C.src ∈ s.pts (s.rep C.dest)
  copy : ∀ C ∈ b.constraints, C.type = .copy → s.Edge C.src C.dest
  sub : ∀ n, s.prev n ⊆ s.pts n
  flow : ∀ n, s.isRep n = true → ∀ e ∈ (s.nodes n).copyTo, s.processed v d n ⊆ s.pts (s.rep e)
  done : ∀ C ∈ b.constraints, C.complex = true → ∀ o ∈ s.processed v d (s.rep C.ptr), Met M b s C o
  rest : ∀ n, s.isRep n = true → ¬ Pending A s n → Quiet b v d s n ∨ n = v ∧ s.pts v ⊆ s.prev v

omit [Worklist W] [LawfulWorklist W] in
theorem processed_empty (s : Solver W) (v n : Nat) : s.processed v ∅ n = s.prev n := by
  unfold Solver.processed
  rw [Finset.sdiff_empty, ite_self]

omit [Worklist W] [LawfulWorklist W] in
theorem processed_subset (s : Solver W) (v : Nat) (d : Finset Nat) (n : Nat) :
    s.processed v d n ⊆ s.prev n := by
  unfold Solver.processed
  split
  · exact Finset.sdiff_subset
  · exact Finset.Subset.refl _

omit [Worklist W] [LawfulWorklist W] in
theorem processed_eq {n : Nat} (h : s'.prev n = s.prev n) :
    s'.processed v d n = s.processed v d n := by
  unfold Solver.processed
  rw [h]

theorem SameTables.of_eq {a a' : Anders} (h : SameTables b a) (h1 : a'.offMask = a.offMask)
    (h2 : a'.geps = a.geps) (h3 : a'.funcNodeSet = a.funcNodeSet)
    (h4 : a'.extFuncNodes = a.extFuncNodes) (h5 : a'.extFuncNodeSet = a.extFuncNodeSet)
    (h6 : ∀ n, (a'.nodes n).val = (a.nodes n).val) : SameTables b a' :=
  ⟨h1.trans h.offMask, h2.trans h.geps, h3.trans h.func, h4.trans h.ext, h5.trans h.extSet,
    fun n => (h6 n).trans (h.val n)⟩

/-! ## Steps that change no set -/

/-- `s'` has the sets, the edges and the targets of `s`. -/
structure Alike (s s' : Solver W) : Prop where
  forest : s'.forest = s.forest
  pts : ∀ n, s'.pts n = s.pts n
  prev : ∀ n, s'.prev n = s.prev n
  copyTo : ∀ n, (s'.nodes n).copyTo = (s.nodes n).copyTo
  hv : ∀ n, s.isRep n = true → s'.hv n = s.hv n
  ext : s'.extSeen = s.extSeen
  tables : SameTables s.toAnders s'.toAnders

omit [Worklist W] [LawfulWorklist W] in
theorem Alike.rep (h : Alike s s') : s'.rep = s.rep := by
  funext n
  simp only [Graph.rep, h.forest]

omit [Worklist W] [LawfulWorklist W] in
theorem Alike.isRep (h : Alike s s') : s'.isRep = s.isRep := by
  funext n
  simp only [Graph.isRep, h.forest]

omit [Worklist W] [LawfulWorklist W] in
theorem Alike.further (h : Alike s s') : Further s s' where
  edge {x y} hxy := by
    unfold Graph.Edge at hxy ⊢
    rw [h.rep, h.copyTo]
    exact hxy
  pts x := by rw [h.rep, h.pts]
  ext := by rw [h.ext]

/-- A node stays pending if none that is live or owed is forgotten. -/
theorem Pending.alike {n : Nat} (h : Pending A s n) (hs : Alike s s') (hn : s.isRep n = true)
    (hlive : ∀ m, s.isRep m = true → Live s m → Pending A' s' m)
    (howed : ∀ m ∈ A, Pending A' s' (s.rep m)) : Pending A' s' n := by
  induction h with
  | live h => exact hlive _ hn h
  | owed h => exact howed _ h
  | @target K hK hv hnew _ ih =>
      have hv' : s'.hv K = s.hv K := hs.hv K hK
      have ht := Pending.target (A := A') (s := s') (K := K) (by rw [hs.isRep]; exact hK)
        (by rw [hv']; exact hv) (by rw [hs.pts, hs.prev]; exact hnew) (ih hK)
      rwa [hs.rep, hv'] at ht

theorem Sound.alike (h : Sound M b v d A s) (hs : Alike s s')
    (hlive : ∀ m, s.isRep m = true → Live s m → Pending A' s' m)
    (howed : ∀ m ∈ A, Pending A' s' (s.rep m)) : Sound M b v d A' s' where
  tables := ⟨hs.tables.offMask.trans h.tables.offMask, hs.tables.geps.trans h.tables.geps,
    hs.tables.func.trans h.tables.func, hs.tables.ext.trans h.tables.ext,
    hs.tables.extSet.trans h.tables.extSet, fun n => (hs.tables.val n).trans (h.tables.val n)⟩
  apart hm x := by
    rw [hs.rep]
    exact h.apart hm
  addr C hC ht := hs.further.pts C.dest (h.addr C hC ht)
  copy C hC ht := hs.further.edge (h.copy C hC ht)
  sub n := by
    rw [hs.prev, hs.pts]
    exact h.sub n
  flow n hn e he := by
    rw [hs.isRep] at hn
    rw [hs.copyTo] at he
    rw [processed_eq (hs.prev n), hs.rep, hs.pts]
    exact h.flow n hn e he
  done C hC hc o ho := by
    rw [hs.rep, processed_eq (hs.prev _)] at ho
    exact (h.done C hC hc o ho).further hs.further
  rest n hn hp := by
    rw [hs.isRep] at hn
    refine (h.rest n hn fun hpend => hp (hpend.alike hs hn hlive howed)).imp (fun hq => ?_) ?_
    · refine ⟨fun e he => ?_, fun C hC hc hCn => ?_⟩
      · rw [hs.copyTo] at he
        rw [hs.pts, hs.rep, hs.pts]
        exact hq.edges e he
      · rw [hs.rep] at hCn
        rw [hs.pts, processed_eq (hs.prev n)]
        exact hq.cons C hC hc hCn
    · rw [hs.pts, hs.prev]
      exact id

/-! ## Growth -/

theorem Pending.grows {D : Demand} {n : Nat} (h : Pending A s n)
    (hg : Grows M D (fun _ => False) s s') : Pending A s' n := by
  induction h with
  | live h => exact .live (hg.live _ h)
  | owed h => exact hg.rep ▸ Pending.owed (s := s') h
  | @target K hK hv hnew _ ih =>
      have hv' : s'.hv K = s.hv K := by
        have hh : s'.hcdVar = s.hcdVar := by rw [hg.frame]; rfl
        simp only [Graph.hv, hh]
      have hnew' : ¬ s'.pts K ⊆ s'.prev K := by
        rw [hg.prev]
        exact fun hsub => hnew ((hg.pts_mono K).trans hsub)
      have ht := Pending.target (s := s') (K := K) (by rw [hg.isRep]; exact hK)
        (by rw [hv']; exact hv) hnew' ih
      rwa [hg.rep, hv'] at ht

theorem Grows.sameTables {D : Demand} {owed : Nat → Prop} (hg : Grows M D owed s s')
    (h : SameTables b s.toAnders) : SameTables b s'.toAnders := by
  refine h.of_eq ?_ ?_ ?_ ?_ ?_ fun n => ?_
  · rw [hg.frame]; rfl
  · rw [hg.frame]; rfl
  · rw [hg.frame]; rfl
  · rw [hg.frame]; rfl
  · rw [hg.frame]; rfl
  · have hv := congrArg Node.val (hg.still n)
    exact hv

/-- Growth along edges to representatives loses nothing. -/
theorem Sound.grows {D : Demand} (h : Sound M b v d A s) (hg : Grows M D (fun _ => False) s s')
    (hD : ∀ x y, D.edge x y → s.rep y = y) : Sound M b v d A s' where
  tables := hg.sameTables h.tables
  apart hm x := by
    rw [hg.rep]
    exact h.apart hm
  addr C hC ht := hg.further.pts C.dest (h.addr C hC ht)
  copy C hC ht := hg.further.edge (h.copy C hC ht)
  sub n := by
    rw [hg.prev]
    exact (h.sub n).trans (hg.pts_mono n)
  flow n hn e he := by
    rw [hg.isRep] at hn
    rw [processed_eq (hg.prev n), hg.rep]
    rcases hg.copy_new n e he with hold | ⟨hm, -, hsub⟩
    · exact (h.flow n hn e hold).trans (hg.pts_mono _)
    · have he' : s.rep e = e := by
        rcases hm with hm | ⟨p, -, vn, -, -, rfl, -⟩
        · exact hD n e hm
        · exact rep_rep ..
      rw [he']
      exact ((processed_subset s v d n).trans (h.sub n)).trans hsub
  done C hC hc o ho := by
    rw [hg.rep, processed_eq (hg.prev _)] at ho
    exact (h.done C hC hc o ho).further hg.further
  rest n hn hp := by
    rw [hg.isRep] at hn
    have hpts : s'.pts n = s.pts n := by
      by_contra hne
      exact hp (.live ((hg.pushed n hne).resolve_right id))
    refine (h.rest n hn fun hpend => hp (hpend.grows hg)).imp (fun hq => ?_) ?_
    · refine ⟨fun e he => ?_, fun C hC hc hCn => ?_⟩
      · rw [hpts, hg.rep]
        rcases hg.copy_new n e he with hold | ⟨hm, -, hsub⟩
        · exact (hq.edges e hold).trans (hg.pts_mono _)
        · have he' : s.rep e = e := by
            rcases hm with hm | ⟨p, -, vn, -, -, rfl, -⟩
            · exact hD n e hm
            · exact rep_rep ..
          rw [he']
          exact hsub
      · rw [hg.rep] at hCn
        rw [hpts, processed_eq (hg.prev n)]
        exact hq.cons C hC hc hCn
    · rintro ⟨rfl, hsub⟩
      rw [hpts, hg.prev]
      exact ⟨rfl, hsub⟩

/-! ## The worklist -/

omit [Worklist W] [LawfulWorklist W] in
theorem Alike.ofWl (hwl : ∃ wl, s' = { s with wl }) : Alike s s' := by
  obtain ⟨wl, rfl⟩ := hwl
  exact ⟨rfl, fun _ => rfl, fun _ => rfl, fun _ => rfl, fun _ _ => rfl, rfl,
    ⟨rfl, rfl, rfl, rfl, rfl, fun _ => rfl⟩⟩

/-- What is owed stays owed if more is. -/
theorem Sound.owe (h : Sound M b v d A s) (hA : A ⊆ A') : Sound M b v d A' s :=
  h.alike ⟨rfl, fun _ => rfl, fun _ => rfl, fun _ => rfl, fun _ _ => rfl, rfl,
    rfl, rfl, rfl, rfl, rfl, fun _ => rfl⟩ (fun _ _ hm => .live hm) fun _ hm => .owed (hA hm)

/-- A push pays what is owed to the set of the pushed node. -/
theorem Sound.push {n : Nat} (h : Sound M b v d A s) (hwl : ∃ wl, s' = { s with wl })
    (hn : Live s' n) (hlive : ∀ m, Live s m → Live s' m) (hA : ∀ m ∈ A, m ∈ A' ∨ s.rep m = n) :
    Sound M b v d A' s' := by
  have hal : Alike s s' := .ofWl hwl
  refine h.alike hal (fun m _ hm => .live (hlive m hm)) fun m hm => ?_
  rcases hA m hm with hm | rfl
  · exact hal.rep ▸ .owed hm
  · exact .live hn

/-- The node taken off the worklist is owed a visit. -/
theorem Sound.pop {n p : Nat} (h : Sound M b v d A s) (hp : Popped s s' n p)
    (hn : s.isRep n = true) : Sound M b v d (insert n A) s' := by
  have hal : Alike s s' := .ofWl hp.wl
  refine h.alike hal (fun m _ ⟨q, hq, hv⟩ => ?_) fun m hm =>
    hal.rep ▸ .owed (Set.mem_insert_of_mem _ hm)
  by_cases hm : m = n
  · have ho : Pending (insert n A) s' (s'.rep n) := .owed (Set.mem_insert ..)
    rw [hal.rep, rep_eq_self.mpr hn] at ho
    exact hm ▸ ho
  · refine .live ⟨q, hp.keeps m q (fun he => hm (Prod.mk.inj he).1) hq, ?_⟩
    obtain ⟨wl, rfl⟩ := hp.wl
    exact hv

/-- An entry that is discarded is not missed. -/
theorem Sound.skip {n p : Nat} (h : Sound M b v d A s) (hp : Popped s s' n p)
    (hskip : s'.isRep n = false ∨ Worklist.usesPrio W = true ∧ p < (s'.nodes n).vtime) :
    Sound M b v d A s' := by
  have hal : Alike s s' := .ofWl hp.wl
  refine h.alike hal (fun m hm ⟨q, hq, hv⟩ => ?_) fun m hm => hal.rep ▸ .owed hm
  refine .live ⟨q, hp.keeps m q (fun he => ?_) hq, ?_⟩
  · obtain ⟨rfl, rfl⟩ := Prod.mk.inj he
    rcases hskip with hrep | ⟨hprio, hlt⟩
    · rw [hal.isRep, hm] at hrep
      cases hrep
    · obtain ⟨wl, rfl⟩ := hp.wl
      exact absurd (hv hprio) (Nat.not_le_of_lt hlt)
  · obtain ⟨wl, rfl⟩ := hp.wl
    exact hv

/-! ## The start and the end of a visit -/

omit [Worklist W] [LawfulWorklist W] in
theorem visitStart_node (s : Solver W) (v n : Nat) : (visitStart s v).nodes n =
    if n = v then { s.nodes v with vtime := s.now, prevPointsTo := s.pts v } else s.nodes n := by
  simp only [visitStart, touch, modify_nodes, if_true]
  split <;> rfl

omit [Worklist W] [LawfulWorklist W] in
theorem visitStart_pts (s : Solver W) (v n : Nat) : (visitStart s v).pts n = s.pts n := by
  simp only [Solver.pts, visitStart_node]
  split
  · rename_i hn
    rw [hn]
  · rfl

omit [Worklist W] [LawfulWorklist W] in
theorem visitStart_prev (s : Solver W) (v n : Nat) :
    (visitStart s v).prev n = if n = v then s.pts v else s.prev n := by
  simp only [Solver.prev, visitStart_node]
  split <;> rfl

omit [Worklist W] [LawfulWorklist W] in
theorem visitStart_copyTo (s : Solver W) (v n : Nat) :
    ((visitStart s v).nodes n).copyTo = (s.nodes n).copyTo := by
  rw [visitStart_node]
  split
  · rename_i hn
    rw [hn]
  · rfl

/-- Who was pending beside `v`, or because of it, still is if the target of `v` is
owed. -/
theorem Pending.visitStart {n : Nat} (h : Pending A s n) (hv : s.isRep v = true)
    (howed : ∀ m ∈ A, m = v ∨ m ∈ A') (hA : ¬ s.pts v ⊆ s.prev v → s.hv v ≠ 0 → s.hv v ∈ A') :
    n = v ∨ Pending A' (visitStart s v) n := by
  induction h with
  | @live n h =>
      by_cases hn : n = v
      · exact .inl hn
      · exact .inr (.live (h.still rfl (by rw [visitStart_node, if_neg hn])))
  | @owed m h =>
      rcases howed m h with rfl | hm
      · exact .inl (rep_eq_self.mpr hv)
      · exact .inr (.owed (s := PtrAnalysis.visitStart s v) hm)
  | @target K hK hvK hnew _ ih =>
      by_cases hKv : K = v
      · subst hKv
        exact .inr (.owed (s := PtrAnalysis.visitStart s K) (hA hnew hvK))
      · have hnew' : ¬ (PtrAnalysis.visitStart s v).pts K ⊆ (PtrAnalysis.visitStart s v).prev K := by
          rw [visitStart_pts, visitStart_prev, if_neg hKv]
          exact hnew
        exact .inr (.target (s := PtrAnalysis.visitStart s v) hK hvK hnew' (ih.resolve_left hKv))

/-- A visit of `v` starts: what is new is to be processed, and the target of `v` is to
be pushed. -/
theorem Sound.visitStart {v0 : Nat} (h : Sound M b v0 ∅ A s) (hv : s.isRep v = true)
    (howed : ∀ m ∈ A, m = v ∨ m ∈ A') (hA : ¬ s.pts v ⊆ s.prev v → s.hv v ≠ 0 → s.hv v ∈ A') :
    Sound M b v (s.pts v \ s.prev v) A' (visitStart s v) := by
  have hproc : ∀ n, (PtrAnalysis.visitStart s v).processed v (s.pts v \ s.prev v) n = s.prev n := by
    intro n
    unfold Solver.processed
    rw [visitStart_prev]
    by_cases hn : n = v
    · rw [if_pos hn, if_pos hn, hn]
      exact Finset.sdiff_sdiff_eq_self (h.sub v)
    · rw [if_neg hn, if_neg hn]
  have hfurther : Further s (PtrAnalysis.visitStart s v) := by
    refine ⟨fun {x y} hxy => ?_, fun x => ?_, Finset.Subset.refl _⟩
    · refine hxy.imp id fun ⟨e, he, hey⟩ => ⟨e, ?_, hey⟩
      rw [show (PtrAnalysis.visitStart s v).rep x = s.rep x from rfl, visitStart_copyTo]
      exact he
    · rw [visitStart_pts]
      exact Finset.Subset.refl _
  refine ⟨?_, h.apart, fun C hC ht => ?_, fun C hC ht => ?_, fun n => ?_, fun n hn e he => ?_,
    fun C hC hc o ho => ?_, fun n hn hp => ?_⟩
  · refine h.tables.of_eq rfl rfl rfl rfl rfl fun n => ?_
    rw [visitStart_node]
    split
    · rename_i hn
      rw [hn]
    · rfl
  · exact hfurther.pts _ (h.addr C hC ht)
  · exact hfurther.edge (h.copy C hC ht)
  · rw [visitStart_pts, visitStart_prev]
    split
    · rename_i hn
      rw [hn]
    · exact h.sub n
  · rw [visitStart_copyTo] at he
    rw [hproc, visitStart_pts]
    have hflow := h.flow n hn e he
    rwa [processed_empty] at hflow
  · rw [hproc] at ho
    refine (h.done C hC hc o ?_).further hfurther
    rw [processed_empty]
    exact ho
  · by_cases hnv : n = v
    · refine .inr ⟨hnv, ?_⟩
      rw [visitStart_pts, visitStart_prev, if_pos rfl]
    · have hnp : ¬ Pending A s n := fun hpend =>
        hp ((hpend.visitStart hv howed hA).resolve_left hnv)
      left
      rcases h.rest n hn hnp with hq | ⟨rfl, hsub⟩
      · refine ⟨fun e he => ?_, fun C hC hc hCn => ?_⟩
        · rw [visitStart_copyTo] at he
          rw [visitStart_pts, visitStart_pts]
          exact hq.edges e he
        · rw [visitStart_pts, hproc]
          have hcons := hq.cons C hC hc hCn
          rwa [processed_empty] at hcons
      · refine ⟨fun e he => ?_, fun C hC hc hCn => ?_⟩
        · rw [visitStart_copyTo] at he
          rw [visitStart_pts, visitStart_pts]
          have hflow := h.flow n hn e he
          rw [processed_empty] at hflow
          exact hsub.trans hflow
        · rw [visitStart_pts, hproc]
          exact hsub

/-- A visit of `v` that served all edges and constraints is over. -/
theorem Sound.finish {v' : Nat} (h : Sound M b v d A s)
    (hedges : s.isRep v = true → ∀ e ∈ (s.nodes v).copyTo, d ⊆ s.pts (s.rep e))
    (hcons : ∀ C ∈ b.constraints, C.complex = true → s.rep C.ptr = v → ∀ o ∈ d, Met M b s C o) :
    Sound M b v' ∅ A s := by
  have hsplit : ∀ {n o}, o ∈ s.prev n → o ∈ s.processed v d n ∨ n = v ∧ o ∈ d := by
    intro n o ho
    unfold Solver.processed
    by_cases hn : n = v
    · rw [if_pos hn]
      by_cases hd : o ∈ d
      · exact .inr ⟨hn, hd⟩
      · exact .inl (Finset.mem_sdiff.mpr ⟨ho, hd⟩)
    · rw [if_neg hn]
      exact .inl ho
  have hflow : ∀ n, s.isRep n = true → ∀ e ∈ (s.nodes n).copyTo, s.prev n ⊆ s.pts (s.rep e) := by
    intro n hn e he o ho
    rcases hsplit ho with hproc | ⟨rfl, hd⟩
    · exact h.flow n hn e he hproc
    · exact hedges hn e he hd
  refine { h with
    flow := fun n hn e he => by rw [processed_empty]; exact hflow n hn e he
    done := fun C hC hc o ho => ?_, rest := fun n hn hp => .inl ?_ }
  · rw [processed_empty] at ho
    rcases hsplit ho with hproc | ⟨hv, hd⟩
    · exact h.done C hC hc o hproc
    · exact hcons C hC hc hv o hd
  · rcases h.rest n hn hp with hq | ⟨rfl, hsub⟩
    · refine ⟨hq.edges, fun C hC hc hCn => ?_⟩
      rw [processed_empty]
      exact (hq.cons C hC hc hCn).trans (processed_subset s v d n)
    · refine ⟨fun e he => hsub.trans (hflow n hn e he), fun C hC hc hCn => ?_⟩
      rw [processed_empty]
      exact hsub

/-! ## The end -/

/-- With an empty worklist nothing is pending. -/
theorem not_pending (hend : ∀ n, ¬ Live s n) {n : Nat} : ¬ Pending ∅ s n := by
  intro h
  induction h with
  | live h => exact hend _ h
  | owed h => exact h
  | target _ _ _ _ ih => exact ih

/-- A visit of a node that is not pending would achieve nothing. -/
theorem Sound.quiet (h : Sound M b v ∅ A s) {n : Nat} (hn : s.isRep n = true)
    (hp : ¬ Pending A s n) : (∀ e ∈ (s.nodes n).copyTo, s.pts n ⊆ s.pts (s.rep e)) ∧
    ∀ C ∈ b.constraints, C.complex = true → s.rep C.ptr = n → ∀ o ∈ s.pts n, Met M b s C o := by
  have hdone : ∀ C ∈ b.constraints, C.complex = true → s.rep C.ptr = n → s.pts n ⊆ s.prev n →
      ∀ o ∈ s.pts n, Met M b s C o := by
    intro C hC hc hCn hsub o ho
    refine h.done C hC hc o ?_
    rw [processed_empty, hCn]
    exact hsub ho
  rcases h.rest n hn hp with hq | ⟨rfl, hsub⟩
  · refine ⟨hq.edges, fun C hC hc hCn => hdone C hC hc hCn ?_⟩
    have hcons := hq.cons C hC hc hCn
    rwa [processed_empty] at hcons
  · refine ⟨fun e he => ?_, fun C hC hc hCn => hdone C hC hc hCn hsub⟩
    have hflow := h.flow n hn e he
    rw [processed_empty] at hflow
    exact hsub.trans hflow

/-- All edges and constraints are satisfied when the worklist is empty. -/
theorem Sound.solved (h : Sound M b v ∅ ∅ s) (hend : ∀ n, ¬ Live s n) :
    (∀ x y, s.Edge x y → s.pts (s.rep x) ⊆ s.pts (s.rep y)) ∧
    ∀ C ∈ b.constraints, C.complex = true → ∀ o ∈ s.pts (s.rep C.ptr), Met M b s C o := by
  have hquiet := fun x => h.quiet (isRep_rep s.toGraph x) (not_pending hend)
  refine ⟨fun x y hxy => ?_, fun C hC hc o ho => (hquiet C.ptr).2 C hC hc rfl o ho⟩
  rcases hxy with heq | ⟨e, he, hey⟩
  · rw [heq]
  · exact hey ▸ (hquiet x).1 e he

end

end PtrAnalysis
