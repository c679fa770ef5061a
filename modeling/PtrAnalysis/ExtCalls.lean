import PtrAnalysis.Blocks
import PtrAnalysis.Effects
import PtrAnalysis.Operands

/-!
# Direct and indirect calls of external functions

The effect of an external function on the result of a call is written down twice: for
direct calls in `idCallObj` and `idExtCall`, for indirect ones in the solver's `handleExt`.
Here are the constraints that a direct call adds, what of them an indirect call brings
about, and when that is all.
-/

namespace PtrAnalysis

open Run Act

/-- What the solver sees of the module. -/
def Ir.window (P : Ir) (g : Gen) : Module where
  isExt := P.isExt
  extType := P.extType
  callSite i :=
    { isPtr := (P.insts i).ty.isPtr
      valNode := g.valNode (.inst i)
      objNode := g.objNode (.inst i)
      args := (P.insts i).args.map fun v => ⟨v.isNullPtr, P.isPtr v, g.valNode v⟩ }

namespace Gen

/-- The types with an effect on the result of a call only. -/
def resultTypes : List ExtType :=
  [.alloc, .noStructAlloc, .realloc, .lA0, .lA1, .lA2, .lA8, .noop, .other]

section

variable (P : Ir) (f i : Nat)

/-- Call `i` of `f` returns a new object. -/
def allocates : Bool :=
  match P.extType f with
  | .alloc | .noStructAlloc => true
  | .realloc => (P.insts i).args[0]?.any Val.isNullPtr
  | _ => false

/-- The number of the argument that call `i` of `f` returns. -/
def returnedNo : Option Nat :=
  match P.extType f with
  | .realloc => if (P.insts i).args[0]?.any Val.isNullPtr then none else some 0
  | .lA0 => some 0
  | .lA1 => some 1
  | .lA2 => some 2
  | .lA8 => some 8
  | _ => none

/-- The argument that call `i` of `f` returns. -/
def returned : Option Val := (returnedNo P f i).bind fun k => (P.insts i).args[k]?

/-- Instruction `i` has a result, which is a pointer with node `vn`. -/
structure ResultNode (g : Gen) (vn : Nat) : Prop where
  ne : vn ≠ 0
  ptr : (P.insts i).ty.isPtr = true
  entry : g.valNode (.inst i) = some vn
  node : (g.nodes.getD vn {}).val = some (.inst i)

/-- The constraints on the result that the direct call `i` of `f` adds in state `g`; `g'` is
the state behind it. -/
inductive ResultCons (g g' : Gen) (vn : Nat) : List Constraint → Prop where
  | object {on : Nat} : allocates P f i = true → g'.objNode (.inst i) = some on →
      ResultCons g g' vn [⟨.addrOf, vn, on, 0⟩]
  | nothing : allocates P f i = false → returnedNo P f i = none → ResultCons g g' vn []
  | unknown {v : Val} : returned P f i = some v → P.isPtr v = false →
      ResultCons g g' vn [⟨.addrOf, vn, i2p, 0⟩]
  | value {v : Val} {n : Nat} : returned P f i = some v → P.isPtr v = true →
      Finds g.valNode v n → (n ≠ 0 → n ≠ vn → n ≠ i2p ∧ vn ≠ i2p) →
      ResultCons g g' vn (if n = 0 ∨ vn = n then [] else [⟨.copy, vn, n, 0⟩])

end

section

variable {P : Ir} {fuel : Nat}

/-! ## Direct calls -/

theorem fieldCount_only (T : Ty) : Runs StructsOnly (match T with
    | .struct s => do return (← getStructSz P fuel s).length
    | _ => pure 0) := by
  split
  · exact .bind (getStructSz_only _ _ _) fun _ => .pure _
  · exact .pure _

theorem traceAllocType_only (i : Nat) : Runs StructsOnly (traceAllocType P fuel i) := by
  refine .bind (fieldCount_only _) fun msz => .bind (.foldlM _ fun u _ t => ?_) fun t => ?_
  · dsimp only
    split
    · exact .ite (.bind (fieldCount_only _) fun _ => .ite (.pure _) (.pure _)) (.pure _)
    · exact .pure _
  · exact .ite (.bind .get fun _ => .pure _) (.pure _)

/-- Neither the entries of values nor constraints change. -/
def SameEntries (g g' : Gen) : Prop :=
  g'.valNode = g.valNode ∧ g'.objNode = g.objNode ∧ g'.constraints = g.constraints

theorem StructsOnly.same {g g' : Gen} (h : StructsOnly g g') : SameEntries g g' := by
  obtain ⟨-, -, _, _, _, rfl⟩ := h
  exact ⟨rfl, rfl, rfl⟩

theorem pushObject_same (v : Val) (T : Ty) (weak : Bool) (g : Gen) :
    Wp (pushObject P fuel v T weak) (fun _ g' => SameEntries g g') g := by
  unfold pushObject
  split
  · rw [wp_bind]
    apply (getStructSz_only _ _ _ g).imp
    intro sz g' hg'
    exact hg'.same
  · exact ⟨rfl, rfl, rfl⟩

/-- The object of an indirect call is made whatever the callee. -/
theorem idCallObj_none {g : Gen} {i vn : Nat} (hnode : (g.nodes.getD vn {}).val = some (.inst i)) :
    Wp (idCallObj P fuel vn none)
      (fun _ g' => g'.valNode = g.valNode ∧ (g'.objNode (.inst i)).isSome) g := by
  unfold idCallObj
  rw [wp_bind, wp_get, hnode]
  dsimp only
  rw [wp_bind]
  apply (traceAllocType_only i g).imp
  intro T g1 hg1
  simp only [setObjNode, wp_bind, wp_get, wp_modify]
  apply (pushObject_same _ _ _ _).imp
  rintro _ g' ⟨hval, hobj, -⟩
  rw [hval, hobj]
  exact ⟨hg1.same.1, by simp⟩

/-- The object of a direct call that allocates. -/
theorem idCallObj_alloc {g : Gen} {f i vn : Nat}
    (hnode : (g.nodes.getD vn {}).val = some (.inst i)) (halloc : allocates P f i = true) :
    Wp (idCallObj P fuel vn (some f)) (fun _ g' => ∃ on, g'.valNode = g.valNode ∧
      g'.objNode (.inst i) = some on ∧ g'.constraints = g.constraints ++ [⟨.addrOf, vn, on, 0⟩]) g := by
  have hcons : ∀ (on : Nat) (g1 : Gen), g1.valNode = g.valNode → g1.objNode (.inst i) = some on →
      g1.constraints = g.constraints → Wp (cons .addrOf vn on) (fun _ g' => ∃ on,
        g'.valNode = g.valNode ∧ g'.objNode (.inst i) = some on ∧
        g'.constraints = g.constraints ++ [⟨.addrOf, vn, on, 0⟩]) g1 := by
    intro on g1 hval hobj hcs
    apply wp_cons.mpr
    intro cs b hadd
    refine ⟨on, hval, hobj, ?_⟩
    rw [addCons_result hadd, hcs]
    simp
  unfold idCallObj
  rw [wp_bind, wp_get, hnode]
  dsimp only
  have hfresh : Wp (do
      let T ← traceAllocType P fuel i
      let on := (← get).nextNode
      setObjNode (.inst i) on
      pushObject P fuel (.inst i) T true
      cons .addrOf vn on) (fun _ g' => ∃ on, g'.valNode = g.valNode ∧
        g'.objNode (.inst i) = some on ∧
        g'.constraints = g.constraints ++ [⟨.addrOf, vn, on, 0⟩]) g := by
    rw [wp_bind]
    apply (traceAllocType_only i g).imp
    intro T g1 hg1
    simp only [setObjNode, wp_bind, wp_get, wp_modify]
    apply (pushObject_same _ _ _ _).imp
    rintro _ g2 ⟨hval, hobj, hcs⟩
    obtain ⟨hval1, -, hcs1⟩ := hg1.same
    exact hcons _ g2 (hval.trans hval1) (by rw [hobj]; simp) (hcs.trans hcs1)
  rw [wp_ite]
  constructor
  · intro _
    simp only [takeNode, bump, setObjNode, pushNodes, wp_bind, wp_get, wp_modify, wp_pure]
    exact hcons _ _ rfl (by simp) rfl
  · intro hno
    rw [wp_ite]
    constructor
    · intro _
      rw [wp_bind, wp_pure, if_pos rfl]
      exact hfresh
    · intro hna
      rw [wp_ite]
      constructor
      · intro ht
        split
        · trivial
        · rename_i a as hargs
          simp only [allocates, ht, hargs, List.getElem?_cons_zero, Option.any_some] at halloc
          rw [wp_bind, wp_pure, if_pos halloc]
          exact hfresh
      · intro hnr
        simp only [Ir.noStructAlloc, Ir.isAlloc, decide_eq_true_eq] at hno hna
        unfold allocates at halloc
        split at halloc
        · exact absurd (.inl ‹_›) hna
        · exact absurd ‹_› hno
        · exact absurd ‹_› hnr
        · cases halloc

/-- No object is made where nothing is allocated. -/
theorem idCallObj_skip {g : Gen} {f i vn : Nat}
    (hnode : (g.nodes.getD vn {}).val = some (.inst i)) (halloc : allocates P f i = false)
    (hstat : P.hasStatic f = false) :
    Wp (idCallObj P fuel vn (some f)) (fun _ g' => g' = g) g := by
  unfold idCallObj
  rw [wp_bind, wp_get, hnode]
  dsimp only
  rw [wp_ite]
  constructor
  · intro hno
    simp only [Ir.noStructAlloc, decide_eq_true_eq] at hno
    simp [allocates, hno] at halloc
  · intro _
    rw [wp_ite]
    constructor
    · intro hna
      simp only [Ir.isAlloc, decide_eq_true_eq] at hna
      rcases hna with hna | hna <;> simp [allocates, hna] at halloc
    · intro _
      rw [wp_ite]
      constructor
      · intro ht
        split
        · trivial
        · rename_i a as hargs
          simp only [allocates, ht, hargs, List.getElem?_cons_zero, Option.any_some] at halloc
          rw [wp_bind, wp_pure, halloc]
          simp [hstat]
      · intro _
        rw [wp_bind, wp_pure]
        simp [hstat]

/-- The argument `v` of a call is passed on to its result. -/
theorem passArg_result {g : Gen} {f i vn : Nat} {v : Val} (hH : Handled P g.valNode i)
    (hret : returned P f i = some v) (hmem : v ∈ (P.insts i).args) (g0 : Gen)
    (hg0 : g0.valNode = g.valNode) :
    Wp (passArg P fuel vn v) (fun _ g' => ∃ new, ResultCons P f i g g' vn new ∧
      g'.constraints = g0.constraints ++ new) g0 := by
  unfold passArg
  rw [wp_ite]
  constructor
  · intro hptr
    obtain ⟨n, hn⟩ := hH v hmem hptr
    have hn0 := hn
    rw [← hg0] at hn0
    rw [wp_bind]
    apply (hn0.lookup).imp
    rintro _ _ ⟨rfl, rfl⟩
    unfold consUnless0
    rw [wp_ite]
    constructor
    · rintro rfl
      exact ⟨_, .value hret hptr hn fun h => absurd rfl h, by simp⟩
    · intro hne
      rw [wp_cons]
      intro cs b hadd
      refine ⟨_, .value hret hptr hn fun _ hne => addCons_copy_i2p hadd hne, ?_⟩
      rw [addCons_result hadd]
      simp [hne, eq_comm]
  · intro hptr
    rw [wp_cons]
    intro cs b hadd
    refine ⟨_, .unknown hret (by simpa using hptr), ?_⟩
    rw [addCons_result hadd]
    simp

theorem returnArg_result {g : Gen} {f i vn k : Nat} (hR : ResultNode P i g vn)
    (hH : Handled P g.valNode i) (hret : returnedNo P f i = some k) :
    Wp (returnArg P fuel i k) (fun _ g' => ∃ new, ResultCons P f i g g' vn new ∧
      g'.constraints = g.constraints ++ new) g := by
  unfold returnArg
  rw [wp_ite]
  refine ⟨fun _ => ?_, fun h => absurd hR.ptr h⟩
  rw [wp_bind]
  apply (getValNode_finds _ g).imp
  rintro vnD _ ⟨rfl, hvn⟩
  obtain rfl : vn = vnD := Option.some.inj (hR.entry.symm.trans hvn)
  rw [wp_bind]
  unfold callArg
  split
  · trivial
  · rename_i v hv
    rw [wp_pure]
    refine passArg_result hH ?_ (List.mem_of_getElem? hv) _ rfl
    rw [returned, hret]
    exact hv

theorem hasStatic_false {f : Nat} (htype : P.extType f ∈ resultTypes) :
    P.hasStatic f = false := by
  rw [Ir.hasStatic, decide_eq_false_iff_not]
  rintro (h | h) <;> simp [resultTypes, h] at htype

/-- Nothing is left to do for an object that was made before. -/
theorem idExtCall_alloc {f i : Nat} (halloc : allocates P f i = true) (g : Gen) :
    Wp (idExtCall P fuel i f) (fun _ g' => g' = g) g := by
  unfold idExtCall
  simp only [wp_bind, wp_lift, wp_ite]
  refine fun _ _ => ⟨fun _ => rfl, fun hno => ?_⟩
  unfold allocates at halloc
  split at halloc
  · exact absurd (.inl (by simp [Ir.isAlloc, *])) hno
  · exact absurd (.inl (by simp [Ir.isAlloc, *])) hno
  · rename_i ht
    rw [ht]
    dsimp only
    rw [wp_bind]
    unfold callArg
    split
    · trivial
    · rename_i v hv
      simp only [hv, Option.any_some] at halloc
      rw [wp_pure, if_pos halloc]
      rfl
  · cases halloc

theorem idExtCall_result {g : Gen} {f i vn : Nat} (hR : ResultNode P i g vn)
    (hH : Handled P g.valNode i) (htype : P.extType f ∈ resultTypes)
    (halloc : allocates P f i = false) :
    Wp (idExtCall P fuel i f) (fun _ g' => ∃ new, ResultCons P f i g g' vn new ∧
      g'.constraints = g.constraints ++ new) g := by
  have hnone : returnedNo P f i = none → ∃ new, ResultCons P f i g g vn new ∧
      g.constraints = g.constraints ++ new := fun hret => ⟨[], .nothing halloc hret, by simp⟩
  unfold idExtCall
  simp only [wp_bind, wp_lift, wp_ite]
  refine fun _ _ => ⟨?_, fun _ => ?_⟩
  · rintro (h | h)
    · simp only [Ir.isAlloc, decide_eq_true_eq] at h
      rcases h with h | h <;> simp [allocates, h] at halloc
    · simp [hasStatic_false htype] at h
  · cases ht : P.extType f with
    | realloc =>
        dsimp only
        rw [wp_bind]
        unfold callArg
        split
        · trivial
        · rename_i v hv
          rw [wp_pure]
          have hnot : v.isNullPtr = false := by simpa [allocates, ht, hv] using halloc
          rw [hnot, if_neg (by simp)]
          exact returnArg_result hR hH (by simp [returnedNo, ht, hv, hnot])
    | lA0 => exact returnArg_result hR hH (by simp [returnedNo, ht])
    | lA1 => exact returnArg_result hR hH (by simp [returnedNo, ht])
    | lA2 => exact returnArg_result hR hH (by simp [returnedNo, ht])
    | lA8 => exact returnArg_result hR hH (by simp [returnedNo, ht])
    | noop => exact hnone (by simp [returnedNo, ht])
    | other => exact hnone (by simp [returnedNo, ht])
    | alloc => trivial
    | noStructAlloc => trivial
    | _ => simp [resultTypes, ht] at htype

theorem idExtCall_isExt {f i : Nat} (g : Gen) :
    Wp (idExtCall P fuel i f) (fun _ _ => P.isExt f = true) g := by
  unfold idExtCall
  rw [wp_bind, wp_lift]
  intro _ hext
  exact wp_true.imp fun _ _ _ => require_ok.mp hext

theorem returnedNo_of_allocates {f i : Nat} (h : allocates P f i = true) :
    returnedNo P f i = none := by
  unfold allocates at h
  unfold returnedNo
  split at h <;> rename_i ht <;> simp_all

/-- A returned pointer with a node is copied. -/
theorem ResultCons.copy_mem {g g' : Gen} {f i vn n : Nat} {v : Val} {new : List Constraint}
    (h : ResultCons P f i g g' vn new) (hret : returned P f i = some v) (hptr : P.isPtr v = true)
    (hn : Finds g.valNode v n) (h0 : n ≠ 0) (hne : n ≠ vn) : ⟨.copy, vn, n, 0⟩ ∈ new := by
  cases h with
  | object halloc _ => simp [returned, returnedNo_of_allocates halloc] at hret
  | nothing _ hno => simp [returned, hno] at hret
  | unknown hret' hptr' =>
      obtain rfl := Option.some.inj (hret.symm.trans hret')
      simp [hptr] at hptr'
  | value hret' _ hn' _ =>
      obtain rfl := Option.some.inj (hret.symm.trans hret')
      obtain rfl := hn.unique hn'
      simp [h0, Ne.symm hne]

/-- The constraints a direct call adds. -/
theorem directCall_result {g : Gen} {f i vn : Nat} (hR : ResultNode P i g vn)
    (hH : Handled P g.valNode i) (htype : P.extType f ∈ resultTypes) :
    Wp (do
      idCallObj P fuel vn (some f)
      idExtCall P fuel i f) (fun _ g' => ∃ new, ResultCons P f i g g' vn new ∧
        g'.constraints = g.constraints ++ new) g := by
  rw [wp_bind]
  cases halloc : allocates P f i with
  | true =>
      apply (idCallObj_alloc hR.node halloc).imp
      rintro _ g1 ⟨on, -, hobj, hcs⟩
      apply (idExtCall_alloc halloc g1).imp
      rintro _ _ rfl
      exact ⟨_, .object halloc hobj, hcs⟩
  | false =>
      apply (idCallObj_skip hR.node halloc (hasStatic_false htype)).imp
      rintro _ _ rfl
      exact idExtCall_result hR hH htype halloc

/-! ## Indirect calls -/

section

variable {W : Type} [Worklist W] {s s' : Solver W} {g : Gen} {f i : Nat}

theorem handleExt_isExt (hrun : handleExt (P.window g) s f i = .ok s') : P.isExt f = true :=
  (require_bind_ok.mp hrun).1

theorem handleExt_alloc (hext : P.isExt f = true) (hnew : (f, i) ∉ s.extSeen)
    (halloc : allocates P f i = true) :
    handleExt (P.window g) s f i =
      handleExtAlloc { s with extSeen := insert (f, i) s.extSeen } ((P.window g).callSite i) := by
  unfold handleExt
  rw [require, if_pos (by exact hext)]
  change (if (f, i) ∈ s.extSeen then _ else _) = _
  rw [if_neg hnew]
  unfold allocates at halloc
  split at halloc
  · rename_i ht
    simp only [Ir.window, ht]
  · rename_i ht
    simp only [Ir.window, ht]
  · rename_i ht
    cases hv : (P.insts i).args[0]? with
    | none => simp [hv] at halloc
    | some v =>
        simp only [hv, Option.any_some] at halloc
        simp only [Ir.window, ht, List.getElem?_map, hv, Option.map_some, halloc, if_true]
  · cases halloc

theorem handleExt_arg {v : Val} (hext : P.isExt f = true) (hnew : (f, i) ∉ s.extSeen)
    (hret : returned P f i = some v) : ∃ k, (P.insts i).args[k]? = some v ∧
      handleExt (P.window g) s f i =
        handleExtArg { s with extSeen := insert (f, i) s.extSeen } ((P.window g).callSite i) k := by
  obtain ⟨k, hk, hv⟩ := Option.bind_eq_some_iff.mp hret
  refine ⟨k, hv, ?_⟩
  unfold handleExt
  rw [require, if_pos (by exact hext)]
  change (if (f, i) ∈ s.extSeen then _ else _) = _
  rw [if_neg hnew]
  unfold returnedNo at hk
  split at hk
  · rename_i ht
    split at hk
    · cases hk
    · rename_i hnull
      obtain rfl := Option.some.inj hk
      simp only [hv, Option.any_some, Bool.not_eq_true] at hnull
      simp [Ir.window, ht, hv, hnull]
  · rename_i ht
    obtain rfl := Option.some.inj hk
    simp only [Ir.window, ht]
  · rename_i ht
    obtain rfl := Option.some.inj hk
    simp only [Ir.window, ht]
  · rename_i ht
    obtain rfl := Option.some.inj hk
    simp only [Ir.window, ht]
  · rename_i ht
    obtain rfl := Option.some.inj hk
    simp only [Ir.window, ht]
  · cases hk

/-- What a constraint on the result of a call comes to in a state of the solver. The object of
a direct call stands for that of the indirect one. -/
def InEffect (i : Nat) (g g' : Gen) (s : Solver W) (C : Constraint) : Prop :=
  match C.type with
  | .addrOf =>
      C.src = i2p ∧ i2p ∈ s.pts (s.rep C.dest) ∨
        g'.objNode (.inst i) = some C.src ∧
          ∃ on, g.objNode (.inst i) = some on ∧ on ∈ s.pts (s.rep C.dest)
  | _ => s.rep C.src = 0 ∨ s.Edge C.src C.dest

/-- The result of call `i` of `f` is an argument that has no node of its own but that of what
it is cast from. -/
def ReturnsCast (P : Ir) (f i : Nat) (g : Gen) (vn : Nat) : Prop :=
  ∃ t ops n, returned P f i = some (.expr .bitCast t ops) ∧ t.isPtr = true ∧
    g.valNode (.expr .bitCast t ops) = none ∧ Finds g.valNode (.expr .bitCast t ops) n ∧
      n ≠ 0 ∧ n ≠ vn

variable [LawfulWorklist W]

theorem handleExtAlloc_inEffect {I : CallSite} {vn : Nat} (hptr : I.isPtr = true)
    (hvn : I.valNode = some vn) (hrun : handleExtAlloc s I = .ok s') :
    ∃ on, I.objNode = some on ∧ on ∈ s'.pts (s'.rep vn) := by
  have hE : Permits fun _ => True := permits_true
  unfold handleExtAlloc at hrun
  rw [if_neg (by simp [hptr]), bind_ok] at hrun
  obtain ⟨vn', hvn', hrun⟩ := hrun
  obtain ⟨onD, honD, hrun⟩ := bind_ok.mp hrun
  obtain ⟨v, hv, hrun⟩ := bind_ok.mp hrun
  obtain ⟨hvn'', -⟩ := (getNode_spec hE I.valNode (by decide) (by decide)).result hvn'
  obtain rfl : vn = vn' := Option.some.inj (hvn.symm.trans hvn'')
  obtain ⟨hobj, -⟩ := (getNode_spec hE I.objNode (by decide) (by decide)).result honD
  obtain ⟨rfl, -⟩ := (nodeVar_spec hE s.toAnders onD).result hv
  have hgrows := (addPtsPush_grows (M := .uniform true) hE s (s.rep vn) {onD}).result hrun
  refine ⟨onD, hobj, ?_⟩
  rw [hgrows.rep]
  exact hgrows.facts _ _ ⟨rfl, Finset.mem_singleton_self onD⟩

theorem handleExtArg_unknown {I : CallSite} {vn k : Nat} {src : CallArg} (hptr : I.isPtr = true)
    (hvn : I.valNode = some vn) (hsrc : I.args[k]? = some src) (hint : src.isPtr = false)
    (hrun : handleExtArg s I k = .ok s') : i2p ∈ s'.pts (s'.rep vn) := by
  have hE : Permits fun _ => True := permits_true
  unfold handleExtArg at hrun
  rw [if_neg (by simp [hptr]), bind_ok] at hrun
  obtain ⟨vn', hvn', hrun⟩ := hrun
  obtain ⟨hvn'', -⟩ := (getNode_spec hE I.valNode (by decide) (by decide)).result hvn'
  obtain rfl : vn = vn' := Option.some.inj (hvn.symm.trans hvn'')
  simp only [hsrc, hint, Bool.false_eq_true, if_false] at hrun
  obtain ⟨v, hv, hrun⟩ := bind_ok.mp hrun
  obtain ⟨rfl, -⟩ := (nodeVar_spec hE s.toAnders i2p).result hv
  have hgrows := (addPtsPush_grows (M := .uniform true) hE s (s.rep vn) {i2p}).result hrun
  rw [hgrows.rep]
  exact hgrows.facts _ _ ⟨rfl, Finset.mem_singleton_self i2p⟩

theorem handleExtArg_value {I : CallSite} {vn k n : Nat} {src : CallArg} (hptr : I.isPtr = true)
    (hvn : I.valNode = some vn) (hsrc : I.args[k]? = some src) (hsptr : src.isPtr = true)
    (hn : src.valNode = some n) (hi2p : s.rep n ≠ i2p ∧ s.rep vn ≠ i2p)
    (hrun : handleExtArg s I k = .ok s') : s'.rep n = 0 ∨ s'.Edge n vn := by
  have hE : Permits fun _ => True := permits_true
  unfold handleExtArg at hrun
  rw [if_neg (by simp [hptr]), bind_ok] at hrun
  obtain ⟨vn', hvn', hrun⟩ := hrun
  obtain ⟨hvn'', -⟩ := (getNode_spec hE I.valNode (by decide) (by decide)).result hvn'
  obtain rfl : vn = vn' := Option.some.inj (hvn.symm.trans hvn'')
  simp only [hsrc, hsptr, hn, Option.getD_some, if_true] at hrun
  by_cases h0 : s.rep n = 0
  · rw [if_pos h0] at hrun
    obtain rfl := Except.ok.inj hrun
    exact .inl h0
  · rw [if_neg h0] at hrun
    have hgrows := ((addCopyEdge_grows (M := .uniform true) s (s.rep n) (s.rep vn)).push hE
      fun m hm => hm).result hrun
    right
    unfold Graph.Edge
    rw [show s'.toGraph.rep = s.toGraph.rep from hgrows.rep]
    by_cases hsame : s.rep n = s.rep vn
    · exact .inl hsame
    · refine .inr ⟨s.rep vn, hgrows.copy_all _ _ ⟨rfl, rfl⟩ ⟨hi2p.1, hi2p.2, hsame⟩, ?_⟩
      exact s.forest.find_find vn

omit [LawfulWorklist W] in
theorem callSite_arg {k : Nat} {v : Val} (hk : (P.insts i).args[k]? = some v) :
    ((P.window g).callSite i).args[k]? = some ⟨v.isNullPtr, P.isPtr v, g.valNode v⟩ := by
  simp [Ir.window, hk]

theorem handleExt_inEffect {g' : Gen} {vn : Nat} {new : List Constraint} (hR : ResultNode P i g vn)
    (hi2p : ∀ n, s.rep n = i2p ↔ n = i2p) (hcast : ¬ ReturnsCast P f i g vn)
    (hres : ResultCons P f i g g' vn new) (hnew : (f, i) ∉ s.extSeen)
    (hrun : handleExt (P.window g) s f i = .ok s') : ∀ C ∈ new, InEffect i g g' s' C := by
  have hext := handleExt_isExt hrun
  set s1 : Solver W := { s with extSeen := insert (f, i) s.extSeen } with hs1
  cases hres with
  | object halloc hobj =>
      intro C hC
      obtain rfl := List.mem_singleton.mp hC
      rw [handleExt_alloc hext hnew halloc] at hrun
      exact .inr ⟨hobj, handleExtAlloc_inEffect hR.ptr hR.entry hrun⟩
  | nothing _ _ => simp
  | unknown hret hptr =>
      intro C hC
      obtain rfl := List.mem_singleton.mp hC
      obtain ⟨k, hk, heq⟩ := handleExt_arg hext hnew hret
      rw [heq] at hrun
      exact .inl ⟨rfl, handleExtArg_unknown hR.ptr hR.entry (callSite_arg hk) hptr hrun⟩
  | @value v n hret hptr hn hi =>
      intro C hC
      split at hC
      · cases hC
      · rename_i hne
        obtain ⟨h0, hvn⟩ := not_or.mp hne
        obtain rfl := List.mem_singleton.mp hC
        obtain ⟨hni, hvi⟩ := hi h0 (Ne.symm hvn)
        obtain ⟨k, hk, heq⟩ := handleExt_arg hext hnew hret
        rw [heq] at hrun
        have hrep : s1.rep n ≠ i2p ∧ s1.rep vn ≠ i2p :=
          ⟨fun h => hni ((hi2p n).mp h), fun h => hvi ((hi2p vn).mp h)⟩
        cases hn with
        | entry hv =>
            exact handleExtArg_value hR.ptr hR.entry (callSite_arg hk) hptr hv hrep hrun
        | null _ _ => exact absurd rfl h0
        | gep _ _ => exact absurd rfl h0
        | @cast t ops _ hnone hop =>
            exact absurd ⟨t, ops, n, hret, hptr, hnone, .cast hnone hop, h0, Ne.symm hvn⟩ hcast

omit [LawfulWorklist W] in
/-- A solver that has not done anything yet loses what a cast points to. -/
theorem handleExt_loses {vn : Nat} (g' : Gen) (hR : ResultNode P i g vn) (hext : P.isExt f = true)
    {t : Ty} {ops : Vals} {n : Nat} (hret : returned P f i = some (.expr .bitCast t ops))
    (hptr : t.isPtr = true) (hnone : g.valNode (.expr .bitCast t ops) = none) (hn : n ≠ 0)
    (hvn : n ≠ vn) :
    ∃ s s' : Solver W, (∀ n, s.rep n = i2p ↔ n = i2p) ∧ (f, i) ∉ s.extSeen ∧
      handleExt (P.window g) s f i = .ok s' ∧ ¬ InEffect i g g' s' ⟨.copy, vn, n, 0⟩ := by
  let s : Solver W :=
    { Anders.initial 0 0 (fun _ => {}) [] with
      wl := Worklist.create 0
      now := 1, nNodeRuns := 0, lastLcd := 0, currLcdDfs := 0
      lcdEdges := ∅, lcdStarts := ∅, lcdDfsId := fun _ => none
      lcdStk := [], lcdRoots := ∅, extSeen := ∅ }
  have hrep : ∀ n, s.rep n = n := fun n => Forest.find_of_isRep rfl
  refine ⟨s, { s with extSeen := insert (f, i) s.extSeen }, fun n => by rw [hrep], by simp [s], ?_,
    ?_⟩
  · obtain ⟨k, hk, heq⟩ := handleExt_arg (g := g) hext (by simp [s] : (f, i) ∉ s.extSeen) hret
    have hvn : getNode ((P.window g).callSite i).valNode "Value has no node"
        "val_node map has a 0 entry" = .ok vn := by
      rw [show ((P.window g).callSite i).valNode = some vn from hR.entry, getNode, require,
        if_pos hR.ne]
      rfl
    rw [heq, handleExtArg, if_neg (by simp [Ir.window, hR.ptr]), hvn]
    dsimp only [bind, Except.bind]
    simp only [callSite_arg hk]
    rw [if_pos (show P.isPtr (.expr .bitCast t ops) = true from hptr), hnone]
    exact if_pos (hrep 0)
  · rintro (h0 | hsame | ⟨e, he, -⟩)
    · exact hn ((hrep n).symm.trans h0)
    · exact hvn ((hrep n).symm.trans (hsame.trans (hrep vn)))
    · cases he

end

/-- What a direct call of `f` in state `g` gives the result of call `i` is what an indirect one
brings about in every state of the solver: exactly if the call does not return a cast of
something that has a node. State `g` may be any state behind the one in which the indirect
call was handled. -/
theorem handleExt_agrees_iff (P : Ir) (fuel f i : Nat) (W : Type) [Worklist W] [LawfulWorklist W]
    (htype : P.extType f ∈ resultTypes) (hasm : ∀ t, (P.insts i).called ≠ .inlineAsm t)
    (g0 gi g gd : Gen) (vn0 vn : Nat) (hR0 : ResultNode P i g0 vn0) (hR : ResultNode P i g vn)
    (hind : (do
      idCallObj P fuel vn0 none
      idIndCall P fuel i) g0 = .ok ((), gi))
    (hval : Later gi.valNode g.valNode) (hobj : Later gi.objNode g.objNode)
    (hdir : (do
      idCallObj P fuel vn (some f)
      idExtCall P fuel i f) g = .ok ((), gd)) :
    (g.objNode (.inst i)).isSome ∧
      ((∀ s s' : Solver W, (∀ n, s.rep n = i2p ↔ n = i2p) → (f, i) ∉ s.extSeen →
        handleExt (P.window g) s f i = .ok s' →
        ∀ C ∈ gd.constraints.drop g.constraints.length, InEffect i g gd s' C) ↔
      ¬ ReturnsCast P f i g vn) := by
  have hindirect : Wp (do
      idCallObj P fuel vn0 none
      idIndCall P fuel i)
      (fun _ g' => Handled P g'.valNode i ∧ (g'.objNode (.inst i)).isSome) g0 := by
    rw [wp_bind]
    apply (idCallObj_none hR0.node).imp
    rintro _ g1 ⟨-, hobj1⟩
    apply (idIndCall_handled i hasm g1).imp
    rintro _ g2 ⟨hH, hobj2⟩
    exact ⟨hH, hobj2 ▸ hobj1⟩
  obtain ⟨hHi, hobji⟩ := hindirect.result hind
  have hH := hHi.later hval
  obtain ⟨new, hres, hcs⟩ := (directCall_result hR hH htype).result hdir
  have hext : P.isExt f = true := by
    have hwp : Wp (do
        idCallObj P fuel vn (some f)
        idExtCall P fuel i f) (fun _ _ => P.isExt f = true) g := by
      rw [wp_bind]
      exact wp_true.imp fun _ g1 _ => idExtCall_isExt g1
    exact hwp.result hdir
  rw [hcs, List.drop_left]
  refine ⟨hobj _ hobji, fun h => ?_, fun h s s' hi2p hnew hrun => ?_⟩
  · rintro ⟨t, ops, n, hret, hptr, hnone, hn, h0, hne⟩
    obtain ⟨s, s', hi2p, hnew, hrun, hlost⟩ :=
      handleExt_loses (W := W) gd hR hext hret hptr hnone h0 hne
    exact hlost (h s s' hi2p hnew hrun _ (hres.copy_mem hret hptr hn h0 hne))
  · exact handleExt_inEffect hR hi2p h hres hnew hrun

end

/-- A call of a function pointer with argument `v`, where the pointer may be an external
function that returns its argument. -/
def callWith (v : Val) : Ir where
  structs _ := []
  named := []
  funcs := [⟨"f", true, false, false, [.ptr .int], .ptr .int, []⟩,
    ⟨"g", false, false, false, [.ptr .other], .void, [⟨[0], []⟩]⟩]
  globals := [⟨.array .int, none, false⟩]
  insts _ := ⟨.call, .ptr .int, [v, .arg 1 0]⟩
  parent _ := (1, 0)
  users _ := []
  extInfo name := if name = "f" then some .lA0 else none
  setOrder := id
  ulongBits := 32

/-- The nodes of the function pointer, of the global and of the result. -/
def beforeCall : Gen :=
  { Gen.empty with
    nodes := special ++ [{ val := some (.arg 1 0) }, { val := some (.global 0) },
      { val := some (.inst 0) }]
    nextNode := 6
    valNode := fun v => match v with
      | .arg 1 0 => some 3
      | .global 0 => some 4
      | .inst 0 => some 5
      | _ => none }

/-- The global, cast to the type of the parameter. -/
def castGlobal : Val := .expr .bitCast (.ptr .int) (.ofList [.global 0])

/-- Both ways to handle the call, the direct one behind the indirect one. -/
theorem callWith_runs {v : Val} {p : Gen → Gen → Bool}
    (h : Passes ((do
      idCallObj (callWith v) 9 5 none
      idIndCall (callWith v) 9 0) beforeCall) (fun g =>
        g.valNode (.inst 0) == some 5 && (g.nodes.getD 5 {}).val == some (.inst 0) &&
        Passes ((do
          idCallObj (callWith v) 9 5 (some 0)
          idExtCall (callWith v) 9 0 0) g) (p g)) = true) :
    ∃ g gd, (do
        idCallObj (callWith v) 9 5 none
        idIndCall (callWith v) 9 0) beforeCall = .ok ((), g) ∧
      ResultNode (callWith v) 0 g 5 ∧
      (do
        idCallObj (callWith v) 9 5 (some 0)
        idExtCall (callWith v) 9 0 0) g = .ok ((), gd) ∧ p g gd = true := by
  obtain ⟨_, g, hind, htest⟩ := Passes.state h
  simp only [Bool.and_eq_true, beq_iff_eq] at htest
  obtain ⟨⟨hval, hnode⟩, htest⟩ := htest
  obtain ⟨_, gd, hdir, hp⟩ := Passes.state htest
  exact ⟨g, gd, hind, ⟨by decide, rfl, hval, hnode⟩, hdir, hp⟩

theorem handleExt_agrees_global : ∃ gi gd,
    (do
      idCallObj (callWith (.global 0)) 9 5 none
      idIndCall (callWith (.global 0)) 9 0) beforeCall = .ok ((), gi) ∧
    (do
      idCallObj (callWith (.global 0)) 9 5 (some 0)
      idExtCall (callWith (.global 0)) 9 0 0) gi = .ok ((), gd) ∧
    gd.constraints.drop gi.constraints.length = [⟨.copy, 5, 4, 0⟩] ∧
    ∀ s s' : Solver (Lists true PrioHeap), (∀ n, s.rep n = i2p ↔ n = i2p) → (0, 0) ∉ s.extSeen →
      handleExt ((callWith (.global 0)).window gi) s 0 0 = .ok s' →
      ∀ C ∈ gd.constraints.drop gi.constraints.length, InEffect 0 gi gd s' C := by
  obtain ⟨gi, gd, hind, hR, hdir, hcs⟩ := callWith_runs (v := .global 0)
    (p := fun g gd => gd.constraints.drop g.constraints.length == [⟨.copy, 5, 4, 0⟩])
    (by decide +kernel)
  refine ⟨gi, gd, hind, hdir, beq_iff_eq.mp hcs, ?_⟩
  refine (handleExt_agrees_iff (callWith (.global 0)) 9 0 0 (Lists true PrioHeap) (by decide)
    (fun t h => by cases h) beforeCall gi gi gd 5 5 ⟨by decide, rfl, rfl, rfl⟩ hR hind
    (fun _ => id) (fun _ => id) hdir).2.mpr ?_
  rintro ⟨t, ops, n, hret, -⟩
  cases hret

/-- The result does not get what the global points to if the argument is a cast of it. -/
theorem handleExt_agrees_lost : ∃ gi gd, ∃ s s' : Solver (Lists true PrioHeap),
    (do
      idCallObj (callWith castGlobal) 9 5 none
      idIndCall (callWith castGlobal) 9 0) beforeCall = .ok ((), gi) ∧
    (do
      idCallObj (callWith castGlobal) 9 5 (some 0)
      idExtCall (callWith castGlobal) 9 0 0) gi = .ok ((), gd) ∧
    (0, 0) ∉ s.extSeen ∧ handleExt ((callWith castGlobal).window gi) s 0 0 = .ok s' ∧
    ∃ C ∈ gd.constraints.drop gi.constraints.length, ¬ InEffect 0 gi gd s' C := by
  obtain ⟨gi, gd, hind, hR, hdir, hp⟩ := callWith_runs (v := castGlobal)
    (p := fun g gd => (g.valNode castGlobal).isNone &&
      gd.constraints.drop g.constraints.length == [⟨.copy, 5, 4, 0⟩]) (by decide +kernel)
  simp only [Bool.and_eq_true, Option.isNone_iff_eq_none, beq_iff_eq] at hp
  obtain ⟨hnone, hcs⟩ := hp
  have hret : returned (callWith castGlobal) 0 0 =
      some (.expr .bitCast (.ptr .int) (.ofList [.global 0])) := rfl
  obtain ⟨s, s', -, hnew, hrun, hlost⟩ := handleExt_loses (W := Lists true PrioHeap) (n := 4) gd hR
    (by decide) hret rfl hnone (by decide) (by decide)
  refine ⟨gi, gd, s, s', hind, hdir, hnew, hrun, ⟨.copy, 5, 4, 0⟩, ?_, hlost⟩
  rw [hcs]
  exact List.mem_singleton_self _

end Gen

end PtrAnalysis
