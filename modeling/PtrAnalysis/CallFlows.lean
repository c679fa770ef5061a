import PtrAnalysis.ExtCalls
import PtrAnalysis.IndCalls
import PtrAnalysis.TablesSpec

/-!
# What the solver makes of an indirect call

The loads and stores of an indirect call become copy edges when the function is known. They are
filtered by the size of the function object and by the types of its parameters; here is when
the edges are those of a direct call.
-/

namespace PtrAnalysis

open Run Act

namespace Gen

section

variable {P : Ir}

/-! ## The tables -/

/-- The nodes of the solver are those of the generator. -/
structure Describes (P : Ir) (g : Gen) (a : Anders) : Prop where
  value : ∀ n v, (g.nodes.getD n {}).val = some v →
    ∃ V, (a.nodes n).val = some V ∧ V.func? = v.func? ∧ V.isPtr = P.isPtr v
  objSz : ∀ n, (a.nodes n).objSz = g.objSz n
  objects : ∀ n, 0 < g.objSz n → n ≤ a.lastObjNode

/-- The solver works on the nodes of the generator and with the tables that `ptsInit` makes for
constraints among which are `cs`. -/
def WorksOn (P : Ir) (g : Gen) (cs : List Constraint) (s : Anders) : Prop :=
  ∃ a b, Describes P g a ∧ a.extFuncNodes = ∅ ∧ a.extFuncNodeSet = ∅ ∧ (∀ C ∈ cs, C ∈ a.constraints) ∧
    ptsInit (P.window g) a = .ok b ∧ s.offMask = b.offMask ∧ s.extFuncNodes = b.extFuncNodes ∧
    s.extFuncNodeSet = b.extFuncNodeSet ∧ s.funcNodeSet = b.funcNodeSet ∧
    ∀ n, (s.nodes n).val = (b.nodes n).val

/-- What the tables say about the function object at `onF`. -/
structure FuncTables (cs : List Constraint) (onF objSz : Nat) (s : Anders) : Prop where
  mask : ∀ C ∈ cs, C.off ≠ 0 → (onF ∈ s.offMask.getD C.off ∅ ↔ C.off < objSz)
  func : onF ∈ s.funcNodeSet
  notExt : onF ∉ s.extFuncNodes
  notExtSet : onF ∉ s.extFuncNodeSet

theorem WorksOn.tables {g : Gen} {cs : List Constraint} {s : Anders} {f onF : Nat}
    (h : WorksOn P g cs s) (hF : TakenFunc P f g onF) (hext : P.isExt f = false) :
    FuncTables cs onF (g.objSz onF) s := by
  obtain ⟨a, b, hdesc, hno, hnoSet, hcs, hinit, hmask, hexts, hextSet, hfuncs, -⟩ := h
  have hready := (ptsInit_spec (P.window g) a).result hinit
  obtain ⟨V, hV, hfunc, -⟩ := hdesc.value onF _ hF.func
  have hlast : onF ≤ a.lastObjNode := hdesc.objects onF (Nat.zero_lt_of_lt hF.ret)
  have hsome : (a.nodes onF).val.bind Value.func? = some f := by
    rw [hV, Option.bind_some, hfunc]
    rfl
  have hint : ¬ IsExtNode (P.window g) a onF := by
    rintro ⟨f', hf', hext'⟩
    obtain rfl := Option.some.inj (hsome.symm.trans hf')
    exact absurd (hext.symm.trans hext') (by simp)
  refine ⟨fun C hC h0 => ?_, ?_, ?_, ?_⟩
  · rw [hmask, hready.mask C.off (mem_validOff.mpr ⟨h0, C, hcs C hC, rfl⟩) onF, hdesc.objSz]
    exact and_iff_right hlast
  · rw [hfuncs, hready.functions.func]
    refine .inr ⟨Nat.lt_succ_of_le hlast, f, hsome, .inr ?_⟩
    rw [hdesc.objSz]
    exact hF.ret
  · rw [hexts, hready.functions.ext, hno]
    simp [hint]
  · rw [hextSet, hready.functions.extSet, hnoSet]
    simp [hint]

section

variable {W : Type} [Worklist W]

/-- The solver handles the loads and stores `cs` of call `i`, whose function pointer points to
`d`. -/
def solveCall (M : Module) (d : Finset Nat) (i : Nat) (cs : List Constraint) (s : Solver W) :
    Run (Solver W) :=
  cs.foldlM (fun s C => solveLsOff M s d (C.type = .load) (s.rep C.dest) (s.rep C.src) C.off
    (some {i})) s

/-- The demand of one of these constraints. -/
def callDemand (a : Anders) (d : Finset Nat) (i : Nat) (C : Constraint) : Demand :=
  .each (lsOffDemand a (C.type = .load) (a.rep C.dest) (a.rep C.src) C.off (some {i}))
    (ascending (offPointees a d C.off (some {i})))

variable [LawfulWorklist W]

theorem solveCall_grows (M : Module) (d : Finset Nat) (i : Nat) (cs : List Constraint)
    (s : Solver W) : Spec (solveCall M d i cs s)
      (Grows M (.each (callDemand s.toAnders d i) cs) (fun _ => False) s) fun _ => True := by
  refine Grows.loop fun C _ c hframe hstill => ?_
  have hrep : c.rep = s.rep := by rw [hframe]; rfl
  have hmask : offPointees c.toAnders d C.off (some {i}) =
      offPointees s.toAnders d C.off (some {i}) := by rw [hframe]; rfl
  have hdemand := funext (lsOffDemand_still hframe hstill (C.type = .load) (s.rep C.dest)
    (s.rep C.src) C.off (some {i}))
  have h := solveLsOff_grows (M := M) (E := fun _ => True) permits_true c d (C.type = .load)
    (c.rep C.dest) (c.rep C.src) C.off (some {i}) (.inr trivial)
  rw [hmask, hrep, hdemand] at h
  rw [hrep]
  exact h

omit [Worklist W] [LawfulWorklist W] in
/-- A load or store through a pointer to one function of the program wants one edge, if the
object of the function is big enough and the store is not into a parameter that is no pointer. -/
theorem callDemand_func {cs : List Constraint} {onF objSz : Nat} {a : Anders} {C : Constraint}
    (ht : FuncTables cs onF objSz a) (hC : C ∈ cs) (h0 : C.off ≠ 0) (i : Nat) :
    callDemand a {onF} i C =
      if C.off < objSz ∧ ¬ (C.type ≠ .load ∧ skipsParam a (a.rep (onF + C.off)) = true) then
        lsDemand (C.type = .load) (a.rep C.dest) (a.rep C.src) (a.rep (onF + C.off))
      else .nothing := by
  have hpt : offPointees a {onF} C.off (some {i}) = if C.off < objSz then {onF} else ∅ := by
    ext n
    simp only [offPointees, Option.isSome_some, if_true, Finset.mem_inter, Finset.mem_singleton,
      Finset.mem_union]
    constructor
    · rintro ⟨rfl, h | h⟩
      · rw [if_pos ((ht.mask C hC h0).mp h)]
        exact Finset.mem_singleton_self n
      · exact absurd h ht.notExt
    · intro hn
      split at hn
      · rename_i hlt
        obtain rfl := Finset.mem_singleton.mp hn
        exact ⟨rfl, .inl ((ht.mask C hC h0).mpr hlt)⟩
      · cases hn
  unfold callDemand
  rw [hpt]
  by_cases hlt : C.off < objSz
  · rw [if_pos hlt, ascending_singleton, Demand.each_singleton]
    unfold lsOffDemand
    dsimp only
    rw [if_neg (not_not.mpr ht.func), if_neg ht.notExtSet]
    by_cases hskip : C.type ≠ .load ∧ skipsParam a (a.rep (onF + C.off)) = true
    · rw [if_pos (by simpa using hskip), if_neg (fun h => h.2 hskip)]
    · rw [if_neg (by simpa using hskip), if_pos ⟨hlt, hskip⟩]
  · rw [if_neg hlt, if_neg (fun h => hlt h.1), ascending_empty, Demand.each_nil]

/-- What flows where by the indirect call `i` of a function whose object of `objSz` fields is at
`onF`; stores into the nodes that `skips` tells are left out. -/
inductive IndFlow (P : Ir) (i : Nat) (valNode : Val → Option Nat) (onF objSz : Nat)
    (skips : Nat → Bool) : Nat → Nat → Prop where
  | result {vnI : Nat} : (P.insts i).ty.isPtr = true → valNode (.inst i) = some vnI →
      funcNodeOffRet < objSz → IndFlow P i valNode onF objSz skips (onF + funcNodeOffRet) vnI
  | arg {k n : Nat} {AA : Val} : (P.insts i).args[k]? = some AA → Passed P valNode AA n →
      funcNodeOffArg0 + k < objSz → skips (onF + funcNodeOffArg0 + k) = false →
      IndFlow P i valNode onF objSz skips n (onF + funcNodeOffArg0 + k)

omit [Worklist W] [LawfulWorklist W] in
theorem callDemand_flow {cs : List Constraint} {onF objSz i vnC : Nat} {a : Anders}
    {valNode : Val → Option Nat} (ht : FuncTables cs onF objSz a)
    (hcs : ∀ C, C ∈ cs ↔ CallOf P valNode i vnC C) (x y : Nat) :
    (Demand.each (callDemand a {onF} i) cs).edge x y ↔
      ∃ n m, IndFlow P i valNode onF objSz (fun n => skipsParam a (a.rep n)) n m ∧
        x = a.rep n ∧ y = a.rep m := by
  constructor
  · rintro ⟨C, hC, hedge⟩
    have hcall := (hcs C).mp hC
    rcases hcall with ⟨hptr, vnI, hvnI, rfl⟩ | ⟨k, AA, n, hk, hn, rfl⟩
    · rw [callDemand_func ht hC Nat.one_ne_zero] at hedge
      split at hedge
      · rename_i h
        obtain ⟨rfl, rfl⟩ := hedge
        exact ⟨_, _, .result hptr hvnI h.1, rfl, rfl⟩
      · exact hedge.elim
    · rw [callDemand_func ht hC (by simp [funcNodeOffArg0])] at hedge
      split at hedge
      · rename_i h
        obtain ⟨rfl, rfl⟩ := hedge
        obtain ⟨hlt, hskip⟩ := h
        refine ⟨_, _, .arg hk hn hlt ?_, rfl, by rw [Nat.add_assoc]⟩
        simpa [Nat.add_assoc] using hskip
      · exact hedge.elim
  · rintro ⟨n, m, hflow, rfl, rfl⟩
    cases hflow with
    | result hptr hvnI hlt =>
        have hC := (hcs ⟨.load, m, vnC, funcNodeOffRet⟩).mpr (.inl ⟨hptr, m, hvnI, rfl⟩)
        refine ⟨_, hC, ?_⟩
        rw [callDemand_func ht hC Nat.one_ne_zero, if_pos ⟨hlt, by simp⟩]
        exact ⟨rfl, rfl⟩
    | @arg k n AA hk hn hlt hskip =>
        have hC := (hcs ⟨.store, vnC, n, funcNodeOffArg0 + k⟩).mpr (.inr ⟨k, AA, n, hk, hn, rfl⟩)
        refine ⟨_, hC, ?_⟩
        rw [callDemand_func ht hC (by simp [funcNodeOffArg0]),
          if_pos ⟨hlt, by simpa [Nat.add_assoc] using hskip⟩]
        exact ⟨rfl, by rw [Nat.add_assoc]⟩

omit [Worklist W] [LawfulWorklist W] in
/-- No external function is called. -/
theorem callDemand_noExt {cs : List Constraint} {onF objSz i vnC : Nat} {a : Anders}
    {valNode : Val → Option Nat} (ht : FuncTables cs onF objSz a)
    (hcs : ∀ C, C ∈ cs ↔ CallOf P valNode i vnC C) (p : Nat × Nat) :
    ¬ (Demand.each (callDemand a {onF} i) cs).ext p := by
  rintro ⟨C, hC, hp⟩
  have h0 : C.off ≠ 0 := by
    rcases (hcs C).mp hC with ⟨-, vnI, -, rfl⟩ | ⟨k, AA, n, -, -, rfl⟩
    · exact Nat.one_ne_zero
    · simp [funcNodeOffArg0]
  rw [callDemand_func ht hC h0, lsDemand] at hp
  split at hp
  · split at hp
    · exact hp
    · exact hp
  · exact hp

/-- The new edges of the solver are the flows of the constraints `new`. -/
def SameFlows (new : List Constraint) (s s' : Solver W) : Prop :=
  (∀ C ∈ new, s'.Edge (flow C).1 (flow C).2) ∧
  ∀ a b, b ∈ (s'.nodes a).copyTo → b ∈ (s.nodes a).copyTo ∨
    ∃ C ∈ new, s.rep (flow C).1 = a ∧ s.rep (flow C).2 = b

/-- The result of call `i` is no pointer that `f` returns as an integer. -/
def RetAgrees (P : Ir) (f i : Nat) : Prop :=
  (P.insts i).ty.isPtr = true → (P.func f).ret.isPtr = true

/-- Whether an argument is stored depends on the type of its parameter, not on that of another
node which stands for the parameter. -/
def TypesAgree (P : Ir) (f i : Nat) (valNode : Val → Option Nat) (onF objSz : Nat) (a : Anders) :
    Prop :=
  ∀ k AA n, (P.insts i).args[k]? = some AA → Passed P valNode AA n → funcNodeOffArg0 + k < objSz →
    skipsParam a (a.rep (onF + funcNodeOffArg0 + k)) = !P.isPtr (.arg f k)

omit [Worklist W] [LawfulWorklist W] in
theorem indFlow_iff {f i onF : Nat} {valNode : Val → Option Nat} {g : Gen} {a : Anders}
    (hF : TakenFunc P f g onF) (hret : RetAgrees P f i)
    (htypes : TypesAgree P f i valNode onF (g.objSz onF) a) (n m : Nat) :
    IndFlow P i valNode onF (g.objSz onF) (fun n => skipsParam a (a.rep n)) n m ↔
      DirFlow P f i valNode onF n m := by
  have htype : ∀ k, P.isPtr (.arg f k) = (((P.func f).params.getD k .other).isPtr) := fun _ => rfl
  constructor
  · rintro (⟨hptr, hvn, -⟩ | @⟨k, n, AA, hk, hn, hlt, hskip⟩)
    · exact .result hptr (hret hptr) hvn
    · have hparam : P.isPtr (.arg f k) = true := by
        have h := (htypes k AA n hk hn hlt).symm.trans hskip
        simpa using h
      have hkn := (hF.node k hlt).1
      refine .arg ⟨k, (P.func f).params[k], AA, List.getElem?_eq_getElem hkn, ?_, hk, hn, by omega⟩
      rwa [htype, List.getD_eq_getElem?_getD, List.getElem?_eq_getElem hkn] at hparam
  · rintro (⟨hptr, -, hvn⟩ | ⟨hptr, hno, -⟩ | ⟨k, T, AA, hT, hTptr, hk, hn, rfl⟩)
    · exact .result hptr hvn hF.ret
    · simp [hret hptr] at hno
    · have hkn := (List.getElem?_eq_some_iff.mp hT).1
      have hparam : P.isPtr (.arg f k) = true := by
        rwa [htype, List.getD_eq_getElem?_getD, hT]
      have hlt := hF.reach k hkn hparam
      rw [Nat.zero_add]
      refine .arg hk hn hlt ?_
      rw [htypes k AA n hk hn hlt, hparam]
      rfl

/-- In state `s` there are no edges yet, and the nodes that call `i` of `f` reads and writes are
in classes of their own. -/
structure Apart (P : Ir) (f i : Nat) (valNode : Val → Option Nat) (onF : Nat) (a : Anders) :
    Prop where
  noEdges : ∀ n, (a.nodes n).copyTo = ∅
  params : ∀ j k, j < (P.func f).params.length → k < (P.func f).params.length →
    a.rep (onF + funcNodeOffArg0 + j) = a.rep (onF + funcNodeOffArg0 + k) → j = k
  result : ∀ vnI, valNode (.inst i) = some vnI → a.rep pI2p ≠ a.rep vnI ∧
    a.rep pI2p ≠ a.rep (onF + funcNodeOffRet) ∧
    ∀ j < (P.func f).params.length, a.rep vnI ≠ a.rep (onF + funcNodeOffArg0 + j)
  args : ∀ AA ∈ (P.insts i).args, ∀ n, Passed P valNode AA n →
    ∀ j < (P.func f).params.length, a.rep n ≠ a.rep (onF + funcNodeOffArg0 + j)

section

variable {f i onF : Nat} {valNode : Val → Option Nat} {g : Gen} {new : List Constraint}
  {s s' : Solver W} {D : Demand} {M : Module} {owed : Nat → Prop}

omit [Worklist W] [LawfulWorklist W] in
theorem proper_edge (hi2p : ∀ n, s.rep n = i2p ↔ n = i2p) {n m : Nat} (hn : n ≠ i2p) (hm : m ≠ i2p)
    (hne : s.rep n ≠ s.rep m) : ProperEdge (s.rep n) (s.rep m) :=
  ⟨fun h => hn ((hi2p n).mp h), fun h => hm ((hi2p m).mp h), hne⟩

/-- Where both ways of calling agree, the new edges are those of the direct call. -/
theorem sameFlows_of_agree (hF : TakenFunc P f g onF) (hret : RetAgrees P f i)
    (htypes : TypesAgree P f i valNode onF (g.objSz onF) s.toAnders)
    (hnew : HasFlows (DirFlow P f i valNode onF) new) (hi2p : ∀ n, s.rep n = i2p ↔ n = i2p)
    (hedge : ∀ x y, D.edge x y ↔ ∃ n m,
      IndFlow P i valNode onF (g.objSz onF) (fun n => skipsParam s.toAnders (s.rep n)) n m ∧
        x = s.rep n ∧ y = s.rep m)
    (hext : ∀ p, ¬ D.ext p) (hgrows : Grows M D owed s s') : SameFlows new s s' := by
  constructor
  · intro C hC
    have hind := (indFlow_iff hF hret htypes _ _).mpr (hnew.sound C hC)
    obtain ⟨h1, h2⟩ := hnew.proper C hC
    unfold Graph.Edge
    rw [show s'.toGraph.rep = s.toGraph.rep from hgrows.rep]
    by_cases hsame : s.rep (flow C).1 = s.rep (flow C).2
    · exact .inl hsame
    · refine .inr ⟨_, hgrows.copy_all _ _ ((hedge _ _).mpr ⟨_, _, hind, rfl, rfl⟩)
        (proper_edge hi2p h1 h2 hsame), ?_⟩
      exact s.forest.find_find _
  · intro a b hb
    rcases hgrows.copy_new a b hb with hold | ⟨hmay, hproper, -⟩
    · exact .inl hold
    · right
      rcases hmay with hD | ⟨p, hp, -⟩
      · obtain ⟨n, m, hind, rfl, rfl⟩ := (hedge a b).mp hD
        have hdir := (indFlow_iff hF hret htypes _ _).mp hind
        obtain ⟨C, hC, hflow⟩ := hnew.complete n m hdir fun h => hproper.2.2 (congrArg s.rep h)
        exact ⟨C, hC, by rw [hflow], by rw [hflow]⟩
      · exact absurd hp (hext p)

/-- In a state that knows nothing yet the edges are the same only where both ways agree. -/
theorem agree_of_sameFlows (hF : TakenFunc P f g onF)
    (happart : Apart P f i valNode onF s.toAnders) (hvnI : (P.insts i).ty.isPtr = true →
      (valNode (.inst i)).isSome)
    (hnew : HasFlows (DirFlow P f i valNode onF) new) (hi2p : ∀ n, s.rep n = i2p ↔ n = i2p)
    (hargs : ∀ AA ∈ (P.insts i).args, ∀ n, Passed P valNode AA n → n ≠ i2p)
    (hedge : ∀ x y, D.edge x y ↔ ∃ n m,
      IndFlow P i valNode onF (g.objSz onF) (fun n => skipsParam s.toAnders (s.rep n)) n m ∧
        x = s.rep n ∧ y = s.rep m)
    (hext : ∀ p, ¬ D.ext p) (hgrows : Grows M D owed s s') (hsame : SameFlows new s s') :
    RetAgrees P f i ∧ TypesAgree P f i valNode onF (g.objSz onF) s.toAnders := by
  -- every direct flow between two classes is an indirect one
  have hfound : ∀ n m, DirFlow P f i valNode onF n m → s.rep n ≠ s.rep m → ∃ n' m',
      IndFlow P i valNode onF (g.objSz onF) (fun n => skipsParam s.toAnders (s.rep n)) n' m' ∧
        s.rep n = s.rep n' ∧ s.rep m = s.rep m' := by
    intro n m hdir hne
    obtain ⟨C, hC, hflow⟩ := hnew.complete n m hdir fun h => hne (congrArg s.rep h)
    have hE := hsame.1 C hC
    rw [hflow] at hE
    unfold Graph.Edge at hE
    rw [show s'.toGraph.rep = s.toGraph.rep from hgrows.rep] at hE
    rcases hE with hE | ⟨e, he, hrep⟩
    · exact absurd hE hne
    · rcases hgrows.copy_new _ e he with hold | ⟨hmay, -, -⟩
      · rw [happart.noEdges] at hold
        cases hold
      · rcases hmay with hD | ⟨p, hp, -⟩
        · obtain ⟨n', m', hind, hn', hm'⟩ := (hedge _ _).mp hD
          refine ⟨n', m', hind, hn', ?_⟩
          rw [← hrep, hm']
          exact s.forest.find_find _
        · exact absurd hp (hext p)
  constructor
  · intro hptr
    by_contra hret
    obtain ⟨vnI, hvn⟩ := Option.isSome_iff_exists.mp (hvnI hptr)
    obtain ⟨h1, h2, h3⟩ := happart.result vnI hvn
    obtain ⟨n, m, hind, hn, hm⟩ := hfound _ _ (.int hptr (by simpa using hret) hvn) h1
    cases hind with
    | result _ _ _ => exact h2 hn
    | arg _ _ hlt _ => exact h3 _ (hF.node _ hlt).1 hm
  · intro k AA n hk hn hlt
    have hkn := (hF.node k hlt).1
    have hmem : AA ∈ (P.insts i).args := List.mem_of_getElem? hk
    have hT : (P.func f).params[k]? = some (P.func f).params[k] := List.getElem?_eq_getElem hkn
    have hparam : P.isPtr (.arg f k) = ((P.func f).params[k]).isPtr := by
      change ((P.func f).params.getD k .other).isPtr = _
      rw [List.getD_eq_getElem?_getD, hT]
      rfl
    have hne := happart.args AA hmem n hn k hkn
    rw [hparam]
    cases hptr : ((P.func f).params[k]).isPtr with
    | true =>
        have hdir : DirFlow P f i valNode onF n (onF + funcNodeOffArg0 + k) :=
          .arg ⟨k, _, AA, hT, hptr, hk, hn, by rw [Nat.zero_add]⟩
        obtain ⟨n', m', hind, -, hm⟩ := hfound _ _ hdir hne
        cases hind with
        | result _ hvn _ => exact absurd hm.symm ((happart.result _ hvn).2.2 k hkn)
        | arg _ _ hlt' hskip =>
            obtain rfl := happart.params _ _ hkn (hF.node _ hlt').1 hm
            exact hskip
    | false =>
        by_contra hskip
        have hno : skipsParam s.toAnders (s.rep (onF + funcNodeOffArg0 + k)) = false := by
          simpa using hskip
        have hmi : onF + funcNodeOffArg0 + k ≠ i2p := by
          have := hF.special
          omega
        have hin := hgrows.copy_all _ _ ((hedge _ _).mpr ⟨_, _, .arg hk hn hlt hno, rfl, rfl⟩)
          (proper_edge hi2p (hargs AA hmem n hn) hmi hne)
        rcases hsame.2 _ _ hin with hold | ⟨C, hC, -, hdest⟩
        · rw [happart.noEdges] at hold
          cases hold
        · have hdir := hnew.sound C hC
          generalize (flow C).1 = x, (flow C).2 = y at hdir hdest
          cases hdir with
          | result _ _ hvn => exact (happart.result _ hvn).2.2 k hkn hdest
          | int _ _ hvn => exact (happart.result _ hvn).2.2 k hkn hdest
          | arg hp =>
              obtain ⟨j, T, BB, hj, hTptr, -, -, rfl⟩ := hp
              have hjn := (List.getElem?_eq_some_iff.mp hj).1
              rw [Nat.zero_add] at hdest
              obtain rfl := happart.params _ _ hjn hkn hdest
              obtain rfl := Option.some.inj (hT.symm.trans hj)
              simp [hptr] at hTptr

end

end

end

/-- Function `f` of the program, whose address is taken, gets its object exactly if it has a
pointer parameter or `unsigned long` has 32 bits. Then the copy edges that the solver makes of
the indirect call `i` of `f` alone are those of the direct call: where the result is no pointer
that `f` returns as an integer, and every parameter is represented by a node of its kind. In a
state without edges and merged nodes these conditions are necessary. -/
theorem indCall_agrees_iff (P : Ir) (fuel f i : Nat) (W : Type) [Worklist W] [LawfulWorklist W]
    (hlen : (P.func f).params.length < 2 ^ 32) (hbits : 32 ≤ P.ulongBits)
    (hext : P.isExt f = false) (hmain : (P.func f).name ≠ "main")
    (hva : (P.func f).isVarArg = false) (htaken : P.escapes fuel (.func f) = .ok true)
    (hasm : ∀ t, (P.insts i).called ≠ .inlineAsm t) (g0 : Gen)
    (hcount : g0.nextNode = g0.nodes.length) (hspecial : i2p < g0.nextNode)
    (hplain : g0.retNode f = none) :
    ((∃ g1, idFunc P fuel f g0 = .ok ((), g1)) ↔ HasPtrParam P f ∨ P.ulongBits = 32) ∧
    ∀ g1 gi0 gi g gd : Gen, idFunc P fuel f g0 = .ok ((), g1) →
      idIndCall P fuel i gi0 = .ok ((), gi) → Behind g1 g → Behind gi g →
      idDirCall P fuel i f g = .ok ((), gd) →
      ∀ s s' : Solver W, WorksOn P g (callCons gi0 gi) s.toAnders →
        (∀ n, s.rep n = i2p ↔ n = i2p) →
        solveCall (P.window g) {g0.nextNode + 1} i (callCons gi0 gi) s = .ok s' →
        (RetAgrees P f i ∧ TypesAgree P f i g.valNode (g0.nextNode + 1)
            (g.objSz (g0.nextNode + 1)) s.toAnders →
          SameFlows (gd.constraints.drop g.constraints.length) s s') ∧
        (Apart P f i g.valNode (g0.nextNode + 1) s.toAnders →
          SameFlows (gd.constraints.drop g.constraints.length) s s' →
          RetAgrees P f i ∧ TypesAgree P f i g.valNode (g0.nextNode + 1)
            (g.objSz (g0.nextNode + 1)) s.toAnders) := by
  have hends : ∀ {Q : Unit → Gen → Prop}, (∀ g', TakenFunc P f g' (g0.nextNode + 1) → Q () g') →
      (Act.Ends (idFunc P fuel f) Q g0 ↔ HasPtrParam P f ∨ P.ulongBits = 32) :=
    fun hQ => idFunc_ends hlen hbits hext hmain hva htaken hcount hspecial hplain hQ
  have hcompletes : (∃ g1, idFunc P fuel f g0 = .ok ((), g1)) ↔
      HasPtrParam P f ∨ P.ulongBits = 32 := by
    rw [← hends (Q := fun _ _ => True) fun _ _ => trivial]
    constructor
    · rintro ⟨g1, h⟩
      exact ⟨(), g1, h, trivial⟩
    · rintro ⟨_, g1, h, -⟩
      exact ⟨g1, h⟩
  refine ⟨hcompletes, ?_⟩
  intro g1 gi0 gi g gd hfunc hind hb1 hbi hdir s s' hworks hi2p hsolve
  have hF1 : TakenFunc P f g1 (g0.nextNode + 1) :=
    ((hends (Q := fun _ g' => TakenFunc P f g' (g0.nextNode + 1)) fun _ h => h).mpr
      (hcompletes.mp ⟨g1, hfunc⟩)).wp.result hfunc
  have hF := hF1.behind hb1
  obtain ⟨hHi, -⟩ := (idIndCall_handled i hasm gi0).result hind
  obtain ⟨hvnI, vnC, hadds⟩ := (idIndCall_adds i hasm gi0).result hind
  obtain ⟨hcalls, hproper⟩ := hadds.callCons
  have hH : Handled P g.valNode i := by
    intro AA hAA hptr
    obtain ⟨n, hn⟩ := hHi AA hAA hptr
    exact ⟨n, hbi.finds _ _ hn⟩
  obtain ⟨new, rfl, hnew⟩ := (idDirCall_adds hva hF.obj hF.plain hF.arg hH).result hdir
  rw [List.drop_left]
  have htables := hworks.tables hF hext
  have hgrows := (solveCall_grows (P.window g) {g0.nextNode + 1} i (callCons gi0 gi) s).result hsolve
  have hcall : ∀ C, C ∈ callCons gi0 gi ↔ CallOf P g.valNode i vnC C := fun C =>
    (hcalls C).trans (CallOf.behind hbi hHi hvnI C)
  have hedge := callDemand_flow htables hcall
  have hnoext := callDemand_noExt htables hcall
  constructor
  · rintro ⟨hret, htypes⟩
    exact sameFlows_of_agree hF hret htypes hnew hi2p hedge hnoext hgrows
  · intro happart hsame
    refine agree_of_sameFlows hF happart ?_ hnew hi2p ?_ hedge hnoext hgrows hsame
    · intro hptr
      obtain ⟨n, hn⟩ := Option.isSome_iff_exists.mp (hvnI hptr)
      exact Option.isSome_iff_exists.mpr ⟨n, (hbi.finds _ _ (.entry hn)).inst⟩
    · intro AA hAA n hn
      obtain ⟨k, hk⟩ := List.mem_iff_getElem?.mp hAA
      have hpass := (Passed.behind hbi hHi hAA).mpr hn
      exact (hproper _ (.inr ⟨k, AA, n, hk, hpass, rfl⟩)).1

/-! ## A state of the solver for the nodes of the generator -/

/-- A value, as optimizer and solver see it. -/
def value (P : Ir) : Val → Value
  | .func f => .func f
  | .arg f i => .arg i (P.isPtr (.arg f i))
  | v => .other 0 (P.isPtr v)

theorem value_spec (P : Ir) (v : Val) : (value P v).func? = v.func? ∧ (value P v).isPtr = P.isPtr v := by
  cases v <;> exact ⟨rfl, rfl⟩

/-- The input of the solver for the nodes of the generator and the constraints `cs`. -/
def solverInput (P : Ir) (g : Gen) (cs : List Constraint) : Anders :=
  .initial g.nodes.length (g.nodes.length - 1)
    (fun n => { val := (g.nodes.getD n {}).val.map (value P), objSz := g.objSz n }) cs

theorem solverInput_describes (P : Ir) (g : Gen) (cs : List Constraint) :
    Describes P g (solverInput P g cs) where
  value n v hv := by
    obtain ⟨h1, h2⟩ := value_spec P v
    refine ⟨value P v, ?_, h1, h2⟩
    change (g.nodes.getD n {}).val.map (value P) = _
    rw [hv]
    rfl
  objSz _ := rfl
  objects n hn := by
    by_contra hlt
    have hge : g.nodes.length ≤ n := by
      change ¬ n ≤ g.nodes.length - 1 at hlt
      omega
    rw [objSz, List.getD_eq_getElem?_getD, List.getElem?_eq_none hge] at hn
    cases hn

theorem startState_worksOn {W : Type} [Worklist W] {P : Ir} {g : Gen} {cs : List Constraint}
    {b : Anders} (h : ptsInit (P.window g) (solverInput P g cs) = .ok b) :
    WorksOn P g cs (startState W b).toAnders ∧ ∀ n, (startState W b).rep n = n := by
  have hframe := ((ptsInit_spec _ _).result h).frame
  refine ⟨⟨_, b, solverInput_describes P g cs, rfl, rfl, fun _ => id, h, rfl, rfl, rfl, rfl,
    fun _ => rfl⟩, fun n => ?_⟩
  have hforest : (startState W b).forest = .discrete := by
    change b.forest = _
    rw [hframe]
    rfl
  unfold Graph.rep
  rw [hforest]
  exact Forest.find_of_isRep rfl

/-- Before nodes are merged, every parameter is represented by itself. -/
theorem TypesAgree.unmerged {P : Ir} {f i onF : Nat} {g : Gen} {cs : List Constraint} {a : Anders}
    {valNode : Val → Option Nat} (h : WorksOn P g cs a) (hF : TakenFunc P f g onF)
    (hrep : ∀ n, a.rep n = n) : TypesAgree P f i valNode onF (g.objSz onF) a := by
  intro k AA n _ _ hlt
  obtain ⟨a0, b, hdesc, -, -, -, hinit, -, -, -, -, hval⟩ := h
  obtain ⟨V, hV, -, hptr⟩ := hdesc.value _ _ (hF.node k hlt).2
  have hframe := ((ptsInit_spec _ _).result hinit).frame
  have hb : (b.nodes (onF + funcNodeOffArg0 + k)).val = some V := by
    rw [hframe]
    exact hV
  rw [hrep, skipsParam, hval, hb]
  dsimp only
  rw [hptr]

instance (s : Graph) (a b : Nat) : Decidable (s.Edge a b) := by
  unfold Graph.Edge
  infer_instance

/-- Enter a value node for `v`, as for instructions and globals. -/
def enter (v : Val) : GenM Unit := do
  let n ← newValNode v
  setValNode v n

/-- An instruction, global or formal parameter. -/
def Plain : Val → Prop
  | .inst _ | .global _ | .arg _ _ => True
  | _ => False

theorem enter_behind {v : Val} (hv : Plain v) {g : Gen} (hnone : g.valNode v = none) :
    Wp (enter v) (fun _ g' => Behind g g' ∧ ∀ w, w ≠ v → g'.valNode w = g.valNode w) g := by
  simp only [enter, newValNode, takeNode, bump, pushNode, setValNode, wp_bind, wp_get, wp_modify,
    wp_pure]
  have hother : ∀ w, w ≠ v → Function.update g.valNode v (some g.nextNode) w = g.valNode w :=
    fun w hw => Function.update_of_ne hw _ _
  refine ⟨⟨fun w n hw => ?_, fun _ _ => id, fun _ _ => rfl, List.prefix_append ..⟩, hother⟩
  induction hw with
  | @entry w n hw =>
      refine .entry ((hother w ?_).trans hw)
      rintro rfl
      simp [hnone] at hw
  | @null w hw hnull =>
      refine .null ((hother w ?_).trans hw) hnull
      rintro rfl
      cases w <;> simp [Plain, Val.isNullPtr, Val.isUndef] at hv hnull
  | gep hw hlen =>
      refine .gep ((hother _ ?_).trans hw) hlen
      rintro rfl
      exact hv
  | cast hw _ ih =>
      refine .cast ((hother _ ?_).trans hw) ih
      rintro rfl
      exact hv

theorem enterAll_behind {vs : List Val} (hvs : ∀ v ∈ vs, Plain v) (hnodup : vs.Nodup) {g : Gen}
    (hnone : ∀ v ∈ vs, g.valNode v = none) :
    Wp (vs.forM enter) (fun _ g' => Behind g g') g := by
  induction vs generalizing g with
  | nil => exact refl g
  | cons v vs ih =>
      change Wp (enter v >>= fun _ => vs.forM enter) _ g
      obtain ⟨hfresh, hnodup⟩ := List.nodup_cons.mp hnodup
      rw [wp_bind]
      apply (enter_behind (hvs v (by simp)) (hnone v (by simp))).imp
      rintro _ g1 ⟨hb, hother⟩
      refine (ih (fun w hw => hvs w (by simp [hw])) hnodup fun w hw => ?_).imp
        fun _ g' hg' => IsTrans.trans _ _ _ hb hg'
      rw [hother w fun h => hfresh (h ▸ hw)]
      exact hnone w (by simp [hw])

/-- A function with one parameter that returns `ret`, and its call through a pointer whose
result is used as a pointer. -/
def pointerCall (ret : Ty) : Ir where
  structs _ := []
  named := []
  funcs := [⟨"f", false, false, false, [.ptr .int], ret, [⟨[], []⟩]⟩,
    ⟨"g", false, false, false, [.ptr .other], .void, [⟨[0], []⟩]⟩]
  globals := [⟨.int, none, false⟩]
  insts _ := ⟨.call, .ptr .int, [.global 0, .arg 1 0]⟩
  parent _ := (1, 0)
  users
    | .func 0 => [.global 0]
    | _ => []
  extInfo _ := none
  setOrder := id
  ulongBits := 64

/-- The generator before the first function. -/
def atStart : Gen := { Gen.empty with nodes := special, nextNode := firstVarNode }

/-- The values of the calling function. -/
def callerVals : List Val := [.arg 1 0, .global 0, .inst 0]

/-- The function and both calls of it, and then the solver for the indirect one. -/
def bothCalls (P : Ir) (p : Gen → Gen → Solver (Lists true PrioHeap) → Bool) : Run Bool := do
  let (_, g1) ← idFunc P 9 0 atStart
  let (_, gi0) ← callerVals.forM enter g1
  let (_, gi) ← idIndCall P 9 0 gi0
  let (_, gd) ← idDirCall P 9 0 0 gi
  let b ← ptsInit (P.window gi) (solverInput P gi (callCons gi0 gi))
  let s' ← solveCall (P.window gi) {4} 0 (callCons gi0 gi) (startState _ b)
  return callerVals.all (fun v => (g1.valNode v).isNone) && p gi gd s'

theorem bothCalls_runs {P : Ir} {p : Gen → Gen → Solver (Lists true PrioHeap) → Bool}
    (h : bothCalls P p = .ok true) : ∃ g1 gi0 gi gd b s',
      idFunc P 9 0 atStart = .ok ((), g1) ∧ idIndCall P 9 0 gi0 = .ok ((), gi) ∧
      idDirCall P 9 0 0 gi = .ok ((), gd) ∧ Behind g1 gi ∧
      ptsInit (P.window gi) (solverInput P gi (callCons gi0 gi)) = .ok b ∧
      solveCall (P.window gi) {4} 0 (callCons gi0 gi) (startState _ b) = .ok s' ∧
      p gi gd s' = true := by
  obtain ⟨⟨_, g1⟩, hfunc, h⟩ := bind_ok.mp h
  obtain ⟨⟨_, gi0⟩, henter, h⟩ := bind_ok.mp h
  obtain ⟨⟨_, gi⟩, hind, h⟩ := bind_ok.mp h
  obtain ⟨⟨_, gd⟩, hdir, h⟩ := bind_ok.mp h
  obtain ⟨b, hb, h⟩ := bind_ok.mp h
  obtain ⟨s', hs', h⟩ := bind_ok.mp h
  have htest := Except.ok.inj h
  simp only [Bool.and_eq_true, List.all_eq_true, Option.isNone_iff_eq_none] at htest
  obtain ⟨hnone, hp⟩ := htest
  have hb1 := (enterAll_behind (by simp [callerVals, Plain]) (by decide) hnone).result henter
  exact ⟨g1, gi0, gi, gd, b, s', hfunc, hind, hdir,
    IsTrans.trans _ _ _ hb1 ((idIndCall_behind 0).result hind), hb, hs', hp⟩

theorem indCall_agrees_pointer : ∃ g1 gi0 gi gd : Gen, ∃ s s' : Solver (Lists true PrioHeap),
    idFunc (pointerCall (.ptr .int)) 9 0 atStart = .ok ((), g1) ∧
    idIndCall (pointerCall (.ptr .int)) 9 0 gi0 = .ok ((), gi) ∧
    idDirCall (pointerCall (.ptr .int)) 9 0 0 gi = .ok ((), gd) ∧ Behind g1 gi ∧
    solveCall ((pointerCall (.ptr .int)).window gi) {4} 0 (callCons gi0 gi) s = .ok s' ∧
    gd.constraints.drop gi.constraints.length = [⟨.copy, 9, 5, 0⟩, ⟨.copy, 6, 8, 0⟩] ∧
    SameFlows (gd.constraints.drop gi.constraints.length) s s' := by
  obtain ⟨g1, gi0, gi, gd, b, s', hfunc, hind, hdir, hb, hinit, hsolve, hnew⟩ :=
    bothCalls_runs (P := pointerCall (.ptr .int)) (p := fun gi gd _ =>
      gd.constraints.drop gi.constraints.length == [⟨.copy, 9, 5, 0⟩, ⟨.copy, 6, 8, 0⟩])
      (by decide +kernel)
  obtain ⟨hworks, hrep⟩ := startState_worksOn (W := Lists true PrioHeap) hinit
  have hptr : HasPtrParam (pointerCall (.ptr .int)) 0 := ⟨0, by decide, rfl⟩
  have hends : Ends (idFunc (pointerCall (.ptr .int)) 9 0)
      (fun _ g' => TakenFunc (pointerCall (.ptr .int)) 0 g' 4) atStart :=
    (idFunc_ends (by decide) (by decide) rfl (by decide) rfl rfl rfl (by decide) rfl
      fun _ h => h).mpr (.inl hptr)
  have hF : TakenFunc (pointerCall (.ptr .int)) 0 gi 4 := (hends.wp.result hfunc).behind hb
  have h := (indCall_agrees_iff (pointerCall (.ptr .int)) 9 0 0 (Lists true PrioHeap) (by decide)
    (by decide) rfl (by decide) rfl rfl (fun t h => by cases h) atStart rfl (by decide) rfl).2
    g1 gi0 gi gi gd hfunc hind hb (refl gi) hdir _ s' hworks (fun n => by rw [hrep]) hsolve
  exact ⟨g1, gi0, gi, gd, _, s', hfunc, hind, hdir, hb, hsolve, beq_iff_eq.mp hnew,
    h.1 ⟨fun _ => rfl, .unmerged hworks hF hrep⟩⟩

/-- A result that the function returns as an integer is not known to point anywhere. -/
theorem indCall_agrees_lost : ∃ g1 gi0 gi gd : Gen, ∃ s s' : Solver (Lists true PrioHeap),
    idFunc (pointerCall .int) 9 0 atStart = .ok ((), g1) ∧
    idIndCall (pointerCall .int) 9 0 gi0 = .ok ((), gi) ∧
    idDirCall (pointerCall .int) 9 0 0 gi = .ok ((), gd) ∧ Behind g1 gi ∧
    WorksOn (pointerCall .int) gi (callCons gi0 gi) s.toAnders ∧ (∀ n, s.rep n = n) ∧
    solveCall ((pointerCall .int).window gi) {4} 0 (callCons gi0 gi) s = .ok s' ∧
    ¬ SameFlows (gd.constraints.drop gi.constraints.length) s s' := by
  obtain ⟨g1, gi0, gi, gd, b, s', hfunc, hind, hdir, hb, hinit, hsolve, hp⟩ :=
    bothCalls_runs (P := pointerCall .int) (p := fun gi gd s' =>
      gd.constraints.drop gi.constraints.length == [⟨.addrOf, 9, i2p, 0⟩, ⟨.copy, 6, 8, 0⟩] &&
        !decide (s'.Edge pI2p 9)) (by decide +kernel)
  obtain ⟨hworks, hrep⟩ := startState_worksOn (W := Lists true PrioHeap) hinit
  simp only [Bool.and_eq_true, beq_iff_eq, Bool.not_eq_true', decide_eq_false_iff_not] at hp
  obtain ⟨hnew, hno⟩ := hp
  refine ⟨g1, gi0, gi, gd, _, s', hfunc, hind, hdir, hb, hworks, hrep, hsolve, fun hsame => ?_⟩
  rw [hnew] at hsame
  exact hno (hsame.1 ⟨.addrOf, 9, i2p, 0⟩ (by simp))

end Gen

end PtrAnalysis
