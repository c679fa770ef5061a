import PtrAnalysis.ExtCalls

/-!
# The objects of one type

Globals, stack variables and allocating calls each make the nodes of their object by
themselves. `BuiltObject` is the shape that a type asks for. The handlers of globals and
calls build it; the handler of stack variables looks at the type only in a
configuration with `KSA`, and builds nothing.
-/

namespace PtrAnalysis

open Run Act

namespace Gen

/-- The sizes of the nodes of an object of type `T`, from the struct table. -/
def shape (g : Gen) (T : Ty) : List Nat :=
  match T with
  | .struct s => ((g.structInfo s).getD ([], [])).1
  | _ => [1]

/-- An object of type `T` was made for `v`: its nodes, behind and before some value nodes,
are counted, entered and pointed to by node `vn`. -/
structure BuiltObject (T : Ty) (v : Val) (vn : Nat) (g g' : Gen) : Prop where
  known : ∀ s, T = .struct s → (g'.structInfo s).isSome
  nodes : ∃ before after weak,
    g'.nodes = g.nodes ++ before ++ (g'.shape T).map (fun sz => ⟨some v, sz, weak⟩) ++ after ∧
    (∀ N ∈ before ++ after, N.objSz = 0) ∧
    g'.objNode v = some (g.nextNode + before.length) ∧
    (⟨.addrOf, vn, g.nextNode + before.length, 0⟩ : Constraint) ∈ g'.constraints ∧
    g'.nextNode = g.nextNode + before.length + (g'.shape T).length + after.length

/-- A run of `x` from `g` makes such an object. -/
def Builds (x : GenM Unit) (T : Ty) (v : Val) (vn : Nat) (g : Gen) : Prop :=
  ∃ g', x g = .ok ((), g') ∧ BuiltObject T v vn g g'

/-- Only value nodes were added, and no object was touched. -/
def ValueNodes (g g' : Gen) : Prop :=
  ∃ l : List GenNode, g'.nodes = g.nodes ++ l ∧ (∀ N ∈ l, N.objSz = 0) ∧
    g'.nextNode = g.nextNode + l.length ∧ g'.objNode = g.objNode ∧
    g'.structInfo = g.structInfo ∧ g'.constraints = g.constraints

instance : IsPreorder Gen ValueNodes where
  refl g := ⟨[], by simp⟩
  trans g g' g'' h h' := by
    obtain ⟨l, hl, h0, hn, ho, hs, hc⟩ := h
    obtain ⟨l', hl', h0', hn', ho', hs', hc'⟩ := h'
    refine ⟨l ++ l', by rw [hl', hl, List.append_assoc], ?_, ?_, ho'.trans ho, hs'.trans hs,
      hc'.trans hc⟩
    · intro N hN
      rcases List.mem_append.mp hN with hN | hN
      · exact h0 N hN
      · exact h0' N hN
    · rw [hn', hn, List.length_append, Nat.add_assoc]

theorem shape_congr {g g' : Gen} (h : g'.structInfo = g.structInfo) (T : Ty) :
    g'.shape T = g.shape T := by
  unfold shape
  rw [h]

section

variable {P : Ir} {fuel : Nat}

theorem idGepCe_values (v : Val) : Runs ValueNodes (idGepCe P fuel v) := by
  induction fuel generalizing v with
  | zero => exact .throw _
  | succ fuel ih =>
      rw [idGepCe]
      refine .forM fun u _ => ?_
      split
      · exact ih _
      · rename_i t ops _
        refine .bind (.lift _) fun _ => .bind .get fun _ => .bind (.lift _) fun _ => ?_
        intro g
        simp only [takeNode, pushNode, bump, setValNode, wp_bind, wp_get, wp_modify, wp_pure]
        exact ⟨[{ val := some (.expr .gep t ops) }], by simp⟩
      · exact .pure _

/-- The last step of a handler: its object is entered as the target of node `dest`. -/
theorem cons_object {dest src : Nat} {g : Gen} {Q : Unit → Gen → Prop}
    (h : ∀ cs, (⟨.addrOf, dest, src, 0⟩ : Constraint) ∈ cs → Q () { g with constraints := cs }) :
    Wp (cons .addrOf dest src) Q g := by
  rw [wp_cons]
  intro cs added hadd
  refine h cs ?_
  rw [addCons_result hadd]
  simp

/-- The struct table behind `getStructSz` holds what it returned. -/
theorem getStructSz_shape (s : Nat) (g : Gen) :
    Wp (getStructSz P fuel s)
      (fun sz g' => StructsOnly g g' ∧ (g'.structInfo s).isSome ∧ g'.shape (.struct s) = sz) g := by
  cases fuel with
  | zero => trivial
  | succ fuel =>
      rw [getStructSz]
      simp only [wp_bind, wp_get, wp_ite, wp_pure]
      constructor
      · intro _
        apply ((structs_spec P fuel).1 s g).imp
        rintro _ g' ⟨hg', hs⟩
        exact ⟨hg', hs, rfl⟩
      · intro hs
        exact ⟨refl g, by simpa [Option.isNone_iff_eq_none, Option.isSome_iff_ne_none] using hs, rfl⟩

/-- The nodes of an object of type `T`, in the order of the struct table. -/
theorem pushObject_shape (v : Val) (T : Ty) (weak : Bool) (g : Gen) :
    Wp (pushObject P fuel v T weak) (fun _ g' =>
      (∀ s, T = .struct s → (g'.structInfo s).isSome) ∧
      g'.nodes = g.nodes ++ (g'.shape T).map (fun sz => ⟨some v, sz, weak⟩) ∧
      g'.nextNode = g.nextNode + (g'.shape T).length ∧ g'.objNode = g.objNode) g := by
  unfold pushObject
  split
  · rename_i s
    rw [wp_bind]
    apply (getStructSz_shape s g).imp
    rintro sz g' ⟨hg', hs, hshape⟩
    obtain ⟨-, -, info, U, m, rfl⟩ := hg'
    simp only [pushNodes, bump, wp_bind, wp_modify]
    rw [← hshape]
    refine ⟨fun s' hs' => ?_, rfl, rfl, trivial⟩
    obtain rfl := Ty.struct.inj hs'
    exact hs
  · rename_i hT
    simp only [pushNodes, bump, wp_bind, wp_modify]
    have hone : ∀ g' : Gen, g'.shape T = [1] := by
      intro g'
      unfold shape
      split
      · exact absurd rfl (hT _)
      · rfl
    rw [hone]
    exact ⟨fun s hs => absurd hs (hT s), rfl, rfl, trivial⟩

/-- The object of a global, behind the node of the global itself. -/
theorem idGlobal_builds (i : Nat) (g : Gen) : Wp (idGlobal P fuel i)
    (fun _ g' => BuiltObject (P.global i).elem.strip (.global i) g.nextNode g g') g := by
  simp only [idGlobal, pushNode, takeNode, bump, setValNode, setObjNode, pushNodes, wp_bind,
    wp_get, wp_modify, wp_pure]
  generalize decide ((P.global i).elem ≠ (P.global i).elem.strip) = isArray
  split
  · rename_i s hs
    rw [wp_bind]
    apply (getStructSz_shape s _).imp
    rintro sz g' ⟨hg', hsome, hshape⟩
    obtain ⟨-, -, info, U, m, rfl⟩ := hg'
    simp only [wp_bind, wp_modify]
    apply (idGepCe_values _ _).imp
    rintro _ g2 ⟨l, hl, h0, hn, ho, hinfo, -⟩
    refine cons_object fun cs hcs => ?_
    have hsz : ({ g2 with constraints := cs } : Gen).shape (.struct s) = sz := by
      rw [← hshape]
      refine shape_congr ?_ _
      exact hinfo
    refine ⟨fun s' hs' => ?_, [{ val := some (.global i) }], l, isArray, ?_, ?_, ?_, hcs, ?_⟩
    · obtain rfl := Ty.struct.inj (hs.symm.trans hs')
      dsimp only
      rw [hinfo]
      exact hsome
    · rw [hs, hsz]
      exact hl
    · simpa using h0
    · dsimp only
      rw [ho]
      simp
    · rw [hs, hsz]
      exact hn
  · rename_i hT
    have hone : ∀ g' : Gen, g'.shape (P.global i).elem.strip = [1] := by
      intro g'
      unfold shape
      split
      · rename_i s hs
        exact absurd hs (hT s)
      · rfl
    simp only [wp_bind, wp_modify, wp_ite]
    constructor
    · intro _
      apply (idGepCe_values _ _).imp
      rintro _ g2 ⟨l, hl, h0, hn, ho, -, -⟩
      refine cons_object fun cs hcs => ?_
      refine ⟨fun s hs => absurd hs (hT s), [{ val := some (.global i) }], l, isArray, ?_, ?_, ?_, hcs, ?_⟩
      · rw [hone]
        exact hl
      · simpa using h0
      · dsimp only
        rw [ho]
        simp
      · rw [hone]
        exact hn
    · intro _
      refine cons_object fun cs hcs => ?_
      refine ⟨fun s hs => absurd hs (hT s), [{ val := some (.global i) }], [], isArray, ?_, ?_, ?_, hcs, ?_⟩
      · rw [hone, List.append_nil]
      · simp
      · simp
      · rw [hone]
        rfl

/-- The object of an allocating call, of the type that is traced for its result. -/
theorem idCallObj_builds {i f vn : Nat} {g : Gen}
    (hnode : (g.nodes.getD vn {}).val = some (.inst i)) (hstruct : P.noStructAlloc f = false)
    (halloc : P.isAlloc f = true ∨ P.extType f = .realloc ∧
      ((P.insts i).args[0]?).any Val.isNullPtr = true) :
    Wp (idCallObj P fuel vn (some f)) (fun _ g' =>
      ∀ T g1, traceAllocType P fuel i g = .ok (T, g1) → BuiltObject T (.inst i) vn g g') g := by
  have hfresh : Wp (do
      let T ← traceAllocType P fuel i
      let on := (← get).nextNode
      setObjNode (.inst i) on
      pushObject P fuel (.inst i) T true
      cons .addrOf vn on) (fun _ g' =>
        ∀ T g1, traceAllocType P fuel i g = .ok (T, g1) → BuiltObject T (.inst i) vn g g') g := by
    rw [wp_bind, wp_iff]
    intro T g1 hT
    obtain ⟨-, -, info, U, m, rfl⟩ := (traceAllocType_only i).result hT
    simp only [setObjNode, wp_bind, wp_get, wp_modify]
    apply (pushObject_shape _ _ _ _).imp
    rintro _ g2 ⟨hknown, hnodes, hnext, hobj⟩
    refine cons_object fun cs hcs T' g1' hT' => ?_
    obtain ⟨rfl, -⟩ := Prod.mk.inj (Except.ok.inj (hT.symm.trans hT'))
    have hsz : ({ g2 with constraints := cs } : Gen).shape T = g2.shape T := shape_congr rfl T
    refine ⟨hknown, [], [], true, ?_, by simp, ?_, by simpa using hcs, ?_⟩
    · rw [hsz, List.append_nil, List.append_nil]
      exact hnodes
    · dsimp only
      rw [hobj]
      simp
    · rw [hsz]
      exact hnext
  unfold idCallObj
  rw [wp_bind, wp_get, hnode]
  dsimp only
  rw [if_neg (by simp [hstruct])]
  rcases halloc with ha | ⟨hre, hnull⟩
  · rw [if_pos ha, wp_bind, wp_pure, if_pos rfl]
    exact hfresh
  · have hna : ¬ P.isAlloc f = true := by simp [Ir.isAlloc, hre]
    rw [if_neg hna, if_pos hre]
    cases hargs : (P.insts i).args with
    | nil => trivial
    | cons a as =>
        rw [hargs] at hnull
        have ha : a.isNullPtr = true := by simpa using hnull
        rw [wp_bind, wp_pure, if_pos ha]
        exact hfresh

/-- The handler of a stack variable stops at the type it has not looked up. -/
theorem idAllocInsn_stops (i : Nat) (g : Gen) : Wp (idAllocInsn i) (fun _ _ => False) g := by
  rw [idAllocInsn, wp_bind, wp_iff]
  intro _ g' _
  simp [setObjNode]

end

/-- Whatever the type, no stack variable gets an object of its shape: the handler returns
from no state. The handlers of globals and of allocating calls make that object whenever
they return. -/
theorem idAllocInsn_never_builds (P : Ir) (T : Ty) :
    (∀ fuel j g g', (P.global j).elem.strip = T → idGlobal P fuel j g = .ok ((), g') →
      BuiltObject T (.global j) g.nextNode g g') ∧
    (∀ fuel i f vn g g1 g', (g.nodes.getD vn {}).val = some (.inst i) →
      P.noStructAlloc f = false → (P.isAlloc f = true ∨ P.extType f = .realloc ∧
        ((P.insts i).args[0]?).any Val.isNullPtr = true) →
      traceAllocType P fuel i g = .ok (T, g1) → idCallObj P fuel vn (some f) g = .ok ((), g') →
      BuiltObject T (.inst i) vn g g') ∧
    ∀ i A vn g, (P.insts i).op = .alloca → (P.insts i).ty = .ptr A → A.strip = T →
      ¬ Builds (idAllocInsn i) T (.inst i) vn g := by
  refine ⟨fun fuel j g g' hT hrun => ?_, fun fuel i f vn g g1 g' hnode hs ha hT hrun => ?_,
    fun i A vn g _ _ _ => ?_⟩
  · rw [← hT]
    exact (idGlobal_builds j g).result hrun
  · exact (idCallObj_builds hnode hs ha).result hrun T g1 hT
  · rintro ⟨g', hrun, -⟩
    exact (idAllocInsn_stops i g).result hrun

/-- `main` with a variable on the stack. -/
def stackVariable : Ir where
  structs _ := []
  named := []
  funcs := [⟨"main", false, false, false, [], .void, [⟨[0, 1], []⟩]⟩]
  globals := []
  insts i := if i = 0 then ⟨.alloca, .ptr .int, [.num .int 1]⟩ else ⟨.ret, .void, []⟩
  parent _ := (0, 0)
  users _ := []
  extInfo _ := none
  setOrder := id
  ulongBits := 64

/-- Also where the variable has its node. -/
theorem idAllocInsn_never_builds_int :
    ¬ Builds (idAllocInsn 0) .int (.inst 0) 3 { Gen.empty with valNode := fun _ => some 3 } :=
  (idAllocInsn_never_builds stackVariable .int).2.2 0 .int 3 _ rfl rfl rfl

/-- No module with a stack variable is analysed. -/
theorem objConsId_alloca :
    objConsId stackVariable 20 Gen.empty = .error (.assertion "isa<> used on a null pointer") := by
  rfl

end Gen

end PtrAnalysis
