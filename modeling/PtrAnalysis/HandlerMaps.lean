import PtrAnalysis.NodeMaps
import PtrAnalysis.Shapes

/-!
# What the handlers write

The footprint of each handler of calls and instructions. Only the object of a call and the
object that `A?R_NEW` makes for an argument are entered here; constant expressions may get
their first value nodes.
-/

namespace PtrAnalysis

open Run Act

namespace Gen

/-- Which argument of an external function of the type `A?R_NEW` gets a new object. -/
def newArgNo : ExtType → Option Nat
  | .a0rNew => some 0
  | .a1rNew => some 1
  | .a2rNew => some 2
  | .a4rNew => some 4
  | .a11rNew => some 11
  | _ => none

section

variable {P : Ir} {fuel : Nat} {own fresh : Set Slot} {S : Set Nat}

/-! ## Reading -/

theorem callArg_only (I : Inst) (m : Nat) : Runs StructsOnly (callArg I m) := by
  unfold callArg
  split
  · exact .throw _
  · exact .pure _

theorem getStructOff_only (s : Nat) : Runs StructsOnly (getStructOff P fuel s) :=
  .bind .get fun _ => .ite (.bind (analyzeStruct_only P fuel s) fun _ => .bind .get fun _ => .pure _)
    (.bind .get fun _ => .pure _)

theorem gepOff_only (T : Ty) (idx : List Val) (off : Nat) :
    Runs StructsOnly (gepOff P fuel T idx off) := by
  induction idx generalizing T off with
  | nil =>
      rw [gepOff]
      exact .pure _
  | cons v rest ih =>
      unfold gepOff
      split
      · exact .pure _
      · rename_i heq
        obtain ⟨rfl, rfl⟩ := List.cons.inj heq
        split
        · exact .bind (getStructOff_only _) fun _ => .bind (.lift _) fun _ => ih _ _
        · exact .throw _
      · rename_i heq
        obtain ⟨rfl, rfl⟩ := List.cons.inj heq
        exact ih _ _

theorem computeGepOff_only (ops : List Val) : Runs StructsOnly (computeGepOff P fuel ops) := by
  unfold computeGepOff
  split
  · exact .pure _
  · exact .pure _
  · exact gepOff_only _ _ _

theorem pointeeSize_only (T : Ty) : Runs StructsOnly (match T with
    | .ptr t => do return (← sizesOf P fuel t.strip).length
    | _ => pure 1) := by
  split
  · unfold sizesOf
    split
    · exact .bind (getStructSz_only _ _ _) fun _ => .pure _
    · exact .bind (.pure _) fun _ => .pure _
  · exact .pure _

theorem getMaxOffset_only (v : Val) : Runs StructsOnly (getMaxOffset P fuel v) := by
  unfold getMaxOffset
  dsimp only
  split
  · exact pointeeSize_only _
  · exact .ite (pointeeSize_only _)
      (.foldlM _ fun op _ msz => .bind (pointeeSize_only _) fun _ => .pure _)
  · split
    · exact .bind (pointeeSize_only _) fun _ => .pure _
    · exact .pure _
  · exact .pure _

/-! ## Calls of functions of the program -/

theorem passArg_safe (hE : ExprsIn fresh) {vnF : Nat} (hvn : vnF ∈ S) (AA : Val) :
    Safe P own fresh S (passArg P fuel vnF AA) fun _ => ∅ := by
  refine .ite (fun _ => ?_) fun _ => cons_safe hvn (.inr (by decide))
  exact .bind isNode_lasts (getValNodeCptr_safe hE AA) fun vnAA =>
    consUnless0_safe (.inl hvn) (.inr rfl)

theorem passFixed_safe (hE : ExprsIn fresh) (f i : Nat) (Ts : List Ty) (as : List Val) :
    Safe P own fresh S (passFixed P fuel f i Ts as) fun _ => ∅ := by
  induction Ts generalizing i as S with
  | nil => exact .done _
  | cons T Ts ih =>
      cases as with
      | nil => exact .done _
      | cons AA as =>
          rw [passFixed]
          refine .ite (fun _ => ?_) fun _ => ih _ _
          refine .bind isNode_lasts (getValNode_safe _) fun vnFA => ?_
          exact .seq isNode_lasts (passArg_safe hE (.inr rfl) AA) fun _ => ih _ _

theorem idDirCall_safe (hE : ExprsIn fresh) (i : Nat) {f : Nat} (hext : P.isExt f = false) :
    Safe P own fresh S (idDirCall P fuel i f) fun _ => ∅ := by
  have hargs : ∀ (S : Set Nat) (F : Func) (as : List Val), Safe P own fresh S (do
      let rest ← passFixed P fuel f 0 F.params as
      if F.isVarArg then
        let vaF ← getVarargNode P f
        require (vaF ≠ 0) "vaF"
        rest.forM fun AA => passArg P fuel vaF AA
      else require (rest = []) "too many args to non-vararg func.") fun _ => ∅ := by
    intro S F as
    refine .seq isNode_lasts (passFixed_safe hE _ _ _ _) fun rest => .ite (fun _ => ?_) fun _ => .lift _
    refine .bind isNode_lasts (getVarargNode_safe f) fun vaF => .seq isNode_lasts (.lift _) fun _ => ?_
    exact .forM isNode_lasts fun AA _ => passArg_safe hE (.inr rfl) AA
  refine .ite (fun _ => ?_) fun _ => hargs _ _ _
  refine .bind isNode_lasts (getValNode_safe _) fun vnI => .ite (fun _ => ?_) fun _ => ?_
  · refine .bind isNode_lasts (getRetNode_safe hext) fun rnF => .seq isNode_lasts (.lift _) fun _ => ?_
    refine .seq isNode_lasts (cons_safe (.inl (.inr rfl)) (.inl (.inr rfl))) fun _ => hargs _ _ _
  · exact .seq isNode_lasts (cons_safe (.inr rfl) (.inr (by decide))) fun _ => hargs _ _ _

theorem consCall_safe (i : Nat) {t : ConsType} {dest src off : Nat} (hd : dest ∈ S)
    (hs : src ∈ S ∨ src < firstVarNode) :
    Safe P own fresh S (consCall i t dest src off) fun _ => ∅ := by
  refine .seq isNode_lasts (cons_safe hd hs) fun _ g => ?_
  unfold GivesAt
  rw [tagCall, wp_modify]
  refine ⟨⟨List.prefix_refl _, .of_eq (by funext a; cases a <;> rfl)⟩, fun hB hS =>
    ⟨?_, fun n hn => absurd hn (Set.notMem_empty n)⟩⟩
  refine { hB with
    entry := fun a n hn => hB.entry a n (by cases a <;> exact hn)
    tagged := fun e he => ?_ }
  rcases List.mem_cons.mp he with rfl | hold
  · exact ⟨hS _ hd, hs.elim (hS _) hB.isNode⟩
  · exact hB.tagged _ (List.mem_of_mem_filter hold)

theorem storeArgs_safe (hE : ExprsIn fresh) (i : Nat) {vnC : Nat} (hvn : vnC ∈ S) (off : Nat)
    (as : List Val) : Safe P own fresh S (storeArgs P fuel i vnC off as) fun _ => ∅ := by
  induction as generalizing off S with
  | nil => exact .done _
  | cons AA as ih =>
      rw [storeArgs]
      refine .ite (fun _ => .bind isNode_lasts (getValNodeCptr_safe hE AA) fun vnAA => ?_) fun _ => ?_
      · refine .ite (fun _ => ?_) fun _ => ih (.inl hvn) _
        exact .seq isNode_lasts (consCall_safe i (.inl hvn) (.inl (.inr rfl))) fun _ =>
          ih (.inl hvn) _
      · exact .seq isNode_lasts (consCall_safe i hvn (.inr (by decide))) fun _ => ih hvn _

theorem idIndCall_safe (hE : ExprsIn fresh) (i : Nat) :
    Safe P own fresh S (idIndCall P fuel i) fun _ => ∅ := by
  unfold idIndCall
  dsimp only
  split
  · exact .done _
  · refine .bind isNode_lasts (getValNodeCptr_safe hE _) fun vnC => ?_
    refine .seq isNode_lasts (.lift _) fun _ => .seq isNode_lasts ?_ fun _ => ?_
    · intro g
      unfold GivesAt
      rw [wp_modify]
      refine ⟨⟨List.prefix_refl _, .of_eq (by funext a; cases a <;> rfl)⟩, fun hB hS =>
        ⟨?_, fun n hn => absurd hn (Set.notMem_empty n)⟩⟩
      refine { hB with
        entry := fun a n hn => hB.entry a n (by cases a <;> exact hn)
        calls := fun n hn => ?_ }
      rcases Finset.mem_insert.mp hn with rfl | hold
      · exact hS _ (.inr rfl)
      · exact hB.calls n hold
    · refine .ite (fun _ => ?_) fun _ => storeArgs_safe hE i (.inr rfl) _ _
      refine .bind isNode_lasts (getValNode_safe _) fun vnI => ?_
      refine .seq isNode_lasts (consCall_safe i (.inr rfl) (.inl (.inl (.inr rfl)))) fun _ => ?_
      exact storeArgs_safe hE i (.inl (.inr rfl)) _ _

/-! ## Calls of external functions -/

theorem callArg_safe (I : Inst) (m : Nat) : Safe P own fresh S (callArg I m) fun _ => ∅ :=
  safe_of_structs (callArg_only I m)

theorem addStore2Cons_safe (hE : ExprsIn fresh) (D V : Val) (sz : Nat) :
    Safe P own fresh S (addStore2Cons P fuel D V sz) fun _ => ∅ := by
  refine .bind isNode_lasts (getValNodeCptr_safe hE D) fun vnD => ?_
  refine .bind isNode_lasts (getValNodeCptr_safe hE V) fun vnS => ?_
  have hcopy : ∀ sz : Nat, Safe P own fresh (S ∪ {vnD} ∪ {vnS}) ((List.range sz).forM fun i => do
      let tn ← takeNode
      pushNode {}
      cons .load tn vnS i
      cons .store vnD tn i) fun _ => ∅ := fun sz => .forM isNode_lasts fun i _ =>
    newNode_safe fun tn => .seq isNode_lasts (cons_safe (.inr rfl) (.inl (.inl (.inr rfl)))) fun _ =>
      cons_safe (.inl (.inl (.inr rfl))) (.inl (.inr rfl))
  refine .ite (fun _ => .done _) fun _ => .ite (fun _ => ?_) fun _ =>
    .seq isNode_lasts (.done _) fun _ => hcopy _
  refine .seq isNode_lasts (safe_of_structs (getMaxOffset_only D)) fun szD => ?_
  refine .seq isNode_lasts (safe_of_structs (getMaxOffset_only V)) fun szS => ?_
  exact .seq isNode_lasts (.done _) fun _ => hcopy _

theorem storeArg_safe (hE : ExprsIn fresh) (I : Inst) (d s : Nat) :
    Safe P own fresh S (storeArg P fuel I d s) fun _ => ∅ := by
  refine .seq isNode_lasts (callArg_safe I d) fun D => ?_
  refine .bind isNode_lasts (getValNodeCptr_safe hE D) fun vnD => ?_
  refine .seq isNode_lasts (callArg_safe I s) fun V => ?_
  refine .bind isNode_lasts (getValNodeCptr_safe hE V) fun vnS => ?_
  exact .ite (fun _ => cons_safe (.inl (.inr rfl)) (.inl (.inr rfl))) fun _ => .done _

theorem returnArg_safe (hE : ExprsIn fresh) (i m : Nat) :
    Safe P own fresh S (returnArg P fuel i m) fun _ => ∅ := by
  refine .ite (fun _ => ?_) fun _ => .done _
  refine .bind isNode_lasts (getValNode_safe _) fun vnD => ?_
  exact .seq isNode_lasts (callArg_safe _ m) fun AA => passArg_safe hE (.inr rfl) AA

/-! ## Objects -/

/-- The object of `v`, which is no function, is entered and made. -/
theorem Bounded.object {g : Gen} (h : Bounded P g) {v : Val} (hv : ∀ f, v ≠ .func f)
    {l : List GenNode} (hl : l ≠ []) {k : Nat} (hk : l.length = k) : Bounded P { g with
      nodes := g.nodes ++ l, nextNode := g.nextNode + k
      objNode := Function.update g.objNode v (some g.nextNode) } := by
  refine (h.push l hk).enter (slots_objNode v g.nextNode) ?_ (fun f hf => hv f (Slot.obj.inj hf))
    rfl rfl rfl rfl rfl rfl rfl
  rw [h.count, List.length_append]
  exact Nat.lt_add_of_pos_right (List.length_pos_iff.mpr hl)

theorem extends_object {g : Gen} {v : Val} (hv : .obj v ∈ own) (l : List GenNode) (k n : Nat)
    (stat : String → Option Nat) : Extends own fresh g { g with
      nodes := g.nodes ++ l, nextNode := k
      objNode := Function.update g.objNode v (some n), statRetNode := stat } := by
  refine ⟨List.prefix_append _ _, ?_⟩
  have hslots := slots_objNode (g := { g with
    nodes := g.nodes ++ l, nextNode := k, statRetNode := stat }) v n
  exact hslots ▸ .update hv _

/-- An object has nodes, and they are those of its value. -/
theorem pushObject_nodes (v : Val) (T : Ty) (weak : Bool) (g : Gen) :
    Wp (pushObject P fuel v T weak) (fun _ g' => ∃ g1 l, StructsOnly g g1 ∧
      (FlatInfo g.structInfo → l ≠ []) ∧ (∀ N ∈ l, N.val = some v) ∧
      g' = { g1 with nodes := g1.nodes ++ l, nextNode := g1.nextNode + l.length }) g := by
  unfold pushObject
  split
  · rw [wp_bind]
    apply ((structs_spec P fuel).2 _ g).imp
    rintro sz g1 ⟨hg1, hflat⟩
    refine ⟨g1, sz.map fun sz => ⟨some v, sz, weak⟩, hg1, fun hinfo => ?_, fun N hN => ?_, by simp⟩
    · simpa using (hflat hinfo).1
    · obtain ⟨_, -, rfl⟩ := List.mem_map.mp hN
      rfl
  · exact ⟨g, [1].map fun sz => ⟨some v, sz, weak⟩, refl g, fun _ => by simp, by simp, rfl⟩

/-- Code that makes an object for `v`; what follows may use its first node. -/
theorem newObject_safe {α : Type} {v : Val} (hown : .obj v ∈ own) (hv : ∀ f, v ≠ .func f) (T : Ty)
    (weak : Bool) {x : Nat → GenM α} {T' : α → Set Nat}
    (hx : ∀ on, Safe P own fresh (S ∪ {on}) (x on) T') :
    Safe P own fresh S (get >>= fun g => setObjNode v g.nextNode >>= fun _ =>
      pushObject P fuel v T weak >>= fun _ => x g.nextNode) T' := by
  intro g
  unfold GivesAt
  simp only [setObjNode, wp_bind, wp_get, wp_modify]
  apply (pushObject_nodes v T weak _).imp
  rintro _ g2 ⟨g1, l, hg1, hl, -, rfl⟩
  -- first the structs change, then the object is made
  obtain ⟨hflat, hsome, info, U, m, rfl⟩ := hg1
  have hstructs : StructsOnly g { g with structInfo := info, maxStruct := U, maxStructSz := m } :=
    ⟨hflat, hsome, info, U, m, rfl⟩
  refine (hx g.nextNode _).after isNode_lasts ?_ fun hB _ => ⟨?_, fun n hn => ?_⟩
  · exact IsTrans.trans _ _ _ hstructs.extends (extends_object hown l _ _ _)
  · exact (hB.structsOnly hstructs).object hv (hl hB.structs) rfl
  · rw [Set.mem_singleton_iff.mp hn, IsNode, hB.count, List.length_append]
    exact Nat.lt_add_of_pos_right (List.length_pos_iff.mpr (hl hB.structs))

/-- An object of two nodes, of which the first points to the second. -/
theorem pair_safe {g g1 : Gen} {v : Val} (weak : Bool) {α : Type} {x : GenM α} {T : α → Set Nat}
    (hown : .obj v ∈ own) (hv : ∀ f, v ≠ .func f)
    (hx : Safe P own fresh (S ∪ {g.nextNode, g.nextNode + 1}) x T)
    (hg1 : g1 = { g with
      nodes := g.nodes ++ [2, 1].map fun sz => ⟨some v, sz, weak⟩, nextNode := g.nextNode + 2
      objNode := Function.update g.objNode v (some g.nextNode) }) :
    Wp x (fun a g' => Extends own fresh g g' ∧ (Bounded P g → (∀ n ∈ S, IsNode g n) →
      Bounded P g' ∧ ∀ n ∈ T a, IsNode g' n)) g1 := by
  subst hg1
  refine (hx _).after isNode_lasts (extends_object hown _ _ _ _) fun hB _ => ⟨?_, fun n hn => ?_⟩
  · exact hB.object hv (by simp) rfl
  · rcases hn with rfl | rfl <;> simp [IsNode, hB.count]

theorem newArg_safe (hE : ExprsIn fresh) (I : Inst) (m : Nat)
    (hown : ∀ v, I.args[m]? = some v → (P.typeOf v).contained.isPtr = true → .obj v ∈ own) :
    Safe P own fresh S (newArg P fuel I m) fun _ => ∅ := by
  intro g
  unfold newArg callArg GivesAt
  cases hm : I.args[m]? with
  | none => trivial
  | some dest =>
      rw [pure_bind]
      refine GivesAt.bind isNode_lasts (getValNodeCptr_safe hE dest g) fun vnD g1 _ => ?_
      unfold GivesAt
      rw [wp_ite]
      refine ⟨fun _ => Gives.done () g1, fun _ => ?_⟩
      rw [wp_bind, wp_lift]
      intro _ hptr
      have hptr := require_ok.mp hptr
      -- a function is no double pointer
      have hv : ∀ f, dest ≠ .func f := by
        rintro f rfl
        simp [Ir.typeOf, Ty.contained, Ty.isPtr] at hptr
      refine newObject_safe (hown dest hm hptr) hv _ true (x := fun on => do
        let vn ← takeNode
        pushNode {}
        cons .addrOf vn on
        cons .store vnD vn) (fun on => ?_) g1
      refine newNode_safe fun vn => ?_
      refine .seq isNode_lasts (cons_safe (.inr rfl) (.inl (.inl (.inr rfl)))) fun _ => ?_
      exact cons_safe (.inl (.inl (.inr rfl))) (.inl (.inr rfl))

theorem Bounded.enterStat {g : Gen} (h : Bounded P g) (name : String) {n : Nat}
    (hn : n < g.nodes.length) :
    Bounded P { g with statRetNode := Function.update g.statRetNode name (some n) } := by
  refine { h with
    entry := fun a m hm => h.entry a m (by cases a <;> exact hm)
    stat := fun name' m hm => ?_ }
  by_cases hname : name' = name
  · rw [hname] at hm
    simp only [Function.update_self, Option.some.injEq] at hm
    exact hm ▸ hn
  · simp only [Function.update_of_ne hname] at hm
    exact h.stat name' m hm

theorem staticObj_safe {I : Val} (hown : .obj I ∈ own) (hI : ∀ f, I ≠ .func f) (f : Nat) :
    Safe P own fresh S (staticObj P fuel I f) fun n => {n} := by
  intro g
  unfold GivesAt staticObj
  simp only [setObjNode, pushNodes, bump, wp_bind, wp_get]
  split
  · rename_i on hon
    exact ⟨refl g, fun hB _ => ⟨hB, fun n hn => Set.mem_singleton_iff.mp hn ▸ hB.stat _ on hon⟩⟩
  · simp only [wp_bind, wp_modify, wp_ite, wp_pure]
    constructor
    · intro _
      have hlast : ∀ g1 : Gen, Safe P own fresh (S ∪ {g1.nextNode, g1.nextNode + 1})
          (cons .addrOf g1.nextNode (g1.nextNode + 1) >>= fun _ =>
            (pure g1.nextNode : GenM Nat)) fun n => {n} := fun g1 =>
        .seq isNode_lasts (cons_safe (.inr (.inl rfl)) (.inl (.inr (.inr rfl)))) fun _ =>
          .pure _ fun n hn => .inr (.inl hn)
      have hrun := (hlast g { g with
        nodes := g.nodes ++ [2, 1].map fun sz => ⟨some I, sz, true⟩, nextNode := g.nextNode + 2
        objNode := Function.update g.objNode I (some g.nextNode)
        statRetNode := Function.update g.statRetNode (P.func f).name (some g.nextNode) }).after
          isNode_lasts (s := g) ?_ ?_
      · rwa [wp_bind] at hrun
      · exact extends_object hown _ _ _ _
      · refine fun hB _ => ⟨?_, fun n hn => ?_⟩
        · exact (hB.object hI (l := [2, 1].map fun sz => ⟨some I, sz, true⟩) (by simp) rfl).enterStat
            _ (by simp [hB.count])
        · rcases hn with rfl | rfl <;> simp [IsNode, hB.count]
    · intro _
      apply (pushObject_nodes I _ true _).imp
      rintro _ g2 ⟨g1, l, hg1, hl, -, rfl⟩
      obtain ⟨hflat, hsome, info, U, m, rfl⟩ := hg1
      have hstructs : StructsOnly g { g with structInfo := info, maxStruct := U, maxStructSz := m } :=
        ⟨hflat, hsome, info, U, m, rfl⟩
      refine ⟨IsTrans.trans _ _ _ hstructs.extends (extends_object hown l _ _ _), fun hB _ => ?_⟩
      have hlt : g.nextNode < (g.nodes ++ l).length := by
        rw [hB.count, List.length_append]
        exact Nat.lt_add_of_pos_right (List.length_pos_iff.mpr (hl hB.structs))
      refine ⟨?_, fun n hn => Set.mem_singleton_iff.mp hn ▸ hlt⟩
      exact ((hB.structsOnly hstructs).object hI (hl hB.structs) rfl).enterStat _ hlt

/-- Whether call `i` may get an object, if it is one of `F`. -/
def makesObject (P : Ir) (i : Nat) : Option Nat → Bool
  | none => true
  | some f => allocates P f i || P.hasStatic f

/-- The object of the call that node `vnI` stands for. -/
theorem idCallObj_safe {i vnI : Nat} {g : Gen} {F : Option Nat}
    (hown : makesObject P i F = true → .obj (.inst i) ∈ own) (hvn : vnI ∈ S)
    (hnode : (g.nodes.getD vnI {}).val = some (.inst i)) :
    SafeAt P own fresh S (idCallObj P fuel vnI F) (fun _ => ∅) g := by
  have hI : ∀ f, Val.inst i ≠ .func f := fun f hf => by cases hf
  unfold idCallObj SafeAt GivesAt
  rw [wp_bind, wp_get, hnode]
  cases F with
  | none =>
      have hrun : Safe P own fresh S (do
          let T ← traceAllocType P fuel i
          let on := (← get).nextNode
          setObjNode (.inst i) on
          pushObject P fuel (.inst i) T true) fun _ => ∅ :=
        .seq isNode_lasts (safe_of_structs (traceAllocType_only i)) fun T => by
          simpa only [bind_pure_unit] using
            newObject_safe (hown rfl) hI T true (x := fun _ => pure ()) fun on => .done _
      exact hrun g
  | some f =>
      have hrest : ∀ new : Bool, (new = true → allocates P f i = true) →
          Safe P own fresh S (if new then do
            let T ← traceAllocType P fuel i
            let on := (← get).nextNode
            setObjNode (.inst i) on
            pushObject P fuel (.inst i) T true
            cons .addrOf vnI on
          else if P.hasStatic f then do
            let on ← staticObj P fuel (.inst i) f
            cons .addrOf vnI on
          else pure ()) fun _ => ∅ := by
        intro new hnew
        refine .ite (fun h => ?_) fun _ => .ite (fun h => ?_) fun _ => .done _
        · refine .seq isNode_lasts (safe_of_structs (traceAllocType_only i)) fun T => ?_
          exact newObject_safe (hown (by simp [makesObject, hnew h])) hI T true fun on =>
            cons_safe (.inl hvn) (.inl (.inr rfl))
        · exact .bind isNode_lasts (staticObj_safe (hown (by simp [makesObject, h])) hI f) fun on =>
            cons_safe (.inl hvn) (.inl (.inr rfl))
      have hone : allocates P f i = true → Safe P own fresh S (do
          let on ← takeNode
          setObjNode (.inst i) on
          pushNodes (.inst i) [1] true
          cons .addrOf vnI on) fun _ => ∅ := by
        intro halloc g1
        unfold GivesAt
        simp only [takeNode, bump, setObjNode, pushNodes, wp_bind, wp_get, wp_modify, wp_pure]
        have hlast : Safe P own fresh (S ∪ {g1.nextNode}) (cons .addrOf vnI g1.nextNode) fun _ => ∅ :=
          cons_safe (.inl hvn) (.inl (.inr rfl))
        refine (hlast _).after isNode_lasts ?_ fun hB _ => ⟨?_, fun n hn => ?_⟩
        · exact extends_object (hown (by simp [makesObject, halloc])) _ _ _ _
        · exact hB.object hI (by simp) rfl
        · rw [Set.mem_singleton_iff.mp hn]
          simp [IsNode, hB.count]
      dsimp only
      rw [wp_ite]
      constructor
      · intro h
        refine hone ?_ g
        simp_all [Ir.noStructAlloc, allocates]
      · intro _
        change GivesAt (Extends own fresh) (Bounded P) IsNode S _ (fun _ => ∅) g
        refine Gives.ite (fun ha => ?_) (fun _ => .ite (fun hre => ?_) fun _ => ?_) g
        · rw [pure_bind]
          refine hrest true fun _ => ?_
          simp_all [Ir.isAlloc, Ir.noStructAlloc, allocates]
        · split
          · exact .throw _ _
          · rename_i a as hargs
            rw [pure_bind]
            exact hrest _ fun hnull => by simp [allocates, hre, hargs, hnull]
        · rw [pure_bind]
          exact hrest false fun h => by cases h

/-- The nodes of instructions stand for them, and null pointers have none. -/
structure Tidy (g : Gen) : Prop where
  inst : ∀ i n, g.valNode (.inst i) = some n → (g.nodes.getD n {}).val = some (.inst i)
  null : ∀ t, g.valNode (.null t) = none

/-- No such entry is written. -/
structure NoInst (own fresh : Set Slot) : Prop where
  inst : ∀ i, Slot.val (.inst i) ∉ own ∧ Slot.val (.inst i) ∉ fresh
  null : ∀ t, Slot.val (.null t) ∉ own ∧ Slot.val (.null t) ∉ fresh

theorem Tidy.extends {g g' : Gen} (h : Tidy g) (hno : NoInst own fresh)
    (hg : Extends own fresh g g') : Tidy g' where
  inst := by
    intro i n hn
    have hold : g.valNode (.inst i) = some n := by
      rcases hg.writes (.val (.inst i)) with heq | ho | ⟨-, hf⟩
      · exact heq.symm.trans hn
      · exact absurd ho (hno.inst i).1
      · exact absurd hf (hno.inst i).2
    have hval := h.inst i n hold
    obtain ⟨l, hl⟩ := hg.nodes
    have hlt : n < g.nodes.length := by
      by_contra hge
      simp [List.getD_eq_getElem?_getD, List.getElem?_eq_none (not_lt.mp hge)] at hval
    rw [← hl, List.getD_eq_getElem?_getD, List.getElem?_append_left hlt,
      ← List.getD_eq_getElem?_getD, hval]
  null := fun t =>
    hg.writes.none (a := .val (.null t)) (h.null t) (hno.null t).1 (hno.null t).2

/-- Call `i` of the external function `f` makes a new object for its argument `v`: a double
pointer, other than null. -/
def GetsNew (P : Ir) (i f : Nat) (v : Val) : Prop :=
  ∃ k, newArgNo (P.extType f) = some k ∧ (P.insts i).args[k]? = some v ∧ v.isNullPtr = false ∧
    (P.typeOf v).contained.isPtr = true

/-- What an external call may enter. -/
def OwnsNew (P : Ir) (own : Set Slot) (i f : Nat) : Prop := ∀ v, GetsNew P i f v → .obj v ∈ own

/-- With a null pointer nothing is made. -/
theorem newArg_at (hE : ExprsIn fresh) {i f k : Nat} (hown : OwnsNew P own i f)
    (hk : newArgNo (P.extType f) = some k) {g : Gen} (hg : Tidy g) :
    SafeAt P own fresh S (newArg P fuel (P.insts i) k) (fun _ => ∅) g := by
  by_cases hnull : ∃ t, (P.insts i).args[k]? = some (.null t)
  · obtain ⟨t, ht⟩ := hnull
    have hfind : Finds g.valNode (.null t) 0 := .null (hg.null t) (by simp [Val.isNullPtr])
    unfold newArg callArg SafeAt GivesAt
    rw [ht, pure_bind, wp_bind]
    have hlook : Wp (getValNodeCptr P fuel (.null t)) (fun m g' => m = 0 ∧ g' = g) g := hfind.lookup
    apply hlook.imp
    rintro _ _ ⟨rfl, rfl⟩
    rw [if_pos rfl]
    exact ⟨refl _, fun hB _ => ⟨hB, fun n hn => absurd hn (Set.notMem_empty n)⟩⟩
  · refine newArg_safe hE _ k (fun v hv hptr => hown v ⟨k, hk, hv, ?_, hptr⟩) g
    cases v with
    | null t => exact absurd ⟨t, hv⟩ hnull
    | _ => rfl

theorem idExtCall_safe (hE : ExprsIn fresh) {i f : Nat} (hown : OwnsNew P own i f) {g : Gen}
    (hg : Tidy g) : SafeAt P own fresh S (idExtCall P fuel i f) (fun _ => ∅) g := by
  have hnew : ∀ k, newArgNo (P.extType f) = some k →
      SafeAt P own fresh S (newArg P fuel (P.insts i) k) (fun _ => ∅) g :=
    fun k hk => newArg_at hE hown hk hg
  have hdone : SafeAt P own fresh S (pure () : GenM Unit) (fun _ => ∅) g := Gives.done () g
  unfold idExtCall SafeAt GivesAt
  rw [wp_bind, wp_lift]
  intro _ _
  dsimp only
  rw [wp_ite]
  refine ⟨fun _ => hdone, fun _ => ?_⟩
  cases ht : P.extType f with
  | realloc =>
      have hrun : Safe P own fresh S (do
          if (← callArg (P.insts i) 0).isNullPtr then return
          returnArg P fuel i 0) fun _ => ∅ :=
        .seq isNode_lasts (callArg_safe _ _) fun _ => .ite (fun _ => .done _) fun _ =>
          returnArg_safe hE _ _
      exact hrun g
  | lA0 => exact returnArg_safe hE i 0 g
  | lA1 => exact returnArg_safe hE i 1 g
  | lA2 => exact returnArg_safe hE i 2 g
  | lA8 => exact returnArg_safe hE i 8 g
  | lA0_A0rA1r =>
      have hrun : Safe P own fresh S (do
          let a0 ← callArg (P.insts i) 0
          let a1 ← callArg (P.insts i) 1
          addStore2Cons P fuel a0 a1 0
          if (P.insts i).ty.isPtr then
            cons .copy (← getValNode (.inst i)) (← getValNode a0)) fun _ => ∅ := by
        refine .seq isNode_lasts (callArg_safe _ _) fun a0 => ?_
        refine .seq isNode_lasts (callArg_safe _ _) fun a1 => ?_
        refine .seq isNode_lasts (addStore2Cons_safe hE _ _ _) fun _ => .ite (fun _ => ?_) fun _ => .done _
        refine .bind isNode_lasts (getValNode_safe _) fun vn => ?_
        exact .bind isNode_lasts (getValNode_safe _) fun vn0 =>
          cons_safe (.inl (.inr rfl)) (.inl (.inr rfl))
      exact hrun g
  | a1rA0r =>
      have hrun : Safe P own fresh S (do
          addStore2Cons P fuel (← callArg (P.insts i) 1) (← callArg (P.insts i) 0) 0) fun _ => ∅ :=
        .seq isNode_lasts (callArg_safe _ _) fun _ => .seq isNode_lasts (callArg_safe _ _) fun _ =>
          addStore2Cons_safe hE _ _ _
      exact hrun g
  | a3rA1rNs =>
      have hrun : Safe P own fresh S (do
          addStore2Cons P fuel (← callArg (P.insts i) 3) (← callArg (P.insts i) 1) 1) fun _ => ∅ :=
        .seq isNode_lasts (callArg_safe _ _) fun _ => .seq isNode_lasts (callArg_safe _ _) fun _ =>
          addStore2Cons_safe hE _ _ _
      exact hrun g
  | a1rA0 => exact storeArg_safe hE _ _ _ g
  | a2rA1 => exact storeArg_safe hE _ _ _ g
  | a4rA1 => exact storeArg_safe hE _ _ _ g
  | lA0_A2rA0 =>
      have hrun : Safe P own fresh S (do
          returnArg P fuel i 0
          storeArg P fuel (P.insts i) 2 0) fun _ => ∅ :=
        .seq isNode_lasts (returnArg_safe hE _ _) fun _ => storeArg_safe hE _ _ _
      exact hrun g
  | a0rNew => exact hnew 0 (by rw [ht]; rfl)
  | a1rNew => exact hnew 1 (by rw [ht]; rfl)
  | a2rNew => exact hnew 2 (by rw [ht]; rfl)
  | a4rNew => exact hnew 4 (by rw [ht]; rfl)
  | a11rNew => exact hnew 11 (by rw [ht]; rfl)
  | alloc => trivial
  | noStructAlloc => trivial
  | stat => trivial
  | stat2 => trivial
  | noop => exact hdone
  | other => exact hdone

/-! ## Instructions -/

theorem copyAll_safe (hE : ExprsIn fresh) {vnI : Nat} (hvn : vnI ∈ S) (ops : List Val) :
    Safe P own fresh S (copyAll P fuel vnI ops) fun _ => ∅ :=
  .forM isNode_lasts fun op _ => .bind isNode_lasts (getValNodeCptr_safe hE op) fun _ =>
    consUnless0_safe (.inl hvn) (.inr rfl)

theorem idRetInsn_safe (hE : ExprsIn fresh) {i : Nat} (hext : P.isExt (P.parent i).1 = false) :
    Safe P own fresh S (idRetInsn P fuel i) fun _ => ∅ := by
  unfold idRetInsn
  split
  · exact .done _
  · refine .ite (fun _ => ?_) fun _ => .done _
    refine .bind isNode_lasts (getRetNode_safe hext) fun rnF => ?_
    refine .bind isNode_lasts (getValNodeCptr_safe hE _) fun vnS => ?_
    exact .seq isNode_lasts (.lift _) fun _ => consUnless0_safe (.inl (.inr rfl)) (.inr rfl)

/-- What the handling of call `i` may enter. -/
structure OwnsCall (P : Ir) (own : Set Slot) (i : Nat) : Prop where
  object : makesObject P i (calleeOf (P.insts i)) = true → .obj (.inst i) ∈ own
  new : ∀ f, calleeOf (P.insts i) = some f → P.isExt f = true → OwnsNew P own i f

/-- A call of any kind, behind its object. -/
theorem anyCall_safe (hE : ExprsIn fresh) {i : Nat} (hown : OwnsCall P own i) {g : Gen}
    (hg : Tidy g) : SafeAt P own fresh S (match calleeOf (P.insts i) with
      | some f => if P.isExt f then idExtCall P fuel i f else idDirCall P fuel i f
      | none => idIndCall P fuel i) (fun _ => ∅) g := by
  split
  · rename_i f hf
    unfold SafeAt GivesAt
    rw [wp_ite]
    constructor
    · exact fun hext => idExtCall_safe hE (hown.new f hf hext) hg
    · exact fun hext => idDirCall_safe hE i (by simpa using hext) g
  · exact idIndCall_safe hE i g

theorem idCallInsn_safe (hE : ExprsIn fresh) (hno : NoInst own fresh) {i : Nat}
    (hown : OwnsCall P own i) {g : Gen} (hg : Tidy g) :
    SafeAt P own fresh S (idCallInsn P fuel i) (fun _ => ∅) g := by
  unfold idCallInsn SafeAt GivesAt
  dsimp only
  rw [wp_bind]
  cases hv : g.valNode (.inst i) with
  | none =>
      rw [findValNode_none hv, if_neg (by simp)]
      exact anyCall_safe hE hown hg
  | some vnI =>
      rw [findValNode_some hv]
      intro hne
      rw [if_pos hne]
      have hnode := hg.inst i vnI hv
      have hobj : SafeAt P own fresh (S ∪ {vnI}) (idCallObj P fuel vnI (calleeOf (P.insts i)))
          (fun _ => ∅) g := idCallObj_safe hown.object (.inr rfl) hnode
      refine (hobj.seq isNode_lasts fun _ g1 hg1 =>
        anyCall_safe hE hown (hg.extends hno hg1)).after
        isNode_lasts (refl g) fun hB _ => ⟨hB, fun n hn => ?_⟩
      exact Set.mem_singleton_iff.mp hn ▸ hB.entry (.val (.inst i)) vnI hv

theorem idLoadInsn_safe (hE : ExprsIn fresh) (i : Nat) :
    Safe P own fresh S (idLoadInsn P fuel i) fun _ => ∅ := by
  refine .bind isNode_lasts (getValNode_safe _) fun vnI => ?_
  exact .bind isNode_lasts (getValNodeCptr_safe hE _) fun vnS =>
    consUnless0_safe (.inl (.inr rfl)) (.inr rfl)

theorem idStoreInsn_safe (hE : ExprsIn fresh) (i : Nat) :
    Safe P own fresh S (idStoreInsn P fuel i) fun _ => ∅ := by
  refine .ite (fun _ => ?_) fun _ => .done _
  refine .bind isNode_lasts (getValNodeCptr_safe hE _) fun vnD => ?_
  refine .bind isNode_lasts (getValNodeCptr_safe hE _) fun vnS => ?_
  exact .ite (fun _ => cons_safe (.inl (.inr rfl)) (.inl (.inr rfl))) fun _ => .done _

theorem idGepInsn_safe (hE : ExprsIn fresh) (i : Nat) :
    Safe P own fresh S (idGepInsn P fuel i) fun _ => ∅ := by
  refine .bind isNode_lasts (getValNode_safe _) fun vnI => .ite (fun _ => ?_) fun _ => ?_
  · exact .ite (fun _ => idI2pInsn_safe hE _) fun _ => .done _
  · refine .bind isNode_lasts (getValNodeCptr_safe hE _) fun vnS => ?_
    refine .seq isNode_lasts (.lift _) fun _ => ?_
    exact .seq isNode_lasts (safe_of_structs (computeGepOff_only _)) fun off =>
      cons_safe (.inl (.inr rfl)) (.inl (.inr rfl))

theorem idBitcastInsn_safe (hE : ExprsIn fresh) (i : Nat) :
    Safe P own fresh S (idBitcastInsn P fuel i) fun _ => ∅ := by
  refine .bind isNode_lasts (getValNode_safe _) fun vnI => .seq isNode_lasts (.lift _) fun _ => ?_
  exact .bind isNode_lasts (getValNodeCptr_safe hE _) fun vnS =>
    consUnless0_safe (.inl (.inr rfl)) (.inr rfl)

theorem idPhiInsn_safe (hE : ExprsIn fresh) (i : Nat) :
    Safe P own fresh S (idPhiInsn P fuel i) fun _ => ∅ :=
  .bind isNode_lasts (getValNode_safe _) fun _ => copyAll_safe hE (.inr rfl) _

theorem idSelectInsn_safe (hE : ExprsIn fresh) (i : Nat) :
    Safe P own fresh S (idSelectInsn P fuel i) fun _ => ∅ := by
  refine .bind isNode_lasts (getValNode_safe _) fun vnI => ?_
  refine .bind isNode_lasts (getValNodeCptr_safe hE _) fun vnS1 => ?_
  refine .bind isNode_lasts (getValNodeCptr_safe hE _) fun vnS2 => ?_
  refine .seq isNode_lasts (consUnless0_safe (.inl (.inl (.inr rfl))) (.inl (.inr rfl))) fun _ => ?_
  exact consUnless0_safe (.inl (.inl (.inr rfl))) (.inr rfl)

theorem idVaargInsn_safe (i : Nat) : Safe P own fresh S (idVaargInsn P i) fun _ => ∅ := by
  refine .bind isNode_lasts (getValNode_safe _) fun vnI => ?_
  refine .bind isNode_lasts (getVarargNode_safe _) fun vaF => ?_
  exact .seq isNode_lasts (.lift _) fun _ => cons_safe (.inl (.inr rfl)) (.inl (.inr rfl))

/-- What the handling of instruction `i` may enter. -/
def OwnsInsn (P : Ir) (own : Set Slot) (i : Nat) : Prop :=
  (P.insts i).op = .call ∨ (P.insts i).op = .invoke → OwnsCall P own i

/-- The handler of an instruction that returns nothing from its function. -/
theorem visitInsn_safe (hE : ExprsIn fresh) (hno : NoInst own fresh) {i : Nat}
    (hown : OwnsInsn P own i) (hret : (P.insts i).op = .ret → P.isExt (P.parent i).1 = false)
    {g : Gen} (hg : Tidy g) : SafeAt P own fresh S (visitInsn P fuel i) (fun _ => ∅) g := by
  have hwhen : ∀ {p : Prop} [Decidable p] {x : GenM Unit}, Safe P own fresh S x (fun _ => ∅) →
      SafeAt P own fresh S (if p then x else pure ()) (fun _ => ∅) g := fun hx =>
    Gives.ite (fun _ => hx) (fun _ => .done ()) g
  have hthen : ∀ {p : Prop} [Decidable p] {text : String} {x : GenM Unit},
      Safe P own fresh S x (fun _ => ∅) →
      SafeAt P own fresh S (do
        require p text
        x) (fun _ => ∅) g := fun hx => Gives.seq isNode_lasts (.lift _) (fun _ => hx) g
  unfold visitInsn
  dsimp only
  split
  · rename_i hop
    exact hthen (idRetInsn_safe hE (hret hop))
  · rename_i hop
    exact idCallInsn_safe hE hno (hown (.inr hop)) hg
  · rename_i hop
    exact idCallInsn_safe hE hno (hown (.inl hop)) hg
  · refine GivesAt.seq isNode_lasts (Gives.lift _ g) fun _ g1 _ => ?_
    unfold GivesAt
    simp only [idAllocInsn, setObjNode, wp_bind, wp_get, wp_modify, wp_throw]
    exact wp_true
  · exact hwhen (idLoadInsn_safe hE i)
  · exact hthen (idStoreInsn_safe hE i)
  · exact hthen (idGepInsn_safe hE i)
  · exact hthen (idI2pInsn_safe hE _)
  · exact hwhen (idBitcastInsn_safe hE i)
  · exact hwhen (idPhiInsn_safe hE i)
  · exact hwhen (idSelectInsn_safe hE i)
  · exact hwhen (idVaargInsn_safe i)
  · exact hwhen (.throw _ _)
  · exact Gives.lift _ g

end

end Gen

end PtrAnalysis
