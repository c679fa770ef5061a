import Mathlib.Logic.Relation
import PtrAnalysis.ObjConsId

/-!
# How functions are used

In the LLVM that the headers come from, the callee stands behind the arguments of a call.
`escapes` and `idCallInsn` count on the older order: they take the first operand of a call
for the callee and the others for arguments. `Escapes` and `target` say what they
are after, and the classification theorem for which programs they find it.
-/

namespace PtrAnalysis

open Run

/-- `isa<ConstantExpr>` -/
def Val.isExpr : Val → Bool
  | .expr _ _ _ => true
  | _ => false

/-- A call or an invoke. -/
def Inst.isCall (I : Inst) : Bool := I.op = .call ∨ I.op = .invoke

/-- The function that a value is, also behind a bitcast. -/
def target : Val → Option Nat
  | .func f => some f
  | .expr .bitCast _ (.cons (.func f) _) => some f
  | _ => none

section

variable (P : Ir)

/-- Constant expression `u` uses value `w`. -/
def ExprUse (w u : Val) : Prop := u ∈ P.users w ∧ u.isExpr = true

/-- What `u` does with `w`: for a call, `atCall` is about the instruction. A comparison is
no use that counts, and constant expressions have uses of their own. -/
def Use (atCall : Inst → Val → Prop) (w u : Val) : Prop :=
  match u with
  | .inst i => if (P.insts i).isCall then atCall (P.insts i) w else (P.insts i).op.isCmp = false
  | .expr _ _ _ => False
  | _ => True

/-- `v`, or a constant expression made from it, has a use of some kind. -/
def Used (kind : Val → Val → Prop) (v : Val) : Prop :=
  ∃ w, Relation.ReflTransGen (ExprUse P) v w ∧ ∃ u ∈ P.users w, kind w u

/-- An operand of a call that is not its callee. -/
def PassedTo (I : Inst) (w : Val) : Prop := ∃ k, k ≠ I.ops.length - I.nonArgs ∧ I.ops[k]? = some w

/-- The address of `v` is taken. -/
def Escapes (v : Val) : Prop := Used P (Use P PassedTo) v

/-- An operand that `escapes` looks at: not the first, or not one of the first three. -/
def LookedAt (I : Inst) (w : Val) : Prop := w ∈ I.ops.drop I.nonArgs

/-- An operand that is neither the callee nor one of the first. -/
def PassedLate (I : Inst) (w : Val) : Prop :=
  ∃ k, I.nonArgs ≤ k ∧ k ≠ I.ops.length - I.nonArgs ∧ I.ops[k]? = some w

/-- The callee, where it is not one of the first operands. -/
def CalledLate (I : Inst) (w : Val) : Prop :=
  I.nonArgs ≤ I.ops.length - I.nonArgs ∧ I.ops[I.ops.length - I.nonArgs]? = some w

/-- One of the first operands, where that is not the callee. -/
def PassedEarly (I : Inst) (w : Val) : Prop :=
  ∃ k, k < I.nonArgs ∧ k ≠ I.ops.length - I.nonArgs ∧ I.ops[k]? = some w

/-- The address of `v` is taken where `escapes` looks. -/
def EscapesLate (v : Val) : Prop := Used P (Use P PassedLate) v

/-- `v` is called with so many arguments that the callee is not among the first operands. -/
def CalledBehind (v : Val) : Prop :=
  Used P (fun w u => ∃ i, u = .inst i ∧ (P.insts i).isCall ∧ CalledLate (P.insts i) w) v

/-- `v` is passed as one of the first operands of a call. -/
def PassedFirst (v : Val) : Prop :=
  Used P (fun w u => ∃ i, u = .inst i ∧ (P.insts i).isCall ∧ PassedEarly (P.insts i) w) v

end

variable {P : Ir}

/-! ## What `escapes` finds -/

theorem used_head {kind : Val → Val → Prop} {v : Val} :
    Used P kind v ↔ ∃ u ∈ P.users v, kind v u ∨ u.isExpr = true ∧ Used P kind u := by
  constructor
  · rintro ⟨w, hw, u, hu, hkind⟩
    rcases Relation.ReflTransGen.cases_head hw with rfl | ⟨u', ⟨hu', hexpr⟩, hw⟩
    · exact ⟨u, hu, .inl hkind⟩
    · exact ⟨u', hu', .inr ⟨hexpr, w, hw, u, hu, hkind⟩⟩
  · rintro ⟨u, hu, hkind | ⟨hexpr, w, hw, hrest⟩⟩
    · exact ⟨v, .refl, u, hu, hkind⟩
    · exact ⟨w, .head ⟨hu, hexpr⟩ hw, hrest⟩

/-- A loop that ends with the first element found. -/
theorem foldlM_any {α : Type} {step : α → Run Bool} {Q : α → Prop} {l : List α}
    (h : ∀ u ∈ l, ∃ b, step u = .ok b ∧ (b = true ↔ Q u)) (t : Bool) :
    ∃ b, l.foldlM (fun taken u => if taken then .ok true else step u) t = .ok b ∧
      (b = true ↔ t = true ∨ ∃ u ∈ l, Q u) := by
  induction l generalizing t with
  | nil => exact ⟨t, rfl, by simp⟩
  | cons u l ih =>
      obtain ⟨b, hb, hQ⟩ := h u (List.mem_cons_self ..)
      have hstep : (if t then .ok true else step u) = .ok (t || b) := by
        cases t <;> simp [hb]
      obtain ⟨b', hb', hQ'⟩ := ih (fun u' hu' => h u' (List.mem_cons_of_mem _ hu')) (t || b)
      refine ⟨b', ?_, ?_⟩
      · rw [List.foldlM_cons, hstep]
        exact hb'
      · rw [hQ', Bool.or_eq_true, hQ, List.exists_mem_cons_iff]
        exact or_assoc

/-- A bound for each member is one for the list. -/
theorem exists_bound {α : Type} {R : α → Nat → Prop} {l : List α}
    (h : ∀ u ∈ l, ∃ N, ∀ fuel, N ≤ fuel → R u fuel) :
    ∃ N, ∀ fuel, N ≤ fuel → ∀ u ∈ l, R u fuel := by
  induction l with
  | nil => exact ⟨0, fun _ _ u hu => nomatch hu⟩
  | cons u l ih =>
      obtain ⟨N1, h1⟩ := h u (List.mem_cons_self ..)
      obtain ⟨N2, h2⟩ := ih fun u' hu' => h u' (List.mem_cons_of_mem _ hu')
      refine ⟨max N1 N2, fun fuel hle u' hu' => ?_⟩
      rcases List.mem_cons.mp hu' with rfl | hu'
      · exact h1 fuel (by omega)
      · exact h2 fuel (by omega) u' hu'

/-- The search ends where chains of constant expressions do, and finds the uses it looks
at; by induction along the chains. -/
theorem escapes_used {v : Val} (hfin : Acc (fun u w => ExprUse P w u) v) :
    ∃ N, ∀ fuel, N ≤ fuel →
      ∃ b, P.escapes fuel v = .ok b ∧ (b = true ↔ Used P (Use P LookedAt) v) := by
  induction hfin with
  | intro v _ ih =>
      have hbound : ∃ N, ∀ fuel, N ≤ fuel → ∀ u ∈ P.users v, u.isExpr = true →
          ∃ b, P.escapes fuel u = .ok b ∧ (b = true ↔ Used P (Use P LookedAt) u) := by
        refine exists_bound fun u hu => ?_
        by_cases hexpr : u.isExpr = true
        · obtain ⟨N, hN⟩ := ih u ⟨hu, hexpr⟩
          exact ⟨N, fun fuel hle _ => hN fuel hle⟩
        · exact ⟨0, fun _ _ h => absurd h hexpr⟩
      obtain ⟨N, hN⟩ := hbound
      refine ⟨N + 1, fun fuel hle => ?_⟩
      obtain ⟨k, rfl⟩ : ∃ k, fuel = k + 1 := ⟨fuel - 1, by omega⟩
      rw [Ir.escapes]
      refine (foldlM_any (Q := fun u => Use P LookedAt v u ∨ u.isExpr = true ∧
        Used P (Use P LookedAt) u) (fun u hu => ?_) false).imp fun b hb => ⟨hb.1, ?_⟩
      · split
        · -- an instruction
          rename_i i
          simp only [Use, Val.isExpr, Bool.false_eq_true, false_and, or_false]
          split
          · rename_i hop
            simp [Inst.isCall, hop, LookedAt, Inst.nonArgs]
          · rename_i hop
            simp [Inst.isCall, hop, LookedAt, Inst.nonArgs]
          · rename_i hcall hinv
            have hno : (P.insts i).isCall = false := by
              simpa [Inst.isCall] using ⟨hcall, hinv⟩
            simp [hno]
        · -- a constant expression
          obtain ⟨b, hb, hQ⟩ := hN k (by omega) _ hu rfl
          exact ⟨b, hb, by simp [hQ, Use, Val.isExpr]⟩
        · rename_i hinst hexpr
          refine ⟨true, rfl, iff_of_true rfl (.inl ?_)⟩
          cases u <;> simp_all [Use]
      · rw [hb.2, used_head]
        simp

/-! ## Where the positions agree -/

theorem used_or {kind kind' kind'' : Val → Val → Prop} {v : Val}
    (h : ∀ w u, kind w u ↔ kind' w u ∨ kind'' w u) :
    Used P kind v ↔ Used P kind' v ∨ Used P kind'' v := by
  constructor
  · rintro ⟨w, hw, u, hu, hk⟩
    rcases (h w u).mp hk with hk | hk
    · exact .inl ⟨w, hw, u, hu, hk⟩
    · exact .inr ⟨w, hw, u, hu, hk⟩
  · rintro (⟨w, hw, u, hu, hk⟩ | ⟨w, hw, u, hu, hk⟩)
    · exact ⟨w, hw, u, hu, (h w u).mpr (.inl hk)⟩
    · exact ⟨w, hw, u, hu, (h w u).mpr (.inr hk)⟩

/-- A use of a call that is one of two kinds. -/
theorem use_or {atCall atCall' atCall'' : Inst → Val → Prop}
    (h : ∀ I w, atCall I w ↔ atCall' I w ∨ atCall'' I w) (w u : Val) :
    Use P atCall w u ↔ Use P atCall' w u ∨
      ∃ i, u = .inst i ∧ (P.insts i).isCall ∧ atCall'' (P.insts i) w := by
  cases u with
  | inst i =>
      simp only [Use, Val.inst.injEq, exists_eq_left']
      by_cases hc : (P.insts i).isCall = true
      · simp [hc, h]
      · simp [hc]
  | _ => simp [Use]

/-- What `escapes` looks at is passed behind, or called. -/
theorem lookedAt_iff (v : Val) :
    Used P (Use P LookedAt) v ↔ EscapesLate P v ∨ CalledBehind P v := by
  refine used_or fun w u => use_or (fun I w => ?_) w u
  unfold LookedAt
  rw [List.mem_iff_getElem?]
  constructor
  · rintro ⟨j, hj⟩
    rw [List.getElem?_drop] at hj
    by_cases hk : I.nonArgs + j = I.ops.length - I.nonArgs
    · exact .inr ⟨by omega, hk ▸ hj⟩
    · exact .inl ⟨I.nonArgs + j, by omega, hk, hj⟩
  · rintro (⟨k, hle, -, hk⟩ | ⟨hle, hk⟩)
    · exact ⟨k - I.nonArgs, by rwa [List.getElem?_drop, Nat.add_sub_cancel' hle]⟩
    · exact ⟨I.ops.length - I.nonArgs - I.nonArgs,
        by rwa [List.getElem?_drop, Nat.add_sub_cancel' hle]⟩

/-- What is passed to a call is passed behind, or first. -/
theorem escapes_iff (v : Val) : Escapes P v ↔ EscapesLate P v ∨ PassedFirst P v := by
  refine used_or fun w u => use_or (fun I w => ?_) w u
  constructor
  · rintro ⟨k, hne, hk⟩
    by_cases hle : I.nonArgs ≤ k
    · exact .inl ⟨k, hle, hne, hk⟩
    · exact .inr ⟨k, by omega, hne, hk⟩
  · rintro (⟨k, -, hne, hk⟩ | ⟨k, -, hne, hk⟩)
    · exact ⟨k, hne, hk⟩
    · exact ⟨k, hne, hk⟩

namespace Gen

open Act

/-! ## What the classification is used for -/

/-- Handle call `i` as one of function `F`, or as an indirect one. -/
def handleCall (P : Ir) (fuel i : Nat) (F : Option Nat) : GenM Unit := do
  let vnI ← findValNode (.inst i)
  if vnI ≠ 0 then idCallObj P fuel vnI F
  match F with
  | some f => if P.isExt f then idExtCall P fuel i f else idDirCall P fuel i f
  | none => idIndCall P fuel i

/-- The function is looked up in the first operand. -/
theorem idCallInsn_eq (P : Ir) (fuel i : Nat) :
    idCallInsn P fuel i = handleCall P fuel i (calleeOf (P.insts i)) := rfl

theorem calleeOf_eq (I : Inst) : calleeOf I = target (I.operand 0) := rfl

/-- Values that had nodes keep having them. -/
def Entered (g g' : Gen) : Prop :=
  (∀ v, (g.valNode v).isSome → (g'.valNode v).isSome) ∧
    ∀ v, (g.objNode v).isSome → (g'.objNode v).isSome

instance : IsPreorder Gen Entered where
  refl _ := ⟨fun _ => id, fun _ => id⟩
  trans _ _ _ h h' := ⟨fun v hv => h'.1 v (h.1 v hv), fun v hv => h'.2 v (h.2 v hv)⟩

theorem Entered.same {g g' : Gen} (hv : g'.valNode = g.valNode) (ho : g'.objNode = g.objNode) :
    Entered g g' := by
  unfold Entered
  rw [hv, ho]
  exact ⟨fun _ => id, fun _ => id⟩

theorem update_isSome {α β : Type} [DecidableEq α] {m : α → Option β} {a b : α} {x : β}
    (h : (m b).isSome) : (Function.update m a (some x) b).isSome := by
  by_cases hb : b = a
  · rw [hb, Function.update_self]
    rfl
  · rwa [Function.update_of_ne hb]

section

variable {P : Ir} {fuel : Nat}

/-- A relation that all parts of a function's declaration keep. -/
structure Declares (R : Gen → Gen → Prop) : Prop where
  push : ∀ N : GenNode, (∀ v, N.val = some v → v.isExpr = false) → Runs R (pushNode N)
  pushes : ∀ v sizes weak, v.isExpr = false → Runs R (pushNodes v sizes weak)
  bump : ∀ k, Runs R (bump k)
  val : ∀ v n, v.isExpr = false → Runs R (setValNode v n)
  obj : ∀ v n, (∀ i, v ≠ .global i) → Runs R (setObjNode v n)
  cons : ∀ t dest src off, Runs R (cons t dest src off)
  ret : ∀ (g : Gen) m, R g { g with retNode := m }
  vararg : ∀ (g : Gen) m, R g { g with varargNode := m }
  args : ∀ (g : Gen) A, R g { g with atArgs := A }
  size : ∀ (g : Gen) n sz, R g { g with nodes := g.nodes.modify n fun N => { N with objSz := sz } }

namespace Declares

variable {R : Gen → Gen → Prop} [IsPreorder Gen R]

theorem take (h : Declares R) : Runs R takeNode :=
  .bind .get fun _ => .bind (h.bump 1) fun _ => .pure _

theorem value (h : Declares R) {v : Val} (hv : v.isExpr = false) : Runs R (newValNode v) :=
  .bind h.take fun _ => .bind (h.push _ fun w hw => by
    obtain rfl := Option.some.inj hw
    exact hv) fun _ => .pure _

theorem mainArgs (h : Declares R) (f : Nat) : Runs R (idMainArgs P f) := by
  refine .forM fun i _ => .ite ?_ (.pure _)
  refine .bind (h.value rfl) fun _ => .bind (h.val _ _ rfl) fun _ => .bind .get fun _ => ?_
  refine .bind (h.pushes _ _ _ rfl) fun _ => .bind (h.bump _) fun _ => ?_
  refine .bind (h.obj _ _ fun _ => nofun) fun _ => ?_
  exact .bind (h.cons _ _ _ _) fun _ => h.cons _ _ _ _

theorem plainFunc (h : Declares R) (f : Nat) : Runs R (idPlainFunc P f) := by
  have hva : Runs R (if (P.func f).isVarArg then do
      let va ← newValNode (.func f)
      modify fun g => { g with varargNode := Function.update g.varargNode f (some va) }
      else pure ()) :=
    .ite (.bind (h.value rfl) fun _ => .modify fun g => h.vararg g _) (.pure _)
  refine .bind (.forM fun i _ => .ite ?_ (.pure _)) fun _ => .ite ?_ hva
  · exact .bind (h.value rfl) fun _ => h.val _ _ rfl
  · exact .bind (h.value rfl) fun _ => .bind (.modify fun g => h.ret g _) fun _ => hva

theorem takenFunc (h : Declares R) (f onF : Nat) : Runs R (idTakenFunc P f onF) := by
  have hsize : Runs R (modify fun g : Gen => { g with
      nodes := g.nodes.modify onF fun N => { N with objSz := g.nextNode - onF } }) :=
    .modify fun g => h.size g _ _
  have hva : Runs R (if (P.func f).isVarArg then do
      pushNodes (.func f) [1] false
      PtrAnalysis.Gen.bump 1
      modify fun g : Gen => { g with
        nodes := g.nodes.modify onF fun N => { N with objSz := g.nextNode - onF } }
      else modify fun g : Gen => { g with
        nodes := g.nodes.modify onF fun N => { N with objSz := g.nextNode - onF } }) :=
    .ite (.bind (h.pushes _ _ _ rfl) fun _ => .bind (h.bump _) fun _ => hsize) hsize
  refine .bind (.forM fun i _ => .bind (h.val _ _ rfl) fun _ => .modify fun g => h.args g _) fun _ => ?_
  refine .bind .get fun _ => .bind (.lift _) fun _ => .bind (h.pushes _ _ _ rfl) fun _ => ?_
  refine .bind (h.bump _) fun _ => .bind .get fun _ => .bind (.lift _) fun _ => .ite ?_ hva
  refine .bind (.lift _) fun _ => .bind (.forM fun i _ => h.push _ fun v hv => ?_) fun _ => ?_
  · obtain rfl := Option.some.inj hv
    rfl
  · exact .bind (h.bump _) fun _ => hva

theorem func (h : Declares R) (f : Nat) : Runs R (idFunc P fuel f) := by
  have hrest : ∀ AT onF, Runs R (if P.isExt f then pure ()
      else if (P.func f).name = "main" then idMainArgs P f
      else if AT = true then idTakenFunc P f onF else idPlainFunc P f) := fun AT onF =>
    .ite (.pure _) (.ite (h.mainArgs f) (.ite (h.takenFunc f onF) (h.plainFunc f)))
  refine .bind (.lift _) fun AT => .ite ?_ (.bind (.pure _) (hrest AT))
  have hnew : ∀ sz : Nat, Runs R (pushNode { val := some (.func f), objSz := sz }) := fun sz =>
    h.push _ fun v hv => by
      obtain rfl := Option.some.inj hv
      rfl
  refine .bind h.take fun _ => .bind h.take fun _ => .bind (hnew 0) fun _ => .bind (hnew 1) fun _ => ?_
  refine .bind (h.val _ _ rfl) fun _ => .bind (h.obj _ _ fun _ => nofun) fun _ => ?_
  exact .bind (h.cons _ _ _ _) fun _ => .bind (.pure _) (hrest AT)

end Declares

theorem entered_declares : Declares Entered where
  push _ _ := .modify fun _ => .same rfl rfl
  pushes _ _ _ _ := .modify fun _ => .same rfl rfl
  bump _ := .modify fun _ => .same rfl rfl
  val _ _ _ := .modify fun _ => ⟨fun _ => update_isSome, fun _ => id⟩
  obj _ _ _ := .modify fun _ => ⟨fun _ => id, fun _ => update_isSome⟩
  cons _ _ _ _ := .bind .get fun _ => .bind (.lift _) fun _ => .modify fun _ => .same rfl rfl
  ret _ _ := .same rfl rfl
  vararg _ _ := .same rfl rfl
  args _ _ := .same rfl rfl
  size _ _ _ := .same rfl rfl

/-- A function that escapes gets a value node and an object node. -/
theorem idFunc_nodes {f : Nat} (hAT : P.escapes fuel (.func f) = .ok true) (g : Gen) :
    Wp (idFunc P fuel f) (fun _ g' => (g'.valNode (.func f)).isSome ∧
      (g'.objNode (.func f)).isSome) g := by
  have hrest : ∀ onF, Runs Entered (if P.isExt f then pure ()
      else if (P.func f).name = "main" then idMainArgs P f else idTakenFunc P f onF) := fun onF =>
    .ite (.pure _) (.ite (entered_declares.mainArgs f) (entered_declares.takenFunc f onF))
  unfold idFunc
  rw [wp_bind, wp_lift]
  intro AT hAT'
  obtain rfl := Except.ok.inj (hAT.symm.trans hAT')
  simp only [if_true, takeNode, bump, pushNode, setValNode, setObjNode, wp_bind, wp_get, wp_modify,
    wp_pure]
  apply (entered_declares.cons _ _ _ _ _).imp
  intro _ g1 hg1
  apply (hrest (g.nextNode + 1) g1).imp
  intro _ g2 hg2
  exact ⟨hg2.1 _ (hg1.1 _ (by simp)), hg2.2 _ (hg1.2 _ (by simp))⟩

end

/-- Calls and functions are classified as the positions of the operands say, and a function
that is passed to a call gets its nodes. -/
def Classified (P : Ir) : Prop :=
  (∀ f, ∃ N, ∀ fuel, N ≤ fuel →
    ∃ b, P.escapes fuel (.func f) = .ok b ∧ (b = true ↔ Escapes P (.func f))) ∧
  (∀ i, (P.insts i).isCall → ∀ fuel,
    idCallInsn P fuel i = handleCall P fuel i (calleeOf (P.insts i)) ∧
      calleeOf (P.insts i) = target (P.insts i).called) ∧
  ∀ i f, (P.insts i).isCall → .func f ∈ (P.insts i).args → .inst i ∈ P.users (.func f) →
    ∃ N, ∀ fuel, N ≤ fuel → ∀ g g', idFunc P fuel f g = .ok ((), g') →
      (g'.valNode (.func f)).isSome ∧ (g'.objNode (.func f)).isSome

theorem escapes_of_arg {P : Ir} {i f : Nat} (hcall : (P.insts i).isCall)
    (harg : .func f ∈ (P.insts i).args) (huse : .inst i ∈ P.users (.func f)) :
    Escapes P (.func f) := by
  refine ⟨.func f, .refl, .inst i, huse, ?_⟩
  simp only [Use, hcall, if_true]
  obtain ⟨k, hk⟩ := List.mem_iff_getElem?.mp harg
  rw [Inst.args, List.getElem?_take] at hk
  split at hk
  · exact ⟨k, by omega, hk⟩
  · cases hk

theorem or_congr_iff {late behind first : Prop} :
    ((late ∨ behind) ↔ (late ∨ first)) ↔ (late ∨ (behind ↔ first)) := by
  by_cases h : late <;> simp [h]

/-- In a module whose chains of constant expressions end, all is classified right exactly if
two things hold. Every function is used in a way that `escapes` sees rightly, or else it is
called behind arguments if and only if it is passed as one of the first operands. And every
call without arguments aside, the first argument is the function called, if one is. -/
theorem classified_iff (P : Ir) (hfin : ∀ f, Acc (fun u w => ExprUse P w u) (.func f)) :
    Classified P ↔
      (∀ f, EscapesLate P (.func f) ∨ (CalledBehind P (.func f) ↔ PassedFirst P (.func f))) ∧
      ∀ i, (P.insts i).isCall → (P.insts i).args = [] ∨
        target ((P.insts i).args.headD (.misc .other 0)) = target (P.insts i).called := by
  have hescapes : ∀ f, (∃ N, ∀ fuel, N ≤ fuel → ∃ b, P.escapes fuel (.func f) = .ok b ∧
      (b = true ↔ Escapes P (.func f))) ↔
      (EscapesLate P (.func f) ∨ (CalledBehind P (.func f) ↔ PassedFirst P (.func f))) := by
    intro f
    obtain ⟨N, hN⟩ := escapes_used (hfin f)
    have hfound := lookedAt_iff (P := P) (.func f)
    have hreal := escapes_iff (P := P) (.func f)
    constructor
    · rintro ⟨N', hN'⟩
      obtain ⟨b, hb, hQ⟩ := hN (max N N') (by omega)
      obtain ⟨b', hb', hQ'⟩ := hN' (max N N') (by omega)
      obtain rfl := Except.ok.inj (hb.symm.trans hb')
      rw [hQ, hfound, hreal] at hQ'
      exact or_congr_iff.mp hQ'
    · intro h
      refine ⟨N, fun fuel hle => ?_⟩
      obtain ⟨b, hb, hQ⟩ := hN fuel hle
      refine ⟨b, hb, ?_⟩
      rw [hQ, hfound, hreal]
      exact or_congr_iff.mpr h
  have hfirst : ∀ i, calleeOf (P.insts i) = target (P.insts i).called ↔ ((P.insts i).args = [] ∨
      target ((P.insts i).args.headD (.misc .other 0)) = target (P.insts i).called) := by
    intro i
    rw [calleeOf_eq]
    unfold Inst.args Inst.called Inst.operand
    cases hn : (P.insts i).ops.length - (P.insts i).nonArgs with
    | zero => simp
    | succ n =>
        cases hops : (P.insts i).ops with
        | nil => simp [hops] at hn
        | cons a ops => simp
  constructor
  · rintro ⟨hesc, hcallee, -⟩
    exact ⟨fun f => (hescapes f).mp (hesc f), fun i hi => (hfirst i).mp (hcallee i hi 0).2⟩
  · rintro ⟨hesc, hcallee⟩
    have hall := fun f => (hescapes f).mpr (hesc f)
    refine ⟨hall, fun i hi fuel => ⟨idCallInsn_eq P fuel i, (hfirst i).mpr (hcallee i hi)⟩, ?_⟩
    intro i f hi harg huse
    obtain ⟨N, hN⟩ := hall f
    refine ⟨N, fun fuel hle g g' hrun => ?_⟩
    obtain ⟨b, hb, hQ⟩ := hN fuel hle
    obtain rfl := hQ.mpr (escapes_of_arg hi harg huse)
    exact (idFunc_nodes hb g).result hrun

/-- Two functions, and a call with the given operands. -/
def oneCall (ops : List Val) : Ir where
  structs _ := []
  named := []
  funcs := [⟨"f", false, false, false, [], .void, []⟩, ⟨"g", false, false, false, [], .void, []⟩]
  globals := []
  insts _ := ⟨.call, .void, ops⟩
  parent _ := (1, 0)
  users v := if v ∈ ops then [.inst 0] else []
  extInfo _ := none
  setOrder := id
  ulongBits := 64

theorem oneCall_ends (ops : List Val) (v : Val) :
    Acc (fun u w => ExprUse (oneCall ops) w u) v := by
  refine ⟨v, fun u hu => ?_⟩
  obtain ⟨hmem, hexpr⟩ := hu
  unfold oneCall at hmem
  dsimp only at hmem
  split at hmem
  · rw [List.mem_singleton.mp hmem] at hexpr
    cases hexpr
  · cases hmem

/-- In the call `p(x, f)`, through a pointer `p`, the function `f` is passed and no function is
called. -/
theorem classified_iff_indirect : Classified (oneCall [.arg 1 1, .func 0, .arg 1 0]) := by
  refine (classified_iff _ fun f => oneCall_ends _ _).mpr ⟨fun f => ?_, fun _ _ => .inr rfl⟩
  by_cases hf : f = 0
  · subst hf
    exact .inl (used_head.mpr ⟨.inst 0, by decide, .inl ⟨1, by decide, by decide, rfl⟩⟩)
  · -- the other functions are not used
    have hnone : (oneCall [.arg 1 1, .func 0, .arg 1 0]).users (.func f) = [] :=
      if_neg (by simp [hf])
    have hunused : ∀ kind, ¬ Used (oneCall [.arg 1 1, .func 0, .arg 1 0]) kind (.func f) :=
      fun kind h => by
        obtain ⟨u, hu, -⟩ := used_head.mp h
        rw [hnone] at hu
        cases hu
    exact .inr (iff_of_false (hunused _) (hunused _))

/-- In the call `g(f)` the argument is taken for the callee, and its address for one that is
never taken. -/
theorem classified_lost :
    Escapes (oneCall [.func 0, .func 1]) (.func 0) ∧
    (∀ fuel, (oneCall [.func 0, .func 1]).escapes (fuel + 1) (.func 0) = .ok false) ∧
    target ((oneCall [.func 0, .func 1]).insts 0).called = some 1 ∧
    calleeOf ((oneCall [.func 0, .func 1]).insts 0) = some 0 ∧
    ¬ Classified (oneCall [.func 0, .func 1]) := by
  have hesc : Escapes (oneCall [.func 0, .func 1]) (.func 0) :=
    escapes_of_arg (i := 0) (by decide) (by decide) (by decide)
  have hrun : ∀ fuel, (oneCall [.func 0, .func 1]).escapes (fuel + 1) (.func 0) = .ok false :=
    fun _ => rfl
  refine ⟨hesc, hrun, rfl, rfl, fun h => ?_⟩
  obtain ⟨N, hN⟩ := h.1 0
  obtain ⟨b, hb, hQ⟩ := hN (N + 1) (by omega)
  obtain rfl := Except.ok.inj ((hrun N).symm.trans hb)
  exact absurd (hQ.mpr hesc) (by decide)

end Gen

end PtrAnalysis
