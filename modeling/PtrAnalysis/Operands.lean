import PtrAnalysis.Layout

/-!
# The nodes of operands

Once `getValNodeCptr` has found the node of a value, it finds one again without making new
nodes: a pointer made from an integer has a node of its own then. `Finds` is what it finds,
as a relation on `valNode`; it is deterministic and outlives everything that keeps the
entries.
-/

namespace PtrAnalysis

open Run Act

namespace Gen

section

variable {P : Ir} {fuel : Nat}

/-- What `getValNodeCptr` finds for `v` with the given entries; 0 for null. -/
inductive Finds (valNode : Val → Option Nat) : Val → Nat → Prop where
  | entry {v : Val} {n : Nat} : valNode v = some n → Finds valNode v n
  | null {v : Val} : valNode v = none → v.isNullPtr ∨ v.isUndef → Finds valNode v 0
  /-- More indices than one into null are null. -/
  | gep {t : Ty} {ops : Vals} : valNode (.expr .gep t ops) = none → ops.toList.length > 2 →
      Finds valNode (.expr .gep t ops) 0
  | cast {t : Ty} {ops : Vals} {n : Nat} : valNode (.expr .bitCast t ops) = none →
      Finds valNode (Val.expr .bitCast t ops).operand0 n → Finds valNode (.expr .bitCast t ops) n

/-- No value loses its entry. -/
def Later (valNode valNode' : Val → Option Nat) : Prop :=
  ∀ v, (valNode v).isSome → (valNode' v).isSome

theorem Finds.later {vn vn' : Val → Option Nat} {v : Val} {n : Nat} (h : Finds vn v n)
    (hl : Later vn vn') : ∃ m, Finds vn' v m := by
  cases hv : vn' v with
  | some m => exact ⟨m, .entry hv⟩
  | none =>
      induction h with
      | entry hn =>
          have hsome := hl _ (Option.isSome_iff_exists.mpr ⟨_, hn⟩)
          rw [hv] at hsome
          cases hsome
      | null _ hnull => exact ⟨0, .null hv hnull⟩
      | gep _ hlen => exact ⟨0, .gep hv hlen⟩
      | @cast t ops n _ _ ih =>
          cases hop : vn' (Val.expr .bitCast t ops).operand0 with
          | some m => exact ⟨m, .cast hv (.entry hop)⟩
          | none =>
              obtain ⟨m, hm⟩ := ih hop
              exact ⟨m, .cast hv hm⟩

theorem Finds.unique {vn : Val → Option Nat} {v : Val} {n m : Nat} (hn : Finds vn v n)
    (hm : Finds vn v m) : n = m := by
  induction hn with
  | entry hv =>
      cases hm with
      | entry hv' => exact Option.some.inj (hv.symm.trans hv')
      | null hv' _ => simp [hv] at hv'
      | gep hv' _ => simp [hv] at hv'
      | cast hv' _ => simp [hv] at hv'
  | null hv hnull =>
      cases hm with
      | entry hv' => simp [hv] at hv'
      | null _ _ => rfl
      | gep _ _ => rfl
      | cast _ _ => simp [Val.isNullPtr, Val.isUndef] at hnull
  | gep hv _ =>
      cases hm with
      | entry hv' => simp [hv] at hv'
      | null _ _ => rfl
      | gep _ _ => rfl
  | cast hv _ ih =>
      cases hm with
      | entry hv' => simp [hv] at hv'
      | null _ hnull => simp [Val.isNullPtr, Val.isUndef] at hnull
      | cast _ hm => exact ih hm

theorem findValNode_some {g : Gen} {v : Val} {n : Nat} (h : g.valNode v = some n)
    {Q : Nat → Gen → Prop} : Wp (findValNode v) Q g ↔ (n ≠ 0 → Q n g) := by
  rw [findValNode, wp_bind, wp_get, wp_lift, h]
  simp [entry, require_bind_ok]

theorem findValNode_none {g : Gen} {v : Val} (h : g.valNode v = none) {Q : Nat → Gen → Prop} :
    Wp (findValNode v) Q g ↔ Q 0 g := by
  rw [findValNode, wp_bind, wp_get, wp_lift, h]
  simp [entry]

/-- Looking up the node of a value for which there is one changes nothing. -/
theorem Finds.lookup {g : Gen} {v : Val} {n : Nat} (h : Finds g.valNode v n) :
    Wp (getValNodeCptr P fuel v) (fun m g' => m = n ∧ g' = g) g := by
  induction fuel generalizing v n with
  | zero => trivial
  | succ fuel ih =>
      unfold getValNodeCptr
      rw [wp_bind]
      cases h with
      | entry hv =>
          rw [findValNode_some hv]
          intro hn
          rw [wp_ite]
          exact ⟨fun _ => ⟨rfl, rfl⟩, fun h => absurd hn h⟩
      | null hv hnull =>
          rw [findValNode_none hv]
          simp only [wp_bind, wp_ite, wp_lift, wp_pure]
          refine ⟨fun h => absurd rfl h, fun _ _ _ _ _ => ⟨fun _ => ⟨trivial, trivial⟩, ?_⟩⟩
          exact fun hno => absurd hnull hno
      | gep hv hlen =>
          rw [findValNode_none hv]
          simp only [wp_bind, wp_ite, wp_lift, wp_pure]
          refine ⟨fun h => absurd rfl h, fun _ _ _ _ _ => ⟨fun _ => ⟨trivial, trivial⟩, ?_⟩⟩
          exact fun _ _ _ => ⟨fun _ => ⟨trivial, trivial⟩, fun hno => absurd hlen hno⟩
      | cast hv hop =>
          rw [findValNode_none hv]
          simp only [wp_bind, wp_ite, wp_lift, wp_pure]
          refine ⟨fun h => absurd rfl h, fun _ _ _ _ _ => ⟨fun hnull => ?_, fun _ => ih hop⟩⟩
          simp [Val.isNullPtr, Val.isUndef] at hnull

/-! ## After the first lookup -/

/-- A pointer made from an integer. -/
inductive MadeFromInt : Val → Prop where
  | cast (t : Ty) (ops : Vals) : MadeFromInt (.expr .intToPtr t ops)
  | gep (t : Ty) (ops : Vals) : ops.toList.length = 2 → MadeFromInt (.expr .gep t ops)

/-- No value loses or changes its node, only pointers made from integers get new ones, and the
objects are as before. -/
structure Kept (g g' : Gen) : Prop where
  vals : ∀ v n, g.valNode v = some n → g'.valNode v = some n
  fresh : ∀ v, g.valNode v = none → (g'.valNode v).isSome → MadeFromInt v
  objs : g'.objNode = g.objNode

instance : IsPreorder Gen Kept where
  refl _ := ⟨fun _ _ hv => hv, fun _ hv hsome => by simp [hv] at hsome, rfl⟩
  trans g g' g'' h h' := by
    refine ⟨fun v n hv => h'.vals v n (h.vals v n hv), fun v hv hsome => ?_, h'.objs.trans h.objs⟩
    cases hv' : g'.valNode v with
    | none => exact h'.fresh v hv' hsome
    | some n => exact h.fresh v hv (by simp [hv'])

theorem Kept.same {g g' : Gen} (h : g'.valNode = g.valNode) (ho : g'.objNode = g.objNode) :
    Kept g g' :=
  ⟨fun _ _ hv => h ▸ hv, fun _ hv hsome => by simp [h, hv] at hsome, ho⟩

theorem Kept.none {g g' : Gen} (h : Kept g g') {v : Val} (hv : g.valNode v = none)
    (hnot : ¬ MadeFromInt v) : g'.valNode v = none := by
  by_contra hsome
  exact hnot (h.fresh v hv (Option.isSome_iff_ne_none.mpr hsome))

/-- What was found once is found again. -/
theorem Finds.kept {g g' : Gen} {v : Val} {n : Nat} (h : Finds g.valNode v n) (hk : Kept g g') :
    Finds g'.valNode v n := by
  induction h with
  | entry hv => exact .entry (hk.vals _ _ hv)
  | null hv hnull =>
      refine .null (hk.none hv ?_) hnull
      rintro (⟨t, ops⟩ | ⟨t, ops, -⟩) <;> simp [Val.isNullPtr, Val.isUndef] at hnull
  | gep hv hlen =>
      refine .gep (hk.none hv ?_) hlen
      rintro ⟨⟩
      omega
  | cast hv _ ih => exact .cast (hk.none hv (by rintro ⟨⟩)) ih

theorem Kept.later {g g' : Gen} (h : Kept g g') : Later g.valNode g'.valNode := by
  intro v hv
  obtain ⟨n, hn⟩ := Option.isSome_iff_exists.mp hv
  exact Option.isSome_iff_exists.mpr ⟨n, h.vals v n hn⟩

theorem cons_kept {t : ConsType} {dest src off : Nat} : Runs Kept (cons t dest src off) := fun _ =>
  wp_cons.mpr fun _ _ _ => .same rfl rfl

theorem i2pOperand_kept (v : Val) : Runs Kept (i2pOperand P v) := by
  -- the new node is entered before the rest of the expression is looked at
  have hnew : ∀ (E : Val) (x : Nat → GenM (Nat × Val)),
      (∀ n g, Wp (x n) (fun _ g' => g' = g ∧ MadeFromInt E) g) →
      Runs Kept (do
        require (((← get).valNode E).isNone) "!val_node.count(E)"
        let vnD ← takeNode
        pushNode { val := some E }
        setValNode E vnD
        x vnD) := by
    intro E x hx g
    simp only [takeNode, bump, pushNode, setValNode, wp_bind, wp_get, wp_modify, wp_pure, wp_lift,
      require_ok]
    intro _ hE
    apply (hx _ _).imp
    rintro _ _ ⟨rfl, hmade⟩
    refine ⟨fun w n hw => ?_, fun w hw hsome => ?_, rfl⟩
    · have hne : w ≠ E := by
        rintro rfl
        simp [hw] at hE
      exact (Function.update_of_ne hne _ _).trans hw
    · by_cases hne : w = E
      · exact hne ▸ hmade
      · dsimp only at hsome
        rw [Function.update_of_ne hne, hw] at hsome
        cases hsome
  unfold i2pOperand
  split
  · dsimp only
    split
    · exact .bind (.bind .get fun _ => .lift _) fun _ => .pure _
    · exact .bind (.lift _) fun _ => .bind (.bind .get fun _ => .lift _) fun _ => .pure _
    · exact .throw _
  · rename_i op t ops
    refine hnew _ _ fun n g => ?_
    split
    · exact ⟨rfl, .cast t ops⟩
    · simp only [wp_bind, wp_lift, require_ok, wp_pure]
      exact fun _ hlen => ⟨trivial, .gep t ops hlen.2⟩
    · trivial
  · exact .throw _

theorem getValNodeCptr_kept (v : Val) : Runs Kept (getValNodeCptr P fuel v) :=
  (cptr_runs i2pOperand_kept (fun _ _ => cons_kept) (fun _ => cons_kept) fuel).1 v

theorem getValNode_finds (v : Val) (g : Gen) :
    Wp (getValNode v) (fun n g' => g' = g ∧ g.valNode v = some n) g := by
  rw [getValNode, wp_bind, wp_get, wp_lift]
  intro n hn
  cases hv : g.valNode v with
  | none => simp [hv, needEntry] at hn
  | some m =>
      rw [hv, needEntry, entry, require_bind_ok] at hn
      exact ⟨rfl, congrArg some (Except.ok.inj hn.2)⟩

/-- After its lookup the node of a value can be found. -/
theorem getValNodeCptr_finds (v : Val) (g : Gen) :
    Wp (getValNodeCptr P fuel v) (fun n g' => Finds g'.valNode v n) g := by
  induction fuel generalizing v g with
  | zero => trivial
  | succ fuel ih =>
      unfold getValNodeCptr
      rw [wp_bind]
      cases hv : g.valNode v with
      | some n =>
          rw [findValNode_some hv]
          intro hn
          rw [wp_ite]
          exact ⟨fun _ => .entry hv, fun h => absurd hn h⟩
      | none =>
          rw [findValNode_none hv, wp_ite]
          refine ⟨fun h => absurd rfl h, fun _ => ?_⟩
          simp only [wp_bind, wp_lift, wp_ite, wp_pure]
          rintro - - - -
          refine ⟨fun hnull => .null hv hnull, fun hnull => ?_⟩
          have hi2p : Wp (do
              idI2pInsn P fuel v
              getValNode v) (fun n g' => Finds g'.valNode v n) g := by
            rw [wp_bind]
            apply wp_true.imp
            intro _ g' _
            apply (getValNode_finds v g').imp
            rintro n _ ⟨rfl, hn⟩
            exact .entry hn
          split
          · rename_i t ops
            split
            · have hkept : Wp (getValNodeCptr P fuel (Val.expr .bitCast t ops).operand0)
                  (fun _ => Kept g) g := getValNodeCptr_kept _ g
              apply ((ih (Val.expr .bitCast t ops).operand0 g).and hkept).imp
              rintro n g' ⟨hn, hk⟩
              exact .cast (hk.none hv (by rintro ⟨⟩)) hn
            · exact hi2p
            · simp only [wp_bind, wp_lift, wp_ite, wp_pure]
              exact fun _ _ => ⟨fun hlen => .gep hv hlen, fun _ => by rwa [wp_bind] at hi2p⟩
            · trivial
          · trivial

/-! ## Arguments of indirect calls -/

/-- The nodes of all pointer arguments of call `i` have been looked up. -/
def Handled (P : Ir) (valNode : Val → Option Nat) (i : Nat) : Prop :=
  ∀ AA ∈ (P.insts i).args, P.isPtr AA → ∃ n, Finds valNode AA n

theorem Handled.later {vn vn' : Val → Option Nat} {i : Nat} (h : Handled P vn i)
    (hl : Later vn vn') : Handled P vn' i := by
  intro AA hAA hptr
  obtain ⟨n, hn⟩ := h AA hAA hptr
  exact hn.later hl

theorem consCall_kept (i : Nat) {t : ConsType} {dest src off : Nat} :
    Runs Kept (consCall i t dest src off) :=
  .bind cons_kept fun _ => .modify fun _ => .same rfl rfl

theorem storeArgs_kept (i vnC off : Nat) (as : List Val) :
    Runs Kept (storeArgs P fuel i vnC off as) := by
  induction as generalizing off with
  | nil => exact .pure _
  | cons AA as ih =>
      rw [storeArgs]
      refine .ite (.bind (getValNodeCptr_kept AA) fun _ => .ite ?_ (ih _)) ?_
      · exact .bind (consCall_kept i) fun _ => ih _
      · exact .bind (consCall_kept i) fun _ => ih _

theorem storeArgs_finds (i vnC off : Nat) (as : List Val) (g : Gen) :
    Wp (storeArgs P fuel i vnC off as)
      (fun _ g' => ∀ AA ∈ as, P.isPtr AA → ∃ n, Finds g'.valNode AA n) g := by
  induction as generalizing off g with
  | nil =>
      intro AA hAA
      cases hAA
  | cons AA as ih =>
      -- what the rest of the loop keeps, and what it finds itself
      have hrest : ∀ g1, (P.isPtr AA → ∃ n, Finds g1.valNode AA n) →
          Wp (storeArgs P fuel i vnC (off + 1) as)
            (fun _ g' => ∀ BB ∈ AA :: as, P.isPtr BB → ∃ n, Finds g'.valNode BB n) g1 := by
        intro g1 h1
        apply ((ih (off + 1) g1).and (storeArgs_kept i vnC (off + 1) as g1)).imp
        rintro _ g' ⟨hin, hkept⟩ BB hBB hptr
        rcases List.mem_cons.mp hBB with rfl | hBB
        · obtain ⟨n, hn⟩ := h1 hptr
          exact hn.later hkept.later
        · exact hin BB hBB hptr
      rw [storeArgs, wp_ite]
      constructor
      · intro hptr
        rw [wp_bind]
        apply (getValNodeCptr_finds AA g).imp
        intro n g1 hn
        rw [wp_ite]
        constructor
        · intro _
          rw [wp_bind]
          apply (consCall_kept i g1).imp
          intro _ g2 hkept
          exact hrest g2 fun _ => hn.later hkept.later
        · intro _
          exact hrest g1 fun _ => ⟨n, hn⟩
      · intro hptr
        rw [wp_bind]
        apply wp_true.imp
        intro _ g1 _
        exact hrest g1 fun h => absurd h hptr

theorem idIndCall_handled (i : Nat) (hasm : ∀ t, (P.insts i).called ≠ .inlineAsm t) (g : Gen) :
    Wp (idIndCall P fuel i) (fun _ g' => Handled P g'.valNode i ∧ g'.objNode = g.objNode) g := by
  unfold idIndCall
  dsimp only
  split
  · rename_i t ht
    exact absurd ht (hasm t)
  · have hend : ∀ vnC g1, g1.objNode = g.objNode →
        Wp (storeArgs P fuel i vnC funcNodeOffArg0 (P.insts i).args)
          (fun _ g' => Handled P g'.valNode i ∧ g'.objNode = g.objNode) g1 := by
      intro vnC g1 hobj
      apply ((storeArgs_finds i vnC _ _ g1).and (storeArgs_kept i vnC _ _ g1)).imp
      rintro _ g' ⟨hfinds, hkept⟩
      exact ⟨hfinds, hkept.objs.trans hobj⟩
    rw [wp_bind]
    apply (getValNodeCptr_kept _ g).imp
    intro vnC g1 hg1
    simp only [wp_bind, wp_lift, wp_modify, wp_ite]
    intro _ _
    refine ⟨fun _ => ?_, fun _ => hend _ _ hg1.objs⟩
    apply (getValNode_runs (R := Kept) _ _).imp
    intro vnI g2 hg2
    apply (consCall_kept i g2).imp
    intro _ g3 hg3
    exact hend _ _ (hg3.objs.trans (hg2.objs.trans hg1.objs))

end

end Gen

end PtrAnalysis
