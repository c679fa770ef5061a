import PtrAnalysis.FuncLayout
import PtrAnalysis.Operands

/-!
# Direct and indirect calls of functions of the program

A direct call copies arguments and result. An indirect one loads and stores at the offsets of
the function object, to be resolved by the solver. Here are the constraints that both add, and
what flows where by those of a direct call.
-/

namespace PtrAnalysis

open Run Act

namespace Gen

/-- A load or store. -/
def Offset (C : Constraint) : Prop := C.type = .load ∨ C.type = .store

instance (C : Constraint) : Decidable (Offset C) := by
  unfold Offset
  infer_instance

section

variable {P : Ir} {fuel : Nat}

/-! ## Constraints of operands -/

/-- Nodes and constraints are only added, and among the constraints no loads and stores; no
function gets a return node of its own. -/
structure Appends (g g' : Gen) : Prop where
  nodes : g.nodes <+: g'.nodes
  plain : g'.retNode = g.retNode
  cons : ∃ new, g'.constraints = g.constraints ++ new ∧ ∀ C ∈ new, ¬ Offset C

instance : IsPreorder Gen Appends where
  refl _ := ⟨List.prefix_refl _, rfl, [], by simp⟩
  trans g g' g'' := by
    rintro ⟨hn, hr, new, hnew, hplain⟩ ⟨hn', hr', new', hnew', hplain'⟩
    refine ⟨hn.trans hn', hr'.trans hr, new ++ new', by rw [hnew', hnew, List.append_assoc], ?_⟩
    intro C hC
    rcases List.mem_append.mp hC with hC | hC
    · exact hplain C hC
    · exact hplain' C hC

theorem Appends.same {g g' : Gen} (hn : g.nodes <+: g'.nodes) (hr : g'.retNode = g.retNode)
    (hc : g'.constraints = g.constraints) : Appends g g' :=
  ⟨hn, hr, [], by simp [hc]⟩

theorem cons_appends {t : ConsType} {dest src : Nat} (ht : t = .addrOf ∨ t = .copy) :
    Runs Appends (cons t dest src) := by
  intro g
  rw [wp_cons]
  intro cs b hadd
  refine ⟨List.prefix_refl _, rfl, _, addCons_result hadd, fun C hC => ?_⟩
  rcases ht with rfl | rfl
  · rw [if_neg (by simp)] at hC
    rw [List.mem_singleton.mp hC]
    simp [Offset]
  · split at hC
    · cases hC
    · rw [List.mem_singleton.mp hC]
      simp [Offset]

theorem i2pOperand_appends (v : Val) : Runs Appends (i2pOperand P v) := by
  unfold i2pOperand
  split
  · dsimp only
    split
    · exact .bind (getValNode_runs _) fun _ => .pure _
    · exact .bind (.lift _) fun _ => .bind (getValNode_runs _) fun _ => .pure _
    · exact .throw _
  · refine .bind .get fun _ => .bind (.lift _) fun _ => .bind ?_ fun vnD => ?_
    · refine .bind .get fun _ => .bind (.modify fun _ => ?_) fun _ => .pure _
      exact .same (List.prefix_refl _) rfl rfl
    · refine .bind (.modify fun _ => .same (List.prefix_append ..) rfl rfl) fun _ =>
        .bind (.modify fun _ => .same (List.prefix_refl _) rfl rfl) fun _ => ?_
      split
      · exact .pure _
      · exact .bind (.lift _) fun _ => .pure _
      · exact .throw _
  · exact .throw _

theorem getValNodeCptr_appends (v : Val) : Runs Appends (getValNodeCptr P fuel v) :=
  (cptr_runs i2pOperand_appends (fun _ _ => cons_appends (.inr rfl))
    (fun _ => cons_appends (.inl rfl)) fuel).1 v

/-! ## Indirect calls -/

/-- What flows into the parameter that the actual argument `AA` stands for: its node, unless it
is null, and for a number the node that points to the unknown target. -/
inductive Passed (P : Ir) (valNode : Val → Option Nat) (AA : Val) : Nat → Prop where
  | value {n : Nat} : P.isPtr AA = true → Finds valNode AA n → n ≠ 0 → Passed P valNode AA n
  | int : P.isPtr AA = false → Passed P valNode AA pI2p

/-- Once its node was looked up, what flows from an argument stays the same. -/
theorem Passed.kept {g g' : Gen} {AA : Val} {n : Nat} (hk : Kept g g')
    (hfind : P.isPtr AA = true → ∃ m, Finds g.valNode AA m) :
    Passed P g'.valNode AA n ↔ Passed P g.valNode AA n := by
  constructor
  · intro h
    cases h with
    | value hptr hn h0 =>
        obtain ⟨m, hm⟩ := hfind hptr
        obtain rfl := hn.unique (hm.kept hk)
        exact .value hptr hm h0
    | int hptr => exact .int hptr
  · intro h
    cases h with
    | value hptr hn h0 => exact .value hptr (hn.kept hk) h0
    | int hptr => exact .int hptr

theorem Passed.unique {valNode : Val → Option Nat} {AA : Val} {n m : Nat}
    (hn : Passed P valNode AA n) (hm : Passed P valNode AA m) : n = m := by
  cases hn with
  | value hptr hn _ =>
      cases hm with
      | value _ hm _ => exact hn.unique hm
      | int hint => simp [hptr] at hint
  | int hint =>
      cases hm with
      | value hptr _ _ => simp [hptr] at hint
      | int _ => rfl

/-- The stores of the arguments `as` through the function pointer `vnC`. -/
def StoreOf (P : Ir) (valNode : Val → Option Nat) (vnC off : Nat) (as : List Val)
    (C : Constraint) : Prop :=
  ∃ k AA n, as[k]? = some AA ∧ Passed P valNode AA n ∧ C = ⟨.store, vnC, n, off + k⟩

theorem storeOf_cons {valNode : Val → Option Nat} {vnC off : Nat} {AA : Val} {as : List Val}
    {C : Constraint} : StoreOf P valNode vnC off (AA :: as) C ↔
      (∃ n, Passed P valNode AA n ∧ C = ⟨.store, vnC, n, off⟩) ∨
        StoreOf P valNode vnC (off + 1) as C := by
  constructor
  · rintro ⟨k, BB, n, hk, hn, rfl⟩
    cases k with
    | zero =>
        obtain rfl := Option.some.inj hk
        exact .inl ⟨n, hn, rfl⟩
    | succ k => exact .inr ⟨k, BB, n, hk, hn, by rw [Nat.add_right_comm]; rfl⟩
  · rintro (⟨n, hn, rfl⟩ | ⟨k, BB, n, hk, hn, rfl⟩)
    · exact ⟨0, AA, n, rfl, hn, rfl⟩
    · exact ⟨k + 1, BB, n, hk, hn, by rw [Nat.add_right_comm]; rfl⟩

/-- The loads and stores that are added are those with `Q`; none has the unknown target as an
operand. -/
def AddsOffset (Q : Constraint → Prop) (g g' : Gen) : Prop :=
  ∃ new, g'.constraints = g.constraints ++ new ∧ (∀ C, C ∈ new ∧ Offset C ↔ Q C) ∧
    ∀ C ∈ new, Offset C → C.src ≠ i2p ∧ C.dest ≠ i2p

theorem Appends.offset {g g' : Gen} (h : Appends g g') : AddsOffset (fun _ => False) g g' := by
  obtain ⟨-, -, new, hnew, hplain⟩ := h
  exact ⟨new, hnew, fun C => ⟨fun hC => hplain C hC.1 hC.2, False.elim⟩,
    fun C hC hoff => absurd hoff (hplain C hC)⟩

theorem AddsOffset.trans {Q Q' Q'' : Constraint → Prop} {g g' g'' : Gen} (h : AddsOffset Q g g')
    (h' : AddsOffset Q' g' g'') (hQ : ∀ C, Q'' C ↔ Q C ∨ Q' C) : AddsOffset Q'' g g'' := by
  obtain ⟨new, hnew, hin, hproper⟩ := h
  obtain ⟨new', hnew', hin', hproper'⟩ := h'
  refine ⟨new ++ new', by rw [hnew', hnew, List.append_assoc], fun C => ?_, fun C hC => ?_⟩
  · rw [hQ, ← hin, ← hin', List.mem_append, or_and_right]
  · exact (List.mem_append.mp hC).elim (hproper C) (hproper' C)

theorem consCall_adds (i : Nat) {t : ConsType} {dest src off : Nat} (ht : t = .load ∨ t = .store)
    (g : Gen) : Wp (consCall i t dest src off)
      (fun _ g' => AddsOffset (· = ⟨t, dest, src, off⟩) g g') g := by
  rw [consCall, wp_bind, wp_cons]
  intro cs b hadd
  rw [tagCall, wp_modify]
  refine ⟨[⟨t, dest, src, off⟩], ?_, fun C => ?_, fun C hC _ => ?_⟩
  · rw [addCons_result hadd]
    rcases ht with rfl | rfl <;> simp
  · rw [List.mem_singleton, and_iff_left_iff_imp]
    rintro rfl
    exact ht
  · rw [List.mem_singleton.mp hC]
    exact addCons_offset_i2p ht hadd

theorem storeArgs_adds (i vnC off : Nat) (as : List Val) (g : Gen) :
    Wp (storeArgs P fuel i vnC off as)
      (fun _ g' => AddsOffset (StoreOf P g'.valNode vnC off as) g g') g := by
  induction as generalizing off g with
  | nil => exact ⟨[], by simp, fun C => by simp [StoreOf], by simp⟩
  | cons AA as ih =>
      -- the store of the first argument was added on the way to `g1`
      have hrest : ∀ (g1 : Gen) (Q : Constraint → Prop), AddsOffset Q g g1 →
          (∀ C, Q C ↔ ∃ n, Passed P g1.valNode AA n ∧ C = ⟨.store, vnC, n, off⟩) →
          (P.isPtr AA = true → ∃ m, Finds g1.valNode AA m) →
          Wp (storeArgs P fuel i vnC (off + 1) as)
            (fun _ g' => AddsOffset (StoreOf P g'.valNode vnC off (AA :: as)) g g') g1 := by
        intro g1 Q hQ hfirst hfind
        apply ((ih (off + 1) g1).and (storeArgs_kept i vnC (off + 1) as g1)).imp
        rintro _ g' ⟨hadds, hkept⟩
        apply hQ.trans hadds
        intro C
        rw [storeOf_cons, hfirst]
        simp only [Passed.kept hkept hfind]
      rw [storeArgs, wp_ite]
      constructor
      · intro hptr
        rw [wp_bind]
        apply ((getValNodeCptr_finds AA g).and (getValNodeCptr_appends AA g)).imp
        rintro n g1 ⟨hn, hplain⟩
        have hpassed : ∀ m, Passed P g1.valNode AA m ↔ m = n ∧ n ≠ 0 := by
          intro m
          constructor
          · intro hm
            cases hm with
            | value _ hm h0 => exact ⟨hm.unique hn, hm.unique hn ▸ h0⟩
            | int hint => simp [hptr] at hint
          · rintro ⟨rfl, h0⟩
            exact .value hptr hn h0
        rw [wp_ite]
        constructor
        · intro h0
          rw [wp_bind]
          apply ((consCall_adds i (.inr rfl) g1).and (consCall_kept i g1)).imp
          rintro _ g2 ⟨hstore, hkept⟩
          have hfind : P.isPtr AA = true → ∃ m, Finds g1.valNode AA m := fun _ => ⟨n, hn⟩
          refine hrest g2 (· = ⟨.store, vnC, n, off⟩) (hplain.offset.trans hstore (by simp))
            (fun C => ?_) fun _ => ⟨n, hn.kept hkept⟩
          simp [Passed.kept hkept hfind, hpassed, h0]
        · intro h0
          refine hrest g1 _ hplain.offset (fun C => ?_) fun _ => ⟨n, hn⟩
          simp [hpassed, Decidable.not_not.mp h0]
      · intro hptr
        rw [wp_bind]
        apply (consCall_adds i (.inr rfl) g).imp
        intro _ g1 hstore
        have hpassed : ∀ m, Passed P g1.valNode AA m ↔ m = pI2p := by
          intro m
          constructor
          · intro hm
            cases hm with
            | value hm _ _ => exact absurd hm hptr
            | int _ => rfl
          · rintro rfl
            exact .int (by simpa using hptr)
        exact hrest g1 _ hstore (fun C => by simp [hpassed]) fun h => absurd h hptr

/-- The constraints of the indirect call `i` through node `vnC`. -/
def CallOf (P : Ir) (valNode : Val → Option Nat) (i vnC : Nat) (C : Constraint) : Prop :=
  ((P.insts i).ty.isPtr = true ∧ ∃ vnI, valNode (.inst i) = some vnI ∧
    C = ⟨.load, vnI, vnC, funcNodeOffRet⟩) ∨
  StoreOf P valNode vnC funcNodeOffArg0 (P.insts i).args C

theorem idIndCall_adds (i : Nat) (hasm : ∀ t, (P.insts i).called ≠ .inlineAsm t) (g : Gen) :
    Wp (idIndCall P fuel i) (fun _ g' =>
      ((P.insts i).ty.isPtr = true → (g'.valNode (.inst i)).isSome) ∧
        ∃ vnC, AddsOffset (CallOf P g'.valNode i vnC) g g') g := by
  unfold idIndCall
  dsimp only
  split
  · rename_i t ht
    exact absurd ht (hasm t)
  · rw [wp_bind]
    apply (getValNodeCptr_appends _ g).imp
    intro vnC g1 hplain
    simp only [wp_bind, wp_lift, wp_modify, wp_ite]
    intro _ _
    constructor
    · intro hptr
      apply (getValNode_finds _ _).imp
      rintro vnI _ ⟨rfl, hvnI⟩
      apply ((consCall_adds i (.inl rfl) _).and (consCall_kept i _)).imp
      rintro _ g3 ⟨hload, hkept⟩
      apply ((storeArgs_adds i vnC _ _ g3).and (storeArgs_kept i vnC _ _ g3)).imp
      rintro _ g' ⟨hstores, hkept'⟩
      have hvnI' := hkept'.vals _ _ (hkept.vals _ _ hvnI)
      have hfirst : AddsOffset (· = ⟨.load, vnI, vnC, funcNodeOffRet⟩) g g3 :=
        hplain.offset.trans hload (by simp)
      refine ⟨fun _ => by simp [hvnI'], vnC, hfirst.trans hstores fun C => ?_⟩
      simp [CallOf, hptr, hvnI']
    · intro hptr
      apply (storeArgs_adds i vnC _ _ _).imp
      intro _ g' hstores
      refine ⟨fun h => absurd h hptr, vnC, hplain.offset.trans hstores fun C => ?_⟩
      simp [CallOf, hptr]

/-! ## Direct calls -/

/-- What flows where by a constraint of a direct call: the unknown target comes from the node
that points to it. -/
def flow (C : Constraint) : Nat × Nat :=
  match C.type with
  | .addrOf => (pI2p, C.dest)
  | _ => (C.src, C.dest)

/-- The flows of the constraints `new` are those with `F`; between a node and itself there is
none. -/
structure HasFlows (F : Nat → Nat → Prop) (new : List Constraint) : Prop where
  sound : ∀ C ∈ new, F (flow C).1 (flow C).2
  proper : ∀ C ∈ new, (flow C).1 ≠ i2p ∧ (flow C).2 ≠ i2p
  complete : ∀ a b, F a b → a ≠ b → ∃ C ∈ new, flow C = (a, b)

/-- Only constraints with the flows `F` are added. -/
def AddsFlows (F : Nat → Nat → Prop) (g g' : Gen) : Prop :=
  ∃ new, g' = { g with constraints := g.constraints ++ new } ∧ HasFlows F new

theorem AddsFlows.nothing {F : Nat → Nat → Prop} {g : Gen} (h : ∀ a b, ¬ F a b) :
    AddsFlows F g g :=
  ⟨[], by simp, by simp, by simp, fun a b hF => absurd hF (h a b)⟩

theorem AddsFlows.trans {F F' F'' : Nat → Nat → Prop} {g g' g'' : Gen} (h : AddsFlows F g g')
    (h' : AddsFlows F' g' g'') (hF : ∀ a b, F'' a b ↔ F a b ∨ F' a b) : AddsFlows F'' g g'' := by
  obtain ⟨new, rfl, hs, hp, hc⟩ := h
  obtain ⟨new', rfl, hs', hp', hc'⟩ := h'
  refine ⟨new ++ new', by simp, fun C hC => ?_, fun C hC => ?_, fun a b hab hne => ?_⟩
  · rw [hF]
    exact (List.mem_append.mp hC).imp (hs C) (hs' C)
  · exact (List.mem_append.mp hC).elim (hp C) (hp' C)
  · rcases (hF a b).mp hab with hab | hab
    · obtain ⟨C, hC, hflow⟩ := hc a b hab hne
      exact ⟨C, List.mem_append_left _ hC, hflow⟩
    · obtain ⟨C, hC, hflow⟩ := hc' a b hab hne
      exact ⟨C, List.mem_append_right _ hC, hflow⟩

theorem copy_adds (dest src : Nat) (g : Gen) :
    Wp (cons .copy dest src) (fun _ g' => AddsFlows (fun a b => a = src ∧ b = dest) g g') g := by
  rw [wp_cons]
  intro cs b hadd
  refine ⟨_, by rw [addCons_result hadd], ?_⟩
  by_cases hself : src = dest
  · rw [if_pos ⟨rfl, hself⟩]
    exact ⟨by simp, by simp, fun a b hab hne => absurd (hab.1.trans (hself.trans hab.2.symm)) hne⟩
  · rw [if_neg (by simpa using hself), if_neg (by simp)]
    have hi2p := addCons_copy_i2p hadd hself
    exact ⟨by simp [flow], by simpa [flow] using hi2p, fun a b hab _ => by simp [flow, hab]⟩

theorem unknown_adds (dest : Nat) (g : Gen) :
    Wp (cons .addrOf dest i2p) (fun _ g' => AddsFlows (fun a b => a = pI2p ∧ b = dest) g g') g := by
  rw [wp_cons]
  intro cs b hadd
  refine ⟨_, by rw [addCons_result hadd], ?_⟩
  have hdest := addCons_addrOf_dest hadd
  rw [if_neg (by simp), if_neg (by simp)]
  exact ⟨by simp [flow], by simpa [flow, i2p, pI2p] using hdest, fun a b hab _ => by simp [flow, hab]⟩

theorem passArg_adds {g : Gen} {AA : Val} (vnF : Nat)
    (hfind : P.isPtr AA = true → ∃ n, Finds g.valNode AA n) :
    Wp (passArg P fuel vnF AA)
      (fun _ g' => AddsFlows (fun a b => Passed P g.valNode AA a ∧ b = vnF) g g') g := by
  have himp : ∀ {n : Nat}, (∀ m, Passed P g.valNode AA m ↔ m = n) → ∀ (x : GenM Unit),
      Wp x (fun _ g' => AddsFlows (fun a b => a = n ∧ b = vnF) g g') g →
      Wp x (fun _ g' => AddsFlows (fun a b => Passed P g.valNode AA a ∧ b = vnF) g g') g := by
    intro n hn x hx
    simpa only [hn] using hx
  unfold passArg
  rw [wp_ite]
  constructor
  · intro hptr
    obtain ⟨n, hn⟩ := hfind hptr
    rw [wp_bind]
    apply (hn.lookup).imp
    rintro _ _ ⟨rfl, rfl⟩
    unfold consUnless0
    rw [wp_ite]
    constructor
    · rintro rfl
      refine AddsFlows.nothing fun a b hab => ?_
      cases hab.1 with
      | value _ hm h0 => exact h0 (hm.unique hn)
      | int hint => simp [hptr] at hint
    · intro h0
      refine himp (fun m => ⟨fun hm => ?_, fun hm => ?_⟩) _ (copy_adds vnF _ _)
      · exact hm.unique (.value hptr hn h0)
      · exact hm ▸ .value hptr hn h0
  · intro hptr
    have hint : P.isPtr AA = false := by simpa using hptr
    refine himp (fun m => ⟨fun hm => ?_, fun hm => ?_⟩) _ (unknown_adds vnF g)
    · exact hm.unique (.int hint)
    · exact hm ▸ .int hint

/-- What flows into the parameters `Ts`, the first of them number `i`, from the arguments `as`. -/
def ParamFlow (P : Ir) (valNode : Val → Option Nat) (onF i : Nat) (Ts : List Ty) (as : List Val)
    (a b : Nat) : Prop :=
  ∃ k T AA, Ts[k]? = some T ∧ T.isPtr = true ∧ as[k]? = some AA ∧ Passed P valNode AA a ∧
    b = onF + funcNodeOffArg0 + (i + k)

theorem paramFlow_cons {valNode : Val → Option Nat} {onF i : Nat} {T : Ty} {Ts : List Ty}
    {AA : Val} {as : List Val} {a b : Nat} :
    ParamFlow P valNode onF i (T :: Ts) (AA :: as) a b ↔
      (T.isPtr = true ∧ Passed P valNode AA a ∧ b = onF + funcNodeOffArg0 + i) ∨
        ParamFlow P valNode onF (i + 1) Ts as a b := by
  constructor
  · rintro ⟨k, T', BB, hT, hptr, hk, hn, rfl⟩
    cases k with
    | zero =>
        obtain rfl := Option.some.inj hT
        obtain rfl := Option.some.inj hk
        exact .inl ⟨hptr, hn, rfl⟩
    | succ k => exact .inr ⟨k, T', BB, hT, hptr, hk, hn, by omega⟩
  · rintro (⟨hptr, hn, rfl⟩ | ⟨k, T', BB, hT, hptr, hk, hn, rfl⟩)
    · exact ⟨0, T, AA, rfl, hptr, rfl, hn, rfl⟩
    · exact ⟨k + 1, T', BB, hT, hptr, hk, hn, by omega⟩

theorem passFixed_adds {g : Gen} {f onF : Nat} (Ts : List Ty) (i : Nat) (as : List Val)
    (hparam : ∀ j, i ≤ j → j < i + Ts.length →
      g.valNode (.arg f j) = some (onF + funcNodeOffArg0 + j))
    (hfind : ∀ AA ∈ as, P.isPtr AA = true → ∃ n, Finds g.valNode AA n) :
    Wp (passFixed P fuel f i Ts as)
      (fun _ g' => AddsFlows (ParamFlow P g.valNode onF i Ts as) g g') g := by
  induction Ts generalizing i as g with
  | nil => exact .nothing fun a b h => by simp [ParamFlow] at h
  | cons T Ts ih =>
      cases as with
      | nil => exact .nothing fun a b h => by simp [ParamFlow] at h
      | cons AA as =>
          have hrest : ∀ {g1 : Gen} {F : Nat → Nat → Prop}, AddsFlows F g g1 →
              (∀ a b, F a b ↔
                T.isPtr = true ∧ Passed P g.valNode AA a ∧ b = onF + funcNodeOffArg0 + i) →
              Wp (passFixed P fuel f (i + 1) Ts as)
                (fun _ g' => AddsFlows (ParamFlow P g.valNode onF i (T :: Ts) (AA :: as)) g g') g1 := by
            intro g1 F hF hfirst
            have hval : g1.valNode = g.valNode := by
              obtain ⟨new, rfl, -⟩ := hF
              rfl
            have hi := ih (g := g1) (i + 1) as
              (fun j h1 h2 => hval ▸ hparam j (by omega) (by simp; omega))
              fun BB hBB => hval ▸ hfind BB (List.mem_cons_of_mem _ hBB)
            apply hi.imp
            intro _ g' hg'
            rw [hval] at hg'
            exact hF.trans hg' fun a b => by rw [paramFlow_cons, hfirst]
          rw [passFixed]
          simp only [wp_bind, wp_ite]
          constructor
          · intro hptr
            apply (getValNode_finds _ g).imp
            rintro vnFA _ ⟨rfl, hvn⟩
            obtain rfl := Option.some.inj ((hparam i (by omega) (by simp)).symm.trans hvn)
            apply (passArg_adds _ (hfind AA (by simp))).imp
            intro _ g1 hg1
            exact hrest hg1 fun a b => by simp [hptr]
          · intro hptr
            exact hrest (.nothing (F := fun _ _ => False) fun _ _ => id) fun a b => by simp [hptr]

/-- What flows where by a direct call `i` of `f`, whose object is at `onF`. -/
inductive DirFlow (P : Ir) (f i : Nat) (valNode : Val → Option Nat) (onF : Nat) :
    Nat → Nat → Prop where
  | result {vnI : Nat} : (P.insts i).ty.isPtr = true → (P.func f).ret.isPtr = true →
      valNode (.inst i) = some vnI → DirFlow P f i valNode onF (onF + funcNodeOffRet) vnI
  /-- An integer that is used as a pointer. -/
  | int {vnI : Nat} : (P.insts i).ty.isPtr = true → (P.func f).ret.isPtr = false →
      valNode (.inst i) = some vnI → DirFlow P f i valNode onF pI2p vnI
  | arg {a b : Nat} : ParamFlow P valNode onF 0 (P.func f).params (P.insts i).args a b →
      DirFlow P f i valNode onF a b

theorem idDirCall_adds {g : Gen} {f i onF : Nat} (hva : (P.func f).isVarArg = false)
    (hobj : g.objNode (.func f) = some onF) (hplain : g.retNode f = none)
    (hparam : ∀ j < (P.func f).params.length,
      g.valNode (.arg f j) = some (onF + funcNodeOffArg0 + j))
    (hH : Handled P g.valNode i) :
    Wp (idDirCall P fuel i f) (fun _ g' => AddsFlows (DirFlow P f i g.valNode onF) g g') g := by
  have hend : ∀ {g1 : Gen} {F : Nat → Nat → Prop}, AddsFlows F g g1 →
      (∀ a b, DirFlow P f i g.valNode onF a b ↔ F a b ∨
        ParamFlow P g.valNode onF 0 (P.func f).params (P.insts i).args a b) →
      Wp (do
        let rest ← passFixed P fuel f 0 (P.func f).params (P.insts i).args
        if (P.func f).isVarArg then
          let vaF ← getVarargNode P f
          require (vaF ≠ 0) "vaF"
          rest.forM fun AA => passArg P fuel vaF AA
        else require (rest = []) "too many args to non-vararg func.")
        (fun _ g' => AddsFlows (DirFlow P f i g.valNode onF) g g') g1 := by
    intro g1 F hF hdir
    have hval : g1.valNode = g.valNode := by
      obtain ⟨new, rfl, -⟩ := hF
      rfl
    rw [wp_bind]
    apply (passFixed_adds _ 0 _ (fun j _ hj => hval ▸ hparam j (by omega))
      (hval ▸ hH)).imp
    intro rest g2 hg2
    simp only [hva, Bool.false_eq_true, if_false, wp_lift]
    intro _ _
    rw [hval] at hg2
    exact hF.trans hg2 hdir
  unfold idDirCall
  dsimp only
  rw [wp_ite]
  constructor
  · intro hptr
    rw [wp_bind]
    apply (getValNode_finds _ g).imp
    rintro vnI _ ⟨rfl, hvn⟩
    rw [wp_ite]
    constructor
    · intro hret
      simp only [getRetNode, wp_bind, wp_get, hret, Bool.not_true, Bool.false_eq_true, if_false,
        wp_lift, hplain, hobj, funcNode]
      intro rnF hrnF _ _
      obtain ⟨on, hon, hrnF⟩ := bind_ok.mp hrnF
      obtain rfl : onF = on := Except.ok.inj (require_bind_ok.mp hon).2
      obtain rfl : onF + funcNodeOffRet = rnF := Except.ok.inj (require_bind_ok.mp hrnF).2
      apply (copy_adds vnI _ _).imp
      intro _ g1 hg1
      rw [← wp_bind]
      apply hend hg1
      intro a b
      constructor
      · rintro (⟨-, -, hv⟩ | ⟨-, hr, -⟩ | hp)
        · exact .inl ⟨rfl, Option.some.inj (hv.symm.trans hvn)⟩
        · simp [hret] at hr
        · exact .inr hp
      · rintro (⟨rfl, rfl⟩ | hp)
        · exact .result hptr hret hvn
        · exact .arg hp
    · intro hret
      rw [wp_bind]
      apply (unknown_adds vnI _).imp
      intro _ g1 hg1
      apply hend hg1
      intro a b
      constructor
      · rintro (⟨-, hr, -⟩ | ⟨-, -, hv⟩ | hp)
        · exact absurd hr hret
        · exact .inl ⟨rfl, Option.some.inj (hv.symm.trans hvn)⟩
        · exact .inr hp
      · rintro (⟨rfl, rfl⟩ | hp)
        · exact .int hptr (by simpa using hret) hvn
        · exact .arg hp
  · intro hptr
    apply hend (.nothing (F := fun _ _ => False) fun _ _ => id)
    intro a b
    constructor
    · rintro (⟨hp, -, -⟩ | ⟨hp, -, -⟩ | hp)
      · exact absurd hp hptr
      · exact absurd hp hptr
      · exact .inr hp
    · rintro (h | hp)
      · exact h.elim
      · exact .arg hp
/-! ## Later states -/

/-- State `g'` comes behind `g`: operands are found as before, functions keep their nodes, and
nodes are only added. -/
structure Behind (g g' : Gen) : Prop where
  finds : ∀ v n, Finds g.valNode v n → Finds g'.valNode v n
  objs : ∀ f n, g.objNode (.func f) = some n → g'.objNode (.func f) = some n
  plain : ∀ f, (g.objNode (.func f)).isSome → g'.retNode f = g.retNode f
  nodes : g.nodes <+: g'.nodes

instance : IsPreorder Gen Behind where
  refl _ := ⟨fun _ _ => id, fun _ _ => id, fun _ _ => rfl, List.prefix_refl _⟩
  trans g g' g'' h h' := by
    refine ⟨fun v n hv => h'.finds v n (h.finds v n hv), fun f n hn => h'.objs f n (h.objs f n hn),
      fun f hf => ?_, h.nodes.trans h'.nodes⟩
    obtain ⟨n, hn⟩ := Option.isSome_iff_exists.mp hf
    rw [h'.plain f (by simp [h.objs f n hn]), h.plain f hf]

theorem Behind.same {g g' : Gen} (hv : g'.valNode = g.valNode) (ho : g'.objNode = g.objNode)
    (hr : g'.retNode = g.retNode) (hn : g'.nodes = g.nodes) : Behind g g' :=
  ⟨fun _ _ h => hv ▸ h, fun _ _ h => ho ▸ h, fun _ _ => by rw [hr], hn ▸ List.prefix_refl _⟩

theorem getValNodeCptr_behind (v : Val) : Runs Behind (getValNodeCptr P fuel v) := by
  intro g
  apply ((getValNodeCptr_kept v g).and (getValNodeCptr_appends v g)).imp
  rintro _ g' ⟨hk, ha⟩
  exact ⟨fun _ _ h => h.kept hk, fun _ _ h => hk.objs ▸ h, fun _ _ => by rw [ha.plain], ha.nodes⟩

theorem consCall_behind (i : Nat) {t : ConsType} {dest src off : Nat} :
    Runs Behind (consCall i t dest src off) :=
  .bind (fun _ => wp_cons.mpr fun _ _ _ => .same rfl rfl rfl rfl) fun _ =>
    .modify fun _ => .same rfl rfl rfl rfl

theorem storeArgs_behind (i vnC off : Nat) (as : List Val) :
    Runs Behind (storeArgs P fuel i vnC off as) := by
  induction as generalizing off with
  | nil => exact .pure _
  | cons AA as ih =>
      rw [storeArgs]
      refine .ite (.bind (getValNodeCptr_behind AA) fun _ => .ite ?_ (ih _)) ?_
      · exact .bind (consCall_behind i) fun _ => ih _
      · exact .bind (consCall_behind i) fun _ => ih _

/-- An indirect call leaves everything in place that was there. -/
theorem idIndCall_behind (i : Nat) : Runs Behind (idIndCall P fuel i) := by
  unfold idIndCall
  dsimp only
  split
  · exact .pure _
  · refine .bind (getValNodeCptr_behind _) fun vnC => .bind (.lift _) fun _ =>
      .bind (.modify fun _ => .same rfl rfl rfl rfl) fun _ => .ite ?_ (storeArgs_behind _ _ _ _)
    exact .bind (getValNode_runs _) fun _ => .bind (consCall_behind i) fun _ => storeArgs_behind _ _ _ _

theorem Finds.arg {valNode : Val → Option Nat} {f j n : Nat} (h : Finds valNode (.arg f j) n) :
    valNode (.arg f j) = some n := by
  cases h with
  | entry h => exact h
  | null _ hnull => simp [Val.isNullPtr, Val.isUndef] at hnull

theorem Finds.inst {valNode : Val → Option Nat} {i n : Nat} (h : Finds valNode (.inst i) n) :
    valNode (.inst i) = some n := by
  cases h with
  | entry h => exact h
  | null _ hnull => simp [Val.isNullPtr, Val.isUndef] at hnull

theorem Behind.node {g g' : Gen} (h : Behind g g') {n : Nat} (hn : n < g.nodes.length) :
    g'.nodes.getD n {} = g.nodes.getD n {} := by
  obtain ⟨l, hl⟩ := h.nodes
  rw [← hl, List.getD_eq_getElem?_getD, List.getElem?_append_left hn, List.getD_eq_getElem?_getD]

theorem TakenFunc.behind {g g' : Gen} {f onF : Nat} (h : TakenFunc P f g onF) (hb : Behind g g') :
    TakenFunc P f g' onF := by
  have hin := h.inside
  have hsz : g'.objSz onF = g.objSz onF := by
    unfold objSz
    rw [hb.node]
    have := h.ret
    omega
  have hfirst : onF < g.nodes.length := by
    have := h.ret
    omega
  refine ⟨h.special, hb.objs _ _ h.obj, ?_, fun j hj => ?_, ?_, hsz ▸ h.ret,
    fun j hj hptr => hsz ▸ h.reach j hj hptr, fun j hj => ?_, ?_⟩
  · rw [hb.plain f (by simp [h.obj]), h.plain]
  · exact (hb.finds _ _ (.entry (h.arg j hj))).arg
  · rw [hb.node hfirst]
    exact h.func
  · rw [hsz] at hj
    obtain ⟨hj', hval⟩ := h.node j hj
    refine ⟨hj', ?_⟩
    rw [hb.node (by omega)]
    exact hval
  · rw [hsz]
    exact hin.trans hb.nodes.length_le

/-- What flows from the arguments of a call that was handled is known. -/
theorem Passed.behind {g g' : Gen} {i : Nat} (hb : Behind g g') (hH : Handled P g.valNode i)
    {AA : Val} (hAA : AA ∈ (P.insts i).args) {n : Nat} :
    Passed P g.valNode AA n ↔ Passed P g'.valNode AA n := by
  constructor
  · intro h
    cases h with
    | value hptr hn h0 => exact .value hptr (hb.finds _ _ hn) h0
    | int hint => exact .int hint
  · intro h
    cases h with
    | value hptr hn h0 =>
        obtain ⟨m, hm⟩ := hH AA hAA hptr
        obtain rfl := hn.unique (hb.finds _ _ hm)
        exact .value hptr hm h0
    | int hint => exact .int hint

theorem CallOf.behind {g g' : Gen} {i vnC : Nat} (hb : Behind g g') (hH : Handled P g.valNode i)
    (hvnI : (P.insts i).ty.isPtr = true → (g.valNode (.inst i)).isSome) (C : Constraint) :
    CallOf P g.valNode i vnC C ↔ CallOf P g'.valNode i vnC C := by
  constructor
  · rintro (⟨hptr, vnI, hv, rfl⟩ | ⟨k, AA, n, hk, hn, rfl⟩)
    · exact .inl ⟨hptr, vnI, (hb.finds _ _ (.entry hv)).inst, rfl⟩
    · exact .inr ⟨k, AA, n, hk, (Passed.behind hb hH (List.mem_of_getElem? hk)).mp hn, rfl⟩
  · rintro (⟨hptr, vnI, hv, rfl⟩ | ⟨k, AA, n, hk, hn, rfl⟩)
    · obtain ⟨m, hm⟩ := Option.isSome_iff_exists.mp (hvnI hptr)
      have hm' := (hb.finds _ _ (.entry hm)).inst
      obtain rfl := Option.some.inj (hv.symm.trans hm')
      exact .inl ⟨hptr, vnI, hm, rfl⟩
    · exact .inr ⟨k, AA, n, hk, (Passed.behind hb hH (List.mem_of_getElem? hk)).mpr hn, rfl⟩

/-- The loads and stores that were added between two states. -/
def callCons (g g' : Gen) : List Constraint :=
  (g'.constraints.drop g.constraints.length).filter fun C => decide (Offset C)

theorem AddsOffset.callCons {Q : Constraint → Prop} {g g' : Gen} (h : AddsOffset Q g g') :
    (∀ C, C ∈ callCons g g' ↔ Q C) ∧ ∀ C, Q C → C.src ≠ i2p ∧ C.dest ≠ i2p := by
  obtain ⟨new, hnew, hin, hproper⟩ := h
  constructor
  · intro C
    rw [Gen.callCons, hnew, List.drop_left, List.mem_filter, decide_eq_true_iff]
    exact hin C
  · intro C hC
    obtain ⟨hmem, hoff⟩ := (hin C).mpr hC
    exact hproper C hmem hoff

end

end Gen

end PtrAnalysis
