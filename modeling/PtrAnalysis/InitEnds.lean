import Mathlib.Data.Set.Card
import Mathlib.Order.Filter.AtTopBot.Basic
import Mathlib.Order.Filter.Finite
import PtrAnalysis.InitVisits

/-!
# Initializers come to an end

A global is marked only when the call for it returns, so the recursion may enter it again,
but each time through a constant GEP whose node it has just marked. The number of constant
GEPs that are left goes down with every such call; between two of them a call goes down in
the structure of a constant. So with enough fuel no call runs out of it.
-/

namespace PtrAnalysis

open Run Act Filter

theorem eventually_succ {p : Nat → Prop} (h : ∀ᶠ n in atTop, p (n + 1)) : ∀ᶠ n in atTop, p n := by
  rwa [← map_add_atTop_eq_nat 1, eventually_map]

/-- Types are nested finitely. -/
def FiniteStructs (P : Ir) : Prop := ∀ s, ∃ n, Leaves P (P.structs s) n

namespace Gen

section

variable {P : Ir}

/-! ## Bitcasts -/

theorem operand0_eventually {p : Nat → Val → Prop} {v : Val}
    (h : ∀ w ∈ v.children, ∀ᶠ fuel in atTop, p fuel w)
    (hno : ∀ fuel, p (fuel + 1) (.misc .other 0)) : ∀ᶠ fuel in atTop, p fuel v.operand0 := by
  rcases v.operand0_children with hv | hv
  · exact h _ hv
  · rw [hv]
    exact eventually_succ (.of_forall hno)

theorem stripInit_ends (C : Val) : ∀ᶠ fuel in atTop, Run.Ends (stripInit fuel C) := by
  induction C using Val.induct_children with
  | h v ih =>
      refine eventually_succ ?_
      filter_upwards [operand0_eventually ih fun _ => ends_ok _] with fuel hop
      unfold stripInit
      split
      · split
        · exact hop
        · exact ends_ok _
        · exact ends_ok _
        · exact ends_ok _
        · simp [Run.Ends, Spec]
      · exact ends_ok _

theorem stripBase_ends (R : Val) : ∀ᶠ fuel in atTop, Run.Ends (stripBase fuel R) := by
  induction R using Val.induct_children with
  | h v ih =>
      refine eventually_succ ?_
      filter_upwards [operand0_eventually ih fun _ => ends_ok _] with fuel hop
      unfold stripBase
      split
      · split
        · exact hop
        · exact ends_ok _
        · exact ends_ok _
        · simp [Run.Ends, Spec]
      · exact ends_ok _

/-! ## The table of structs -/

theorem analyzeStruct_halts {fuel s : Nat} (hrec : ∀ s', Holds P s s' → ∀ g,
      Halts (getStructSz P fuel s') (fun _ _ => True) g) (g : Gen) :
    Halts (analyzeStruct P (fuel + 1) s) (fun _ _ => True) g := by
  rw [analyzeStruct]
  simp only [halts_bind, halts_get, halts_ite, halts_pure]
  refine ⟨fun _ => trivial, fun _ => ?_⟩
  refine (halts_foldlM_done (fun _ _ _ => True) trivial ?_).imp ?_
  · rintro done ET rest ⟨sz, off, nf⟩ g1 hl -
    dsimp only
    split
    · rename_i s' hs'
      rw [halts_bind]
      refine (hrec s' ⟨ET, hl ▸ List.mem_append_right _ (List.mem_cons_self ..), hs'⟩ g1).imp ?_
      exact fun _ _ _ => trivial
    · trivial
  · rintro ⟨sz, off, nf⟩ g1 -
    rw [halts_lift]
    unfold inRange
    split
    · exact ⟨fun _ => trivial, fun _ => trivial⟩
    · exact Stop.outOfRange_ne_fuel

theorem getStructSz_halts {fuel s : Nat}
    (h : ∀ g, Halts (analyzeStruct P fuel s) (fun _ _ => True) g) (g : Gen) : Halts (getStructSz P (fuel + 1) s) (fun _ _ => True) g := by
  rw [getStructSz]
  simp only [halts_bind, halts_get, halts_ite, halts_pure]
  exact ⟨fun _ => (h g).imp fun _ _ _ => trivial, fun _ => trivial⟩

/-- The structs embedded in a list of types, by induction on how deep they are nested. -/
theorem elements_halt {Ts : List Ty} {n : Nat} (h : Leaves P Ts n) :
    ∀ᶠ fuel in atTop, ∀ T ∈ Ts, ∀ s, T.strip = .struct s → ∀ g,
      Halts (getStructSz P fuel s) (fun _ _ => True) g := by
  induction h with
  | nil => exact .of_forall fun _ T hT => absurd hT List.not_mem_nil
  | simple hT _ ih =>
      filter_upwards [ih] with fuel hrest T hT' s hs
      rcases List.mem_cons.mp hT' with rfl | hT'
      · exact absurd hs (hT s)
      · exact hrest T hT' s hs
  | struct hT _ _ ihs ih =>
      have hs : ∀ᶠ fuel in atTop, ∀ g, Halts (getStructSz P fuel _) (fun _ _ => True) g :=
        eventually_succ <| eventually_succ <| ihs.mono fun fuel h =>
          getStructSz_halts (analyzeStruct_halts fun s' hin => by
            obtain ⟨U, hU, hs'⟩ := hin
            exact h U hU s' hs')
      filter_upwards [ih, hs] with fuel hrest hs T hT' s' hs'
      rcases List.mem_cons.mp hT' with rfl | hT'
      · cases hT.symm.trans hs'
        exact hs
      · exact hrest T hT' s' hs'

theorem getStructOff_halts (hfin : FiniteStructs P) (s : Nat) :
    ∀ᶠ fuel in atTop, ∀ g, Halts (getStructOff P fuel s) (fun _ _ => True) g := by
  obtain ⟨n, hn⟩ := hfin s
  refine eventually_succ ((elements_halt hn).mono fun fuel h g => ?_)
  have hrun : Halts (analyzeStruct P (fuel + 1) s) (fun _ _ => True) g :=
    analyzeStruct_halts (fun s' ⟨T, hT, hs'⟩ => h T hT s' hs') g
  unfold getStructOff
  simp only [halts_bind, halts_get, halts_ite, halts_pure]
  exact ⟨fun _ => hrun.imp fun _ _ _ => trivial, fun _ => trivial⟩

theorem gepOff_halts (hfin : FiniteStructs P) (idx : List Val) (T : Ty) :
    ∀ᶠ fuel in atTop, ∀ off g, Halts (gepOff P fuel T idx off) (fun _ _ => True) g := by
  induction idx generalizing T with
  | nil =>
      refine .of_forall fun fuel off g => ?_
      rw [gepOff, halts_pure]
      trivial
  | cons v rest ih =>
      have hskip : (∀ s, T ≠ .struct s) → ∀ᶠ fuel in atTop, ∀ off g,
          Halts (gepOff P fuel T (v :: rest) off) (fun _ _ => True) g := by
        intro hT
        filter_upwards [ih T.contained] with fuel hrest off g
        rw [gepOff]
        · exact hrest off g
        · intro s hs
          exact hT s hs
      cases T with
      | struct s =>
          cases v with
          | num t n =>
              have hfield := ih ((P.structs s).getD (n % 2 ^ 32) .other)
              filter_upwards [getStructOff_halts hfin s, hfield] with fuel hs hrest off g
              rw [gepOff, halts_bind]
              refine (hs g).imp fun so g1 _ => ?_
              rw [halts_bind, halts_lift]
              unfold require
              split
              · exact hrest _ g1
              · exact Stop.assertion_ne_fuel
          | _ => exact .of_forall fun fuel off g => halts_throw Stop.assertion_ne_fuel
      | _ => exact hskip fun s hs => by cases hs

theorem computeGepOff_halts (hfin : FiniteStructs P) (ops : List Val) :
    ∀ᶠ fuel in atTop, ∀ g, Halts (computeGepOff P fuel ops) (fun _ _ => True) g := by
  cases ops with
  | nil => exact .of_forall fun _ _ => trivial
  | cons base rest =>
      cases rest with
      | nil => exact .of_forall fun _ _ => trivial
      | cons idx rest =>
          exact (gepOff_halts hfin rest (P.typeOf base).contained).mono fun fuel h g => h 0 g

/-! ## What is left to visit -/

section

variable {g0 g g' : Gen} {log log' : List Request} {pending : Option Val}

theorem init_lt {i : Nat} {C : Val} (hC : (P.global i).init = some C) : i < P.globals.length := by
  by_contra hi
  have hnone : P.global i = default := by
    rw [Ir.global, List.getD_eq_getElem?_getD, List.getElem?_eq_none (not_lt.mp hi)]
    rfl
  rw [hnone] at hC
  cases hC

theorem occurs_finite : {E | Occurs P g0 E}.Finite := by
  have hnodes : {E | ∃ n v, g0.valAt n = some v ∧ PartOf E v}.Finite := by
    refine ((Set.finite_Iio g0.nodes.length).biUnion
      (t := fun n => {E | ∃ v, g0.valAt n = some v ∧ PartOf E v}) fun n _ => ?_).subset ?_
    · cases hn : g0.valAt n with
      | none => simp
      | some v => exact (parts_finite v).subset fun E ⟨w, hw, hE⟩ => Option.some.inj hw ▸ hE
    · rintro E ⟨n, v, hn, hE⟩
      exact Set.mem_biUnion (valAt_lt hn) ⟨v, hn, hE⟩
  have hinits : {E | ∃ i C, (P.global i).init = some C ∧ PartOf E C}.Finite := by
    refine ((Set.finite_Iio P.globals.length).biUnion
      (t := fun i => {E | ∃ C, (P.global i).init = some C ∧ PartOf E C}) fun i _ => ?_).subset ?_
    · cases hi : (P.global i).init with
      | none => simp
      | some C => exact (parts_finite C).subset fun E ⟨D, hD, hE⟩ => Option.some.inj hD ▸ hE
    · rintro E ⟨i, C, hC, hE⟩
      exact Set.mem_biUnion (init_lt hC) ⟨C, hC, hE⟩
  exact hnodes.union hinits

/-- The GEPs that were not visited yet. -/
def todo (P : Ir) (g0 g : Gen) : Set Val :=
  {E | Occurs P g0 E ∧ E.isGep = true ∧ g.marked E = false}

theorem todo_finite : (todo P g0 g).Finite := occurs_finite.subset fun _ h => h.1

theorem Advances.todo_le (h : Advances g log g' log') :
    (todo P g0 g').ncard ≤ (todo P g0 g).ncard := by
  refine Set.ncard_le_ncard (fun E hE => ⟨hE.1, hE.2.1, ?_⟩) todo_finite
  by_contra hm
  rw [Bool.not_eq_false] at hm
  cases hE.2.2.symm.trans (h.marked hm)

/-- Marking the node of a GEP leaves fewer. -/
theorem todo_mark {n : Nat} {E : Val} (hocc : Occurs P g0 E) (hE : E.isGep = true)
    (hno : g.marked E = false) (hn : g.valNode E = some n) :
    (todo P g0 { g with globalInitDone := Function.update g.globalInitDone n (some 1) }).ncard <
      (todo P g0 g).ncard := by
  set g' : Gen := { g with globalInitDone := Function.update g.globalInitDone n (some 1) } with hg'
  have hmono : ∀ E', g.marked E' = true → g'.marked E' = true := by
    intro E' hm
    obtain ⟨m, hm, hdone⟩ := marked_iff.mp hm
    refine marked_iff.mpr ⟨m, hm, ?_⟩
    by_cases hmn : m = n
    · simp [hg', hmn]
    · simpa [hg', Function.update_of_ne hmn] using hdone
  have hself : g'.marked E = true := marked_iff.mpr ⟨n, hn, by simp [hg']⟩
  refine Set.ncard_lt_ncard (Set.ssubset_iff_subset_ne.mpr
    ⟨fun E' hE' => ⟨hE'.1, hE'.2.1, ?_⟩, fun heq => ?_⟩) todo_finite
  · by_contra hm
    rw [Bool.not_eq_false] at hm
    cases hE'.2.2.symm.trans (hmono E' hm)
  · have hmem : E ∈ todo P g0 g' := heq ▸ ⟨hocc, hE, hno⟩
    cases hmem.2.2.symm.trans hself

/-! ## The recursion -/

/-- Calls for the constant GEPs end while at most `k` of them are left. -/
def GepHalts (P : Ir) (g0 : Gen) (k fuel : Nat) : Prop :=
  ∀ n log g, Visiting P g0 none log g → (todo P g0 g).ncard ≤ k →
    (∃ E, g.valAt n = some E ∧ E.isGep = true) → Halts (procGepCe P fuel n) (fun _ _ => True) g

/-- Calls for constant `C` end while at most `k` constant GEPs are left. -/
def InitHalts (P : Ir) (g0 : Gen) (k : Nat) (C : Val) (fuel : Nat) : Prop :=
  ∀ n first log g, Visiting P g0 none log g → (todo P g0 g).ncard ≤ k →
    (first = true → ∃ i, g0.objNode (.global i) = some n ∧ (P.global i).init = some C) →
    Halts (procGlobalInit P fuel n C first) (fun _ _ => True) g

theorem getObjNode_halts {v : Val} {Q : Nat → Gen → Prop}
    (hQ : ∀ n, g.objNode v = some n → Q n g) : Halts (getObjNode v) Q g := by
  simp only [getObjNode, halts_bind, halts_get, halts_lift]
  cases hv : g.objNode v with
  | none => exact Stop.assertion_ne_fuel
  | some n => exact spec_require (fun _ => Stop.assertion_ne_fuel) fun _ => hQ n hv

theorem ends_require {p : Prop} [Decidable p] {text : String} : Run.Ends (require p text) := by
  unfold require
  split
  · trivial
  · exact Stop.assertion_ne_fuel

theorem addConsAsserts_ends (t : ConsType) (dest src off : Nat) :
    Run.Ends (addConsAsserts t dest src off) := by
  cases t with
  | addrOf => exact spec_require (fun _ => Stop.assertion_ne_fuel) fun _ => ends_require
  | copy => exact spec_require (fun _ => Stop.assertion_ne_fuel) fun _ => ends_require
  | _ => exact ends_require

theorem addCons_ends (cs : List Constraint) (t : ConsType) (dest src off : Nat) :
    Run.Ends (addCons cs t dest src off) := by
  refine spec_require (fun _ => Stop.assertion_ne_fuel) fun _ => ?_
  split
  · trivial
  · exact (addConsAsserts_ends _ _ _ _).bind fun _ _ => trivial

theorem cons_halts {t : ConsType} {dest src off : Nat} {Q : Unit → Gen → Prop}
    (hQ : ∀ g, Q () g) : Halts (cons t dest src off) Q g := by
  simp only [cons, halts_bind, halts_get, halts_lift, halts_modify]
  exact (addCons_ends _ _ _ _ _).imp fun _ _ => hQ _

theorem gepNode_halts {v : Val} : Halts (gepNode v) (fun _ _ => True) g := by
  simp only [gepNode, findValNode, takeNode, pushNode, bump, setValNode, halts_bind, halts_get,
    halts_lift, halts_ite, halts_modify, halts_pure]
  unfold entry
  split
  · exact ⟨fun _ => trivial, fun _ => trivial⟩
  · exact spec_require (fun _ => Stop.assertion_ne_fuel) fun _ => ⟨fun _ => trivial, fun _ => trivial⟩

theorem finish_halts {first : Bool} {n k : Nat} :
    Halts (if first then setInitDone n k >>= fun _ => pure k else pure k) (fun _ _ => True) g := by
  rw [halts_ite]
  exact ⟨fun _ => trivial, fun _ => trivial⟩

variable {fuel k : Nat}

/-- A call of `procGlobalInit`, from the calls below it. -/
theorem initHalts_step (h0 : Declared P g0) (hT : TypedInits P) {C : Val} (hpart : InitPart P C)
    (hstrip : Run.Ends (stripInit fuel C)) (ihE : GepHalts P g0 k fuel)
    (ih : ∀ D ∈ C.children, InitHalts P g0 k D fuel) : InitHalts P g0 k C (fuel + 1) := by
  intro n first log g hg hk hfirst
  have hspec := globalInit_visits h0 hT fuel
  unfold procGlobalInit
  rw [halts_bind, halts_lift]
  refine ends_require.imp fun _ _ => ?_
  rw [halts_bind, halts_get]
  split
  · trivial
  rw [halts_bind, halts_lift]
  refine (hstrip.and_ok fun S hS => hS).imp ?_
  rintro S ⟨-, hS⟩
  split
  · exact finish_halts
  · rw [halts_bind]
    exact cons_halts fun _ => finish_halts
  · rename_i C'
    obtain ⟨-, hsame⟩ := stripInit_typed (hpart.typed hT) hS
    have hgep := stripInit_gep hS
    rw [halts_ite]
    refine ⟨fun _ => finish_halts, fun hnull => ?_⟩
    rw [halts_ite]
    constructor
    · intro hsingle
      rw [halts_ite]
      refine ⟨fun hptr => ?_, fun _ => finish_halts⟩
      split
      · rename_i op t ops
        rw [halts_bind]
        have hocc : Occurs P g0 (.expr op t ops) := hpart.occurs.part (stripInit_part hS rfl)
        refine (gepNode_halts.and_wp (gepNode_visits hg h0 fun _ => hocc)).imp ?_
        rintro m g1 ⟨-, h1, hadv, hm⟩
        rw [halts_bind]
        refine (ihE m log g1 h1 (hadv.todo_le.trans hk) ⟨_, h1.value _ _ hm rfl, hgep.symm⟩).imp
          fun _ g2 _ => ?_
        rw [halts_bind]
        exact cons_halts fun _ => finish_halts
      · rw [halts_bind]
        refine getObjNode_halts fun m _ => ?_
        rw [halts_bind]
        exact cons_halts fun _ => finish_halts
    · intro hsingle
      -- every pass of a loop leaves a state of the run
      have hpass : ∀ D ∈ C.children, ∀ m log1 g1, Visiting P g0 none log1 g1 →
          Advances g log g1 log1 → Halts (procGlobalInit P fuel m D false)
            (fun _ => After P g0 g log fun _ _ => True) g1 := by
        intro D hD m log1 g1 h1 hadv
        have hrun := ih D hD m false log1 g1 h1 (hadv.todo_le.trans hk)
          fun h => absurd h Bool.false_ne_true
        have hvisit := hspec.1 m D false log1 g1 h1 (hpart.child (.child .refl hD))
          fun h => absurd h Bool.false_ne_true
        refine (hrun.and_wp hvisit).imp ?_
        rintro j g2 ⟨-, log2, h2, hadv2, -⟩
        exact ⟨log2, h2, hadv.trans hadv2, trivial⟩
      split
      · rename_i s fields
        obtain rfl : Val.struct s fields = C := hsame.resolve_right (by simp [Val.isAggregate])
        rw [halts_bind]
        refine (halts_foldlM_done (fun _ _ => After P g0 g log fun _ _ => True)
          ⟨log, hg, .refl, trivial⟩ ?_).imp fun off g1 _ => finish_halts
        rintro done D rest off g1 hl ⟨log1, h1, hadv, -⟩
        have hD : D ∈ fields.toList := hl ▸ List.mem_append_right _ (List.mem_cons_self ..)
        rw [halts_bind]
        exact (hpass D hD _ log1 g1 h1 hadv).imp fun _ _ h => h
      · rename_i t elems
        obtain rfl : Val.array t elems = C := hsame.resolve_right (by simp [Val.isAggregate])
        rw [halts_bind]
        refine (halts_foldlM_done (fun _ _ => After P g0 g log fun _ _ => True)
          ⟨log, hg, .refl, trivial⟩ ?_).imp fun off g1 _ => finish_halts
        rintro done D rest off g1 hl ⟨log1, h1, hadv, -⟩
        have hD : D ∈ elems.toList := hl ▸ List.mem_append_right _ (List.mem_cons_self ..)
        exact hpass D hD _ log1 g1 h1 hadv
      · exact halts_throw Stop.assertion_ne_fuel

/-- Calls for a constant, by induction on its structure. -/
theorem initHalts (h0 : Declared P g0) (hT : TypedInits P)
    (hgep : ∀ᶠ fuel in atTop, GepHalts P g0 k fuel) {C : Val} (hpart : InitPart P C) :
    ∀ᶠ fuel in atTop, InitHalts P g0 k C fuel := by
  induction C using Val.induct_children with
  | h C ih =>
      have hparts : ∀ᶠ fuel in atTop, ∀ D ∈ C.children, InitHalts P g0 k D fuel :=
        (eventually_all_finite (List.finite_toSet C.children)).mpr fun D hD =>
          ih D hD (hpart.child (.child .refl hD))
      refine eventually_succ ?_
      filter_upwards [hgep, hparts, stripInit_ends C] with fuel hE hD hS
      exact initHalts_step h0 hT hpart hS hE hD

theorem inits_halt (h0 : Declared P g0) (hT : TypedInits P)
    (hgep : ∀ᶠ fuel in atTop, GepHalts P g0 k fuel) :
    ∀ᶠ fuel in atTop, ∀ i C, (P.global i).init = some C → InitHalts P g0 k C fuel := by
  have hall : ∀ᶠ fuel in atTop, ∀ i ∈ Set.Iio P.globals.length, ∀ C,
      (P.global i).init = some C → InitHalts P g0 k C fuel := by
    refine (eventually_all_finite (Set.finite_Iio _)).mpr fun i _ => ?_
    cases hi : (P.global i).init with
    | none => exact .of_forall fun _ C hC => by cases hC
    | some C =>
        refine (initHalts h0 hT hgep ⟨i, C, hi, .refl⟩).mono fun fuel h D hD => ?_
        exact Option.some.inj hD ▸ h
  exact hall.mono fun fuel h i C hC => h i (init_lt hC) C hC

/-- A call of `procGepCe` marks a node, or nothing is called below it. -/
theorem gepHalts_step (h0 : Declared P g0)
    (hbase : ∀ E ∈ {E | Occurs P g0 E}, Run.Ends (stripBase fuel E.operand0) ∧
      ∀ g, Halts (computeGepOff P fuel E.exprOps) (fun _ _ => True) g)
    (ih : ∀ j, k = j + 1 → GepHalts P g0 j fuel ∧
      ∀ i C, (P.global i).init = some C → InitHalts P g0 j C fuel) :
    GepHalts P g0 k (fuel + 1) := by
  rintro n log g hg hk ⟨E, hE, hgep⟩
  have hocc := hg.occurs n E hE (Val.isExpr_of_isGep hgep)
  have hvn := hg.node n E hE (Val.isExpr_of_isGep hgep)
  obtain ⟨hstrip, hoff⟩ := hbase E hocc
  unfold procGepCe
  rw [halts_bind, halts_get]
  split
  · rename_i t ops hnode
    cases hE.symm.trans hnode
    rw [halts_bind, halts_get, halts_ite]
    refine ⟨fun _ => trivial, fun hnone => ?_⟩
    have hno : g.marked (.expr .gep t ops) = false := by
      rw [marked, hvn]
      simpa using hnone
    have hless := @todo_mark P g0 g n _ hocc hgep hno hvn
    obtain ⟨j, rfl⟩ : ∃ j, k = j + 1 := ⟨k - 1, by omega⟩
    obtain ⟨ihE, ihI⟩ := ih j rfl
    obtain ⟨h1, hself, -⟩ := hg.mark h0 hE hgep hno
    have hvn1 := h1.node n _ hE rfl
    rw [halts_bind, setInitDone, halts_modify]
    generalize { g with globalInitDone := Function.update g.globalInitDone n (some 1) } = g1
      at h1 hself hvn1 hless
    rw [halts_bind, halts_lift]
    refine (hstrip.and_ok fun S hS => hS).imp ?_
    rintro S ⟨-, hS⟩
    split
    · exact cons_halts fun _ => trivial
    · rename_i R nested
      rw [halts_bind, halts_lift]
      refine ends_require.imp fun _ _ => ?_
      have hR : R.isExpr = true → Occurs P g0 R := by
        intro hR
        obtain rfl : true = nested := hR.symm.trans (stripBase_gep hS).1
        exact hocc.part ((stripBase_part hS).operand0 hR)
      rw [halts_bind]
      refine (gepNode_halts.and_wp (gepNode_visits h1 h0 hR)).imp ?_
      rintro m g2 ⟨-, h2, hadv2, hm⟩
      rw [halts_bind]
      refine ((hoff g2).and_wp (computeGepOff_visits h2 _)).imp ?_
      rintro off g3 ⟨-, h3, hadv3, ho⟩
      have hadv1 := hadv2.trans hadv3
      rw [halts_bind]
      refine ((cons_halts (Q := fun _ _ => True) fun _ => trivial).and_wp
        (gepCons_visits h3 (hadv1.marked hself)
          (.gep (hadv1.vals _ _ hvn1) ⟨fuel, hS⟩ (hadv3.vals _ _ hm) ho))).imp ?_
      rintro _ g4 ⟨-, log4, h4, hadv4, -⟩
      have hadv := hadv1.trans hadv4
      have hle : (todo P g0 g4).ncard ≤ (todo P g0 g1).ncard := hadv.todo_le
      rw [halts_ite]
      constructor
      · rintro rfl
        obtain ⟨hexpr, hRgep⟩ := stripBase_gep hS
        have hm4 := hadv4.vals _ _ (hadv3.vals _ _ hm)
        exact ihE m log4 g4 h4 (by omega) ⟨R, h4.value _ _ hm4 hexpr, hRgep⟩
      · intro hnested
        split
        · rename_i i
          split
          · rename_i C hC
            rw [halts_bind]
            refine getObjNode_halts fun on hon => ?_
            rw [halts_bind]
            exact (ihI i C hC on true log4 g4 h4 (by omega) fun _ =>
              ⟨i, h4.objects ▸ hon, hC⟩).imp fun _ _ _ => trivial
          · trivial
        · trivial
  · exact halts_throw Stop.assertion_ne_fuel

/-- Calls for constant GEPs, by induction on how many are left. -/
theorem gepHalts (h0 : Declared P g0) (hT : TypedInits P) (hfin : FiniteStructs P) (k : Nat) :
    ∀ᶠ fuel in atTop, GepHalts P g0 k fuel := by
  have hbase : ∀ᶠ fuel in atTop, ∀ E ∈ {E | Occurs P g0 E},
      Run.Ends (stripBase fuel E.operand0) ∧
        ∀ g, Halts (computeGepOff P fuel E.exprOps) (fun _ _ => True) g :=
    (eventually_all_finite occurs_finite).mpr fun E _ =>
      (stripBase_ends E.operand0).and (computeGepOff_halts hfin E.exprOps)
  induction k with
  | zero => exact eventually_succ (hbase.mono fun fuel h => gepHalts_step h0 h fun j hj => by omega)
  | succ k ih =>
      have hinit := inits_halt h0 hT ih
      refine eventually_succ ?_
      filter_upwards [hbase, ih, hinit] with fuel hb hE hI
      refine gepHalts_step h0 hb fun j hj => ?_
      obtain rfl := Nat.succ.inj hj
      exact ⟨hE, hI⟩

end

end

end Gen

end PtrAnalysis
