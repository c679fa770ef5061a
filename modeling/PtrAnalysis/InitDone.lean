import PtrAnalysis.InitEnds
import PtrAnalysis.Owners

/-!
# Global initialization

The declarations give each global an object with a node for every leaf of its type and every
constant GEP they find one node. From there the loops over the initializers and the constant
GEPs come to an end, and then every GEP that is reached has its constraint once and every
initializer all of its own.
-/

namespace PtrAnalysis

open Run Act Filter

namespace Gen

section

variable (P : Ir) (fuel : Nat)

/-- `obj_cons_id` up to the initializers. -/
def declarations : GenM Unit := do
  beginModule P fuel
  (List.range P.funcs.length).forM fun f => idFunc P fuel f
  (List.range P.globals.length).forM fun i => idGlobal P fuel i

/-- The loops over the initializers and the constant GEPs that are left. -/
def initializers : GenM Unit := do
  (List.range P.globals.length).forM fun i => initGlobal P fuel i
  (← get).gepCe.forM fun vn => procGepCe P fuel vn

theorem objConsId_initializers : objConsId P fuel = (do
    declarations P fuel
    initializers P fuel
    (List.range P.funcs.length).forM fun f =>
      if P.isExt f then pure () else visitFunc P fuel f
    let g ← get
    require (g.nextNode = g.nodes.length) "wrong node count") := by
  simp only [declarations, initializers, beginModule, bind_assoc]
  rfl

/-- The constant GEPs that are visited: those in the list, those in an initializer, and those
that these are applied to. -/
inductive ReachedGep (g0 : Gen) : Val → Prop where
  | listed {n : Nat} {E : Val} (hn : n ∈ g0.gepCe) (hE : g0.valAt n = some E) : ReachedGep g0 E
  | leaf {i o : Nat} {C E : Val} (hC : (P.global i).init = some C)
      (hL : LeafAt P C o (.value E)) (hE : E.isGep = true) : ReachedGep g0 E
  | base {E R : Val} (h : ReachedGep g0 E) (hb : HasBase E (some (R, true))) : ReachedGep g0 R

/-- What is left of the initializers behind the loops. -/
structure Initialized (g0 g : Gen) (log : List Request) : Prop where
  added : addAll g0.constraints log = .ok g.constraints
  serves : ∀ r ∈ log, Serves P g r
  once : ∀ E, ReachedGep P g0 E → (log.countP fun r => r.cause = .gep E) = 1
  leaves : ∀ i C, (P.global i).init = some C →
    ∃ on, g0.objNode (.global i) = some on ∧ Served P log C on

end

section

variable {P : Ir} {fuel : Nat} {g g' : Gen}

/-! ## The declarations -/

/-- The nodes of constant expressions and the objects of globals are as before. -/
structure NoExprs (g g' : Gen) : Prop where
  vals : ∀ n v, g.valAt n = some v → g'.valAt n = some v
  old : ∀ n v, g'.valAt n = some v → v.isExpr = true → g.valAt n = some v
  exprs : ∀ v, v.isExpr = true → g'.valNode v = g.valNode v
  objects : ∀ i, g'.objNode (.global i) = g.objNode (.global i)
  structs : g'.structInfo = g.structInfo
  fresh : g'.globalInitDone = g.globalInitDone
  listed : g'.gepCe = g.gepCe

instance : IsPreorder Gen NoExprs where
  refl _ := ⟨fun _ _ h => h, fun _ _ h _ => h, fun _ _ => rfl, fun _ => rfl, rfl, rfl, rfl⟩
  trans _ _ _ h h' :=
    { vals := fun n v hn => h'.vals n v (h.vals n v hn)
      old := fun n v hn hv => h.old n v (h'.old n v hn hv) hv
      exprs := fun v hv => (h'.exprs v hv).trans (h.exprs v hv)
      objects := fun i => (h'.objects i).trans (h.objects i)
      structs := h'.structs.trans h.structs
      fresh := h'.fresh.trans h.fresh
      listed := h'.listed.trans h.listed }

/-- Nodes for other values. -/
theorem valAt_append {l : List GenNode} (hnodes : g'.nodes = g.nodes ++ l)
    (hl : ∀ N ∈ l, ∀ v, N.val = some v → v.isExpr = false) {n : Nat} {v : Val}
    (hn : g'.valAt n = some v) (hv : v.isExpr = true) : g.valAt n = some v := by
  obtain ⟨N, hN, hval⟩ := valAt_iff.mp hn
  rw [hnodes, List.getElem?_append] at hN
  split at hN
  · exact valAt_iff.mpr ⟨N, hN, hval⟩
  · rw [hl N (List.mem_of_getElem? hN) v hval] at hv
    cases hv

theorem NoExprs.append {l : List GenNode} (hnodes : g'.nodes = g.nodes ++ l)
    (hl : ∀ N ∈ l, ∀ v, N.val = some v → v.isExpr = false)
    (hvals : ∀ v, v.isExpr = true → g'.valNode v = g.valNode v)
    (hobjs : ∀ i, g'.objNode (.global i) = g.objNode (.global i))
    (hstructs : g'.structInfo = g.structInfo) (hfresh : g'.globalInitDone = g.globalInitDone)
    (hlisted : g'.gepCe = g.gepCe) : NoExprs g g' where
  vals _ _ hn := valAt_longer ⟨l, hnodes.symm⟩ hn
  old _ _ hn hv := valAt_append hnodes hl hn hv
  exprs := hvals
  objects := hobjs
  structs := hstructs
  fresh := hfresh
  listed := hlisted

/-- Nothing but other parts of the state and the nodes of other values. -/
theorem NoExprs.same (hnodes : g'.nodes = g.nodes)
    (hvals : ∀ v, v.isExpr = true → g'.valNode v = g.valNode v)
    (hobjs : ∀ i, g'.objNode (.global i) = g.objNode (.global i))
    (hstructs : g'.structInfo = g.structInfo) (hfresh : g'.globalInitDone = g.globalInitDone)
    (hlisted : g'.gepCe = g.gepCe) : NoExprs g g' :=
  .append (hnodes.trans (List.append_nil _).symm) (fun _ hN => absurd hN List.not_mem_nil) hvals hobjs hstructs hfresh hlisted

theorem noExprs_declares : Declares NoExprs where
  push N hN := .modify fun g => .append (l := [N]) rfl (fun M hM => List.mem_singleton.mp hM ▸ hN)
    (fun _ _ => rfl) (fun _ => rfl) rfl rfl rfl
  pushes v sizes weak hv := .modify fun g => by
    refine .append (l := sizes.map fun sz => ⟨some v, sz, weak⟩) rfl (fun N hN w hw => ?_)
      (fun _ _ => rfl) (fun _ => rfl) rfl rfl rfl
    obtain ⟨sz, -, rfl⟩ := List.mem_map.mp hN
    exact Option.some.inj hw ▸ hv
  bump _ := .modify fun _ => .same rfl (fun _ _ => rfl) (fun _ => rfl) rfl rfl rfl
  val v n hv := .modify fun _ => by
    refine .same rfl (fun w hw => Function.update_of_ne (fun h => ?_) _ _) (fun _ => rfl) rfl rfl rfl
    simp [← h, hw] at hv
  obj v n hv := .modify fun _ => .same rfl (fun _ _ => rfl)
    (fun i => Function.update_of_ne (hv i).symm _ _) rfl rfl rfl
  cons _ _ _ _ := fun _ => wp_cons.mpr fun _ _ _ =>
    .same rfl (fun _ _ => rfl) (fun _ => rfl) rfl rfl rfl
  ret _ _ := .same rfl (fun _ _ => rfl) (fun _ => rfl) rfl rfl rfl
  vararg _ _ := .same rfl (fun _ _ => rfl) (fun _ => rfl) rfl rfl rfl
  args _ _ := .same rfl (fun _ _ => rfl) (fun _ => rfl) rfl rfl rfl
  size g n sz := by
    have hat : ∀ m, valAt { g with
        nodes := g.nodes.modify n fun N => { N with objSz := sz } } m = g.valAt m := by
      intro m
      unfold valAt
      rw [List.getD_eq_getElem?_getD, List.getElem?_modify, List.getD_eq_getElem?_getD]
      cases g.nodes[m]? with
      | none => rfl
      | some N =>
          by_cases hm : n = m
          · simp [hm]
          · simp [hm]
    exact ⟨fun m v h => (hat m).trans h, fun m v h _ => (hat m).symm.trans h, fun _ _ => rfl,
      fun _ => rfl, rfl, rfl, rfl⟩

theorem Declared.noExprs (h : Declared P g) (hN : NoExprs g g')
    (hcount : g'.nextNode = g'.nodes.length) : Declared P g' where
  count := hcount
  node n v hn hv := (hN.exprs v hv).trans (h.node n v (hN.old n v hn hv) hv)
  value v n hn hv := hN.vals n v (h.value v n ((hN.exprs v hv).symm.trans hn) hv)
  known := hN.structs ▸ h.known
  fresh n := hN.fresh ▸ h.fresh n
  listed n hn := (h.listed n (hN.listed ▸ hn)).imp fun E hE => ⟨hN.vals n E hE.1, hE.2⟩
  object i on hon := by
    obtain ⟨w, hw, hfill, hvals⟩ := h.object i on ((hN.objects i).symm.trans hon)
    exact ⟨w, hw, hfill, fun p hp => hN.vals _ _ (hvals p hp)⟩

theorem Declared.push (h : Declared P g) {v : Val} (hv : g.valNode v = none)
    (hgep : v.isGep = true) :
    Declared P { g.pushed v with gepCe := g.gepCe ++ [g.nextNode] } := by
  have hlonger : ∀ n w, g.valAt n = some w → (g.pushed v).valAt n = some w := fun n w =>
    valAt_longer (List.prefix_append _ _)
  have hE := h.toExprNodes.push hv
  refine
    { count := hE.count
      node := hE.node
      value := hE.value
      known := h.known
      fresh := h.fresh
      listed := fun n hn => ?_
      object := fun i on hon => ?_ }
  · rcases List.mem_append.mp hn with hn | hn
    · exact (h.listed n hn).imp fun E hE => ⟨hlonger n E hE.1, hE.2⟩
    · rw [List.mem_singleton.mp hn]
      exact ⟨v, hE.value v _ (Function.update_self ..) (Val.isExpr_of_isGep hgep), hgep⟩
  · obtain ⟨w, hw, hfill, hvals⟩ := h.object i on hon
    exact ⟨w, hw, hfill, fun p hp => hlonger _ _ (hvals p hp)⟩

theorem idGepCe_declared (v : Val) : Runs (Keeping (Declared P)) (idGepCe P fuel v) := by
  induction fuel generalizing v with
  | zero => exact .throw _
  | succ fuel ih =>
      rw [idGepCe]
      refine .forM fun u _ => ?_
      split
      · exact ih _
      · rename_i t ops _
        refine .bind (.lift _) fun _ g => ?_
        rw [wp_bind, wp_get, wp_bind, wp_lift]
        intro _ hfree
        have hnone : g.valNode (.expr .gep t ops) = none :=
          Option.isNone_iff_eq_none.mp (require_ok.mp hfree)
        simp only [takeNode, pushNode, bump, setValNode, wp_bind, wp_get, wp_modify, wp_pure]
        exact fun h => h.push hnone rfl
      · exact .pure _

/-- The state with the value node of a global and its object. -/
def withGlobal (g : Gen) (i : Nat) (sizes : List Nat) (weak : Bool)
    (info : Nat → Option (List Nat × List Nat)) (T : Ty) (m : Nat) : Gen := { g with
  structInfo := info, maxStruct := T, maxStructSz := m
  nodes := g.nodes ++ [{ val := some (.global i) }] ++
    sizes.map fun sz => ⟨some (.global i), sz, weak⟩
  nextNode := g.nextNode + 1 + sizes.length
  valNode := Function.update g.valNode (.global i) (some g.nextNode)
  objNode := Function.update g.objNode (.global i) (some (g.nextNode + 1)) }

theorem Declared.global (h : Declared P g) {i : Nat} {sizes : List Nat} {weak : Bool}
    {info : Nat → Option (List Nat × List Nat)} {T : Ty} {m : Nat} (hknown : Known P info)
    (hleaves : Leaves P [(P.global i).elem] sizes.length)
    (hfill : FilledAll P [(P.global i).elem]) :
    Declared P (g.withGlobal i sizes weak info T m) := by
  set g' : Gen := g.withGlobal i sizes weak info T m with hg'
  have hnodes : g'.nodes = g.nodes ++ ({ val := some (.global i) } ::
      sizes.map fun sz => ⟨some (.global i), sz, weak⟩) := List.append_assoc ..
  have hlonger : ∀ n v, g.valAt n = some v → g'.valAt n = some v := fun n v =>
    valAt_longer ⟨_, hnodes.symm⟩
  have hold : ∀ n v, g'.valAt n = some v → v.isExpr = true → g.valAt n = some v := by
    refine fun n v => valAt_append hnodes fun N hN v hv => ?_
    rcases List.mem_cons.mp hN with rfl | hN
    · exact Option.some.inj hv ▸ rfl
    · obtain ⟨sz, -, rfl⟩ := List.mem_map.mp hN
      exact Option.some.inj hv ▸ rfl
  have hvals : ∀ v, v.isExpr = true → g'.valNode v = g.valNode v := fun v hv =>
    Function.update_of_ne (fun heq => by simp [heq, Val.isExpr] at hv) _ _
  refine
    { count := by
        simp only [hg', withGlobal, List.length_append, List.length_singleton, List.length_map,
          h.count]
      node := fun n v hn hv => (hvals v hv).trans (h.node n v (hold n v hn hv) hv)
      value := fun v n hn hv => hlonger n v (h.value v n ((hvals v hv).symm.trans hn) hv)
      known := hknown
      fresh := h.fresh
      listed := fun n hn => (h.listed n hn).imp fun E hE => ⟨hlonger n E hE.1, hE.2⟩
      object := fun j on hon => ?_ }
  by_cases hji : j = i
  · subst hji
    have hfirst : g'.objNode (.global j) = some (g.nextNode + 1) := Function.update_self ..
    cases hfirst.symm.trans hon
    refine ⟨sizes.length, hleaves, hfill, fun p hp => ?_⟩
    refine valAt_iff.mpr ⟨⟨some (.global j), sizes[p], weak⟩, ?_, rfl⟩
    rw [hnodes, h.count, List.getElem?_append_right (by omega)]
    have hidx : g.nodes.length + 1 + p - g.nodes.length = p + 1 := by omega
    rw [hidx, List.getElem?_cons_succ, List.getElem?_map, List.getElem?_eq_getElem hp]
    rfl
  · have hon' : g.objNode (.global j) = some on :=
      (Function.update_of_ne (fun heq => hji (Val.global.inj heq)) _ _).symm.trans hon
    obtain ⟨w, hw, hfill', hvals'⟩ := h.object j on hon'
    exact ⟨w, hw, hfill', fun p hp => hlonger _ _ (hvals' p hp)⟩

theorem cons_declared (t : ConsType) (dest src off : Nat) :
    Runs (Keeping (Declared P)) (cons t dest src off) := fun _ =>
  wp_cons.mpr fun _ _ _ h =>
    h.noExprs (.same rfl (fun _ _ => rfl) (fun _ => rfl) rfl rfl rfl) h.count

theorem idGlobal_declared (i : Nat) : Runs (Keeping (Declared P)) (idGlobal P fuel i) := by
  intro g
  by_cases h : Declared P g
  swap
  · exact wp_true.imp fun _ _ _ hg => absurd hg h
  have hlast : ∀ vn on, Runs (Keeping (Declared P)) (do
      idGepCe P fuel (.global i)
      cons .addrOf vn on) := fun vn on =>
    .bind (idGepCe_declared _) fun _ => cons_declared _ _ _ _
  simp only [idGlobal, pushNode, takeNode, bump, setValNode, setObjNode, pushNodes, wp_bind,
    wp_get, wp_modify, wp_pure]
  split
  · rename_i s hs
    rw [wp_bind]
    refine (((structs_known P fuel).2 s _ ?_).and (getStructSz_only P fuel s _)).imp ?_
    · exact h.known
    rintro sz g1 ⟨⟨hknown, off, hsz⟩, -, -, info, U, m, rfl⟩
    obtain ⟨hvec, hfill⟩ := hknown _ _ hsz
    have hleaves : Leaves P [(P.global i).elem] sz.length := .struct hs hvec.leaves .nil
    have hfilled : FilledAll P [(P.global i).elem] := by
      intro T hT s' hs'
      rw [List.mem_singleton.mp hT, hs] at hs'
      exact Ty.struct.inj hs' ▸ hfill
    rw [wp_bind, wp_modify, wp_bind, wp_modify]
    exact (hlast _ _ _).imp fun _ g' hg' _ => hg' (h.global hknown hleaves hfilled)
  · rename_i hT
    have hdecl : Declared P (g.withGlobal i [1]
        (decide ((P.global i).elem ≠ (P.global i).elem.strip)) g.structInfo g.maxStruct
        g.maxStructSz) := by
      refine h.global h.known (.one hT) fun T hmem s hs => ?_
      rw [List.mem_singleton.mp hmem] at hs
      exact absurd hs (hT s)
    rw [wp_bind, wp_modify, wp_bind, wp_modify, wp_ite]
    constructor
    · exact fun _ => (hlast _ _ _).imp fun _ g' hg' _ => hg' hdecl
    · exact fun _ => (cons_declared _ _ _ _ _).imp fun _ g' hg' _ => hg' hdecl

theorem idFunc_declared (f : Nat) (g : Gen) (h : Declared P g) (hg : Inv P fuel g) :
    Wp (idFunc P fuel f) (fun _ g' => Declared P g' ∧ Inv P fuel g') g :=
  ((noExprs_declares.func f g).and (idFunc_grown f g)).imp fun _ _ ⟨hN, hG⟩ =>
    ⟨h.noExprs hN (hG hg).1.1, (hG hg).1⟩

theorem analyzeStruct_declared (s : Nat) :
    Runs (Keeping (Declared P)) (analyzeStruct P fuel s) := by
  intro g
  by_cases h : Declared P g
  · refine (((structs_known P fuel).1 s g h.known).and (analyzeStruct_only P fuel s g)).imp ?_
    rintro _ g' ⟨⟨hknown, -⟩, -, -, info, T, m, rfl⟩ -
    exact { h with known := hknown }
  · exact wp_true.imp fun _ _ _ hg => absurd hg h

theorem beginModule_declared :
    Wp (beginModule P fuel) (fun _ g => Declared P g) Gen.empty := by
  have hspecial : Wp specialNodes (fun _ g => Declared P g) Gen.empty := by
    unfold specialNodes
    simp only [wp_bind, wp_modify, wp_pushAll, wp_cons]
    intro cs b _
    have hat : ∀ n v, valAt { Gen.empty with nodes := special } n ≠ some v := by
      intro n v hn
      obtain ⟨N, hN, hv⟩ := valAt_iff.mp hn
      have hN := List.mem_of_getElem? hN
      simp only [special, List.mem_cons, List.not_mem_nil, or_false] at hN
      rcases hN with rfl | rfl | rfl <;> cases hv
    exact
      { count := rfl
        node := fun n v hn => absurd hn (hat n v)
        value := fun v n hn => absurd hn (Option.some_ne_none n).symm
        known := .empty
        fresh := fun _ => rfl
        listed := fun n hn => absurd hn List.not_mem_nil
        object := fun i on hon => absurd hon (Option.some_ne_none on).symm }
  unfold beginModule
  rw [wp_bind]
  refine hspecial.imp fun _ g h => ?_
  rw [wp_bind, wp_modify]
  have hloop : Runs (Keeping (Declared P)) (P.named.forM fun s => analyzeStruct P fuel s) :=
    .forM fun s _ => analyzeStruct_declared s
  exact (hloop _).imp fun _ g' hg' => hg' { h with }

theorem declarations_declared :
    Wp (declarations P fuel) (fun _ g => Declared P g) Gen.empty := by
  have hfuncs : Runs (Keeping fun g => Declared P g ∧ Inv P fuel g)
      ((List.range P.funcs.length).forM fun f => idFunc P fuel f) :=
    .forM fun f _ g => by
      by_cases h : Declared P g ∧ Inv P fuel g
      · exact (idFunc_declared f g h.1 h.2).imp fun _ _ h' _ => h'
      · exact wp_true.imp fun _ _ _ hg => absurd hg h
  have hglobals : Runs (Keeping (Declared P))
      ((List.range P.globals.length).forM fun i => idGlobal P fuel i) :=
    .forM fun i _ => idGlobal_declared i
  unfold declarations
  rw [wp_bind]
  refine (beginModule_declared.and beginModule_spec).imp ?_
  rintro _ g1 ⟨h1, hinv, -⟩
  rw [wp_bind]
  refine (hfuncs g1).imp fun _ g2 h2 => ?_
  exact (hglobals g2).imp fun _ g3 h3 => h3 (h2 ⟨h1, hinv⟩).1

/-! ## The loops -/

variable {g0 : Gen} {log : List Request}

/-- The objects of these globals are marked, if they have initializers. -/
def GlobalsDone (P : Ir) (g0 : Gen) (is : List Nat) (g : Gen) : Prop :=
  ∀ i ∈ is, ∀ C, (P.global i).init = some C →
    ∃ on, g0.objNode (.global i) = some on ∧ g.globalInitDone on ≠ none

/-- The call for every global comes to an end, and marks its object. -/
theorem initGlobals_done (h0 : Declared P g0) (hT : TypedInits P)
    (hI : ∀ i C, (P.global i).init = some C → InitHalts P g0 (todo P g0 g0).ncard C fuel) :
    Halts ((List.range P.globals.length).forM fun i => initGlobal P fuel i) (fun _ =>
      After P g0 g0 [] fun _ g => GlobalsDone P g0 (List.range P.globals.length) g) g0 := by
  refine halts_forM_done (fun done => After P g0 g0 [] fun _ g => GlobalsDone P g0 done g)
    ⟨[], .start h0, .refl, fun _ hi => absurd hi List.not_mem_nil⟩ ?_
  rintro done i rest g1 - ⟨log1, h1, hadv1, hdone⟩
  unfold initGlobal
  split
  · rename_i C hC
    rw [halts_bind]
    refine getObjNode_halts fun on hon => ?_
    rw [h1.objects] at hon
    rw [halts_bind]
    have hfirst : true = true →
        ∃ i, g0.objNode (.global i) = some on ∧ (P.global i).init = some C := fun _ => ⟨i, hon, hC⟩
    have hvisit := (globalInit_visits h0 hT fuel).1 on C true log1 g1 h1 ⟨i, C, hC, .refl⟩ hfirst
    refine ((hI i C hC on true log1 g1 h1 hadv1.todo_le hfirst).and_wp hvisit).imp ?_
    rintro k g2 ⟨-, log2, h2, hadv2, hmark, -⟩
    refine ⟨log2, h2, hadv1.trans hadv2, fun j hj D hD => ?_⟩
    rcases List.mem_append.mp hj with hj | hj
    · obtain ⟨onj, honj, hd⟩ := hdone j hj D hD
      exact ⟨onj, honj, hadv2.done onj hd⟩
    · rw [List.mem_singleton.mp hj]
      exact ⟨on, hon, hmark rfl⟩
  · rename_i hnone
    refine ⟨log1, h1, hadv1, fun j hj D hD => ?_⟩
    rcases List.mem_append.mp hj with hj | hj
    · exact hdone j hj D hD
    · rw [List.mem_singleton.mp hj, hnone] at hD
      cases hD

/-- The constant GEPs in the list. -/
theorem gepCe_done (h0 : Declared P g0) (hT : TypedInits P) {k : Nat} (hE : GepHalts P g0 k fuel)
    (hg : Visiting P g0 none log g) (hk : (todo P g0 g).ncard ≤ k) :
    Halts (g.gepCe.forM fun vn => procGepCe P fuel vn) (fun _ => After P g0 g log fun _ g' =>
      ∀ n ∈ g0.gepCe, ∀ E, g0.valAt n = some E → g'.marked E = true) g := by
  rw [hg.listed]
  refine halts_forM_done (fun done => After P g0 g log fun _ g' =>
    ∀ n ∈ done, ∀ E, g0.valAt n = some E → g'.marked E = true)
    ⟨log, hg, .refl, fun _ hn => absurd hn List.not_mem_nil⟩ ?_
  rintro done n rest g1 hl ⟨log1, h1, hadv1, hdone⟩
  obtain ⟨E, hnE, hgep⟩ := h0.listed n (hl ▸ List.mem_append_right _ (List.mem_cons_self ..))
  have hn1 := valAt_longer h1.nodes hnE
  have hvisit := (globalInit_visits h0 hT fuel).2 n log1 g1 h1
  refine ((hE n log1 g1 h1 (hadv1.todo_le.trans hk) ⟨E, hn1, hgep⟩).and_wp hvisit).imp ?_
  rintro _ g2 ⟨-, log2, h2, hadv2, hmark⟩
  refine ⟨log2, h2, hadv1.trans hadv2, fun m hm D hD => ?_⟩
  rcases List.mem_append.mp hm with hm | hm
  · exact hadv2.marked (hdone m hm D hD)
  · rw [List.mem_singleton.mp hm] at hD
    cases hnE.symm.trans hD
    exact hmark E hn1

theorem ReachedGep.isGep (h0 : Declared P g0) {E : Val} (h : ReachedGep P g0 E) :
    E.isGep = true := by
  cases h with
  | listed hn hE =>
      obtain ⟨D, hD, hgep⟩ := h0.listed _ hn
      cases hD.symm.trans hE
      exact hgep
  | leaf _ _ hE => exact hE
  | base _ hb =>
      obtain ⟨fuel, hb⟩ := hb
      exact (stripBase_gep hb).2

/-- Behind the loops all that is reached was visited. -/
theorem ReachedGep.marked (h0 : Declared P g0) (hg : Visiting P g0 none log g)
    (hadv : Advances g0 [] g log)
    (hlist : ∀ n ∈ g0.gepCe, ∀ E, g0.valAt n = some E → g.marked E = true)
    (hinit : ∀ i C, (P.global i).init = some C →
      ∃ on, g0.objNode (.global i) = some on ∧ Served P log C on)
    {E : Val} (h : ReachedGep P g0 E) : g.marked E = true := by
  induction h with
  | listed hn hE => exact hlist _ hn _ hE
  | leaf hC hL hE =>
      obtain ⟨on, -, hserved⟩ := hinit _ _ hC
      obtain ⟨r, hr, hcause, -⟩ := hserved _ _ hL
      exact hg.visited r hr _ hcause hE
  | @base E R h hb ih =>
      refine hadv.bases E R (h.isGep h0) ih ?_ hb
      by_contra hm
      rw [Bool.not_eq_false] at hm
      obtain ⟨n, -, hdone⟩ := marked_iff.mp hm
      exact hdone (h0.fresh n)

/-- For a module whose types are nested finitely and whose initializers are typed: from the state
that the declarations leave, the loops over the initializers come to an end, however the globals
refer to each other and to themselves. Where they return, every constant GEP that is reached has
its constraint once, and every pointer in an initializer its own. -/
theorem initializers_done (P : Ir) (k : Nat) (g0 : Gen) (hT : TypedInits P) (hfin : FiniteStructs P)
    (hdecl : declarations P k Gen.empty = .ok ((), g0)) :
    ∃ N, ∀ fuel, N ≤ fuel →
      Halts (initializers P fuel) (fun _ g => ∃ log, Initialized P g0 g log) g0 := by
  have h0 := declarations_declared.result hdecl
  have hgep := gepHalts h0 hT hfin (todo P g0 g0).ncard
  refine eventually_atTop.mp ((hgep.and (inits_halt h0 hT hgep)).mono ?_)
  rintro fuel ⟨hE, hI⟩
  unfold initializers
  rw [halts_bind]
  refine (initGlobals_done h0 hT hI).imp ?_
  rintro _ g1 ⟨log1, h1, hadv1, hdone⟩
  rw [halts_bind, halts_get]
  refine (gepCe_done h0 hT hE h1 hadv1.todo_le).imp ?_
  rintro _ g2 ⟨log2, h2, hadv2, hlist⟩
  have hleaves : ∀ i C, (P.global i).init = some C →
      ∃ on, g0.objNode (.global i) = some on ∧ Served P log2 C on := by
    intro i C hC
    obtain ⟨on, hon, hd⟩ := hdone i (List.mem_range.mpr (init_lt hC)) C hC
    exact ⟨on, hon, h2.done i C on (h2.objects ▸ hon) hC (hadv2.done on hd)⟩
  have hadv := hadv1.trans hadv2
  refine ⟨log2, h2.added, h2.serves, fun E hR => ?_, hleaves⟩
  exact h2.once E (hR.isGep h0) (hR.marked h0 h2 hadv hlist hleaves) (Option.some_ne_none E).symm

end

/-- The address of field 1 of a global. -/
def secondField (i : Nat) : Val :=
  .expr .gep (.ptr .int) (.ofList [.global i, .num .int 0, .num .int 1])

/-- A struct that holds addresses in an array and in itself, and the array, which holds one in
the struct. -/
def cyclicGlobals : Ir where
  structs _ := [.ptr .int, .ptr .int]
  named := [0]
  funcs := []
  globals := [⟨.struct 0, some (.struct 0 (.ofList [secondField 1, secondField 0])), false⟩,
    ⟨.array (.ptr .int), some (.array (.ptr .int) (.ofList [secondField 0, .null (.ptr .int)])),
      false⟩]
  insts _ := ⟨.ret, .void, []⟩
  parent _ := (0, 0)
  users
    | .global i => [secondField i]
    | _ => []
  extInfo _ := none
  setOrder := id
  ulongBits := 64

theorem cyclicGlobals_typed : TypedInits cyclicGlobals := by
  intro i C hC
  have hi : i < 2 := init_lt hC
  obtain rfl | rfl : i = 0 ∨ i = 1 := by omega
  · cases hC
    decide
  · cases hC
    decide

theorem initializers_done_cyclic : ∃ g0, declarations cyclicGlobals 20 Gen.empty = .ok ((), g0) ∧
    ∃ N, ∀ fuel, N ≤ fuel → Halts (initializers cyclicGlobals fuel)
      (fun _ g => ∃ log, Initialized cyclicGlobals g0 g log) g0 := by
  have hrun : Passes (declarations cyclicGlobals 20 Gen.empty) (fun _ => true) = true := by
    decide +kernel
  obtain ⟨_, g0, hg0, -⟩ := Passes.state hrun
  refine ⟨g0, hg0, initializers_done cyclicGlobals 20 g0 cyclicGlobals_typed (fun s => ⟨2, ?_⟩) hg0⟩
  exact .simple (by simp [Ty.strip]) (.one (by simp [Ty.strip]))

/-- The address in the struct is met three times. -/
example : Passes
    ((declarations cyclicGlobals 20 >>= fun _ => initializers cyclicGlobals 20) Gen.empty) (fun g => (g.constraints.filter fun C => C.type = .gep).length = 1) = true := by
  decide +kernel

end Gen

end PtrAnalysis
