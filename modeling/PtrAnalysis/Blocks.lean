import PtrAnalysis.Layout

/-!
# Object blocks

What the generator keeps, handler by handler, and from it the shape of all objects once the
constraints are complete: each block exists, holds nodes of one object, and blocks are
nested. Moving the object nodes to the front keeps this.
-/

namespace PtrAnalysis

open Run Act

namespace Gen

section

variable {P : Ir} {k fuel : Nat}

/-! ## Globals -/

theorem idGepCe_grown (v : Val) : Runs (Grown P k) (idGepCe P fuel v) := by
  induction fuel generalizing v with
  | zero => exact .throw _
  | succ fuel ih =>
      rw [idGepCe]
      refine .forM fun u _ => ?_
      split
      · exact ih _
      · refine .bind (.lift _) fun _ => .bind .get fun _ => .bind (.lift _) fun _ => ?_
        refine newNode_grown _ fun n => .bind (setValNode_grown _ _) fun _ => ?_
        exact .modify fun _ => .same ⟨rfl, rfl, rfl, rfl, rfl, rfl⟩
      · exact .pure _

theorem setInitDone_grown (n m : Nat) : Runs (Grown P k) (setInitDone n m) :=
  .modify fun _ => .same ⟨rfl, rfl, rfl, rfl, rfl, rfl⟩

theorem gepNode_grown (v : Val) : Runs (Grown P k) (gepNode v) := by
  refine .bind (findValNode_grown v) fun vn => .ite (.pure _) ?_
  exact newNode_grown _ fun n => .bind (setValNode_grown _ _) fun _ => .pure _

theorem idGlobal_grown (i : Nat) : Runs (Grown P k) (idGlobal P fuel i) := by
  apply runs_grown
  intro g h
  have hvalue : Grown P k g { g with
      nodes := g.nodes ++ [{ val := some (.global i) }], nextNode := g.nextNode + 1
      valNode := Function.update g.valNode (.global i) (some g.nextNode) } :=
    .valueNode (some (.global i)) rfl rfl rfl rfl rfl rfl
  obtain ⟨hinv, hgrow⟩ := hvalue h
  have hA := hinv.announced.enterObj (.global i)
  simp only [idGlobal, pushNode, takeNode, bump, setValNode, setObjNode, pushNodes, wp_bind,
    wp_get, wp_modify, wp_pure]
  split
  · rw [wp_bind]
    apply ((structs_spec P fuel).2 _ _).imp
    rintro sizes g' ⟨hg', hflat⟩
    obtain ⟨hinv', hobj⟩ := (hA.structs hg').object (.global i) (hflat hA.2.1.structs)
      (decide ((P.global i).elem ≠ (P.global i).elem.strip))
    obtain ⟨-, -, info, T, m, rfl⟩ := hg'
    simp only [wp_bind, wp_modify]
    exact Runs.consLast (idGepCe_grown _) hinv' (fun n hn => (hgrow n hn).append _) hobj _
  · obtain ⟨hinv', hobj⟩ := hA.object (.global i) flat_one
      (decide ((P.global i).elem ≠ (P.global i).elem.strip))
    simp only [wp_bind, wp_modify, wp_ite]
    constructor
    · intro _
      exact Runs.consLast (idGepCe_grown _) hinv' (fun n hn => (hgrow n hn).append _) hobj _
    · intro _
      exact consLast hinv' (fun n hn => (hgrow n hn).append _) hobj _

/-- The two functions on initializers, by induction on the depth of the recursion. -/
theorem globalInit_grown :
    (∀ onG C first, Runs (Grown P k) (procGlobalInit P fuel onG C first)) ∧
      ∀ vnE, Runs (Grown P k) (procGepCe P fuel vnE) := by
  induction fuel with
  | zero => exact ⟨fun _ _ _ => .throw _, fun _ => .throw _⟩
  | succ fuel ih =>
      obtain ⟨ihI, ihE⟩ := ih
      constructor
      · intro onG C first
        have hdone : ∀ m : Nat, Runs (Grown P k)
            (if first then setInitDone onG m >>= fun _ => pure m else pure m) :=
          fun m => .ite (.bind (setInitDone_grown _ _) fun _ => .pure _) (.pure _)
        unfold procGlobalInit
        refine .bind (.lift _) fun _ => .bind .get fun g => ?_
        split
        · exact .pure _
        · refine .bind (.lift _) fun S => ?_
          split
          · exact hdone 1
          · exact .bind consI2p_grown fun _ => hdone 1
          · refine .ite (hdone 1) ?_
            refine .ite (.ite ?_ (hdone 1)) ?_
            · split
              · refine .bind (gepNode_grown _) fun vnE => .bind (ihE vnE) fun _ => ?_
                exact .bind (cons_grown (by decide)) fun _ => hdone 1
              · exact consObj_grown _ _ (hdone 1)
            · split
              · refine .bind (.foldlM _ fun C' _ off => ?_) fun off => hdone off
                exact .bind (ihI _ _ _) fun _ => .pure _
              · exact .bind (.foldlM _ fun C' _ off => ihI _ _ _) fun off => hdone off
              · exact .throw _
      · intro vnE
        unfold procGepCe
        refine .bind .get fun g => ?_
        split
        · refine .bind .get fun _ => .ite (.pure _) ?_
          refine .bind (setInitDone_grown _ _) fun _ => .bind (.lift _) fun S => ?_
          split
          · exact consI2p_grown
          · refine .bind (.lift _) fun _ => .bind (gepNode_grown _) fun vnR => ?_
            refine .bind (computeGepOff_grown _) fun off => .bind (cons_grown (by decide)) fun _ => ?_
            refine .ite (ihE _) ?_
            split
            · split
              · exact .bind (getObjNode_grown _) fun _ => .bind (ihI _ _ _) fun _ => .pure _
              · exact .pure _
            · exact .pure _
        · exact .throw _

/-! ## Calls -/

theorem fieldCount_grown (T : Ty) : Runs (Grown P k) (match T with
    | .struct s => do return (← getStructSz P fuel s).length
    | _ => pure 0) := by
  split
  · exact .bind (getStructSz_grown _) fun _ => .pure _
  · exact .pure _

theorem traceAllocType_grown (i : Nat) : Runs (Grown P k) (traceAllocType P fuel i) := by
  refine .bind (fieldCount_grown _) fun msz => .bind (.foldlM _ fun u _ t => ?_) fun t => ?_
  · dsimp only
    split
    · exact .ite (.bind (fieldCount_grown _) fun _ => .ite (.pure _) (.pure _)) (.pure _)
    · exact .pure _
  · exact .ite (.bind .get fun _ => .pure _) (.pure _)

theorem staticObj_grown (fuel : Nat) (I : Val) (f : Nat) (dest : Nat) :
    Runs (Grown P k) (staticObj P fuel I f >>= fun on => cons .addrOf dest on) := by
  apply runs_grown
  intro g h
  unfold staticObj
  simp only [setObjNode, pushNodes, bump, wp_bind, wp_get]
  split
  · rename_i on hon
    exact consLast h (fun _ => id) (h.2.stats _ _ hon) dest
  · simp only [wp_bind, wp_modify, wp_ite, wp_pure]
    have hA := (h.announced.enterObj I).enterStat (P.func f).name
    constructor
    · intro _
      obtain ⟨hinv, hobj, hobj'⟩ := hA.pair I true
      exact consLast2 hinv (fun n hn => hn.append _) hobj' hobj _ dest
    · intro _
      apply (pushObject_inv hA I _ true).imp
      rintro _ g' ⟨hinv, hobj, hgrow⟩
      exact consLast hinv hgrow hobj dest

/-- Code that makes an object for `v`; what follows may use its address. -/
theorem newObject_grown (v : Val) (T : Ty) (weak : Bool) {x : Nat → GenM Unit}
    (hx : ∀ on (g g' : Gen), Inv P k g' → (∀ n, IsObj g.nodes n → IsObj g'.nodes n) →
      IsObj g'.nodes on → Wp (x on)
        (fun _ g' => Inv P k g' ∧ ∀ n, IsObj g.nodes n → IsObj g'.nodes n) g') :
    Runs (Grown P k) (get >>= fun g => setObjNode v g.nextNode >>= fun _ =>
      pushObject P fuel v T weak >>= fun _ => x g.nextNode) := by
  apply runs_grown
  intro g h
  simp only [setObjNode, wp_bind, wp_get, wp_modify]
  apply (pushObject_inv (h.announced.enterObj v) v T weak).imp
  rintro _ g' ⟨hinv, hobj, hgrow⟩
  exact hx _ g g' hinv hgrow hobj

theorem idCallObj_grown (vnI : Nat) (F : Option Nat) :
    Runs (Grown P k) (idCallObj P fuel vnI F) := by
  refine .bind .get fun g => ?_
  split
  · rename_i i _
    dsimp only
    split
    · refine .bind (traceAllocType_grown i) fun T => ?_
      apply runs_grown
      intro g h
      simp only [setObjNode, wp_bind, wp_get, wp_modify]
      apply (pushObject_inv (h.announced.enterObj (.inst i)) (.inst i) T true).imp
      rintro _ g' ⟨hinv, -, hgrow⟩
      exact ⟨hinv, hgrow⟩
    · rename_i f
      have hrest : ∀ fresh : Bool, Runs (Grown P k) (if fresh then do
            let T ← traceAllocType P fuel i
            let on := (← get).nextNode
            setObjNode (.inst i) on
            pushObject P fuel (.inst i) T true
            cons .addrOf vnI on
          else if P.hasStatic f then do
            let on ← staticObj P fuel (.inst i) f
            cons .addrOf vnI on
          else pure ()) := by
        intro fresh
        refine .ite (.bind (traceAllocType_grown i) fun T => ?_) ?_
        · exact newObject_grown _ T true fun on g g' hinv hgrow hobj =>
            consLast hinv hgrow hobj vnI
        · exact .ite (staticObj_grown fuel _ f vnI) (.pure _)
      refine .ite ?_ (.ite (.bind (.pure _) hrest) (.ite ?_ (.bind (.pure _) hrest)))
      · apply runs_grown
        intro g h
        obtain ⟨hinv, hobj⟩ := (h.announced.enterObj (.inst i)).object (.inst i) flat_one true
        simp only [takeNode, bump, setObjNode, pushNodes, wp_bind, wp_get, wp_modify, wp_pure]
        exact consLast hinv (fun n hn => hn.append _) hobj vnI
      · split
        · exact .bind (.throw _) hrest
        · exact .bind (.pure _) hrest
  · exact .throw _

/-! ## Arguments -/

theorem passArg_grown (vnF : Nat) (AA : Val) : Runs (Grown P k) (passArg P fuel vnF AA) :=
  .ite (.bind (getValNodeCptr_grown AA) fun _ => consUnless0_grown (by decide)) consI2p_grown

theorem passFixed_grown (f i : Nat) (Ts : List Ty) (as : List Val) :
    Runs (Grown P k) (passFixed P fuel f i Ts as) := by
  induction Ts generalizing i as with
  | nil => exact .pure _
  | cons T Ts ih =>
      cases as with
      | nil => exact .pure _
      | cons AA as =>
          rw [passFixed]
          refine .ite (.bind (getValNode_grown _) fun _ => ?_) (ih _ _)
          exact .bind (passArg_grown _ _) fun _ => ih _ _

theorem idDirCall_grown (i f : Nat) : Runs (Grown P k) (idDirCall P fuel i f) := by
  have hargs : ∀ F : Func, ∀ as : List Val, Runs (Grown P k) (do
      let rest ← passFixed P fuel f 0 F.params as
      if F.isVarArg then
        let vaF ← getVarargNode P f
        require (vaF ≠ 0) "vaF"
        rest.forM fun AA => passArg P fuel vaF AA
      else require (rest = []) "too many args to non-vararg func.") := by
    intro F as
    refine .bind (passFixed_grown _ _ _ _) fun rest => .ite ?_ (.lift _)
    refine .bind (getVarargNode_grown f) fun vaF => .bind (.lift _) fun _ => ?_
    exact .forM fun AA _ => passArg_grown vaF AA
  refine .ite (.bind (getValNode_grown _) fun vnI => .ite ?_ ?_) (hargs _ _)
  · refine .bind (getRetNode_grown f) fun rnF => .bind (.lift _) fun _ => ?_
    exact .bind (cons_grown (by decide)) fun _ => hargs _ _
  · exact .bind consI2p_grown fun _ => hargs _ _

theorem consCall_grown (i : Nat) {t : ConsType} (ht : t ≠ .addrOf) (dest src off : Nat) :
    Runs (Grown P k) (consCall i t dest src off) :=
  .bind (cons_grown ht) fun _ => .modify fun _ => .same ⟨rfl, rfl, rfl, rfl, rfl, rfl⟩

theorem storeArgs_grown (i vnC off : Nat) (as : List Val) :
    Runs (Grown P k) (storeArgs P fuel i vnC off as) := by
  induction as generalizing off with
  | nil => exact .pure _
  | cons AA as ih =>
      rw [storeArgs]
      refine .ite (.bind (getValNodeCptr_grown AA) fun _ => .ite ?_ (ih _)) ?_
      · exact .bind (consCall_grown i (by decide) _ _ _) fun _ => ih _
      · exact .bind (consCall_grown i (by decide) _ _ _) fun _ => ih _

theorem idIndCall_grown (i : Nat) : Runs (Grown P k) (idIndCall P fuel i) := by
  unfold idIndCall
  dsimp only
  split
  · exact .pure _
  · refine .bind (getValNodeCptr_grown _) fun vnC => .bind (.lift _) fun _ => ?_
    refine .bind (.modify fun _ => .same ⟨rfl, rfl, rfl, rfl, rfl, rfl⟩) fun _ => ?_
    refine .ite (.bind (getValNode_grown _) fun _ => ?_) (storeArgs_grown _ _ _ _)
    exact .bind (consCall_grown i (by decide) _ _ _) fun _ => storeArgs_grown _ _ _ _

/-! ## External functions -/

theorem callArg_grown (I : Inst) (m : Nat) : Runs (Grown P k) (callArg I m) := by
  unfold callArg
  split
  · exact .throw _
  · exact .pure _

theorem pointeeSize_grown (T : Ty) : Runs (Grown P k) (match T with
    | .ptr t => do return (← sizesOf P fuel t.strip).length
    | _ => pure 1) := by
  split
  · exact .bind (sizesOf_grown _) fun _ => .pure _
  · exact .pure _

theorem getMaxOffset_grown (v : Val) : Runs (Grown P k) (getMaxOffset P fuel v) := by
  unfold getMaxOffset
  dsimp only
  split
  · exact pointeeSize_grown _
  · exact .ite (pointeeSize_grown _)
      (.foldlM _ fun op _ msz => .bind (pointeeSize_grown _) fun _ => .pure _)
  · split
    · exact .bind (pointeeSize_grown _) fun _ => .pure _
    · exact .pure _
  · exact .pure _

theorem addStore2Cons_grown (D S : Val) (sz : Nat) :
    Runs (Grown P k) (addStore2Cons P fuel D S sz) := by
  have hcopy : ∀ vnD vnS sz : Nat, Runs (Grown P k) ((List.range sz).forM fun i => do
      let tn ← takeNode
      pushNode {}
      cons .load tn vnS i
      cons .store vnD tn i) := fun vnD vnS sz => .forM fun i _ =>
    newNode_grown _ fun tn => .bind (cons_grown (by decide)) fun _ => cons_grown (by decide)
  refine .bind (getValNodeCptr_grown D) fun vnD => .bind (getValNodeCptr_grown S) fun vnS => ?_
  refine .ite (.pure _) (.ite ?_ (.bind (.pure _) fun _ => hcopy _ _ _))
  refine .bind (getMaxOffset_grown D) fun szD => .bind (getMaxOffset_grown S) fun szS => ?_
  exact .bind (.pure _) fun _ => hcopy _ _ _

theorem storeArg_grown (I : Inst) (d s : Nat) : Runs (Grown P k) (storeArg P fuel I d s) := by
  refine .bind (callArg_grown I d) fun _ => .bind (getValNodeCptr_grown _) fun vnD => ?_
  refine .bind (callArg_grown I s) fun _ => .bind (getValNodeCptr_grown _) fun vnS => ?_
  exact .ite (cons_grown (by decide)) (.pure _)

theorem returnArg_grown (i m : Nat) : Runs (Grown P k) (returnArg P fuel i m) :=
  .ite (.bind (getValNode_grown _) fun _ => .bind (callArg_grown _ m) fun _ => passArg_grown _ _)
    (.pure _)

theorem newArg_grown (I : Inst) (m : Nat) : Runs (Grown P k) (newArg P fuel I m) := by
  refine .bind (callArg_grown I m) fun dest => .bind (getValNodeCptr_grown dest) fun vnD => ?_
  refine .ite (.pure _) (.bind (.lift _) fun _ => ?_)
  refine newObject_grown dest _ true (x := fun on => do
    let vn ← takeNode
    pushNode {}
    cons .addrOf vn on
    cons .store vnD vn) ?_
  intro on g g' hinv hgrow hobj
  have hvalue : Grown P k g' { g' with
      nodes := g'.nodes ++ [{}], nextNode := g'.nextNode + 1 } :=
    .valueNode none rfl rfl rfl rfl rfl rfl
  obtain ⟨hinv', hgrow'⟩ := hvalue hinv
  simp only [takeNode, bump, pushNode, wp_bind, wp_get, wp_modify, wp_pure]
  apply (consLast hinv' (fun n hn => hgrow' n (hgrow n hn)) (hgrow' on hobj) _).imp
  rintro _ g3 ⟨hinv3, hgrow3⟩
  apply (cons_grown (by decide) g3).imp
  intro _ g4 h4
  obtain ⟨hinv4, hgrow4⟩ := h4 hinv3
  exact ⟨hinv4, fun n hn => hgrow4 n (hgrow3 n hn)⟩

theorem idExtCall_grown (i f : Nat) : Runs (Grown P k) (idExtCall P fuel i f) := by
  refine .bind (.lift _) fun _ => .ite (.pure _) ?_
  cases P.extType f with
  | realloc => exact .bind (callArg_grown _ _) fun _ => .ite (.pure _) (returnArg_grown _ _)
  | lA0 => exact returnArg_grown _ _
  | lA1 => exact returnArg_grown _ _
  | lA2 => exact returnArg_grown _ _
  | lA8 => exact returnArg_grown _ _
  | lA0_A0rA1r =>
      refine .bind (callArg_grown _ _) fun a0 => .bind (callArg_grown _ _) fun a1 => ?_
      refine .bind (addStore2Cons_grown _ _ _) fun _ => .ite ?_ (.pure _)
      refine .bind (getValNode_grown _) fun _ => .bind (getValNode_grown _) fun _ => ?_
      exact cons_grown (by decide)
  | a1rA0r =>
      refine .bind (callArg_grown _ _) fun _ => .bind (callArg_grown _ _) fun _ => ?_
      exact addStore2Cons_grown _ _ _
  | a3rA1rNs =>
      refine .bind (callArg_grown _ _) fun _ => .bind (callArg_grown _ _) fun _ => ?_
      exact addStore2Cons_grown _ _ _
  | a1rA0 => exact storeArg_grown _ _ _
  | a2rA1 => exact storeArg_grown _ _ _
  | a4rA1 => exact storeArg_grown _ _ _
  | lA0_A2rA0 => exact .bind (returnArg_grown _ _) fun _ => storeArg_grown _ _ _
  | a0rNew => exact newArg_grown _ _
  | a1rNew => exact newArg_grown _ _
  | a2rNew => exact newArg_grown _ _
  | a4rNew => exact newArg_grown _ _
  | a11rNew => exact newArg_grown _ _
  | alloc => exact .throw _
  | noStructAlloc => exact .throw _
  | stat => exact .throw _
  | stat2 => exact .throw _
  | noop => exact .pure _
  | other => exact .pure _

/-! ## Functions -/

theorem newValNode_grown (v : Val) : Runs (Grown P k) (newValNode v) :=
  newNode_grown _ fun _ => .pure _

theorem idMainArgs_grown (f : Nat) : Runs (Grown P k) (idMainArgs P f) := by
  refine .forM fun i _ => .ite ?_ (.pure _)
  refine .bind (newValNode_grown _) fun vn => .bind (setValNode_grown _ _) fun _ => ?_
  apply runs_grown
  intro g h
  obtain ⟨hinv, hobj, hobj'⟩ := (h.announced.enterObj (.arg f i)).pair (.arg f i) false
  simp only [pushNodes, bump, setObjNode, wp_bind, wp_get, wp_modify]
  exact consLast2 hinv (fun n hn => hn.append _) hobj hobj' _ _

theorem idPlainFunc_grown (f : Nat) : Runs (Grown P k) (idPlainFunc P f) := by
  have hvararg : Runs (Grown P k) (if (P.func f).isVarArg then do
      let va ← newValNode (.func f)
      modify fun g => { g with varargNode := Function.update g.varargNode f (some va) }
      else pure ()) :=
    .ite (.bind (newValNode_grown _) fun _ => .modify fun _ => .same ⟨rfl, rfl, rfl, rfl, rfl, rfl⟩)
      (.pure _)
  refine .bind (.forM fun i _ => .ite ?_ (.pure _)) fun _ => .ite ?_ hvararg
  · exact .bind (newValNode_grown _) fun _ => setValNode_grown _ _
  · refine .bind (newValNode_grown _) fun _ => .bind (.modify fun _ => ?_) fun _ => hvararg
    exact .same ⟨rfl, rfl, rfl, rfl, rfl, rfl⟩

/-- A node of the object of `f` behind its first. -/
def FuncPart (f : Nat) (N : GenNode) : Prop :=
  N.objSz = 1 ∧ (N.val = some (.func f) ∨ ∃ i, N.val = some (.arg f i))

/-- The object of the address-taken function `f` behind the nodes `l`, of which `body` is made
since `g0`; its size is still to be set. -/
structure Taking (P : Ir) (k f : Nat) (l : List GenNode) (g0 g : Gen) : Prop where
  inv : Inv P k g
  grown : ∀ n, IsObj g0.nodes n → IsObj g.nodes n
  base : ∃ l', l = special ++ l' ∧ Nested GenNode.objSz (SameObject P k) l'
  nodes : ∃ body, g.nodes = l ++ ⟨some (.func f), 1, false⟩ :: body ∧ ∀ N ∈ body, FuncPart f N

namespace Taking

variable {f : Nat} {l : List GenNode} {g0 g : Gen}

theorem same (h : Taking P k f l g0 g) {g' : Gen} (hg : SameLayout g g') :
    Taking P k f l g0 g' := by
  obtain ⟨hinv, hgrown⟩ := Grown.same hg h.inv
  exact ⟨hinv, fun n hn => hgrown n (h.grown n hn), h.base, hg.2.1 ▸ h.nodes⟩

theorem push (h : Taking P k f l g0 g) {part : List GenNode} (hpart : ∀ N ∈ part, FuncPart f N)
    {n : Nat} (hn : part.length = n) :
    Taking P k f l g0 { g with nodes := g.nodes ++ part, nextNode := g.nextNode + n } where
  inv := ⟨by simp [h.inv.1, hn], h.inv.2.push (.small fun N hN => (hpart N hN).1.le)⟩
  grown := fun n hn => (h.grown n hn).append part
  base := h.base
  nodes := by
    obtain ⟨body, hbody, hfunc⟩ := h.nodes
    refine ⟨body ++ part, by simp [hbody], fun N hN => ?_⟩
    rcases List.mem_append.mp hN with hN | hN
    · exact hfunc N hN
    · exact hpart N hN

/-- Now we have the complete object. -/
theorem finish (h : Taking P k f l g0 g) (hAT : P.escapes k (.func f) = .ok true) :
    Inv P k { g with nodes := g.nodes.modify l.length fun N =>
      { N with objSz := g.nextNode - l.length } } ∧
    ∀ n, IsObj g0.nodes n → IsObj (g.nodes.modify l.length fun N =>
      { N with objSz := g.nextNode - l.length }) n := by
  obtain ⟨body, hbody, hfunc⟩ := h.nodes
  have hsz : g.nextNode - l.length = body.length + 1 := by
    rw [h.inv.1, hbody]
    simp
  have hnodes : (g.nodes.modify l.length fun N => { N with objSz := g.nextNode - l.length }) =
      l ++ ⟨some (.func f), body.length + 1, false⟩ :: body := by
    rw [hsz, hbody, List.modify_eq_take_cons_drop (by simp)]
    simp
  -- an object node stays one
  have hobj : ∀ n, IsObj g.nodes n →
      IsObj (l ++ ⟨some (.func f), body.length + 1, false⟩ :: body) n := by
    rintro n ⟨N, hN, hpos⟩
    rw [hbody] at hN
    by_cases hn : n = l.length
    · subst hn
      exact ⟨⟨some (.func f), body.length + 1, false⟩, by simp, Nat.succ_pos _⟩
    · refine ⟨N, ?_, hpos⟩
      rw [← hN]
      rcases Nat.lt_or_gt_of_ne hn with hlt | hgt
      · rw [List.getElem?_append_left hlt, List.getElem?_append_left hlt]
      · rw [List.getElem?_append_right hgt.le, List.getElem?_append_right hgt.le]
        obtain ⟨d, hd⟩ : ∃ d, n - l.length = d + 1 := ⟨n - l.length - 1, by omega⟩
        rw [hd, List.getElem?_cons_succ, List.getElem?_cons_succ]
  rw [hnodes]
  obtain ⟨l', rfl, hl'⟩ := h.base
  obtain ⟨hcount, hlaid⟩ := h.inv
  refine ⟨⟨?_, ⟨l' ++ ⟨some (.func f), body.length + 1, false⟩ :: body, by simp, ?_⟩, ?_, ?_, ?_,
    hlaid.structs⟩, fun n hn => hobj n (h.grown n hn)⟩
  · rw [hcount, hbody]
    simp
  · refine hl'.append (.whole (.small fun N hN => (hfunc N hN).1.le) (fun N hN => ?_) rfl)
    obtain ⟨h1, hval⟩ := hfunc N hN
    refine ⟨by omega, ?_⟩
    rcases hval with hval | ⟨i, hval⟩
    · exact .inl ⟨.func f, rfl, hval⟩
    · exact .inr ⟨f, i, hAT, rfl, hval⟩
  · exact fun C hC ht => hobj _ (hlaid.addrOf C hC ht)
  · exact fun v n hv => hobj _ (hlaid.objs v n hv)
  · exact fun name n hn => hobj _ (hlaid.stats name n hn)

end Taking

/-- Nodes pushed one by one. -/
theorem wp_pushAll {α : Type} {as : List α} {f : α → GenNode} {Q : Unit → Gen → Prop} {g : Gen} :
    Wp (as.forM fun a => pushNode (f a)) Q g ↔ Q () { g with nodes := g.nodes ++ as.map f } := by
  induction as generalizing g with
  | nil =>
      rw [List.map_nil, List.append_nil]
      rfl
  | cons a as ih =>
      change Wp (pushNode (f a) >>= fun _ => as.forM fun a => pushNode (f a)) Q g ↔ _
      rw [wp_bind, pushNode, wp_modify, ih]
      simp

theorem idTakenFunc_inv {f : Nat} {l : List GenNode} {g0 g : Gen} (h : Taking P k f l g0 g)
    (hAT : P.escapes k (.func f) = .ok true) :
    Wp (idTakenFunc P f l.length)
      (fun _ g' => Inv P k g' ∧ ∀ n, IsObj g0.nodes n → IsObj g'.nodes n) g := by
  have hret : ∀ N ∈ [1].map (fun sz => (⟨some (.func f), sz, false⟩ : GenNode)), FuncPart f N := by
    simp [FuncPart]
  have hargs : ∀ (m : Nat), ∀ N ∈ (List.range m).map
      (fun i => ({ val := some (.arg f i), objSz := 1 } : GenNode)), FuncPart f N := by
    simp [FuncPart]
  have hsame : Runs SameLayout ((List.range (P.func f).params.length).forM fun i => do
      setValNode (.arg f i) (l.length + funcNodeOffArg0 + i)
      modify fun g => { g with atArgs := insert (.arg f i) g.atArgs }) :=
    .forM fun i _ => .bind (.modify fun _ => ⟨rfl, rfl, rfl, rfl, rfl, rfl⟩) fun _ =>
      .modify fun _ => ⟨rfl, rfl, rfl, rfl, rfl, rfl⟩
  unfold idTakenFunc
  rw [wp_bind]
  apply (hsame g).imp
  intro _ g1 hg1
  have h1 := (h.same hg1).push hret rfl
  simp only [pushNodes, bump, wp_bind, wp_get, wp_lift, wp_modify]
  intro _ _ _ _
  -- the varargs come last
  have hend : ∀ g2, Taking P k f l g0 g2 → Wp (if (P.func f).isVarArg then do
        pushNodes (.func f) [1] false
        bump 1
        modify fun g => { g with nodes := g.nodes.modify l.length fun N =>
          { N with objSz := g.nextNode - l.length } }
      else modify fun g => { g with nodes := g.nodes.modify l.length fun N =>
          { N with objSz := g.nextNode - l.length } })
      (fun _ g' => Inv P k g' ∧ ∀ n, IsObj g0.nodes n → IsObj g'.nodes n) g2 := by
    intro g2 h2
    rw [wp_ite]
    exact ⟨fun _ => (h2.push hret rfl).finish hAT, fun _ => h2.finish hAT⟩
  rw [wp_ite]
  constructor
  · intro _
    rw [wp_bind, wp_lift]
    intro _ _
    rw [wp_bind, wp_pushAll]
    exact hend _ (h1.push (hargs (lastPtr P f + 1)) (by simp))
  · intro _
    exact hend _ h1

theorem idFunc_grown (f : Nat) : Runs (Grown P fuel) (idFunc P fuel f) := by
  apply runs_grown
  intro g h
  unfold idFunc
  rw [wp_bind, wp_lift]
  intro AT hAT
  rw [wp_ite]
  constructor
  · rintro rfl
    have hvalue : Grown P fuel g { g with
        nodes := g.nodes ++ [{ val := some (.func f) }], nextNode := g.nextNode + 1
        valNode := Function.update g.valNode (.func f) (some g.nextNode) } :=
      .valueNode (some (.func f)) rfl rfl rfl rfl rfl rfl
    obtain ⟨hinv, hgrow⟩ := hvalue h
    obtain ⟨hinv', hobj⟩ := (hinv.announced.enterObj (.func f)).object (.func f) flat_one false
    have honF : g.nextNode + 1 = (g.nodes ++ [({ val := some (.func f) } : GenNode)]).length := by
      simp [h.1]
    simp only [takeNode, bump, pushNode, setValNode, setObjNode, wp_bind, wp_get, wp_modify,
      wp_pure]
    apply (cons_inv hinv' fun _ => hobj).imp
    rintro _ g' ⟨hg', hnodes⟩
    have htaking : Taking P fuel f (g.nodes ++ [{ val := some (.func f) }]) g g' :=
      ⟨hg', fun n hn => hnodes ▸ (hgrow n hn).append _, hinv.2.blocks, [], hnodes, by simp⟩
    simp only [wp_ite, wp_pure]
    refine ⟨fun _ => ⟨hg', htaking.grown⟩, fun _ => ⟨fun _ => ?_, fun _ => ⟨fun _ => ?_, fun h => ?_⟩⟩⟩
    · apply (idMainArgs_grown f g').imp
      intro _ g'' hg''
      obtain ⟨hinv'', hgrow''⟩ := hg'' hg'
      exact ⟨hinv'', fun n hn => hgrow'' n (htaking.grown n hn)⟩
    · rw [honF]
      exact idTakenFunc_inv htaking hAT
    · exact absurd trivial h
  · intro hno
    have hrest : Runs (Grown P fuel) (if P.isExt f then pure ()
        else if (P.func f).name = "main" then idMainArgs P f else idPlainFunc P f) :=
      .ite (.pure _) (.ite (idMainArgs_grown f) (idPlainFunc_grown f))
    simp only [wp_bind, wp_pure, hno, if_false, Bool.false_eq_true]
    apply (hrest g).imp
    exact fun _ g' hg' => hg' h

/-! ## Instructions -/

theorem copyAll_grown (vnI : Nat) (ops : List Val) : Runs (Grown P k) (copyAll P fuel vnI ops) :=
  .forM fun op _ => .bind (getValNodeCptr_grown op) fun _ => consUnless0_grown (by decide)

theorem idRetInsn_grown (i : Nat) : Runs (Grown P k) (idRetInsn P fuel i) := by
  unfold idRetInsn
  split
  · exact .pure _
  · refine .ite (.bind (getRetNode_grown _) fun rnF => ?_) (.pure _)
    refine .bind (getValNodeCptr_grown _) fun vnS => .bind (.lift _) fun _ => ?_
    exact consUnless0_grown (by decide)

theorem anyCall_grown (i : Nat) : Runs (Grown P k) (match calleeOf (P.insts i) with
    | some f => if P.isExt f then idExtCall P fuel i f else idDirCall P fuel i f
    | none => idIndCall P fuel i) := by
  split
  · exact .ite (idExtCall_grown _ _) (idDirCall_grown _ _)
  · exact idIndCall_grown _

theorem idCallInsn_grown (i : Nat) : Runs (Grown P k) (idCallInsn P fuel i) :=
  .bind (findValNode_grown _) fun _ =>
    .ite (.bind (idCallObj_grown _ _) fun _ => anyCall_grown i) (anyCall_grown i)

theorem idAllocInsn_grown (i : Nat) : Runs (Grown P k) (idAllocInsn i) := by
  intro g
  simp only [idAllocInsn, setObjNode, wp_bind, wp_get, wp_modify, wp_throw]
  exact wp_true

theorem idLoadInsn_grown (i : Nat) : Runs (Grown P k) (idLoadInsn P fuel i) :=
  .bind (getValNode_grown _) fun _ => .bind (getValNodeCptr_grown _) fun _ =>
    consUnless0_grown (by decide)

theorem idStoreInsn_grown (i : Nat) : Runs (Grown P k) (idStoreInsn P fuel i) := by
  refine .ite (.bind (getValNodeCptr_grown _) fun vnD => ?_) (.pure _)
  exact .bind (getValNodeCptr_grown _) fun vnS => .ite (cons_grown (by decide)) (.pure _)

theorem idGepInsn_grown (i : Nat) : Runs (Grown P k) (idGepInsn P fuel i) := by
  refine .bind (getValNode_grown _) fun vnI => .ite (.ite (idI2pInsn_grown _) (.pure _)) ?_
  refine .bind (getValNodeCptr_grown _) fun vnS => .bind (.lift _) fun _ => ?_
  exact .bind (computeGepOff_grown _) fun off => cons_grown (by decide)

theorem idBitcastInsn_grown (i : Nat) : Runs (Grown P k) (idBitcastInsn P fuel i) := by
  refine .bind (getValNode_grown _) fun vnI => .bind (.lift _) fun _ => ?_
  exact .bind (getValNodeCptr_grown _) fun vnS => consUnless0_grown (by decide)

theorem idPhiInsn_grown (i : Nat) : Runs (Grown P k) (idPhiInsn P fuel i) :=
  .bind (getValNode_grown _) fun _ => copyAll_grown _ _

theorem idSelectInsn_grown (i : Nat) : Runs (Grown P k) (idSelectInsn P fuel i) := by
  refine .bind (getValNode_grown _) fun vnI => .bind (getValNodeCptr_grown _) fun vnS1 => ?_
  refine .bind (getValNodeCptr_grown _) fun vnS2 => ?_
  exact .bind (consUnless0_grown (by decide)) fun _ => consUnless0_grown (by decide)

theorem idVaargInsn_grown (i : Nat) : Runs (Grown P k) (idVaargInsn P i) := by
  refine .bind (getValNode_grown _) fun vnI => .bind (getVarargNode_grown _) fun vaF => ?_
  exact .bind (.lift _) fun _ => cons_grown (by decide)

theorem visitInsn_grown (i : Nat) : Runs (Grown P k) (visitInsn P fuel i) := by
  unfold visitInsn
  dsimp only
  split
  · exact .bind (.lift _) fun _ => idRetInsn_grown i
  · exact idCallInsn_grown i
  · exact idCallInsn_grown i
  · exact .bind (.lift _) fun _ => idAllocInsn_grown i
  · exact .ite (idLoadInsn_grown i) (.pure _)
  · exact .bind (.lift _) fun _ => idStoreInsn_grown i
  · exact .bind (.lift _) fun _ => idGepInsn_grown i
  · exact .bind (.lift _) fun _ => idI2pInsn_grown _
  · exact .ite (idBitcastInsn_grown i) (.pure _)
  · exact .ite (idPhiInsn_grown i) (.pure _)
  · exact .ite (idSelectInsn_grown i) (.pure _)
  · exact .ite (idVaargInsn_grown i) (.pure _)
  · exact .ite (.throw _) (.pure _)
  · exact .lift _

theorem processBlock_grown (f b : Nat) (seen : List Nat) :
    Runs (Grown P k) (processBlock P fuel f b seen) := by
  induction fuel generalizing b seen with
  | zero => exact .throw _
  | succ fuel ih =>
      unfold processBlock
      refine .ite (.pure _) ?_
      split
      · exact .pure _
      · refine .bind (.forM fun i _ => visitInsn_grown i) fun _ => ?_
        exact .foldlM _ fun b' _ seen => ih b' seen

theorem visitFunc_grown (f : Nat) : Runs (Grown P k) (visitFunc P fuel f) := by
  refine .bind (.forM fun i _ => .ite ?_ (.pure _)) fun _ =>
    .bind (processBlock_grown _ _ _) fun _ => .pure _
  intro g
  simp only [takeNode, bump, pushNode, setValNode, wp_bind, wp_get, wp_modify, wp_pure]
  exact .valueNode (some (.inst i)) rfl rfl rfl rfl rfl rfl

/-! ## The whole module -/

theorem specialNodes_inv : Wp specialNodes (fun _ g' => Inv P k g') Gen.empty := by
  have hlaid : Laid P k special [] (fun _ => none) (fun _ => none) fun _ => none :=
    ⟨⟨[], rfl, trivial⟩, by simp, by simp, by simp, fun _ _ h => nomatch h⟩
  unfold specialNodes
  simp only [wp_bind, wp_modify, wp_pushAll]
  have hinv : Inv P k { Gen.empty with nextNode := firstVarNode, nodes := special } := ⟨rfl, hlaid⟩
  exact (cons_inv hinv fun _ => hlaid.i2p_isObj).imp fun _ g' h => h.1

theorem globalInit_top_grown (i : Nat) : Runs (Grown P fuel) (match (P.global i).init with
    | some C => do
        let _ ← procGlobalInit P fuel (← getObjNode (.global i)) C true
    | none => pure ()) := by
  split
  · exact .bind (getObjNode_grown _) fun on => .bind (globalInit_grown.1 _ _ _) fun _ => .pure _
  · exact .pure _

/-- Everything that follows the special nodes. -/
theorem afterSpecial_grown : Runs (Grown P fuel) (do
    modify fun g => { g with maxStruct := .int, maxStructSz := 0 }
    P.named.forM fun s => analyzeStruct P fuel s
    (List.range P.funcs.length).forM fun f => idFunc P fuel f
    (List.range P.globals.length).forM fun i => idGlobal P fuel i
    (List.range P.globals.length).forM fun i =>
      match (P.global i).init with
      | some C => do
          let _ ← procGlobalInit P fuel (← getObjNode (.global i)) C true
      | none => pure ()
    (← get).gepCe.forM fun vn => procGepCe P fuel vn
    (List.range P.funcs.length).forM fun f =>
      if P.isExt f then pure () else visitFunc P fuel f
    let g ← get
    require (g.nextNode = g.nodes.length) "wrong node count") := by
  refine .bind (.modify fun _ => .same ⟨rfl, rfl, rfl, rfl, rfl, rfl⟩) fun _ => ?_
  refine .bind (.forM fun s _ => analyzeStruct_grown s) fun _ => ?_
  refine .bind (.forM fun f _ => idFunc_grown f) fun _ => ?_
  refine .bind (.forM fun i _ => idGlobal_grown i) fun _ => ?_
  refine .bind (.forM fun i _ => globalInit_top_grown i) fun _ => .bind .get fun _ => ?_
  refine .bind (.forM fun vn _ => globalInit_grown.2 vn) fun _ => ?_
  refine .bind (.forM fun f _ => .ite (.pure _) (visitFunc_grown f)) fun _ => ?_
  exact .bind .get fun _ => .lift _

theorem objConsId_inv : Wp (objConsId P fuel) (fun _ g' => Inv P fuel g') Gen.empty := by
  unfold objConsId
  rw [wp_bind]
  apply (specialNodes_inv : Wp _ (fun _ g' => Inv P fuel g') _).imp
  intro _ g hg
  exact (afterSpecial_grown g).imp fun _ g' hg' => (hg' hg).1

/-! ## Clumping -/

/-- The object blocks of a node list and the constraints over it. -/
structure ObjectBlocks (P : Ir) (fuel : Nat) (g : Gen) : Prop where
  /-- Only object nodes have their address taken. -/
  addrOf : ∀ C ∈ g.constraints, C.type = .addrOf → IsObj g.nodes C.src
  /-- A block exists and holds nodes of one object. -/
  inside : ∀ (i : Nat) (N : GenNode), g.nodes[i]? = some N → ∀ m < N.objSz,
    ∃ M, g.nodes[i + m]? = some M ∧ 0 < M.objSz ∧ (m ≠ 0 → SameObject P fuel N M)
  laminar : ∀ (i j : Nat) (N M : GenNode), g.nodes[i]? = some N → g.nodes[j]? = some M →
    i < j → j < i + N.objSz → j + M.objSz ≤ i + N.objSz

/-- Nested blocks in a list are blocks by index. -/
theorem ObjectBlocks.of_nested {g : Gen}
    (haddr : ∀ C ∈ g.constraints, C.type = .addrOf → IsObj g.nodes C.src)
    (h : Nested GenNode.objSz (SameObject P k) g.nodes) : ObjectBlocks P k g where
  addrOf := haddr
  inside := by
    intro i N hN m hm
    obtain ⟨hlen, hin⟩ := h.at_index hN
    by_cases h0 : m = 0
    · subst h0
      exact ⟨N, hN, hm, fun h => absurd rfl h⟩
    · have hlt : i + m < g.nodes.length := by omega
      have hM := List.getElem?_eq_getElem hlt
      obtain ⟨hpos, hsame, -⟩ := hin (i + m) _ hM (by omega) (by omega)
      exact ⟨g.nodes[i + m], hM, hpos, fun _ => hsame⟩
  laminar := by
    intro i j N M hN hM hij hlt
    exact ((h.at_index hN).2 j M hM hij hlt).2.2

theorem special_nested {l : List GenNode} (h : Nested GenNode.objSz (SameObject P k) l) :
    Nested GenNode.objSz (SameObject P k) (special ++ l) :=
  (Nested.small (by simp [special])).append h

theorem Inv.objectBlocks {g : Gen} (h : Inv P k g) : ObjectBlocks P k g := by
  obtain ⟨l, hl, hnest⟩ := h.2.blocks
  exact .of_nested h.2.addrOf (hl ▸ special_nested hnest)

/-- Nodes of one kind keep their order when they are picked out. -/
theorem filter_getElem {l : List GenNode} {p : GenNode → Bool} {i : Nat} {N : GenNode}
    (hN : l[i]? = some N) (hp : p N) : (l.filter p)[(l.take i).countP p]? = some N := by
  obtain ⟨hlt, rfl⟩ := List.getElem?_eq_some_iff.mp hN
  have hl : l.filter p = (l.take i).filter p ++ l[i] :: (l.drop (i + 1)).filter p := by
    conv_lhs => rw [← List.take_append_drop i l, ← List.getElem_cons_drop hlt]
    rw [List.filter_append, List.filter_cons_of_pos hp]
  rw [hl, List.countP_eq_length_filter, List.getElem?_append_right le_rfl]
  simp

/-- The node that was at `i` is at its new place. -/
theorem clumped_moveTo {nodes : List GenNode} {i : Nat} {N : GenNode} (hN : nodes[i]? = some N) :
    (clumped nodes)[moveTo nodes i]? = some N := by
  have hlt := (List.getElem?_eq_some_iff.mp hN).1
  unfold clumped moveTo
  by_cases hi : i < firstVarNode
  · rw [if_pos hi, List.append_assoc, List.getElem?_append_left (by simp; omega),
      List.getElem?_take_of_lt hi]
    exact hN
  · have hlen : (nodes.take firstVarNode).length = firstVarNode := by
      rw [List.length_take]
      omega
    have hvar : (nodes.drop firstVarNode)[i - firstVarNode]? = some N := by
      rw [List.getElem?_drop, show firstVarNode + (i - firstVarNode) = i by omega]
      exact hN
    have hget : nodes.getD i {} = N := by
      rw [List.getD_eq_getElem?_getD, hN]
      rfl
    rw [if_neg hi, hget]
    dsimp only
    by_cases hobj : isObj N = true
    · rw [if_pos hobj, List.append_assoc, List.getElem?_append_right (by omega), hlen,
        Nat.add_sub_cancel_left]
      have hin := filter_getElem hvar hobj
      rw [List.getElem?_append_left (List.getElem?_eq_some_iff.mp hin).1]
      exact hin
    · rw [if_neg hobj, List.getElem?_append_right (by simp [hlen, List.countP_eq_length_filter]),
        List.length_append, hlen, ← List.countP_eq_length_filter, Nat.add_sub_cancel_left]
      exact filter_getElem hvar (by simpa using hobj)

theorem clumped_nested {l : List GenNode} (h : Nested GenNode.objSz (SameObject P k) l) :
    Nested GenNode.objSz (SameObject P k) (clumped (special ++ l)) := by
  have hclumped : clumped (special ++ l) =
      special ++ (l.filter isObj ++ l.filter fun N => !isObj N) := by
    rw [clumped, show firstVarNode = special.length from rfl, List.take_left, List.drop_left,
      List.append_assoc]
  rw [hclumped]
  refine special_nested (h.filter.append (.small fun N hN => ?_))
  have hno := (List.mem_filter.mp hN).2
  simp only [isObj, Bool.not_eq_true', decide_eq_false_iff_not, not_not] at hno
  omega

theorem clumpReads_eq (entries : List Slot) (g : Gen) : Runs Eq (clumpReads entries g) := by
  have hread : ∀ n, Runs Eq (readMoveTo g n) := fun n => .lift _
  refine .bind (.forM fun C _ => .bind (hread _) fun _ => .bind (hread _) fun _ => .lift _) fun _ =>
    .bind (.forM fun a _ => ?_) fun _ =>
    .bind (.forM fun n _ => hread n) fun _ => .forM fun e _ => .bind (hread _) fun _ => hread _
  cases g.slots a with
  | none => exact .pure _
  | some n => exact hread n

theorem clumpAddrTaken_blocks {g : Gen} (h : Inv P k g) (entries : List Slot) :
    Wp (clumpAddrTaken entries) (fun _ g' => ObjectBlocks P k g') g := by
  unfold clumpAddrTaken
  rw [wp_bind, wp_get, wp_bind]
  apply (clumpReads_eq entries g g).imp
  rintro _ g' rfl
  simp only [wp_bind, wp_modify, wp_pure]
  obtain ⟨l, hl, hnest⟩ := h.2.blocks
  refine .of_nested ?_ ?_
  · intro C hC ht
    obtain ⟨C0, hC0, rfl⟩ := List.mem_map.mp hC
    obtain ⟨N, hN, hpos⟩ := h.2.addrOf C0 hC0 ht
    exact ⟨N, clumped_moveTo hN, hpos⟩
  · rw [hl]
    exact clumped_nested hnest

end

/-- The blocks of a module's objects, when its constraints are complete and after all object
nodes were moved to the front. -/
theorem objConsId_blocks (P : Ir) (fuel : Nat) (g : Gen)
    (hrun : objConsId P fuel Gen.empty = .ok ((), g)) :
    ObjectBlocks P fuel g ∧
      ∀ entries last g', clumpAddrTaken entries g = .ok (last, g') → ObjectBlocks P fuel g' := by
  have hinv := objConsId_inv.result hrun
  exact ⟨hinv.objectBlocks, fun entries last g' hclump =>
    (clumpAddrTaken_blocks hinv entries).result hclump⟩

/-- A global `{{i32, ptr}, ptr}` whose second field is the address of a function `ptr f(ptr)`. -/
def nestedGlobal : Ir where
  structs s := if s = 0 then [.int, .ptr .other] else [.struct 0, .ptr .other]
  named := [0, 1]
  funcs := [⟨"f", false, false, false, [.ptr .int], .ptr .int, [⟨[0], []⟩]⟩]
  globals := [⟨.struct 1, some (.struct 1 (.ofList [.struct 0 (.ofList [.num .int 0, .func 0]),
    .null (.ptr .other)])), false⟩]
  insts _ := ⟨.ret, .void, [.arg 0 0]⟩
  parent _ := (0, 0)
  users
    | .func 0 => [.struct 0 (.ofList [.num .int 0, .func 0])]
    | .arg 0 0 => [.inst 0]
    | _ => []
  extInfo _ := none
  setOrder := id
  ulongBits := 32

/-- A run returns with a state that passes a test. -/
def Passes {α : Type} (x : Run (α × Gen)) (p : Gen → Bool) : Bool :=
  match x with
  | .ok (_, g) => p g
  | .error _ => false

theorem Passes.state {α : Type} {x : Run (α × Gen)} {p : Gen → Bool} (h : Passes x p = true) :
    ∃ a g, x = .ok (a, g) ∧ p g = true := by
  cases x with
  | error e => cases h
  | ok t => exact ⟨t.1, t.2, rfl, h⟩

/-- The keys of its maps. -/
def nestedGlobalEntries : List Slot :=
  [.val (.func 0), .val (.global 0), .val (.arg 0 0), .obj (.func 0), .obj (.global 0)]

theorem objConsId_blocks_nested :
    ∃ g last g', objConsId nestedGlobal 20 Gen.empty = .ok ((), g) ∧
      ObjectBlocks nestedGlobal 20 g ∧
      clumpAddrTaken nestedGlobalEntries g = .ok (last, g') ∧
      ObjectBlocks nestedGlobal 20 g' := by
  have hboth : Passes (objConsId nestedGlobal 20 Gen.empty)
      (fun g => Passes (clumpAddrTaken nestedGlobalEntries g) fun _ => true) = true := by
    decide +kernel
  obtain ⟨_, g, hrun, hclump⟩ := Passes.state hboth
  obtain ⟨last, g', hclump, -⟩ := Passes.state hclump
  obtain ⟨hg, hg'⟩ := objConsId_blocks nestedGlobal 20 g hrun
  exact ⟨g, last, g', hrun, hg, hclump, hg' _ _ _ hclump⟩

end Gen

end PtrAnalysis
