import PtrAnalysis.Visit

/-!
# A rule for lazy cycle detection

Whatever else it does, `runLcd` changes the constraint graph in three ways: it
merges nodes, it points copy edges at representatives, and it pushes the root of
every component it merged. `LcdRules` lists what a property must survive to
survive a run of it. The same induction over the search shows that the recursion
and the walks over the edges come to an end, where the property bounds the nodes
in play.
-/

namespace PtrAnalysis

open Run PtrAnalysis.Graph

section

variable {W : Type}

/-- States that differ in nothing but the data of cycle detection. -/
structure LcdOnly (s s' : Solver W) : Prop where
  anders : s'.toAnders = s.toAnders
  wl : s'.wl = s.wl
  now : s'.now = s.now
  extSeen : s'.extSeen = s.extSeen

/-- The copy edges of `n` after those in `del` were replaced by those in `add`. -/
def moveEdges (s : Solver W) (n : Nat) (del add : Finset Nat) : Solver W :=
  s.modify n fun N => { N with copyTo := (N.copyTo \ del) ∪ add }

theorem moveEdges_nodes (s : Solver W) (n : Nat) (del add : Finset Nat) (m : Nat) :
    (moveEdges s n del add).nodes m = if m = n then
      { s.nodes n with copyTo := ((s.nodes n).copyTo \ del) ∪ add } else s.nodes m :=
  Function.update_apply ..

/-- Moving edges changes nothing else. -/
theorem moveEdges_node (s : Solver W) (n : Nat) (del add : Finset Nat) (m : Nat) :
    (moveEdges s n del add).nodes m =
      { s.nodes m with copyTo := ((moveEdges s n del add).nodes m).copyTo } := by
  rw [moveEdges_nodes]
  split
  · rename_i hm
    rw [hm]
  · rfl

/-- How many nodes the search has not seen yet. -/
def unseen (sz : Nat) (s : Solver W) : Nat :=
  ((Finset.range sz).filter fun m => s.lcdDfsId m = none).card

/-- The nodes the search has seen stay seen, sets stay together and edges stay. -/
structure LcdMono (s s' : Solver W) : Prop where
  seen : ∀ m, s'.lcdDfsId m = none → s.lcdDfsId m = none
  rep : ∀ x y, s.rep x = s.rep y → s'.rep x = s'.rep y
  edge : ∀ x y, s.Edge x y → s'.Edge x y

namespace LcdMono

variable {s s' s'' : Solver W}

theorem refl (s : Solver W) : LcdMono s s := ⟨fun _ => id, fun _ _ => id, fun _ _ => id⟩

/-- Nothing changed but the numbers, of which none got lost. -/
theorem ofSame (hg : s'.toGraph = s.toGraph)
    (hseen : ∀ m, s'.lcdDfsId m = none → s.lcdDfsId m = none) : LcdMono s s' :=
  ⟨hseen, fun _ _ h => by rwa [hg], fun _ _ h => by rwa [hg]⟩

theorem trans (h : LcdMono s s') (h' : LcdMono s' s'') : LcdMono s s'' :=
  ⟨fun m hm => h.seen m (h'.seen m hm), fun x y hxy => h'.rep x y (h.rep x y hxy),
    fun x y hxy => h'.edge x y (h.edge x y hxy)⟩

theorem unseen_le (h : LcdMono s s') (sz : Nat) : unseen sz s' ≤ unseen sz s :=
  Finset.card_le_card fun m hm => by
    rw [Finset.mem_filter] at hm ⊢
    exact ⟨hm.1, h.seen m hm.2⟩

end LcdMono

theorem setDfsId_id (s : Solver W) (n k m : Nat) :
    (setDfsId s n k).lcdDfsId m = if m = n then some k else s.lcdDfsId m :=
  Function.update_apply ..

theorem setDfsId_mono (s : Solver W) (n k : Nat) : LcdMono s (setDfsId s n k) where
  seen m hm := by
    rw [setDfsId_id] at hm
    split at hm
    · cases hm
    · exact hm
  rep _ _ h := h
  edge _ _ h := h

theorem setDfsId_lcdOnly (s : Solver W) (n k : Nat) : LcdOnly s (setDfsId s n k) :=
  ⟨rfl, rfl, rfl, rfl⟩

/-- Giving an unseen node a number leaves fewer unseen ones. -/
theorem unseen_set {s : Solver W} {n sz : Nat} (k : Nat) (hn : n < sz)
    (hs : s.lcdDfsId n = none) : unseen sz (setDfsId s n k) < unseen sz s := by
  refine Finset.card_lt_card (Finset.ssubset_iff_of_subset (fun m hm => ?_) |>.mpr ⟨n, ?_, ?_⟩)
  · rw [Finset.mem_filter] at hm ⊢
    exact ⟨hm.1, (setDfsId_mono s n k).seen m hm.2⟩
  · exact Finset.mem_filter.mpr ⟨Finset.mem_range.mpr hn, hs⟩
  · rw [Finset.mem_filter, setDfsId_id, if_pos rfl]
    exact fun h => by cases h.2

end

section

variable {W : Type} [Worklist W] [LawfulWorklist W]

/-- The conditions under which merging nodes and pushing the result keeps `P`.
`O n` is what holds while merged nodes wait for the push of `n`. -/
structure MergeRules (E : Stop → Prop) (P : Solver W → Prop) (O : Nat → Solver W → Prop) :
    Prop where
  permits : Permits E
  fueled : ∀ {s : Solver W} {n : Nat}, O n s → Fueled E s.toGraph
  weaken : ∀ {s : Solver W} {n : Nat}, P s → s.isRep n = true → O n s
  merge : ∀ {s : Solver W} {n m r : Nat} {g : Graph}, O n s → MergeRun s.toGraph n m g r →
    O r (s.withGraph g)
  push : ∀ {s s' : Solver W} {n : Nat}, O n s → s.isRep n = true → (∃ wl, s' = { s with wl }) →
    Live s' n → (∀ m, Live s m → Live s' m) → P s'

/-- The conditions under which a run of cycle detection keeps `P`: `valid a b`
holds of every copy edge from `a` to `b` there ever is, and `sz` bounds the valid
targets. -/
structure LcdRules (E : Stop → Prop) (P : Solver W → Prop) (O : Nat → Solver W → Prop)
    (valid : Nat → Nat → Prop) (sz : Nat) : Prop extends MergeRules E P O where
  lcd : ∀ {s s' : Solver W}, LcdOnly s s' → P s → P s'
  lcdO : ∀ {s s' : Solver W} {n : Nat}, LcdOnly s s' → O n s → O n s'
  edge : ∀ {s : Solver W} {a b : Nat}, P s → b ∈ (s.nodes a).copyTo → valid a b
  rep : ∀ {s : Solver W} {a b : Nat}, P s → valid a b → s.rep b ≠ a → valid a (s.rep b)
  move : ∀ {s : Solver W} {n : Nat} {del add : Finset Nat}, P s → s.isRep n = true →
    (∀ x ∈ del, s.rep x = s.rep n ∨ ∃ y ∈ add, s.rep y = s.rep x) →
    (∀ y ∈ add, valid n y ∧ s.Edge n y) → P (moveEdges s n del add)
  ends : E .fuel ∨ (∀ a b, valid a b → b < sz) ∧ ∀ s : Solver W, P s → s.size = sz

/-- A push changes nothing the search looks at. -/
theorem pushNode_mono {E : Stop → Prop} (hE : Permits E) (s : Solver W) (n : Nat) :
    Spec (pushNode s n) (LcdMono s) E :=
  (pushNode_spec hE s n).imp fun _ ⟨⟨_, h⟩, _⟩ => h ▸ .ofSame rfl fun _ => id

omit [Worklist W] [LawfulWorklist W] in
theorem withGraph_mono {s : Solver W} {n m r : Nat} {g : Graph} (h : MergeRun s.toGraph n m g r) :
    LcdMono s (s.withGraph g) :=
  ⟨fun _ => id, fun _ _ => h.spec.1.rep, fun _ _ => h.spec.1.edge⟩

omit [Worklist W] [LawfulWorklist W] in
/-- Moving edges keeps them, up to representatives. -/
theorem moveEdges_mono {s : Solver W} {n : Nat} {del add : Finset Nat} (hn : s.isRep n = true)
    (hdel : ∀ x ∈ del, s.rep x = s.rep n ∨ ∃ y ∈ add, s.rep y = s.rep x) :
    LcdMono s (moveEdges s n del add) := by
  refine ⟨fun _ => id, fun _ _ => id, fun x y hxy => ?_⟩
  rcases hxy with heq | ⟨e, he, hey⟩
  · exact .inl heq
  · by_cases hx : s.rep x = n
    · by_cases hd : e ∈ del
      · rcases hdel e hd with heq | ⟨z, hz, hze⟩
        · refine .inl (?_ : s.rep x = s.rep y)
          rw [hx, ← hey, heq]
          exact (rep_eq_self.mpr hn).symm
        · refine .inr ⟨z, ?_, hze.trans hey⟩
          rw [show (moveEdges s n del add).rep x = n from hx, moveEdges_nodes, if_pos rfl]
          exact Finset.mem_union_right _ hz
      · refine .inr ⟨e, ?_, hey⟩
        rw [show (moveEdges s n del add).rep x = n from hx, moveEdges_nodes, if_pos rfl]
        exact Finset.mem_union_left _ (Finset.mem_sdiff.mpr ⟨hx ▸ he, hd⟩)
    · refine .inr ⟨e, ?_, hey⟩
      rw [show (moveEdges s n del add).rep x = s.rep x from rfl, moveEdges_nodes, if_neg hx]
      exact he

namespace LcdRules

variable {E : Stop → Prop} {P : Solver W → Prop} {O : Nat → Solver W → Prop}
  {valid : Nat → Nat → Prop} {sz : Nat}

/-- What holds of the replaced edges of `n` while they are walked. -/
structure Walking (valid : Nat → Nat → Prop) (n : Nat) (s : Solver W) (e : LcdEdges) : Prop where
  del : ∀ x ∈ e.del, s.rep x = s.rep n ∨ ∃ y ∈ e.add, s.rep y = s.rep x
  add : ∀ y ∈ e.add, valid n y ∧ s.Edge n y
  it : e.it.Ahead fun b => valid n b ∧ s.Edge n b

omit [Worklist W] [LawfulWorklist W] in
theorem Walking.mono {n : Nat} {s s' : Solver W} {e : LcdEdges} (h : Walking valid n s e)
    (hm : LcdMono s s') : Walking valid n s' e where
  del x hx := (h.del x hx).imp (hm.rep _ _) fun ⟨y, hy, hxy⟩ => ⟨y, hy, hm.rep _ _ hxy⟩
  add y hy := (h.add y hy).imp id (hm.edge n y)
  it := ⟨h.it.sorted, h.it.ahead, fun b hb => (h.it.valid b hb).imp id (hm.edge n b)⟩

omit [Worklist W] [LawfulWorklist W] in
theorem lcdReplace_spec {n dest0 : Nat} {s : Solver W} {e : LcdEdges}
    (hE : Permits E) (h : Walking valid n s e)
    (hv : (s.rep dest0 ≠ n → valid n (s.rep dest0)) ∧ s.Edge n (s.rep dest0)) :
    Spec (lcdReplace n dest0 (s.rep dest0) e)
      (fun e' => Walking valid n s e' ∧ e'.it = e.it) E := by
  have hrr : s.rep (s.rep dest0) = s.rep dest0 := Forest.find_find ..
  unfold lcdReplace
  split
  · dsimp only
    split
    · rename_i hmem
      refine ⟨⟨fun x hx => ?_, h.add, h.it⟩, rfl⟩
      rcases Finset.mem_insert.mp hx with rfl | hx
      · exact .inr ⟨_, hmem, hrr⟩
      · exact h.del x hx
    · refine spec_require (fun _ => hE.assertion _ (by decide)) fun hne => ?_
      refine ⟨⟨fun x hx => ?_, fun y hy => ?_, h.it⟩, rfl⟩
      · rcases Finset.mem_insert.mp hx with rfl | hx
        · exact .inr ⟨_, Finset.mem_insert_self .., hrr⟩
        · rcases h.del x hx with hn | ⟨y, hy, hxy⟩
          · exact .inl hn
          · exact .inr ⟨y, Finset.mem_insert_of_mem hy, hxy⟩
      · rcases Finset.mem_insert.mp hy with rfl | hy
        · exact ⟨hv.1 hne, hv.2⟩
        · exact h.add y hy
  · exact ⟨h, rfl⟩

/-- The specification of a recursive call of `lcdDfs`. -/
def Visits (E : Stop → Prop) (P : Solver W → Prop) (sz bound : Nat)
    (visit : Solver W → Nat → Run (Solver W)) : Prop :=
  ∀ s n, P s → (E .fuel ∨ n < sz ∧ s.lcdDfsId n = none ∧ unseen sz s < bound) →
    Spec (visit s n) (fun s' => P s' ∧ LcdMono s s') E

theorem lcdEdge_spec (hr : LcdRules E P O valid sz) {visit : Solver W → Nat → Run (Solver W)}
    {bound n dest0 : Nat} {s : Solver W} {e : LcdEdges} (hvisit : Visits E P sz bound visit)
    (hP : P s) (hn : s.isRep n = true) (he : Walking valid n s e)
    (hv : valid n dest0 ∧ s.Edge n dest0) (hb : E .fuel ∨ unseen sz s < bound) :
    Spec (lcdEdge visit n s e dest0) (fun t => P t.1 ∧ t.1.isRep n = true ∧ LcdMono s t.1 ∧
      Walking valid n t.1 t.2 ∧ t.2.it = e.it) E := by
  unfold lcdEdge
  refine spec_require (fun _ => hr.permits.assertion _ (by decide)) fun _ => ?_
  have hrr : s.rep (s.rep dest0) = s.rep dest0 := Forest.find_find ..
  have hedge : ∀ s1 : Solver W, s1.Edge n dest0 → s1.Edge n (s1.rep dest0) := fun s1 h =>
    h.imp (fun heq => by rw [heq, rep_rep]) fun ⟨e, he, hey⟩ => ⟨e, he, by rw [hey, rep_rep]⟩
  have hvr : s.rep dest0 ≠ n → valid n (s.rep dest0) := hr.rep hP hv.1
  dsimp only
  split
  · rename_i hdup
    refine ⟨hP, hn, .refl s, ⟨fun x hx => ?_, he.add, he.it⟩, rfl⟩
    rcases Finset.mem_insert.mp hx with rfl | hx
    · rcases hdup with hadd | hself
      · exact .inr ⟨_, hadd, hrr⟩
      · exact .inl (by rw [← hself, hrr])
    · exact he.del x hx
  · rename_i hnew
    split
    · refine (lcdReplace_spec hr.permits he ⟨hvr, hedge s hv.2⟩).bind fun e' he' => ?_
      exact ⟨hP, hn, .refl s, he'.1, he'.2⟩
    · -- the node behind the edge, visited or not, and the rest of the edge
      have hrest : ∀ s1 : Solver W, P s1 → s1.isRep n = true → LcdMono s s1 → Spec (do
          let s2 := setDfsId s1 (s1.rep dest0) (dfsId s1 (s1.rep dest0))
          let s3 := if dfsId s1 (s1.rep dest0) < dfsId s2 n then
            setDfsId s2 n (dfsId s1 (s1.rep dest0)) else s2
          return (s3, ← lcdReplace n dest0 (s1.rep dest0) e))
          (fun t => P t.1 ∧ t.1.isRep n = true ∧ LcdMono s t.1 ∧ Walking valid n t.1 t.2 ∧
            t.2.it = e.it) E := by
        intro s1 hP1 hn1 hm
        have hs2 := setDfsId_lcdOnly s1 (s1.rep dest0) (dfsId s1 (s1.rep dest0))
        refine (lcdReplace_spec hr.permits (he.mono hm) ⟨hr.rep hP1 hv.1,
          hedge s1 (hm.edge n dest0 hv.2)⟩).bind fun e' he1 => ?_
        obtain ⟨he', hit⟩ := he1
        have hm2 := hm.trans (setDfsId_mono s1 (s1.rep dest0) (dfsId s1 (s1.rep dest0)))
        split
        · exact ⟨hr.lcd (setDfsId_lcdOnly ..) (hr.lcd hs2 hP1), hn1, hm2.trans (setDfsId_mono ..),
            ⟨he'.del, he'.add, he'.it⟩, hit⟩
        · exact ⟨hr.lcd hs2 hP1, hn1, hm2, ⟨he'.del, he'.add, he'.it⟩, hit⟩
      split
      · rename_i hnone
        have hb' : E .fuel ∨ s.rep dest0 < sz ∧ s.lcdDfsId (s.rep dest0) = none ∧
            unseen sz s < bound := by
          rcases hr.ends with hf | ⟨hlt, -⟩
          · exact .inl hf
          · exact hb.imp id fun h => ⟨hlt _ _ (hvr fun he => hnew (.inr he)), Option.isNone_iff_eq_none.mp hnone, h⟩
        refine (hvisit s _ hP hb').bind fun s1 hs1 => ?_
        obtain ⟨hP1, hm⟩ := hs1
        refine spec_inRange (fun _ => hr.permits.copyTo) fun hn1 => ?_
        rw [hm.rep _ _ hrr]
        exact hrest s1 hP1 hn1 hm
      · exact hrest s hP hn (.refl s)

theorem lcdWalk_spec (hr : LcdRules E P O valid sz) {visit : Solver W → Nat → Run (Solver W)}
    {bound n : Nat} (hvisit : Visits E P sz bound visit) :
    ∀ (steps : Nat) {s : Solver W} {e : LcdEdges}, P s → s.isRep n = true → Walking valid n s e →
      (E .fuel ∨ unseen sz s < bound ∧ 0 < steps ∧ sz < steps + e.it.pos) →
      Spec (lcdWalk visit n steps s e)
        (fun t => P t.1 ∧ LcdMono s t.1 ∧ Walking valid n t.1 t.2) E
  | 0, s, e, _, _, _, hb => hb.resolve_right fun h => by omega
  | steps + 1, s, e, hP, hrep, he, hb => by
      rw [lcdWalk]
      cases hn : e.it.next (s.nodes n).copyTo with
      | none => exact ⟨hP, .refl s, he⟩
      | some t =>
          obtain ⟨dest0, it⟩ := t
          have hlive : ∀ b ∈ (s.nodes n).copyTo, valid n b ∧ s.Edge n b := fun b hb =>
            ⟨hr.edge hP hb, .inr ⟨b, (rep_eq_self.mpr hrep).symm ▸ hb, rfl⟩⟩
          obtain ⟨hv, hpos, hpos', hit⟩ := he.it.next hlive hn
          refine (lcdEdge_spec hr (e := { e with it }) hvisit hP hrep ⟨he.del, he.add, hit⟩ hv
            (hb.imp id And.left)).bind fun t ⟨hP1, hrep1, hm1, he1, hit1⟩ => ?_
          refine (lcdWalk_spec hr hvisit steps hP1 hrep1 he1 ?_).imp fun t' ⟨hP2, hm2, he2⟩ =>
            ⟨hP2, hm1.trans hm2, he2⟩
          rcases hr.ends with hf | ⟨hlt, -⟩
          · exact .inl hf
          · refine hb.imp id fun ⟨hu, _, hs⟩ => ?_
            have := hm1.unseen_le sz
            have := hlt n dest0 hv.1
            rw [hit1]
            change _ ∧ _ ∧ sz < _ + it.pos
            omega

/-- What holds while a component is popped into `n`. -/
def Popping (P : Solver W → Prop) (O : Nat → Solver W → Prop) (n : Nat) (chg : Bool)
    (s : Solver W) : Prop :=
  s.isRep n = true ∧ (chg = false ∧ P s ∨ chg = true ∧ O n s)

theorem Popping.lcd (hr : LcdRules E P O valid sz) {n : Nat} {chg : Bool} {s s' : Solver W}
    (hs : LcdOnly s s') (h : Popping P O n chg s) : Popping P O n chg s' := by
  refine ⟨by rw [hs.anders]; exact h.1, ?_⟩
  rcases h.2 with ⟨hc, hP⟩ | ⟨hc, hO⟩
  · exact .inl ⟨hc, hr.lcd hs hP⟩
  · exact .inr ⟨hc, hr.lcdO hs hO⟩

theorem lcdPop_spec (hr : LcdRules E P O valid sz) (ourDfs : Nat) :
    ∀ (stk : List Nat) {s : Solver W} {n : Nat} {chg : Bool}, Popping P O n chg s →
      Spec (lcdPop ourDfs stk s n chg) (fun t => LcdMono s t.1 ∧ Popping P O t.2.1 t.2.2 t.1) E
  | [], s, n, chg, h =>
      ⟨.ofSame rfl fun _ => id, h.lcd hr (s := s) ⟨rfl, rfl, rfl, rfl⟩⟩
  | n2 :: stk, s, n, chg, h => by
      rw [lcdPop]
      have hm1 := setDfsId_mono s n2 (dfsId s n2)
      have h1 := h.lcd hr (setDfsId_lcdOnly s n2 (dfsId s n2))
      dsimp only
      generalize setDfsId s n2 (dfsId s n2) = s1 at hm1 h1
      split
      · exact ⟨⟨hm1.seen, hm1.rep, hm1.edge⟩, h1.lcd hr (s := s1) ⟨rfl, rfl, rfl, rfl⟩⟩
      · have hO1 : O n s1 := h1.2.elim (fun h => hr.weaken h.2 h1.1) And.right
        split
        · refine (merge_run hr.permits (hr.fueled hO1) n (s1.rep n2)).bind fun t ht => ?_
          have hrep : t.1.isRep t.2 = true := by
            rw [← ht.spec.2.1]
            exact isRep_rep ..
          refine (lcdPop_spec hr ourDfs stk ⟨hrep, .inr ⟨rfl, hr.merge hO1 ht⟩⟩).imp
            fun t' ⟨hm2, h2⟩ => ⟨?_, h2⟩
          exact (hm1.trans (withGraph_mono ht)).trans hm2
        · exact (lcdPop_spec hr ourDfs stk ⟨h1.1, .inr ⟨rfl, hO1⟩⟩).imp fun t' ⟨hm2, h2⟩ =>
            ⟨hm1.trans hm2, h2⟩

theorem lcdDfs_spec (hr : LcdRules E P O valid sz) :
    ∀ fuel, Visits E P sz fuel (lcdDfs (W := W) fuel)
  | 0, s, n, _, hb => hb.resolve_right fun h => by omega
  | fuel + 1, s, n, hP, hb => by
      rw [lcdDfs]
      refine spec_require (fun _ => hr.permits.assertion _ (by decide)) fun _ => ?_
      refine spec_require (fun _ => hr.permits.assertion _ (by decide)) fun hrep0 => ?_
      dsimp only
      -- number the node
      have hP1 : P (setDfsId { s with currLcdDfs := s.currLcdDfs + 1 } n s.currLcdDfs) :=
        hr.lcd (s := s) ⟨rfl, rfl, rfl, rfl⟩ hP
      have hm1 : LcdMono s (setDfsId { s with currLcdDfs := s.currLcdDfs + 1 } n s.currLcdDfs) :=
        .ofSame rfl (setDfsId_mono ..).seen
      have hrep1 : (setDfsId { s with currLcdDfs := s.currLcdDfs + 1 } n s.currLcdDfs).isRep n =
        true := hrep0
      have hb1 : E .fuel ∨ n < sz ∧
          unseen sz (setDfsId { s with currLcdDfs := s.currLcdDfs + 1 } n s.currLcdDfs) < fuel := by
        refine hb.imp id fun ⟨hn, hnone, hu⟩ => ⟨hn, ?_⟩
        have hlt : unseen sz (setDfsId { s with currLcdDfs := s.currLcdDfs + 1 } n s.currLcdDfs)
          < unseen sz s := unseen_set (s := { s with currLcdDfs := s.currLcdDfs + 1 }) _ hn hnone
        omega
      generalize setDfsId { s with currLcdDfs := s.currLcdDfs + 1 } n s.currLcdDfs = s1
        at hP1 hm1 hrep1 hb1
      have hsteps : E .fuel ∨ unseen sz s1 < fuel ∧ 0 < s1.size + 1 ∧ sz < s1.size + 1 + 0 := by
        rcases hr.ends with hf | ⟨-, hsz⟩
        · exact .inl hf
        · exact hb1.imp id fun h => ⟨h.2, by omega, by rw [hsz s1 hP1]; omega⟩
      refine (lcdWalk_spec hr (lcdDfs_spec hr fuel) (s1.size + 1) hP1 hrep1
        ⟨fun x hx => by simp at hx, fun y hy => by simp at hy, BitIter.start_ahead _⟩
        hsteps).bind fun t ⟨hP2, hm2, hw⟩ => ?_
      refine spec_require (fun _ => hr.permits.assertion _ (by decide)) fun hrep => ?_
      -- replace the edges
      have hP3 := hr.move hP2 hrep hw.del hw.add
      have hm3 : LcdMono s (moveEdges t.1 n t.2.del t.2.add) :=
        (hm1.trans hm2).trans (moveEdges_mono hrep hw.del)
      have hrep3 : (moveEdges t.1 n t.2.del t.2.add).isRep n = true := hrep
      change Spec (if dfsId (moveEdges t.1 n t.2.del t.2.add) n = s.currLcdDfs then _ else _) _ _
      split
      · refine (lcdPop_spec hr s.currLcdDfs _ (n := n) ⟨hrep3, .inl ⟨rfl, hP3⟩⟩).bind
          fun u ⟨hm4, hu⟩ => ?_
        have hm5 : LcdMono s { u.1 with lcdRoots := insert u.2.1 u.1.lcdRoots } :=
          (hm3.trans hm4).trans (.ofSame rfl fun _ => id)
        unfold pushIf
        obtain ⟨hrep5, ⟨hc, hP4⟩ | ⟨hc, hO⟩⟩ := hu
        · rw [hc, if_neg (by decide)]
          exact ⟨hr.lcd (s := u.1) ⟨rfl, rfl, rfl, rfl⟩ hP4, hm5⟩
        · rw [hc, if_pos rfl]
          have hO5 : O u.2.1 { u.1 with lcdRoots := insert u.2.1 u.1.lcdRoots } :=
            hr.lcdO (s := u.1) ⟨rfl, rfl, rfl, rfl⟩ hO
          refine ((pushNode_spec hr.permits _ u.2.1).and (pushNode_mono hr.permits _ _)).imp ?_
          rintro s' ⟨⟨hwl, hpushed, hlive⟩, hm6⟩
          exact ⟨hr.push hO5 hrep5 hwl hpushed hlive, hm5.trans hm6⟩
      · exact ⟨hr.lcd (s := moveEdges t.1 n t.2.del t.2.add) ⟨rfl, rfl, rfl, rfl⟩ hP3,
          hm3.trans (.ofSame rfl fun _ => id)⟩

end LcdRules

/-- A run of cycle detection keeps what the rules allow. -/
theorem runLcd_keeps {E : Stop → Prop} {P : Solver W → Prop} {O : Nat → Solver W → Prop}
    {valid : Nat → Nat → Prop} {sz : Nat} (hr : LcdRules E P O valid sz) {s : Solver W} (hP : P s)
    (hstart : E .fuel ∨ ∀ n ∈ s.lcdStarts, n < sz) : Spec (runLcd s) P E := by
  unfold runLcd
  dsimp only
  refine Spec.bind (Q := P) (spec_foldlM_keeps (hr.lcd (s := s) ⟨rfl, rfl, rfl, rfl⟩ hP)
    fun n hn c hc => ?_) fun s' hs' => ?_
  · split
    · rename_i hvisit
      refine (LcdRules.lcdDfs_spec hr _ c n hc ?_).imp fun _ h => h.1
      rcases hr.ends with hf | ⟨-, hsz⟩
      · exact .inl hf
      · refine hstart.imp id fun h => ⟨h n (mem_ascending.mp hn),
          Option.isNone_iff_eq_none.mp hvisit.2, ?_⟩
        rw [hsz c hc]
        refine Nat.lt_succ_of_le ((Finset.card_filter_le ..).trans ?_)
        rw [Finset.card_range]
    · exact hc
  · refine spec_require (fun _ => hr.permits.assertion _ (by decide)) fun _ => ?_
    exact hr.lcd (s := s') ⟨rfl, rfl, rfl, rfl⟩ hs'

end

section

variable {W : Type} [Worklist W] [LawfulWorklist W]

theorem LcdOnly.live {s s' : Solver W} {n : Nat} (h : LcdOnly s s') : Live s' n ↔ Live s n := by
  unfold Live
  rw [h.wl, h.anders]

end

end PtrAnalysis
