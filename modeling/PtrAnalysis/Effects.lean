import PtrAnalysis.Merge
import PtrAnalysis.Solve

/-!
# What the functions of a visit do

Behind the merges a visit only adds: copy edges, points-to facts, entries on the
worklist and handled external calls. `Demand` says which; `Grows` relates the
states before and after, and every function between `addCopyEdge` and
`solveProp` has one lemma of the form "it grows the state by this demand". All
later arguments - nothing is lost, nothing is invented, it comes to an end,
no table is overrun - use these lemmas instead of the functions.
-/

namespace PtrAnalysis

open Run

/-! ## Demands -/

/-- The copy edges and points-to facts a function is to add, and the calls of
external functions it is to handle. -/
structure Demand where
  edge : Nat → Nat → Prop
  fact : Nat → Nat → Prop
  ext : Nat × Nat → Prop

namespace Demand

def nothing : Demand := ⟨fun _ _ => False, fun _ _ => False, fun _ => False⟩

def edge1 (a b : Nat) : Demand := { nothing with edge := fun x y => x = a ∧ y = b }

def facts (n : Nat) (x : Finset Nat) : Demand :=
  { nothing with fact := fun m o => m = n ∧ o ∈ x }

def ext1 (p : Nat × Nat) : Demand := { nothing with ext := fun q => q = p }

def both (D D' : Demand) : Demand :=
  ⟨fun a b => D.edge a b ∨ D'.edge a b, fun n o => D.fact n o ∨ D'.fact n o,
    fun p => D.ext p ∨ D'.ext p⟩

/-- The demands of all members of a list. -/
def each {α : Type} (f : α → Demand) (l : List α) : Demand :=
  ⟨fun a b => ∃ x ∈ l, (f x).edge a b, fun n o => ∃ x ∈ l, (f x).fact n o,
    fun p => ∃ x ∈ l, (f x).ext p⟩

@[ext] theorem ext' {D D' : Demand} (h1 : ∀ a b, D.edge a b ↔ D'.edge a b)
    (h2 : ∀ n o, D.fact n o ↔ D'.fact n o) (h3 : ∀ p, D.ext p ↔ D'.ext p) : D = D' := by
  cases D
  cases D'
  simp only [mk.injEq]
  exact ⟨funext₂ fun a b => propext (h1 a b), funext₂ fun n o => propext (h2 n o),
    funext fun p => propext (h3 p)⟩

@[simp] theorem each_nil {α : Type} (f : α → Demand) : each f [] = nothing := by
  ext <;> simp [each, nothing]

theorem each_singleton {α : Type} (f : α → Demand) (x : α) : each f [x] = f x := by
  ext <;> simp [each]

@[simp] theorem both_nothing (D : Demand) : both D nothing = D := by
  ext <;> simp [both, nothing]

@[simp] theorem nothing_both (D : Demand) : both nothing D = D := by
  ext <;> simp [both, nothing]

theorem each_append {α : Type} (f : α → Demand) (l : List α) (x : α) :
    each f (l ++ [x]) = both (each f l) (f x) := by
  ext <;> simp [each, both, or_and_right, exists_or]

end Demand

/-- The edges `handleExt` can add for call `i`, over representatives. -/
def MayExtEdge (M : Module) (rep : Nat → Nat) (i a b : Nat) : Prop :=
  ∃ vn, (M.callSite i).valNode = some vn ∧ vn ≠ 0 ∧ b = rep vn ∧
    ∃ src ∈ (M.callSite i).args, a = rep (src.valNode.getD 0)

/-- The facts `handleExt` can add for call `i`. -/
def MayExtFact (M : Module) (rep : Nat → Nat) (last i n o : Nat) : Prop :=
  ∃ vn, (M.callSite i).valNode = some vn ∧ vn ≠ 0 ∧ n = rep vn ∧ o ≠ 0 ∧
    (o < last + 1 ∧ ((M.callSite i).objNode = some o ∨ o = i2p))

namespace Demand

/-- All edges a demand can lead to. -/
def MayEdge (M : Module) (rep : Nat → Nat) (D : Demand) (a b : Nat) : Prop :=
  D.edge a b ∨ ∃ p, D.ext p ∧ MayExtEdge M rep p.2 a b

/-- All facts a demand can lead to, beside those that flow along edges. -/
def MayFact (M : Module) (rep : Nat → Nat) (last : Nat) (D : Demand) (n o : Nat) : Prop :=
  D.fact n o ∨ ∃ p, D.ext p ∧ MayExtFact M rep last p.2 n o

section May

variable {M : Module} {rep : Nat → Nat} {last : Nat} {D D' : Demand}

theorem MayEdge.mono {a b : Nat} (h : D.MayEdge M rep a b) (hedge : ∀ a b, D.edge a b → D'.edge a b)
    (hext : ∀ p, D.ext p → D'.ext p) : D'.MayEdge M rep a b :=
  h.imp (hedge a b) fun ⟨p, hp, hm⟩ => ⟨p, hext p hp, hm⟩

theorem MayFact.mono {n o : Nat} (h : D.MayFact M rep last n o)
    (hfact : ∀ n o, D.fact n o → D'.fact n o) (hext : ∀ p, D.ext p → D'.ext p) :
    D'.MayFact M rep last n o :=
  h.imp (hfact n o) fun ⟨p, hp, hm⟩ => ⟨p, hext p hp, hm⟩

end May

end Demand

/-! ## Growing states -/

/-- A node without what grows during a visit. -/
def Node.still (N : Node) : Node := { N with pointsTo := ∅, copyTo := ∅ }

def Anders.withNodes (a : Anders) (nodes : Nat → Node) : Anders := { a with nodes }

section

variable {W : Type} [Worklist W] [LawfulWorklist W]

/-- The worklist has an entry for `n` that is not discarded when it is popped
while `n` is a representative. -/
def Live (s : Solver W) (n : Nat) : Prop :=
  ∃ p, LawfulWorklist.Mem s.wl n p ∧ (Worklist.usesPrio W = true → (s.nodes n).vtime ≤ p)

/-- Whether `addCopyEdge` looks at an edge at all. -/
def ProperEdge (a b : Nat) : Prop := a ≠ i2p ∧ b ≠ i2p ∧ a ≠ b

/-- `s'` is `s` with the edges, facts and external calls of `D` added, and every
node whose points-to set changed is on the worklist or in `owed`. -/
structure Grows (M : Module) (D : Demand) (owed : Nat → Prop) (s s' : Solver W) : Prop where
  frame : s'.toAnders = s.toAnders.withNodes s'.nodes
  still : ∀ n, (s'.nodes n).still = (s.nodes n).still
  pts_mono : ∀ n, s.pts n ⊆ s'.pts n
  copy_mono : ∀ n, (s.nodes n).copyTo ⊆ (s'.nodes n).copyTo
  copy_new : ∀ a b, b ∈ (s'.nodes a).copyTo → b ∈ (s.nodes a).copyTo ∨
    (D.MayEdge M s.rep a b ∧ ProperEdge a b ∧ s.pts a ⊆ s'.pts b)
  copy_all : ∀ a b, D.edge a b → ProperEdge a b → b ∈ (s'.nodes a).copyTo
  facts : ∀ n o, D.fact n o → o ∈ s'.pts n
  least : ∀ P : Nat → Nat → Prop, (∀ n o, o ∈ s.pts n → P n o) →
    (∀ a b o, D.MayEdge M s.rep a b → ProperEdge a b → P a o → P b o) →
    (∀ n o, D.MayFact M s.rep s.lastObjNode n o → P n o) → ∀ n o, o ∈ s'.pts n → P n o
  ext_new : ∀ p, p ∈ s'.extSeen → p ∈ s.extSeen ∨ D.ext p
  ext_mono : s.extSeen ⊆ s'.extSeen
  ext_all : ∀ p, D.ext p → p ∈ s'.extSeen
  pushed : ∀ n, s'.pts n ≠ s.pts n → Live s' n ∨ owed n
  live : ∀ n, Live s n → Live s' n
  /-- Only nodes that point to something and have copy edges become candidates of cycle
  detection. -/
  starts : ∀ n ∈ s'.lcdStarts, n ∈ s.lcdStarts ∨ s'.pts n ≠ ∅ ∧ (s'.nodes n).copyTo ≠ ∅
  stk : s'.lcdStk = s.lcdStk

namespace Grows

variable {M : Module} {D D' : Demand} {owed owed' : Nat → Prop} {s s' s'' : Solver W}

theorem forest (h : Grows M D owed s s') : s'.forest = s.forest := by rw [h.frame]; rfl

theorem rep (h : Grows M D owed s s') : s'.rep = s.rep := by
  funext n
  simp only [Graph.rep, h.forest]

theorem isRep (h : Grows M D owed s s') : s'.isRep = s.isRep := by
  funext n
  simp only [Graph.isRep, h.forest]

theorem vtime (h : Grows M D owed s s') (n : Nat) : (s'.nodes n).vtime = (s.nodes n).vtime := by
  have hv := congrArg Node.vtime (h.still n)
  exact hv

theorem prev (h : Grows M D owed s s') (n : Nat) : s'.prev n = s.prev n := by
  have hv := congrArg Node.prevPointsTo (h.still n)
  exact hv

theorem refl (s : Solver W) : Grows M .nothing owed s s where
  frame := rfl
  still _ := rfl
  pts_mono _ := Finset.Subset.refl _
  copy_mono _ := Finset.Subset.refl _
  copy_new _ _ h := .inl h
  copy_all _ _ h := h.elim
  facts _ _ h := h.elim
  least _ h _ _ := h
  ext_new _ h := .inl h
  ext_mono := Finset.Subset.refl _
  ext_all _ h := h.elim
  pushed _ h := absurd rfl h
  live _ h := h
  starts _ h := .inl h
  stk := rfl

theorem trans (h : Grows M D owed s s') (h' : Grows M D' owed' s' s'') :
    Grows M (D.both D') (fun n => owed n ∨ owed' n) s s'' where
  frame := by rw [h'.frame, h.frame]; rfl
  still n := (h'.still n).trans (h.still n)
  pts_mono n := (h.pts_mono n).trans (h'.pts_mono n)
  copy_mono n := (h.copy_mono n).trans (h'.copy_mono n)
  copy_new a b hb := by
    rcases h'.copy_new a b hb with hb' | ⟨hm, hp, hf⟩
    · rcases h.copy_new a b hb' with hold | ⟨hm, hp, hf⟩
      · exact .inl hold
      · exact .inr ⟨hm.mono (fun _ _ => .inl) (fun _ => .inl), hp, hf.trans (h'.pts_mono b)⟩
    · rw [h.rep] at hm
      exact .inr ⟨hm.mono (fun _ _ => .inr) (fun _ => .inr), hp, (h.pts_mono a).trans hf⟩
  copy_all a b hD hp := hD.elim (fun hD => h'.copy_mono a (h.copy_all a b hD hp))
    (fun hD => h'.copy_all a b hD hp)
  facts n o hD := hD.elim (fun hD => h'.pts_mono n (h.facts n o hD)) (h'.facts n o)
  least P h0 hedge hfact := by
    have hlast : s'.lastObjNode = s.lastObjNode := by rw [h.frame]; rfl
    refine h'.least P (h.least P h0 (fun a b o hm => hedge a b o ?_) fun n o hm => hfact n o ?_)
      (fun a b o hm => hedge a b o ?_) fun n o hm => hfact n o ?_
    · exact hm.mono (fun _ _ => .inl) (fun _ => .inl)
    · exact hm.mono (fun _ _ => .inl) (fun _ => .inl)
    · rw [h.rep] at hm
      exact hm.mono (fun _ _ => .inr) (fun _ => .inr)
    · rw [h.rep, hlast] at hm
      exact hm.mono (fun _ _ => .inr) (fun _ => .inr)
  ext_new p hp := (h'.ext_new p hp).elim (fun hp => (h.ext_new p hp).imp id .inl)
    (fun hp => .inr (.inr hp))
  ext_mono := h.ext_mono.trans h'.ext_mono
  ext_all p hD := hD.elim (fun hD => h'.ext_mono (h.ext_all p hD)) (h'.ext_all p)
  pushed n hn := by
    by_cases hn' : s''.pts n = s'.pts n
    · exact (h.pushed n (hn' ▸ hn)).imp (h'.live n) .inl
    · exact (h'.pushed n hn').imp id .inr
  live n hl := h'.live n (h.live n hl)
  starts n hn := (h'.starts n hn).elim (fun hn => (h.starts n hn).imp id fun ⟨hpts, hcopy⟩ =>
    ⟨fun hempty => hpts (Finset.subset_empty.mp (hempty ▸ h'.pts_mono n)),
      fun hempty => hcopy (Finset.subset_empty.mp (hempty ▸ h'.copy_mono n))⟩) .inr
  stk := h'.stk.trans h.stk

/-- Forget owed nodes that did not change, or are on the worklist anyway. -/
theorem settle (h : Grows M D owed s s') (ho : ∀ n, owed n → s'.pts n = s.pts n ∨ Live s' n ∨ owed' n) :
    Grows M D owed' s s' :=
  { h with
    pushed := fun n hn => (h.pushed n hn).elim .inl fun hw =>
      (ho n hw).resolve_left hn }

end Grows

/-! ## Pushing -/

/-- The reasons for which a visit may stop without touching the tables. -/
structure Permits (E : Stop → Prop) : Prop where
  assertion : ∀ text, text ≠ "off < geps.size() && geps[off] != bddfalse" → E (.assertion text)
  nodeVars : E (.outOfRange "node_vars")
  cplxCons : E (.outOfRange "cplx_cons")
  copyTo : E (.outOfRange "N->copy_to")

/-- All stops are permitted. -/
theorem permits_true : Permits fun _ => True := ⟨fun _ _ => trivial, trivial, trivial, trivial⟩

theorem Permits.list {E : Stop → Prop} (hE : Permits E) {e : Stop} (he : e ∈ listStops) : E e := by
  simp only [listStops, List.mem_cons, List.not_mem_nil, or_false] at he
  rcases he with rfl | rfl | rfl | rfl <;> exact hE.assertion _ (by decide)

variable {M : Module} {D : Demand} {owed : Nat → Prop} {s s' : Solver W} {E : Stop → Prop}
  {a b : Nat}

/-- A push changes nothing but the worklist, and `n` is live after it. -/
theorem pushNode_spec (hE : Permits E) (s : Solver W) (n : Nat) :
    Spec (pushNode s n) (fun s' => (∃ wl, s' = { s with wl }) ∧ Live s' n ∧
      ∀ m, Live s m → Live s' m) E := by
  unfold pushNode
  cases hw : Worklist.push s.wl n (s.nodes n).vtime with
  | error e => exact hE.list (LawfulWorklist.push_stop hw)
  | ok w =>
      obtain ⟨q, hq, hprio⟩ := LawfulWorklist.push_mem hw
      have hn : Live { s with wl := w } n := ⟨q, hq, fun hp => (hprio hp) ▸ Nat.le_refl _⟩
      refine ⟨⟨w, rfl⟩, hn, fun m ⟨p, hp, hv⟩ => ?_⟩
      by_cases hmn : m = n
      · rw [hmn]
        exact hn
      · exact ⟨p, LawfulWorklist.push_keeps hw hmn hp, hv⟩

theorem Grows.ofPush (hwl : ∃ wl, s' = { s with wl }) (hlive : ∀ m, Live s m → Live s' m) :
    Grows M .nothing owed s s' := by
  obtain ⟨wl, rfl⟩ := hwl
  have h : Grows M .nothing owed s s := .refl s
  exact { h with
    pushed := fun n hn => absurd rfl hn, live := hlive }

/-- After a push of `n` it is not owed any more. -/
theorem Grows.push (hE : Permits E) {n : Nat} {chg : Bool} (h : Grows M D owed s s')
    (ho : ∀ m, owed m → m = n ∧ chg = true) :
    Spec (pushIf chg s' n) (Grows M D (fun _ => False) s) E := by
  unfold pushIf
  split
  · refine (pushNode_spec hE s' n).imp fun s'' ⟨hwl, hn, hlive⟩ => ?_
    have hp : Grows M .nothing (fun _ => False) s' s'' := .ofPush hwl hlive
    have hg := h.trans hp
    rw [Demand.both_nothing] at hg
    refine hg.settle fun m hm => .inr (.inl ?_)
    rw [((ho m (hm.resolve_right id)).1)]
    exact hn
  · rename_i hc
    exact h.settle fun m hm => absurd (ho m hm).2 hc

/-! ## Edges and facts -/

omit [Worklist W] [LawfulWorklist W] in
theorem modify_nodes (s : Solver W) (n : Nat) (f : Node → Node) (m : Nat) :
    (s.modify n f).nodes m = if m = n then f (s.nodes n) else s.nodes m :=
  Function.update_apply ..

theorem Live.still {n : Nat} (hl : Live s n) (hwl : s'.wl = s.wl)
    (hs : (s'.nodes n).still = (s.nodes n).still) : Live s' n := by
  obtain ⟨p, hp, hv⟩ := hl
  have hvt := congrArg Node.vtime hs
  exact ⟨p, hwl ▸ hp, fun h => Nat.le_trans (Nat.le_of_eq hvt) (hv h)⟩

/-- A demand that the state meets already. -/
theorem Grows.stay (hedge : ∀ a b, D.edge a b → ProperEdge a b → b ∈ (s.nodes a).copyTo)
    (hfact : ∀ n o, D.fact n o → o ∈ s.pts n) (hext : ∀ p, D.ext p → p ∈ s.extSeen) :
    Grows M D owed s s :=
  have h : Grows M .nothing owed s s := .refl s
  { h with
    copy_new := fun _ _ h => .inl h
    copy_all := hedge
    facts := hfact
    least := fun _ h _ _ => h
    ext_new := fun _ h => .inl h
    ext_all := hext }

/-- The effect of new facts `x` for node `b` and perhaps of a new edge from `a`
to `b`, node by node. -/
theorem Grows.ofNodes {x : Finset Nat} (new : Nat → Nat → Prop)
    (hframe : s'.toAnders = s.toAnders.withNodes s'.nodes) (hwl : s'.wl = s.wl)
    (hseen : s'.extSeen = s.extSeen) (hstarts : s'.lcdStarts = s.lcdStarts)
    (hstk : s'.lcdStk = s.lcdStk)
    (hstill : ∀ m, (s'.nodes m).still = (s.nodes m).still)
    (hpts : ∀ m, s'.pts m = if m = b then s.pts b ∪ x else s.pts m)
    (hcopy : ∀ m c, c ∈ (s'.nodes m).copyTo ↔ c ∈ (s.nodes m).copyTo ∨ new m c)
    (hnew : ∀ m c, new m c → D.edge m c ∧ ProperEdge m c ∧ c = b ∧ s.pts m = x)
    (hall : ∀ m c, D.edge m c → ProperEdge m c → new m c)
    (hfact : ∀ m o, D.fact m o → m = b ∧ o ∈ x)
    (hx : (∃ a, new a b ∧ s.pts a = x) ∨ ∀ o ∈ x, D.fact b o)
    (hext : ∀ p, ¬ D.ext p) :
    Grows M D (fun m => m = b ∧ ¬ x ⊆ s.pts b) s s' := by
  have hmono : ∀ m, s.pts m ⊆ s'.pts m := fun m => by
    rw [hpts]
    split
    · rename_i h
      exact h ▸ Finset.subset_union_left
    · exact Finset.Subset.refl _
  have hb : x ⊆ s'.pts b := by
    rw [hpts, if_pos rfl]
    exact Finset.subset_union_right
  refine
    { frame := hframe, still := hstill, pts_mono := hmono
      copy_mono := fun m c hc => (hcopy m c).mpr (.inl hc)
      copy_new := fun m c hc => ((hcopy m c).mp hc).imp id fun hn => ?_
      copy_all := fun m c hD hp => (hcopy m c).mpr (.inr (hall m c hD hp))
      facts := fun m o hD => ?_, least := fun P h0 hedge hfacts m o ho => ?_
      ext_new := fun p hp => .inl (hseen ▸ hp), ext_mono := hseen ▸ Finset.Subset.refl _
      ext_all := fun p hp => absurd hp (hext p), pushed := fun m hm => ?_
      live := fun m hl => hl.still hwl (hstill m)
      starts := fun m hm => .inl (hstarts ▸ hm), stk := hstk }
  · obtain ⟨hD, hp, rfl, hm⟩ := hnew m c hn
    exact ⟨.inl hD, hp, hm ▸ hb⟩
  · obtain ⟨rfl, ho⟩ := hfact m o hD
    exact hb ho
  · rw [hpts] at ho
    split at ho
    · rename_i hm
      subst hm
      rcases Finset.mem_union.mp ho with ho | ho
      · exact h0 m o ho
      · rcases hx with ⟨c, hn, hc⟩ | hx
        · obtain ⟨hD, hp, -, -⟩ := hnew c m hn
          exact hedge c m o (.inl hD) hp (h0 c o (hc ▸ ho))
        · exact hfacts m o (.inl (hx o ho))
    · exact h0 m o ho
  · rw [hpts] at hm
    split at hm
    · rename_i h
      exact .inr ⟨h, fun hsub => hm (by rw [h]; exact Finset.union_eq_left.mpr hsub)⟩
    · exact absurd rfl hm

theorem addPts_grows (s : Solver W) (n : Nat) (x : Finset Nat) :
    Grows M (.facts n x) (fun m => m = n ∧ ¬ x ⊆ s.pts n) s (s.addPts n x) := by
  refine Grows.ofNodes (fun _ _ => False) rfl rfl rfl rfl rfl (fun m => ?_) (fun m => ?_)
    (fun m c => ?_) (fun _ _ h => h.elim) (fun _ _ h => h.elim) (fun m o h => h)
    (.inr fun o ho => ⟨rfl, ho⟩) fun _ h => h
  · simp only [Solver.addPts, modify_nodes]
    split
    · rename_i h
      rw [h]
      rfl
    · rfl
  · simp only [Solver.pts, Solver.addPts, modify_nodes]
    split <;> rfl
  · simp only [Solver.addPts, modify_nodes, or_false]
    split
    · rename_i h
      rw [h]
    · exact Iff.rfl

theorem addCopyEdge_grows (s : Solver W) (a b : Nat) :
    Grows M (.edge1 a b) (fun n => n = b ∧ (addCopyEdge s a b).2 = true) s
      (addCopyEdge s a b).1 := by
  unfold addCopyEdge
  split
  · rename_i himproper
    refine Grows.stay ?_ (fun _ _ h => h.elim) fun _ h => h.elim
    rintro x y ⟨rfl, rfl⟩ ⟨h1, h2, h3⟩
    exact absurd himproper (by simp [h1, h2, h3])
  · rename_i hproper
    have hp : ProperEdge a b := by
      simp only [not_or] at hproper
      exact ⟨hproper.1, hproper.2.1, hproper.2.2⟩
    split
    · rename_i hmem
      refine Grows.stay ?_ (fun _ _ h => h.elim) fun _ h => h.elim
      rintro x y ⟨rfl, rfl⟩ -
      exact hmem
    · simp only [decide_eq_true_eq]
      refine Grows.ofNodes (fun m c => m = a ∧ c = b) rfl rfl rfl rfl rfl (fun m => ?_)
        (fun m => ?_) (fun m c => ?_) ?_ (fun _ _ h _ => h) (fun _ _ h => h.elim) (.inl ⟨a, ⟨rfl, rfl⟩, rfl⟩)
        fun _ h => h
      · simp only [Solver.addPts, modify_nodes]
        grind [Node.still]
      · simp only [Solver.pts, Solver.addPts, modify_nodes]
        grind
      · simp only [Solver.addPts, modify_nodes]
        grind
      · rintro m c ⟨rfl, rfl⟩
        exact ⟨⟨rfl, rfl⟩, hp, rfl, rfl⟩

theorem addPtsPush_grows (hE : Permits E) (s : Solver W) (n : Nat) (x : Finset Nat) :
    Spec (addPtsPush s n x) (Grows M (.facts n x) (fun _ => False) s) E :=
  (addPts_grows s n x).push hE fun m hm => ⟨hm.1, by simpa using hm.2⟩

/-! ## External functions -/

omit [Worklist W] [LawfulWorklist W] in
theorem nodeVar_spec (hE : Permits E) (a : Anders) (n : Nat) :
    Spec (nodeVar a n) (fun v => v = {n} ∧ n < a.lastObjNode + 1) E :=
  spec_inRange (fun _ => hE.nodeVars) fun h => ⟨rfl, h⟩

theorem getNode_spec (hE : Permits E) (entry : Option Nat) {missing zero : String}
    (hm : missing ≠ "off < geps.size() && geps[off] != bddfalse")
    (hz : zero ≠ "off < geps.size() && geps[off] != bddfalse") :
    Spec (getNode entry missing zero) (fun n => entry = some n ∧ n ≠ 0) E := by
  unfold getNode
  cases entry with
  | none => exact hE.assertion _ hm
  | some n => exact spec_require (fun _ => hE.assertion _ hz) fun hne => ⟨rfl, hne⟩

/-- The facts and edges of call `i` make up the demand of handling it. -/
theorem Grows.handled {f i : Nat}
    (h : Grows M D owed { s with extSeen := insert (f, i) s.extSeen } s')
    (hext : ∀ p, ¬ D.ext p) (hedge : ∀ a b, D.edge a b → MayExtEdge M s.rep i a b)
    (hfact : ∀ n o, D.fact n o → MayExtFact M s.rep s.lastObjNode i n o) :
    Grows M (.ext1 (f, i)) owed s s' where
  frame := h.frame
  still := h.still
  pts_mono := h.pts_mono
  copy_mono := h.copy_mono
  copy_new a b hb := (h.copy_new a b hb).imp id fun ⟨hm, hp⟩ =>
    ⟨hm.elim (fun hD => .inr ⟨_, rfl, hedge a b hD⟩) fun ⟨p, hD, _⟩ => absurd hD (hext p), hp⟩
  copy_all _ _ hD := hD.elim
  facts _ _ hD := hD.elim
  least P h0 he hf := h.least P h0
    (fun a b o hm => he a b o (hm.elim (fun hD => .inr ⟨_, rfl, hedge a b hD⟩)
      fun ⟨p, hD, _⟩ => absurd hD (hext p)))
    fun n o hm => hf n o (hm.elim (fun hD => .inr ⟨_, rfl, hfact n o hD⟩)
      fun ⟨p, hD, _⟩ => absurd hD (hext p))
  ext_new p hp := by
    rcases h.ext_new p hp with hp | hp
    · exact (Finset.mem_insert.mp hp).symm
    · exact absurd hp (hext p)
  ext_mono := (Finset.subset_insert _ _).trans h.ext_mono
  ext_all p hD := h.ext_mono (Finset.mem_insert.mpr (.inl hD))
  pushed := h.pushed
  live := h.live
  starts := h.starts
  stk := h.stk

/-- Growth by some of the edges and facts that call `i` allows. -/
def GrowsByCall (M : Module) (i : Nat) (s s' : Solver W) : Prop :=
  ∃ D : Demand, (∀ p, ¬ D.ext p) ∧ (∀ a b, D.edge a b → MayExtEdge M s.rep i a b) ∧
    (∀ n o, D.fact n o → MayExtFact M s.rep s.lastObjNode i n o) ∧
    Grows M D (fun _ => False) s s'

theorem GrowsByCall.refl (M : Module) (i : Nat) (s : Solver W) : GrowsByCall M i s s :=
  ⟨.nothing, fun _ => id, fun _ _ => False.elim, fun _ _ => False.elim, .refl s⟩

theorem handleExtAlloc_grows (hE : Permits E) (s : Solver W) (i : Nat) :
    Spec (handleExtAlloc s (M.callSite i)) (GrowsByCall M i s) E := by
  unfold handleExtAlloc
  split
  · exact .refl M i s
  · refine (getNode_spec hE _ (by decide) (by decide)).bind fun vn ⟨hvn, hv0⟩ => ?_
    refine (getNode_spec hE _ (by decide) (by decide)).bind fun onD ⟨honD, ho0⟩ => ?_
    refine (nodeVar_spec hE s.toAnders onD).bind fun v ⟨hv, hlt⟩ => ?_
    refine (addPtsPush_grows (M := M) hE s (s.rep vn) v).imp fun s' hs' => ?_
    refine ⟨_, fun _ => id, fun _ _ => False.elim, ?_, hs'⟩
    rintro n o ⟨rfl, ho⟩
    rw [hv] at ho
    obtain rfl := Finset.mem_singleton.mp ho
    exact ⟨vn, hvn, hv0, rfl, ho0, hlt, .inl honD⟩

theorem handleExtArg_grows (hE : Permits E) (s : Solver W) (i iArg : Nat) :
    Spec (handleExtArg s (M.callSite i) iArg) (GrowsByCall M i s) E := by
  unfold handleExtArg
  split
  · exact .refl M i s
  · refine (getNode_spec hE _ (by decide) (by decide)).bind fun vn ⟨hvn, hv0⟩ => ?_
    split
    · exact .refl M i s
    · rename_i src hsrc
      dsimp only
      split
      · split
        · exact .refl M i s
        · refine ((addCopyEdge_grows (M := M) s _ _).push hE fun m hm => hm).imp fun s' hs' => ?_
          refine ⟨_, fun _ => id, ?_, fun _ _ => False.elim, hs'⟩
          rintro a b ⟨rfl, rfl⟩
          exact ⟨vn, hvn, hv0, rfl, src, List.mem_of_getElem? hsrc, rfl⟩
      · refine (nodeVar_spec hE s.toAnders i2p).bind fun v ⟨hv, hlt⟩ => ?_
        refine (addPtsPush_grows (M := M) hE s (s.rep vn) v).imp fun s' hs' => ?_
        refine ⟨_, fun _ => id, fun _ _ => False.elim, ?_, hs'⟩
        rintro n o ⟨rfl, ho⟩
        rw [hv] at ho
        obtain rfl := Finset.mem_singleton.mp ho
        exact ⟨vn, hvn, hv0, rfl, by decide, hlt, .inr rfl⟩

theorem handleExt_grows (hE : Permits E) (s : Solver W) (f i : Nat) :
    Spec (handleExt M s f i) (Grows M (.ext1 (f, i)) (fun _ => False) s) E := by
  unfold handleExt
  refine spec_require (fun _ => hE.assertion _ (by decide)) fun _ => ?_
  split
  · rename_i hseen
    exact Grows.stay (fun _ _ h => h.elim) (fun _ _ h => h.elim) fun p hp => hp ▸ hseen
  · set s1 : Solver W := { s with extSeen := insert (f, i) s.extSeen } with hs1
    have hdone : ∀ s', GrowsByCall M i s1 s' → Grows M (.ext1 (f, i)) (fun _ => False) s s' :=
      fun s' ⟨_, hext, hedge, hfact, hg⟩ => hg.handled hext hedge hfact
    have hskip := hdone s1 (.refl M i s1)
    dsimp only
    split
    · exact (handleExtAlloc_grows hE s1 i).imp hdone
    · exact (handleExtAlloc_grows hE s1 i).imp hdone
    · split
      · exact hskip
      · split
        · exact (handleExtAlloc_grows hE s1 i).imp hdone
        · exact (handleExtArg_grows hE s1 i 0).imp hdone
    · exact (handleExtArg_grows hE s1 i 0).imp hdone
    · exact (handleExtArg_grows hE s1 i 1).imp hdone
    · exact (handleExtArg_grows hE s1 i 2).imp hdone
    · exact (handleExtArg_grows hE s1 i 8).imp hdone
    · exact hskip

/-- A loop whose passes grow the state by the demands of their elements. -/
theorem Grows.loop {α : Type} {f : Solver W → α → Run (Solver W)} {d : α → Demand} {l : List α}
    (hf : ∀ a ∈ l, ∀ c, c.toAnders = s.toAnders.withNodes c.nodes →
      (∀ n, (c.nodes n).still = (s.nodes n).still) →
      Spec (f c a) (Grows M (d a) (fun _ => False) c) E) :
    Spec (l.foldlM f s) (Grows M (.each d l) (fun _ => False) s) E := by
  refine spec_foldlM (fun done c => Grows M (.each d done) (fun _ => False) s c)
    (by rw [Demand.each_nil]; exact .refl s) fun done a rest c hl hc => ?_
  refine (hf a (by simp [hl]) c hc.frame hc.still).imp fun c' hc' => ?_
  rw [Demand.each_append]
  exact (hc.trans hc').settle fun _ h => h.elim False.elim False.elim

theorem handleExts_grows (hE : Permits E) (s : Solver W) (f : Nat) (I : Finset Nat) :
    Spec (handleExts M s f I)
      (Grows M (.each (fun i => .ext1 (f, i)) (ascending I)) (fun _ => False) s) E :=
  Grows.loop fun i _ c _ _ => handleExt_grows hE c f i

/-! ## Loads and stores -/

/-- The demand of a load or store for the node `r` it accesses. -/
def lsDemand (load : Bool) (dest src r : Nat) : Demand :=
  if load then .edge1 r dest else .edge1 src r

/-- Handle a function, if there is one, for every call in `I`. -/
def extDemand (f : Option Nat) (I : Finset Nat) : Demand :=
  match f with
  | none => .nothing
  | some f => .each (fun i => .ext1 (f, i)) (ascending I)

/-- The demand of a load or store with offset for one pointee. -/
def lsOffDemand (a : Anders) (load : Bool) (dest src off : Nat) (I : Option (Finset Nat))
    (rn : Nat) : Demand :=
  match I with
  | none =>
      if rn ∈ a.funcNodeSet then .nothing else lsDemand load dest src (a.rep (rn + off))
  | some ins =>
      if rn ∉ a.funcNodeSet then .nothing
      else if rn ∈ a.extFuncNodeSet then extDemand ((a.nodes rn).val.bind Value.func?) ins
      else if load = false ∧ skipsParam a (a.rep (rn + off)) then .nothing
      else lsDemand load dest src (a.rep (rn + off))

theorem lsOffDemand_still {a a' : Anders} (hframe : a' = a.withNodes a'.nodes)
    (hstill : ∀ n, (a'.nodes n).still = (a.nodes n).still) (load : Bool) (dest src off : Nat)
    (I : Option (Finset Nat)) (rn : Nat) :
    lsOffDemand a' load dest src off I rn = lsOffDemand a load dest src off I rn := by
  have hval : ∀ n, (a'.nodes n).val = (a.nodes n).val := fun n => by
    have h := congrArg Node.val (hstill n)
    exact h
  have hskip : ∀ r, skipsParam a' r = skipsParam a r := fun r => by simp only [skipsParam, hval]
  have hrep : a'.rep = a.rep := by rw [hframe]; rfl
  have hfunc : a'.funcNodeSet = a.funcNodeSet := by rw [hframe]; rfl
  have hext : a'.extFuncNodeSet = a.extFuncNodeSet := by rw [hframe]; rfl
  unfold lsOffDemand
  rw [hval rn, hskip, hrep, hfunc, hext]

/-- What one pass of a loop over pointees guarantees, with the flag before and
after it: a changed target of a store is on the worklist, a changed destination
of a load is noted in the flag. -/
structure LsPass (M : Module) (D : Demand) (load : Bool) (dest : Nat) (t t' : Solver W × Bool) :
    Prop where
  grows : Grows M D (fun m => m = dest ∧ t'.2 = true) t.1 t'.1
  flag : t.2 = true → t'.2 = true
  store : load = false → t.2 = false → t'.2 = false

namespace LsPass

variable {load : Bool} {dest : Nat} {t t' t'' : Solver W × Bool} {D' : Demand}

theorem refl (t : Solver W × Bool) : LsPass M .nothing load dest t t :=
  ⟨.refl t.1, id, fun _ => id⟩

theorem trans (h : LsPass M D load dest t t') (h' : LsPass M D' load dest t' t'') :
    LsPass M (D.both D') load dest t t'' where
  grows := (h.grows.trans h'.grows).settle fun _ hn =>
    .inr (.inr (hn.elim (fun hn => ⟨hn.1, h'.flag hn.2⟩) id))
  flag hc := h'.flag (h.flag hc)
  store hl hc := h'.store hl (h.store hl hc)

end LsPass

theorem lsEdge_pass (hE : Permits E) (load : Bool) (dest src r : Nat) (t : Solver W × Bool) :
    Spec (lsEdge load dest src t r) (LsPass M (lsDemand load dest src r) load dest t) E := by
  obtain ⟨s, chg⟩ := t
  unfold lsEdge
  cases load with
  | true =>
      refine ⟨?_, fun h => ?_, fun h => by cases h⟩
      · refine (addCopyEdge_grows s r dest).settle fun _ hn => .inr (.inr ⟨hn.1, ?_⟩)
        exact Bool.or_eq_true_iff.mpr (.inr hn.2)
      · exact Bool.or_eq_true_iff.mpr (.inl h)
  | false =>
      refine ((addCopyEdge_grows (M := M) s src r).push hE fun _ hm => hm).bind fun s' hs' => ?_
      exact ⟨hs'.settle fun _ h => h.elim, id, fun _ => id⟩

theorem solveLsOffOne_pass (hE : Permits E) (load : Bool) (dest src off : Nat)
    (I : Option (Finset Nat)) (rn : Nat) (t : Solver W × Bool) :
    Spec (solveLsOffOne M load dest src off I t rn)
      (LsPass M (lsOffDemand t.1.toAnders load dest src off I rn) load dest t) E := by
  obtain ⟨s, chg⟩ := t
  unfold solveLsOffOne lsOffDemand
  cases I with
  | none =>
      dsimp only
      split
      · exact .refl _
      · exact lsEdge_pass hE ..
  | some ins =>
      refine spec_require (fun _ => hE.assertion _ (by decide)) fun _ => ?_
      dsimp only
      split
      · exact .refl _
      · split
        · cases (s.nodes rn).val.bind Value.func? with
          | none => exact .refl _
          | some f =>
              refine (handleExts_grows (M := M) hE s f ins).bind fun s' hs' => ?_
              exact ⟨hs'.settle fun _ h => h.elim, id, fun _ => id⟩
        · split
          · exact .refl _
          · exact lsEdge_pass hE ..

/-- A loop over pointees followed by the push of a changed destination. -/
theorem LsPass.loop (hE : Permits E) {f : Solver W × Bool → Nat → Run (Solver W × Bool)}
    (load : Bool) {dest : Nat} {d : Nat → Demand} {l : List Nat}
    (hf : ∀ (t : Solver W × Bool) x, x ∈ l → t.1.toAnders = s.toAnders.withNodes t.1.nodes →
      (∀ n, (t.1.nodes n).still = (s.nodes n).still) →
      Spec (f t x) (LsPass M (d x) load dest t) E) :
    Spec (l.foldlM f (s, false) >>= fun t => pushIf t.2 t.1 dest)
      (Grows M (.each d l) (fun _ => False) s) E := by
  have hloop : Spec (l.foldlM f (s, false)) (LsPass M (.each d l) load dest (s, false)) E := by
    refine spec_foldlM (fun done t => LsPass M (.each d done) load dest (s, false) t)
      (by rw [Demand.each_nil]; exact .refl _) fun done x rest t hl ht => ?_
    refine (hf t x (by simp [hl]) ht.grows.frame ht.grows.still).imp fun t' ht' => ?_
    rw [Demand.each_append]
    exact ht.trans ht'
  exact hloop.bind fun _ ht => ht.grows.push hE fun _ hm => hm

theorem solveLsPlain_grows (hE : Permits E) (s : Solver W) (d : Finset Nat) (load : Bool)
    (dest src : Nat) :
    Spec (solveLsPlain s d load dest src)
      (Grows M (.each (fun x => lsDemand load dest src (s.rep x)) (ascending d))
        (fun _ => False) s) E := by
  refine LsPass.loop hE load fun t x _ hframe _ => ?_
  have hrep : t.1.rep x = s.rep x := by rw [hframe]; rfl
  rw [← hrep]
  exact lsEdge_pass hE ..

theorem solveLsHcd_grows (hE : Permits E) (s : Solver W) (hcdRep : Nat) (load : Bool)
    (dest src : Nat) :
    Spec (solveLsHcd s hcdRep load dest src)
      (Grows M (lsDemand load dest src hcdRep) (fun _ => False) s) E :=
  (lsEdge_pass hE load dest src hcdRep (s, false)).bind fun _ ht =>
    ht.grows.push hE fun _ hm => hm

theorem solveLsOff_grows (hE : Permits E) (s : Solver W) (d : Finset Nat) (load : Bool)
    (dest src off : Nat) (I : Option (Finset Nat))
    (hoff : off < s.offMask.length ∨ E (.outOfRange "off_mask")) :
    Spec (solveLsOff M s d load dest src off I)
      (Grows M (.each (lsOffDemand s.toAnders load dest src off I)
        (ascending (offPointees s.toAnders d off I))) (fun _ => False) s) E := by
  unfold solveLsOff
  refine spec_inRange (fun h => hoff.resolve_left h) fun _ => ?_
  dsimp only
  split
  · rename_i hempty
    rw [hempty, ascending_empty, Demand.each_nil]
    exact .refl s
  · refine LsPass.loop hE load fun t x _ hframe hstill => ?_
    rw [← lsOffDemand_still hframe hstill]
    exact solveLsOffOne_pass hE ..

/-! ## Propagation -/

/-- The facts that go along the copy edges of `n`. -/
def propDemand (rep : Nat → Nat) (n : Nat) (d : Finset Nat) (edges : List Nat) : Demand :=
  .each (fun e => if rep e = n then .nothing else .facts (rep e) d) edges

theorem propDemand_fact {rep : Nat → Nat} {n : Nat} {d : Finset Nat} {edges : List Nat} {m o : Nat} :
    (propDemand rep n d edges).fact m o ↔ o ∈ d ∧ ∃ e ∈ edges, rep e = m ∧ m ≠ n := by
  unfold propDemand Demand.each
  dsimp only
  constructor
  · rintro ⟨e, he, hf⟩
    split at hf
    · exact hf.elim
    · rename_i hne
      obtain ⟨rfl, ho⟩ := hf
      exact ⟨ho, e, he, rfl, hne⟩
  · rintro ⟨ho, e, he, rfl, hne⟩
    exact ⟨e, he, by rw [if_neg hne]; exact ⟨rfl, ho⟩⟩

/-- Propagation adds facts only. -/
theorem propDemand_only {rep : Nat → Nat} {n : Nat} {d : Finset Nat} {edges : List Nat} :
    (∀ a b, ¬ (propDemand rep n d edges).edge a b) ∧ ∀ p, ¬ (propDemand rep n d edges).ext p := by
  unfold propDemand Demand.each
  dsimp only
  constructor
  · rintro a b ⟨e, -, h⟩
    split at h
    · exact h
    · exact h
  · rintro p ⟨e, -, h⟩
    split at h
    · exact h
    · exact h

/-- The bookkeeping of cycle detection is no growth. -/
theorem Grows.ofLcd {edges : Finset (Nat × Nat)} {starts : Finset Nat} (s : Solver W)
    (hnew : ∀ n ∈ starts, n ∈ s.lcdStarts ∨ s.pts n ≠ ∅ ∧ (s.nodes n).copyTo ≠ ∅) :
    Grows M .nothing owed s { s with lcdEdges := edges, lcdStarts := starts } :=
  have h : Grows M .nothing owed s s := .refl s
  { h with
    pushed := fun _ hn => absurd rfl hn, live := fun _ hl => hl, starts := hnew }

theorem solvePropOne_grows (hE : Permits E) (s : Solver W) (n : Nat) (d seen : Finset Nat)
    (e : Nat) (hcopy : (s.nodes n).copyTo ≠ ∅) (hseen : ∀ x ∈ seen, d ⊆ s.pts x) :
    Spec (solvePropOne n d (s, seen) e) (fun t =>
      Grows M (if s.rep e = n then .nothing else .facts (s.rep e) d) (fun _ => False) s t.1 ∧
      ∀ x ∈ t.2, d ⊆ t.1.pts x) E := by
  unfold solvePropOne
  refine spec_require (fun _ => hE.assertion _ (by decide)) fun _ => ?_
  dsimp only
  by_cases hn : s.rep e = n
  · rw [if_pos (.inl hn), if_pos hn]
    exact ⟨.refl s, hseen⟩
  · rw [if_neg hn]
    by_cases hs : s.rep e ∈ seen
    · rw [if_pos (.inr hs)]
      refine ⟨Grows.stay (fun _ _ h => h.elim) ?_ fun _ h => h.elim, hseen⟩
      rintro m o ⟨rfl, ho⟩
      exact hseen _ hs ho
    · rw [if_neg (not_or.mpr ⟨hn, hs⟩)]
      -- the edge may become a candidate of cycle detection
      have hlcd : Grows M .nothing (fun _ => False) s
          (if (n, s.rep e) ∉ s.lcdEdges ∧ s.pts n ≠ ∅ ∧ s.pts n = s.pts (s.rep e) then
            { s with lcdEdges := insert (n, s.rep e) s.lcdEdges, lcdStarts := insert n s.lcdStarts }
          else s) := by
        split
        · rename_i hcand
          refine .ofLcd s fun m hm => ?_
          rcases Finset.mem_insert.mp hm with rfl | hm
          · exact .inr ⟨hcand.2.1, hcopy⟩
          · exact .inl hm
        · exact .refl s
      refine Spec.bind (addPtsPush_grows (M := M) hE _ _ _) fun s' hs' => ?_
      have hg := hlcd.trans hs'
      rw [Demand.nothing_both] at hg
      refine ⟨hg.settle fun _ h => h.elim False.elim False.elim, fun x hx => ?_⟩
      rcases Finset.mem_insert.mp hx with rfl | hx
      · exact fun o ho => hg.facts _ o ⟨rfl, ho⟩
      · exact (hseen x hx).trans (hg.pts_mono x)

theorem solveProp_grows (hE : Permits E) (s : Solver W) (n : Nat) (d : Finset Nat) :
    Spec (solveProp s n d)
      (Grows M (propDemand s.rep n d (ascending (s.nodes n).copyTo)) (fun _ => False) s) E := by
  have hloop : Spec ((ascending (s.nodes n).copyTo).foldlM (solvePropOne n d) (s, ∅))
      (fun t : Solver W × Finset Nat =>
        Grows M (propDemand s.rep n d (ascending (s.nodes n).copyTo)) (fun _ => False) s t.1
          ∧ ∀ x ∈ t.2, d ⊆ t.1.pts x) E := by
    refine spec_foldlM (fun done (t : Solver W × Finset Nat) =>
      Grows M (propDemand s.rep n d done) (fun _ => False) s t.1 ∧ ∀ x ∈ t.2, d ⊆ t.1.pts x) ⟨?_, fun x hx => by simp at hx⟩ fun done e rest t hl ⟨ht, hd⟩ => ?_
    · rw [propDemand, Demand.each_nil]
      exact .refl s
    · have hmem : e ∈ (s.nodes n).copyTo := mem_ascending.mp (by simp [hl])
      have hcopy := Finset.ne_empty_of_mem (ht.copy_mono n hmem)
      refine (solvePropOne_grows (M := M) hE t.1 n d t.2 e hcopy hd).imp
        fun t' ⟨ht', hd'⟩ => ⟨?_, hd'⟩
      rw [ht.rep] at ht'
      rw [propDemand, Demand.each_append]
      exact (ht.trans ht').settle fun _ h => h.elim False.elim False.elim
  exact hloop.bind fun t ht => ht.1

/-! ## Constraints seen again -/

theorem seenExts_grows (hE : Permits E) (load : Bool) (off : Nat) (I : Finset Nat) (s : Solver W)
    (rn : Nat) :
    Spec (seenExts M load off I s rn)
      (Grows M (extDemand (((s.nodes rn).val.bind Value.func?).filter M.isExt) I)
        (fun _ => False) s) E := by
  unfold seenExts
  refine spec_require (fun _ => hE.assertion _ (by decide)) fun _ => ?_
  cases (s.nodes rn).val.bind Value.func? with
  | none => exact .refl s
  | some f =>
      by_cases hx : M.isExt f = true
      · simp only [hx, if_true, Option.filter_some]
        exact handleExts_grows hE s f I
      · simp only [hx, Option.filter_some]
        exact .refl s

/-! ## Handling one constraint -/

/-- `s` with the constraints of `s'`: their list, their tags and where they are
attached. -/
def Solver.withCons (s s' : Solver W) : Solver W :=
  { s with
    nodes := fun n => { s.nodes n with
      loadTo := (s'.nodes n).loadTo
      storeFrom := (s'.nodes n).storeFrom
      gepTo := (s'.nodes n).gepTo }
    cplxCons := s'.cplxCons
    icallCons := s'.icallCons }

/-- Growth while constraints are rewritten, moved and deleted. -/
def Visits (M : Module) (D : Demand) (s s' : Solver W) : Prop :=
  Grows M D (fun _ => False) (s.withCons s') s'

theorem Grows.withCons (h : Grows M D owed s s') (c : Solver W) :
    Grows M D owed (s.withCons c) (s'.withCons c) where
  frame := by
    have hf := congrArg (fun a : Anders => { a with
      nodes := (s'.withCons c).nodes, cplxCons := c.cplxCons, icallCons := c.icallCons }) h.frame
    exact hf
  still n := by
    have hs := congrArg (fun N : Node => { N with
      loadTo := (c.nodes n).loadTo
      storeFrom := (c.nodes n).storeFrom
      gepTo := (c.nodes n).gepTo }) (h.still n)
    exact hs
  pts_mono := h.pts_mono
  copy_mono := h.copy_mono
  copy_new := h.copy_new
  copy_all := h.copy_all
  facts := h.facts
  least := h.least
  ext_new := h.ext_new
  ext_mono := h.ext_mono
  ext_all := h.ext_all
  pushed := h.pushed
  live := h.live
  starts := h.starts
  stk := h.stk

/-- Growth in the sense of `Grows` leaves the constraints alone. -/
theorem Grows.withCons_eq (h : Grows M D owed s s') : s.withCons s' = s := by
  have hcplx : s'.cplxCons = s.cplxCons := by rw [h.frame]; rfl
  have hicall : s'.icallCons = s.icallCons := by rw [h.frame]; rfl
  have hnodes : (s.withCons s').nodes = s.nodes := funext fun n => by
    have h1 : (s'.nodes n).loadTo = (s.nodes n).loadTo := by
      have hs := congrArg Node.loadTo (h.still n)
      exact hs
    have h2 : (s'.nodes n).storeFrom = (s.nodes n).storeFrom := by
      have hs := congrArg Node.storeFrom (h.still n)
      exact hs
    have h3 : (s'.nodes n).gepTo = (s.nodes n).gepTo := by
      have hs := congrArg Node.gepTo (h.still n)
      exact hs
    simp only [Solver.withCons, h1, h2, h3]
  have heq : s.withCons s' =
      { s with nodes := (s.withCons s').nodes, cplxCons := s'.cplxCons, icallCons := s'.icallCons } :=
    rfl
  rw [heq, hnodes, hcplx, hicall]

theorem Grows.visits (h : Grows M D (fun _ => False) s s') : Visits M D s s' := by
  unfold Visits
  rw [h.withCons_eq]
  exact h

/-- A visit behind its merges leaves the partition alone. -/
theorem Visits.forest (h : Visits M D s s') : s'.forest = s.forest := by
  have hf := Grows.forest h
  exact hf

theorem Visits.rep (h : Visits M D s s') : s'.rep = s.rep := by
  funext n
  simp only [Graph.rep, h.forest]

theorem Visits.size (h : Visits M D s s') : s'.size = s.size := by
  have hf := congrArg (fun a : Anders => a.size) (Grows.frame h)
  exact hf

theorem Visits.reps (h : Visits M D s s') : s'.reps = s.reps := by
  unfold Graph.reps Graph.isRep
  rw [h.size, h.forest]

theorem Visits.prev (h : Visits M D s s') (n : Nat) : s'.prev n = s.prev n := by
  have hp := Grows.prev h n
  exact hp

/-- The constraints of a state alone are no growth. -/
theorem Visits.ofCons (h : s' = s.withCons s') : Visits M .nothing s s' := by
  unfold Visits
  rw [← h]
  exact .refl s'

theorem Visits.trans {D' : Demand} {s'' : Solver W} (h : Visits M D s s')
    (h' : Visits M D' s' s'') : Visits M (D.both D') s s'' := by
  have h1 := h.withCons s''
  exact (h1.trans h').settle fun _ h => h.elim False.elim False.elim

/-- The demand of a load or store that was seen before in this visit. -/
def seenDemand (M : Module) (a : Anders) (d : Finset Nat) : Option (Finset Nat) → Demand
  | none => .nothing
  | some ins => .each (fun rn => extDemand
      (((a.nodes rn).val.bind Value.func?).filter M.isExt) ins) (ascending d)

/-- The demand of a load or store. -/
def handleDemand (M : Module) (a : Anders) (hcdRep : Nat) (d : Finset Nat) (seen : List Constraint)
    (load : Bool) (C : Constraint) (I : Option (Finset Nat)) : Demand :=
  if C ∈ seen then seenDemand M a d I
  else if hcdRep ≠ 0 ∧ C.off = 0 then lsDemand load C.dest C.src hcdRep
  else if C.off ≠ 0 then
    .each (lsOffDemand a load C.dest C.src C.off I) (ascending (offPointees a d C.off I))
  else .each (fun x => lsDemand load C.dest C.src (a.rep x)) (ascending d)

/-- What handling a load or store comes to. -/
structure Handled (M : Module) (hcdRep : Nat) (d : Finset Nat) (seen : List Constraint)
    (load : Bool) (C : Constraint) (I : Option (Finset Nat)) (s : Solver W)
    (t : Solver W × List Constraint × Bool) : Prop where
  grows : Grows M (handleDemand M s.toAnders hcdRep d seen load C I) (fun _ => False) s t.1
  seen_eq : t.2.1 = if C ∈ seen then seen else C :: seen
  redundant : t.2.2 = true ↔ C ∈ seen ∨ hcdRep ≠ 0 ∧ C.off = 0
  untagged : C ∉ seen → C.off = 0 → I = none
  hcd : C ∉ seen → hcdRep ≠ 0 → C.off = 0 → s.isRep hcdRep = true

theorem handleLs_handled (hE : Permits E) (hcdRep : Nat) (d : Finset Nat)
    (seen : List Constraint) (load : Bool) (C : Constraint) (I : Option (Finset Nat)) (s : Solver W)
    (hoff : C.off ≠ 0 → C.off < s.offMask.length ∨ E (.outOfRange "off_mask")) :
    Spec (handleLs M hcdRep d seen load C I s) (Handled M hcdRep d seen load C I s) E := by
  unfold handleLs
  by_cases hseen : C ∈ seen
  · rw [if_pos hseen]
    have hdone : ∀ s', Grows M (handleDemand M s.toAnders hcdRep d seen load C I)
        (fun _ => False) s s' → Handled M hcdRep d seen load C I s (s', seen, true) := fun s' h =>
      ⟨h, (if_pos hseen).symm, by simp [hseen], fun h => absurd hseen h, fun h => absurd hseen h⟩
    rw [handleDemand, if_pos hseen] at hdone
    cases I with
    | none => exact hdone s (.refl s)
    | some ins =>
        have hloop : Spec ((ascending d).foldlM (seenExts M load C.off ins) s) (Grows M
            (.each (fun rn => extDemand (((s.nodes rn).val.bind Value.func?).filter M.isExt) ins)
              (ascending d)) (fun _ => False) s) E :=
          Grows.loop fun rn _ c _ hstill => by
            have hval : (c.nodes rn).val = (s.nodes rn).val := by
              have h := congrArg Node.val (hstill rn)
              exact h
            rw [← hval]
            exact seenExts_grows hE load C.off ins c rn
        exact hloop.bind hdone
  · rw [if_neg hseen]
    dsimp only
    by_cases hh : hcdRep ≠ 0 ∧ C.off = 0
    · rw [if_pos hh]
      refine spec_require (fun _ => hE.assertion _ (by decide)) fun hI => ?_
      refine spec_require (fun _ => hE.assertion _ (by decide)) fun hrep => ?_
      refine (solveLsHcd_grows (M := M) hE s hcdRep load C.dest C.src).bind fun s' hs' => ?_
      refine ⟨?_, (if_neg hseen).symm, by simp [hh], fun _ _ => hI, fun _ _ _ => hrep⟩
      rw [handleDemand, if_neg hseen, if_pos hh]
      exact hs'
    · rw [if_neg hh]
      by_cases hoff0 : C.off ≠ 0
      · rw [if_pos hoff0]
        refine (solveLsOff_grows (M := M) hE s d load C.dest C.src C.off I (hoff hoff0)).bind
          fun s' hs' => ?_
        refine ⟨?_, (if_neg hseen).symm, by simp [hseen, hoff0], fun _ h => absurd h hoff0,
          fun _ _ h => absurd h hoff0⟩
        rw [handleDemand, if_neg hseen, if_neg hh, if_pos hoff0]
        exact hs'
      · rw [if_neg hoff0]
        refine spec_require (fun _ => hE.assertion _ (by decide)) fun hI => ?_
        refine (solveLsPlain_grows (M := M) hE s d load C.dest C.src).bind fun s' hs' => ?_
        refine ⟨?_, (if_neg hseen).symm, by simpa [hseen] using fun h1 h2 => hh ⟨h1, h2⟩,
          fun _ _ => hI, fun _ h1 h2 => absurd ⟨h1, h2⟩ hh⟩
        rw [handleDemand, if_neg hseen, if_neg hh, if_neg hoff0]
        exact hs'

/-- `solveLsCons` as a step: constraint `C0` with index `cid` is rewritten to `C`
and handled as part of the calls `I`. -/
structure LsStep (M : Module) (n hcdRep : Nat) (d : Finset Nat) (seen : List Constraint) (cid : Nat)
    (s : Solver W) (C0 C : Constraint) (I : Option (Finset Nat))
    (t : Solver W × List Constraint × Bool) : Prop where
  get : s.cplxCons[cid]? = some C0
  type : C0.type = .load ∨ C0.type = .store
  rewritten : C = rewrite s.toAnders C0
  ptr : C.ptr = n
  tag : I = (icallOf s.toAnders n C0 C).1
  handled : Handled M hcdRep d seen (decide (C0.type = .load)) C I { s with
    cplxCons := s.cplxCons.set cid C, icallCons := (icallOf s.toAnders n C0 C).2 } t

theorem solveLsCons_step (hE : Permits E) (n hcdRep : Nat) (d : Finset Nat)
    (seen : List Constraint) (cid : Nat) (s : Solver W)
    (hoff : ∀ C, s.cplxCons[cid]? = some C → C.off ≠ 0 →
      C.off < s.offMask.length ∨ E (.outOfRange "off_mask")) :
    Spec (solveLsCons M s n hcdRep d seen cid)
      (fun t => ∃ C0 C I, LsStep M n hcdRep d seen cid s C0 C I t) E := by
  unfold solveLsCons
  refine spec_inRange (fun _ => hE.cplxCons) fun hcid => ?_
  have hget : s.cplxCons[cid]? = some (s.cplxCons.getD cid ⟨.load, 0, 0, 0⟩) := by
    rw [List.getD_eq_getElem?_getD, List.getElem?_eq_getElem hcid, Option.getD_some]
  dsimp only
  generalize s.cplxCons.getD cid ⟨.load, 0, 0, 0⟩ = C0 at hget
  refine spec_require (fun _ => hE.assertion _ (by decide)) fun htype => ?_
  refine spec_require (fun _ => hE.assertion _ (by split <;> decide)) fun hptr => ?_
  refine (handleLs_handled (M := M) hE _ _ _ _ _ _ _ ?_).imp fun t ht => ?_
  · exact hoff C0 hget
  exact ⟨C0, _, _, hget, htype.imp of_decide_eq_true id, rfl, hptr, rfl, ht⟩

/-- `solveGepCons` as a step. -/
structure GepStep (M : Module) (n : Nat) (d : Finset Nat) (seen : List Constraint) (cid : Nat)
    (s : Solver W) (C0 C : Constraint) (t : Solver W × List Constraint × Bool) : Prop where
  get : s.cplxCons[cid]? = some C0
  type : C0.type = .gep
  rewritten : C = rewrite s.toAnders C0
  ptr : C.src = n
  seen_eq : t.2.1 = if C ∈ seen then seen else C :: seen
  redundant : t.2.2 = true ↔ C ∈ seen
  grows : Grows M (if C ∈ seen then .nothing else .facts C.dest (gepImage s.geps C.off d))
    (fun _ => False) { s with cplxCons := s.cplxCons.set cid C } t.1

theorem solveGepCons_step (hE : Permits E) (n : Nat) (d : Finset Nat) (seen : List Constraint)
    (cid : Nat) (s : Solver W)
    (hgep : ∀ C, s.cplxCons[cid]? = some C → C.type = .gep →
      (C.off < s.geps.length ∧ s.geps.getD C.off ∅ ≠ ∅) ∨
        E (.assertion "off < geps.size() && geps[off] != bddfalse")) :
    Spec (solveGepCons s n d seen cid) (fun t => ∃ C0 C, GepStep M n d seen cid s C0 C t) E := by
  unfold solveGepCons
  refine spec_inRange (fun _ => hE.cplxCons) fun hcid => ?_
  have hget : s.cplxCons[cid]? = some (s.cplxCons.getD cid ⟨.gep, 0, 0, 0⟩) := by
    rw [List.getD_eq_getElem?_getD, List.getElem?_eq_getElem hcid, Option.getD_some]
  dsimp only
  generalize s.cplxCons.getD cid ⟨.gep, 0, 0, 0⟩ = C0 at hget
  refine spec_require (fun _ => hE.assertion _ (by decide)) fun htype => ?_
  refine spec_require (fun _ => hE.assertion _ (by decide)) fun hsrc => ?_
  by_cases hseen : rewrite s.toAnders C0 ∈ seen
  · rw [if_pos hseen]
    refine ⟨C0, _, hget, htype, rfl, hsrc, (if_pos hseen).symm, by simp [hseen], ?_⟩
    rw [if_pos hseen]
    exact .refl _
  · rw [if_neg hseen]
    refine spec_require (fun h => (hgep C0 hget htype).resolve_left h) fun _ => ?_
    refine (addPtsPush_grows (M := M) hE _ _ _).bind fun s' hs' => ?_
    refine ⟨C0, _, hget, htype, rfl, hsrc, (if_neg hseen).symm, by simp [hseen], ?_⟩
    rw [if_neg hseen]
    exact hs'

end

end PtrAnalysis
