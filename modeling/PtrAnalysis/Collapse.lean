import PtrAnalysis.Ending
import PtrAnalysis.Hcd
import PtrAnalysis.Joins

/-!
# The visited node during a collapse

A visit of `n` merges the pointees of its delta into the target of its offline
cycle. Behind the loop the solver relies on `n` being a representative still, or in
the collapsed set. Every merge is a chain of joins of its own, and the chains can be
told beforehand (`collapseJoins`): a join of partition and targets is `doJoin`. So
the collapse goes wrong exactly if one of the chains does, or if one of them puts
`n` under a set that nothing forces into the set of the target.
-/

namespace PtrAnalysis

open Run PtrAnalysis.Graph

/-! ## The partition after a merge -/

namespace Graph

/-- What one join makes of partition and targets. -/
def doJoin (g : Graph) (j : Join) : Graph :=
  let g' := g.absorb j.parent j.child
  if g.hv j.child = 0 then g'
  else (if g.hv j.parent = 0 then g'.setHcdVar j.parent (some (g.hv j.child)) else g').setHcdVar
    j.child none

/-- What a chain of joins makes of partition and targets. -/
def planned (g : Graph) (js : List Join) : Graph := js.foldl doJoin g

/-- Two graphs with the same partition and the same targets. -/
structure SameSets (g g' : Graph) : Prop where
  size : g'.size = g.size
  forest : g'.forest = g.forest
  hcdVar : g'.hcdVar = g.hcdVar

namespace SameSets

variable {g g' : Graph}

theorem refl (g : Graph) : SameSets g g := ⟨rfl, rfl, rfl⟩

theorem symm (h : SameSets g g') : SameSets g' g := ⟨h.size.symm, h.forest.symm, h.hcdVar.symm⟩

theorem trans {g'' : Graph} (h : SameSets g g') (h' : SameSets g' g'') : SameSets g g'' :=
  ⟨h'.size.trans h.size, h'.forest.trans h.forest, h'.hcdVar.trans h.hcdVar⟩

theorem rep (h : SameSets g g') : g'.rep = g.rep := by
  funext x
  simp only [Graph.rep, h.forest]

theorem isRep (h : SameSets g g') : g'.isRep = g.isRep := by
  funext x
  simp only [Graph.isRep, h.forest]

theorem hv (h : SameSets g g') : g'.hv = g.hv := by
  funext x
  simp only [Graph.hv, h.hcdVar]

theorem reps (h : SameSets g g') : g'.reps = g.reps := by
  simp only [Graph.reps, h.size, h.isRep]

theorem setHcdVar (h : SameSets g g') (n : Nat) (v : Option Nat) :
    SameSets (g.setHcdVar n v) (g'.setHcdVar n v) :=
  ⟨h.size, h.forest, by simp only [Graph.setHcdVar, h.hcdVar]⟩

theorem doJoin (h : SameSets g g') (j : Join) : SameSets (g.doJoin j) (g'.doJoin j) := by
  have habs : SameSets (g.absorb j.parent j.child) (g'.absorb j.parent j.child) :=
    ⟨h.size, congrArg (·.join j.parent j.child) h.forest, h.hcdVar⟩
  simp only [Graph.doJoin, h.hv]
  split
  · exact habs
  · split
    · exact (habs.setHcdVar _ _).setHcdVar _ _
    · exact habs.setHcdVar _ _

theorem planned (h : SameSets g g') (js : List Join) :
    SameSets (g.planned js) (g'.planned js) := by
  induction js generalizing g g' with
  | nil => exact h
  | cons j js ih => exact ih (h.doJoin j)

end SameSets

/-- The entry of a node that is no longer looked at can be dropped first or last. -/
theorem planned_drop (g : Graph) {n : Nat} {js : List Join}
    (hn : ∀ j ∈ js, j.parent ≠ n ∧ j.child ≠ n) :
    SameSets ((g.planned js).setHcdVar n none) ((g.setHcdVar n none).planned js) := by
  induction js generalizing g with
  | nil => exact .refl _
  | cons j js ih =>
      obtain ⟨hp, hc⟩ := hn j (List.mem_cons_self ..)
      have hstep : SameSets ((g.doJoin j).setHcdVar n none) ((g.setHcdVar n none).doJoin j) := by
        simp only [Graph.doJoin, setHcdVar_hv, if_neg hp, if_neg hc]
        split
        · exact ⟨rfl, rfl, rfl⟩
        · split
          · refine ⟨rfl, rfl, ?_⟩
            simp only [Graph.setHcdVar, Graph.absorb]
            rw [Function.update_comm hc, Function.update_comm hp]
          · refine ⟨rfl, rfl, ?_⟩
            simp only [Graph.setHcdVar, Graph.absorb]
            rw [Function.update_comm hc]
      exact (ih (g.doJoin j) fun k hk => hn k (List.mem_cons_of_mem _ hk)).trans (hstep.planned js)

end Graph

/-- A run of `mergeNodes` leaves the partition and the targets its chain leads to. -/
theorem MergeRun.planned {g g' : Graph} {n1 n2 r : Nat} (h : MergeRun g n1 n2 g' r) :
    ∀ fuel, g.reps.card ≤ fuel → SameSets g' (g.planned (PtrAnalysis.joins fuel g n1 n2)) ∧
      ∀ j ∈ PtrAnalysis.joins fuel g n1 n2, g.isRep j.parent = true ∧ g.isRep j.child = true := by
  have hpos : ∀ {g : Graph} {n1 n2 : Nat}, Mergeable g n1 n2 → 0 < g.reps.card := fun hm =>
    Finset.card_pos.mpr ⟨_, mem_reps.mpr ⟨hm.valid1.2, hm.isRep.1⟩⟩
  have hone : ∀ {g g' : Graph} {n1 n2 a c fuel : Nat}, Mergeable g n1 n2 →
      byRank g n1 n2 = (a, c) → g.reps.card ≤ fuel →
      ¬ (g.hv c ≠ 0 ∧ g.hv a ≠ 0 ∧ (g.absorb a c).rep (g.hv a) ≠ (g.absorb a c).rep (g.hv c)) →
      SameSets g' (g.doJoin ⟨n1, n2, a, c⟩) →
      SameSets g' (g.planned (PtrAnalysis.joins fuel g n1 n2)) ∧
        ∀ j ∈ PtrAnalysis.joins fuel g n1 n2, g.isRep j.parent = true ∧ g.isRep j.child = true := by
    intro g g' n1 n2 a c fuel hm hr hfuel hend hsame
    obtain ⟨fuel, rfl⟩ :=
      Nat.exists_eq_succ_of_ne_zero (Nat.ne_of_gt (Nat.lt_of_lt_of_le (hpos hm) hfuel))
    simp only [PtrAnalysis.joins, hr, absorb_hv, if_neg hend]
    refine ⟨hsame, fun j hj => ?_⟩
    obtain rfl := List.mem_singleton.mp hj
    exact (hm.byRank hr).isRep
  induction h with
  | plain hm hr hc =>
      intro fuel hfuel
      refine hone hm hr hfuel (fun h => h.1 hc) ?_
      rw [Graph.doJoin, if_pos hc]
      exact .refl _
  | adopt hm hr hc ha =>
      intro fuel hfuel
      refine hone hm hr hfuel (fun h => h.2.1 ha) ?_
      rw [Graph.doJoin, if_neg hc, if_pos ha]
      exact .refl _
  | same hm hr hc ha heq =>
      intro fuel hfuel
      refine hone hm hr hfuel (fun h => h.2.2 heq) ?_
      rw [Graph.doJoin, if_neg hc, if_neg ha]
      exact .refl _
  | @cascade g g' n1 n2 a c r hm hr hc ha hne hrun hkeep ih =>
      intro fuel hfuel
      have hab := hm.byRank hr
      obtain ⟨fuel, rfl⟩ :=
        Nat.exists_eq_succ_of_ne_zero (Nat.ne_of_gt (Nat.lt_of_lt_of_le (hpos hm) hfuel))
      have hcard := absorb_reps_card hab
      obtain ⟨hnext, hreps⟩ := ih fuel (by
        change (g.absorb a c).reps.card ≤ fuel
        omega)
      have hsame : PtrAnalysis.joins fuel ((g.absorb a c).recordCascade a) =
          PtrAnalysis.joins fuel (g.absorb a c) := funext₂ fun x y =>
        @joins_congr (g.absorb a c) ((g.absorb a c).recordCascade a) rfl rfl fuel x y
      rw [hsame] at hnext hreps
      simp only [PtrAnalysis.joins, hr, absorb_hv, if_pos (⟨hc, ha, hne⟩ :
        g.hv c ≠ 0 ∧ g.hv a ≠ 0 ∧ (g.absorb a c).rep (g.hv a) ≠ (g.absorb a c).rep (g.hv c))]
      have hreps' : ∀ j ∈ PtrAnalysis.joins fuel (g.absorb a c) ((g.absorb a c).rep (g.hv a))
          ((g.absorb a c).rep (g.hv c)), (g.absorb a c).isRep j.parent = true ∧
            (g.absorb a c).isRep j.child = true := hreps
      refine ⟨?_, fun j hj => ?_⟩
      · -- the entry of the child is dropped last, and nothing on the way looks at it
        have hdrop := planned_drop (g.absorb a c) (n := c) fun j hj =>
          ⟨((absorb_isRep hab _).mp (hreps' j hj).1).2, ((absorb_isRep hab _).mp (hreps' j hj).2).2⟩
        have hrecord : SameSets ((g.absorb a c).recordCascade a) (g.absorb a c) := ⟨rfl, rfl, rfl⟩
        have hend := (hnext.trans (hrecord.planned _)).setHcdVar c none
        have hfirst : g.doJoin ⟨n1, n2, a, c⟩ = (g.absorb a c).setHcdVar c none := by
          rw [Graph.doJoin, if_neg hc, if_neg ha]
        rw [Graph.planned, List.foldl_cons, hfirst]
        exact hend.trans hdrop
      · rcases List.mem_cons.mp hj with rfl | hj
        · exact hab.isRep
        · exact ⟨((absorb_isRep hab _).mp (hreps' j hj).1).1,
            ((absorb_isRep hab _).mp (hreps' j hj).2).1⟩

/-- The target of a set after a merge is that of one of the sets it was made from. -/
theorem MergeRun.source {g g' : Graph} {n1 n2 r K : Nat} (h : MergeRun g n1 n2 g' r)
    (hK : g'.isRep K = true) (hv : g'.hv K ≠ 0) :
    ∃ K0, g.isRep K0 = true ∧ g'.rep K0 = K ∧ g.hv K0 = g'.hv K := by
  have hself : ∀ {g a c}, Mergeable g a c → (g.absorb a c).isRep K = true →
      g.isRep K = true ∧ (g.absorb a c).rep K = K ∧ K ≠ c := fun hm hK =>
    ⟨((absorb_isRep hm K).mp hK).1, rep_eq_self.mpr hK, ((absorb_isRep hm K).mp hK).2⟩
  induction h with
  | @plain g n1 n2 a c hm hr hc =>
      obtain ⟨h1, h2, -⟩ := hself (hm.byRank hr) hK
      exact ⟨K, h1, h2, rfl⟩
  | @adopt g n1 n2 a c hm hr hc ha =>
      have hab := hm.byRank hr
      obtain ⟨h1, h2, h3⟩ := hself hab hK
      simp only [setHcdVar_rep, setHcdVar_hv, absorb_hv, if_neg h3]
      by_cases hKa : K = a
      · exact ⟨c, hab.isRep.2, hKa ▸ (absorb_both hab).2, by rw [if_pos hKa]; rfl⟩
      · exact ⟨K, h1, h2, by rw [if_neg hKa]⟩
  | @same g n1 n2 a c hm hr hc ha heq =>
      obtain ⟨h1, h2, h3⟩ := hself (hm.byRank hr) hK
      simp only [setHcdVar_rep, setHcdVar_hv, absorb_hv, if_neg h3]
      exact ⟨K, h1, h2, rfl⟩
  | @cascade g g' n1 n2 a c r hm hr hc ha hne hrun _ ih =>
      have hab := hm.byRank hr
      have hKc : K ≠ c := ((absorb_isRep hab K).mp (hrun.spec.1.isRep hK)).2
      simp only [setHcdVar_rep, setHcdVar_hv, if_neg hKc] at hv ⊢
      obtain ⟨K0, h0, h1, h2⟩ := ih hK hv
      exact ⟨K0, ((absorb_isRep hab K0).mp h0).1, h1, h2⟩

/-! ## The joins of a collapse -/

/-- The chains of joins that merging the given pointees into the set of `r` leads to. -/
def collapseJoins : Graph → Nat → List Nat → List (List Join)
  | _, _, [] => []
  | g, r, x :: l =>
    if g.rep x = r ∨ g.rep x = i2p then collapseJoins g r l
    else
      let js := joins g.size g r (g.rep x)
      js :: collapseJoins (g.planned js) ((g.planned js).rep r) l

theorem collapseJoins_congr {g g' : Graph} (h : SameSets g g') (r : Nat) (l : List Nat) :
    collapseJoins g' r l = collapseJoins g r l := by
  induction l generalizing g g' r with
  | nil => rfl
  | cons x l ih =>
      have hjoins : joins g'.size g' = joins g.size g := by
        funext n1 n2
        rw [h.size, joins_congr h.forest h.hcdVar]
      simp only [collapseJoins, h.rep, hjoins, ih h]
      have hplan := h.planned (joins g.size g r (g.rep x))
      rw [ih hplan, hplan.rep]

/-- The partition that a collapse of the pointees `d` into the set of `h` forces: the old
one, with the pointees but `i2p` in the set of `h`, and the targets of joined sets joined
as well. -/
inductive Together (g : Graph) (h : Nat) (d : Finset Nat) : Nat → Nat → Prop
  | old {x y : Nat} (hxy : g.rep x = g.rep y) : Together g h d x y
  | pointee {x : Nat} (hx : x ∈ d) (hi : g.rep x ≠ i2p) : Together g h d h x
  | target {K L : Nat} (hK : g.isRep K = true) (hL : g.isRep L = true) (hvK : g.hv K ≠ 0)
      (hvL : g.hv L ≠ 0) (hKL : Together g h d K L) : Together g h d (g.hv K) (g.hv L)
  | symm {x y : Nat} (hxy : Together g h d x y) : Together g h d y x
  | trans {x y z : Nat} (hxy : Together g h d x y) (hyz : Together g h d y z) : Together g h d x z

theorem Together.congr {g g' : Graph} (hs : SameSets g g') {h : Nat} {d : Finset Nat} {x y : Nat}
    (hxy : Together g h d x y) : Together g' h d x y := by
  induction hxy with
  | old hxy => exact .old (by rwa [hs.rep])
  | pointee hx hi => exact .pointee hx (by rwa [hs.rep])
  | target hK hL hvK hvL _ ih =>
      rw [← hs.isRep] at hK hL
      rw [← hs.hv] at hvK hvL ⊢
      exact .target hK hL hvK hvL ih
  | symm _ ih => exact .symm ih
  | trans _ _ ih ih' => exact .trans ih ih'

section

variable {W : Type}

/-- How far a collapse into the set of `h` has got: `r` represents it, and only what is
forced was joined. -/
structure Collapsing (g0 : Graph) (h : Nat) (d : Finset Nat) (g : Graph) (r : Nat) : Prop where
  coarser : Coarser g0 g
  target : ∀ K, g0.isRep K = true → g0.hv K ≠ 0 →
    g.hv (g.rep K) ≠ 0 ∧ g.rep (g.hv (g.rep K)) = g.rep (g0.hv K)
  source : ∀ K, g.isRep K = true → g.hv K ≠ 0 →
    ∃ K0, g0.isRep K0 = true ∧ g.rep K0 = K ∧ g0.hv K0 = g.hv K
  rep : g.rep h = r
  forced : ∀ x y, g.rep x = g.rep y → Together g0 h d x y

theorem Collapsing.start (g : Graph) (h : Nat) (d : Finset Nat) : Collapsing g h d g (g.rep h) where
  coarser := .refl g
  target K hK hv := by rw [rep_eq_self.mpr hK]; exact ⟨hv, rfl⟩
  source K hK hv := ⟨K, hK, rep_eq_self.mpr hK, rfl⟩
  rep := rfl
  forced _ _ := .old

/-- Merging a pointee into the set joins what is forced. -/
theorem Collapsing.merge {g0 g g' : Graph} {h r r' x : Nat} {d : Finset Nat}
    (hc : Collapsing g0 h d g r) (hx : x ∈ d) (hi : g.rep x ≠ i2p)
    (hrun : MergeRun g r (g.rep x) g' r') : Collapsing g0 h d g' r' := by
  have hcg := hrun.spec.1
  refine ⟨hc.coarser.trans hcg, fun K hK hv => ?_, fun K hK hv => ?_, ?_, fun y z hyz => ?_⟩
  · obtain ⟨h1, h2⟩ := hc.target K hK hv
    obtain ⟨h3, h4⟩ := hrun.target (isRep_rep g K) h1
    have hrep : g'.rep (g.rep K) = g'.rep K := hcg.rep (rep_rep g K)
    rw [hrep] at h3 h4
    exact ⟨h3, h4.trans (hcg.rep h2)⟩
  · obtain ⟨K1, h1, h2, h3⟩ := hrun.source hK hv
    obtain ⟨K0, h4, h5, h6⟩ := hc.source K1 h1 (h3 ▸ hv)
    refine ⟨K0, h4, ?_, h6.trans h3⟩
    rw [← h2, ← h5]
    exact (hcg.rep (rep_rep g K0)).symm
  · rw [← hrun.spec.2.1, ← hc.rep]
    exact (hcg.rep (rep_rep g h)).symm
  · have hf := hrun.forced hyz
    clear hyz
    induction hf with
    | old h => exact hc.forced _ _ h
    | args =>
        have hr : Together g0 h d r h := hc.forced _ _ (by rw [← hc.rep, rep_rep])
        have hpt : Together g0 h d h x := .pointee hx fun h0 => hi ((hc.coarser.apart (.inr rfl)).mpr h0)
        exact (hr.trans hpt).trans (hc.forced _ _ (rep_rep g x).symm)
    | target hK hL hvK hvL _ ih =>
        obtain ⟨K0, hK0, hKrep, hKv⟩ := hc.source _ hK hvK
        obtain ⟨L0, hL0, hLrep, hLv⟩ := hc.source _ hL hvL
        have hK' : Together g0 h d K0 _ := hc.forced _ _ (hKrep.trans (rep_eq_self.mpr hK).symm)
        have hL' : Together g0 h d L0 _ := hc.forced _ _ (hLrep.trans (rep_eq_self.mpr hL).symm)
        rw [← hKv, ← hLv]
        exact .target hK0 hL0 (hKv ▸ hvK) (hLv ▸ hvL) ((hK'.trans ih).trans hL'.symm)
    | symm _ ih => exact ih.symm
    | trans _ _ ih ih' => exact ih.trans ih'

/-- A collapse that succeeded joined what is forced and nothing else. -/
theorem Collapsing.chain {g0 : Graph} {h : Nat} {d : Finset Nat} {l : List Nat}
    {t t' : Solver W × Nat} (hchain : Chain CollapseStep l t t') (hl : ∀ x ∈ l, x ∈ d)
    (hc : Collapsing g0 h d t.1.toGraph t.2) :
    Collapsing g0 h d t'.1.toGraph t'.2 ∧ Coarser t.1.toGraph t'.1.toGraph ∧
      ∀ x ∈ l, g0.rep x ≠ i2p → t'.1.rep x = t'.2 := by
  induction hchain with
  | nil t => exact ⟨hc, .refl _, fun x hx => absurd hx List.not_mem_nil⟩
  | @cons x l t t1 t' hstep hrest ih =>
      have hx := hl x (List.mem_cons_self ..)
      have hfirst : Collapsing g0 h d t1.1.toGraph t1.2 ∧ Coarser t.1.toGraph t1.1.toGraph ∧
          (g0.rep x ≠ i2p → t1.1.rep x = t1.2) := by
        cases hstep with
        | skip hskip =>
            exact ⟨hc, .refl _, fun hi => hskip.resolve_right fun h0 =>
              hi ((hc.coarser.apart (.inr rfl)).mp h0)⟩
        | @merge s r r' g' hi hrun =>
            refine ⟨hc.merge hx hi hrun, hrun.spec.1, fun _ => ?_⟩
            rw [← hrun.spec.2.2.1]
            exact (hrun.spec.1.rep (rep_rep s.toGraph x)).symm
      obtain ⟨hc1, hcoarse1, hx1⟩ := hfirst
      obtain ⟨hc', hcoarse, hrest'⟩ := ih (fun y hy => hl y (List.mem_cons_of_mem _ hy)) hc1
      refine ⟨hc', hcoarse1.trans hcoarse, fun y hy hi => ?_⟩
      rcases List.mem_cons.mp hy with rfl | hy
      · have hmeet : t1.1.rep y = t1.1.rep h := (hx1 hi).trans hc1.rep.symm
        exact (hcoarse.rep hmeet).trans hc'.rep
      · exact hrest' y hy hi

/-- What is forced is joined in the end. -/
theorem Together.joined {g0 g : Graph} {h r x y : Nat} {d : Finset Nat} (hxy : Together g0 h d x y)
    (hc : Collapsing g0 h d g r) (hd : ∀ x ∈ d, g0.rep x ≠ i2p → g.rep x = r) :
    g.rep x = g.rep y := by
  induction hxy with
  | old hxy => exact hc.coarser.rep hxy
  | pointee hx hi => rw [hc.rep, hd _ hx hi]
  | target hK hL hvK hvL _ ih => rw [← (hc.target _ hK hvK).2, ← (hc.target _ hL hvL).2, ih]
  | symm _ ih => exact ih.symm
  | trans _ _ ih ih' => exact ih.trans ih'

/-- The chains of a collapse that succeeded, and who is no representative after it. -/
theorem collapseJoins_chain {l : List Nat} {t t' : Solver W × Nat}
    (hchain : Chain CollapseStep l t t') :
    (∀ js ∈ collapseJoins t.1.toGraph t.2 l, Smooth js) ∧
      ∀ x, t'.1.isRep x = true ↔ t.1.isRep x = true ∧
        ∀ js ∈ collapseJoins t.1.toGraph t.2 l, ∀ j ∈ js, j.child ≠ x := by
  induction hchain with
  | nil t => simp [collapseJoins]
  | @cons x l t t1 t' hstep _ ih =>
      cases hstep with
      | @skip s r hskip =>
          rw [collapseJoins, if_pos hskip]
          exact ih
      | @merge s r r' g' hi hrun =>
          have hr : s.rep x ≠ r := by
            intro hr
            cases hrun <;> exact (‹Mergeable _ _ _›).ne hr.symm
          obtain ⟨hsmooth, hreps⟩ := hrun.joins s.size s.toGraph.reps_card_le
          have hsame := (hrun.planned s.size s.toGraph.reps_card_le).1
          have hrep : (s.planned (joins s.size s.toGraph r (s.rep x))).rep r = r' := by
            rw [← hrun.spec.2.1, hsame.rep]
          rw [collapseJoins, if_neg (not_or.mpr ⟨hr, hi⟩)]
          dsimp only
          rw [hrep, collapseJoins_congr hsame]
          refine ⟨fun js hjs => ?_, fun y => ?_⟩
          · rcases List.mem_cons.mp hjs with rfl | hjs
            · exact hsmooth
            · exact ih.1 js hjs
          · rw [ih.2 y, List.forall_mem_cons]
            exact (and_congr_left fun _ => hreps y).trans and_assoc

/-- With smooth chains a collapse succeeds. -/
theorem collapse_smooth {sz : Nat} {l : List Nat} {s : Solver W} {r : Nat}
    (hg : s.toGraph.Within sz) (hr : s.isRep r = true) (hrlt : r < sz) (hl : ∀ x ∈ l, x < sz)
    (hsmooth : ∀ js ∈ collapseJoins s.toGraph r l, Smooth js) :
    Spec (l.foldlM collapseOne (s, r)) (fun t => Chain CollapseStep l (s, r) t)
      (fun _ => False) := by
  induction l generalizing s r with
  | nil => exact .nil _
  | cons x l ih =>
      have hl' : ∀ y ∈ l, y < sz := fun y hy => hl y (List.mem_cons_of_mem _ hy)
      rw [List.foldlM_cons]
      by_cases hskip : s.rep x = r ∨ s.rep x = i2p
      · rw [collapseJoins, if_pos hskip] at hsmooth
        have hone : collapseOne (s, r) x = .ok (s, r) := by
          have hne : ¬ (s.rep x ≠ r ∧ s.rep x ≠ i2p) := by tauto
          simp only [collapseOne, if_neg hne]
          rfl
        rw [hone]
        exact (ih hg hr hrlt hl' hsmooth).imp fun t ht => .cons (.skip hskip) ht
      · rw [collapseJoins, if_neg hskip] at hsmooth
        dsimp only at hsmooth
        rw [not_or] at hskip
        have hpos : ∀ n, s.toGraph.hv n < s.size := by
          intro n
          by_cases hn : s.toGraph.hv n = 0
          · rw [hn, hg.size]
            exact Nat.lt_of_le_of_lt (Nat.zero_le _) hrlt
          · rw [hg.size]
            exact hg.hv_lt hn
        have hsz : s.size = sz := hg.size
        have hmerge := mergeNodes_smooth s.size s.toGraph.reps_card_le
          (fun y hy => hsz ▸ hg.rep y (hsz ▸ hy)) hpos (hsz ▸ hrlt)
          (hsz ▸ hg.rep x (hl x (List.mem_cons_self ..))) (Ne.symm hskip.1) hr (isRep_rep _ x)
          (hsmooth _ (List.mem_cons_self ..))
        have hone : collapseOne (s, r) x =
            (mergeNodes s.size s.toGraph r (s.rep x) >>= fun t => .ok (s.withGraph t.1, t.2)) := by
          simp only [collapseOne, if_pos (show s.rep x ≠ r ∧ s.rep x ≠ i2p from hskip)]
          rfl
        rw [hone, bind_assoc]
        refine hmerge.bind fun t hrun => ?_
        have hsame := (hrun.planned s.size s.toGraph.reps_card_le).1
        have hrep : (s.planned (joins s.size s.toGraph r (s.rep x))).rep r = t.2 := by
          rw [← hrun.spec.2.1, hsame.rep]
        rw [hrep, collapseJoins_congr hsame] at hsmooth
        have hin := hrun.within hg
        refine (ih (s := s.withGraph t.1) hin ?_ ?_ hl' fun js hjs =>
          hsmooth js (List.mem_cons_of_mem _ hjs)).imp fun u hu => .cons (.merge hskip.2 hrun) hu
        · change t.1.isRep t.2 = true
          rw [← hrun.spec.2.1]
          exact isRep_rep ..
        · rw [← hrun.spec.2.1]
          exact hin.rep r hrlt

/-! ## The visited node -/

/-- The collapse in a visit of `n` comes to an end with all new pointees in one set, and
with `n` a representative or in that set. -/
def Tracked (s : Solver W) (n : Nat) : Prop :=
  ∃ s' r, collapse (visitStart s n) n (s.pts n \ s.prev n) = .ok (s', r) ∧
    s'.isRep r = true ∧
    (∀ x ∈ s.pts n \ s.prev n, s.rep x ≠ i2p → s'.rep x = r) ∧
    (s'.isRep n = true ∨ s'.rep n = r)

instance (s : Solver W) (n : Nat) : Decidable (Tracked s n) :=
  match h : collapse (visitStart s n) n (s.pts n \ s.prev n) with
  | .error e => .isFalse fun ⟨s', r, hok, _⟩ => by
      rw [h] at hok
      cases hok
  | .ok (s', r) => decidable_of_iff (s'.isRep r = true ∧
      (∀ x ∈ s.pts n \ s.prev n, s.rep x ≠ i2p → s'.rep x = r) ∧
      (s'.isRep n = true ∨ s'.rep n = r))
      ⟨fun ht => ⟨s', r, h, ht⟩, fun ⟨s1, r1, hok, ht⟩ => by
        rw [h] at hok
        cases hok
        exact ht⟩

/-- No chain of joins puts a parent under another node, and none puts `n` under one unless
the set of the target `h` has to take `n` in. -/
def KeepsVisited (g : Graph) (n h : Nat) (d : Finset Nat) : Prop :=
  (∀ js ∈ collapseJoins g (g.rep h) (ascending d), Smooth js) ∧
    ((∀ js ∈ collapseJoins g (g.rep h) (ascending d), ∀ j ∈ js, j.child ≠ n) ∨
      Together g h d n h)

theorem tracked_iff {M : Module} {sz : Nat} {s : Solver W} {n h : Nat} (hs : s.Within M sz)
    (hn : s.isRep n = true) (hh : s.hcdVar n = some h) :
    Tracked s n ↔ KeepsVisited s.toGraph n h (s.pts n \ s.prev n) := by
  obtain ⟨d, hd⟩ : ∃ d, s.pts n \ s.prev n = d := ⟨_, rfl⟩
  have hg := hs.graph
  have hstart : SameSets s.toGraph (visitStart s n).toGraph := ⟨rfl, rfl, rfl⟩
  have hcollapse : collapse (visitStart s n) n d =
      (ascending d).foldlM collapseOne (visitStart s n, s.rep h) := by
    have hh' : (visitStart s n).hcdVar n = some h := hh
    simp only [collapse, hh']
    rfl
  have hdlt : ∀ x ∈ ascending d, x < sz := by
    intro x hx
    rw [mem_ascending, ← hd] at hx
    exact (hg.pts n x (Finset.mem_sdiff.mp hx).1).2
  have hjoins := collapseJoins_congr hstart (s.rep h) (ascending d)
  -- what holds behind every chain of steps
  have hafter : ∀ {t : Solver W × Nat},
      Chain CollapseStep (ascending d) (visitStart s n, s.rep h) t →
      t.1.isRep t.2 = true ∧ (∀ x ∈ d, s.rep x ≠ i2p → t.1.rep x = t.2) ∧
        (t.1.rep n = t.2 ↔ Together s.toGraph h d n h) := by
    intro t hchain
    have hc0 : Collapsing (visitStart s n).toGraph h d (visitStart s n).toGraph (s.rep h) :=
      .start _ h d
    obtain ⟨hc, -, hd'⟩ := hc0.chain hchain fun x hx => mem_ascending.mp hx
    have hin : ∀ x ∈ d, s.rep x ≠ i2p → t.1.rep x = t.2 := fun x hx =>
      hd' x (mem_ascending.mpr hx)
    refine ⟨hc.rep ▸ isRep_rep t.1.toGraph h, hin, fun hnr => ?_, fun hnh => ?_⟩
    · exact (hc.forced n h (hnr.trans hc.rep.symm)).congr hstart.symm
    · exact ((hnh.congr hstart).joined hc hin).trans hc.rep
  unfold Tracked KeepsVisited
  rw [hd, hcollapse]
  constructor
  · rintro ⟨s', r, hok, -, -, hkept⟩
    have hspec := collapse_run (E := fun _ => True)
      permits_true (s := visitStart s n) (.inl trivial) n d
    rw [hcollapse] at hspec
    have hchain : Chain CollapseStep (ascending d) (visitStart s n, s.rep h) (s', r) := by
      rcases hspec.result hok with ⟨hnone, -⟩ | ⟨h', hh', hchain⟩
      · exact absurd (hnone.symm.trans hh) (by simp)
      · rwa [Option.some.inj (hh'.symm.trans hh)] at hchain
    obtain ⟨hsmooth, hreps⟩ := collapseJoins_chain hchain
    rw [hjoins] at hsmooth
    refine ⟨hsmooth, hkept.imp (fun hrep => ?_) (hafter hchain).2.2.mp⟩
    have hchild := ((hreps n).mp hrep).2
    rwa [hjoins] at hchild
  · rintro ⟨hsmooth, hkept⟩
    have hspec := collapse_smooth (s := visitStart s n) (r := s.rep h)
      (visitStart_within hs n).graph (isRep_rep s.toGraph h)
      (hg.rep h (hg.hcd n h hh)) hdlt (by rwa [hjoins])
    cases hok : (ascending d).foldlM collapseOne (visitStart s n, s.rep h) with
    | error e => exact (hspec.stop hok).elim
    | ok t =>
        have hchain := hspec.result hok
        obtain ⟨hrep, hin, htog⟩ := hafter hchain
        refine ⟨t.1, t.2, rfl, hrep, hin, hkept.imp (fun hchild => ?_) htog.mpr⟩
        refine ((collapseJoins_chain hchain).2 n).mpr ⟨hn, ?_⟩
        rwa [hjoins]

end

/-! ## Reachable states -/

section

variable {W : Type}

/-- The run goes on, from a state that passes the test. -/
def Reaches (p : Solver W → Bool) : Run (Loop W) → Bool
  | .ok (.more s) => p s
  | _ => false

theorem Reaches.state {p : Solver W → Bool} {x : Run (Loop W)} (h : Reaches p x = true) :
    ∃ s, x = .ok (.more s) ∧ p s = true := by
  match x, h with
  | .ok (.more s), h => exact ⟨s, rfl, h⟩

variable [Worklist W] [LawfulWorklist W] {M : Module}

/-- The main loop stays within the range. -/
theorem solveLoop_within {sz : Nat} (hsz : 0 < sz) :
    ∀ (k : Nat) {s s' : Solver W}, s.Within M sz → solveLoop M k s = .ok (.more s') →
      s'.Within M sz
  | 0, s, s', h, hrun => by
      rw [solveLoop] at hrun
      cases hrun
      exact h
  | k + 1, s, s', h, hrun => by
      rw [solveLoop] at hrun
      obtain ⟨l, hiter, hrest⟩ := bind_ok.mp hrun
      cases l with
      | done s1 => cases hrest
      | more s1 =>
          have h1 := ((solveIter_progress h hsz).result hiter s1 rfl).1
          exact solveLoop_within hsz k h1 hrest

theorem runSolver_within {a : Anders} (ha : a.Valid M) {k : Nat} {s : Solver W}
    (hrun : runSolver W M k a = .ok (.more s)) : s.Within M a.size := by
  have hsz : 0 < a.size := Nat.lt_of_le_of_lt (Nat.zero_le _) ha.last
  unfold runSolver at hrun
  obtain ⟨b, hb, hrun⟩ := bind_ok.mp hrun
  obtain ⟨s0, hs0, hrun⟩ := bind_ok.mp hrun
  have htables := (ptsInit_spec M a).result hb
  have hfresh : b.Fresh := by
    rw [htables.frame]
    exact ha.fresh
  have hinit := (solveInit_spec (W := W) permits_noFuel hfresh).result hs0
  exact solveLoop_within hsz k (hinit.within htables ha) hrun

end

/-- In every state a run reaches, the visit of a representative with a target keeps track of
it exactly if no chain of joins puts a parent under another node and the visited node
only goes under nodes of the set that has to take it in. -/
theorem collapse_tracks_iff (W : Type) [Worklist W] [LawfulWorklist W] (M : Module) (a : Anders)
    (ha : a.Valid M) (k : Nat) (s : Solver W) (hrun : runSolver W M k a = .ok (.more s)) (wl : W)
    (n h : Nat) (hn : s.isRep n = true) (hh : s.hcdVar n = some h) :
    Tracked { s with wl } n ↔ KeepsVisited s.toGraph n h (s.pts n \ s.prev n) := by
  have hs := runSolver_within ha hrun
  exact tracked_iff (s := { s with wl }) (M := M) ⟨hs.graph, hs.confined, hs.cons, hs.starts⟩ hn hh

theorem collapse_tracks_cycle : ∃ s : Solver (Lists true PrioHeap),
    runSolver (Lists true PrioHeap) (.uniform false) 0 offlineCycle = .ok (.more s) ∧
    KeepsVisited s.toGraph 4 5 (s.pts 4 \ s.prev 4) ∧ Tracked { s with wl := s.wl } 4 := by
  have hrun : Reaches (fun s : Solver (Lists true PrioHeap) => s.isRep 4 && s.hcdVar 4 == some 5 &&
      decide (∀ js ∈ collapseJoins s.toGraph (s.rep 5) (ascending (s.pts 4 \ s.prev 4)),
        Smooth js ∧ ∀ j ∈ js, j.child ≠ 4))
      (runSolver (Lists true PrioHeap) (.uniform false) 0 offlineCycle) = true := by
    decide +kernel
  obtain ⟨s, hs, htest⟩ := Reaches.state hrun
  simp only [Bool.and_eq_true, decide_eq_true_eq, beq_iff_eq] at htest
  obtain ⟨⟨hn, hh⟩, hjoins⟩ := htest
  have hkeeps : KeepsVisited s.toGraph 4 5 (s.pts 4 \ s.prev 4) :=
    ⟨fun js hjs => (hjoins js hjs).1, .inl fun js hjs => (hjoins js hjs).2⟩
  exact ⟨s, hs, hkeeps, (collapse_tracks_iff _ _ offlineCycle offlineCycle_valid 0 s hs s.wl 4 5
    hn hh).mpr hkeeps⟩

/-- A function with a parameter, nodes 3 to 5, pointers 7 and 8 that are each other's target,
and two more variables in a cycle with the parameter's pointee. -/
def crossedTargets : Anders :=
  .initial 11 5
    (fun n => if n = 3 then { objSz := 3, val := some (.func 0) }
      else if n = 4 ∨ n = 5 then { objSz := 1, val := some (.arg n true) } else {})
    [⟨.addrOf, 6, 3, 0⟩, ⟨.gep, 7, 6, 2⟩, ⟨.load, 8, 7, 0⟩, ⟨.store, 7, 8, 0⟩, ⟨.load, 7, 8, 0⟩,
      ⟨.store, 8, 7, 0⟩, ⟨.load, 9, 5, 0⟩, ⟨.store, 5, 9, 0⟩, ⟨.copy, 9, 10, 0⟩, ⟨.copy, 10, 9, 0⟩]

/-- The visited node can go under a node of a set that has nothing to do with the target. -/
theorem collapse_tracks_lost : ∃ a, hcd crossedTargets = .ok a ∧
    ∃ s : Solver (Lists true PrioHeap),
      runSolver (Lists true PrioHeap) (.uniform false) 2 a = .ok (.more s) ∧
      s.isRep 7 = true ∧ s.hcdVar 7 = some 8 ∧ ¬ Tracked s 7 ∧
      runSolver (Lists true PrioHeap) (.uniform false) 3 a =
        .error (.assertion "nodes[n]->is_rep() || get_node_rep(n) == hcd_rep") := by
  have hrun : (match hcd crossedTargets with
      | .error _ => false
      | .ok a => Reaches (fun s : Solver (Lists true PrioHeap) => s.isRep 7 &&
            s.hcdVar 7 == some 8 && !decide (Tracked s 7))
          (runSolver (Lists true PrioHeap) (.uniform false) 2 a) &&
        match runSolver (Lists true PrioHeap) (.uniform false) 3 a with
        | .ok _ => false
        | .error e =>
            e == .assertion "nodes[n]->is_rep() || get_node_rep(n) == hcd_rep") = true := by
    decide +kernel
  cases ha : hcd crossedTargets with
  | error e => simp [ha] at hrun
  | ok a =>
      simp only [ha, Bool.and_eq_true] at hrun
      obtain ⟨s, hs, htest⟩ := Reaches.state hrun.1
      simp only [Bool.and_eq_true, Bool.not_eq_true', decide_eq_false_iff_not, beq_iff_eq] at htest
      refine ⟨a, rfl, s, hs, htest.1.1, htest.1.2, htest.2, ?_⟩
      cases hfail : runSolver (Lists true PrioHeap) (.uniform false) 3 a with
      | ok l => simp [hfail] at hrun
      | error e =>
          have he := hrun.2
          simp only [hfail, beq_iff_eq] at he
          rw [he]

end PtrAnalysis
