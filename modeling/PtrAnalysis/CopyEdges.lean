import PtrAnalysis.LcdSearch
import PtrAnalysis.Ending

/-!
# Cycle detection keeps the copy edges

Merging nodes and pointing edges at representatives neither loses an edge between
different sets nor makes one up. `SameEdges` says so of two graphs of which one is
coarser; a run of cycle detection is a chain of such steps. With the search it
follows, this says what the run does to the copy graph.
-/

namespace PtrAnalysis

open Run Relation PtrAnalysis.Graph PtrAnalysis.Search

namespace Graph

/-- The copy edges between different sets. -/
def properEdges (g : Graph) : Set (Nat × Nat) :=
  {p | p.1 ≠ p.2 ∧ ∃ u, ∃ v ∈ (g.nodes u).copyTo, p = (g.rep u, g.rep v)}

/-- Up to what was merged, the edges of `g'` are those of `g`. -/
structure SameEdges (g g' : Graph) : Prop where
  rep : ∀ {x y}, g.rep x = g.rep y → g'.rep x = g'.rep y
  kept : ∀ u, ∀ v ∈ (g.nodes u).copyTo, g'.rep u = g'.rep v ∨
    ∃ u', ∃ v' ∈ (g'.nodes u').copyTo, g'.rep u' = g'.rep u ∧ g'.rep v' = g'.rep v
  old : ∀ u, ∀ v ∈ (g'.nodes u).copyTo, g'.rep u = g'.rep v ∨
    ∃ u', ∃ v' ∈ (g.nodes u').copyTo, g'.rep u' = g'.rep u ∧ g'.rep v' = g'.rep v

namespace SameEdges

variable {g g' g'' : Graph}

theorem refl (g : Graph) : SameEdges g g :=
  ⟨fun h => h, fun u v hv => .inr ⟨u, v, hv, rfl, rfl⟩, fun u v hv => .inr ⟨u, v, hv, rfl, rfl⟩⟩

theorem trans (h : SameEdges g g') (h' : SameEdges g' g'') : SameEdges g g'' where
  rep hxy := h'.rep (h.rep hxy)
  kept u v hv := by
    rcases h.kept u v hv with heq | ⟨u1, v1, hv1, hu, hw⟩
    · exact .inl (h'.rep heq)
    · rw [← h'.rep hu, ← h'.rep hw]
      exact h'.kept u1 v1 hv1
  old u v hv := by
    rcases h'.old u v hv with heq | ⟨u1, v1, hv1, hu, hw⟩
    · exact .inl heq
    · rw [← hu, ← hw]
      rcases h.old u1 v1 hv1 with heq | ⟨u2, v2, hv2, hu2, hw2⟩
      · exact .inl (h'.rep heq)
      · exact .inr ⟨u2, v2, hv2, h'.rep hu2, h'.rep hw2⟩

/-- Nothing was merged and no edge changed. -/
theorem ofSame (hn : g'.nodes = g.nodes) (hf : g'.forest = g.forest) : SameEdges g g' := by
  have hrep : g'.rep = g.rep := by funext x; simp only [Graph.rep, hf]
  refine ⟨fun h => by rwa [hrep], fun u v hv => .inr ⟨u, v, ?_, rfl, rfl⟩,
    fun u v hv => .inr ⟨u, v, ?_, rfl, rfl⟩⟩
  · rwa [hn]
  · rwa [← hn]

/-- The edges between different sets are the image of the ones before. -/
theorem properEdges_eq (h : SameEdges g g') :
    g'.properEdges =
      {p | p.1 ≠ p.2 ∧ ∃ q ∈ g.properEdges, p = (g'.rep q.1, g'.rep q.2)} := by
  have hrr : ∀ x, g'.rep (g.rep x) = g'.rep x := fun x => h.rep (rep_rep g x)
  ext ⟨x, y⟩
  constructor
  · rintro ⟨hne, u, v, hv, heq⟩
    obtain ⟨rfl, rfl⟩ := Prod.mk.inj heq
    rcases h.old u v hv with hsame | ⟨u0, v0, hv0, hu, hw⟩
    · exact absurd hsame hne
    · refine ⟨hne, (g.rep u0, g.rep v0), ⟨fun hq => hne ?_, u0, v0, hv0, rfl⟩, ?_⟩
      · rw [← hu, ← hw]
        exact h.rep hq
      · rw [hrr, hrr, hu, hw]
  · rintro ⟨hne, ⟨q1, q2⟩, ⟨-, u, v, hv, heq⟩, hxy⟩
    obtain ⟨rfl, rfl⟩ := Prod.mk.inj heq
    obtain ⟨rfl, rfl⟩ := Prod.mk.inj hxy
    rw [hrr, hrr] at hne ⊢
    rcases h.kept u v hv with hsame | ⟨u', v', hv', hu, hw⟩
    · exact absurd hsame hne
    · exact ⟨hne, u', v', hv', by rw [hu, hw]⟩

end SameEdges

/-- Merging two nodes unites their edges, without the loops. -/
theorem absorb_sameEdges {g : Graph} {a b : Nat} (hm : Mergeable g a b) :
    SameEdges g (g.absorb a b) where
  rep := (absorb_coarser hm).rep
  kept u v hv := by
    obtain ⟨ha, hb⟩ := absorb_both hm
    have hmem : u = a ∨ u = b → (v ∈ ((g.absorb a b).nodes a).copyTo ∨ v = a ∨ v = b) := by
      intro hu
      simp only [absorb, takeOver, if_true, Finset.mem_erase, Finset.mem_union]
      rcases hu with rfl | rfl <;> tauto
    by_cases hu : u = a ∨ u = b
    · have hua : (g.absorb a b).rep u = a := by
        rcases hu with rfl | rfl
        · exact ha
        · exact hb
      rcases hmem hu with hin | rfl | rfl
      · exact .inr ⟨a, v, hin, ha.trans hua.symm, rfl⟩
      · exact .inl (hua.trans ha.symm)
      · exact .inl (hua.trans hb.symm)
    · refine .inr ⟨u, v, ?_, rfl, rfl⟩
      rw [not_or] at hu
      simp only [absorb, if_neg hu.1, if_neg hu.2]
      exact hv
  old u v hv := by
    obtain ⟨ha, hb⟩ := absorb_both hm
    simp only [absorb, takeOver, cleared] at hv
    split at hv
    · rename_i hu
      rcases Finset.mem_union.mp (Finset.mem_of_mem_erase (Finset.mem_of_mem_erase hv)) with hv | hv
      · exact .inr ⟨a, v, hv, by rw [hu], rfl⟩
      · exact .inr ⟨b, v, hv, by rw [hu, ha, hb], rfl⟩
    · split at hv
      · simp at hv
      · exact .inr ⟨u, v, hv, rfl, rfl⟩

end Graph

theorem MergeRun.sameEdges {g g' : Graph} {n1 n2 r : Nat} (h : MergeRun g n1 n2 g' r) :
    SameEdges g g' := by
  induction h with
  | plain hm hr _ => exact absorb_sameEdges (hm.byRank hr)
  | adopt hm hr _ _ => exact (absorb_sameEdges (hm.byRank hr)).trans (.ofSame rfl rfl)
  | same hm hr _ _ _ => exact (absorb_sameEdges (hm.byRank hr)).trans (.ofSame rfl rfl)
  | @cascade g g' _ _ a b _ hm hr _ _ _ _ _ ih =>
      have hfirst : SameEdges g ((g.absorb a b).recordCascade a) :=
        (absorb_sameEdges (hm.byRank hr)).trans (.ofSame rfl rfl)
      exact (hfirst.trans ih).trans (.ofSame rfl rfl)

section

variable {W : Type}

/-- Edges that are replaced by others to the same sets are kept. -/
theorem moveEdges_sameEdges {s : Solver W} {n : Nat} {del add : Finset Nat}
    (hn : s.isRep n = true)
    (hdel : ∀ x ∈ del, s.rep x = s.rep n ∨ ∃ y ∈ add, s.rep y = s.rep x)
    (hadd : ∀ y ∈ add, s.Edge n y) : SameEdges s.toGraph (moveEdges s n del add).toGraph where
  rep h := h
  kept u v hv := by
    by_cases hu : u = n
    · subst hu
      by_cases hd : v ∈ del
      · rcases hdel v hd with heq | ⟨y, hy, hyv⟩
        · exact .inl heq.symm
        · refine .inr ⟨u, y, ?_, rfl, hyv⟩
          rw [moveEdges_nodes, if_pos rfl]
          exact Finset.mem_union_right _ hy
      · refine .inr ⟨u, v, ?_, rfl, rfl⟩
        rw [moveEdges_nodes, if_pos rfl]
        exact Finset.mem_union_left _ (Finset.mem_sdiff.mpr ⟨hv, hd⟩)
    · refine .inr ⟨u, v, ?_, rfl, rfl⟩
      rwa [moveEdges_nodes, if_neg hu]
  old u v hv := by
    rw [moveEdges_nodes] at hv
    split at hv
    · rename_i hu
      subst hu
      rcases Finset.mem_union.mp hv with hv | hv
      · exact .inr ⟨u, v, (Finset.mem_sdiff.mp hv).1, rfl, rfl⟩
      · rcases hadd v hv with heq | ⟨e, he, hev⟩
        · exact .inl heq
        · exact .inr ⟨s.rep u, e, he, rep_rep .., hev⟩
    · exact .inr ⟨u, v, hv, rfl, rfl⟩

/-- Every node and every edge is inside the graph. -/
structure Ranged (sz : Nat) (g : Graph) : Prop where
  size : g.size = sz
  rep : ∀ x < sz, g.rep x < sz
  copy : ∀ n, ∀ e ∈ (g.nodes n).copyTo, e < sz

theorem MergeRun.ranged {sz : Nat} {g g' : Graph} {n1 n2 r : Nat} (h : MergeRun g n1 n2 g' r)
    (hg : Ranged sz g) : Ranged sz g' := by
  have habsorb : ∀ {g : Graph} {a b : Nat}, Mergeable g a b → Ranged sz g →
      Ranged sz (g.absorb a b) := by
    intro g a b hm hg
    refine ⟨hg.size, fun x hx => ?_, fun n e he => ?_⟩
    · rw [absorb_rep hm]
      split
      · exact hg.size ▸ hm.valid1.2
      · exact hg.rep x hx
    · simp only [Graph.absorb, takeOver, cleared] at he
      split at he
      · rcases Finset.mem_union.mp (Finset.mem_of_mem_erase (Finset.mem_of_mem_erase he)) with he | he
        · exact hg.copy a e he
        · exact hg.copy b e he
      · split at he
        · simp at he
        · exact hg.copy n e he
  induction h with
  | plain hm hr _ => exact habsorb (hm.byRank hr) hg
  | adopt hm hr _ _ =>
      have h := habsorb (hm.byRank hr) hg
      exact ⟨h.size, h.rep, h.copy⟩
  | same hm hr _ _ _ =>
      have h := habsorb (hm.byRank hr) hg
      exact ⟨h.size, h.rep, h.copy⟩
  | cascade hm hr _ _ _ _ _ ih =>
      have h := habsorb (hm.byRank hr) hg
      have h' := ih ⟨h.size, h.rep, h.copy⟩
      exact ⟨h'.size, h'.rep, h'.copy⟩

end

section

variable {W : Type} [Worklist W] [LawfulWorklist W]

theorem lcdRules_sameEdges {sz : Nat} (hsz : 0 < sz) (g : Graph) :
    LcdRules (W := W) (· ≠ .fuel) (fun s => Ranged sz s.toGraph ∧ SameEdges g s.toGraph)
      (fun _ s => Ranged sz s.toGraph ∧ SameEdges g s.toGraph) (fun _ b => b < sz) sz where
  permits := permits_noFuel
  fueled h := .inr (h.1.size ▸ hsz)
  weaken h _ := h
  merge h hrun := ⟨hrun.ranged h.1, h.2.trans hrun.sameEdges⟩
  push h _ hwl _ _ := by
    obtain ⟨wl, rfl⟩ := hwl
    exact h
  lcd hs h := by
    rw [show _ = _ from congrArg Anders.toGraph hs.anders]
    exact h
  lcdO hs h := by
    rw [show _ = _ from congrArg Anders.toGraph hs.anders]
    exact h
  edge h hb := h.1.copy _ _ hb
  rep h hb _ := h.1.rep _ hb
  move {s n del add} h hn hdel hadd := by
    refine ⟨⟨h.1.size, h.1.rep, fun m e he => ?_⟩,
      h.2.trans (moveEdges_sameEdges hn hdel fun y hy => (hadd y hy).2)⟩
    rw [moveEdges_nodes] at he
    split at he
    · rcases Finset.mem_union.mp he with he | he
      · exact h.1.copy n e (Finset.mem_sdiff.mp he).1
      · exact (hadd e he).1
    · exact h.1.copy m e he
  ends := .inr ⟨fun _ _ h => h, fun _ h => h.1.size⟩

/-- The state between two visits: the copy graph is inside the node range, no edge leads
to its own node, and none to the null node or the unknown pointer. -/
structure LcdReady (s : Solver W) : Prop where
  ranged : Ranged s.size s.toGraph
  loop : ∀ u, u ∉ (s.nodes u).copyTo
  edge : ∀ u, ∀ d ∈ (s.nodes u).copyTo, s.rep d ≠ 0 ∧ s.rep d ≠ i2p
  start : ∀ n ∈ s.lcdStarts, (n ≠ 0 ∧ n < s.size) ∧ n ≠ i2p
  stk : s.lcdStk = []

omit [Worklist W] [LawfulWorklist W] in
theorem LcdReady.clean {s : Solver W} (h : LcdReady s) : s.Clean s.lcdStarts where
  loop := h.loop
  valid x hx := by
    obtain ⟨n, hn, -, hr⟩ := hx
    rcases hr.cases_tail with rfl | ⟨u, -, d, hd, rfl⟩
    · exact h.start _ hn
    · exact ⟨⟨(h.edge u d hd).1, h.ranged.rep d (h.ranged.copy u d hd)⟩, (h.edge u d hd).2⟩

/-- What a run of cycle detection merges, and what it makes of the edges. -/
theorem runLcd_spec {s : Solver W} (hs : LcdReady s) (hcalm : s.Calm s.lcdStarts) :
    Spec (runLcd s) (fun s' =>
      (∀ x y, s'.rep x = s'.rep y ↔ s.rep x = s.rep y ∨
        (s.Found s.lcdStarts (s.rep x) ∧ s.Found s.lcdStarts (s.rep y)) ∧
          Mutual s.CopiesTo (s.rep x) (s.rep y)) ∧
      SameEdges s.toGraph s'.toGraph) (· ∈ listStops) := by
  have hfind := runLcd_tracks hs.clean hcalm hs.stk
  have hedges : Spec (runLcd s) (fun s' => SameEdges s.toGraph s'.toGraph) (· ≠ .fuel) := by
    by_cases hsz : 0 < s.size
    · refine (runLcd_keeps (lcdRules_sameEdges hsz s.toGraph) ⟨hs.ranged, .refl _⟩
        (.inr fun n hn => (hs.start n hn).1.2)).imp fun s' h => h.2
    · -- without nodes there is no start
      have hnone : s.lcdStarts = ∅ := Finset.eq_empty_of_forall_notMem fun n hn =>
        hsz (Nat.zero_lt_of_lt (hs.start n hn).1.2)
      unfold runLcd
      dsimp only
      rw [hnone, ascending_empty]
      refine spec_require (fun _ => by simp) fun _ => ?_
      exact .ofSame rfl rfl
  refine ((hfind.both hedges).imp fun s' h => ?_).stops fun e he => he.1.resolve_left he.2
  obtain ⟨⟨T, hT, hrep⟩, hsame⟩ := h
  refine ⟨fun x y => ?_, hsame⟩
  rw [hrep, Graph.Merged, hT, hT]

/-- With no offline cycles known, cycle detection merges two representatives if and only
if both can be reached from a start and are in one component, and the proper edges are
the image of those before. -/
theorem runLcd_finds_components (s : Solver W) (hs : LcdReady s) (hempty : ∀ n, s.hcdVar n = none) :
    Spec (runLcd s) (fun s' =>
      (∀ x y, s.isRep x = true → s.isRep y = true → x ≠ y →
        (s'.rep x = s'.rep y ↔ (s.Found s.lcdStarts x ∧ s.Found s.lcdStarts y) ∧
          Mutual s.CopiesTo x y)) ∧
      s'.properEdges =
        {p | p.1 ≠ p.2 ∧ ∃ q ∈ s.properEdges, p = (s'.rep q.1, s'.rep q.2)}) (· ∈ listStops) := by
  have hcalm : s.Calm s.lcdStarts := fun x y _ _ hx => absurd (by simp [hv, hempty]) hx
  refine (runLcd_spec hs hcalm).imp fun s' h => ?_
  obtain ⟨hrep, hsame⟩ := h
  refine ⟨fun x y hx hy hne => ?_, hsame.properEdges_eq⟩
  rw [hrep, rep_eq_self.mpr hx, rep_eq_self.mpr hy]
  exact or_iff_right hne

end

/-- A cycle through 4, 5 and 6 whose edge to 6 still names node 7, which was merged into
it before. -/
def staleCycle : Solver (Lists true PrioHeap) :=
  { startState (Lists true PrioHeap) { Anders.initial 8 7 (fun n =>
      { copyTo := if n = 4 then {5} else if n = 5 then {7} else if n = 6 then {4} else ∅ }) [] with
    forest := Forest.discrete.join 6 7 } with
    lcdStarts := {4} }

theorem staleCycle_copyTo {u d : Nat} (h : d ∈ (staleCycle.nodes u).copyTo) :
    u = 4 ∧ d = 5 ∨ u = 5 ∧ d = 7 ∨ u = 6 ∧ d = 4 := by
  simp only [staleCycle, startState, Anders.initial] at h
  split at h
  · simp_all
  · split at h
    · simp_all
    · split at h
      · simp_all
      · simp at h

theorem staleCycle_ready : LcdReady staleCycle where
  ranged := ⟨rfl, by decide, fun n e he => by
    rcases staleCycle_copyTo he with ⟨-, rfl⟩ | ⟨-, rfl⟩ | ⟨-, rfl⟩ <;> decide⟩
  loop u hu := by
    rcases staleCycle_copyTo hu with ⟨rfl, h⟩ | ⟨rfl, h⟩ | ⟨rfl, h⟩ <;> omega
  edge u d hd := by
    rcases staleCycle_copyTo hd with ⟨-, rfl⟩ | ⟨-, rfl⟩ | ⟨-, rfl⟩ <;> decide
  start n hn := by
    obtain rfl := Finset.mem_singleton.mp hn
    decide
  stk := rfl

theorem runLcd_finds_components_stale :
    ∃ s', runLcd staleCycle = .ok s' ∧ s'.rep 4 = s'.rep 6 := by
  have h := runLcd_finds_components staleCycle staleCycle_ready fun _ => rfl
  cases hrun : runLcd staleCycle with
  | error e =>
      have hok : (runLcd staleCycle).toOption.isSome = true := by decide +kernel
      rw [hrun] at hok
      cases hok
  | ok s' =>
      obtain ⟨hrep, -⟩ := h.result hrun
      have h45 : staleCycle.CopiesTo 4 5 := ⟨5, by decide, by decide⟩
      have h56 : staleCycle.CopiesTo 5 6 := ⟨7, by decide, by decide⟩
      have h64 : staleCycle.CopiesTo 6 4 := ⟨4, by decide, by decide⟩
      have hfound : staleCycle.Found staleCycle.lcdStarts 4 := ⟨4, by decide, by decide, .refl⟩
      have h46 : ReflTransGen staleCycle.CopiesTo 4 6 := .tail (.single h45) h56
      refine ⟨s', rfl, (hrep 4 6 (by decide) (by decide) (by decide)).mpr ⟨⟨hfound, ?_⟩, h46, ?_⟩⟩
      · exact hfound.to h46
      · exact .single h64

end PtrAnalysis
