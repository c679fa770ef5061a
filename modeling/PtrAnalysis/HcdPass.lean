import PtrAnalysis.HcdFlow
import PtrAnalysis.Rewriting
import PtrAnalysis.Solved

/-!
# The pass of hybrid cycle detection

Merging the variables of offline cycles and rewriting the constraints loses nothing of the least
solution. Where every pointer that is stored through points to something it changes nothing, and
what the pass hands to the solver is right: a node with a target points to nodes that have the
set of the target.
-/

namespace PtrAnalysis

open Run PtrAnalysis.Graph

/-- What the offline search starts from: IDs in range, no set solved and no target entered. -/
structure Anders.HcdReady (a : Anders) : Prop where
  pointer : (a.nodes pI2p).objSz = 0
  node : ∀ C ∈ a.constraints, C.dest < a.size ∧ C.src < a.size
  rep : ∀ x < a.size, a.rep x < a.size
  fresh : a.Fresh
  calls : a.CallsListed
  targets : ∀ n, a.hcdVar n = none

variable {a b : Anders} {func : Nat → Prop}

namespace Anders.HcdReady

theorem hv (ha : a.HcdReady) (n : Nat) : a.hv n = 0 := by
  rw [Graph.hv, ha.targets]
  rfl

theorem keeps (ha : a.HcdReady) : HcdKeeps (fun _ => True) a a :=
  ⟨rfl, .refl _, fun h => absurd trivial h, fun _ => .inr trivial, ha.fresh⟩

/-- Without sets there is nothing beyond the least solution. -/
theorem precise (ha : a.HcdReady) : HcdPrecise (a.Flow func) a.size a := by
  have hpts : ∀ n o, o ∉ (a.nodes n).pointsTo := fun n o => by simp [(ha.fresh n).1]
  have hcopy : ∀ n e, e ∉ (a.nodes n).copyTo := fun n e => by simp [(ha.fresh n).2.2.1]
  refine ⟨⟨fun x y hxy o hx => .same hxy hx, fun n o ho => absurd ho (hpts n o),
    fun n e he => absurd he (hcopy n e), fun n hn => absurd (ha.hv n) hn⟩,
    ⟨rfl, ha.rep, fun n h hh => ?_, fun n o ho => absurd ho (hpts n o), fun n => ?_,
      fun n e he => absurd he (hcopy n e)⟩⟩
  · rw [ha.targets] at hh
    cases hh
  · rw [(ha.fresh n).2.1]
    exact Finset.empty_subset _

end Anders.HcdReady

/-- A search over the offline graph of `a`, with counters and labels from before, ends with the
main graph `c`. -/
def HcdRun (a c : Anders) : Prop :=
  ∃ o0 o g o', makeOffNodes a = .ok o0 ∧ o.size = o0.size ∧
    (o.main2off = o0.main2off ∧ o.nodes = o0.nodes ∧ o.firstVAL = o0.firstVAL ∧
      o.firstREF = o0.firstREF ∧ o.forest = o0.forest ∧ o.dfsStk = o0.dfsStk) ∧
    addOffEdges a true o = .ok g ∧ hcdSearch a (setMainNodes a.size g) = .ok (c, o')

theorem hcd_run (hrun : hcd a = .ok b) : ∃ c, HcdRun a c ∧ b = c.rewrite c.constraints c.icallCons := by
  obtain ⟨o, hn, hrun⟩ := bind_ok.mp hrun
  obtain ⟨g, he, hrun⟩ := bind_ok.mp hrun
  obtain ⟨⟨c, o'⟩, hsearch, hrun⟩ := bind_ok.mp hrun
  cases hrun
  exact ⟨c, ⟨o, o, g, o', hn, rfl, ⟨rfl, rfl, rfl, rfl, rfl, rfl⟩, he, hsearch⟩, rfl⟩

/-- The pass over `a` merges nodes, which gives `c`, and rewrites the constraints. -/
structure HcdPass (func : Nat → Prop) (a c : Anders) : Prop where
  keeps : HcdKeeps (fun _ => True) a c
  precise : a.StoresReach func → HcdPrecise (a.Flow func) a.size c

theorem HcdRun.pass {c : Anders} (h : HcdRun a c) (ha : a.HcdReady) : HcdPass func a c := by
  obtain ⟨o0, o, g, o', hn, hsize, ⟨hmain, hnodes, hval, href, hforest, hstk⟩, he, hsearch⟩ := h
  have hkeeps : HcdKeeps (fun _ => True) a c :=
    ((hcdSearch_fits ⟨ha.keeps, ⟨fun _ _ => trivial, fun _ => .inr trivial⟩⟩).result hsearch).1
  refine ⟨hkeeps, fun hs => ?_⟩
  have hgraphs := OffGraph.graphs_hcd ha.pointer hn hnodes ⟨hmain, hval, href⟩ he
  have hmapped := OffGraph.setMainNodes_mapped hgraphs a.size
  have hbuilt : g.Built := by
    have h0 := makeOffNodes_built.result hn
    have hsame : o.Built := by
      refine ⟨⟨?_, hforest.trans h0.forest, fun x => hnodes ▸ h0.node x, hstk.trans h0.stk,
        fun u v huv => ?_⟩, fun i => ?_⟩
      · rw [OffGraph.nREF, hsize, href]
        exact h0.size_eq
      · have hclean := h0.clean u v (by unfold OffGraph.Succ at huv ⊢; rwa [hnodes] at huv)
        unfold OffGraph.Valid at hclean ⊢
        rwa [hsize]
      · rw [hmain, href]
        exact h0.main i
    unfold addOffEdges at he
    exact (spec_foldlM_keeps (E := fun _ => True) hsame
      fun C _ o h => addOffEdge_built true h C).result he
  refine (hcdSearch_keeps (keepsScc_precise hgraphs hmapped hs ha.node) ha.precise
    ⟨fun _ => rfl, fun _ => rfl, rfl⟩ (fun x => ?_) ?_).result hsearch
  · rw [(hmapped.node x).1, (hmapped.node x).2]
    exact (hbuilt.node x).symm
  · exact hmapped.stk.trans hbuilt.stk

section

variable {c : Anders} (h : HcdPass func a c) (ha : a.HcdReady)

include h ha

theorem HcdPass.rewritten : (a.system func).Rewritten
    ((c.rewrite c.constraints c.icallCons).system func) a.rep c.rep := by
  have hcons : c.constraints = a.constraints := by rw [h.keeps.frame]
  have hicall : c.icallCons = a.icallCons := by rw [h.keeps.frame]
  rw [hcons, hicall]
  exact Anders.rewritten h.keeps.coarser.rep h.keeps.coarser.objSz ha.calls (fun _ hC => hC)
    (fun _ he => he) (fun _ he _ => he) fun _ hC => .inl hC

/-- What the pass leaves of the least solution, and what it says about it. -/
theorem HcdPass.exact (hs : a.StoresReach func)
    (hapart : (a.system func).Apart ((c.rewrite c.constraints c.icallCons).system func) c.rep) :
    (∀ n o, (c.rewrite c.constraints c.icallCons).Flow func n o ↔ a.Flow func n o) ∧
      (∀ x y, c.rep x = c.rep y → ∀ o, a.Flow func x o ↔ a.Flow func y o) ∧
      ∀ n, c.hv n ≠ 0 → TargetOf (a.Flow func) n (c.hv n) := by
  have hprecise := (h.precise hs).precise
  refine ⟨fun n o => ⟨?_, fun hf => (h.rewritten ha).sound hapart hf⟩,
    fun x y hxy => hprecise.equal.iff hxy, hprecise.target⟩
  exact (h.rewritten ha).precise fun {x y} hxy v hx => hprecise.equal x y hxy v hx

end

/-- Hybrid cycle detection loses nothing of the least solution. -/
theorem hcd_sound (ha : a.HcdReady) (hrun : hcd a = .ok b)
    (hapart : (a.system func).Apart (b.system func) b.rep) {n o : Nat} (hf : a.Flow func n o) :
    b.Flow func n o := by
  obtain ⟨c, hc, rfl⟩ := hcd_run hrun
  exact ((hc.pass ha).rewritten ha).sound hapart hf

/-- Where every pointer that is stored through points to something, it changes nothing: the answers
are the same, merged nodes had equal sets, and all that a node with a target points to has the
set of the target. -/
theorem hcd_exact (ha : a.HcdReady) (hs : a.StoresReach func) (hrun : hcd a = .ok b)
    (hapart : (a.system func).Apart (b.system func) b.rep) :
    (∀ n o, b.Flow func n o ↔ a.Flow func n o) ∧
      (∀ x y, b.rep x = b.rep y → ∀ o, a.Flow func x o ↔ a.Flow func y o) ∧
      ∀ n, b.hv n ≠ 0 → TargetOf (a.Flow func) n (b.hv n) := by
  obtain ⟨c, hc, rfl⟩ := hcd_run hrun
  exact (hc.pass ha).exact ha hs hapart

/-- All that `p` points to has the set of `q`. -/
theorem hcd_exact_cycle : ∃ b, hcd storedBack = .ok b ∧ b.hv 4 = 5 ∧
    TargetOf (storedBack.Flow fun _ => False) 4 5 := by
  have hcalls : storedBack.NoCalls (.uniform false) :=
    Anders.initial_noCalls (by decide) (fieldlessObjects_node 3)
  have ha : storedBack.HcdReady := ⟨rfl, hcalls.node, fun _ => id, hcalls.fresh,
    fun C hC => absurd hC (IcallCons.not_tagged_nil C), fun _ => rfl⟩
  have hs : storedBack.StoresReach fun _ => False := fun C hC ht _ => by
    have hdest : ∀ C ∈ storedBack.constraints, C.type = .store → C.dest = 4 := by decide
    rw [hdest C hC ht]
    exact ⟨3, .addr (C := ⟨.addrOf, 4, 3, 0⟩) (List.mem_cons_self ..) rfl, by decide⟩
  have hrun : (hcd storedBack).toOption.any (fun b => decide (b.hv 4 = 5)) = true := by
    decide +kernel
  cases hb : hcd storedBack with
  | error e =>
      rw [hb] at hrun
      cases hrun
  | ok b =>
      rw [hb] at hrun
      have h4 : b.hv 4 = 5 := of_decide_eq_true hrun
      obtain ⟨c, hc, hbc⟩ := hcd_run hb
      have hapart : (storedBack.system fun _ => False).Apart (b.system fun _ => False) b.rep := by
        rw [hbc]
        exact ((hc.pass ha).rewritten ha).apart IcallCons.not_tagged_nil
      obtain ⟨-, -, htarget⟩ := hcd_exact ha hs hb hapart
      have ht := htarget 4 (by rw [h4]; decide)
      rw [h4] at ht
      exact ⟨b, rfl, h4, ht⟩

end PtrAnalysis
