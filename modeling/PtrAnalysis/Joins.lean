import PtrAnalysis.Merge

/-!
# Which joins a merge makes

Merging two nodes joins their sets, and their targets' sets, and so on: a chain,
since `hcdVar` does not change on the way down. `joins` lists the pairs, with
which node becomes the parent of the other. On the way back up `mergeNodes` asserts
that each parent is still a representative unless it was the second of the next
pair. So a merge fails exactly if some parent goes under another node otherwise,
or if a target is a node that is never merged (`Smooth`); if it succeeds, the
partition is the one the targets force, and the merged node has everything its set
had.
-/

namespace PtrAnalysis

open Run PtrAnalysis.Graph

/-- Two sets that are joined: their representatives in the order of the arguments, and
as parent and child. -/
structure Join where
  first : Nat
  second : Nat
  parent : Nat
  child : Nat
  deriving DecidableEq, Repr

/-- The joins a merge of two representatives leads to. -/
def joins : Nat → Graph → Nat → Nat → List Join
  | 0, _, _, _ => []
  | fuel + 1, g, n1, n2 =>
    let (a, c) := byRank g n1 n2
    let g := g.absorb a c
    ⟨n1, n2, a, c⟩ ::
      if g.hv c ≠ 0 ∧ g.hv a ≠ 0 ∧ g.rep (g.hv a) ≠ g.rep (g.hv c) then
        joins fuel g (g.rep (g.hv a)) (g.rep (g.hv c))
      else []

/-- No parent goes under another node later, unless it is the second of the next pair. -/
def KeepsParents : List Join → Prop
  | [] => True
  | j :: l => (∀ k ∈ l, k.child = j.parent → l.head?.map Join.second = some j.parent) ∧
      KeepsParents l

instance instDecidableKeepsParents : ∀ l, Decidable (KeepsParents l)
  | [] => .isTrue trivial
  | _ :: l =>
    have := instDecidableKeepsParents l
    inferInstanceAs (Decidable (_ ∧ _))

/-- All pairs may be joined, and all parents stay what they are. -/
def Smooth (l : List Join) : Prop :=
  (∀ j ∈ l, j.first ≠ 0 ∧ j.first ≠ i2p ∧ j.second ≠ 0 ∧ j.second ≠ i2p) ∧ KeepsParents l

instance (l : List Join) : Decidable (Smooth l) := by
  unfold Smooth
  infer_instance

/-! ## What a merge forces -/

/-- The partition a merge of `n1` and `n2` forces: the old one with both joined, and the
targets of joined sets joined as well. -/
inductive Forced (g : Graph) (n1 n2 : Nat) : Nat → Nat → Prop
  | old {x y : Nat} (h : g.rep x = g.rep y) : Forced g n1 n2 x y
  | args : Forced g n1 n2 n1 n2
  | target {K L : Nat} (hK : g.isRep K = true) (hL : g.isRep L = true) (hvK : g.hv K ≠ 0)
      (hvL : g.hv L ≠ 0) (h : Forced g n1 n2 K L) : Forced g n1 n2 (g.hv K) (g.hv L)
  | symm {x y : Nat} (h : Forced g n1 n2 x y) : Forced g n1 n2 y x
  | trans {x y z : Nat} (h : Forced g n1 n2 x y) (h' : Forced g n1 n2 y z) : Forced g n1 n2 x z

/-- What one absorption puts together was forced. -/
theorem Forced.absorb {g : Graph} {n1 n2 a c x y : Nat} (hm : Mergeable g a c)
    (hac : Forced g n1 n2 a c) (h : (g.absorb a c).rep x = (g.absorb a c).rep y) :
    Forced g n1 n2 x y := by
  have hto : ∀ z, Forced g n1 n2 z ((g.absorb a c).rep z) := by
    intro z
    rw [absorb_rep hm]
    have hz : Forced g n1 n2 z (g.rep z) := .old (rep_rep g z).symm
    split
    · rename_i hc
      exact hz.trans (hc ▸ hac.symm)
    · exact hz
  exact (hto x).trans (h ▸ (hto y).symm)

theorem byRank_forced {g : Graph} {n1 n2 a c : Nat} (hr : byRank g n1 n2 = (a, c)) :
    Forced g n1 n2 a c := by
  rcases byRank_cases g n1 n2 with h | h <;> rw [h] at hr <;> cases hr
  · exact .args
  · exact .symm .args

/-- A merge joins nothing that is not forced. -/
theorem MergeRun.forced {g g' : Graph} {n1 n2 r x y : Nat} (h : MergeRun g n1 n2 g' r)
    (hxy : g'.rep x = g'.rep y) : Forced g n1 n2 x y := by
  induction h generalizing x y with
  | plain hm hr _ => exact .absorb (hm.byRank hr) (byRank_forced hr) hxy
  | adopt hm hr _ _ => exact .absorb (hm.byRank hr) (byRank_forced hr) hxy
  | same hm hr _ _ _ => exact .absorb (hm.byRank hr) (byRank_forced hr) hxy
  | @cascade g g' n1 n2 a c r hm hr hc ha _ _ _ ih =>
      have hab := hm.byRank hr
      have hac := byRank_forced hr
      have hold : ∀ {x y}, (g.absorb a c).rep x = (g.absorb a c).rep y → Forced g n1 n2 x y :=
        fun h => .absorb hab hac h
      have htargets : Forced g n1 n2 (g.hv a) (g.hv c) :=
        .target hab.isRep.1 hab.isRep.2 ha hc hac
      have hf := ih hxy
      clear hxy
      induction hf with
      | old h => exact hold h
      | args => exact ((hold (rep_rep _ _)).trans htargets).trans (hold (rep_rep _ _).symm)
      | target hK hL hvK hvL _ ih =>
          exact .target ((absorb_isRep hab _).mp hK).1 ((absorb_isRep hab _).mp hL).1 hvK hvL ih
      | symm _ ih => exact ih.symm
      | trans _ _ ih ih' => exact ih.trans ih'

/-- A merge joins everything that is forced. -/
theorem Forced.merged {g g' : Graph} {n1 n2 r x y : Nat} (h : Forced g n1 n2 x y)
    (hrun : MergeRun g n1 n2 g' r) : g'.rep x = g'.rep y := by
  induction h with
  | old h => exact hrun.spec.1.rep h
  | args => rw [hrun.spec.2.1, hrun.spec.2.2.1]
  | target hK hL hvK hvL _ ih =>
      rw [← (hrun.target hK hvK).2, ← (hrun.target hL hvL).2, ih]
  | symm _ ih => exact ih.symm
  | trans _ _ ih ih' => exact ih.trans ih'

/-! ## What the merged node has -/

/-- Representative `n` of `g'` has of `f` what its members had. -/
def Collects (f : Node → Nat → Prop) (g g' : Graph) (n : Nat) : Prop :=
  ∀ o, f (g'.nodes n) o ↔ ∃ x, g.isRep x = true ∧ g'.rep x = n ∧ f (g.nodes x) o

/-- Something a node hands over when it is merged away. -/
def HandedOver (f : Node → Nat → Prop) : Prop :=
  ∀ (n1 n2 : Nat) (N1 N2 : Node) (o : Nat), f (takeOver n1 n2 N1 N2) o ↔ f N1 o ∨ f N2 o

theorem Collects.absorb {f : Node → Nat → Prop} (hf : HandedOver f) {g : Graph} {a c : Nat}
    (hm : Mergeable g a c) {n : Nat} (hn : (g.absorb a c).isRep n = true) :
    Collects f g (g.absorb a c) n := by
  intro o
  obtain ⟨hn', hnc⟩ := (absorb_isRep hm n).mp hn
  have hself : ∀ {x}, g.isRep x = true → (g.absorb a c).rep x = if x = c then a else x := by
    intro x hx
    rw [absorb_rep hm, rep_eq_self.mpr hx]
  constructor
  · intro h
    by_cases hna : n = a
    · simp only [Graph.absorb, if_pos hna] at h
      rcases (hf ..).mp h with h | h
      · exact ⟨a, hm.isRep.1, by rw [hself hm.isRep.1, if_neg hm.ne, hna], h⟩
      · exact ⟨c, hm.isRep.2, by rw [hself hm.isRep.2, if_pos rfl, hna], h⟩
    · simp only [Graph.absorb, if_neg hna, if_neg hnc] at h
      exact ⟨n, hn', by rw [hself hn', if_neg hnc], h⟩
  · rintro ⟨x, hx, hxn, h⟩
    rw [hself hx] at hxn
    by_cases hxc : x = c
    · rw [if_pos hxc] at hxn
      simp only [Graph.absorb, if_pos hxn.symm]
      exact (hf ..).mpr (.inr (hxc ▸ h))
    · rw [if_neg hxc] at hxn
      subst hxn
      by_cases hxa : x = a
      · simp only [Graph.absorb, if_pos hxa]
        exact (hf ..).mpr (.inl (hxa ▸ h))
      · simp only [Graph.absorb, if_neg hxa, if_neg hxc]
        exact h

/-- The merged node collects what is handed over. -/
theorem MergeRun.collects {f : Node → Nat → Prop} (hf : HandedOver f) {g g' : Graph}
    {n1 n2 r : Nat} (h : MergeRun g n1 n2 g' r) {n : Nat} (hn : g'.isRep n = true) :
    Collects f g g' n := by
  induction h generalizing n with
  | plain hm hr _ => exact .absorb hf (hm.byRank hr) hn
  | adopt hm hr _ _ => exact Collects.absorb hf (hm.byRank hr) hn
  | same hm hr _ _ _ => exact Collects.absorb hf (hm.byRank hr) hn
  | @cascade g g' n1 n2 a c r hm hr _ _ _ hrun _ ih =>
      intro o
      have hab := hm.byRank hr
      refine (ih hn o).trans ⟨?_, ?_⟩
      · rintro ⟨x, hx, hxn, h⟩
        obtain ⟨y, hy, hyx, h⟩ := (Collects.absorb hf hab hx o).mp h
        refine ⟨y, hy, ?_, h⟩
        rw [← hxn]
        exact hrun.spec.1.rep (hyx.trans (rep_eq_self.mpr hx).symm)
      · rintro ⟨y, hy, hyn, h⟩
        refine ⟨(g.absorb a c).rep y, isRep_rep .., ?_, ?_⟩
        · rw [← hyn]
          exact hrun.spec.1.rep (rep_rep _ y)
        · exact (Collects.absorb hf hab (isRep_rep _ y) o).mpr ⟨y, hy, rfl, h⟩

theorem handedOver_pts : HandedOver fun N o => o ∈ N.pointsTo :=
  fun _ _ _ _ _ => Finset.mem_union

theorem handedOver_list (t : ConsType) : HandedOver fun N cid => cid ∈ N.list t := by
  intro n1 n2 N1 N2 cid
  cases t <;> simp [Node.list, takeOver]

/-- The copy edges of a node are those of its members, apart from some that became
loops. -/
theorem absorb_collects_copy {g : Graph} {a c : Nat} (hm : Mergeable g a c) {n : Nat}
    (hn : (g.absorb a c).isRep n = true) (e : Nat) :
    (e ∈ ((g.absorb a c).nodes n).copyTo →
      ∃ x, g.isRep x = true ∧ (g.absorb a c).rep x = n ∧ e ∈ (g.nodes x).copyTo) ∧
    ∀ x, g.isRep x = true → (g.absorb a c).rep x = n → e ∈ (g.nodes x).copyTo →
      (g.absorb a c).rep e ≠ n → e ∈ ((g.absorb a c).nodes n).copyTo := by
  obtain ⟨hn', hnc⟩ := (absorb_isRep hm n).mp hn
  have hself : ∀ {x}, g.isRep x = true → (g.absorb a c).rep x = if x = c then a else x := by
    intro x hx
    rw [absorb_rep hm, rep_eq_self.mpr hx]
  constructor
  · intro h
    by_cases hna : n = a
    · simp only [Graph.absorb, if_pos hna, takeOver] at h
      rcases Finset.mem_union.mp (Finset.mem_of_mem_erase (Finset.mem_of_mem_erase h)) with h | h
      · exact ⟨a, hm.isRep.1, by rw [hself hm.isRep.1, if_neg hm.ne, hna], h⟩
      · exact ⟨c, hm.isRep.2, by rw [hself hm.isRep.2, if_pos rfl, hna], h⟩
    · simp only [Graph.absorb, if_neg hna, if_neg hnc] at h
      exact ⟨n, hn', by rw [hself hn', if_neg hnc], h⟩
  · intro x hx hxn he hloop
    rw [hself hx] at hxn
    have hkeep : n = a → e ≠ a ∧ e ≠ c := fun hna =>
      ⟨fun h => hloop (by rw [h, hna]; exact (absorb_both hm).1),
        fun h => hloop (by rw [h, hna]; exact (absorb_both hm).2)⟩
    by_cases hxc : x = c
    · rw [if_pos hxc] at hxn
      obtain ⟨h1, h2⟩ := hkeep hxn.symm
      simp only [Graph.absorb, if_pos hxn.symm, takeOver]
      exact Finset.mem_erase.mpr ⟨h2, Finset.mem_erase.mpr ⟨h1, Finset.mem_union_right _ (hxc ▸ he)⟩⟩
    · rw [if_neg hxc] at hxn
      subst hxn
      by_cases hxa : x = a
      · obtain ⟨h1, h2⟩ := hkeep hxa
        simp only [Graph.absorb, if_pos hxa, takeOver]
        exact Finset.mem_erase.mpr ⟨h2, Finset.mem_erase.mpr ⟨h1, Finset.mem_union_left _ (hxa ▸ he)⟩⟩
      · simp only [Graph.absorb, if_neg hxa, if_neg hxc]
        exact he

theorem MergeRun.collects_copy {g g' : Graph} {n1 n2 r : Nat} (h : MergeRun g n1 n2 g' r) {n : Nat}
    (hn : g'.isRep n = true) (e : Nat) :
    (e ∈ (g'.nodes n).copyTo → ∃ x, g.isRep x = true ∧ g'.rep x = n ∧ e ∈ (g.nodes x).copyTo) ∧
    ∀ x, g.isRep x = true → g'.rep x = n → e ∈ (g.nodes x).copyTo → g'.rep e ≠ n →
      e ∈ (g'.nodes n).copyTo := by
  induction h generalizing n with
  | plain hm hr _ => exact absorb_collects_copy (hm.byRank hr) hn e
  | adopt hm hr _ _ => exact absorb_collects_copy (hm.byRank hr) hn e
  | same hm hr _ _ _ => exact absorb_collects_copy (hm.byRank hr) hn e
  | @cascade g g' n1 n2 a c r hm hr _ _ _ hrun _ ih =>
      have hab := hm.byRank hr
      refine ⟨fun he => ?_, fun y hy hyn he hloop => ?_⟩
      · obtain ⟨x, hx, hxn, he⟩ := (ih hn).1 he
        obtain ⟨y, hy, hyx, he⟩ := (absorb_collects_copy hab hx e).1 he
        refine ⟨y, hy, ?_, he⟩
        rw [show (g'.setHcdVar c none).rep y = g'.rep y from rfl, ← hxn]
        exact hrun.spec.1.rep (hyx.trans (rep_eq_self.mpr hx).symm)
      · have hstep : g'.rep ((g.absorb a c).rep y) = n := by
          rw [← hyn]
          exact hrun.spec.1.rep (rep_rep _ y)
        refine (ih hn).2 ((g.absorb a c).rep y) (isRep_rep ..) hstep ?_ hloop
        refine (absorb_collects_copy hab (isRep_rep _ y) e).2 y hy rfl he fun hey => hloop ?_
        have hloop' : g'.rep e = g'.rep ((g.absorb a c).rep y) :=
          hrun.spec.1.rep (hey.trans (rep_rep _ y).symm)
        exact hloop'.trans hstep

/-- What a merge is to achieve. -/
structure Merged (g : Graph) (n1 n2 : Nat) (g' : Graph) (r : Nat) : Prop where
  isRep : g'.isRep r = true
  both : g'.rep n1 = r ∧ g'.rep n2 = r
  partition : ∀ x y, g'.rep x = g'.rep y ↔ Forced g n1 n2 x y
  pts : Collects (fun N o => o ∈ N.pointsTo) g g' r
  list : ∀ t, Collects (fun N cid => cid ∈ N.list t) g g' r
  copy : ∀ e, (e ∈ (g'.nodes r).copyTo →
      ∃ x, g.isRep x = true ∧ g'.rep x = r ∧ e ∈ (g.nodes x).copyTo) ∧
    ∀ x, g.isRep x = true → g'.rep x = r → e ∈ (g.nodes x).copyTo → g'.rep e ≠ r →
      e ∈ (g'.nodes r).copyTo
  prev : (g'.nodes r).prevPointsTo = ∅

theorem MergeRun.prev {g g' : Graph} {n1 n2 r : Nat} (h : MergeRun g n1 n2 g' r) :
    (g'.nodes r).prevPointsTo = ∅ := by
  cases h with
  | plain => simp [Graph.absorb, takeOver]
  | adopt => simp [Graph.setHcdVar, Graph.absorb, takeOver]
  | same => simp [Graph.setHcdVar, Graph.absorb, takeOver]
  | @cascade _ g' _ _ a c _ hm hr _ _ _ hrun _ =>
      have hprev := hrun.spec.1.prev a
      rw [show ((g.absorb a c).recordCascade a).rep a = a from (absorb_both (hm.byRank hr)).1] at hprev
      refine Finset.subset_empty.mp (hprev.trans ?_)
      simp [Graph.recordCascade, Graph.absorb, takeOver]

theorem MergeRun.merged {g g' : Graph} {n1 n2 r : Nat} (h : MergeRun g n1 n2 g' r) :
    Merged g n1 n2 g' r := by
  have hr : g'.isRep r = true := by
    rw [← h.spec.2.1]
    exact isRep_rep ..
  exact ⟨hr, ⟨h.spec.2.1, h.spec.2.2.1⟩, fun x y => ⟨h.forced, fun hf => hf.merged h⟩,
    h.collects handedOver_pts hr, fun t => h.collects (handedOver_list t) hr,
    fun e => h.collects_copy hr e, h.prev⟩

/-! ## When a merge succeeds -/

/-- Partition and targets determine the chain. -/
theorem joins_congr {g g' : Graph} (hf : g'.forest = g.forest) (hv : g'.hcdVar = g.hcdVar) :
    ∀ fuel n1 n2, joins fuel g' n1 n2 = joins fuel g n1 n2 := by
  intro fuel
  induction fuel generalizing g g' with
  | zero => exact fun _ _ => rfl
  | succ fuel ih =>
      intro n1 n2
      have hr : byRank g' n1 n2 = byRank g n1 n2 := by simp only [byRank, hf]
      have hrep : ∀ a c, (g'.absorb a c).rep = (g.absorb a c).rep := fun a c => by
        funext x
        simp only [Graph.rep, Graph.absorb, hf]
      have hv' : g'.hv = g.hv := by
        funext x
        simp only [Graph.hv, hv]
      have habs : ∀ a c, joins fuel (g'.absorb a c) = joins fuel (g.absorb a c) := fun a c =>
        funext₂ fun x y => @ih (g.absorb a c) (g'.absorb a c)
          (by simp only [Graph.absorb, hf]) hv x y
      simp only [joins, hr, hrep, absorb_hv, hv', habs]
      congr 1

/-- The chain of a merge that succeeded, and who is no representative after it. -/
theorem MergeRun.joins {g g' : Graph} {n1 n2 r : Nat} (h : MergeRun g n1 n2 g' r) :
    ∀ fuel, g.reps.card ≤ fuel → Smooth (joins fuel g n1 n2) ∧
      ∀ x, g'.isRep x = true ↔ g.isRep x = true ∧ ∀ j ∈ joins fuel g n1 n2, j.child ≠ x := by
  have hpos : ∀ {g : Graph} {n1 n2 : Nat}, Mergeable g n1 n2 → 0 < g.reps.card := fun hm =>
    Finset.card_pos.mpr ⟨_, mem_reps.mpr ⟨hm.valid1.2, hm.isRep.1⟩⟩
  -- a chain of one join
  have hone : ∀ {g g' : Graph} {n1 n2 a c fuel : Nat}, Mergeable g n1 n2 →
      byRank g n1 n2 = (a, c) → g.reps.card ≤ fuel →
      ¬ (g.hv c ≠ 0 ∧ g.hv a ≠ 0 ∧ (g.absorb a c).rep (g.hv a) ≠ (g.absorb a c).rep (g.hv c)) →
      (∀ x, g'.isRep x = (g.absorb a c).isRep x) → Smooth (PtrAnalysis.joins fuel g n1 n2) ∧
        ∀ x, g'.isRep x = true ↔
          g.isRep x = true ∧ ∀ j ∈ PtrAnalysis.joins fuel g n1 n2, j.child ≠ x := by
    intro g g' n1 n2 a c fuel hm hr hfuel hend hrep
    obtain ⟨fuel, rfl⟩ := Nat.exists_eq_succ_of_ne_zero (Nat.ne_of_gt (Nat.lt_of_lt_of_le (hpos hm) hfuel))
    simp only [PtrAnalysis.joins, hr, absorb_hv, if_neg hend]
    refine ⟨⟨?_, ?_, trivial⟩, fun x => ?_⟩
    · intro j hj
      obtain rfl := List.mem_singleton.mp hj
      exact ⟨hm.valid1.1, hm.not_i2p.1, hm.valid2.1, hm.not_i2p.2⟩
    · intro k hk
      cases hk
    · rw [hrep, absorb_isRep (hm.byRank hr)]
      simp only [List.mem_singleton, forall_eq]
      exact and_congr_right fun _ => ne_comm
  induction h with
  | plain hm hr hc =>
      exact fun fuel hfuel => hone hm hr hfuel (fun h => h.1 hc) fun _ => rfl
  | adopt hm hr _ ha =>
      exact fun fuel hfuel => hone hm hr hfuel (fun h => h.2.1 ha) fun _ => rfl
  | same hm hr _ _ heq =>
      exact fun fuel hfuel => hone hm hr hfuel (fun h => h.2.2 heq) fun _ => rfl
  | @cascade g g' n1 n2 a c r hm hr hc ha hne hrun hkeep ih =>
      intro fuel hfuel
      have hab := hm.byRank hr
      obtain ⟨fuel, rfl⟩ :=
        Nat.exists_eq_succ_of_ne_zero (Nat.ne_of_gt (Nat.lt_of_lt_of_le (hpos hm) hfuel))
      have hcard := absorb_reps_card hab
      have hnext := ih fuel (by
        change (g.absorb a c).reps.card ≤ fuel
        omega)
      have hsame : ∀ fuel x y, PtrAnalysis.joins fuel ((g.absorb a c).recordCascade a) x y =
          PtrAnalysis.joins fuel (g.absorb a c) x y := joins_congr rfl rfl
      simp only [PtrAnalysis.joins, hr, absorb_hv, if_pos (⟨hc, ha, hne⟩ :
        g.hv c ≠ 0 ∧ g.hv a ≠ 0 ∧ (g.absorb a c).rep (g.hv a) ≠ (g.absorb a c).rep (g.hv c))]
      rw [hsame] at hnext
      obtain ⟨⟨hargs, hkeeps⟩, hreps⟩ := hnext
      refine ⟨⟨?_, ?_, hkeeps⟩, fun x => ?_⟩
      · intro j hj
        rcases List.mem_cons.mp hj with rfl | hj
        · exact ⟨hm.valid1.1, hm.not_i2p.1, hm.valid2.1, hm.not_i2p.2⟩
        · exact hargs j hj
      · -- a parent that went under another node was the second of the next pair
        intro k hk hchild
        have hnot : g'.isRep a ≠ true := fun hrep => ((hreps a).mp hrep).2 k hk hchild
        have hself : a = (g.absorb a c).rep (g.hv c) := by
          by_contra hself
          exact hnot (hkeep hself)
        cases fuel with
        | zero => cases hk
        | succ fuel =>
            simp only [PtrAnalysis.joins]
            exact congrArg some hself.symm
      · rw [show (g'.setHcdVar c none).isRep x = g'.isRep x from rfl, hreps,
          show ((g.absorb a c).recordCascade a).isRep x = (g.absorb a c).isRep x from rfl,
          absorb_isRep hab]
        simp only [List.mem_cons, forall_eq_or_imp, and_assoc]
        exact and_congr_right fun _ => and_congr_left fun _ => ne_comm

/-- With a smooth chain a merge succeeds. -/
theorem mergeNodes_smooth :
    ∀ (fuel : Nat) {g : Graph} {n1 n2 : Nat}, g.reps.card ≤ fuel → (∀ x < g.size, g.rep x < g.size) →
      (∀ n, g.hv n < g.size) → n1 < g.size → n2 < g.size → n1 ≠ n2 → g.isRep n1 = true →
      g.isRep n2 = true → Smooth (joins fuel g n1 n2) →
      Spec (mergeNodes fuel g n1 n2) (fun t => MergeRun g n1 n2 t.1 t.2) (fun _ => False)
  | 0, g, n1, n2, hfuel, _, _, h1, _, _, hr1, _, _ => by
      have hpos : 0 < g.reps.card := Finset.card_pos.mpr ⟨n1, mem_reps.mpr ⟨h1, hr1⟩⟩
      omega
  | fuel + 1, g, n1, n2, hfuel, hrep, hv, h1, h2, hne, hr1, hr2, hsmooth => by
      obtain ⟨⟨a, c⟩, hr⟩ : ∃ t, byRank g n1 n2 = t := ⟨_, rfl⟩
      simp only [joins, hr, absorb_hv] at hsmooth
      obtain ⟨hargs, hkeep, hkeeps⟩ := hsmooth
      obtain ⟨hz1, hi1, hz2, hi2⟩ := hargs _ (List.mem_cons_self ..)
      have hm : Mergeable g n1 n2 := ⟨⟨hz1, h1⟩, ⟨hz2, h2⟩, hne, ⟨hi1, hi2⟩, hr1, hr2⟩
      have hab := hm.byRank hr
      rw [mergeNodes]
      refine spec_require (fun h => h hm.valid1) fun _ => ?_
      refine spec_require (fun h => h hm.valid2) fun _ => ?_
      refine spec_require (fun h => h hm.ne) fun _ => ?_
      refine spec_require (fun h => h hm.not_i2p) fun _ => ?_
      refine spec_require (fun h => h hm.isRep) fun _ => ?_
      rw [hr]
      change Spec (if g.hv c = 0 then _ else if g.hv a = 0 then _ else _) _ _
      split
      · exact .plain hm hr ‹_›
      · rename_i hc
        split
        · exact .adopt hm hr hc ‹_›
        · rename_i ha
          change Spec (if (g.absorb a c).rep (g.hv a) = (g.absorb a c).rep (g.hv c) then _ else _) _ _
          split
          · exact .same hm hr hc ha ‹_›
          · -- the cascade succeeds, and the parent is a representative or is not asked for
            rename_i heq
            have hnext : g.hv c ≠ 0 ∧ g.hv a ≠ 0 ∧
                (g.absorb a c).rep (g.hv a) ≠ (g.absorb a c).rep (g.hv c) := ⟨hc, ha, heq⟩
            have hsame : ∀ x y, joins fuel (g.absorb a c) x y =
                joins fuel ((g.absorb a c).recordCascade a) x y := by
              refine @joins_congr ((g.absorb a c).recordCascade a) (g.absorb a c) ?_ ?_ fuel
              · rfl
              · rfl
            rw [if_pos hnext, hsame] at hargs hkeep hkeeps
            have hcard : ((g.absorb a c).recordCascade a).reps.card ≤ fuel := by
              have := absorb_reps_card hab
              change (g.absorb a c).reps.card ≤ fuel
              omega
            have hin : ∀ x < g.size, (g.absorb a c).rep x < g.size :=
              (absorb_coarser hab).inside hrep
            have hrec := mergeNodes_smooth fuel hcard hin hv (hin _ (hv a)) (hin _ (hv c)) heq
              (isRep_rep ..) (isRep_rep ..)
              ⟨fun j hj => hargs j (List.mem_cons_of_mem _ hj), hkeeps⟩
            refine hrec.bind fun t hrun => ?_
            have hstay : a ≠ (g.absorb a c).rep (g.hv c) → t.1.isRep a = true := by
              intro hself
              refine ((hrun.joins fuel hcard).2 a).mpr
                ⟨(absorb_isRep hab a).mpr ⟨hab.isRep.1, hab.ne⟩, fun k hk hchild => ?_⟩
              have hsecond := hkeep k hk hchild
              cases fuel with
              | zero => cases hk
              | succ fuel =>
                  simp only [joins] at hsecond
                  exact hself (Option.some.inj hsecond).symm
            have hcasc := MergeRun.cascade hm hr hc ha heq hrun hstay
            change Spec (if a = (g.absorb a c).rep (g.hv c) then _ else _) _ _
            split
            · exact hcasc
            · rename_i hself
              refine spec_require (fun h => h (hstay hself)) fun hkept => ?_
              rwa [rep_eq_self.mpr hkept] at hcasc

/-- Over any forest and any targets, the merge of two representatives comes to an end
without a failed assertion and joins what it is to join, exactly if its chain of joins is
smooth. -/
theorem mergeNodes_merged_iff (g : Graph) (n1 n2 : Nat) (hm : Mergeable g n1 n2)
    (hrep : ∀ x < g.size, g.rep x < g.size) (hv : ∀ n h, g.hcdVar n = some h → h < g.size) :
    (∃ g' r, mergeNodes g.size g n1 n2 = .ok (g', r) ∧ Merged g n1 n2 g' r) ↔
      Smooth (joins g.size g n1 n2) := by
  have hcard : g.reps.card ≤ g.size :=
    (Finset.card_filter_le ..).trans (by rw [Finset.card_range])
  have hrun : ∀ {g' r}, mergeNodes g.size g n1 n2 = .ok (g', r) → MergeRun g n1 n2 g' r :=
    fun h => (mergeNodes_run (E := fun _ => True) (fun _ _ => trivial) g.size g n1 n2
      (.inl trivial)).result h
  constructor
  · rintro ⟨g', r, hok, -⟩
    exact ((hrun hok).joins g.size hcard).1
  · intro hsmooth
    have hv' : ∀ n, g.hv n < g.size := by
      intro n
      unfold Graph.hv
      cases hn : g.hcdVar n with
      | none => exact Nat.lt_of_le_of_lt (Nat.zero_le _) hm.valid1.2
      | some h => exact hv n h hn
    have hspec := mergeNodes_smooth g.size hcard hrep hv' hm.valid1.2 hm.valid2.2 hm.ne
      hm.isRep.1 hm.isRep.2 hsmooth
    cases hok : mergeNodes g.size g n1 n2 with
    | error e => exact (hspec.stop hok).elim
    | ok t => exact ⟨t.1, t.2, rfl, (hspec.result hok).merged⟩

/-- Ten nodes, of which 7 represents 7 to 9 with rank 2; the target of 3 is 3 itself, that
of 4 is `h`. -/
def selfTarget (h : Nat) : Graph where
  size := 11
  nodes := fun _ => {}
  forest := ((Forest.discrete.join 7 8).join 9 10).join 7 9
  indCalls := ∅
  hcdVar := fun n => if n = 3 then some 3 else if n = 4 then some h else none
  cascades := []

/-- The merge of 3 and 4 starts that of 3 and 5. -/
theorem mergeNodes_merged_self : (joins 11 (selfTarget 5) 3 4).length = 2 ∧
    Smooth (joins 11 (selfTarget 5) 3 4) ∧
    ∃ g' r, mergeNodes 11 (selfTarget 5) 3 4 = .ok (g', r) ∧ Merged (selfTarget 5) 3 4 g' r := by
  have hsmooth : Smooth (joins 11 (selfTarget 5) 3 4) := by decide
  refine ⟨by decide, hsmooth, (mergeNodes_merged_iff (selfTarget 5) 3 4 ?_ ?_ ?_).mpr hsmooth⟩
  · exact ⟨by decide, by decide, by decide, by decide, by decide⟩
  · decide
  · intro n h hn
    simp only [selfTarget] at hn
    split at hn
    · cases hn
      decide
    · split at hn
      · cases hn
        decide
      · cases hn

/-- The parent of a merge can go under another node as the first of the next pair. -/
theorem mergeNodes_merged_lost :
    Mergeable (selfTarget 7) 3 4 ∧ (∀ x < 11, (selfTarget 7).rep x < 11) ∧
    (∀ n < 11, (selfTarget 7).hv n < 11) ∧
    mergeNodes 11 (selfTarget 7) 3 4 = .error (.assertion "nodes[n1]->is_rep()") ∧
    ¬ ∃ g' r, mergeNodes 11 (selfTarget 7) 3 4 = .ok (g', r) ∧ Merged (selfTarget 7) 3 4 g' r := by
  have herr : mergeNodes 11 (selfTarget 7) 3 4 = .error (.assertion "nodes[n1]->is_rep()") := rfl
  refine ⟨⟨by decide, by decide, by decide, by decide, by decide⟩, by decide, by decide, herr, ?_⟩
  rintro ⟨g', r, hok, -⟩
  rw [herr] at hok
  cases hok

end PtrAnalysis
