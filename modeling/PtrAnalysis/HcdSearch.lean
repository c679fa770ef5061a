import PtrAnalysis.Hcd
import PtrAnalysis.OffEdges
import PtrAnalysis.Lib.Tarjan

/-!
# The components hybrid cycle detection finds

The search of `hcdDfs` leaves the offline graph as it is. What it hands to `hcdScc` are the
strongly connected components of more than one node, each of them whole. So whatever the
processing of one component keeps, the search keeps.
-/

namespace PtrAnalysis

open Run Relation PtrAnalysis.Search

namespace OffGraph

/-- There is an edge from `x` to `y`. -/
def Uses (g : OffGraph) (x y : Nat) : Prop := y ∈ (g.nodes x).edges

/-- What the search leaves as it is. -/
structure Shape (g o : OffGraph) : Prop where
  edges : ∀ x, (o.nodes x).edges = (g.nodes x).edges
  main : ∀ x, (o.nodes x).mainNode = (g.nodes x).mainNode
  firstREF : o.firstREF = g.firstREF

variable {g o o' : OffGraph} {n : Nat}

theorem Shape.trans (h : Shape g o) (h' : Shape o o') : Shape g o' :=
  ⟨fun x => (h'.edges x).trans (h.edges x), fun x => (h'.main x).trans (h.main x),
    h'.firstREF.trans h.firstREF⟩

/-- A change of numbers and marks. -/
theorem Shape.modify (h : Shape g o) {f : OffNode → OffNode} (hedges : ∀ N, (f N).edges = N.edges)
    (hmain : ∀ N, (f N).mainNode = N.mainNode) : Shape g (o.modify n f) :=
  ⟨fun x => (modify_keeps OffNode.edges hedges).trans (h.edges x),
    fun x => (modify_keeps OffNode.mainNode hmain).trans (h.main x), h.firstREF⟩

end OffGraph

/-- The offline graph follows the search `T` of `g`. -/
structure HcdTracks (g : OffGraph) (T : Search Nat) (o : OffGraph) : Prop extends g.Shape o where
  root : ∀ x, (o.nodes x).sccRoot = true ↔ x ∈ T.done
  number : ∀ x, (o.nodes x).dfsId = if T.num x = 0 then 0 else T.low x
  clock : o.currDfs = T.clock
  stk : o.dfsStk = T.stack

section

variable {g o : OffGraph} {T T1 T2 : Search Nat} {n m x : Nat} {new : List Nat} {P : Anders → Prop}

theorem HcdTracks.seen (h : HcdTracks g T o) (hx : T.num x ≠ 0) : (o.nodes x).dfsId = T.low x := by
  rw [h.number, if_neg hx]

theorem HcdTracks.enter (h : HcdTracks g T o) (hT : Inv g.Uses T) (n : Nat) :
    HcdTracks g (T.enter n)
      (({ o with currDfs := o.currDfs + 1 } : OffGraph).modify n
        fun N => { N with dfsId := o.currDfs }) where
  toShape :=
    have hclock : o.Shape { o with currDfs := o.currDfs + 1 } := ⟨fun _ => rfl, fun _ => rfl, rfl⟩
    (h.toShape.trans hclock).modify (fun _ => rfl) fun _ => rfl
  root x := by
    have hsame : ((({ o with currDfs := o.currDfs + 1 } : OffGraph).modify n
        fun N => { N with dfsId := o.currDfs }).nodes x).sccRoot = (o.nodes x).sccRoot :=
      OffGraph.modify_keeps OffNode.sccRoot fun _ => rfl
    rw [hsame]
    exact h.root x
  number x := by
    rw [OffGraph.modify_node, enter_num, enter_low]
    split
    · rename_i hx
      rw [if_neg hT.clock.ne', h.clock]
    · exact h.number x
  clock := congrArg (· + 1) h.clock
  stk := h.stk

/-- The smaller number of two open nodes. -/
theorem HcdTracks.lower (h : HcdTracks g T o) (hn : T.num n ≠ 0) (hm : T.num m ≠ 0) :
    HcdTracks g (T.lower n m) (if (o.nodes m).dfsId < (o.nodes n).dfsId then
      o.modify n fun N => { N with dfsId := (o.nodes m).dfsId } else o) := by
  rw [h.seen hn, h.seen hm]
  split
  · rename_i hlt
    refine ⟨h.toShape.modify (fun _ => rfl) fun _ => rfl, fun x => ?_, fun x => ?_, h.clock, h.stk⟩
    · have hsame : ((o.modify n fun N => { N with dfsId := T.low m }).nodes x).sccRoot =
          (o.nodes x).sccRoot := OffGraph.modify_keeps OffNode.sccRoot fun _ => rfl
      rw [hsame]
      exact h.root x
    · rw [OffGraph.modify_node, lower_low]
      split
      · rename_i hx
        rw [min_eq_right hlt.le, hx]
        exact (if_neg hn).symm
      · exact h.number x
  · rename_i hlt
    have hsame : T.lower n m = T := by
      rw [Search.lower, min_eq_left (not_lt.mp hlt), Function.update_eq_self]
    rw [hsame]
    exact h

/-! ## A walk -/

/-- What a recursive call is to do. -/
def HcdVisits (g : OffGraph) (P : Anders → Prop) (visit : HcdState → Nat → Run HcdState) : Prop :=
  ∀ {t : HcdState} {T : Search Nat} {n : Nat}, P t.1 → HcdTracks g T t.2 → Inv g.Uses T →
    T.num n = 0 → (∀ z ∈ T.path, ReflTransGen g.Uses z n) →
    Spec (visit t n) (fun t' => P t'.1 ∧ ∃ T' new, HcdTracks g T' t'.2 ∧ Inv g.Uses T' ∧
      Visited g.Uses T T' n new) fun _ => True

/-- The walk over the edges of `n` that began in `T` has come to `T1`. -/
structure HcdWalk (g : OffGraph) (P : Anders → Prop) (T T1 : Search Nat) (n : Nat) (new : List Nat)
    (t : HcdState) : Prop where
  keeps : P t.1
  tracks : HcdTracks g T1 t.2
  inv : Inv g.Uses T1
  walked : Walked g.Uses T T1 n new

theorem hcdCheckEdge_tracks {visit : HcdState → Nat → Run HcdState} {t : HcdState} {dest : Nat}
    (hvisit : HcdVisits g P visit) (hT : Inv g.Uses T) (hw : HcdWalk g P T T1 n new t)
    (hd : g.Uses n dest) :
    Spec (hcdCheckEdge visit n t dest) (fun t' => ∃ T2 new', HcdWalk g P T T2 n new' t' ∧
      (∀ w, T1.Handled n w → T2.Handled n w) ∧ T2.Handled n dest) fun _ => True := by
  obtain ⟨hP, ht, h1, hwk⟩ := hw
  unfold hcdCheckEdge
  refine spec_require (fun _ => trivial) fun _ => ?_
  split
  · rename_i hroot
    exact ⟨T1, new, ⟨hP, ht, h1, hwk⟩, fun _ h => h, .inl ((ht.root dest).mp hroot)⟩
  · rename_i hroot
    have hnot : dest ∉ T1.done := fun h => hroot ((ht.root dest).mpr h)
    by_cases hunseen : T1.num dest = 0
    · rw [if_pos (by rw [ht.number, if_pos hunseen])]
      refine (hvisit hP ht h1 hunseen fun z hz => (hwk.reaches hT h1 z hz).tail hd).bind
        fun t2 ht2 => ?_
      obtain ⟨hP2, T2, new2, ht2, h2, hv⟩ := ht2
      have hpath : n ∈ T2.path := hv.path ▸ hwk.mem_path
      have hno : T2.Open n := .inl hpath
      have hkeep : ∀ w, T1.Handled n w → T2.Handled n w := fun w =>
        hv.handled h1 (fun x hx => hv.path ▸ hx) hwk.isOpen
      have hns := h2.num_pos hno
      by_cases hdone : dest ∈ T2.done
      · -- the component is complete, and its numbers are larger than that of `n`
        have hseen : T2.num dest ≠ 0 := (h2.seen dest).mpr (.inr hdone)
        have hbig := hv.low_component h1 h2 hunseen hdone .refl
        have hsmall : T2.low n < T1.clock := by
          refine Nat.lt_of_le_of_lt (h2.low_le n hno) ?_
          rw [hv.num n (h1.num_pos hwk.isOpen)]
          exact h1.num_lt n
        have hlt : ¬ (t2.2.nodes dest).dfsId < (t2.2.nodes n).dfsId := by
          rw [ht2.seen hseen, ht2.seen hns]
          omega
        refine ⟨T2, new, ⟨hP2, ?_, h2, hwk.visited_done h1 h2 hv hd hdone⟩, hkeep, .inl hdone⟩
        rw [if_neg hlt]
        exact ht2
      · have hopen : T2.Open dest := by
          rcases hv.left with ⟨hin, -⟩ | ⟨hin, -⟩
          · exact absurd hin hdone
          · exact .inr (hv.stack ▸ List.mem_append_left _ hin)
        exact ⟨T2.lower n dest, _, ⟨hP2, ht2.lower hns (h2.num_pos hopen), h2.lower hpath hopen hd,
          hwk.visited_left h1 h2 hv hd hdone⟩, fun w hw => (hkeep w hw).lower n dest,
          h2.handled_lower n hopen⟩
    · have hopen : T1.Open dest := ((h1.seen dest).mp hunseen).resolve_right hnot
      have hpos : (t.2.nodes dest).dfsId ≠ 0 := by
        rw [ht.seen hunseen]
        exact h1.low_pos hopen
      rw [if_neg hpos, pure_bind]
      exact ⟨T1.lower n dest, new, ⟨hP, ht.lower (h1.num_pos hwk.isOpen) hunseen,
        h1.lower hwk.mem_path hopen hd, hwk.lower h1 dest⟩, fun w hw => hw.lower n dest,
        h1.handled_lower n hopen⟩

/-! ## A component -/

/-- The nodes above the root come off the stack. -/
theorem hcdPop_split {ourDfs : Nat} {rest : List Nat}
    (hrest : ∀ x ∈ rest, (o.nodes x).dfsId < ourDfs) : ∀ (new : List Nat),
    (∀ x ∈ new, ourDfs ≤ (o.nodes x).dfsId) → hcdPop o ourDfs (new ++ rest) = (new, rest)
  | [], _ => by
      cases rest with
      | nil => rfl
      | cons x rest => rw [List.nil_append, hcdPop, if_pos (hrest x List.mem_cons_self)]
  | x :: new, hnew => by
      rw [List.cons_append, hcdPop, if_neg (not_lt.mpr (hnew x List.mem_cons_self)),
        hcdPop_split hrest new fun y hy => hnew y (List.mem_cons_of_mem _ hy)]

/-- What the processing of a component of more than one node keeps. -/
def KeepsScc (g : OffGraph) (P : Anders → Prop) : Prop :=
  ∀ {t : HcdState} {n : Nat} {scc : List Nat}, P t.1 → g.Shape t.2 → scc ≠ [] → n ∉ scc →
    (∀ x, x ∈ n :: scc ↔ Mutual g.Uses n x) → Spec (hcdScc t (n :: scc)) (fun t' => P t'.1)
      fun _ => True

/-- `o'` is `o` with the nodes of `scc` marked as processed. -/
structure SccMarked (o : OffGraph) (scc : List Nat) (o' : OffGraph) : Prop extends o.Shape o' where
  root : ∀ x, (o'.nodes x).sccRoot = true ↔ (o.nodes x).sccRoot = true ∨ x ∈ scc
  dfsId : ∀ x, (o'.nodes x).dfsId = (o.nodes x).dfsId
  clock : o'.currDfs = o.currDfs
  stk : o'.dfsStk = o.dfsStk

theorem SccMarked.mark (o : OffGraph) (n : Nat) :
    SccMarked o [n] (o.modify n fun N => { N with sccRoot := true }) where
  toShape := OffGraph.Shape.modify ⟨fun _ => rfl, fun _ => rfl, rfl⟩ (fun _ => rfl) fun _ => rfl
  root x := by
    rw [OffGraph.modify_node, List.mem_singleton]
    split
    · rename_i hx
      exact iff_of_true rfl (.inr hx)
    · rename_i hx
      exact (or_iff_left hx).symm
  dfsId x := OffGraph.modify_keeps OffNode.dfsId fun _ => rfl
  clock := rfl
  stk := rfl

theorem SccMarked.trans {o1 o2 : OffGraph} {scc scc' : List Nat} (h : SccMarked o scc o1)
    (h' : SccMarked o1 scc' o2) : SccMarked o (scc ++ scc') o2 where
  toShape := h.toShape.trans h'.toShape
  root x := by rw [h'.root, h.root, List.mem_append, or_assoc]
  dfsId x := (h'.dfsId x).trans (h.dfsId x)
  clock := h'.clock.trans h.clock
  stk := h'.stk.trans h.stk

theorem hcdScc_marks (t : HcdState) (scc : List Nat) :
    Spec (hcdScc t scc) (fun t' => SccMarked t.2 scc t'.2) fun _ => True := by
  unfold hcdScc
  dsimp only
  split
  · trivial
  · have hmerge : ∀ x : Run (Anders × Nat), Spec x (fun _ => True) fun _ => True := fun x => by
      cases x <;> trivial
    refine (hmerge _).bind fun u _ => ?_
    refine spec_foldlM (fun done (t' : HcdState) => SccMarked t.2 done t'.2)
      ⟨⟨fun _ => rfl, fun _ => rfl, rfl⟩, fun x => by simp, fun _ => rfl, rfl, rfl⟩
      fun done n rest c _ hc => ?_
    unfold recordScc
    refine spec_require (fun _ => trivial) fun _ => ?_
    dsimp only
    split
    · exact hc.trans (.mark c.2 n)
    · exact hc.trans (.mark c.2 n)

/-- A marked component is complete. -/
theorem HcdTracks.complete {o1 : OffGraph} (h : HcdTracks g T1 o) (hwk : Walked g.Uses T T1 n new)
    (hT : Inv g.Uses T) (h1 : Inv g.Uses T1) (hroot : T1.low n = T1.num n)
    (hall : ∀ w, g.Uses n w → T1.Handled n w)
    (hm : SccMarked { o with dfsStk := T.stack } (n :: new) o1) :
    HcdTracks g (T1.complete n T.stack) o1 where
  toShape := h.toShape.trans ⟨hm.edges, hm.main, hm.firstREF⟩
  root x := by
    rw [hm.root, (hwk.complete hT h1 hroot hall).1, ← hwk.component hT h1 hroot hall,
      List.mem_cons]
    exact or_congr_left (h.root x)
  number x := (hm.dfsId x).trans (h.number x)
  clock := hm.clock.trans h.clock
  stk := hm.stk

theorem hcdDfs_tracks (hP : KeepsScc g P) : ∀ fuel, HcdVisits g P (hcdDfs fuel)
  | 0, _, _, _, _, _, _, _, _ => trivial
  | fuel + 1, (a, o), T, n, hPa, ht, hT, hunseen, hpath => by
      rw [hcdDfs]
      refine spec_require (fun _ => trivial) fun _ => ?_
      refine spec_require (fun _ => trivial) fun _ => ?_
      have hstart : HcdWalk g P T (T.enter n) n [] (a,
          ({ o with currDfs := o.currDfs + 1 } : OffGraph).modify n
            fun N => { N with dfsId := o.currDfs }) :=
        ⟨hPa, ht.enter hT n, hT.enter hunseen hpath, .enter hT hunseen⟩
      dsimp only
      have hedges := hstart.tracks.edges n
      rw [hedges]
      refine (spec_foldlM (fun done t => ∃ T1 new, HcdWalk g P T T1 n new t ∧
        ∀ w ∈ done, T1.Handled n w) ⟨T.enter n, [], hstart, fun w hw => by cases hw⟩ ?_).bind
        fun t ht1 => ?_
      · rintro done dest rest c hsplit ⟨T1, new, hw, hdone⟩
        have hd : g.Uses n dest := mem_ascending.mp (by simp [hsplit])
        refine (hcdCheckEdge_tracks (hcdDfs_tracks hP fuel) hT hw hd).imp fun c' hc' => ?_
        obtain ⟨T2, new', hw', hkeep, hto⟩ := hc'
        refine ⟨T2, new', hw', fun w hin => ?_⟩
        rcases List.mem_append.mp hin with hin | hin
        · exact hkeep w (hdone w hin)
        · rw [List.mem_singleton.mp hin]
          exact hto
      · obtain ⟨T1, new, ⟨hP1, ht1, h1, hwk⟩, hdone⟩ := ht1
        have hall : ∀ w, g.Uses n w → T1.Handled n w := fun w hw => hdone w (mem_ascending.mpr hw)
        refine spec_require (fun _ => trivial) fun _ => ?_
        have hnum : o.currDfs = T1.num n := ht.clock.trans hwk.num_eq.symm
        have hopen := hwk.isOpen
        rw [ht1.seen (h1.num_pos hopen), hnum]
        split
        · rename_i hroot
          -- the new nodes come off the stack
          have hpop : hcdPop t.2 (T1.num n) t.2.dfsStk = (new, T.stack) := by
            rw [ht1.stk, hwk.stack]
            refine hcdPop_split (fun x hx => ?_) new fun x hx => ?_
            · have ho : T1.Open x := .inr (hwk.stack ▸ List.mem_append_right _ hx)
              rw [ht1.seen (h1.num_pos ho)]
              exact Nat.lt_of_le_of_lt (h1.low_le x ho) (hwk.older hT (.inr hx))
            · have ho : T1.Open x := .inr (hwk.stack ▸ List.mem_append_left _ hx)
              rw [ht1.seen (h1.num_pos ho)]
              exact hwk.low_ge hroot (.inr hx)
          rw [hpop]
          refine spec_require (fun _ => trivial) fun hself => ?_
          obtain ⟨-, hinv, hvis⟩ := hwk.complete hT h1 hroot hall
          split
          · rename_i hnew
            have hm := SccMarked.mark { t.2 with dfsStk := T.stack } n
            rw [← hnew] at hm
            exact ⟨hP1, _, [], ht1.complete hwk hT h1 hroot hall hm, hinv, hvis⟩
          · rename_i hnew
            have hshape : g.Shape { t.2 with dfsStk := T.stack } :=
              ⟨ht1.edges, ht1.main, ht1.firstREF⟩
            refine ((hP (t := (t.1, { t.2 with dfsStk := T.stack })) hP1 hshape hnew hself
              fun x => ?_).and
              (hcdScc_marks _ _)).imp fun t' ⟨hP', hm⟩ =>
                ⟨hP', _, [], ht1.complete hwk hT h1 hroot hall hm, hinv, hvis⟩
            rw [List.mem_cons]
            exact hwk.component hT h1 hroot hall
        · rename_i hroot
          have hlt : T1.low n < T1.num n := Nat.lt_of_le_of_ne (h1.low_le n hopen) hroot
          obtain ⟨hinv, hvis⟩ := hwk.retreat hT h1 hlt hall
          exact ⟨hP1, T1.retreat n, n :: new, ⟨⟨ht1.edges, ht1.main, ht1.firstREF⟩, ht1.root,
            ht1.number, ht1.clock, congrArg (n :: ·) ht1.stk⟩, hinv, hvis⟩

/-- What holds of the main graph before the search and is kept by the processing of each
component holds behind it. -/
theorem hcdSearch_keeps {a : Anders} (hP : KeepsScc g P) (ha : P a) (hshape : g.Shape o)
    (hfresh : ∀ x, (o.nodes x).sccRoot = false ∧ (o.nodes x).dfsId = 0) (hstk : o.dfsStk = []) :
    Spec (hcdSearch a o) (fun t => P t.1) fun _ => True := by
  have hstart : HcdTracks g start { o with currDfs := 1 } := by
    refine ⟨⟨hshape.edges, hshape.main, hshape.firstREF⟩, fun x => ?_, fun x => ?_, rfl, hstk⟩
    · rw [(hfresh x).1]
      exact iff_of_false (by simp) fun h => h
    · rw [(hfresh x).2]
      rfl
  unfold hcdSearch
  refine (spec_foldlM_keeps (P := fun t : HcdState => P t.1 ∧ ∃ T, HcdTracks g T t.2 ∧
    Inv g.Uses T ∧ T.path = []) ⟨ha, start, hstart, start_inv, rfl⟩ fun i _ c hc => ?_).bind
    fun t ht => spec_require (fun _ => trivial) fun _ => ht.1
  obtain ⟨hPc, T, ht, hT, hpath⟩ := hc
  split
  · rename_i hid
    have hunseen : T.num i = 0 ∨ i ∈ T.done := by
      by_contra hne
      rw [not_or] at hne
      have hopen := ((hT.seen i).mp hne.1).resolve_right hne.2
      exact hT.low_pos hopen (ht.seen hne.1 ▸ hid)
    rcases hunseen with hunseen | hdone
    · refine (hcdDfs_tracks hP _ hPc ht hT hunseen (by simp [hpath])).imp fun t' ht' => ?_
      obtain ⟨hP', T', new, ht', hT', hv⟩ := ht'
      exact ⟨hP', T', ht', hT', hv.path.trans hpath⟩
    · -- a node that was processed is not visited again
      rw [hcdDfs]
      refine spec_require (fun _ => trivial) fun _ => ?_
      exact spec_require (fun _ => trivial) fun hr => absurd ((ht.root i).mpr hdone) hr.1
  · exact ⟨hPc, T, ht, hT, hpath⟩

end

end PtrAnalysis
