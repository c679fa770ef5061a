import PtrAnalysis.HvnComponents
import PtrAnalysis.Lib.Assoc

/-!
# What the labels mean

Value numbering works with numbers, but each of them stands for a set. Take any meaning
`val` of the nodes of the offline graph that only grows against its edges, and one of the
labels that nodes have before the search. If every member of a node's set has a reason (a
label, an edge to a node with a reason, or that the node is indirect), then after the search
the labels of a component mean exactly its set: an indirect component has a label of its own,
and one for a set of labels means their union.

So nodes with equal labels have equal sets in every such meaning, and nodes with label 0 have
empty ones.
-/

namespace PtrAnalysis

open Run Relation PtrAnalysis.Search

variable {α : Type}

/-! ## Meanings of an offline graph -/

/-- What labels `P` mean together. -/
def meaning (den : Nat → Set α) (P : Finset Nat) : Set α := {v | ∃ l ∈ P, v ∈ den l}

theorem mem_meaning {den : Nat → Set α} {P : Finset Nat} {v : α} :
    v ∈ meaning den P ↔ ∃ l ∈ P, v ∈ den l := Iff.rfl

@[simp] theorem meaning_empty (den : Nat → Set α) : meaning den ∅ = ∅ := by
  ext v
  simp [mem_meaning]

@[simp] theorem meaning_singleton (den : Nat → Set α) (l : Nat) : meaning den {l} = den l := by
  ext v
  simp [mem_meaning]

theorem meaning_union (den : Nat → Set α) (P Q : Finset Nat) :
    meaning den (P ∪ Q) = meaning den P ∪ meaning den Q := by
  ext v
  simp only [mem_meaning, Finset.mem_union, Set.mem_union]
  exact ⟨fun ⟨l, hl, hv⟩ => hl.imp (fun h => ⟨l, h, hv⟩) fun h => ⟨l, h, hv⟩,
    fun h => h.elim (fun ⟨l, hl, hv⟩ => ⟨l, .inl hl, hv⟩) fun ⟨l, hl, hv⟩ => ⟨l, .inr hl, hv⟩⟩

theorem meaning_congr {den den' : Nat → Set α} {P : Finset Nat} (h : ∀ l ∈ P, den' l = den l) :
    meaning den' P = meaning den P := by
  ext v
  simp only [mem_meaning]
  exact exists_congr fun l => and_congr_right fun hl => by rw [h l hl]

/-- Why `v` is in the set of a node. -/
inductive Reason (g : OffGraph) (pre val : Nat → Set α) : Nat → α → Prop
  | label {x l : Nat} {v : α} (hl : l ∈ (g.nodes x).ptrEq) (hv : v ∈ pre l) : Reason g pre val x v
  | indirect {x : Nat} {v : α} (hi : (g.nodes x).indirect = true) (hv : v ∈ val x) :
      Reason g pre val x v
  | edge {x d : Nat} {v : α} (hd : d ∈ (g.nodes x).edges) (hr : Reason g pre val d v) :
      Reason g pre val x v

/-- The nodes of `g` mean the sets `val`, and the labels they have before the search `pre`. -/
structure Means (g : OffGraph) (pre val : Nat → Set α) : Prop where
  mono : ∀ {x y}, g.Succ x y → val y ⊆ val x
  first : ∀ {x l}, l ∈ (g.nodes x).ptrEq → l ≠ 0 ∧ l < g.nextPtrEq ∧ pre l ⊆ val x
  next : 0 < g.nextPtrEq
  reason : ∀ {x v}, v ∈ val x → Reason g pre val x v

variable {g o o' : OffGraph} {pre val den : Nat → Set α} {D : Set Nat} {r : Nat}

theorem Means.reach (h : Means g pre val) {x y : Nat} (hxy : ReflTransGen g.Succ x y) :
    val y ⊆ val x := by
  induction hxy with
  | refl => exact Set.Subset.refl _
  | tail _ hs ih => exact (h.mono hs).trans ih

/-- A component has one set. -/
theorem Means.mutual (h : Means g pre val) {x y : Nat} (hxy : Mutual g.Succ x y) : val x = val y :=
  Set.Subset.antisymm (h.reach hxy.2) (h.reach hxy.1)

theorem Means.of_reason (h : Means g pre val) {x : Nat} {v : α} (hr : Reason g pre val x v) :
    v ∈ val x := by
  induction hr with
  | label hl hv => exact (h.first hl).2.2 hv
  | indirect _ hv => exact hv
  | edge hd _ ih => exact h.mono (.inl hd) ih

/-! ## During the search -/

/-- The labels of a complete node mean its set. -/
structure Meant (den : Nat → Set α) (V : Set α) (P : Finset Nat) : Prop where
  nonempty : P ≠ ∅
  eq : V = meaning den P
  zero : 0 ∈ P → P = {0}

/-- Nodes that are not complete have what their members had together. -/
structure Gathered (g o : OffGraph) (x : Nat) : Prop where
  edges : ∀ d, d ∈ (o.nodes x).edges ↔ ∃ y, o.rep y = x ∧ d ∈ (g.nodes y).edges
  labels : ∀ l, l ∈ (o.nodes x).ptrEq ↔ ∃ y, o.rep y = x ∧ l ∈ (g.nodes y).ptrEq
  indirect : (o.nodes x).indirect = true ↔ ∃ y, o.rep y = x ∧ (g.nodes y).indirect = true

/-- With the nodes of `D` complete, the labels given so far mean `den`. -/
structure Denotes (g : OffGraph) (pre val : Nat → Set α) (D : Set Nat) (den : Nat → Set α)
    (o : OffGraph) : Prop where
  main2off : o.main2off = g.main2off
  zero : den 0 = ∅
  first : ∀ l, l ≠ 0 → l < g.nextPtrEq → den l = pre l
  next : g.nextPtrEq ≤ o.nextPtrEq
  comp : ∀ x, Mutual g.Succ (o.rep x) x
  known : ∀ x, o.isRep x = true → ∀ l ∈ (o.nodes x).ptrEq, l < o.nextPtrEq
  table : ∀ P l, (P, l) ∈ o.lbl2pe → l ≠ 0 ∧ l < o.nextPtrEq ∧ (∀ k ∈ P, k < o.nextPtrEq) ∧
    den l = meaning den P
  open_ : ∀ x, o.isRep x = true → x ∉ D → Gathered g o x
  done : ∀ x, o.isRep x = true → x ∈ D → Meant den (val x) (o.nodes x).ptrEq

theorem Denotes.same (h : Denotes g pre val D den o) (hs : o.SameLabels o') :
    Denotes g pre val D den o' := by
  have hrep : o'.isRep = o.isRep := by
    funext x
    rw [OffGraph.isRep, hs.forest, OffGraph.isRep]
  have hfind : o'.rep = o.rep := by
    funext x
    rw [OffGraph.rep, hs.forest, OffGraph.rep]
  refine ⟨hs.main2off.trans h.main2off, h.zero, h.first, hs.nextPtrEq ▸ h.next, hfind ▸ h.comp, fun x hx l hl => ?_, fun P l he => ?_,
    fun x hx hd => ?_, fun x hx hd => ?_⟩
  · rw [hs.node x] at hl
    rw [hs.nextPtrEq]
    exact h.known x (hrep ▸ hx) l hl
  · rw [hs.nextPtrEq]
    exact h.table P l (hs.lbl2pe ▸ he)
  · have hx' := h.open_ x (hrep ▸ hx) hd
    refine ⟨?_, ?_, ?_⟩ <;> rw [hs.node x, hfind]
    · exact hx'.edges
    · exact hx'.labels
    · exact hx'.indirect
  · rw [hs.node x]
    exact h.done x (hrep ▸ hx) hd

/-- Two nodes that are not complete are merged. -/
theorem Denotes.absorb {a b : Nat} (h : Denotes g pre val D den o) (ha : o.isRep a = true)
    (hb : o.isRep b = true) (hne : a ≠ b) (haD : a ∉ D) (hbD : b ∉ D)
    (hab : Mutual g.Succ a b) :
    Denotes g pre val D den (o.absorb a b) := by
  have hisRep : ∀ x, (o.absorb a b).isRep x = true ↔ o.isRep x = true ∧ x ≠ b :=
    Forest.isRep_join ha hb hne
  have hrep : ∀ x, (o.absorb a b).rep x = if o.rep x = b then a else o.rep x :=
    Forest.find_join ha hb hne
  have hparent : (o.absorb a b).nodes a = OffGraph.takeOver (o.nodes a) (o.nodes b) := by
    simp only [OffGraph.absorb, if_true]
  have hother : ∀ x, x ≠ a → x ≠ b → (o.absorb a b).nodes x = o.nodes x := fun x hxa hxb => by
    simp only [OffGraph.absorb, if_neg hxa, if_neg hxb]
  -- the members of the merged node
  have hmem : ∀ y, (o.absorb a b).rep y = a ↔ o.rep y = a ∨ o.rep y = b := fun y => by
    rw [hrep]
    split
    · rename_i hy
      exact iff_of_true rfl (.inr hy)
    · rename_i hy
      exact (or_iff_left hy).symm
  have hjoin : ∀ {p q : Prop} {f : Nat → Prop}, (p ↔ ∃ y, o.rep y = a ∧ f y) →
      (q ↔ ∃ y, o.rep y = b ∧ f y) → (p ∨ q ↔ ∃ y, (o.absorb a b).rep y = a ∧ f y) := by
    intro p q f hp hq
    rw [hp, hq, ← exists_or]
    exact exists_congr fun y => by rw [hmem, or_and_right]
  have hA := h.open_ a ha haD
  have hB := h.open_ b hb hbD
  refine ⟨h.main2off, h.zero, h.first, h.next, fun x => ?_, fun x hx l hl => ?_, h.table, fun x hx hd => ?_,
    fun x hx hd => ?_⟩
  · rw [hrep]
    split
    · rename_i hx
      exact hab.trans (hx ▸ h.comp x)
    · exact h.comp x
  · obtain ⟨hx, hxb⟩ := (hisRep x).mp hx
    by_cases hxa : x = a
    · rw [hxa, hparent] at hl
      exact (Finset.mem_union.mp hl).elim (h.known a ha l) (h.known b hb l)
    · rw [hother x hxa hxb] at hl
      exact h.known x hx l hl
  · obtain ⟨hx, hxb⟩ := (hisRep x).mp hx
    by_cases hxa : x = a
    · subst hxa
      refine ⟨fun d => ?_, fun l => ?_, ?_⟩ <;> rw [hparent]
      · exact Finset.mem_union.trans (hjoin (hA.edges d) (hB.edges d))
      · exact Finset.mem_union.trans (hjoin (hA.labels l) (hB.labels l))
      · exact Bool.or_eq_true .. ▸ hjoin hA.indirect hB.indirect
    · have hsame : ∀ y, (o.absorb a b).rep y = x ↔ o.rep y = x := fun y => by
        rw [hrep]
        split
        · rename_i hy
          rw [hy]
          exact iff_of_false (Ne.symm hxa) (Ne.symm hxb)
        · exact Iff.rfl
      have hX := h.open_ x hx hd
      refine ⟨fun d => ?_, fun l => ?_, ?_⟩ <;> rw [hother x hxa hxb] <;> simp only [hsame]
      · exact hX.edges d
      · exact hX.labels l
      · exact hX.indirect
  · rw [hother x (fun he => haD (he ▸ hd)) fun he => hbD (he ▸ hd)]
    exact h.done x ((hisRep x).mp hx).1 hd

/-! ## Labelling -/

theorem setLabels_node (o : OffGraph) (r x : Nat) (P : Finset Nat) : (setLabels o r P).nodes x =
    if x = r then { o.nodes r with ptrEq := P } else o.nodes x :=
  Function.update_apply ..

/-- Labels that are changed again. -/
theorem setLabels_modify (o : OffGraph) (r : Nat) (P : Finset Nat) (f : Finset Nat → Finset Nat) :
    (setLabels o r P).modify r (fun N => { N with ptrEq := f N.ptrEq }) = setLabels o r (f P) := by
  simp only [setLabels, OffGraph.modify, Function.update_self, Function.update_idem]

theorem setLabels_setLabels (o : OffGraph) (r : Nat) (P Q : Finset Nat) :
    setLabels (setLabels o r P) r Q = setLabels o r Q :=
  setLabels_modify o r P fun _ => Q

theorem setLabels_self (o : OffGraph) (r : Nat) : setLabels o r (o.nodes r).ptrEq = o := by
  simp only [setLabels, OffGraph.modify, Function.update_eq_self]

/-- The labels that come in along edge `d`. -/
def Incoming (o : OffGraph) (r d l : Nat) : Prop :=
  o.rep d ≠ r ∧ 0 ∉ (o.nodes (o.rep d)).ptrEq ∧ l ∈ (o.nodes (o.rep d)).ptrEq

/-- A label of `r` or of a neighbour. -/
def Comes (o : OffGraph) (r l : Nat) : Prop :=
  l ∈ (o.nodes r).ptrEq ∨ ∃ d ∈ (o.nodes r).edges, Incoming o r d l

/-- The labels of `r` after those of its neighbours were collected. -/
def Collected (o : OffGraph) (r : Nat) (P : Finset Nat) : Prop := ∀ l, l ∈ P ↔ Comes o r l

theorem collectLabels_collected {n : Nat}
    (h : ∀ d ∈ (o.nodes n).edges, o.rep d = n ∨ (o.nodes (o.rep d)).ptrEq ≠ ∅) :
    Spec ((ascending (o.nodes n).edges).foldlM (collectLabels n) o)
      (fun o' => ∃ P, o' = setLabels o n P ∧ Collected o n P) fun _ => False := by
  refine (spec_foldlM (fun seen o' => ∃ P, o' = setLabels o n P ∧
    ∀ l, l ∈ P ↔ l ∈ (o.nodes n).ptrEq ∨ ∃ d ∈ seen, Incoming o n d l)
    ⟨_, (setLabels_self o n).symm, fun l => by simp⟩ ?_).imp fun o' ho' => ?_
  · rintro seen d rest o1 hsplit ⟨P, rfl, hP⟩
    have hd : d ∈ (o.nodes n).edges := mem_ascending.mp (hsplit ▸ by simp)
    have hlast : ∀ l, (∃ d' ∈ seen ++ [d], Incoming o n d' l) ↔
        (∃ d' ∈ seen, Incoming o n d' l) ∨ Incoming o n d l := fun l => by
      simp only [List.mem_append, List.mem_singleton, or_and_right, exists_or, exists_eq_left]
    unfold collectLabels
    dsimp only
    split
    · rename_i heq
      refine ⟨P, rfl, fun l => (hP l).trans (or_congr_right ?_)⟩
      rw [hlast]
      exact (or_iff_left fun hin => hin.1 heq).symm
    · rename_i hne
      change o.rep d ≠ n at hne
      have hnode : (setLabels o n P).nodes ((setLabels o n P).rep d) = o.nodes (o.rep d) :=
        (setLabels_node o n _ P).trans (if_neg hne)
      rw [hnode]
      refine spec_require (fun hp => (hp ((h d hd).resolve_left hne)).elim) fun _ => ?_
      refine spec_ok ?_
      split
      · rename_i h0
        refine ⟨P, rfl, fun l => (hP l).trans (or_congr_right ?_)⟩
        rw [hlast]
        exact (or_iff_left fun hin => hin.2.1 h0).symm
      · rename_i h0
        refine ⟨P ∪ (o.nodes (o.rep d)).ptrEq,
          setLabels_modify o n P (· ∪ (o.nodes (o.rep d)).ptrEq), fun l => ?_⟩
        · rw [hlast, Finset.mem_union, hP, or_assoc]
          exact or_congr_right (or_congr_right ⟨fun hl => ⟨hne, h0, hl⟩, fun hin => hin.2.2⟩)
  · obtain ⟨P, rfl, hP⟩ := ho'
    exact ⟨P, rfl, fun l => by simpa only [mem_ascending, Comes] using hP l⟩

/-- The node's own labels play no part in what comes in from others. -/
theorem Relabelled.comes (h : Relabelled o r o') (l : Nat) :
    Comes o' r l ↔ l ∈ (o'.nodes r).ptrEq ∨ ∃ d ∈ (o.nodes r).edges, Incoming o r d l := by
  have hin : ∀ d, Incoming o' r d l ↔ Incoming o r d l := by
    intro d
    unfold Incoming
    rw [h.rep]
    exact and_congr_right fun hne => by rw [h.other _ hne]
  unfold Comes
  simp only [(h.edges r).1, hin]

/-- The node whose component is labelled next: what its edges lead to is complete. -/
structure AtRoot (g : OffGraph) (pre val : Nat → Set α) (D : Set Nat) (den : Nat → Set α)
    (o : OffGraph) (r : Nat) : Prop extends Denotes g pre val D den o where
  isRep : o.isRep r = true
  members : ∀ x, o.rep x = r ↔ Mutual g.Succ r x
  fresh : ∀ x, Mutual g.Succ r x → x ∉ D
  leads : ∀ d, o.Succ r d → o.rep d = r ∨ o.rep d ∈ D

namespace AtRoot

variable {P : Finset Nat}

theorem gathered (h : AtRoot g pre val D den o r) : Gathered g o r :=
  h.open_ r h.isRep (h.fresh r (.refl r))

/-- A neighbour outside the component is complete. -/
theorem meant (h : AtRoot g pre val D den o r) {d : Nat} (hd : d ∈ (o.nodes r).edges)
    (hne : o.rep d ≠ r) : Meant den (val (o.rep d)) (o.nodes (o.rep d)).ptrEq :=
  h.done _ (o.isRep_rep d) ((h.leads d (.inl hd)).resolve_left hne)

/-- No label that comes in means too much. -/
theorem sound (h : AtRoot g pre val D den o r) (hm : Means g pre val) (hP : Collected o r P) :
    meaning den P ⊆ val r := by
  rintro v ⟨l, hl, hv⟩
  rcases (hP l).mp hl with hl | ⟨d, hd, hne, -, hl⟩
  · obtain ⟨y, hy, hl⟩ := (h.gathered.labels l).mp hl
    obtain ⟨h0, hlt, hsub⟩ := hm.first hl
    rw [hm.mutual ((h.members y).mp hy)]
    exact hsub (h.first l h0 hlt ▸ hv)
  · obtain ⟨y, hy, hyd⟩ := (h.gathered.edges d).mp hd
    rw [hm.mutual ((h.members y).mp hy)]
    refine hm.mono (.inl hyd) ?_
    rw [← hm.mutual (h.comp d), (h.meant hd hne).eq]
    exact ⟨l, hl, hv⟩

/-- A direct component has a reason for each member, and it comes in with a label. -/
theorem complete (h : AtRoot g pre val D den o r) (hm : Means g pre val) (hP : Collected o r P)
    (hdirect : (o.nodes r).indirect = false) : val r ⊆ meaning den P := by
  intro v hv
  have hcome : ∀ {x v}, Reason g pre val x v → o.rep x = r → v ∈ meaning den P := by
    intro x v hx
    induction hx with
    | @label x l v hl hv =>
        intro hxr
        obtain ⟨h0, hlt, -⟩ := hm.first hl
        exact ⟨l, (hP l).mpr (.inl ((h.gathered.labels l).mpr ⟨x, hxr, hl⟩)), h.first l h0 hlt ▸ hv⟩
    | @indirect x _ hi _ =>
        intro hxr
        have := h.gathered.indirect.mpr ⟨x, hxr, hi⟩
        rw [hdirect] at this
        cases this
    | @edge x d v hd hr ih =>
        intro hxr
        by_cases hdr : o.rep d = r
        · exact ih hdr
        · have hdo := (h.gathered.edges d).mpr ⟨x, hxr, hd⟩
          have hmeant := h.meant hdo hdr
          have hvd : v ∈ val (o.rep d) := by
            rw [hm.mutual (h.comp d)]
            exact hm.of_reason hr
          rw [hmeant.eq] at hvd
          obtain ⟨l, hl, hvl⟩ := hvd
          refine ⟨l, (hP l).mpr (.inr ⟨d, hdo, hdr, fun h0 => ?_, hl⟩), hvl⟩
          -- label 0 means nothing
          rw [hmeant.zero h0, Finset.mem_singleton] at hl
          rw [hl, h.zero] at hvl
          exact hvl
  exact hcome (hm.reason hv) (OffGraph.rep_eq_self.mpr h.isRep)

/-- The labels that are collected are not 0, and known. -/
theorem comes_known (h : AtRoot g pre val D den o r) (hm : Means g pre val) {l : Nat}
    (hl : Comes o r l) : l ≠ 0 ∧ l < o.nextPtrEq := by
  rcases hl with hl | ⟨d, -, -, h0, hl⟩
  · obtain ⟨y, -, hy⟩ := (h.gathered.labels l).mp hl
    exact ⟨(hm.first hy).1, (hm.first hy).2.1.trans_le h.next⟩
  · exact ⟨fun he => h0 (he ▸ hl), h.known _ (o.isRep_rep d) l hl⟩

/-- The component gets labels that mean its set. -/
theorem labelled {den' : Nat → Set α} (h : AtRoot g pre val D den o r)
    (hold : ∀ l < o.nextPtrEq, den' l = den l) {tbl : List (Finset Nat × Nat)} {k : Nat}
    (hk : o.nextPtrEq ≤ k) (htbl : ∀ P l, (P, l) ∈ tbl → (P, l) ∈ o.lbl2pe ∨
      l ≠ 0 ∧ l < k ∧ (∀ i ∈ P, i < k) ∧ den' l = meaning den' P)
    (hP : ∀ l ∈ P, l < k) (hmeant : Meant den' (val r) P) (h0 : 0 < g.nextPtrEq) :
    Relabelled o r { setLabels o r P with nextPtrEq := k, lbl2pe := tbl } ∧
      Denotes g pre val (D ∪ {x | Mutual g.Succ r x}) den'
        { setLabels o r P with nextPtrEq := k, lbl2pe := tbl } := by
  have hrel : Relabelled o r { setLabels o r P with nextPtrEq := k, lbl2pe := tbl } :=
    (Relabelled.setLabels o r P).counters k tbl
  have hmean : ∀ {Q : Finset Nat}, (∀ l ∈ Q, l < o.nextPtrEq) → meaning den' Q = meaning den Q :=
    fun hQ => meaning_congr fun l hl => hold l (hQ l hl)
  refine ⟨hrel, h.main2off, (hold 0 (h0.trans_le h.next)).trans h.zero,
    fun l hl0 hl => (hold l (hl.trans_le h.next)).trans (h.first l hl0 hl), h.next.trans hk,
    h.comp, fun x hx l hl => ?_, fun Q l he => ?_, fun x hx hd => ?_, fun x hx hd => ?_⟩
  · by_cases hxr : x = r
    · rw [hxr] at hl
      exact hP l (setLabels_ptrEq o r P ▸ hl)
    · rw [hrel.other x hxr] at hl
      exact (h.known x hx l hl).trans_le hk
  · rcases htbl Q l he with he | hnew
    · obtain ⟨hl0, hl, hQ, heq⟩ := h.table Q l he
      exact ⟨hl0, hl.trans_le hk, fun i hi => (hQ i hi).trans_le hk, by
        rw [hold l hl, hmean hQ, heq]⟩
    · exact hnew
  · have hxr : x ≠ r := fun he => hd (.inr (he ▸ .refl r))
    have hX := h.open_ x hx fun hxD => hd (.inl hxD)
    refine ⟨?_, ?_, ?_⟩ <;> rw [hrel.other x hxr]
    · exact hX.edges
    · exact hX.labels
    · exact hX.indirect
  · by_cases hxr : x = r
    · subst hxr
      exact (setLabels_ptrEq o x P).symm ▸ hmeant
    · rw [hrel.other x hxr]
      have hxD : x ∈ D := hd.resolve_right fun hm => hxr (by
        rw [← (h.members x).mpr hm]
        exact (OffGraph.rep_eq_self.mpr hx).symm)
      obtain ⟨hne, heq, hz⟩ := h.done x hx hxD
      exact ⟨hne, heq.trans (hmean (h.known x hx)).symm, hz⟩

/-- The neighbours whose labels are collected have some. -/
theorem neighbours (h : AtRoot g pre val D den o r) :
    ∀ d ∈ (o.nodes r).edges, o.rep d = r ∨ (o.nodes (o.rep d)).ptrEq ≠ ∅ := fun d hd => by
  by_cases hdr : o.rep d = r
  · exact .inl hdr
  · exact .inr (h.meant hd hdr).nonempty

/-- What `collectLabels` leaves is enough for a direct component. -/
theorem meant_collected (h : AtRoot g pre val D den o r) (hm : Means g pre val)
    (hP : Collected o r P) (hdirect : (o.nodes r).indirect = false) :
    val r = meaning den P :=
  Set.Subset.antisymm (h.complete hm hP hdirect) (h.sound hm hP)

/-- No labels mean the empty set, and so does label 0. -/
theorem nonptr (h : AtRoot g pre val D den o r) (hempty : val r = ∅) : Meant den (val r) {0} where
  nonempty := Finset.singleton_ne_empty 0
  eq := by rw [meaning_singleton, h.zero, hempty]
  zero _ := rfl

end AtRoot

/-- What both labellings keep. -/
abbrev LabelsMean (g : OffGraph) (pre val : Nat → Set α) (D : Set Nat) (o : OffGraph) : Prop :=
  ∃ den, Denotes g pre val D den o

theorem AtRoot.hvnLabel (h : AtRoot g pre val D den o r) (hm : Means g pre val)
    (hroot : (o.nodes r).sccRoot = true) :
    Spec (hvnLabel o r) (fun o' => Relabelled o r o' ∧
      LabelsMean g pre val (D ∪ {x | Mutual g.Succ r x}) o') fun _ => False := by
  have hpos : o.nextPtrEq ≠ 0 := (hm.next.trans_le h.next).ne'
  -- a label that was not used yet may mean anything
  have hnew : ∀ (V : Set α), ∀ l < o.nextPtrEq, Function.update den o.nextPtrEq V l = den l :=
    fun V l hl => Function.update_of_ne hl.ne ..
  unfold PtrAnalysis.hvnLabel
  refine spec_require (fun hp => (hp ⟨h.isRep, hroot⟩).elim) fun _ => ?_
  split
  · refine spec_ok ((h.labelled (hnew (val r)) (Nat.le_succ _) (fun P l he => .inl he)
      (by simp) ⟨Finset.singleton_ne_empty _, ?_, fun h0 => ?_⟩ hm.next).imp_right fun hd => ⟨_, hd⟩)
    · rw [meaning_singleton, Function.update_self]
    · exact absurd (Finset.mem_singleton.mp h0).symm hpos
  · rename_i hdirect
    rw [Bool.not_eq_true] at hdirect
    refine (collectLabels_collected h.neighbours).bind fun o1 h1 => ?_
    obtain ⟨P, rfl, hP⟩ := h1
    have hval := h.meant_collected hm hP hdirect
    have hknown : ∀ l ∈ P, l ≠ 0 ∧ l < o.nextPtrEq := fun l hl => h.comes_known hm ((hP l).mp hl)
    have hsame : ∀ l < o.nextPtrEq, den l = den l := fun _ _ => rfl
    dsimp only
    rw [setLabels_ptrEq]
    split
    · rename_i hnone
      rw [setLabels_setLabels]
      refine spec_ok ((h.labelled hsame le_rfl (fun P l he => .inl he) (by simpa using hpos.bot_lt)
        (h.nonptr ?_) hm.next).imp_right fun hd => ⟨den, hd⟩)
      rw [hval, hnone, meaning_empty]
    · rename_i hsome
      have hP0 : 0 ∉ P := fun h0 => (hknown 0 h0).1 rfl
      split
      · exact spec_ok ((h.labelled hsame le_rfl (fun P l he => .inl he) (fun l hl => (hknown l hl).2)
          ⟨hsome, hval, fun h0 => (hP0 h0).elim⟩ hm.next).imp_right fun hd => ⟨den, hd⟩)
      · split
        · rename_i l hl
          obtain ⟨hl0, hlt, -, heq⟩ := h.table P l (lookup_mem hl)
          rw [setLabels_setLabels]
          refine spec_ok ((h.labelled hsame le_rfl (fun P l he => .inl he) (by simpa using hlt)
            ⟨Finset.singleton_ne_empty _, ?_, fun h0 => ?_⟩ hm.next).imp_right fun hd => ⟨den, hd⟩)
          · rw [meaning_singleton, heq, hval]
          · exact absurd (Finset.mem_singleton.mp h0).symm hl0
        · have hcount : (setLabels o r P).nextPtrEq = o.nextPtrEq := rfl
          rw [setLabels_setLabels, hcount]
          refine spec_ok ((h.labelled (hnew (val r)) (Nat.le_succ _) (fun Q l he => ?_) (by simp)
            ⟨Finset.singleton_ne_empty _, ?_, fun h0 => ?_⟩ hm.next).imp_right fun hd => ⟨_, hd⟩)
          · rcases List.mem_cons.mp he with he | he
            · obtain ⟨rfl, rfl⟩ := Prod.mk.inj he
              refine .inr ⟨hpos, Nat.lt_succ_self _, fun i hi => (hknown i hi).2.trans
                (Nat.lt_succ_self _), ?_⟩
              rw [Function.update_self, hval]
              exact (meaning_congr fun l hl => hnew _ l (hknown l hl).2).symm
            · exact .inl he
          · rw [meaning_singleton, Function.update_self]
          · exact absurd (Finset.mem_singleton.mp h0).symm hpos

theorem AtRoot.huLabel (h : AtRoot g pre val D den o r) (hm : Means g pre val)
    (hroot : (o.nodes r).sccRoot = true) :
    Spec (huLabel o r) (fun o' => Relabelled o r o' ∧
      LabelsMean g pre val (D ∪ {x | Mutual g.Succ r x}) o') fun _ => False := by
  have hpos : o.nextPtrEq ≠ 0 := (hm.next.trans_le h.next).ne'
  have hnew : ∀ (V : Set α), ∀ l < o.nextPtrEq, Function.update den o.nextPtrEq V l = den l :=
    fun V l hl => Function.update_of_ne hl.ne ..
  unfold PtrAnalysis.huLabel
  refine spec_require (fun hp => (hp ⟨h.isRep, hroot⟩).elim) fun _ => ?_
  by_cases hi : (o.nodes r).indirect = true
  · obtain ⟨Q, hQ⟩ : ∃ Q, insert o.nextPtrEq (o.nodes r).ptrEq = Q := ⟨_, rfl⟩
    obtain ⟨o1, hstart⟩ : ∃ o1, (if (o.nodes r).indirect = true then
        { o.modify r fun N => { N with ptrEq := insert o.nextPtrEq N.ptrEq } with
          nextPtrEq := o.nextPtrEq + 1 }
      else o) = o1 := ⟨_, rfl⟩
    have ho1 : { setLabels o r Q with nextPtrEq := o.nextPtrEq + 1 } = o1 := by
      rw [← hstart, if_pos hi, ← hQ]
      rfl
    have hrel : Relabelled o r o1 := ho1 ▸ (Relabelled.setLabels o r Q).counters _ o.lbl2pe
    have hown : (o1.nodes r).ptrEq = Q := ho1 ▸ setLabels_ptrEq o r Q
    have hnbr : ∀ d ∈ (o1.nodes r).edges, o1.rep d = r ∨ (o1.nodes (o1.rep d)).ptrEq ≠ ∅ := by
      intro d hd
      rw [hrel.rep]
      by_cases hdr : o.rep d = r
      · exact .inl hdr
      · rw [hrel.other _ hdr]
        exact h.neighbours d ((hrel.edges r).1 ▸ hd)
    dsimp only
    rw [hstart]
    refine (collectLabels_collected hnbr).bind fun o2 h2 => ?_
    obtain ⟨P, rfl, hP⟩ := h2
    have hmem : ∀ l, l ∈ P ↔ l = o.nextPtrEq ∨ Comes o r l := fun l => by
      rw [hP l, hrel.comes, hown, ← hQ, Finset.mem_insert, or_assoc]
      rfl
    have hothers : Collected o r (P.erase o.nextPtrEq) := fun l => by
      rw [Finset.mem_erase, hmem]
      exact ⟨fun hl => hl.2.resolve_left hl.1,
        fun hl => ⟨(h.comes_known hm hl).2.ne, .inr hl⟩⟩
    have hin : o.nextPtrEq ∈ P := (hmem _).mpr (.inl rfl)
    have hend : setLabels o1 r P =
        { setLabels o r P with nextPtrEq := o.nextPtrEq + 1, lbl2pe := o.lbl2pe } := by
      rw [← ho1]
      exact congrArg (fun o' : OffGraph => { o' with nextPtrEq := o.nextPtrEq + 1 })
        (setLabels_setLabels o r Q P)
    rw [setLabels_ptrEq, if_neg (Finset.ne_empty_of_mem hin), hend]
    refine spec_ok ?_
    refine (h.labelled (hnew (val r)) (Nat.le_succ _) (fun P l he => .inl he) (fun l hl => ?_)
      ⟨Finset.ne_empty_of_mem hin, ?_, fun h0 => ?_⟩ hm.next).imp_right fun hd => ⟨_, hd⟩
    · rcases (hmem l).mp hl with rfl | hl
      · exact Nat.lt_succ_self _
      · exact (h.comes_known hm hl).2.trans (Nat.lt_succ_self _)
    · -- the new label means the whole set, the others no more
      rw [← Finset.insert_erase hin, ← Finset.singleton_union, meaning_union, meaning_singleton,
        Function.update_self, meaning_congr fun l hl =>
          hnew (val r) l (h.comes_known hm ((hothers l).mp hl)).2]
      exact (Set.union_eq_self_of_subset_right (h.sound hm hothers)).symm
    · rcases (hmem 0).mp h0 with h0 | h0
      · exact absurd h0.symm hpos
      · exact absurd rfl (h.comes_known hm h0).1
  · rw [if_neg hi]
    rw [Bool.not_eq_true] at hi
    refine (collectLabels_collected h.neighbours).bind fun o1 h1 => ?_
    obtain ⟨P, rfl, hP⟩ := h1
    have hval := h.meant_collected hm hP hi
    have hknown : ∀ l ∈ P, l ≠ 0 ∧ l < o.nextPtrEq := fun l hl => h.comes_known hm ((hP l).mp hl)
    have hsame : ∀ l < o.nextPtrEq, den l = den l := fun _ _ => rfl
    rw [setLabels_ptrEq, setLabels_setLabels]
    refine spec_ok ?_
    split
    · rename_i hnone
      refine (h.labelled hsame le_rfl (fun P l he => .inl he) (by simpa using hpos.bot_lt)
        (h.nonptr ?_) hm.next).imp_right fun hd => ⟨den, hd⟩
      rw [hval, hnone, meaning_empty]
    · rename_i hsome
      have hP0 : 0 ∉ P := fun h0 => (hknown 0 h0).1 rfl
      exact (h.labelled hsame le_rfl (fun P l he => .inl he) (fun l hl => (hknown l hl).2)
        ⟨hsome, hval, fun h0 => (hP0 h0).elim⟩ hm.next).imp_right fun hd => ⟨den, hd⟩

/-- The rules of the search for a meaning. -/
theorem Means.rules (hm : Means g pre val) (doUnion : Bool) :
    LabelRules g (labelOf doUnion) (LabelsMean g pre val) := by
  refine ⟨?_, ?_, ?_⟩
  · rintro D o o' ⟨den, h⟩ hs
    exact ⟨den, h.same hs⟩
  · rintro D o a b ⟨den, h⟩ ha hb hne haD hbD hab
    exact ⟨den, h.absorb ha hb hne haD hbD hab⟩
  · rintro D o r ⟨den, h⟩ hr hroot hset hfresh hleads
    have hat : AtRoot g pre val D den o r := ⟨h, hr, hset, hfresh, hleads⟩
    cases doUnion with
    | false => exact hat.hvnLabel hm hroot
    | true => exact hat.huLabel hm hroot

/-- After the search, the labels of every node mean its set, whatever the nodes mean. -/
theorem hvnSearch_means (hg : g.Unsearched) (hm : Means g pre val) (doUnion : Bool) :
    Spec (hvnSearch doUnion g) (fun o' => o'.main2off = g.main2off ∧ ∃ den : Nat → Set α,
      den 0 = ∅ ∧ ∀ x, g.Valid x → Meant den (val x) (o'.nodes (o'.rep x)).ptrEq)
      fun _ => False := by
  have hstart : LabelsMean g pre val ∅ { g with currDfs := 1, lbl2pe := [] } := by
    have hself : ∀ x, g.rep x = x := OffGraph.rep_discrete hg.forest
    have hmem : ∀ {x : Nat} {f : Nat → Prop}, f x ↔ ∃ y, g.rep y = x ∧ f y := by
      intro x f
      simp only [hself, exists_eq_left]
    refine ⟨fun l => if l = 0 then ∅ else pre l, rfl, if_pos rfl, fun l hl _ => if_neg hl, le_rfl,
      fun x => ?_, fun x _ l hl => (hm.first hl).2.1, fun P l he => absurd he List.not_mem_nil,
      fun x _ _ => ⟨fun d => hmem (f := fun y => d ∈ (g.nodes y).edges),
        fun l => hmem (f := fun y => l ∈ (g.nodes y).ptrEq),
        hmem (f := fun y => (g.nodes y).indirect = true)⟩,
      fun x _ hd => hd.elim⟩
    change Mutual g.Succ (g.rep x) x
    rw [hself]
    exact .refl x
  rw [hvnSearch_eq]
  refine (hvnSearchWith_keeps (hm.rules doUnion) hstart hg).imp fun o' ho' => ?_
  obtain ⟨T, hb, hall⟩ := ho'
  obtain ⟨den, h⟩ := hb.tracks.label
  refine ⟨h.main2off, den, h.zero, fun x hx => ?_⟩
  have hdone : o'.rep x ∈ T.done := by
    rcases hb.tracks.rep_self x with heq | hd
    · exact heq.symm ▸ hall x hx
    · exact hd.1.1
  rw [← hm.mutual (h.comp x)]
  exact h.done _ (o'.isRep_rep x) hdone

end PtrAnalysis
