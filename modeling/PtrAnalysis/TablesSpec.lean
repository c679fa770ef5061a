import PtrAnalysis.Tables

/-!
# What `ptsInit` computes

Under the offsets that occur in the constraints, `offMask[off]` is the set of
object nodes with more than `off` fields and `geps[off]` adds `off` to its
members. The only thing that can go wrong is an offset no object is big enough
for: the first such offset is already outside `off_nodes`.
-/

namespace PtrAnalysis

open Run

/-! ## The largest valid offset -/

section LastValid

variable {valid : Finset Nat}

theorem lastValid_le (valid : Finset Nat) : ∀ n, lastValid valid n ≤ n
  | 0 => Nat.le_refl 0
  | n + 1 => by
      rw [lastValid]
      split
      · exact Nat.le_refl _
      · exact Nat.le_succ_of_le (lastValid_le valid n)

theorem le_lastValid {off : Nat} (hv : off ∈ valid) (h0 : off ≠ 0) :
    ∀ {n : Nat}, off ≤ n → off ≤ lastValid valid n
  | 0, h => absurd (Nat.le_zero.mp h) h0
  | n + 1, h => by
      rw [lastValid]
      split
      · exact h
      · rename_i hn
        have hne : off ≠ n + 1 := fun he => hn (he ▸ hv)
        exact le_lastValid hv h0 (by omega)

theorem lastValid_mem : ∀ {n : Nat}, lastValid valid n ≠ 0 → lastValid valid n ∈ valid
  | 0, h => absurd rfl h
  | n + 1, h => by
      rw [lastValid] at h ⊢
      split
      · assumption
      · rename_i hn
        rw [if_neg hn] at h
        exact lastValid_mem h

end LastValid

/-! ## `off_nodes` -/

/-- The state of the loop over the first `n` nodes. -/
structure OffNodes (valid : Finset Nat) (objSz : Nat → Nat) (n : Nat)
    (t : Nat × List (Finset Nat)) : Prop where
  length : t.2.length = t.1
  max : ∀ off, off ≠ 0 → (off < t.1 ↔ ∃ i < n, off < objSz i)
  mem : ∀ off i, off ≠ 0 → (i ∈ t.2.getD off ∅ ↔
    i < n ∧ 2 ≤ objSz i ∧ lastValid valid (objSz i - 1) = off)

theorem resize_getD (v : List (Finset Nat)) (sz off : Nat) :
    (resize v sz).getD off ∅ = v.getD off ∅ := by
  unfold resize
  rw [List.getD_eq_getElem?_getD, List.getD_eq_getElem?_getD, List.getElem?_append]
  split
  · rfl
  · rename_i h
    rw [List.getElem?_replicate, List.getElem?_eq_none (by omega : v.length ≤ off)]
    split <;> rfl

theorem resize_length {v : List (Finset Nat)} {sz : Nat} (h : v.length ≤ sz) :
    (resize v sz).length = sz := by
  unfold resize
  rw [List.length_append, List.length_replicate]
  omega

theorem modify_getD {v : List (Finset Nat)} {k : Nat} (f : Finset Nat → Finset Nat)
    (hk : k < v.length) (off : Nat) :
    (v.modify k f).getD off ∅ = if off = k then f (v.getD off ∅) else v.getD off ∅ := by
  rw [List.getD_eq_getElem?_getD, List.getD_eq_getElem?_getD, List.getElem?_modify]
  by_cases h : off = k
  · subst h
    simp [List.getElem?_eq_getElem hk]
  · simp [h, Ne.symm h]

theorem recordNode_spec {valid : Finset Nat} {objSz : Nat → Nat} {n : Nat}
    {t : Nat × List (Finset Nat)} (h : OffNodes valid objSz n t) :
    Spec (recordNode valid objSz t n) (OffNodes valid objSz (n + 1)) fun _ => False := by
  obtain ⟨maxSz, v⟩ := t
  unfold recordNode
  dsimp only
  split
  · -- the node starts no object with fields
    rename_i hsmall
    refine ⟨h.length, fun off h0 => (h.max off h0).trans ⟨fun ⟨i, hi, ho⟩ => ⟨i, by omega, ho⟩, ?_⟩,
      fun off i h0 => (h.mem off i h0).trans ⟨fun ⟨hi, hr⟩ => ⟨by omega, hr⟩, ?_⟩⟩
    · rintro ⟨i, hi, ho⟩
      have hin : i ≠ n := fun he => by subst he; omega
      exact ⟨i, by omega, ho⟩
    · rintro ⟨hi, h2, hr⟩
      have hin : i ≠ n := fun he => by subst he; omega
      exact ⟨by omega, h2, hr⟩
  · rename_i hbig
    -- the vector grown to the size of this object
    obtain ⟨t1, ht1⟩ : ∃ t1 : Nat × List (Finset Nat), (if maxSz < objSz n then
      (objSz n, resize v (objSz n)) else (maxSz, v)) = t1 := ⟨_, rfl⟩
    have hgrown : t1.2.length = t1.1 ∧ (∀ off, off < t1.1 ↔ off < maxSz ∨ off < objSz n) ∧
        ∀ off, t1.2.getD off ∅ = v.getD off ∅ := by
      have hlen : v.length = maxSz := h.length
      rw [← ht1]
      split
      · exact ⟨resize_length (by omega), fun off => by dsimp only; omega, resize_getD v _⟩
      · exact ⟨hlen, fun off => by dsimp only; omega, fun _ => rfl⟩
    obtain ⟨hlen, hmax, hget⟩ := hgrown
    have hmax' : ∀ off, off ≠ 0 → (off < t1.1 ↔ ∃ i < n + 1, off < objSz i) := fun off h0 => by
      rw [hmax, show off < maxSz ↔ _ from h.max off h0]
      constructor
      · rintro (⟨i, hi, ho⟩ | ho)
        · exact ⟨i, by omega, ho⟩
        · exact ⟨n, by omega, ho⟩
      · rintro ⟨i, hi, ho⟩
        by_cases hin : i = n
        · exact .inr (hin ▸ ho)
        · exact .inl ⟨i, by omega, ho⟩
    rw [ht1]
    generalize hoff : lastValid valid (objSz n - 1) = off
    have hle : off ≤ objSz n - 1 := hoff ▸ lastValid_le valid _
    split
    · rename_i hz
      refine ⟨hlen, hmax', fun o i h0 => ?_⟩
      rw [hget, show i ∈ v.getD o ∅ ↔ _ from h.mem o i h0]
      constructor
      · rintro ⟨hi, hr⟩
        exact ⟨by omega, hr⟩
      · rintro ⟨hi, h2, hr⟩
        have hin : i ≠ n := fun he => by subst he; omega
        exact ⟨by omega, h2, hr⟩
    · have hin : off < t1.2.length := by
        rw [hlen, hmax]
        omega
      refine spec_inRange (fun hno => absurd hin hno) fun _ => ?_
      refine ⟨by rw [List.length_modify]; exact hlen, hmax', fun o i h0 => ?_⟩
      rw [modify_getD _ hin, hget]
      have hold := h.mem o i h0
      dsimp only at hold
      split
      · rename_i ho
        subst ho
        rw [Finset.mem_insert, hold]
        constructor
        · rintro (rfl | ⟨hi, hr⟩)
          · exact ⟨by omega, by omega, hoff⟩
          · exact ⟨by omega, hr⟩
        · rintro ⟨hi, hr⟩
          by_cases hin : i = n
          · exact .inl hin
          · exact .inr ⟨by omega, hr⟩
      · rename_i ho
        rw [hold]
        constructor
        · rintro ⟨hi, hr⟩
          exact ⟨by omega, hr⟩
        · rintro ⟨hi, h2, hr⟩
          have hin : i ≠ n := fun he => ho (by subst he; omega)
          exact ⟨by omega, h2, hr⟩

theorem offNodes_spec (valid : Finset Nat) (objSz : Nat → Nat) (npts : Nat) :
    Spec (offNodes valid objSz npts) (OffNodes valid objSz npts) fun _ => False := by
  have hloop : Spec (offNodes valid objSz npts)
      (fun t => OffNodes valid objSz (List.range npts).length t) fun _ => False := by
    refine spec_foldlM (fun done t => OffNodes valid objSz done.length t)
      ⟨rfl, fun off _ => by simp, fun off i _ => by simp⟩ fun done a rest c hl hc => ?_
    rw [List.length_append, List.length_singleton, range_split hl]
    exact recordNode_spec hc
  rwa [List.length_range] at hloop

/-! ## The tables -/

/-- The tables for the offsets in `done`, made from the largest offset down. -/
structure MasksDone (bits maxSz : Nat) (off_nodes : List (Finset Nat)) (done : List Nat)
    (t : Masks) : Prop where
  om : ∀ i, i ∈ t.om ↔ ∃ off ∈ done, i ∈ off_nodes.getD off ∅
  length : t.geps.length = maxSz ∧ t.offMask.length = maxSz
  inside : ∀ off ∈ done, off < off_nodes.length
  mask : ∀ off ∈ done, ∀ i, i ∈ t.offMask.getD off ∅ ↔
    ∃ off' ∈ done, off ≤ off' ∧ i ∈ off_nodes.getD off' ∅
  geps : ∀ off ∈ done, t.geps.getD off ∅ = gepFunction bits off (t.offMask.getD off ∅)

theorem set_getD {α : Type} {v : List α} {k : Nat} (x d : α) (hk : k < v.length) (off : Nat) :
    (v.set k x).getD off d = if off = k then x else v.getD off d := by
  rw [List.getD_eq_getElem?_getD, List.getD_eq_getElem?_getD, List.getElem?_set]
  by_cases h : off = k
  · subst h
    simp [hk]
  · simp [h, Ne.symm h]

theorem makeMask_spec {bits maxSz : Nat} {off_nodes : List (Finset Nat)} {done : List Nat}
    {t : Masks} {off : Nat} (hmax : off_nodes.length = maxSz)
    (h : MasksDone bits maxSz off_nodes done t) (hoff : ∀ off' ∈ done, off < off') :
    Spec (makeMask bits off_nodes t off) (MasksDone bits maxSz off_nodes (done ++ [off]))
      fun e => e = .outOfRange "off_nodes" ∧ maxSz ≤ off := by
  unfold makeMask
  refine spec_inRange (fun hno => ⟨rfl, by omega⟩) fun hin => ?_
  refine spec_inRange (fun hno => absurd (by rw [h.length.1]; omega) hno) fun hin1 => ?_
  refine spec_inRange (fun hno => absurd (by rw [h.length.2]; omega) hno) fun hin2 => ?_
  have hom : ∀ i, i ∈ t.om ∪ off_nodes.getD off ∅ ↔ ∃ off' ∈ done ++ [off], i ∈ off_nodes.getD off' ∅ := by
    intro i
    rw [Finset.mem_union, h.om]
    simp only [List.mem_append, List.mem_singleton, or_and_right, exists_or, exists_eq_left]
  have hother : ∀ off' ∈ done, off' ≠ off := fun off' ho => Nat.ne_of_gt (hoff off' ho)
  refine ⟨hom, by simp [h.length], fun off' ho => ?_, fun off' ho i => ?_, fun off' ho => ?_⟩
  · rcases List.mem_append.mp ho with ho | ho
    · exact h.inside off' ho
    · exact List.mem_singleton.mp ho ▸ hin
  · dsimp only
    rw [set_getD _ _ hin2]
    rcases List.mem_append.mp ho with ho | ho
    · rw [if_neg (hother off' ho), h.mask off' ho]
      refine ⟨fun ⟨o, h1, h2, h3⟩ => ⟨o, List.mem_append_left _ h1, h2, h3⟩, fun ⟨o, h1, h2, h3⟩ => ?_⟩
      rcases List.mem_append.mp h1 with h1 | h1
      · exact ⟨o, h1, h2, h3⟩
      · have := hoff off' ho
        have := List.mem_singleton.mp h1
        omega
    · obtain rfl := List.mem_singleton.mp ho
      rw [if_pos rfl, hom]
      refine ⟨fun ⟨o, h1, h2⟩ => ⟨o, h1, ?_, h2⟩, fun ⟨o, h1, _, h3⟩ => ⟨o, h1, h3⟩⟩
      rcases List.mem_append.mp h1 with h1 | h1
      · exact Nat.le_of_lt (hoff o h1)
      · exact Nat.le_of_eq (List.mem_singleton.mp h1).symm
  · dsimp only
    rw [set_getD _ _ hin1, set_getD _ _ hin2]
    rcases List.mem_append.mp ho with ho | ho
    · rw [if_neg (hother off' ho), if_neg (hother off' ho), h.geps off' ho]
    · obtain rfl := List.mem_singleton.mp ho
      rw [if_pos rfl, if_pos rfl]

theorem makeMasks_spec {bits maxSz : Nat} {valid : Finset Nat} {off_nodes : List (Finset Nat)}
    (hmax : off_nodes.length = maxSz) :
    Spec (makeMasks bits maxSz valid off_nodes)
      (MasksDone bits maxSz off_nodes (ascending valid).reverse)
      fun e => e = .outOfRange "off_nodes" ∧ ∃ off ∈ valid, maxSz ≤ off := by
  have hsorted : (ascending valid).reverse.Pairwise (fun a b => b < a) :=
    List.pairwise_reverse.mpr (ascending_sorted valid)
  refine spec_foldlM (fun done t => MasksDone bits maxSz off_nodes done t)
    ⟨fun i => by simp, by simp, fun _ h => (by cases h), fun _ h => (by cases h),
      fun _ h => (by cases h)⟩ fun done off rest t hl ht => ?_
  have hdone : ∀ off' ∈ done, off < off' := fun off' ho => by
    rw [hl] at hsorted
    exact (List.pairwise_append.mp hsorted).2.2 off' ho off (List.mem_cons_self ..)
  have hs := makeMask_spec hmax ht hdone
  cases hc : makeMask bits off_nodes t off with
  | ok t' => exact hs.result hc
  | error e =>
      obtain ⟨he, hle⟩ := hs.stop hc
      refine ⟨he, off, ?_, hle⟩
      rw [← mem_ascending, ← List.mem_reverse, hl]
      simp

/-! ## The state after `ptsInit` -/

/-- For every offset in the constraints there is an object with that many fields
and one more. -/
def Anders.OffsetsFit (a : Anders) : Prop :=
  ∀ C ∈ a.constraints, C.off ≠ 0 → ∃ i ≤ a.lastObjNode, C.off < (a.nodes i).objSz

/-- Node `i` stands for an external function. -/
def IsExtNode (M : Module) (a : Anders) (i : Nat) : Prop :=
  ∃ f, (a.nodes i).val.bind Value.func? = some f ∧ M.isExt f = true

/-- Node `i` starts the object of a function. -/
def IsFuncNode (M : Module) (a : Anders) (i : Nat) : Prop :=
  ∃ f, (a.nodes i).val.bind Value.func? = some f ∧ (M.isExt f = true ∨ 1 < (a.nodes i).objSz)

/-- The functions among the first `n` nodes were entered into their sets. -/
structure FunctionSets (M : Module) (a b : Anders) (n : Nat) : Prop where
  ext : ∀ i, i ∈ b.extFuncNodes ↔ i ∈ a.extFuncNodes ∨ i < n ∧ IsExtNode M a i
  extSet : ∀ i, i ∈ b.extFuncNodeSet ↔ i ∈ a.extFuncNodeSet ∨ i < n ∧ IsExtNode M a i
  func : ∀ i, i ∈ b.funcNodeSet ↔ i ∈ a.funcNodeSet ∨ i < n ∧ IsFuncNode M a i
  size : ∀ i < n, IsExtNode M a i → (a.nodes i).objSz = 1

/-- What the solver may rely on: under every offset of the constraints, the
tables hold the nodes with more fields and the function that adds the offset. -/
structure TablesReady (M : Module) (a b : Anders) : Prop where
  frame : b = { a with
    geps := b.geps, offMask := b.offMask, extFuncNodes := b.extFuncNodes
    extFuncNodeSet := b.extFuncNodeSet, funcNodeSet := b.funcNodeSet }
  inside : ∀ off ∈ validOff a.constraints, off < b.offMask.length ∧ off < b.geps.length
  mask : ∀ off ∈ validOff a.constraints, ∀ i, i ∈ b.offMask.getD off ∅ ↔
    i ≤ a.lastObjNode ∧ off < (a.nodes i).objSz
  geps : ∀ off ∈ validOff a.constraints, b.geps.getD off ∅ =
    gepFunction (fddBits (a.lastObjNode + 1)) off (b.offMask.getD off ∅)
  functions : FunctionSets M a b (a.lastObjNode + 1)
  fit : a.OffsetsFit

theorem mem_validOff {cs : List Constraint} {off : Nat} :
    off ∈ validOff cs ↔ off ≠ 0 ∧ ∃ C ∈ cs, C.off = off := by
  simp only [validOff, List.mem_toFinset, List.mem_filter, List.mem_map, decide_eq_true_eq]
  exact ⟨fun ⟨h, h0⟩ => ⟨h0, h⟩, fun ⟨h0, h⟩ => ⟨h, h0⟩⟩

theorem Anders.offsetsFit_iff {a : Anders} : a.OffsetsFit ↔
    ∀ off ∈ validOff a.constraints, ∃ i ≤ a.lastObjNode, off < (a.nodes i).objSz := by
  constructor
  · intro h off hoff
    obtain ⟨h0, C, hC, rfl⟩ := mem_validOff.mp hoff
    exact h C hC h0
  · intro h C hC h0
    exact h C.off (mem_validOff.mpr ⟨h0, C, hC, rfl⟩)

/-- Entering node `n` changes no table. -/
theorem recordFunction_spec {M : Module} {a b : Anders} {n : Nat}
    (hframe : b = { a with
      geps := b.geps, offMask := b.offMask, extFuncNodes := b.extFuncNodes
      extFuncNodeSet := b.extFuncNodeSet, funcNodeSet := b.funcNodeSet })
    (h : FunctionSets M a b n) :
    Spec (recordFunction M b n) (fun c => FunctionSets M a c (n + 1) ∧ c = { b with
      extFuncNodes := c.extFuncNodes, extFuncNodeSet := c.extFuncNodeSet
      funcNodeSet := c.funcNodeSet }) fun e => e = .assertion "N->obj_sz == 1" := by
  unfold recordFunction
  have hnode : b.nodes n = a.nodes n := by rw [hframe]
  rw [hnode]
  split
  · rename_i hnone
    exact ⟨⟨fun i => by grind [h.ext i, IsExtNode], fun i => by grind [h.extSet i, IsExtNode],
      fun i => by grind [h.func i, IsFuncNode], fun i => by grind [h.size i, IsExtNode]⟩, rfl⟩
  · rename_i f hf
    split
    · refine spec_require (fun _ => rfl) fun hsz => ⟨⟨fun i => ?_, fun i => ?_, fun i => ?_,
        fun i => ?_⟩, rfl⟩
      · grind [h.ext i, IsExtNode]
      · grind [h.extSet i, IsExtNode]
      · grind [h.func i, IsFuncNode]
      · grind [h.size i, IsExtNode]
    · split
      · exact ⟨⟨fun i => by grind [h.ext i, IsExtNode], fun i => by grind [h.extSet i, IsExtNode],
          fun i => by grind [h.func i, IsFuncNode], fun i => by grind [h.size i, IsExtNode]⟩, rfl⟩
      · exact ⟨⟨fun i => by grind [h.ext i, IsExtNode], fun i => by grind [h.extSet i, IsExtNode],
          fun i => by grind [h.func i, IsFuncNode], fun i => by grind [h.size i, IsExtNode]⟩, rfl⟩

/-- `ptsInit` fails in two ways: at an external function with an object that has
fields, and at an offset in the constraints for which no object is big enough. -/
theorem ptsInit_spec (M : Module) (a : Anders) :
    Spec (ptsInit M a) (TablesReady M a) fun e =>
      e = .assertion "N->obj_sz == 1" ∧ a.OffsetsFit ∨
      e = .outOfRange "off_nodes" ∧ ¬ a.OffsetsFit := by
  unfold ptsInit
  dsimp only
  refine ((offNodes_spec _ _ _).stops fun _ h => h.elim).bind fun t ho => ?_
  obtain ⟨maxSz, v⟩ := t
  rw [Anders.offsetsFit_iff]
  have hoff : ∀ off ∈ validOff a.constraints, off ≠ 0 := fun off h => (mem_validOff.mp h).1
  have hmasks : Spec (makeMasks (fddBits (a.lastObjNode + 1)) maxSz (validOff a.constraints) v)
      (MasksDone (fddBits (a.lastObjNode + 1)) maxSz v (ascending (validOff a.constraints)).reverse)
      fun e => e = .outOfRange "off_nodes" ∧ ¬ ∀ off ∈ validOff a.constraints,
        ∃ i ≤ a.lastObjNode, off < (a.nodes i).objSz := by
    refine (makeMasks_spec ho.length).stops fun e ⟨he, off, hv, hle⟩ => ⟨he, fun hfit => ?_⟩
    -- the offset outside the vector is one that no object is big enough for
    obtain ⟨i, hi, hlt⟩ := hfit off hv
    have := (ho.max off (hoff off hv)).mpr ⟨i, by omega, by omega⟩
    dsimp only at this
    omega
  refine (hmasks.stops fun _ => .inr).bind fun t ht => ?_
  have hmem : ∀ off ∈ validOff a.constraints, off ∈ (ascending (validOff a.constraints)).reverse :=
    fun off h => List.mem_reverse.mpr (mem_ascending.mpr h)
  have hin : ∀ off ∈ validOff a.constraints, off < maxSz := fun off hv => by
    have hin := ht.inside off (hmem off hv)
    rwa [show v.length = maxSz from ho.length] at hin
  have hfit : ∀ off ∈ validOff a.constraints, ∃ i ≤ a.lastObjNode, off < (a.nodes i).objSz :=
    fun off hv => by
      obtain ⟨i, hi, hlt⟩ := (ho.max off (hoff off hv)).mp (hin off hv)
      exact ⟨i, by omega, hlt⟩
  have hloop : Spec ((List.range (a.lastObjNode + 1)).foldlM (recordFunction M)
      { a with geps := t.geps, offMask := t.offMask }) (fun b =>
        FunctionSets M a b (List.range (a.lastObjNode + 1)).length ∧ b = { a with
          geps := t.geps, offMask := t.offMask, extFuncNodes := b.extFuncNodes
          extFuncNodeSet := b.extFuncNodeSet, funcNodeSet := b.funcNodeSet })
      fun e => e = .assertion "N->obj_sz == 1" := by
    refine spec_foldlM (fun done b => FunctionSets M a b done.length ∧ b = { a with
        geps := t.geps, offMask := t.offMask, extFuncNodes := b.extFuncNodes
        extFuncNodeSet := b.extFuncNodeSet, funcNodeSet := b.funcNodeSet })
      ⟨⟨by simp, by simp, by simp, by simp⟩, rfl⟩ fun done i rest b hl ⟨hb, hframe⟩ => ?_
    rw [List.length_append, List.length_singleton, range_split hl]
    refine (recordFunction_spec (by rw [hframe]) hb).imp fun c ⟨hc, hc'⟩ => ⟨hc, ?_⟩
    rw [hc', hframe]
  rw [List.length_range] at hloop
  refine (hloop.imp fun b ⟨hb, hframe⟩ => ?_).stops fun e he => .inl ⟨he, hfit⟩
  have hgeps : b.geps = t.geps := by rw [hframe]
  have hmask : b.offMask = t.offMask := by rw [hframe]
  refine ⟨by rw [hgeps, hmask]; exact hframe, fun off hv => ?_, fun off hv i => ?_, fun off hv => ?_,
    hb, Anders.offsetsFit_iff.mpr hfit⟩
  · rw [hgeps, hmask, ht.length.1, ht.length.2]
    exact ⟨hin off hv, hin off hv⟩
  · rw [hmask]
    refine (ht.mask off (hmem off hv) i).trans ⟨fun ⟨o, h1, h2, h3⟩ => ?_, fun ⟨hi, hlt⟩ => ?_⟩
    · have ho1 : o ∈ validOff a.constraints := mem_ascending.mp (List.mem_reverse.mp h1)
      obtain ⟨hi, hsz, hlast⟩ := (ho.mem o i (hoff o ho1)).mp h3
      have hle := lastValid_le (validOff a.constraints) ((a.nodes i).objSz - 1)
      exact ⟨by omega, by omega⟩
    · -- the node was recorded under the largest offset it allows
      have h0 := hoff off hv
      have hle : off ≤ (a.nodes i).objSz - 1 := by omega
      have hge := le_lastValid hv h0 hle
      have hne : lastValid (validOff a.constraints) ((a.nodes i).objSz - 1) ≠ 0 := by omega
      have hmemv := lastValid_mem hne
      exact ⟨_, hmem _ hmemv, hge, (ho.mem _ i hne).mpr ⟨by omega, by omega, rfl⟩⟩
  · rw [hgeps, hmask]
    exact ht.geps off (hmem off hv)

end PtrAnalysis
