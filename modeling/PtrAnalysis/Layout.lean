import PtrAnalysis.Lib.Assoc
import PtrAnalysis.Lib.Nested
import PtrAnalysis.ObjConsId

/-!
# The layout of the nodes

The nodes of an object stand together, and the `objSz` of each says how many of them
belong to the largest part that begins there. The handlers push nodes and count them by
hand; `Laid` is what each of them keeps of the node list and of everything that refers to
an object node.
-/

namespace PtrAnalysis

open Run Act

namespace Gen

/-! ## Struct sizes -/

/-- The sizes of the fields of a struct: each field counts those of the largest struct that
begins there, and these structs are nested. -/
def Flat (sizes : List Nat) : Prop :=
  sizes ≠ [] ∧ (∀ k ∈ sizes, 0 < k) ∧ Nested id (fun _ _ => True) sizes

theorem flat_one : Flat [1] := by
  refine ⟨by simp, by simp, Nested.small (by simp)⟩

/-- The first field stands for the whole struct. -/
theorem Flat.first {sizes : List Nat} (h0 : ∀ k ∈ sizes, 0 < k)
    (h : Nested id (fun _ _ => True) sizes) (hne : 0 < sizes.length) :
    Flat (sizes.set 0 sizes.length) := by
  cases sizes with
  | nil => simp at hne
  | cons a l =>
      rw [List.set_cons_zero]
      have hl : ∀ k ∈ l, 0 < k := fun k hk => h0 k (List.mem_cons_of_mem _ hk)
      refine ⟨by simp, ?_, Nested.whole h.2 (fun b hb => ⟨hl b hb, trivial⟩) rfl⟩
      intro k hk
      rcases List.mem_cons.mp hk with rfl | hk
      · exact hne
      · exact hl k hk

/-- Every analysed struct has such sizes. -/
def FlatInfo (info : Nat → Option (List Nat × List Nat)) : Prop :=
  ∀ s t, info s = some t → Flat t.1

/-- Only what is known of structs has changed, and that is in order. -/
def StructsOnly (g g' : Gen) : Prop :=
  (FlatInfo g.structInfo → FlatInfo g'.structInfo) ∧
  (∀ s, (g.structInfo s).isSome → (g'.structInfo s).isSome) ∧
    ∃ info T k, g' = { g with structInfo := info, maxStruct := T, maxStructSz := k }

instance : IsPreorder Gen StructsOnly where
  refl g := ⟨id, fun _ => id, g.structInfo, g.maxStruct, g.maxStructSz, rfl⟩
  trans g g' g'' h h' := by
    obtain ⟨hf, hs, info, T, k, rfl⟩ := h
    obtain ⟨hf', hs', info', T', k', rfl⟩ := h'
    exact ⟨hf' ∘ hf, fun s => hs' s ∘ hs s, info', T', k', rfl⟩

theorem StructsOnly.enter {g g' : Gen} {s nf : Nat} {sizes off : List Nat} (T : Ty) (k : Nat)
    (hg : StructsOnly g g') (h : FlatInfo g.structInfo → Flat (sizes.set 0 nf)) :
    StructsOnly g { g' with
      structInfo := Function.update g'.structInfo s (some (sizes.set 0 nf, off))
      maxStruct := T, maxStructSz := k } := by
  obtain ⟨hflat, hsome, info, T', k', rfl⟩ := hg
  refine ⟨fun hg => ?_, fun s' hs' => ?_, _, T, k, rfl⟩
  · have hinfo : ∀ s' t, info s' = some t → Flat t.1 := hflat hg
    exact update_entries hinfo (h hg)
  · by_cases hs : s' = s
    · subst hs
      simp
    · simpa [Function.update_of_ne hs] using hsome s' hs'

section

variable (P : Ir)

/-- The sizes that the loop over the elements of a struct collects. -/
def SizesSoFar (g : Gen) (t : List Nat × List Nat × Nat) (g' : Gen) : Prop :=
  StructsOnly g g' ∧ t.2.2 = t.1.length ∧
    (FlatInfo g.structInfo → (∀ k ∈ t.1, 0 < k) ∧ Nested id (fun _ _ => True) t.1)

theorem SizesSoFar.append {g g1 g2 : Gen} {sizes off off' sz : List Nat} {nf : Nat}
    (h : SizesSoFar g (sizes, off, nf) g1) (hg : StructsOnly g1 g2)
    (hsz : FlatInfo g.structInfo → Flat sz) :
    SizesSoFar g (sizes ++ sz, off', nf + sz.length) g2 := by
  obtain ⟨hg1, hnf, hflat⟩ := h
  refine ⟨IsTrans.trans _ _ _ hg1 hg, ?_, fun hinfo => ?_⟩
  · simp only [List.length_append]
    exact congrArg (· + sz.length) hnf
  · obtain ⟨hpos, hnest⟩ := hflat hinfo
    obtain ⟨-, hpos', hnest'⟩ := hsz hinfo
    refine ⟨fun k hk => ?_, hnest.append hnest'⟩
    rcases List.mem_append.mp hk with hk | hk
    · exact hpos k hk
    · exact hpos' k hk

/-- The two functions on structs, by induction on the depth of the recursion. -/
theorem structs_spec (fuel : Nat) :
    (∀ s g, Wp (analyzeStruct P fuel s)
      (fun _ g' => StructsOnly g g' ∧ (g'.structInfo s).isSome) g) ∧
    ∀ s g, Wp (getStructSz P fuel s)
      (fun sizes g' => StructsOnly g g' ∧ (FlatInfo g.structInfo → Flat sizes)) g := by
  induction fuel with
  | zero => exact ⟨fun s g => trivial, fun s g => trivial⟩
  | succ fuel ih =>
      obtain ⟨ihA, ihS⟩ := ih
      constructor
      · intro s g
        rw [analyzeStruct]
        simp only [wp_bind, wp_get, wp_ite, wp_pure]
        refine ⟨fun h => ⟨refl g, h⟩, fun hnone => ?_⟩
        have hloop : SizesSoFar g ([], [], 0) g := ⟨refl g, rfl, fun _ => by simp [Nested]⟩
        refine (wp_foldlM (SizesSoFar g) hloop ?_).imp ?_
        · rintro ET - ⟨sizes, off, nf⟩ g1 h1
          dsimp only
          split
          · rename_i s' hs'
            rw [wp_bind]
            apply (ihS s' g1).imp
            rintro szE g2 ⟨hg2, hszE⟩
            exact h1.append hg2 fun hinfo => hszE (h1.1.1 hinfo)
          · exact h1.append (refl g1) fun _ => flat_one
        · rintro ⟨sizes, off, nf⟩ g1 ⟨hg1, hnf, hsizes⟩
          obtain rfl : nf = sizes.length := hnf
          simp only [wp_lift, inRange_ok, wp_modify]
          intro _ hne
          have hflat : FlatInfo g.structInfo → Flat (sizes.set 0 sizes.length) := fun hinfo =>
            Flat.first (hsizes hinfo).1 (hsizes hinfo).2 hne
          exact ⟨fun _ => ⟨hg1.enter _ _ hflat, by simp⟩, fun _ => ⟨hg1.enter _ _ hflat, by simp⟩⟩
      · intro s g
        rw [getStructSz]
        simp only [wp_bind, wp_get, wp_ite, wp_pure]
        have hread : ∀ g' : Gen, FlatInfo g'.structInfo → (g'.structInfo s).isSome →
            Flat ((g'.structInfo s).getD ([], [])).1 := by
          intro g' hg' hs
          obtain ⟨t, ht⟩ := Option.isSome_iff_exists.mp hs
          rw [ht]
          exact hg' s t ht
        constructor
        · intro _
          apply (ihA s g).imp
          rintro _ g' ⟨hg', hs⟩
          exact ⟨hg', fun hinfo => hread g' (hg'.1 hinfo) hs⟩
        · intro hs
          exact ⟨refl g, fun hinfo =>
            hread g hinfo (Option.isSome_iff_ne_none.mpr (by simpa using hs))⟩

/-- Only what is known of structs may change. -/
theorem analyzeStruct_only (fuel s : Nat) : Runs StructsOnly (analyzeStruct P fuel s) := fun g =>
  ((structs_spec P fuel).1 s g).imp fun _ _ h => h.1

theorem getStructSz_only (fuel s : Nat) : Runs StructsOnly (getStructSz P fuel s) := fun g =>
  ((structs_spec P fuel).2 s g).imp fun _ _ h => h.1

end

/-! ## The layout of the nodes -/

/-- An object node. -/
def IsObj (nodes : List GenNode) (n : Nat) : Prop := ∃ N, nodes[n]? = some N ∧ 0 < N.objSz

theorem IsObj.append {nodes : List GenNode} {n : Nat} (h : IsObj nodes n) (l : List GenNode) :
    IsObj (nodes ++ l) n := by
  obtain ⟨N, hN, hpos⟩ := h
  refine ⟨N, ?_, hpos⟩
  rwa [List.getElem?_append_left (List.getElem?_eq_some_iff.mp hN).1]

/-- What `specialNodes` makes. -/
def special : List GenNode := [{}, { objSz := 1 }, {}]

/-- Two nodes of one object: of the same value, or an address-taken function and one of its
arguments. -/
def SameObject (P : Ir) (fuel : Nat) (N M : GenNode) : Prop :=
  (∃ v, N.val = some v ∧ M.val = some v) ∨
    ∃ f i, P.escapes fuel (.func f) = .ok true ∧
      N.val = some (.func f) ∧ M.val = some (.arg f i)

/-- The node list behind the special nodes is made of blocks, and what refers to an object
refers to an object node. -/
structure Laid (P : Ir) (fuel : Nat) (nodes : List GenNode) (constraints : List Constraint)
    (objNode : Val → Option Nat) (statRetNode : String → Option Nat)
    (structInfo : Nat → Option (List Nat × List Nat)) : Prop where
  blocks : ∃ l, nodes = special ++ l ∧ Nested GenNode.objSz (SameObject P fuel) l
  addrOf : ∀ C ∈ constraints, C.type = .addrOf → IsObj nodes C.src
  objs : ∀ v n, objNode v = some n → IsObj nodes n
  stats : ∀ name n, statRetNode name = some n → IsObj nodes n
  structs : FlatInfo structInfo

section

variable {P : Ir} {fuel : Nat} {nodes : List GenNode} {constraints : List Constraint}
  {objNode : Val → Option Nat} {statRetNode : String → Option Nat}
  {structInfo : Nat → Option (List Nat × List Nat)}

namespace Laid

theorem i2p_isObj (h : Laid P fuel nodes constraints objNode statRetNode structInfo) :
    IsObj nodes i2p := by
  obtain ⟨l, rfl, -⟩ := h.blocks
  exact ⟨{ objSz := 1 }, rfl, Nat.one_pos⟩

/-- Nodes that are blocks among themselves. -/
theorem push (h : Laid P fuel nodes constraints objNode statRetNode structInfo)
    {l : List GenNode} (hl : Nested GenNode.objSz (SameObject P fuel) l) :
    Laid P fuel (nodes ++ l) constraints objNode statRetNode structInfo where
  blocks := by
    obtain ⟨k, rfl, hk⟩ := h.blocks
    exact ⟨k ++ l, by rw [List.append_assoc], hk.append hl⟩
  addrOf := fun C hC ht => (h.addrOf C hC ht).append l
  objs := fun v n hv => (h.objs v n hv).append l
  stats := fun name n hn => (h.stats name n hn).append l
  structs := h.structs

/-- A value node. -/
theorem pushValue (h : Laid P fuel nodes constraints objNode statRetNode structInfo)
    (v : Option Val) :
    Laid P fuel (nodes ++ [{ val := v }]) constraints objNode statRetNode structInfo :=
  h.push (.small (by simp))

theorem addCons (h : Laid P fuel nodes constraints objNode statRetNode structInfo)
    {cs : List Constraint} {t : ConsType} {dest src off : Nat} {b : Bool}
    (hsrc : t = .addrOf → IsObj nodes src)
    (hadd : PtrAnalysis.addCons constraints t dest src off = .ok (cs, b)) :
    Laid P fuel nodes cs objNode statRetNode structInfo where
  blocks := h.blocks
  addrOf := by
    intro C hC ht
    rcases addCons_mem hadd C hC with hC | ⟨-, rfl, ht'⟩
    · exact h.addrOf C hC ht
    · exact hsrc (ht' ht)
  objs := h.objs
  stats := h.stats
  structs := h.structs

end Laid

end

/-! ## What the generator keeps -/

/-- The nodes are counted and laid out. -/
def Inv (P : Ir) (k : Nat) (g : Gen) : Prop :=
  g.nextNode = g.nodes.length ∧
    Laid P k g.nodes g.constraints g.objNode g.statRetNode g.structInfo

/-- That is kept, and object nodes stay object nodes. -/
def Grown (P : Ir) (k : Nat) (g g' : Gen) : Prop :=
  Inv P k g → Inv P k g' ∧ ∀ n, IsObj g.nodes n → IsObj g'.nodes n

instance (P : Ir) (k : Nat) : IsPreorder Gen (Grown P k) where
  refl _ h := ⟨h, fun _ => id⟩
  trans g g' g'' h h' hg := by
    obtain ⟨hg', hobj⟩ := h hg
    obtain ⟨hg'', hobj'⟩ := h' hg'
    exact ⟨hg'', fun n hn => hobj' n (hobj n hn)⟩

/-- Nothing has changed that the layout depends on. -/
def SameLayout (g g' : Gen) : Prop :=
  g'.nextNode = g.nextNode ∧ g'.nodes = g.nodes ∧ g'.constraints = g.constraints ∧
    g'.objNode = g.objNode ∧ g'.statRetNode = g.statRetNode ∧ g'.structInfo = g.structInfo

instance : IsPreorder Gen SameLayout where
  refl _ := ⟨rfl, rfl, rfl, rfl, rfl, rfl⟩
  trans _ _ _ := by
    rintro ⟨h1, h2, h3, h4, h5, h6⟩ ⟨h1', h2', h3', h4', h5', h6'⟩
    exact ⟨h1'.trans h1, h2'.trans h2, h3'.trans h3, h4'.trans h4, h5'.trans h5, h6'.trans h6⟩

section

variable {P : Ir} {k fuel : Nat}

theorem Grown.same {g g' : Gen} (h : SameLayout g g') : Grown P k g g' := by
  obtain ⟨hnext, hnodes, hcons, hobj, hstat, hinfo⟩ := h
  intro hinv
  unfold Inv
  rw [hnext, hnodes, hcons, hobj, hstat, hinfo]
  exact ⟨hinv, fun n hn => hn⟩

theorem wp_cons {t : ConsType} {dest src off : Nat} {Q : Unit → Gen → Prop} {g : Gen} :
    Wp (cons t dest src off) Q g ↔
      ∀ cs b, addCons g.constraints t dest src off = .ok (cs, b) →
        Q () { g with constraints := cs } := by
  simp only [cons, wp_bind, wp_get, wp_lift, wp_modify, Prod.forall]

theorem cons_inv {t : ConsType} {dest src off : Nat} {g : Gen} (h : Inv P k g)
    (hsrc : t = .addrOf → IsObj g.nodes src) :
    Wp (cons t dest src off) (fun _ g' => Inv P k g' ∧ g'.nodes = g.nodes) g :=
  wp_cons.mpr fun _ _ hadd => ⟨⟨h.1, h.2.addCons hsrc hadd⟩, rfl⟩

theorem cons_grown {t : ConsType} {dest src off : Nat} (ht : t ≠ .addrOf) :
    Runs (Grown P k) (cons t dest src off) := fun _ =>
  wp_cons.mpr fun _ _ hadd h => ⟨⟨h.1, h.2.addCons (fun h => absurd h ht) hadd⟩, fun _ => id⟩

theorem consI2p_grown {dest : Nat} : Runs (Grown P k) (cons .addrOf dest i2p) := fun _ =>
  wp_cons.mpr fun _ _ hadd h => ⟨⟨h.1, h.2.addCons (fun _ => h.2.i2p_isObj) hadd⟩, fun _ => id⟩

theorem consUnless0_grown {t : ConsType} {dest src : Nat} (ht : t ≠ .addrOf) :
    Runs (Grown P k) (consUnless0 t dest src) :=
  .ite (.pure _) (cons_grown ht)

theorem findValNode_grown (v : Val) : Runs (Grown P k) (findValNode v) :=
  .bind .get fun _ => .lift _

theorem getValNode_grown (v : Val) : Runs (Grown P k) (getValNode v) :=
  .bind .get fun _ => .lift _

theorem setValNode_grown (v : Val) (n : Nat) : Runs (Grown P k) (setValNode v n) :=
  .modify fun _ => .same ⟨rfl, rfl, rfl, rfl, rfl, rfl⟩

/-- The object of a value. -/
theorem getObjNode_inv (v : Val) {g : Gen} (h : Inv P k g) :
    Wp (getObjNode v) (fun on g' => g' = g ∧ IsObj g.nodes on) g := by
  rw [getObjNode, wp_bind, wp_get, wp_lift]
  intro on hon
  refine ⟨rfl, ?_⟩
  cases hv : g.objNode v with
  | none => simp [hv, needEntry] at hon
  | some n =>
      rw [hv, needEntry, entry, require_bind_ok] at hon
      rw [← Except.ok.inj hon.2]
      exact h.2.objs v n hv

theorem getObjNode_grown (v : Val) : Runs (Grown P k) (getObjNode v) :=
  .bind .get fun _ => .lift _

theorem getRetNode_grown (f : Nat) : Runs (Grown P k) (getRetNode P f) :=
  .bind .get fun _ => .ite (.pure _) (.lift _)

theorem getVarargNode_grown (f : Nat) : Runs (Grown P k) (getVarargNode P f) :=
  .bind .get fun _ => .ite (.pure _) (.lift _)

/-! ### Structs -/

theorem StructsOnly.grown {g g' : Gen} (h : StructsOnly g g') : Grown P k g g' := by
  obtain ⟨hflat, -, info, T, m, rfl⟩ := h
  rintro ⟨hnext, hlaid⟩
  exact ⟨⟨hnext, hlaid.blocks, hlaid.addrOf, hlaid.objs, hlaid.stats, hflat hlaid.structs⟩,
    fun _ => id⟩

theorem analyzeStruct_grown (s : Nat) : Runs (Grown P k) (analyzeStruct P fuel s) := fun g =>
  (analyzeStruct_only P fuel s g).imp fun _ _ h => h.grown

theorem getStructSz_grown (s : Nat) : Runs (Grown P k) (getStructSz P fuel s) := fun g =>
  (getStructSz_only P fuel s g).imp fun _ _ h => h.grown

theorem getStructOff_grown (s : Nat) : Runs (Grown P k) (getStructOff P fuel s) :=
  .bind .get fun _ => .ite (.bind (analyzeStruct_grown s) fun _ => .bind .get fun _ => .pure _)
    (.bind .get fun _ => .pure _)

theorem sizesOf_grown (T : Ty) : Runs (Grown P k) (sizesOf P fuel T) := by
  unfold sizesOf
  split
  · exact getStructSz_grown _
  · exact .pure _

theorem gepOff_grown (T : Ty) (idx : List Val) (off : Nat) :
    Runs (Grown P k) (gepOff P fuel T idx off) := by
  induction idx generalizing T off with
  | nil =>
      rw [gepOff]
      exact .pure _
  | cons v rest ih =>
      unfold gepOff
      split
      · exact .pure _
      · rename_i heq
        obtain ⟨rfl, rfl⟩ := List.cons.inj heq
        split
        · exact .bind (getStructOff_grown _) fun _ => .bind (.lift _) fun _ => ih _ _
        · exact .throw _
      · rename_i heq
        obtain ⟨rfl, rfl⟩ := List.cons.inj heq
        exact ih _ _

theorem computeGepOff_grown (ops : List Val) : Runs (Grown P k) (computeGepOff P fuel ops) := by
  unfold computeGepOff
  split
  · exact .pure _
  · exact .pure _
  · exact gepOff_grown _ _ _

/-! ### Values -/

/-- A counted value node. -/
theorem Grown.valueNode {g g' : Gen} (v : Option Val) (hnext : g'.nextNode = g.nextNode + 1)
    (hnodes : g'.nodes = g.nodes ++ [{ val := v }]) (hcons : g'.constraints = g.constraints)
    (hobj : g'.objNode = g.objNode) (hstat : g'.statRetNode = g.statRetNode)
    (hinfo : g'.structInfo = g.structInfo) : Grown P k g g' := by
  rintro ⟨hcount, hlaid⟩
  unfold Inv
  rw [hnext, hnodes, hcons, hobj, hstat, hinfo]
  exact ⟨⟨by simp [hcount], hlaid.pushValue v⟩, fun n hn => hn.append _⟩

/-- Code that makes a value node first. -/
theorem newNode_grown {α : Type} (v : Option Val) {f : Nat → GenM α}
    (hf : ∀ n, Runs (Grown P k) (f n)) :
    Runs (Grown P k) (takeNode >>= fun n => pushNode { val := v } >>= fun _ => f n) := by
  intro g
  simp only [takeNode, bump, pushNode, wp_bind, wp_get, wp_modify, wp_pure]
  apply (hf _ _).imp
  intro _ g' h
  refine IsTrans.trans _ _ _ ?_ h
  exact .valueNode v rfl rfl rfl rfl rfl rfl

theorem i2pOperand_grown (v : Val) : Runs (Grown P k) (i2pOperand P v) := by
  unfold i2pOperand
  split
  · dsimp only
    split
    · exact .bind (getValNode_grown _) fun _ => .pure _
    · exact .bind (.lift _) fun _ => .bind (getValNode_grown _) fun _ => .pure _
    · exact .throw _
  · refine .bind .get fun _ => .bind (.lift _) fun _ => newNode_grown _ fun n => ?_
    refine .bind (setValNode_grown _ _) fun _ => ?_
    split
    · exact .pure _
    · exact .bind (.lift _) fun _ => .pure _
    · exact .throw _
  · exact .throw _

theorem getValNodeCptr_grown (v : Val) : Runs (Grown P k) (getValNodeCptr P fuel v) :=
  (cptr_runs i2pOperand_grown (fun _ _ => cons_grown (by decide)) (fun _ => consI2p_grown) fuel).1 v

theorem idI2pInsn_grown (v : Val) : Runs (Grown P k) (idI2pInsn P fuel v) :=
  (cptr_runs i2pOperand_grown (fun _ _ => cons_grown (by decide)) (fun _ => consI2p_grown) fuel).2 v

/-! ### Objects -/

theorem Flat.nested {sizes : List Nat} (h : Flat sizes) (v : Val) (weak : Bool) :
    Nested GenNode.objSz (SameObject P k) (sizes.map fun sz => ⟨some v, sz, weak⟩) :=
  h.2.2.map (fun _ _ => rfl) fun _ _ _ _ _ => .inl ⟨v, rfl, rfl⟩

theorem Flat.isObj {sizes : List Nat} (h : Flat sizes) (v : Val) (weak : Bool)
    (nodes : List GenNode) :
    IsObj (nodes ++ sizes.map fun sz => ⟨some v, sz, weak⟩) nodes.length := by
  cases sizes with
  | nil => exact absurd rfl h.1
  | cons sz l => exact ⟨⟨some v, sz, weak⟩, by simp, h.2.1 sz (List.mem_cons_self ..)⟩

/-- The invariant while an object is made: the next node is already entered as its first. -/
def Announced (P : Ir) (k : Nat) (g : Gen) : Prop :=
  g.nextNode = g.nodes.length ∧
    Laid P k g.nodes g.constraints (fun _ => none) (fun _ => none) g.structInfo ∧
    (∀ v n, g.objNode v = some n → IsObj g.nodes n ∨ n = g.nextNode) ∧
    ∀ name n, g.statRetNode name = some n → IsObj g.nodes n ∨ n = g.nextNode

theorem Inv.announced {g : Gen} (h : Inv P k g) : Announced P k g := by
  obtain ⟨hcount, hlaid⟩ := h
  refine ⟨hcount, ⟨hlaid.blocks, hlaid.addrOf, fun _ _ h => (nomatch h), fun _ _ h => (nomatch h),
    hlaid.structs⟩, ?_, ?_⟩
  · exact fun v n hn => .inl (hlaid.objs v n hn)
  · exact fun name n hn => .inl (hlaid.stats name n hn)

namespace Announced

theorem enterObj {g : Gen} (h : Announced P k g) (v : Val) :
    Announced P k { g with objNode := Function.update g.objNode v (some g.nextNode) } :=
  ⟨h.1, h.2.1, update_entries (p := fun n => IsObj g.nodes n ∨ n = g.nextNode) h.2.2.1 (.inr rfl),
    h.2.2.2⟩

theorem enterStat {g : Gen} (h : Announced P k g) (name : String) :
    Announced P k { g with
      statRetNode := Function.update g.statRetNode name (some g.nextNode) } :=
  ⟨h.1, h.2.1, h.2.2.1,
    update_entries (p := fun n => IsObj g.nodes n ∨ n = g.nextNode) h.2.2.2 (.inr rfl)⟩

theorem structs {g g' : Gen} (h : Announced P k g) (hg : StructsOnly g g') :
    Announced P k g' := by
  obtain ⟨hflat, -, info, T, m, rfl⟩ := hg
  obtain ⟨hcount, hlaid, hobjs, hstats⟩ := h
  exact ⟨hcount, ⟨hlaid.blocks, hlaid.addrOf, hlaid.objs, hlaid.stats, hflat hlaid.structs⟩,
    hobjs, hstats⟩

/-- The nodes of the object. -/
theorem object {g : Gen} (h : Announced P k g) (v : Val) {sizes : List Nat}
    (hflat : Flat sizes) (weak : Bool) :
    Inv P k { g with
      nodes := g.nodes ++ sizes.map fun sz => ⟨some v, sz, weak⟩
      nextNode := g.nextNode + sizes.length } ∧
    IsObj (g.nodes ++ sizes.map fun sz => ⟨some v, sz, weak⟩) g.nextNode := by
  obtain ⟨hcount, hlaid, hobjs, hstats⟩ := h
  have hobj := hflat.isObj v weak g.nodes
  rw [← hcount] at hobj
  have hpush := hlaid.push (hflat.nested v weak)
  refine ⟨⟨by simp [hcount], hpush.blocks, hpush.addrOf, ?_, ?_, hpush.structs⟩, hobj⟩
  · intro w n hn
    rcases hobjs w n hn with hn | rfl
    · exact hn.append _
    · exact hobj
  · intro name n hn
    rcases hstats name n hn with hn | rfl
    · exact hn.append _
    · exact hobj

end Announced

/-- A pointer object and its pointee in one block. -/
theorem Announced.pair {g : Gen} (h : Announced P k g) (v : Val) (weak : Bool) :
    Inv P k { g with
      nodes := g.nodes ++ [2, 1].map fun sz => ⟨some v, sz, weak⟩
      nextNode := g.nextNode + 2 } ∧
    IsObj (g.nodes ++ [2, 1].map fun sz => ⟨some v, sz, weak⟩) g.nextNode ∧
    IsObj (g.nodes ++ [2, 1].map fun sz => ⟨some v, sz, weak⟩) (g.nextNode + 1) := by
  have hflat : Flat [2, 1] :=
    Flat.first (by simp : ∀ m ∈ [1, 1], 0 < m) (.small (by simp)) (by simp)
  obtain ⟨hinv, hobj⟩ := h.object v hflat weak
  refine ⟨hinv, hobj, ⟨⟨some v, 1, weak⟩, ?_, Nat.one_pos⟩⟩
  rw [h.1]
  simp

theorem pushObject_inv {g : Gen} (h : Announced P k g) (v : Val) (T : Ty) (weak : Bool) :
    Wp (pushObject P fuel v T weak)
      (fun _ g' => Inv P k g' ∧ IsObj g'.nodes g.nextNode ∧ ∀ n, IsObj g.nodes n → IsObj g'.nodes n)
      g := by
  unfold pushObject
  split
  · rw [wp_bind]
    apply ((structs_spec P fuel).2 _ g).imp
    rintro sizes g' ⟨hg', hflat⟩
    obtain ⟨hinv, hobj⟩ := (h.structs hg').object v (hflat h.2.1.structs) weak
    obtain ⟨-, -, info, T, m, rfl⟩ := hg'
    exact ⟨hinv, hobj, fun n hn => hn.append _⟩
  · obtain ⟨hinv, hobj⟩ := h.object v flat_one weak
    exact ⟨hinv, hobj, fun n hn => hn.append _⟩

/-- Code that starts with the address of the object of a value. -/
theorem consObj_grown {α : Type} (v : Val) (dest : Nat) {x : Unit → GenM α}
    (hx : Runs (Grown P k) (x ())) :
    Runs (Grown P k) (getObjNode v >>= fun on => cons .addrOf dest on >>= x) := by
  intro g
  rw [wp_bind, wp_iff]
  intro on g' hrun
  rw [wp_bind, wp_iff]
  intro _ g'' hcons
  apply (hx g'').imp
  intro _ g3 hg3 h
  obtain ⟨rfl, hon⟩ := (getObjNode_inv v h).result hrun
  obtain ⟨h', hnodes⟩ := (cons_inv h fun _ => hon).result hcons
  obtain ⟨h3, hgrow⟩ := hg3 h'
  exact ⟨h3, fun n hn => hgrow n (hnodes ▸ hn)⟩

theorem runs_grown {α : Type} {x : GenM α}
    (h : ∀ g, Inv P k g → Wp x
      (fun _ g' => Inv P k g' ∧ ∀ n, IsObj g.nodes n → IsObj g'.nodes n) g) :
    Runs (Grown P k) x := fun g =>
  wp_iff.mpr fun _ _ hrun hg => (h g hg).result hrun

/-- The last step of a handler: the address of an object, made in a state that grew from `g`. -/
theorem consLast {g g' : Gen} (hinv : Inv P k g') (hgrow : ∀ n, IsObj g.nodes n → IsObj g'.nodes n)
    {src : Nat} (hsrc : IsObj g'.nodes src) (dest : Nat) :
    Wp (cons .addrOf dest src)
      (fun _ g' => Inv P k g' ∧ ∀ n, IsObj g.nodes n → IsObj g'.nodes n) g' := by
  apply (cons_inv hinv fun _ => hsrc).imp
  rintro _ g'' ⟨hinv', hnodes⟩
  exact ⟨hinv', fun n hn => hnodes ▸ hgrow n hn⟩

/-- The last two steps of one that makes a pointer object. -/
theorem consLast2 {g g' : Gen} (hinv : Inv P k g') (hgrow : ∀ n, IsObj g.nodes n → IsObj g'.nodes n)
    {src src' : Nat} (hsrc : IsObj g'.nodes src) (hsrc' : IsObj g'.nodes src') (dest dest' : Nat) :
    Wp (cons .addrOf dest src) (fun _ => Wp (cons .addrOf dest' src')
      (fun _ g' => Inv P k g' ∧ ∀ n, IsObj g.nodes n → IsObj g'.nodes n)) g' := by
  apply (cons_inv hinv fun _ => hsrc).imp
  rintro _ g'' ⟨hinv', hnodes⟩
  exact consLast hinv' (fun n hn => hnodes ▸ hgrow n hn) (hnodes ▸ hsrc') dest'

/-- The same behind code that makes no object of its own. -/
theorem Runs.consLast {x : GenM Unit} (hx : Runs (Grown P k) x) {g g' : Gen} (hinv : Inv P k g')
    (hgrow : ∀ n, IsObj g.nodes n → IsObj g'.nodes n) {src : Nat} (hsrc : IsObj g'.nodes src)
    (dest : Nat) :
    Wp x (fun _ => Wp (cons .addrOf dest src)
      (fun _ g' => Inv P k g' ∧ ∀ n, IsObj g.nodes n → IsObj g'.nodes n)) g' := by
  apply (hx g').imp
  intro _ g'' hg''
  obtain ⟨hinv', hgrow'⟩ := hg'' hinv
  exact Gen.consLast hinv' (fun n hn => hgrow' n (hgrow n hn)) (hgrow' _ hsrc) dest

end

end Gen

end PtrAnalysis
