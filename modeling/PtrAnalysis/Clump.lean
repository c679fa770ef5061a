import PtrAnalysis.NodeMaps
import PtrAnalysis.Semantics
import Mathlib.Data.Set.Card

/-!
# Moving the object nodes to the front

`clumpAddrTaken` renumbers the nodes by a stable partition: object nodes first, then value
nodes. A renaming of the nodes of a constraint system keeps its least solution if it
commutes with the steps into an object (`Renaming.flow`). The partition does, because a block
holds only object nodes and nothing that stays behind lies between them.
-/

namespace PtrAnalysis

open Act

namespace System

/-- `σ` renames the nodes below `sz` of `S` to those of `T`, with offsets kept. -/
structure Renaming (S T : System) (sz : Nat) (σ : Nat → Nat) : Prop where
  inside : S.Inside sz
  inj : ∀ m < sz, ∀ n < sz, σ m = σ n → m = n
  cons : ∀ C, T.cons C ↔ ∃ C0, S.cons C0 ∧ Gen.moveCons σ C0 = C
  size : ∀ n < sz, T.size (σ n) = S.size n
  shift : ∀ n < sz, ∀ k < S.size n, σ (n + k) = σ n + k
  func : ∀ n < sz, (T.func (σ n) ↔ S.func n)
  tag : ∀ C, S.cons C → (T.tag (Gen.moveCons σ C) ↔ S.tag C)
  i2p : ∀ n < sz, (σ n = i2p ↔ n = i2p)

namespace Renaming

variable {S T : System} {sz : Nat} {σ : Nat → Nat}

theorem acts (h : S.Renaming T sz σ) {C : Constraint} (hC : S.cons C) {o : Nat} (ho : o < sz) :
    T.Acts (Gen.moveCons σ C) (σ o) ↔ S.Acts C o := by
  have hoff : (Gen.moveCons σ C).off = C.off := rfl
  unfold Acts
  rw [hoff, Ne, Ne, h.i2p o ho, h.size o ho, h.func o ho, h.tag C hC]

/-- A step into an accessed object leads to a node and is renamed with it. -/
theorem step (h : S.Renaming T sz σ) {o k : Nat} (ho : o < sz) (hk : k = 0 ∨ k < S.size o) :
    o + k < sz ∧ σ (o + k) = σ o + k := by
  refine ⟨h.inside.step ho hk, ?_⟩
  rcases hk with rfl | hk
  · rfl
  · exact h.shift o ho k hk

theorem acts_step (h : S.Renaming T sz σ) {C : Constraint} {o : Nat} (ho : o < sz)
    (ha : S.Acts C o) : o + C.off < sz ∧ σ (o + C.off) = σ o + C.off :=
  h.step ho (ha.2.imp_right And.left)

/-- What flows in `S` flows, renamed, in `T`. -/
theorem flow_forward (h : S.Renaming T sz σ) {n o : Nat} (hf : S.Flow id n o) :
    n < sz ∧ o < sz ∧ T.Flow id (σ n) (σ o) := by
  have hcons {C : Constraint} (hC : S.cons C) : T.cons (Gen.moveCons σ C) :=
    (h.cons _).mpr ⟨C, hC, rfl⟩
  refine Flow.least (P := fun n o => n < sz ∧ o < sz ∧ T.Flow id (σ n) (σ o))
    ⟨?_, ?_, ?_, ?_, ?_, ?_⟩ hf
  · intro C hC ht
    exact ⟨(h.inside.node hC).1, (h.inside.node hC).2, .addr (hcons hC) ht⟩
  · intro C o hC ht ho
    exact ⟨(h.inside.node hC).1, ho.2.1, .copy (hcons hC) ht ho.2.2⟩
  · intro C o x hC ht ho ha hx
    refine ⟨(h.inside.node hC).1, hx.2.1, ?_⟩
    have hxT := hx.2.2
    rw [(h.acts_step ho.2.1 ha).2] at hxT
    exact .load (hcons hC) ht ho.2.2 ((h.acts hC ho.2.1).mpr ha) hxT
  · intro C o x hC ht ho ha hx
    obtain ⟨hlt, hσ⟩ := h.acts_step ho.2.1 ha
    refine ⟨hlt, hx.2.1, ?_⟩
    rw [hσ]
    exact .store (C := Gen.moveCons σ C) (hcons hC) ht ho.2.2 ((h.acts hC ho.2.1).mpr ha) hx.2.2
  · intro C o hC ht ho hs
    obtain ⟨hlt, hσ⟩ := h.step ho.2.1 (.inr hs)
    refine ⟨(h.inside.node hC).1, hlt, ?_⟩
    rw [hσ]
    exact .gep (hcons hC) ht ho.2.2 (by rw [h.size o ho.2.1]; exact hs)
  · intro m n o hmn ho
    rw [show n = m from hmn.symm]
    exact ho

/-- Nothing else flows in `T`. -/
theorem flow_back (h : S.Renaming T sz σ) {n' o' : Nat} (hf : T.Flow id n' o') :
    ∃ n o, n < sz ∧ o < sz ∧ σ n = n' ∧ σ o = o' ∧ S.Flow id n o := by
  -- a node of `T` that is the new name of `m` has no other old name
  have hold {m o' : Nat} (hm : m < sz)
      (hf : ∃ n o, n < sz ∧ o < sz ∧ σ n = σ m ∧ σ o = o' ∧ S.Flow id n o) :
      ∃ o, o < sz ∧ σ o = o' ∧ S.Flow id m o := by
    obtain ⟨n, o, hn, ho, hnm, rfl, hfl⟩ := hf
    rw [h.inj n hn m hm hnm] at hfl
    exact ⟨o, ho, rfl, hfl⟩
  refine Flow.least (P := fun n' o' =>
    ∃ n o, n < sz ∧ o < sz ∧ σ n = n' ∧ σ o = o' ∧ S.Flow id n o) ⟨?_, ?_, ?_, ?_, ?_, ?_⟩ hf
  · intro C' hC' ht
    obtain ⟨C, hC, rfl⟩ := (h.cons C').mp hC'
    exact ⟨C.dest, C.src, (h.inside.node hC).1, (h.inside.node hC).2, rfl, rfl, .addr hC ht⟩
  · intro C' o' hC' ht hsrc
    obtain ⟨C, hC, rfl⟩ := (h.cons C').mp hC'
    obtain ⟨o, ho, rfl, hfl⟩ := hold (h.inside.node hC).2 hsrc
    exact ⟨C.dest, o, (h.inside.node hC).1, ho, rfl, rfl, .copy hC ht hfl⟩
  · intro C' o' x' hC' ht hsrc ha hx'
    obtain ⟨C, hC, rfl⟩ := (h.cons C').mp hC'
    obtain ⟨o, ho, rfl, hfl⟩ := hold (h.inside.node hC).2 hsrc
    have haS := (h.acts hC ho).mp ha
    obtain ⟨hlt, hσ⟩ := h.acts_step ho haS
    rw [show (Gen.moveCons σ C).off = C.off from rfl, ← hσ] at hx'
    obtain ⟨x, hx, rfl, hflx⟩ := hold hlt hx'
    exact ⟨C.dest, x, (h.inside.node hC).1, hx, rfl, rfl, .load hC ht hfl haS hflx⟩
  · intro C' o' x' hC' ht hdest ha hx'
    obtain ⟨C, hC, rfl⟩ := (h.cons C').mp hC'
    obtain ⟨o, ho, rfl, hfl⟩ := hold (h.inside.node hC).1 hdest
    obtain ⟨x, hx, rfl, hflx⟩ := hold (h.inside.node hC).2 hx'
    have haS := (h.acts hC ho).mp ha
    obtain ⟨hlt, hσ⟩ := h.acts_step ho haS
    exact ⟨o + C.off, x, hlt, hx, hσ, rfl, .store hC ht hfl haS hflx⟩
  · intro C' o' hC' ht hsrc hs
    obtain ⟨C, hC, rfl⟩ := (h.cons C').mp hC'
    obtain ⟨o, ho, rfl, hfl⟩ := hold (h.inside.node hC).2 hsrc
    rw [h.size o ho] at hs
    obtain ⟨hlt, hσ⟩ := h.step ho (.inr hs)
    exact ⟨C.dest, o + C.off, (h.inside.node hC).1, hlt, rfl, hσ, .gep hC ht hfl hs⟩
  · intro m' n' o' hmn ho
    rw [show n' = m' from hmn.symm]
    exact ho

/-- A renamed system has the renamed solution. -/
theorem flow (h : S.Renaming T sz σ) {n o : Nat} (hn : n < sz) (ho : o < sz) :
    T.Flow id (σ n) (σ o) ↔ S.Flow id n o := by
  constructor
  · intro hf
    obtain ⟨m, p, hm, hp, hmn, hpo, hfl⟩ := h.flow_back hf
    rwa [h.inj m hm n hn hmn, h.inj p hp o ho hpo] at hfl
  · intro hf
    exact (h.flow_forward hf).2.2

end Renaming

end System

namespace Gen

/-! ## The partition -/

/-- A node table: the special nodes, and behind them blocks that are whole. -/
structure NodeTable (nodes : List GenNode) : Prop where
  special : ∃ l, nodes = special ++ l
  blocks : ∀ (i : Nat) (N : GenNode), nodes[i]? = some N → ∀ k < N.objSz,
    ∃ M, nodes[i + k]? = some M ∧ M.objSz ≠ 0

/-- The generator makes such a table. -/
theorem objConsId_nodeTable {P : Ir} {fuel : Nat} {g : Gen}
    (hrun : objConsId P fuel Gen.empty = .ok ((), g)) : NodeTable g.nodes := by
  have hinv := objConsId_inv.result hrun
  obtain ⟨l, hl, -⟩ := hinv.2.blocks
  refine ⟨⟨l, hl⟩, fun i N hN k hk => ?_⟩
  obtain ⟨M, hM, hpos, -⟩ := hinv.objectBlocks.inside i N hN k hk
  exact ⟨M, hM, Nat.ne_of_gt hpos⟩

section

variable {nodes : List GenNode} {i j : Nat} {N M : GenNode}

theorem clumped_length (nodes : List GenNode) : (clumped nodes).length = nodes.length := by
  have hsplit := (nodes.drop firstVarNode).length_eq_countP_add_countP isObj
  have hlen := congrArg List.length (List.take_append_drop firstVarNode nodes)
  simp only [List.length_append, clumped, ← List.countP_eq_length_filter] at hlen ⊢
  simp only [Bool.not_eq_true, Bool.decide_eq_false] at hsplit
  omega

theorem moveTo_lt (hi : i < nodes.length) : moveTo nodes i < nodes.length := by
  have hnew := clumped_moveTo (List.getElem?_eq_getElem hi)
  rw [← clumped_length nodes]
  exact (List.getElem?_eq_some_iff.mp hnew).1

theorem moveTo_special (hi : i < firstVarNode) : moveTo nodes i = i := if_pos hi

/-- The nodes of one kind before a node. -/
def before (nodes : List GenNode) (p : GenNode → Bool) (i : Nat) : Nat :=
  ((nodes.drop firstVarNode).take (i - firstVarNode)).countP p

theorem before_succ (hi : firstVarNode ≤ i) (hN : nodes[i]? = some N) (p : GenNode → Bool) :
    before nodes p (i + 1) = before nodes p i + if p N then 1 else 0 := by
  have hvar : (nodes.drop firstVarNode)[i - firstVarNode]? = some N := by
    rw [List.getElem?_drop, show firstVarNode + (i - firstVarNode) = i by omega]
    exact hN
  unfold before
  rw [show i + 1 - firstVarNode = i - firstVarNode + 1 by omega, List.take_add_one, hvar,
    List.countP_append]
  simp [List.countP_cons]

theorem before_mono (p : GenNode → Bool) (hij : i ≤ j) : before nodes p i ≤ before nodes p j :=
  List.Sublist.countP_le (List.take_sublist_take_left (by omega))

theorem before_le (p : GenNode → Bool) (i : Nat) :
    before nodes p i ≤ (nodes.drop firstVarNode).countP p :=
  List.Sublist.countP_le (List.take_sublist _ _)

theorem before_lt (hi : firstVarNode ≤ i) (hN : nodes[i]? = some N) {p : GenNode → Bool}
    (hp : p N = true) (hij : i < j) : before nodes p i < before nodes p j := by
  have hstep := before_succ hi hN p
  have hmono : before nodes p (i + 1) ≤ before nodes p j := before_mono p hij
  rw [if_pos hp] at hstep
  omega

theorem moveTo_object (hi : firstVarNode ≤ i) (hN : nodes[i]? = some N) (hobj : isObj N = true) :
    moveTo nodes i = firstVarNode + before nodes isObj i := by
  have hget : nodes.getD i {} = N := by
    rw [List.getD_eq_getElem?_getD, hN]
    rfl
  rw [moveTo, if_neg (by omega), hget]
  exact if_pos hobj

theorem moveTo_value (hi : firstVarNode ≤ i) (hN : nodes[i]? = some N) (hobj : isObj N = false) :
    moveTo nodes i = lastObjNode nodes + 1 + before nodes (fun N => !isObj N) i := by
  have hget : nodes.getD i {} = N := by
    rw [List.getD_eq_getElem?_getD, hN]
    rfl
  rw [moveTo, if_neg (by omega), hget]
  dsimp only
  rw [if_neg (by simpa using hobj), lastObjNode]
  have : 0 < firstVarNode := by decide
  rw [Nat.sub_add_cancel (by omega)]
  rfl

theorem lastObjNode_ge (nodes : List GenNode) : firstVarNode ≤ lastObjNode nodes + 1 := by
  unfold lastObjNode
  omega

/-- Behind the special nodes, object nodes come to lie below all others. -/
theorem moveTo_le_last (hi : firstVarNode ≤ i) (hN : nodes[i]? = some N) :
    moveTo nodes i ≤ lastObjNode nodes ↔ isObj N = true := by
  cases hobj : isObj N with
  | true =>
      rw [moveTo_object hi hN hobj]
      have hlt := before_lt hi hN hobj (Nat.lt_add_one i)
      have hle : before nodes isObj (i + 1) ≤ _ := before_le isObj (i + 1)
      simp only [iff_true]
      unfold lastObjNode
      omega
  | false =>
      rw [moveTo_value hi hN hobj]
      simp only [Bool.false_eq_true, iff_false]
      omega

theorem firstVarNode_le_moveTo (hi : firstVarNode ≤ i) (hN : nodes[i]? = some N) :
    firstVarNode ≤ moveTo nodes i := by
  cases hobj : isObj N with
  | true =>
      rw [moveTo_object hi hN hobj]
      omega
  | false =>
      rw [moveTo_value hi hN hobj]
      have := lastObjNode_ge nodes
      omega

/-- Nodes of one kind keep their order. -/
theorem moveTo_strictMono (hN : nodes[i]? = some N) (hM : nodes[j]? = some M)
    (hkind : isObj N = isObj M) (hij : i < j) : moveTo nodes i < moveTo nodes j := by
  by_cases hj : j < firstVarNode
  · rwa [moveTo_special (hij.trans hj), moveTo_special hj]
  rw [not_lt] at hj
  by_cases hi : i < firstVarNode
  · rw [moveTo_special hi]
    have := firstVarNode_le_moveTo hj hM
    omega
  rw [not_lt] at hi
  cases hobj : isObj N with
  | true =>
      rw [moveTo_object hi hN hobj, moveTo_object hj hM (hkind ▸ hobj)]
      have := before_lt hi hN hobj hij
      omega
  | false =>
      rw [moveTo_value hi hN hobj, moveTo_value hj hM (hkind ▸ hobj)]
      have := before_lt hi hN (p := fun N => !isObj N) (by simpa using hobj) hij
      omega

theorem moveTo_inj (hi : i < nodes.length) (hj : j < nodes.length)
    (h : moveTo nodes i = moveTo nodes j) : i = j := by
  have hN := List.getElem?_eq_getElem hi
  have hM := List.getElem?_eq_getElem hj
  -- one place holds one node
  have hsame : nodes[i] = nodes[j] := by
    have hNi := clumped_moveTo hN
    rw [h, clumped_moveTo hM] at hNi
    exact (Option.some.inj hNi).symm
  rcases Nat.lt_trichotomy i j with hij | hij | hij
  · have := moveTo_strictMono hN hM (by rw [hsame]) hij
    omega
  · exact hij
  · have := moveTo_strictMono hM hN (by rw [hsame]) hij
    omega

theorem moveTo_bijOn (nodes : List GenNode) :
    Set.BijOn (moveTo nodes) (Set.Iio nodes.length) (Set.Iio nodes.length) := by
  have hmaps : Set.MapsTo (moveTo nodes) (Set.Iio nodes.length) (Set.Iio nodes.length) :=
    fun _ hi => moveTo_lt hi
  exact ((Set.finite_Iio nodes.length).injOn_iff_bijOn_of_mapsTo hmaps).mp
    fun _ hi _ hj => moveTo_inj hi hj

/-- An object block moves as a whole. -/
theorem NodeTable.moveTo_add (h : NodeTable nodes) (hN : nodes[i]? = some N) {k : Nat}
    (hk : k < N.objSz) : moveTo nodes (i + k) = moveTo nodes i + k := by
  induction k with
  | zero => rfl
  | succ k ih =>
      obtain ⟨M, hM, hMobj⟩ := h.blocks i N hN k (by omega)
      obtain ⟨M', hM', hMobj'⟩ := h.blocks i N hN (k + 1) hk
      have hM1 : isObj M = true := decide_eq_true hMobj
      rw [← Nat.add_assoc] at hM' ⊢
      by_cases hlast : firstVarNode ≤ i + k
      · rw [moveTo_object (by omega) hM' (decide_eq_true hMobj'), before_succ hlast hM, if_pos hM1,
          ← Nat.add_assoc, ← moveTo_object hlast hM hM1, ih (by omega)]
        omega
      · -- the last special node is no object
        have hne : i + k ≠ 2 := by
          intro h2
          obtain ⟨l, rfl⟩ := h.special
          rw [h2] at hM
          cases hM
          exact hMobj rfl
        have hfirst : firstVarNode = 3 := rfl
        rw [moveTo_special (by omega), moveTo_special (by omega)]
        omega

end

/-! ## The renumbered state -/

/-- Everything that refers to nodes refers to nodes of the table. -/
structure Refers (g : Gen) : Prop where
  cons : ∀ C ∈ g.constraints, C.dest < g.nodes.length ∧ C.src < g.nodes.length
  entry : ∀ a n, g.slots a = some n → n < g.nodes.length
  calls : ∀ n ∈ g.indCalls, n < g.nodes.length
  tagged : ∀ e ∈ g.icallCons, e.1.dest < g.nodes.length ∧ e.1.src < g.nodes.length

/-- The keys of the map `icallCons`. -/
def icallKeys (g : Gen) : List Constraint := g.icallCons.map Prod.fst

/-- What a walk over the maps from values to nodes comes by. -/
def HasEntries (g : Gen) (entries : List Slot) : Prop := ∀ a, a ∈ entries ↔ g.slots a ≠ none

/-- The constraint system of a state, with `F` for the nodes that start a function's object. -/
def system (F : GenNode → Prop) (g : Gen) : System where
  cons C := C ∈ g.constraints
  size n := (g.nodes.getD n {}).objSz
  func n := F (g.nodes.getD n {})
  tag := g.icallCons.Tagged

/-- `mv` is a stable partition of the table `nodes` into `nodes'`, with the object nodes in
front up to `last`. -/
structure Partition (nodes nodes' : List GenNode) (last : Nat) (mv : Nat → Nat) : Prop where
  bij : Set.BijOn mv (Set.Iio nodes.length) (Set.Iio nodes'.length)
  node : ∀ (i : Nat) (N : GenNode), nodes[i]? = some N → nodes'[mv i]? = some N
  special : ∀ i < firstVarNode, mv i = i
  order : ∀ (i j : Nat) (N M : GenNode), nodes[i]? = some N → nodes[j]? = some M →
    isObj N = isObj M → i < j → mv i < mv j
  object : ∀ (i : Nat) (N : GenNode), nodes'[i]? = some N →
    (isObj N = true ∧ i ≠ i2p ↔ firstVarNode ≤ i ∧ i ≤ last)
  shift : ∀ (i : Nat) (N : GenNode), nodes[i]? = some N → ∀ k < N.objSz, mv (i + k) = mv i + k

/-- The state `g'` says about the nodes `mv n` what `g` says about the nodes `n`. -/
structure SameMeaning (F : GenNode → Prop) (g g' : Gen) (mv : Nat → Nat) : Prop where
  refers : Refers g'
  keys : g'.icallKeys.Nodup
  cons : g'.constraints = g.constraints.map (moveCons mv)
  entry : ∀ a, g'.slots a = (g.slots a).map mv
  calls : ∀ n < g.nodes.length, (mv n ∈ g'.indCalls ↔ n ∈ g.indCalls)
  tagged : ∀ C, C.dest < g.nodes.length → C.src < g.nodes.length →
    g'.icallCons.find (moveCons mv C) = g.icallCons.find C
  flow : ∀ n < g.nodes.length, ∀ o < g.nodes.length,
    ((g'.system F).Flow id (mv n) (mv o) ↔ (g.system F).Flow id n o)

/-- What `clumpAddrTaken` makes of a state. -/
def renumbered (g : Gen) : Gen :=
  let mv := moveTo g.nodes
  { g with
    nodes := clumped g.nodes
    constraints := g.constraints.map (moveCons mv)
    valNode := fun v => (g.valNode v).map mv
    objNode := fun v => (g.objNode v).map mv
    retNode := fun f => (g.retNode f).map mv
    varargNode := fun f => (g.varargNode f).map mv
    indCalls := g.indCalls.image mv
    icallCons := g.icallCons.map fun e => (moveCons mv e.1, e.2) }

@[simp] theorem ends_readMoveTo {g g' : Gen} {n : Nat} {Q : Unit → Gen → Prop} :
    Ends (readMoveTo g n) Q g' ↔ n < g.nodes.length ∧ Q () g' := by
  simp [readMoveTo, Unique.exists_iff]

/-- What is read of `move_to` is there if all IDs are those of nodes. -/
theorem clumpReads_ends {g : Gen} {entries : List Slot} (hent : g.HasEntries entries)
    {Q : Unit → Gen → Prop} :
    Ends (clumpReads entries g) Q g ↔
      (g.Refers ∧ ∀ C ∈ g.constraints, C.type = .addrOf → moveTo g.nodes C.src ≤ lastObjNode g.nodes) ∧
        Q () g := by
  unfold clumpReads
  rw [ends_bind, ends_checks (p := fun C => (C.dest < g.nodes.length ∧ C.src < g.nodes.length) ∧
    (C.type = .addrOf → moveTo g.nodes C.src ≤ lastObjNode g.nodes)), ends_bind,
    ends_checks (p := fun a => ∀ n, g.slots a = some n → n < g.nodes.length), ends_bind,
    ends_checks (p := fun n => n < g.nodes.length),
    ends_checks (p := fun e => e.1.dest < g.nodes.length ∧ e.1.src < g.nodes.length)]
  · constructor
    · rintro ⟨hcons, hentry, hcalls, htagged, hQ⟩
      refine ⟨⟨⟨fun C hC => (hcons C hC).1, fun a n ha => ?_, fun n hn => ?_, htagged⟩,
        fun C hC => (hcons C hC).2⟩, hQ⟩
      · exact hentry a ((hent a).mpr (by simp [ha])) n ha
      · exact hcalls n (mem_ascending.mpr hn)
    · rintro ⟨⟨hR, haddr⟩, hQ⟩
      exact ⟨fun C hC => ⟨hR.cons C hC, haddr C hC⟩, fun a _ n ha => hR.entry a n ha,
        fun n hn => hR.calls n (mem_ascending.mp hn), hR.tagged, hQ⟩
  · intro e Q g'
    simp [and_assoc]
  · intro n Q g'
    simp
  · intro a Q g'
    cases ha : g.slots a with
    | none => simp
    | some n => simp
  · intro C Q g'
    simp [and_assoc, Unique.exists_iff]

theorem clumpAddrTaken_ends {g : Gen} {entries : List Slot} (hent : g.HasEntries entries)
    {Q : Nat → Gen → Prop} :
    Ends (clumpAddrTaken entries) Q g ↔
      (g.Refers ∧ ∀ C ∈ g.constraints, C.type = .addrOf → moveTo g.nodes C.src ≤ lastObjNode g.nodes) ∧
        Q (lastObjNode g.nodes) g.renumbered := by
  unfold clumpAddrTaken
  rw [ends_bind, ends_get, ends_bind, clumpReads_ends hent, ends_bind, ends_modify, ends_pure]
  exact Iff.rfl

theorem NodeTable.partition {nodes : List GenNode} (h : NodeTable nodes) :
    Partition nodes (clumped nodes) (lastObjNode nodes) (moveTo nodes) where
  bij := by
    rw [clumped_length]
    exact moveTo_bijOn nodes
  node _ _ := clumped_moveTo
  special _ := moveTo_special
  order _ _ _ _ := moveTo_strictMono
  object := by
    intro i N hN
    have hi := (List.getElem?_eq_some_iff.mp hN).1
    rw [clumped_length] at hi
    obtain ⟨j, hj, rfl⟩ := (moveTo_bijOn nodes).surjOn hi
    have hM := List.getElem?_eq_getElem (Set.mem_Iio.mp hj)
    rw [clumped_moveTo hM, Option.some.injEq] at hN
    by_cases hfirst : j < firstVarNode
    · rw [moveTo_special hfirst]
      have hno : isObj N = true → j = i2p := by
        obtain ⟨l, rfl⟩ := h.special
        obtain rfl | rfl | rfl : j = 0 ∨ j = 1 ∨ j = 2 := by
          have : firstVarNode = 3 := rfl
          omega
        all_goals subst hN
        · exact fun h => absurd (show isObj {} = true from h) (by decide)
        · exact fun _ => rfl
        · exact fun h => absurd (show isObj {} = true from h) (by decide)
      constructor
      · exact fun h => absurd (hno h.1) h.2
      · intro h
        omega
    · have hge := firstVarNode_le_moveTo (by omega) hM
      rw [moveTo_le_last (by omega) hM, hN]
      have hne : moveTo nodes j ≠ i2p := by
        have : i2p < firstVarNode := by decide
        omega
      simp only [hne, hge, ne_eq, not_false_eq_true, and_true, true_and]
  shift _ _ hN _ := h.moveTo_add hN

theorem moveCons_inj {nodes : List GenNode} {C D : Constraint}
    (hC : C.dest < nodes.length ∧ C.src < nodes.length)
    (hD : D.dest < nodes.length ∧ D.src < nodes.length)
    (h : moveCons (moveTo nodes) C = moveCons (moveTo nodes) D) : C = D := by
  obtain ⟨t, d, s, o⟩ := C
  obtain ⟨t', d', s', o'⟩ := D
  simp only [moveCons, Constraint.mk.injEq] at h hC hD ⊢
  exact ⟨h.1, moveTo_inj hC.1 hD.1 h.2.1, moveTo_inj hC.2 hD.2 h.2.2.1, h.2.2.2⟩

section

variable {g : Gen}

theorem slots_renumbered (a : Slot) :
    g.renumbered.slots a = (g.slots a).map (moveTo g.nodes) := by
  cases a <;> rfl

theorem find_renumbered (hR : g.Refers) {C : Constraint}
    (hC : C.dest < g.nodes.length ∧ C.src < g.nodes.length) :
    g.renumbered.icallCons.find (moveCons (moveTo g.nodes) C) = g.icallCons.find C :=
  lookup_map_key fun e he h => moveCons_inj (hR.tagged e he) hC h

theorem renumbered_refers (hR : g.Refers) : Refers g.renumbered where
  cons := by
    intro C hC
    obtain ⟨C0, hC0, rfl⟩ := List.mem_map.mp hC
    rw [show g.renumbered.nodes.length = g.nodes.length from clumped_length g.nodes]
    exact ⟨moveTo_lt (hR.cons C0 hC0).1, moveTo_lt (hR.cons C0 hC0).2⟩
  entry := by
    intro a n hn
    rw [slots_renumbered, Option.map_eq_some_iff] at hn
    obtain ⟨m, hm, rfl⟩ := hn
    rw [show g.renumbered.nodes.length = g.nodes.length from clumped_length g.nodes]
    exact moveTo_lt (hR.entry a m hm)
  calls := by
    intro n hn
    obtain ⟨m, hm, rfl⟩ := Finset.mem_image.mp hn
    rw [show g.renumbered.nodes.length = g.nodes.length from clumped_length g.nodes]
    exact moveTo_lt (hR.calls m hm)
  tagged := by
    intro e he
    obtain ⟨e0, he0, rfl⟩ := List.mem_map.mp he
    rw [show g.renumbered.nodes.length = g.nodes.length from clumped_length g.nodes]
    exact ⟨moveTo_lt (hR.tagged e0 he0).1, moveTo_lt (hR.tagged e0 he0).2⟩

/-- Distinct keys stay distinct. -/
theorem renumbered_keys (hR : g.Refers) (hkeys : g.icallKeys.Nodup) :
    g.renumbered.icallKeys.Nodup := by
  have hmap : g.renumbered.icallKeys = g.icallKeys.map (moveCons (moveTo g.nodes)) := by
    simp only [icallKeys, renumbered, List.map_map]
    rfl
  rw [hmap]
  refine hkeys.map_on fun C hC D hD h => ?_
  obtain ⟨e, he, rfl⟩ := List.mem_map.mp hC
  obtain ⟨e', he', rfl⟩ := List.mem_map.mp hD
  exact moveCons_inj (hR.tagged e he) (hR.tagged e' he') h

theorem getD_renumbered {n : Nat} (hn : n < g.nodes.length) :
    g.renumbered.nodes.getD (moveTo g.nodes n) {} = g.nodes.getD n {} := by
  rw [List.getD_eq_getElem?_getD, List.getD_eq_getElem?_getD, List.getElem?_eq_getElem hn]
  exact congrArg (Option.getD · {}) (clumped_moveTo (List.getElem?_eq_getElem hn))

/-- The object of a node stays inside the table. -/
theorem NodeTable.inside (hT : NodeTable g.nodes) {n : Nat} (hn : n < g.nodes.length) :
    n + (g.nodes.getD n {}).objSz ≤ g.nodes.length := by
  have hN := List.getElem?_eq_getElem hn
  rw [List.getD_eq_getElem?_getD, hN, Option.getD_some]
  by_cases h0 : (g.nodes[n]).objSz = 0
  · omega
  · obtain ⟨M, hM, -⟩ := hT.blocks n _ hN ((g.nodes[n]).objSz - 1) (by omega)
    have := (List.getElem?_eq_some_iff.mp hM).1
    omega

theorem renumbered_renaming (F : GenNode → Prop) (hT : NodeTable g.nodes) (hR : g.Refers) :
    (g.system F).Renaming (g.renumbered.system F) g.nodes.length (moveTo g.nodes) where
  inside := ⟨fun hC => hR.cons _ hC, fun o ho => hT.inside ho⟩
  inj _ hm _ hn h := moveTo_inj hm hn h
  cons _ := List.mem_map
  size n hn := congrArg GenNode.objSz (getD_renumbered hn)
  shift := by
    intro n hn k hk
    have hN := List.getElem?_eq_getElem hn
    refine hT.moveTo_add hN ?_
    change k < (g.nodes.getD n {}).objSz at hk
    rwa [List.getD_eq_getElem?_getD, hN] at hk
  func n hn := by
    change F (g.renumbered.nodes.getD (moveTo g.nodes n) {}) ↔ F (g.nodes.getD n {})
    rw [getD_renumbered hn]
  tag C hC := by
    change g.renumbered.icallCons.Tagged (moveCons (moveTo g.nodes) C) ↔ g.icallCons.Tagged C
    rw [IcallCons.Tagged, IcallCons.Tagged, find_renumbered hR (hR.cons C hC)]
  i2p := by
    intro n hn
    have hi2p : moveTo g.nodes i2p = i2p := moveTo_special (by decide)
    constructor
    · intro h
      refine moveTo_inj hn ?_ (h.trans hi2p.symm)
      obtain ⟨l, hl⟩ := hT.special
      rw [hl, List.length_append]
      exact Nat.lt_of_lt_of_le (by decide : i2p < Gen.special.length) (Nat.le_add_right _ _)
    · rintro rfl
      exact hi2p

theorem renumbered_means (F : GenNode → Prop) (hT : NodeTable g.nodes) (hR : g.Refers)
    (hkeys : g.icallKeys.Nodup) : SameMeaning F g g.renumbered (moveTo g.nodes) where
  refers := renumbered_refers hR
  keys := renumbered_keys hR hkeys
  cons := rfl
  entry := slots_renumbered
  calls := by
    intro n hn
    refine ⟨fun h => ?_, Finset.mem_image_of_mem _⟩
    obtain ⟨m, hm, hmn⟩ := Finset.mem_image.mp h
    exact moveTo_inj (hR.calls m hm) hn hmn ▸ hm
  tagged _ hd hs := find_renumbered hR ⟨hd, hs⟩
  flow _ hn _ ho := (renumbered_renaming F hT hR).flow hn ho

end

/-- `clumpAddrTaken` renumbers by a stable partition that moves object blocks as a whole. It
completes, with a state that says the same as before, if and only if all IDs are those of
nodes and only objects have their address taken. -/
theorem clumpAddrTaken_renumbers (F : GenNode → Prop) (g : Gen) (entries : List Slot)
    (hT : NodeTable g.nodes) (hkeys : g.icallKeys.Nodup) (hent : g.HasEntries entries) :
    Partition g.nodes (clumped g.nodes) (lastObjNode g.nodes) (moveTo g.nodes) ∧
      ((∃ g', clumpAddrTaken entries g = .ok (lastObjNode g.nodes, g') ∧ g'.nodes = clumped g.nodes ∧
          SameMeaning F g g' (moveTo g.nodes)) ↔
        g.Refers ∧
          ∀ C ∈ g.constraints, C.type = .addrOf → C.src < firstVarNode ∨ IsObj g.nodes C.src) := by
  refine ⟨hT.partition, ?_⟩
  have hsource : g.Refers →
      ((∀ C ∈ g.constraints, C.type = .addrOf → moveTo g.nodes C.src ≤ lastObjNode g.nodes) ↔
        ∀ C ∈ g.constraints, C.type = .addrOf → C.src < firstVarNode ∨ IsObj g.nodes C.src) := by
    intro hR
    refine forall₂_congr fun C hC => imp_congr_right fun _ => ?_
    have hN := List.getElem?_eq_getElem (hR.cons C hC).2
    have hlast := lastObjNode_ge g.nodes
    by_cases hfirst : C.src < firstVarNode
    · rw [moveTo_special hfirst]
      exact ⟨fun _ => .inl hfirst, fun _ => by omega⟩
    · rw [moveTo_le_last (by omega) hN, isObj, decide_eq_true_iff]
      constructor
      · exact fun h => .inr ⟨_, hN, Nat.pos_of_ne_zero h⟩
      · rintro (h | ⟨N, hN', hpos⟩)
        · exact absurd h hfirst
        · rw [hN, Option.some.injEq] at hN'
          rw [hN']
          omega
  constructor
  · rintro ⟨g', hrun, -⟩
    obtain ⟨⟨hR, haddr⟩, -⟩ := (clumpAddrTaken_ends hent (Q := fun _ _ => True)).mp
      ⟨_, _, hrun, trivial⟩
    exact ⟨hR, (hsource hR).mp haddr⟩
  · rintro ⟨hR, haddr⟩
    obtain ⟨last, g', hrun, rfl, rfl⟩ := (clumpAddrTaken_ends hent
      (Q := fun l h => l = lastObjNode g.nodes ∧ h = g.renumbered)).mpr
        ⟨⟨hR, (hsource hR).mpr haddr⟩, rfl, rfl⟩
    exact ⟨_, hrun, rfl, renumbered_means F hT hR hkeys⟩

/-- A function pointer 3, the function's object 4 and 5, and the result 6 of a call through
the pointer. -/
def calledFunc : Gen :=
  { Gen.empty with
    nodes := special ++ [{ val := some (.global 0) }, { val := some (.func 0), objSz := 2 },
      { val := some (.func 0), objSz := 1 }, { val := some (.inst 0) }]
    nextNode := 7
    valNode := fun v => if v = .inst 0 then some 6 else none
    constraints := [⟨.addrOf, 3, 4, 0⟩, ⟨.load, 6, 3, 1⟩]
    indCalls := {3}
    icallCons := [(⟨.load, 6, 3, 1⟩, {0})] }

theorem clumpAddrTaken_renumbers_call :
    (List.range 7).map (moveTo calledFunc.nodes) = [0, 1, 2, 5, 3, 4, 6] ∧
      ∃ g', clumpAddrTaken [.val (.inst 0)] calledFunc = .ok (4, g') ∧
        SameMeaning (fun N => N.val = some (.func 0)) calledFunc g' (moveTo calledFunc.nodes) := by
  have hblocks : ∀ i < 7, ∀ k < (calledFunc.nodes.getD i {}).objSz,
      i + k < 7 ∧ (calledFunc.nodes.getD (i + k) {}).objSz ≠ 0 := by decide
  have hT : NodeTable calledFunc.nodes := by
    refine ⟨⟨_, rfl⟩, fun i N hN k hk => ?_⟩
    have hi := (List.getElem?_eq_some_iff.mp hN).1
    obtain ⟨hlt, hne⟩ := hblocks i hi k (by rwa [List.getD_eq_getElem?_getD, hN])
    have hM := List.getElem?_eq_getElem (l := calledFunc.nodes) hlt
    rw [List.getD_eq_getElem?_getD, hM] at hne
    exact ⟨_, hM, hne⟩
  have hslots : ∀ a n, calledFunc.slots a = some n ↔ a = .val (.inst 0) ∧ n = 6 := by
    intro a n
    cases a with
    | val v => simp [slots, calledFunc, eq_comm]
    | obj v => simp [slots, calledFunc, Gen.empty]
    | ret f => simp [slots, calledFunc, Gen.empty]
    | vararg f => simp [slots, calledFunc, Gen.empty]
  have hent : calledFunc.HasEntries [.val (.inst 0)] := by
    intro a
    simp [Option.ne_none_iff_exists', hslots]
  have hR : Refers calledFunc := by
    refine ⟨by decide, fun a n hn => ?_, by decide, by decide⟩
    obtain ⟨-, rfl⟩ := (hslots a n).mp hn
    decide
  obtain ⟨-, hends⟩ := clumpAddrTaken_renumbers (fun N => N.val = some (.func 0)) calledFunc
    [.val (.inst 0)] hT (by decide) hent
  obtain ⟨g', hrun, -, hsame⟩ := hends.mpr ⟨hR, by
    intro C hC ht
    obtain rfl | rfl : C = ⟨.addrOf, 3, 4, 0⟩ ∨ C = ⟨.load, 6, 3, 1⟩ := by
      simpa [calledFunc] using hC
    · exact .inr ⟨_, rfl, by decide⟩
    · cases ht⟩
  have h4 : lastObjNode calledFunc.nodes = 4 := by decide
  exact ⟨by decide, g', h4 ▸ hrun, hsame⟩

/-- `void f(void **p, i32 x, i32 y) { *p = f; }`: the IDs of `x` and `y` are behind the table. -/
def trailingParams : Ir where
  structs _ := []
  named := []
  funcs := [⟨"f", false, false, false, [.ptr (.ptr .other), .int, .int], .void, [⟨[0, 1], []⟩]⟩]
  globals := []
  insts i := if i = 0 then ⟨.store, .void, [.func 0, .arg 0 0]⟩ else ⟨.ret, .void, []⟩
  parent _ := (0, 0)
  users
    | .func 0 => [.inst 0]
    | .arg 0 0 => [.inst 0]
    | _ => []
  extInfo _ := none
  setOrder := id
  ulongBits := 32

theorem clumpAddrTaken_behind : ∃ g, objConsId trailingParams 20 Gen.empty = .ok ((), g) ∧
    NodeTable g.nodes ∧ g.icallKeys.Nodup ∧
    g.valNode (.arg 0 2) = some 8 ∧ g.nodes.length = 7 ∧
    ∀ entries, g.HasEntries entries → ∀ last g', clumpAddrTaken entries g ≠ .ok (last, g') := by
  have hstate : Passes (objConsId trailingParams 20 Gen.empty)
      (fun g => decide (g.nodes.length = 7 ∧ g.slots (.val (.arg 0 2)) = some 8 ∧
        g.icallKeys.Nodup)) = true := by decide +kernel
  obtain ⟨_, g, hrun, hg⟩ := Passes.state hstate
  obtain ⟨hlen, hslot, hkeys⟩ := of_decide_eq_true hg
  refine ⟨g, hrun, objConsId_nodeTable hrun, hkeys, hslot, hlen,
    fun entries hent last g' hclump => ?_⟩
  obtain ⟨⟨hR, -⟩, -⟩ := (clumpAddrTaken_ends hent (Q := fun _ _ => True)).mp
    ⟨last, g', hclump, trivial⟩
  have := hR.entry _ _ hslot
  omega

end Gen

end PtrAnalysis
