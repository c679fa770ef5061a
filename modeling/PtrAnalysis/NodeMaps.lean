import PtrAnalysis.IndCalls
import PtrAnalysis.Lib.Footprint
import PtrAnalysis.Lib.Known

/-!
# The maps from values to nodes

The generator keeps four maps, all of them written by many handlers. Taken together they are
one table of slots. For each handler this says which slots it writes, and that the nodes it
uses in entries and constraints are nodes of the table.
-/

namespace PtrAnalysis

open Run Act

namespace Gen

/-- The nodes stay where they are, and the maps change within a footprint. -/
structure Extends (own fresh : Set Slot) (g g' : Gen) : Prop where
  nodes : g.nodes <+: g'.nodes
  writes : Writes own fresh g.slots g'.slots

instance (own fresh : Set Slot) : IsPreorder Gen (Extends own fresh) where
  refl _ := ⟨List.prefix_refl _, .refl _⟩
  trans _ _ _ h h' := ⟨h.nodes.trans h'.nodes, h.writes.trans h'.writes⟩

/-- Every ID that is in use is one of a node. -/
structure Bounded (P : Ir) (g : Gen) : Prop where
  count : g.nextNode = g.nodes.length
  special : firstVarNode ≤ g.nodes.length
  entry : ∀ a n, g.slots a = some n → n < g.nodes.length
  cons : ∀ C ∈ g.constraints, C.dest < g.nodes.length ∧ C.src < g.nodes.length
  calls : ∀ n ∈ g.indCalls, n < g.nodes.length
  tagged : ∀ e ∈ g.icallCons, e.1.dest < g.nodes.length ∧ e.1.src < g.nodes.length
  stat : ∀ name n, g.statRetNode name = some n → n < g.nodes.length
  block : ∀ f on, g.objNode (.func f) = some on → on + g.objSz on ≤ g.nodes.length
  ret : ∀ f on, g.objNode (.func f) = some on → P.isExt f = false →
    (P.func f).ret.isPtr = true → on + funcNodeOffRet < g.nodes.length
  structs : FlatInfo g.structInfo

/-- A node of the table. -/
def IsNode (g : Gen) (n : Nat) : Prop := n < g.nodes.length

/-- Code that writes within a footprint and keeps all IDs in the table, if the nodes in `S`
are; it gives the nodes in `T`. -/
abbrev Safe (P : Ir) (own fresh : Set Slot) {α : Type} (S : Set Nat) (x : GenM α)
    (T : α → Set Nat) : Prop :=
  Gives (Extends own fresh) (Bounded P) IsNode S x T

abbrev SafeAt (P : Ir) (own fresh : Set Slot) {α : Type} (S : Set Nat) (x : GenM α)
    (T : α → Set Nat) (g : Gen) : Prop :=
  GivesAt (Extends own fresh) (Bounded P) IsNode S x T g

theorem isNode_lasts {own fresh : Set Slot} : Lasts (Extends own fresh) IsNode :=
  fun _ _ _ h hn => Nat.lt_of_lt_of_le hn h.nodes.length_le

/-! ## The table of slots -/

section

variable {g g' : Gen}

theorem slots_valNode (v : Val) (n : Nat) :
    slots { g with valNode := Function.update g.valNode v (some n) } =
      Function.update g.slots (.val v) (some n) := by
  funext a
  cases a <;> simp [slots, Function.update_apply]

theorem slots_objNode (v : Val) (n : Nat) :
    slots { g with objNode := Function.update g.objNode v (some n) } =
      Function.update g.slots (.obj v) (some n) := by
  funext a
  cases a <;> simp [slots, Function.update_apply]

theorem slots_retNode (f : Nat) (n : Nat) :
    slots { g with retNode := Function.update g.retNode f (some n) } =
      Function.update g.slots (.ret f) (some n) := by
  funext a
  cases a <;> simp [slots, Function.update_apply]

theorem slots_varargNode (f : Nat) (n : Nat) :
    slots { g with varargNode := Function.update g.varargNode f (some n) } =
      Function.update g.slots (.vararg f) (some n) := by
  funext a
  cases a <;> simp [slots, Function.update_apply]

/-- New nodes keep the sizes of the old ones. -/
theorem prefix_objSz (h : g.nodes <+: g'.nodes) {on : Nat} (hon : on < g.nodes.length) :
    g'.objSz on = g.objSz on := by
  obtain ⟨l, hl⟩ := h
  simp [objSz, ← hl, List.getD_eq_getElem?_getD, List.getElem?_append_left hon]

theorem StructsOnly.extends {own fresh : Set Slot} (h : StructsOnly g g') :
    Extends own fresh g g' := by
  obtain ⟨-, -, info, T, k, rfl⟩ := h
  refine ⟨List.prefix_refl _, .of_eq ?_⟩
  funext a
  cases a <;> rfl

end

namespace Bounded

variable {P : Ir} {g : Gen}

theorem isNode (h : Bounded P g) {n : Nat} (hn : n < firstVarNode) : IsNode g n :=
  Nat.lt_of_lt_of_le hn h.special

/-- Counted new nodes. -/
theorem push (h : Bounded P g) (l : List GenNode) {k : Nat} (hk : l.length = k) :
    Bounded P { g with nodes := g.nodes ++ l, nextNode := g.nextNode + k } := by
  have hle : g.nodes.length ≤ (g.nodes ++ l).length := by simp
  refine
    { count := by simp [h.count, hk]
      special := h.special.trans hle
      entry := fun a n hn => (h.entry a n hn).trans_le hle
      cons := fun C hC => (h.cons C hC).imp (·.trans_le hle) (·.trans_le hle)
      calls := fun n hn => (h.calls n hn).trans_le hle
      tagged := fun e he => (h.tagged e he).imp (·.trans_le hle) (·.trans_le hle)
      stat := fun name n hn => (h.stat name n hn).trans_le hle
      block := fun f on hon => ?_
      ret := fun f on hon he hr => (h.ret f on hon he hr).trans_le hle
      structs := h.structs }
  have hlt : on < g.nodes.length := h.entry (.obj (.func f)) on hon
  rw [prefix_objSz (List.prefix_append g.nodes l) hlt]
  exact (h.block f on hon).trans hle

theorem addCons (h : Bounded P g) {t : ConsType} {dest src off : Nat} {cs : List Constraint}
    {b : Bool} (hadd : addCons g.constraints t dest src off = .ok (cs, b)) (hd : IsNode g dest)
    (hs : IsNode g src) : Bounded P { g with constraints := cs } := by
  refine { h with cons := fun C hC => ?_ }
  rw [addCons_result hadd] at hC
  rcases List.mem_append.mp hC with hC | hC
  · exact h.cons C hC
  · split at hC
    · cases hC
    · obtain rfl := List.mem_singleton.mp hC
      exact ⟨hd, hs⟩

theorem structsOnly (h : Bounded P g) {g' : Gen} (hg : StructsOnly g g') : Bounded P g' := by
  obtain ⟨hflat, -, info, T, k, rfl⟩ := hg
  exact { h with
    entry := fun a n hn => h.entry a n (by cases a <;> exact hn)
    structs := hflat h.structs }

/-- A new entry, other than for the object of a function. -/
theorem enter (h : Bounded P g) {g' : Gen} {a : Slot} {n : Nat}
    (hslots : g'.slots = Function.update g.slots a (some n)) (hn : n < g.nodes.length)
    (ha : ∀ f, a ≠ .obj (.func f)) (hnodes : g'.nodes = g.nodes) (hnext : g'.nextNode = g.nextNode)
    (hcons : g'.constraints = g.constraints) (hcalls : g'.indCalls = g.indCalls)
    (htags : g'.icallCons = g.icallCons) (hstat : g'.statRetNode = g.statRetNode)
    (hinfo : g'.structInfo = g.structInfo) : Bounded P g' := by
  have hfunc : ∀ f, g'.objNode (.func f) = g.objNode (.func f) := fun f => by
    have := congrFun hslots (.obj (.func f))
    rwa [Function.update_of_ne (Ne.symm (ha f))] at this
  have hsz : ∀ on, g'.objSz on = g.objSz on := fun on => by rw [objSz, objSz, hnodes]
  refine
    { count := by rw [hnext, hnodes, h.count]
      special := by rw [hnodes]; exact h.special
      entry := fun b m hm => ?_
      cons := by rw [hcons, hnodes]; exact h.cons
      calls := by rw [hcalls, hnodes]; exact h.calls
      tagged := by rw [htags, hnodes]; exact h.tagged
      stat := by rw [hstat, hnodes]; exact h.stat
      block := fun f on hon => by rw [hsz, hnodes]; exact h.block f on (hfunc f ▸ hon)
      ret := fun f on hon => by rw [hnodes]; exact h.ret f on (hfunc f ▸ hon)
      structs := by rw [hinfo]; exact h.structs }
  rw [hnodes]
  rw [hslots] at hm
  by_cases hb : b = a
  · rw [hb, Function.update_self] at hm
    exact Option.some.inj hm ▸ hn
  · rw [Function.update_of_ne hb] at hm
    exact h.entry b m hm

end Bounded

/-! ## Operations -/

/-- The constant expressions may get nodes of their own. -/
def ExprsIn (fresh : Set Slot) : Prop := ∀ op t ops, Slot.val (.expr op t ops) ∈ fresh

section

variable {P : Ir} {fuel : Nat} {own fresh : Set Slot} {S : Set Nat}

/-- Code that changes only what is known of structs. -/
theorem safe_of_structs {α : Type} {x : GenM α} (h : Runs StructsOnly x) :
    Safe P own fresh S x fun _ => ∅ := by
  intro g
  apply (h g).imp
  intro a g' hg'
  exact ⟨hg'.extends, fun hB _ => ⟨hB.structsOnly hg', fun n hn => absurd hn (Set.notMem_empty n)⟩⟩

/-- Code that only reads the state. -/
theorem safe_of_reads {x : GenM Nat}
    (h : ∀ g, Wp x (fun n g' => g' = g ∧ (Bounded P g → IsNode g n)) g) :
    Safe P own fresh S x fun n => {n} := by
  intro g
  apply (h g).imp
  rintro n g' ⟨rfl, hn⟩
  refine ⟨refl g', fun hB _ => ⟨hB, fun m hm => ?_⟩⟩
  rw [Set.mem_singleton_iff.mp hm]
  exact hn hB

theorem entry_isNode {g : Gen} {a : Slot} {zero : String} {n : Nat} (hB : Bounded P g)
    (h : entry zero (g.slots a) = .ok n) : IsNode g n := by
  cases ha : g.slots a with
  | none =>
      rw [ha, entry] at h
      exact Except.ok.inj h ▸ hB.isNode (by decide)
  | some m =>
      rw [ha, entry, require_bind_ok] at h
      exact Except.ok.inj h.2 ▸ hB.entry a m ha

theorem needEntry_isNode {g : Gen} {a : Slot} {missing zero : String} {n : Nat}
    (hB : Bounded P g) (h : needEntry missing zero (g.slots a) = .ok n) : IsNode g n := by
  cases ha : g.slots a with
  | none => simp [ha, needEntry] at h
  | some m =>
      rw [ha, needEntry, ← ha] at h
      exact entry_isNode hB h

theorem findValNode_safe (v : Val) : Safe P own fresh S (findValNode v) fun n => {n} :=
  safe_of_reads fun g => by
    rw [findValNode, wp_bind, wp_get, wp_lift]
    exact fun n hn => ⟨rfl, fun hB => entry_isNode (a := .val v) hB hn⟩

theorem getValNode_safe (v : Val) : Safe P own fresh S (getValNode v) fun n => {n} :=
  safe_of_reads fun g => by
    rw [getValNode, wp_bind, wp_get, wp_lift]
    exact fun n hn => ⟨rfl, fun hB => needEntry_isNode (a := .val v) hB hn⟩

/-- A node found in one of the maps of functions, or in the object of `f`. -/
theorem funcNode_isNode {g : Gen} {f : Nat} {a : Slot} {missing zero : String} {node : Nat → Nat}
    {n : Nat} (hB : Bounded P g)
    (hnode : ∀ on, g.objNode (.func f) = some on → IsNode g (node on))
    (h : funcNode missing zero (g.slots a) (g.objNode (.func f)) node = .ok n) : IsNode g n := by
  unfold funcNode at h
  cases ha : g.slots a with
  | some m =>
      rw [ha] at h
      have hm : entry zero (g.slots a) = .ok n := by rwa [ha]
      exact entry_isNode hB hm
  | none =>
      rw [ha] at h
      dsimp only at h
      rw [bind_ok] at h
      obtain ⟨on, hon, h⟩ := h
      rw [require_bind_ok] at h
      obtain ⟨hne, h⟩ := h
      cases ho : g.objNode (.func f) with
      | none =>
          rw [ho, entry] at hon
          exact absurd (Except.ok.inj hon).symm hne
      | some m =>
          rw [ho, entry, require_bind_ok] at hon
          obtain rfl := Except.ok.inj hon.2
          exact Except.ok.inj h ▸ hnode m ho

theorem getRetNode_safe {f : Nat} (hext : P.isExt f = false) :
    Safe P own fresh S (getRetNode P f) fun n => {n} :=
  safe_of_reads fun g => by
    rw [getRetNode, wp_bind, wp_get, wp_ite, wp_pure, wp_lift]
    refine ⟨fun _ => ⟨rfl, fun hB => hB.isNode (by decide)⟩, fun hr n hn => ⟨rfl, fun hB => ?_⟩⟩
    exact funcNode_isNode (a := .ret f) hB (fun on hon => hB.ret f on hon hext (by simpa using hr)) hn

theorem getVarargNode_safe (f : Nat) : Safe P own fresh S (getVarargNode P f) fun n => {n} :=
  safe_of_reads fun g => by
    rw [getVarargNode, wp_bind, wp_get, wp_ite, wp_pure, wp_lift]
    refine ⟨fun _ => ⟨rfl, fun hB => hB.isNode (by decide)⟩, fun _ n hn => ⟨rfl, fun hB => ?_⟩⟩
    refine funcNode_isNode (a := .vararg f) hB (fun on hon => ?_) hn
    have hle := hB.block f on hon
    have hpos := hB.isNode (n := 0) (by decide)
    unfold IsNode at *
    omega

theorem cons_safe {t : ConsType} {dest src off : Nat} (hd : dest ∈ S)
    (hs : src ∈ S ∨ src < firstVarNode) : Safe P own fresh S (cons t dest src off) fun _ => ∅ := by
  intro g
  unfold GivesAt
  rw [wp_cons]
  intro cs b hadd
  refine ⟨⟨List.prefix_refl _, .of_eq ?_⟩, fun hB hS => ⟨?_, fun n hn => absurd hn (Set.notMem_empty n)⟩⟩
  · funext a
    cases a <;> rfl
  · have hB' := hB.addCons hadd (hS _ hd) (hs.elim (hS _) hB.isNode)
    exact { hB' with entry := fun a n hn => hB'.entry a n (by cases a <;> exact hn) }

theorem consUnless0_safe {t : ConsType} {dest src : Nat} (hd : dest ∈ S) (hs : src ∈ S) :
    Safe P own fresh S (consUnless0 t dest src) fun _ => ∅ :=
  .ite (fun _ => .done ()) fun _ => cons_safe hd (.inl hs)

/-- An entry that is owned, other than for the object of a function. -/
theorem setValNode_safe {v : Val} {n : Nat} (hv : .val v ∈ own) (hn : n ∈ S) :
    Safe P own fresh S (setValNode v n) fun _ => ∅ := by
  intro g
  unfold GivesAt
  rw [setValNode, wp_modify]
  refine ⟨⟨List.prefix_refl _, ?_⟩, fun hB hS => ⟨?_, fun n hn => absurd hn (Set.notMem_empty n)⟩⟩
  · rw [slots_valNode]
    exact .update hv _
  · exact hB.enter (slots_valNode v n) (hS n hn) (fun f => by simp) rfl rfl rfl rfl rfl rfl rfl

/-- A value node that is made first; what follows may use it. -/
theorem newNode_safe {α : Type} {N : GenNode} {f : Nat → GenM α} {T : α → Set Nat}
    (hf : ∀ n, Safe P own fresh (S ∪ {n}) (f n) T) :
    Safe P own fresh S (takeNode >>= fun n => pushNode N >>= fun _ => f n) T := by
  intro g
  unfold GivesAt
  simp only [takeNode, bump, pushNode, wp_bind, wp_get, wp_modify, wp_pure]
  refine (hf g.nextNode _).after isNode_lasts ?_ fun hg _ => ⟨hg.push [N] rfl, fun n hn => ?_⟩
  · exact ⟨List.prefix_append _ _, .of_eq (by funext a; cases a <;> rfl)⟩
  · rw [Set.mem_singleton_iff.mp hn, IsNode, hg.count]
    simp

theorem zero_safe : Safe P own fresh S (pure 0 : GenM Nat) fun n => {n} :=
  safe_of_reads fun g => ⟨rfl, fun hB => hB.isNode (n := 0) (by decide)⟩

/-- A value without an entry gets a node; what follows may use it. -/
theorem freshNode_safe {α : Type} {v : Val} {f : Nat → GenM α} {T : α → Set Nat} {g : Gen}
    (hnone : g.slots (.val v) = none) (hv : .val v ∈ fresh)
    (hf : ∀ n, Safe P own fresh (S ∪ {n}) (f n) T) :
    SafeAt P own fresh S (takeNode >>= fun n => pushNode { val := some v } >>= fun _ =>
      setValNode v n >>= fun _ => f n) T g := by
  unfold SafeAt GivesAt
  simp only [takeNode, bump, pushNode, setValNode, wp_bind, wp_get, wp_modify, wp_pure]
  have hslots := slots_valNode (g := { g with
    nodes := g.nodes ++ [{ val := some v }], nextNode := g.nextNode + 1 }) v g.nextNode
  refine (hf g.nextNode _).after isNode_lasts ?_ fun hg _ => ⟨?_, fun n hn => ?_⟩
  · exact ⟨List.prefix_append _ _, hslots ▸ .enter hnone hv _⟩
  · exact (hg.push [{ val := some v }] rfl).enter hslots (by simp [hg.count]) (fun f => by simp)
      rfl rfl rfl rfl rfl rfl rfl
  · rw [Set.mem_singleton_iff.mp hn, IsNode, hg.count]
    simp

/-! ### Operands -/

theorem i2pOperand_safe (hE : ExprsIn fresh) (v : Val) :
    Safe P own fresh S (i2pOperand P v) fun t => {t.1} := by
  have hvalue : ∀ (w op : Val), Safe P own fresh S
      (getValNode w >>= fun n => (pure (n, op) : GenM (Nat × Val))) fun t => {t.1} := fun w op =>
    .bind isNode_lasts (getValNode_safe w) fun n => .pure _ Set.subset_union_right
  unfold i2pOperand
  split
  · dsimp only
    split
    · exact hvalue _ _
    · exact .seq isNode_lasts (.lift _) fun _ => hvalue _ _
    · exact .throw _ _
  · rename_i op t ops
    intro g
    unfold GivesAt
    rw [wp_bind, wp_get, wp_bind, wp_lift]
    intro _ hfree
    have hnone : g.slots (.val (.expr op t ops)) = none :=
      Option.isNone_iff_eq_none.mp (require_ok.mp hfree)
    refine freshNode_safe hnone (hE op t ops) fun n => ?_
    split
    · exact .pure _ Set.subset_union_right
    · exact .seq isNode_lasts (.lift _) fun _ => .pure _ Set.subset_union_right
    · exact .throw _ _
  · exact .throw _ _

/-- The two functions on constant pointers, by induction on the depth of the recursion. -/
theorem cptr_safe (hE : ExprsIn fresh) :
    (∀ v S, Safe P own fresh S (getValNodeCptr P fuel v) fun n => {n}) ∧
      ∀ v S, Safe P own fresh S (idI2pInsn P fuel v) fun _ => ∅ := by
  induction fuel with
  | zero => exact ⟨fun _ _ => .throw _ _, fun _ _ => .throw _ _⟩
  | succ fuel ih =>
      obtain ⟨ihV, ihI⟩ := ih
      constructor
      · intro v S
        unfold getValNodeCptr
        refine .bind isNode_lasts (findValNode_safe v) fun vn => ?_
        refine .ite (fun _ => .pure _ Set.subset_union_right) fun _ => ?_
        refine .seq isNode_lasts (.lift _) fun _ => .seq isNode_lasts (.lift _) fun _ => ?_
        refine .ite (fun _ => zero_safe) fun _ => ?_
        split
        · split
          · exact ihV _ _
          · exact .seq isNode_lasts (ihI _ _) fun _ => getValNode_safe _
          · refine .seq isNode_lasts (.lift _) fun _ => .ite (fun _ => zero_safe) fun _ => ?_
            exact .seq isNode_lasts (ihI _ _) fun _ => getValNode_safe _
          · exact .throw _ _
        · exact .throw _ _
      · intro v S
        rw [idI2pInsn]
        refine .bind isNode_lasts (i2pOperand_safe hE v) fun t => .seq isNode_lasts (.lift _) fun _ => ?_
        refine .seq isNode_lasts (.forM isNode_lasts fun V _ => ?_) fun _ => ?_
        · refine .bind isNode_lasts (ihV V _) fun vnS => consUnless0_safe ?_ ?_
          · simp
          · simp
        · exact .ite (fun _ => cons_safe (by simp) (.inr (by decide))) fun _ => .done ()

theorem getValNodeCptr_safe (hE : ExprsIn fresh) (v : Val) :
    Safe P own fresh S (getValNodeCptr P fuel v) fun n => {n} :=
  (cptr_safe hE).1 v S

theorem idI2pInsn_safe (hE : ExprsIn fresh) (v : Val) :
    Safe P own fresh S (idI2pInsn P fuel v) fun _ => ∅ :=
  (cptr_safe hE).2 v S

end

end Gen

end PtrAnalysis
