import PtrAnalysis.Tables

/-!
# What the constraints mean

A constraint system is a set of inclusions between points-to sets. `Closed` says
that a relation "node `n` points to object `o`" satisfies all of them, `Flow` is
the least such relation. Both are read modulo a map `r` that identifies nodes: an
optimizer that merges nodes solves the system over classes, and `r = id` is the
system itself.

Offsets go into the object a pointer points to, so a load or store with offset
looks at big enough objects only, and one that belongs to an indirect call at
functions only. Nothing is ever read from or written to `i2p`.
-/

namespace PtrAnalysis

structure System where
  cons : Constraint → Prop
  /-- The number of nodes in the object that starts at a node. -/
  size : Nat → Nat
  /-- The nodes that start the object of a function. -/
  func : Nat → Prop
  /-- The constraints of indirect calls. -/
  tag : Constraint → Prop

namespace System

/-- Load or store `C` accesses object `o`. -/
def Acts (S : System) (C : Constraint) (o : Nat) : Prop :=
  o ≠ i2p ∧ (C.off = 0 ∨ C.off < S.size o ∧ (S.tag C ↔ S.func o))

/-- `P` satisfies every constraint, and nodes that `r` identifies have one set. -/
structure Closed (S : System) (r : Nat → Nat) (P : Nat → Nat → Prop) : Prop where
  addr : ∀ {C}, S.cons C → C.type = .addrOf → P C.dest C.src
  copy : ∀ {C o}, S.cons C → C.type = .copy → P C.src o → P C.dest o
  load : ∀ {C o x}, S.cons C → C.type = .load → P C.src o → S.Acts C o →
    P (o + C.off) x → P C.dest x
  store : ∀ {C o x}, S.cons C → C.type = .store → P C.dest o → S.Acts C o →
    P C.src x → P (o + C.off) x
  gep : ∀ {C o}, S.cons C → C.type = .gep → P C.src o → C.off < S.size o →
    P C.dest (o + C.off)
  same : ∀ {m n o}, r m = r n → P m o → P n o

/-- A solution over coarser classes. -/
theorem Closed.finer {S : System} {r r' : Nat → Nat} {P : Nat → Nat → Prop} (h : S.Closed r P)
    (hr : ∀ m n, r' m = r' n → r m = r n) : S.Closed r' P :=
  ⟨h.addr, h.copy, h.load, h.store, h.gep, fun hmn => h.same (hr _ _ hmn)⟩

/-- The least solution: node `n` points to object `o`. -/
inductive Flow (S : System) (r : Nat → Nat) : Nat → Nat → Prop
  | addr {C : Constraint} (hC : S.cons C) (ht : C.type = .addrOf) : Flow S r C.dest C.src
  | copy {C : Constraint} {o : Nat} (hC : S.cons C) (ht : C.type = .copy)
      (ho : Flow S r C.src o) : Flow S r C.dest o
  | load {C : Constraint} {o x : Nat} (hC : S.cons C) (ht : C.type = .load)
      (ho : Flow S r C.src o) (ha : S.Acts C o) (hx : Flow S r (o + C.off) x) : Flow S r C.dest x
  | store {C : Constraint} {o x : Nat} (hC : S.cons C) (ht : C.type = .store)
      (ho : Flow S r C.dest o) (ha : S.Acts C o) (hx : Flow S r C.src x) : Flow S r (o + C.off) x
  | gep {C : Constraint} {o : Nat} (hC : S.cons C) (ht : C.type = .gep)
      (ho : Flow S r C.src o) (hs : C.off < S.size o) : Flow S r C.dest (o + C.off)
  | same {m n o : Nat} (h : r m = r n) (ho : Flow S r m o) : Flow S r n o

variable {S : System} {r : Nat → Nat}

theorem Flow.closed (S : System) (r : Nat → Nat) : S.Closed r (S.Flow r) :=
  ⟨.addr, .copy, .load, .store, .gep, .same⟩

/-- `Flow` is the least solution. -/
theorem Flow.least {P : Nat → Nat → Prop} (h : S.Closed r P) {n o : Nat} (hf : S.Flow r n o) :
    P n o := by
  induction hf with
  | addr hC ht => exact h.addr hC ht
  | copy hC ht _ ih => exact h.copy hC ht ih
  | load hC ht _ ha _ ih ihx => exact h.load hC ht ih ha ihx
  | store hC ht _ ha _ ih ihx => exact h.store hC ht ih ha ihx
  | gep hC ht _ hs ih => exact h.gep hC ht ih hs
  | same hr _ ih => exact h.same hr ih

/-- Every node a constraint mentions, and every node inside an object, is below
`sz`. -/
structure Inside (S : System) (sz : Nat) : Prop where
  node : ∀ {C}, S.cons C → C.dest < sz ∧ C.src < sz
  object : ∀ o < sz, o + S.size o ≤ sz

/-- A step into an object leads to a node. -/
theorem Inside.step {sz o k : Nat} (h : S.Inside sz) (ho : o < sz) (hk : k = 0 ∨ k < S.size o) :
    o + k < sz := by
  have := h.object o ho
  omega

/-- Objects, and without merged nodes all that point to something, are nodes of the
system. -/
theorem Flow.lt {sz : Nat} (h : S.Inside sz) (hr : ∀ {m n}, r m = r n → m < sz → n < sz) {n o : Nat}
    (hf : S.Flow r n o) : n < sz ∧ o < sz := by
  refine Flow.least (P := fun n o => n < sz ∧ o < sz) ⟨?_, ?_, ?_, ?_, ?_, ?_⟩ hf
  · intro C hC _
    exact h.node hC
  · intro C o hC _ ho
    exact ⟨(h.node hC).1, ho.2⟩
  · intro C o x hC _ _ _ hx
    exact ⟨(h.node hC).1, hx.2⟩
  · intro C o x _ _ ho ha hx
    exact ⟨h.step ho.2 (ha.2.imp_right And.left), hx.2⟩
  · intro C o hC _ ho hs
    exact ⟨(h.node hC).1, h.step ho.2 (.inr hs)⟩
  · intro m n o hmn ho
    exact ⟨hr hmn ho.1, ho.2⟩

theorem Flow.node_lt {sz n o : Nat} (hf : S.Flow id n o) (h : S.Inside sz) : n < sz :=
  (hf.lt h fun {m n} he hlt => (show m = n from he) ▸ hlt).1

end System

/-- The constraints that carry calls. -/
def IcallCons.Tagged (m : IcallCons) (C : Constraint) : Prop := (m.find C).isSome = true

instance (m : IcallCons) (C : Constraint) : Decidable (m.Tagged C) := by
  unfold IcallCons.Tagged
  infer_instance

/-- The constraint system of a list of constraints, with `func` for the function
objects. -/
def Anders.system (a : Anders) (func : Nat → Prop) : System where
  cons C := C ∈ a.constraints
  size n := (a.nodes n).objSz
  func := func
  tag := a.icallCons.Tagged

end PtrAnalysis
