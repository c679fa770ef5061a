import PtrAnalysis.Lib.Run

/-!
# Constraints

The five kinds of inclusion constraints of the analysis, and `addCons`, the
only function that creates them. Its assertions are what the later phases rely
on: the unknown target `i2p` is never an operand except as an address taken,
the constant pointer to it is never dereferenced, and an offset stands only
where it means something. `Accepted` collects them.
-/

namespace PtrAnalysis

/-- The unknown target of pointers cast from integers. -/
def i2p : Nat := 1

/-- The constant pointer to `i2p`. -/
def pI2p : Nat := 2

/-- The first node representing a real variable. -/
def firstVarNode : Nat := 3

/-- Offset from an address-taken function's first node to its return value. -/
def funcNodeOffRet : Nat := 1

/-- Offset from an address-taken function's first node to its first argument. -/
def funcNodeOffArg0 : Nat := 2

inductive ConsType where
  /-- `D = &S` -/
  | addrOf
  /-- `D = S` -/
  | copy
  /-- `D = *S + off` -/
  | load
  /-- `*D + off = S` -/
  | store
  /-- `D = S + off` -/
  | gep
  deriving DecidableEq, Repr

structure Constraint where
  type : ConsType
  dest : Nat
  src : Nat
  off : Nat := 0
  deriving DecidableEq, Repr

namespace Constraint

/-- The node a load, store or GEP dereferences. -/
def ptr (C : Constraint) : Nat :=
  match C.type with
  | .store => C.dest
  | _ => C.src

/-- The node on the other side. -/
def other (C : Constraint) : Nat :=
  match C.type with
  | .store => C.src
  | _ => C.dest

/-- What the assertions of `addCons` demand of each kind. -/
def Accepted (C : Constraint) : Prop :=
  C.src ≠ 0 ∧ C.dest ≠ 0 ∧ C.dest ≠ i2p ∧
  match C.type with
  | .addrOf => C.off = 0
  | .copy => C.src ≠ i2p ∧ C.off = 0
  | .load => C.src ≠ i2p ∧ C.src ≠ pI2p
  | .store => C.src ≠ i2p ∧ C.dest ≠ pI2p
  | .gep => C.src ≠ i2p ∧ C.off ≠ 0

instance (C : Constraint) : Decidable C.Accepted := by
  unfold Accepted
  cases C.type <;> infer_instance

end Constraint

open Run

/-- The assertions of `addCons` for one kind of constraint. -/
def addConsAsserts (t : ConsType) (dest src off : Nat) : Run Unit :=
  match t with
  | .addrOf => do
      require (dest ≠ i2p) "dest != i2p"
      require (off = 0) "offset not allowed on addr_of_cons"
  | .copy => do
      require (src ≠ i2p ∧ dest ≠ i2p) "src != i2p && dest != i2p"
      require (off = 0) "offset not allowed on copy_cons"
  | .load =>
      require (src ≠ i2p ∧ dest ≠ i2p ∧ src ≠ pI2p)
        "src != i2p && dest != i2p && src != p_i2p"
  | .store =>
      require (src ≠ i2p ∧ dest ≠ i2p ∧ dest ≠ pI2p)
        "src != i2p && dest != i2p && dest != p_i2p"
  | .gep => require (src ≠ i2p ∧ dest ≠ i2p) "src != i2p && dest != i2p"

/-- Add the constraint `(t dest src off)` to the list, unless it is
`(copy A A)`; a GEP by 0 becomes a copy. Returns whether it was added. -/
def addCons (constraints : List Constraint) (t : ConsType) (dest src off : Nat) :
    Run (List Constraint × Bool) := do
  require (src ≠ 0 ∧ dest ≠ 0) "null node in constraint"
  if t = .copy ∧ src = dest then
    return (constraints, false)
  let t := if t = .gep ∧ off = 0 then .copy else t
  addConsAsserts t dest src off
  return (constraints ++ [⟨t, dest, src, off⟩], true)

theorem addConsAsserts_accepted {t : ConsType} {dest src off : Nat}
    (hnull : src ≠ 0 ∧ dest ≠ 0) (hgep : ¬ (t = .gep ∧ off = 0))
    (h : addConsAsserts t dest src off = .ok ()) :
    (⟨t, dest, src, off⟩ : Constraint).Accepted := by
  cases t <;>
    simp only [addConsAsserts, require_bind_ok, require_ok] at h <;>
    simp only [Constraint.Accepted] <;> grind

theorem addCons_result {cs cs' : List Constraint} {t : ConsType} {dest src off : Nat}
    {added : Bool} (h : addCons cs t dest src off = .ok (cs', added)) :
    cs' = cs ++ if t = .copy ∧ src = dest then []
      else [⟨if t = .gep ∧ off = 0 then .copy else t, dest, src, off⟩] := by
  unfold addCons at h
  rw [require_bind_ok] at h
  obtain ⟨-, h⟩ := h
  by_cases hself : t = .copy ∧ src = dest
  · rw [if_pos hself] at h
    rw [if_pos hself, List.append_nil]
    exact (Prod.mk.inj (Except.ok.inj h)).1.symm
  · rw [if_neg hself, bind_ok] at h
    obtain ⟨-, -, h⟩ := h
    rw [if_neg hself]
    exact (Prod.mk.inj (Except.ok.inj h)).1.symm

theorem addCons_addrOf {cs : List Constraint} {dest src : Nat} (hsrc : src ≠ 0) (hdest : dest ≠ 0)
    (hi2p : dest ≠ i2p) :
    addCons cs .addrOf dest src 0 = .ok (cs ++ [⟨.addrOf, dest, src, 0⟩], true) := by
  unfold addCons
  rw [require, if_pos ⟨hsrc, hdest⟩]
  simp [addConsAsserts, require, hi2p, bind, Except.bind, pure, Except.pure]

/-- The unknown target is no operand of a copy. -/
theorem addCons_copy_i2p {cs cs' : List Constraint} {dest src off : Nat} {added : Bool}
    (h : addCons cs .copy dest src off = .ok (cs', added)) (hne : src ≠ dest) :
    src ≠ i2p ∧ dest ≠ i2p := by
  unfold addCons at h
  rw [require_bind_ok, if_neg (by simpa using hne), bind_ok] at h
  obtain ⟨-, _, hasserts, -⟩ := h
  exact (require_bind_ok.mp hasserts).1

theorem addCons_addrOf_dest {cs cs' : List Constraint} {dest src off : Nat} {added : Bool}
    (h : addCons cs .addrOf dest src off = .ok (cs', added)) : dest ≠ i2p := by
  unfold addCons at h
  rw [require_bind_ok, if_neg (by simp), bind_ok] at h
  obtain ⟨-, _, hasserts, -⟩ := h
  exact (require_bind_ok.mp hasserts).1

/-- Nor is it one of a load or store. -/
theorem addCons_offset_i2p {cs cs' : List Constraint} {t : ConsType} {dest src off : Nat}
    {added : Bool} (ht : t = .load ∨ t = .store)
    (h : addCons cs t dest src off = .ok (cs', added)) : src ≠ i2p ∧ dest ≠ i2p := by
  unfold addCons at h
  rw [require_bind_ok, if_neg (by rcases ht with rfl | rfl <;> simp), bind_ok] at h
  obtain ⟨-, _, hasserts, -⟩ := h
  rcases ht with rfl | rfl
  · exact ⟨(require_ok.mp hasserts).1, (require_ok.mp hasserts).2.1⟩
  · exact ⟨(require_ok.mp hasserts).1, (require_ok.mp hasserts).2.1⟩

/-- A constraint in the new list was there or is the one asked for. -/
theorem addCons_mem {cs cs' : List Constraint} {t : ConsType} {dest src off : Nat} {added : Bool}
    (h : addCons cs t dest src off = .ok (cs', added)) :
    ∀ C ∈ cs', C ∈ cs ∨ (C.dest = dest ∧ C.src = src ∧ (C.type = .addrOf → t = .addrOf)) := by
  rw [addCons_result h]
  intro C hC
  rcases List.mem_append.mp hC with hold | hlast
  · exact .inl hold
  · split at hlast
    · cases hlast
    · rw [List.mem_singleton.mp hlast]
      refine .inr ⟨rfl, rfl, fun ht => ?_⟩
      dsimp only at ht
      split at ht
      · cases ht
      · exact ht

/-- Whatever the constraint generator asks for, a list of accepted constraints
stays one. -/
theorem addCons_accepted {cs cs' : List Constraint} {t : ConsType}
    {dest src off : Nat} {added : Bool}
    (hcs : ∀ C ∈ cs, C.Accepted) (h : addCons cs t dest src off = .ok (cs', added)) :
    ∀ C ∈ cs', C.Accepted := by
  unfold addCons at h
  rw [require_bind_ok] at h
  obtain ⟨hnull, h⟩ := h
  by_cases hself : t = .copy ∧ src = dest
  · rw [if_pos hself] at h
    obtain ⟨rfl, -⟩ := Prod.mk.inj (Except.ok.inj h)
    exact hcs
  · rw [if_neg hself, bind_ok] at h
    obtain ⟨u, hu, h⟩ := h
    obtain ⟨rfl, -⟩ := Prod.mk.inj (Except.ok.inj h)
    have hnew := addConsAsserts_accepted hnull (by grind) hu
    intro C hC
    rcases List.mem_append.mp hC with hold | hlast
    · exact hcs C hold
    · rwa [List.mem_singleton.mp hlast]

end PtrAnalysis
