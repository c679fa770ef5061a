import PtrAnalysis.TableBounds

/-!
# Masks and GEP functions hold exactly the object members

A GEP function is addition modulo the size of the bit vectors, cut down to the
nodes of the mask. Where every object block lies among the object nodes the
modulus never shows: the function is `x ↦ x + off` on the objects with more than
`off` fields, and a GEP constraint adds these sums and nothing else.
-/

namespace PtrAnalysis

open Run

/-- The nodes of the object that starts at a node are object nodes. -/
def Anders.BlocksFit (a : Anders) : Prop :=
  ∀ i ≤ a.lastObjNode, i + (a.nodes i).objSz ≤ a.lastObjNode + 1

/-! ## The width of a domain -/

theorem le_two_pow_bitsFrom : ∀ (k b n : Nat), n ≤ b + k → n ≤ 2 ^ bitsFrom k b n
  | 0, b, n, h => by
      rw [bitsFrom]
      exact Nat.le_trans h Nat.lt_two_pow_self.le
  | k + 1, b, n, h => by
      rw [bitsFrom]
      split
      · assumption
      · exact le_two_pow_bitsFrom k (b + 1) n (by omega)

theorem le_two_pow_fddBits (n : Nat) : n ≤ 2 ^ fddBits n :=
  le_two_pow_bitsFrom n 1 n (by omega)

/-! ## The relation of an offset -/

/-- `geps[off]` adds `off` to the members of `objects`. -/
def GepAdds (geps : List (Finset (Nat × Nat))) (off : Nat) (objects : Finset Nat) : Prop :=
  ∀ x y, (x, y) ∈ geps.getD off ∅ ↔ x ∈ objects ∧ y = x + off

theorem mem_gepFunction {bits off : Nat} {om : Finset Nat} (hfit : ∀ x ∈ om, x + off < 2 ^ bits)
    (x y : Nat) : (x, y) ∈ gepFunction bits off om ↔ x ∈ om ∧ y = x + off := by
  unfold gepFunction
  simp only [Finset.mem_image, Prod.mk.injEq]
  constructor
  · rintro ⟨x', hx, rfl, rfl⟩
    exact ⟨hx, Nat.mod_eq_of_lt (hfit x' hx)⟩
  · rintro ⟨hx, rfl⟩
    exact ⟨x, hx, rfl, Nat.mod_eq_of_lt (hfit x hx)⟩

theorem mem_gepImage {geps : List (Finset (Nat × Nat))} {off : Nat} {objects d : Finset Nat}
    (h : GepAdds geps off objects) (y : Nat) :
    y ∈ gepImage geps off d ↔ ∃ x ∈ d, x ∈ objects ∧ y = x + off := by
  unfold gepImage
  simp only [Finset.mem_image, Finset.mem_filter, Prod.exists]
  constructor
  · rintro ⟨x, z, ⟨hxz, hx⟩, rfl⟩
    obtain ⟨ho, rfl⟩ := (h x z).mp hxz
    exact ⟨x, hx, ho, rfl⟩
  · rintro ⟨x, hx, ho, rfl⟩
    exact ⟨x, x + off, ⟨(h x _).mpr ⟨ho, rfl⟩, hx⟩, rfl⟩

/-- Some object has more than `off` fields. -/
theorem TablesReady.nonempty {M : Module} {a b : Anders} (h : TablesReady M a b) {off : Nat}
    (hoff : off ∈ validOff a.constraints) : (b.offMask.getD off ∅).Nonempty := by
  obtain ⟨h0, C, hC, rfl⟩ := mem_validOff.mp hoff
  obtain ⟨i, hi, hlt⟩ := h.fit C hC h0
  exact ⟨i, (h.mask _ hoff i).mpr ⟨hi, hlt⟩⟩

/-- The sums stay inside the domain, so that addition never wraps. -/
theorem TablesReady.gepAdds {M : Module} {a b : Anders} (h : TablesReady M a b)
    (hblocks : a.BlocksFit) {off : Nat} (hoff : off ∈ validOff a.constraints) :
    GepAdds b.geps off (b.offMask.getD off ∅) ∧
      ∀ x ∈ b.offMask.getD off ∅, x + off ≤ a.lastObjNode ∧
        x + off < 2 ^ fddBits (a.lastObjNode + 1) := by
  have hin : ∀ x ∈ b.offMask.getD off ∅, x + off ≤ a.lastObjNode := by
    intro x hx
    obtain ⟨hle, hlt⟩ := (h.mask off hoff x).mp hx
    have := hblocks x hle
    omega
  have hbits : ∀ x ∈ b.offMask.getD off ∅, x + off < 2 ^ fddBits (a.lastObjNode + 1) := by
    intro x hx
    have := hin x hx
    have := le_two_pow_fddBits (a.lastObjNode + 1)
    omega
  refine ⟨fun x y => ?_, fun x hx => ⟨hin x hx, hbits x hx⟩⟩
  rw [h.geps off hoff]
  exact mem_gepFunction hbits x y

/-! ## What a GEP constraint adds -/

section

variable {W : Type} [Worklist W]

theorem pushIf_nodes {chg : Bool} {s s' : Solver W} {n : Nat} (h : pushIf chg s n = .ok s') :
    s'.nodes = s.nodes := by
  unfold pushIf pushNode at h
  split at h
  · obtain ⟨wl, -, h⟩ := bind_ok.mp h
    obtain rfl := Except.ok.inj h
    rfl
  · obtain rfl := Except.ok.inj h
    rfl

/-- The only node that a GEP constraint changes is its destination, and there it
adds the image of the new members, unless the constraint was seen before. -/
theorem solveGepCons_nodes {s : Solver W} {n : Nat} {d : Finset Nat} {seen : List Constraint}
    {cid : Nat} {C : Constraint} {t : Solver W × List Constraint × Bool}
    (hget : s.cplxCons[cid]? = some C) (h : solveGepCons s n d seen cid = .ok t) :
    t.1.nodes = if rewrite s.toAnders C ∈ seen then s.nodes
      else (s.addPts (s.rep C.dest) (gepImage s.geps C.off d)).nodes := by
  have hC : s.cplxCons.getD cid ⟨.gep, 0, 0, 0⟩ = C := by
    rw [List.getD_eq_getElem?_getD, hget, Option.getD_some]
  unfold solveGepCons at h
  dsimp only at h
  rw [hC] at h
  obtain ⟨-, h⟩ := inRange_bind_ok.mp h
  obtain ⟨-, h⟩ := require_bind_ok.mp h
  obtain ⟨-, h⟩ := require_bind_ok.mp h
  split at h
  · rename_i hseen
    rw [if_pos hseen]
    obtain rfl := Except.ok.inj h
    rfl
  · rename_i hseen
    rw [if_neg hseen]
    obtain ⟨-, h⟩ := require_bind_ok.mp h
    obtain ⟨s', hs', h⟩ := bind_ok.mp h
    obtain rfl := Except.ok.inj h
    exact (pushIf_nodes hs').trans rfl

end

/-- For object blocks inside the domain and offsets below the size of some
object, `ptsInit` can only stop at an external function with an object of
several nodes. Behind it, under every offset of the constraints, the mask holds
the object nodes of more than that size, the GEP function is addition on them
and does not leave the domain, and the solver's GEP constraints add exactly the
sums. -/
theorem ptsInit_gep_exact (W : Type) [Worklist W] [LawfulWorklist W] (M : Module) (a : Anders)
    (hblocks : a.BlocksFit) (hfit : a.OffsetsFit) :
    (∀ e, ptsInit M a = .error e → e = .assertion "N->obj_sz == 1") ∧
    ∀ b, ptsInit M a = .ok b → ∀ off ∈ validOff a.constraints,
      (∀ i, i ∈ b.offMask.getD off ∅ ↔ i ≤ a.lastObjNode ∧ off < (a.nodes i).objSz) ∧
      (∀ x y, (x, y) ∈ b.geps.getD off ∅ ↔
        (x ≤ a.lastObjNode ∧ off < (a.nodes x).objSz) ∧ y = x + off) ∧
      (∀ x, x ≤ a.lastObjNode ∧ off < (a.nodes x).objSz →
        x + off ≤ a.lastObjNode ∧ x + off < 2 ^ fddBits (a.lastObjNode + 1)) ∧
      ∀ (s : Solver W) (n : Nat) (d : Finset Nat) (seen : List Constraint) (cid : Nat)
        (C : Constraint), s.geps = b.geps → s.cplxCons[cid]? = some C → C.off = off →
        (∀ e, solveGepCons s n d seen cid = .error e → ¬ TableFault e) ∧
        ∀ t, solveGepCons s n d seen cid = .ok t →
          (∀ m, m ≠ s.rep C.dest → t.1.nodes m = s.nodes m) ∧
          ∀ y, y ∈ t.1.pts (s.rep C.dest) ↔ y ∈ s.pts (s.rep C.dest) ∨
            rewrite s.toAnders C ∉ seen ∧
              ∃ x ∈ d, (x ≤ a.lastObjNode ∧ off < (a.nodes x).objSz) ∧ y = x + off := by
  have hspec := ptsInit_spec M a
  constructor
  · intro e he
    rcases hspec.stop he with ⟨h, -⟩ | ⟨-, hno⟩
    · exact h
    · exact absurd hfit hno
  intro b hb off hoff
  have hready := hspec.result hb
  obtain ⟨hadds, hin⟩ := hready.gepAdds hblocks hoff
  have hmask := hready.mask off hoff
  have hrel : ∀ x y, (x, y) ∈ b.geps.getD off ∅ ↔
      (x ≤ a.lastObjNode ∧ off < (a.nodes x).objSz) ∧ y = x + off := by
    intro x y
    rw [hadds x y, hmask x]
  refine ⟨hmask, hrel, fun x hx => hin x ((hmask x).mpr hx), ?_⟩
  intro s n d seen cid C hgeps hget hCoff
  subst hCoff
  constructor
  · -- some object is bigger than the offset, so the entry is not empty
    obtain ⟨x, hx⟩ := hready.nonempty hoff
    have hne : b.geps.getD C.off ∅ ≠ ∅ :=
      Finset.Nonempty.ne_empty ⟨(x, x + C.off), (hadds x _).mpr ⟨hx, rfl⟩⟩
    have hstep := solveGepCons_step (M := M) permits_noFault n d seen cid s fun D hD _ => by
      obtain rfl := Option.some.inj (hget.symm.trans hD)
      rw [hgeps]
      exact .inl ⟨(hready.inside _ hoff).2, hne⟩
    exact fun e he => hstep.stop he
  · intro t ht
    have hnodes := solveGepCons_nodes hget ht
    rw [hgeps] at hnodes
    constructor
    · intro m hm
      rw [hnodes]
      split
      · rfl
      · simp [Solver.addPts, Solver.modify, Solver.onGraph, Graph.modify, hm]
    · intro y
      have hpts : y ∈ t.1.pts (s.rep C.dest) ↔ y ∈ s.pts (s.rep C.dest) ∨
          rewrite s.toAnders C ∉ seen ∧ y ∈ gepImage b.geps C.off d := by
        unfold Solver.pts
        rw [hnodes]
        split
        · rename_i hseen
          simp [hseen]
        · rename_i hseen
          simp [hseen, Solver.addPts, Solver.modify, Solver.onGraph, Graph.modify]
      rw [hpts, mem_gepImage hadds y]
      simp only [hmask]

/-- A structure of three fields at 3, the last two a structure of their own, and
pointers to its second and third field. -/
def fieldPointers : Anders :=
  .initial 9 5 (fun n => { objSz := if 3 ≤ n ∧ n ≤ 5 then 6 - n else 0 })
    [⟨.addrOf, 6, 3, 0⟩, ⟨.gep, 7, 6, 1⟩, ⟨.gep, 8, 6, 2⟩]

/-- Offset 1 leads to both fields behind another, offset 2 to the last one. -/
theorem ptsInit_gep_exact_fields :
    fieldPointers.BlocksFit ∧ fieldPointers.OffsetsFit ∧
    ∀ b, ptsInit (.uniform false) fieldPointers = .ok b →
      ((3, 4) ∈ b.geps.getD 1 ∅ ∧ (4, 5) ∈ b.geps.getD 1 ∅ ∧ (5, 6) ∉ b.geps.getD 1 ∅) ∧
      (3, 5) ∈ b.geps.getD 2 ∅ ∧ (4, 6) ∉ b.geps.getD 2 ∅ := by
  have hblocks : fieldPointers.BlocksFit := by
    unfold Anders.BlocksFit
    decide
  have hfit : fieldPointers.OffsetsFit := by
    intro C hC h0
    refine ⟨3, by decide, ?_⟩
    revert C
    decide
  refine ⟨hblocks, hfit, fun b hb => ?_⟩
  have hexact := (ptsInit_gep_exact (Lists true PrioHeap) _ _ hblocks hfit).2 b hb
  obtain ⟨-, h1, -⟩ := hexact 1 (by decide)
  obtain ⟨-, h2, -⟩ := hexact 2 (by decide)
  refine ⟨⟨(h1 3 4).mpr (by decide), (h1 4 5).mpr (by decide), ?_⟩, (h2 3 5).mpr (by decide), ?_⟩
  · rw [h1]
    decide
  · rw [h2]
    decide

end PtrAnalysis
