import PtrAnalysis.Factor
import PtrAnalysis.Hvn
import PtrAnalysis.Merge

/-!
# Rewriting a constraint system to representatives

An optimizer that merges nodes rewrites the constraints to representatives, and drops those
that say nothing any more. The least solution loses nothing by that, if what was dropped had
no effect and a load or store with offset still acts on the same objects. It gains nothing
either, if only nodes with equal sets were merged.
-/

namespace PtrAnalysis

namespace System

/-- Up to the sets of `r`, `C'` is `C`; the object whose address is taken stays the same. -/
structure Alike (r : Nat → Nat) (C C' : Constraint) : Prop where
  type : C'.type = C.type
  off : C'.off = C.off
  dest : r C'.dest = r C.dest
  src : r C'.src = r C.src
  addr : C.type = .addrOf → C'.src = C.src

/-- Nothing flows through `C`. -/
def Idle (S : System) (r : Nat → Nat) (C : Constraint) : Prop :=
  (∀ v, ¬ S.Flow r C.dest v) ∨ C.type ≠ .addrOf ∧ ∀ v, ¬ S.Flow r C.src v

/-- The system `T` over the sets of `r'` is what became of `S` over those of `r`. -/
structure Rewritten (S T : System) (r r' : Nat → Nat) : Prop where
  coarser : ∀ {x y}, r x = r y → r' x = r' y
  size : T.size = S.size
  func : T.func = S.func
  kept : ∀ {C}, S.cons C → S.Idle r C ∨ C.type = .copy ∧ r' C.src = r' C.dest ∨
    ∃ C', T.cons C' ∧ Alike r' C C' ∧ (S.tag C → T.tag C')
  origin : ∀ {C'}, T.cons C' → ∃ C, S.cons C ∧ Alike r' C C' ∧ (T.tag C' ↔ S.tag C)

/-- No constraint becomes equal to one of an indirect call. -/
def Apart (S T : System) (r' : Nat → Nat) : Prop :=
  ∀ {C C'}, S.cons C → T.cons C' → Alike r' C C' → C.off ≠ 0 → T.tag C' → S.tag C

variable {S T : System} {r r' : Nat → Nat}

namespace Rewritten

variable (h : S.Rewritten T r r')

include h

theorem acts {C C' : Constraint} (hC : Alike r' C C') (htag : C.off ≠ 0 → (T.tag C' ↔ S.tag C))
    {o : Nat} : T.Acts C' o ↔ S.Acts C o := by
  unfold Acts
  rw [hC.off, h.size, h.func]
  by_cases h0 : C.off = 0
  · simp only [h0, true_or]
  · rw [htag h0]

/-- Without indirect calls there is nothing to keep apart. -/
theorem apart (hno : ∀ C, ¬ S.tag C) : S.Apart T r' := fun _ hC' _ _ ht =>
  (h.origin hC').elim fun C hC => absurd (hC.2.2.mp ht) (hno C)

/-- Nothing is lost. -/
theorem sound (hapart : S.Apart T r') {n o : Nat} (hf : S.Flow r n o) : T.Flow r' n o := by
  have hacts : ∀ {C C' : Constraint} {o : Nat}, S.cons C → T.cons C' → Alike r' C C' →
      (S.tag C → T.tag C') → S.Acts C o → T.Acts C' o := fun hC hC' hal htag ha =>
    (h.acts hal fun h0 => ⟨hapart hC hC' hal h0, htag⟩).mpr ha
  refine (Flow.least (P := fun n o => S.Flow r n o ∧ T.Flow r' n o) ⟨?_, ?_, ?_, ?_, ?_, ?_⟩ hf).2
  · intro C hC ht
    have hd : S.Flow r C.dest C.src := .addr hC ht
    refine ⟨hd, ?_⟩
    rcases h.kept hC with (hi | hi) | hi | ⟨C', hC', hal, -⟩
    · exact absurd hd (hi _)
    · exact absurd ht hi.1
    · exact absurd (ht.symm.trans hi.1) (by simp)
    · have := Flow.addr (r := r') hC' (hal.type.trans ht)
      rw [hal.addr ht] at this
      exact .same hal.dest this
  · intro C o hC ht hs
    have hd : S.Flow r C.dest o := .copy hC ht hs.1
    refine ⟨hd, ?_⟩
    rcases h.kept hC with (hi | hi) | hi | ⟨C', hC', hal, -⟩
    · exact absurd hd (hi _)
    · exact absurd hs.1 (hi.2 _)
    · exact .same hi.2 hs.2
    · exact .same hal.dest (.copy hC' (hal.type.trans ht) (.same hal.src.symm hs.2))
  · intro C o x hC ht hs ha hx
    have hd : S.Flow r C.dest x := .load hC ht hs.1 ha hx.1
    refine ⟨hd, ?_⟩
    rcases h.kept hC with (hi | hi) | hi | ⟨C', hC', hal, htag⟩
    · exact absurd hd (hi _)
    · exact absurd hs.1 (hi.2 _)
    · exact absurd (ht.symm.trans hi.1) (by simp)
    · refine .same hal.dest (.load hC' (hal.type.trans ht) (.same hal.src.symm hs.2)
        (hacts hC hC' hal htag ha) ?_)
      rw [hal.off]
      exact hx.2
  · intro C o x hC ht hp ha hx
    refine ⟨.store hC ht hp.1 ha hx.1, ?_⟩
    rcases h.kept hC with (hi | hi) | hi | ⟨C', hC', hal, htag⟩
    · exact absurd hp.1 (hi _)
    · exact absurd hx.1 (hi.2 _)
    · exact absurd (ht.symm.trans hi.1) (by simp)
    · have := Flow.store hC' (hal.type.trans ht) (.same hal.dest.symm hp.2)
        (hacts hC hC' hal htag ha) (.same hal.src.symm hx.2)
      rwa [hal.off] at this
  · intro C o hC ht hs hlt
    have hd : S.Flow r C.dest (o + C.off) := .gep hC ht hs.1 hlt
    refine ⟨hd, ?_⟩
    rcases h.kept hC with (hi | hi) | hi | ⟨C', hC', hal, -⟩
    · exact absurd hd (hi _)
    · exact absurd hs.1 (hi.2 _)
    · exact absurd (ht.symm.trans hi.1) (by simp)
    · have := Flow.gep hC' (hal.type.trans ht) (.same hal.src.symm hs.2)
        (by rwa [hal.off, h.size])
      rw [hal.off] at this
      exact .same hal.dest this
  · exact fun hmn hm => ⟨.same hmn hm.1, .same (h.coarser hmn) hm.2⟩

/-- Nothing is gained. -/
theorem precise (hequal : ∀ {x y}, r' x = r' y → ∀ v, S.Flow r x v → S.Flow r y v) {n o : Nat}
    (hf : T.Flow r' n o) : S.Flow r n o := by
  refine Flow.least (P := fun n o => S.Flow r n o) ⟨?_, ?_, ?_, ?_, ?_, ?_⟩ hf
  · intro C' hC' ht
    obtain ⟨C, hC, hal, -⟩ := h.origin hC'
    have htC : C.type = .addrOf := hal.type.symm.trans ht
    rw [hal.addr htC]
    exact hequal hal.dest.symm _ (.addr hC htC)
  · intro C' o hC' ht hs
    obtain ⟨C, hC, hal, -⟩ := h.origin hC'
    exact hequal hal.dest.symm _ (.copy hC (hal.type.symm.trans ht) (hequal hal.src _ hs))
  · intro C' o x hC' ht hs ha hx
    obtain ⟨C, hC, hal, htag⟩ := h.origin hC'
    refine hequal hal.dest.symm _ (.load hC (hal.type.symm.trans ht) (hequal hal.src _ hs)
      ((h.acts hal fun _ => htag).mp ha) ?_)
    rwa [← hal.off]
  · intro C' o x hC' ht hp ha hx
    obtain ⟨C, hC, hal, htag⟩ := h.origin hC'
    rw [hal.off]
    exact .store hC (hal.type.symm.trans ht) (hequal hal.dest _ hp)
      ((h.acts hal fun _ => htag).mp ha) (hequal hal.src _ hx)
  · intro C' o hC' ht hs hlt
    obtain ⟨C, hC, hal, -⟩ := h.origin hC'
    rw [hal.off] at hlt ⊢
    exact hequal hal.dest.symm _ (.gep hC (hal.type.symm.trans ht) (hequal hal.src _ hs)
      (by rwa [← h.size]))
  · exact fun {m n o} hmn hm => hequal hmn o hm

end Rewritten

end System

/-! ## The lists of an optimizer -/

variable {b : Anders} {C : Constraint} {cs : List Constraint}

theorem rewriteCons_mem {C' : Constraint} :
    C' ∈ rewriteCons b cs C ↔ C' ∈ cs ∨ keepCons cs (repCons b C) = true ∧ C' = repCons b C := by
  unfold rewriteCons
  split
  · rename_i hk
    rw [List.mem_append, List.mem_singleton, and_iff_right hk]
  · rename_i hk
    exact (or_iff_left fun h => hk h.1).symm

/-- A list of rewritten constraints has them all, but the copies of a node to itself. -/
theorem mem_rewrites {C' : Constraint} : ∀ {acc : List Constraint},
    C' ∈ cs.foldl (rewriteCons b) acc ↔ C' ∈ acc ∨
      (C'.type ≠ .copy ∨ C'.dest ≠ C'.src) ∧ ∃ C ∈ cs, C' = repCons b C := by
  induction cs with
  | nil => simp
  | cons C cs ih =>
      intro acc
      rw [List.foldl_cons, ih, rewriteCons_mem, List.exists_mem_cons_iff, keepCons,
        decide_eq_true_iff]
      constructor
      · rintro ((hacc | ⟨⟨hloop, -⟩, heq⟩) | ⟨hloop, hmem⟩)
        · exact .inl hacc
        · exact .inr ⟨heq ▸ hloop, .inl heq⟩
        · exact .inr ⟨hloop, .inr hmem⟩
      · rintro (hacc | ⟨hloop, heq | hmem⟩)
        · exact .inl (.inl hacc)
        · by_cases hacc : C' ∈ acc
          · exact .inl (.inl hacc)
          · exact .inl (.inr ⟨heq ▸ ⟨hloop, hacc⟩, heq⟩)
        · exact .inr ⟨hloop, hmem⟩

theorem IcallCons.tagged_iff (m : IcallCons) : m.Tagged C ↔ ∃ e ∈ m, e.1 = C := by
  unfold Tagged IcallCons.find
  rw [← not_iff_not, Option.not_isSome_iff_eq_none, lookup_none_iff]
  simp only [not_exists, not_and]

theorem IcallCons.not_tagged_nil (C : Constraint) : ¬ IcallCons.Tagged [] C := by
  simp [Tagged, IcallCons.find]

/-- Only loads and stores of the list belong to indirect calls. -/
def Anders.CallsListed (a : Anders) : Prop :=
  ∀ C, a.icallCons.Tagged C → C ∈ a.constraints ∧ (C.type = .load ∨ C.type = .store)

/-- The constraints `cs` and the calls `ls`, rewritten to the representatives of `b`. -/
def Anders.rewrite (b : Anders) (cs : List Constraint) (ls : IcallCons) : Anders :=
  { b with
    constraints := cs.foldl (rewriteCons b) []
    icallCons := ls.foldl (rewriteIcall b) [] }

section

variable {a : Anders} {func : Nat → Prop} {ls : IcallCons}

theorem tagged_rewrite (hls : ∀ e ∈ ls, e.1.type ≠ .addrOf) :
    (b.rewrite cs ls).icallCons.Tagged C ↔ ∃ e ∈ ls, repCons b e.1 = C := by
  have hmove := (IcallCons.find_move (fun D => { D with dest := b.rep D.dest, src := b.rep D.src })
    ls [] C).1
  refine hmove.trans ?_
  constructor
  · rintro (h | ⟨e, he, heq⟩)
    · exact absurd h (by simp [IcallCons.find])
    · refine ⟨e, he, ?_⟩
      rw [← heq, repCons, if_neg (hls e he)]
  · rintro ⟨e, he, heq⟩
    refine .inr ⟨e, he, ?_⟩
    rw [← heq, repCons, if_neg (hls e he)]

theorem repCons_alike (b : Anders) (C : Constraint) : System.Alike b.rep C (repCons b C) := by
  refine ⟨rfl, rfl, b.toGraph.rep_rep _, ?_, fun ht => if_pos ht⟩
  unfold repCons
  dsimp only
  split
  · rfl
  · exact b.toGraph.rep_rep _

/-- Constraints through which nothing flows may be dropped, the others are rewritten. -/
theorem Anders.rewritten (hcoarser : ∀ {x y}, a.rep x = a.rep y → b.rep x = b.rep y)
    (hsz : ∀ n, (b.nodes n).objSz = (a.nodes n).objSz) (hcalls : a.CallsListed)
    (hsub : ∀ C ∈ cs, C ∈ a.constraints) (hlsub : ∀ e ∈ ls, e ∈ a.icallCons)
    (hkeep : ∀ e ∈ a.icallCons, e.1 ∈ cs → e ∈ ls)
    (hdrop : ∀ C ∈ a.constraints, C ∈ cs ∨ (a.system func).Idle a.rep C) :
    (a.system func).Rewritten ((b.rewrite cs ls).system func) a.rep b.rep := by
  have htype : ∀ e ∈ ls, e.1 ∈ a.constraints ∧ (e.1.type = .load ∨ e.1.type = .store) :=
    fun e he => hcalls e.1 (a.icallCons.tagged_iff.mpr ⟨e, hlsub e he, rfl⟩)
  have htagged : ∀ C, (b.rewrite cs ls).icallCons.Tagged C ↔ ∃ e ∈ ls, repCons b e.1 = C :=
    fun C => tagged_rewrite fun e he => by rcases (htype e he).2 with h | h <;> simp [h]
  have hrep : ∀ {C}, C ∈ cs → a.icallCons.Tagged C →
      (b.rewrite cs ls).icallCons.Tagged (repCons b C) := fun {C} hC ht => by
    obtain ⟨e, he, heq⟩ := a.icallCons.tagged_iff.mp ht
    exact (htagged _).mpr ⟨e, hkeep e he (heq ▸ hC), by rw [heq]⟩
  refine ⟨hcoarser, funext hsz, rfl, fun {C} hC => ?_, fun {C'} hC' => ?_⟩
  · rcases hdrop C hC with hcs | hidle
    · by_cases hloop : (repCons b C).type = .copy ∧ (repCons b C).dest = (repCons b C).src
      · refine .inr (.inl ⟨hloop.1, ?_⟩)
        have hne : C.type ≠ .addrOf := fun h => by simp [repCons, h] at hloop
        have hds := hloop.2
        rw [repCons, if_neg hne] at hds
        exact hds.symm
      · refine .inr (.inr ⟨repCons b C, mem_rewrites.mpr (.inr ⟨by tauto, C, hcs, rfl⟩),
          repCons_alike b C, fun ht => hrep hcs ht⟩)
    · exact .inl hidle
  · obtain ⟨-, C, hcs, rfl⟩ := (mem_rewrites.mp hC').resolve_left List.not_mem_nil
    by_cases ht : ((b.rewrite cs ls).system func).tag (repCons b C)
    · obtain ⟨e, he, heq⟩ := (htagged _).mp ht
      refine ⟨e.1, (htype e he).1, heq ▸ repCons_alike b e.1, iff_of_true ht ?_⟩
      exact a.icallCons.tagged_iff.mpr ⟨e, hlsub e he, rfl⟩
    · refine ⟨C, hsub C hcs, repCons_alike b C, iff_of_false ht fun hS => ht (hrep hcs hS)⟩

theorem Anders.CallsListed.rewrite (hcalls : a.CallsListed) (hlsub : ∀ e ∈ ls, e ∈ a.icallCons)
    (hkeep : ∀ e ∈ ls, e.1 ∈ cs) : (b.rewrite cs ls).CallsListed := by
  have htype : ∀ e ∈ ls, e.1.type = .load ∨ e.1.type = .store := fun e he =>
    (hcalls e.1 (a.icallCons.tagged_iff.mpr ⟨e, hlsub e he, rfl⟩)).2
  intro C hC
  obtain ⟨e, he, rfl⟩ := (tagged_rewrite fun e he => by
    rcases htype e he with h | h <;> simp [h]).mp hC
  refine ⟨mem_rewrites.mpr (.inr ⟨.inl ?_, e.1, hkeep e he, rfl⟩), htype e he⟩
  change e.1.type ≠ .copy
  rcases htype e he with h | h <;> simp [h]

end

end PtrAnalysis
