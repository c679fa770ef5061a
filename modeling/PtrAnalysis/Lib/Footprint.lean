import Mathlib.Data.Set.Basic
import Mathlib.Logic.Function.Basic

/-!
# Footprints

A state holds a table of optional entries. Code writes within a footprint if it changes no
entries but those it owns, and makes new ones only where it may. When steps run one after
the other and none owns an entry that an earlier one writes, every entry stays as it is
once it is there.
-/

namespace PtrAnalysis

section

variable {α β : Type} {own fresh : Set α} {m m' m'' : α → Option β}

/-- Only entries in `own` change, and there are new ones in `fresh`. -/
def Writes (own fresh : Set α) (m m' : α → Option β) : Prop :=
  ∀ a, m' a = m a ∨ a ∈ own ∨ m a = none ∧ a ∈ fresh

/-- What is entered stays. -/
def Stays (m m' : α → Option β) : Prop := ∀ a b, m a = some b → m' a = some b

theorem Writes.refl (m : α → Option β) : Writes own fresh m m := fun _ => .inl rfl

theorem Writes.of_eq (h : m' = m) : Writes own fresh m m' := fun _ => .inl (by rw [h])

theorem Writes.trans (h : Writes own fresh m m') (h' : Writes own fresh m' m'') :
    Writes own fresh m m'' := by
  intro a
  rcases h a with heq | hown | ⟨hnone, hfresh⟩
  · rcases h' a with heq' | hown' | ⟨hnone', hfresh'⟩
    · exact .inl (heq'.trans heq)
    · exact .inr (.inl hown')
    · exact .inr (.inr ⟨heq ▸ hnone', hfresh'⟩)
  · exact .inr (.inl hown)
  · exact .inr (.inr ⟨hnone, hfresh⟩)

theorem Writes.mono {own' fresh' : Set α} (h : Writes own fresh m m') (ho : own ⊆ own')
    (hf : fresh ⊆ fresh') : Writes own' fresh' m m' := fun a =>
  (h a).imp id (Or.imp (fun ha => ho ha) (And.imp id fun ha => hf ha))

section

variable [DecidableEq α]

theorem Writes.update {a : α} (ha : a ∈ own) (e : Option β) :
    Writes own fresh m (Function.update m a e) := by
  intro b
  by_cases hb : b = a
  · exact .inr (.inl (hb ▸ ha))
  · exact .inl (Function.update_of_ne hb _ _)

theorem Writes.enter {a : α} (hnone : m a = none) (ha : a ∈ fresh) (e : Option β) :
    Writes own fresh m (Function.update m a e) := by
  intro b
  by_cases hb : b = a
  · exact .inr (.inr ⟨hb ▸ hnone, hb ▸ ha⟩)
  · exact .inl (Function.update_of_ne hb _ _)

end

theorem Writes.none (h : Writes own fresh m m') {a : α} (hm : m a = none) (ho : a ∉ own)
    (hf : a ∉ fresh) : m' a = none := by
  rcases h a with heq | hown | ⟨-, hfresh⟩
  · rw [heq, hm]
  · exact absurd hown ho
  · exact absurd hfresh hf

/-- Nothing is lost if there was nothing yet where the code owns it. -/
theorem Writes.keeps (h : Writes own fresh m m') (hfree : ∀ a ∈ own, m a = .none) :
    Stays m m' := by
  intro a b hab
  rcases h a with heq | hown | ⟨hnone, -⟩
  · rw [heq, hab]
  · simp [hfree a hown] at hab
  · simp [hnone] at hab

theorem Stays.refl (m : α → Option β) : Stays m m := fun _ _ h => h

theorem Stays.trans (h : Stays m m') (h' : Stays m' m'') : Stays m m'' := fun a b hab =>
  h' a b (h a b hab)

end

/-! ## Steps one after the other -/

section

variable {σ κ α β : Type} {takes : κ → σ → σ → Prop} {table : σ → α → Option β}
  {own fresh : κ → Set α} {I : List κ → σ → Prop}

/-- The steps `l`, one after the other, lead from `s` to `s'`. -/
def Leads (takes : κ → σ → σ → Prop) : List κ → σ → σ → Prop
  | [], s, s' => s' = s
  | k :: l, s, s' => ∃ s1, takes k s s1 ∧ Leads takes l s1 s'

theorem leads_append {l l' : List κ} {s s'' : σ} :
    Leads takes (l ++ l') s s'' ↔ ∃ s', Leads takes l s s' ∧ Leads takes l' s' s'' := by
  induction l generalizing s with
  | nil => exact ⟨fun h => ⟨s, rfl, h⟩, fun ⟨_, hs, h⟩ => hs ▸ h⟩
  | cons k l ih =>
      constructor
      · rintro ⟨s1, hk, h⟩
        obtain ⟨s', hl, hl'⟩ := ih.mp h
        exact ⟨s', ⟨s1, hk, hl⟩, hl'⟩
      · rintro ⟨s', ⟨s1, hk, hl⟩, hl'⟩
        exact ⟨s1, hk, ih.mpr ⟨s', hl, hl'⟩⟩

/-- Before the steps `l` there is no entry that one of them owns; `I` may depend on the
steps that are left. -/
structure Ready (table : σ → α → Option β) (own : κ → Set α) (I : List κ → σ → Prop)
    (l : List κ) (s : σ) : Prop where
  inv : I l s
  free : ∀ k ∈ l, ∀ a ∈ own k, table s a = none

/-- What step `k` writes is not owned by `k'`. -/
def Spares (own fresh : κ → Set α) (k k' : κ) : Prop := ∀ a ∈ own k', a ∉ own k ∧ a ∉ fresh k

/-- A step keeps what is entered, and the table is ready for the rest. -/
theorem Ready.step {k : κ} {rest : List κ} {s s' : σ} (h : Ready table own I (k :: rest) s)
    (hspare : ∀ k' ∈ rest, Spares own fresh k k') (hI : I rest s')
    (hW : Writes (own k) (fresh k) (table s) (table s')) :
    Ready table own I rest s' ∧ Stays (table s) (table s') := by
  refine ⟨⟨hI, fun k' hk' a ha => ?_⟩, hW.keeps (h.free k (List.mem_cons_self ..))⟩
  obtain ⟨ho, hf⟩ := hspare k' hk' a ha
  exact hW.none (h.free k' (List.mem_cons_of_mem _ hk') a ha) ho hf

/-- The run lemma, for the steps `l` before the steps `rest`. -/
theorem Ready.steps {l rest : List κ} {s s' : σ} (h : Ready table own I (l ++ rest) s)
    (hspare : (l ++ rest).Pairwise (Spares own fresh))
    (hstep : ∀ k after s s', k :: after <:+ l ++ rest → I (k :: after) s → takes k s s' →
      I after s' ∧ Writes (own k) (fresh k) (table s) (table s'))
    (hrun : Leads takes l s s') : Ready table own I rest s' ∧ Stays (table s) (table s') := by
  induction l generalizing s with
  | nil =>
      obtain rfl : s' = s := hrun
      exact ⟨h, .refl _⟩
  | cons k l ih =>
      obtain ⟨s1, hk, hrun⟩ := hrun
      rw [List.cons_append] at h hspare hstep
      obtain ⟨hspareK, hspareL⟩ := List.pairwise_cons.mp hspare
      obtain ⟨hI, hW⟩ := hstep k _ s s1 (List.suffix_refl _) h.inv hk
      obtain ⟨h1, hkeep⟩ := h.step hspareK hI hW
      obtain ⟨h2, hkeep2⟩ := ih h1 hspareL (fun k' after s s' hsuf =>
        hstep k' after s s' (hsuf.trans (List.suffix_cons _ _))) hrun
      exact ⟨h2, hkeep.trans hkeep2⟩

end

end PtrAnalysis
