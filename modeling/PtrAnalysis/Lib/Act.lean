import Mathlib.Order.Defs.Unbundled
import PtrAnalysis.Lib.Run

/-!
# Programs with a state

`Act σ` is imperative code over a state `σ` that can stop. `Wp x Q s` says that `x`,
started in `s`, either stops or returns with `Q`: partial correctness, computed from
the code by the simp lemmas here. `Runs R x` says that `x` takes every state to one
that `R` relates it to; for a preorder `R` this composes, so a fact about all of a
program's states needs one lemma for each operation.
-/

namespace PtrAnalysis

open Run

/-- Code over a state `σ`. -/
abbrev Act (σ : Type) := StateT σ Run

namespace Act

variable {σ α β : Type}

/-- A run of `x` from `s` stops or returns a value and a state with `Q`. -/
def Wp (x : Act σ α) (Q : α → σ → Prop) (s : σ) : Prop :=
  Spec (x s) (fun t => Q t.1 t.2) fun _ => True

/-! ## Weakest preconditions -/

section

variable {Q Q' : α → σ → Prop} {s : σ}

theorem wp_iff {x : Act σ α} : Wp x Q s ↔ ∀ a s', x s = .ok (a, s') → Q a s' := by
  unfold Wp Spec
  cases x s with
  | error e => simp
  | ok t =>
      constructor
      · rintro h a s' ⟨rfl⟩
        exact h
      · exact fun h => h t.1 t.2 rfl

theorem Wp.result {x : Act σ α} (h : Wp x Q s) {a : α} {s' : σ} (hx : x s = .ok (a, s')) :
    Q a s' :=
  wp_iff.mp h a s' hx

theorem Wp.imp {x : Act σ α} (h : Wp x Q s) (hQ : ∀ a s', Q a s' → Q' a s') : Wp x Q' s :=
  wp_iff.mpr fun a s' hx => hQ a s' (h.result hx)

theorem Wp.and {x : Act σ α} (h : Wp x Q s) (h' : Wp x Q' s) :
    Wp x (fun a s' => Q a s' ∧ Q' a s') s :=
  wp_iff.mpr fun _ _ hx => ⟨h.result hx, h'.result hx⟩

theorem wp_true {x : Act σ α} : Wp x (fun _ _ => True) s := wp_iff.mpr fun _ _ _ => trivial

@[simp] theorem wp_pure {a : α} : Wp (pure a : Act σ α) Q s ↔ Q a s := Iff.rfl

@[simp] theorem wp_bind {x : Act σ β} {f : β → Act σ α} :
    Wp (x >>= f) Q s ↔ Wp x (fun b s' => Wp (f b) Q s') s := by
  unfold Wp
  change Spec ((x s) >>= fun t => f t.1 t.2) _ _ ↔ _
  cases x s with
  | error e => rfl
  | ok t => rfl

@[simp] theorem wp_get {Q : σ → σ → Prop} : Wp (get : Act σ σ) Q s ↔ Q s s := Iff.rfl

@[simp] theorem wp_modify {Q : Unit → σ → Prop} {f : σ → σ} :
    Wp (modify f : Act σ Unit) Q s ↔ Q () (f s) := Iff.rfl

/-- Code that does not touch the state. -/
@[simp] theorem wp_lift {x : Run α} :
    Wp (liftM x : Act σ α) Q s ↔ ∀ a, x = .ok a → Q a s := by
  unfold Wp
  change Spec (x >>= fun a => .ok (a, s)) _ _ ↔ _
  cases x with
  | error e => simp [Spec, bind, Except.bind]
  | ok a => simp [Spec, bind, Except.bind]

@[simp] theorem wp_throw {e : Stop} : Wp (throw e : Act σ α) Q s ↔ True := Iff.rfl

@[simp] theorem wp_ite {p : Prop} [Decidable p] {x y : Act σ α} :
    Wp (if p then x else y) Q s ↔ (p → Wp x Q s) ∧ (¬ p → Wp y Q s) := by
  split <;> simp_all

end

/-- The loop rule: an invariant that each pass keeps. -/
theorem wp_foldlM {f : β → α → Act σ β} {l : List α} (Inv : β → σ → Prop) {b : β} {s : σ}
    (h0 : Inv b s) (hstep : ∀ a ∈ l, ∀ b s, Inv b s → Wp (f b a) Inv s) :
    Wp (l.foldlM f b) Inv s := by
  induction l generalizing b s with
  | nil => exact h0
  | cons a l ih =>
      rw [List.foldlM_cons, wp_bind]
      exact (hstep a (List.mem_cons_self ..) b s h0).imp fun b' s' h =>
        ih h fun a' ha' => hstep a' (List.mem_cons_of_mem _ ha')

/-- The loop rule for an invariant that depends on the elements passed so far. -/
theorem wp_foldlM_done {f : β → α → Act σ β} {l : List α} (Inv : List α → β → σ → Prop) {b : β}
    {s : σ} (h0 : Inv [] b s) (hstep : ∀ done a rest b s, l = done ++ a :: rest → Inv done b s →
      Wp (f b a) (Inv (done ++ [a])) s) : Wp (l.foldlM f b) (Inv l) s := by
  have hloop : ∀ rest done b s, l = done ++ rest → Inv done b s →
      Wp (rest.foldlM f b) (Inv l) s := by
    intro rest
    induction rest with
    | nil =>
        intro done b s hl h
        rw [List.append_nil] at hl
        exact hl ▸ h
    | cons a rest ih =>
        intro done b s hl h
        rw [List.foldlM_cons, wp_bind]
        exact (hstep done a rest b s hl h).imp fun b' s' h' => ih _ b' s' (by simp [hl]) h'
  exact hloop l [] b s rfl h0

/-! ## Total correctness -/

/-- The run of `x` from `s` returns, with `Q`. -/
def Ends (x : Act σ α) (Q : α → σ → Prop) (s : σ) : Prop :=
  ∃ a s', x s = .ok (a, s') ∧ Q a s'

section

variable {Q Q' : α → σ → Prop} {s : σ}

theorem Ends.wp {x : Act σ α} (h : Ends x Q s) : Wp x Q s := by
  obtain ⟨a, s', hx, hQ⟩ := h
  refine wp_iff.mpr fun b s'' hx' => ?_
  cases hx.symm.trans hx'
  exact hQ

theorem Ends.imp {x : Act σ α} (h : Ends x Q s) (hQ : ∀ a s', Q a s' → Q' a s') : Ends x Q' s := by
  obtain ⟨a, s', hx, h⟩ := h
  exact ⟨a, s', hx, hQ a s' h⟩

@[simp] theorem ends_pure {a : α} : Ends (pure a : Act σ α) Q s ↔ Q a s := by
  constructor
  · rintro ⟨_, _, ⟨rfl⟩, h⟩
    exact h
  · exact fun h => ⟨a, s, rfl, h⟩

@[simp] theorem ends_bind {x : Act σ β} {f : β → Act σ α} :
    Ends (x >>= f) Q s ↔ Ends x (fun b s' => Ends (f b) Q s') s := by
  unfold Ends
  change (∃ a s', ((x s) >>= fun t => f t.1 t.2) = .ok (a, s') ∧ _) ↔ _
  cases x s with
  | error e => simp [bind, Except.bind]
  | ok t => simp [bind, Except.bind, Prod.ext_iff]

@[simp] theorem ends_get {Q : σ → σ → Prop} : Ends (get : Act σ σ) Q s ↔ Q s s := ends_pure

@[simp] theorem ends_modify {Q : Unit → σ → Prop} {f : σ → σ} :
    Ends (modify f : Act σ Unit) Q s ↔ Q () (f s) := by
  constructor
  · rintro ⟨_, _, ⟨rfl⟩, h⟩
    exact h
  · exact fun h => ⟨(), f s, rfl, h⟩

@[simp] theorem ends_lift {x : Run α} :
    Ends (liftM x : Act σ α) Q s ↔ ∃ a, x = .ok a ∧ Q a s := by
  unfold Ends
  change (∃ a s', (x >>= fun a => .ok (a, s)) = .ok (a, s') ∧ _) ↔ _
  cases x with
  | error e => simp [bind, Except.bind]
  | ok a => simp [bind, Except.bind]

@[simp] theorem ends_ite {p : Prop} [Decidable p] {x y : Act σ α} :
    Ends (if p then x else y) Q s ↔ (p → Ends x Q s) ∧ (¬ p → Ends y Q s) := by
  split <;> simp_all

end

/-- Code that returns and never returns without `Q`. -/
theorem Wp.ends {x : Act σ α} {Q Q' : α → σ → Prop} {s : σ} (h : Wp x Q s) (hx : Ends x Q' s) :
    Ends x Q s := by
  obtain ⟨a, s', hrun, -⟩ := hx
  exact ⟨a, s', hrun, h.result hrun⟩

theorem ends_foldlM_done {f : β → α → Act σ β} {l : List α} (Inv : List α → β → σ → Prop) {b : β}
    {s : σ} (h0 : Inv [] b s) (hstep : ∀ done a rest b s, l = done ++ a :: rest → Inv done b s →
      Ends (f b a) (Inv (done ++ [a])) s) : Ends (l.foldlM f b) (Inv l) s := by
  have hloop : ∀ rest done b s, l = done ++ rest → Inv done b s →
      Ends (rest.foldlM f b) (Inv l) s := by
    intro rest
    induction rest with
    | nil =>
        intro done b s hl h
        rw [List.append_nil] at hl
        rw [List.foldlM_nil, ends_pure]
        exact hl ▸ h
    | cons a rest ih =>
        intro done b s hl h
        rw [List.foldlM_cons, ends_bind]
        exact (hstep done a rest b s hl h).imp fun b' s' h' => ih _ b' s' (by simp [hl]) h'
  exact hloop l [] b s rfl h0

/-- A loop of tests that leave the state alone. -/
theorem ends_checks {f : α → Act σ Unit} {p : α → Prop} {l : List α}
    (hf : ∀ a (Q : Unit → σ → Prop) s, Ends (f a) Q s ↔ p a ∧ Q () s) {Q : Unit → σ → Prop}
    {s : σ} : Ends (l.forM f) Q s ↔ (∀ a ∈ l, p a) ∧ Q () s := by
  induction l generalizing s with
  | nil =>
      change Ends (pure ()) Q s ↔ _
      simp
  | cons a l ih =>
      change Ends (f a >>= fun _ => l.forM f) Q s ↔ _
      rw [ends_bind, hf, ih, List.forall_mem_cons, and_assoc]

/-! ## Code that does not run out of fuel -/

/-- The run of `x` from `s` comes to an end, and if it returns, with `Q`. -/
def Halts (x : Act σ α) (Q : α → σ → Prop) (s : σ) : Prop :=
  Spec (x s) (fun t => Q t.1 t.2) (· ≠ .fuel)

section

variable {Q Q' : α → σ → Prop} {s : σ}

theorem Halts.imp {x : Act σ α} (h : Halts x Q s) (hQ : ∀ a s', Q a s' → Q' a s') :
    Halts x Q' s :=
  Spec.imp h fun t => hQ t.1 t.2

/-- Code that comes to an end and never returns without `Q'`. -/
theorem Halts.and_wp {x : Act σ α} (h : Halts x Q s) (hx : Wp x Q' s) :
    Halts x (fun a s' => Q a s' ∧ Q' a s') s :=
  Spec.and_ok h fun t ht => wp_iff.mp hx t.1 t.2 ht

theorem Halts.wp {x : Act σ α} (h : Halts x Q s) : Wp x Q s := Spec.stops h fun _ _ => trivial

@[simp] theorem halts_pure {a : α} : Halts (pure a : Act σ α) Q s ↔ Q a s := Iff.rfl

@[simp] theorem halts_bind {x : Act σ β} {f : β → Act σ α} :
    Halts (x >>= f) Q s ↔ Halts x (fun b s' => Halts (f b) Q s') s := by
  unfold Halts
  change Spec ((x s) >>= fun t => f t.1 t.2) _ _ ↔ _
  cases x s with
  | error e => rfl
  | ok t => rfl

@[simp] theorem halts_get {Q : σ → σ → Prop} : Halts (get : Act σ σ) Q s ↔ Q s s := Iff.rfl

@[simp] theorem halts_modify {Q : Unit → σ → Prop} {f : σ → σ} :
    Halts (modify f : Act σ Unit) Q s ↔ Q () (f s) := Iff.rfl

@[simp] theorem halts_lift {x : Run α} :
    Halts (liftM x : Act σ α) Q s ↔ Spec x (fun a => Q a s) (· ≠ .fuel) := by
  unfold Halts
  change Spec (x >>= fun a => .ok (a, s)) _ _ ↔ _
  cases x with
  | error e => rfl
  | ok a => rfl

theorem halts_throw {e : Stop} (h : e ≠ .fuel) : Halts (throw e : Act σ α) Q s := h

@[simp] theorem halts_ite {p : Prop} [Decidable p] {x y : Act σ α} :
    Halts (if p then x else y) Q s ↔ (p → Halts x Q s) ∧ (¬ p → Halts y Q s) := by
  split <;> simp_all

end

theorem halts_foldlM_done {f : β → α → Act σ β} {l : List α} (Inv : List α → β → σ → Prop) {b : β}
    {s : σ} (h0 : Inv [] b s) (hstep : ∀ done a rest b s, l = done ++ a :: rest → Inv done b s →
      Halts (f b a) (Inv (done ++ [a])) s) : Halts (l.foldlM f b) (Inv l) s := by
  have hloop : ∀ rest done b s, l = done ++ rest → Inv done b s →
      Halts (rest.foldlM f b) (Inv l) s := by
    intro rest
    induction rest with
    | nil =>
        intro done b s hl h
        rw [List.append_nil] at hl
        rw [List.foldlM_nil, halts_pure]
        exact hl ▸ h
    | cons a rest ih =>
        intro done b s hl h
        rw [List.foldlM_cons, halts_bind]
        exact (hstep done a rest b s hl h).imp fun b' s' h' => ih _ b' s' (by simp [hl]) h'
  exact hloop l [] b s rfl h0

/-- A loop that only has a state. -/
theorem halts_forM_done {f : α → Act σ Unit} {l : List α} (Inv : List α → σ → Prop)
    {s : σ} (h0 : Inv [] s) (hstep : ∀ done a rest s, l = done ++ a :: rest → Inv done s →
      Halts (f a) (fun _ => Inv (done ++ [a])) s) : Halts (l.forM f) (fun _ => Inv l) s := by
  have hloop : ∀ rest done s, l = done ++ rest → Inv done s →
      Halts (rest.forM f) (fun _ => Inv l) s := by
    intro rest
    induction rest with
    | nil =>
        intro done s hl h
        rw [List.append_nil] at hl
        exact hl ▸ h
    | cons a rest ih =>
        intro done s hl h
        change Halts (f a >>= fun _ => rest.forM f) _ s
        rw [halts_bind]
        exact (hstep done a rest s hl h).imp fun _ s' h' => ih _ s' (by simp [hl]) h'
  exact hloop l [] s rfl h0

/-! ## Relations between the states before and after -/

/-- Every run of `x` takes a state to one it is related to. -/
def Runs (R : σ → σ → Prop) (x : Act σ α) : Prop := ∀ s, Wp x (fun _ s' => R s s') s

section

variable {R : σ → σ → Prop}

theorem Runs.result {x : Act σ α} (h : Runs R x) {s s' : σ} {a : α} (hx : x s = .ok (a, s')) :
    R s s' :=
  (h s).result hx

theorem Runs.wp {x : Act σ α} (h : Runs R x) (s : σ) : Wp x (fun _ s' => R s s') s := h s

theorem Runs.modify {f : σ → σ} (h : ∀ s, R s (f s)) : Runs R (modify f : Act σ Unit) := h

theorem Runs.ite {p : Prop} [Decidable p] {x y : Act σ α} (hx : Runs R x) (hy : Runs R y) :
    Runs R (if p then x else y) := by
  split
  · exact hx
  · exact hy

theorem Runs.throw (e : Stop) : Runs R (throw e : Act σ α) := fun _ => trivial

variable [IsPreorder σ R]

theorem Runs.pure (a : α) : Runs R (pure a : Act σ α) := fun s => refl s

theorem Runs.get : Runs R (get : Act σ σ) := fun s => refl s

theorem Runs.lift (x : Run α) : Runs R (liftM x : Act σ α) := fun s =>
  wp_lift.mpr fun _ _ => refl s

theorem Runs.bind {x : Act σ α} {f : α → Act σ β} (hx : Runs R x) (hf : ∀ a, Runs R (f a)) :
    Runs R (x >>= f) := fun s => by
  rw [wp_bind]
  exact (hx s).imp fun a s' h => (hf a s').imp fun b s'' h' => IsTrans.trans _ _ _ h h'

/-- A loop whose passes are all related. -/
theorem Runs.foldlM {f : β → α → Act σ β} {l : List α} (b : β)
    (hf : ∀ a ∈ l, ∀ b, Runs R (f b a)) : Runs R (l.foldlM f b) := by
  induction l generalizing b with
  | nil => exact .pure b
  | cons a l ih =>
      rw [List.foldlM_cons]
      exact .bind (hf a (List.mem_cons_self ..) b) fun b' =>
        ih b' fun a' ha' => hf a' (List.mem_cons_of_mem _ ha')

theorem Runs.forM {f : α → Act σ Unit} {l : List α} (hf : ∀ a ∈ l, Runs R (f a)) :
    Runs R (l.forM f) := by
  induction l with
  | nil => exact .pure ()
  | cons a l ih =>
      change Runs R (f a >>= fun _ => l.forM f)
      exact .bind (hf a (List.mem_cons_self ..)) fun _ =>
        ih fun a' ha' => hf a' (List.mem_cons_of_mem _ ha')

end

/-- A property that is kept, as a relation. -/
def Keeping (I : σ → Prop) (s s' : σ) : Prop := I s → I s'

instance (I : σ → Prop) : IsPreorder σ (Keeping I) where
  refl _ := id
  trans _ _ _ h h' := h' ∘ h

end Act

end PtrAnalysis
