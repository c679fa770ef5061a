import Mathlib.Data.Multiset.Basic

/-!
# Programs that can stop

A run of an imperative function either returns a value or stops: a failed
assertion, an index outside its vector, or - a device of the model only -
exhausted recursion fuel. `Run` is the exception monad over these reasons.

The rules below are the only way later proofs look inside a computation. The
`…_ok` rules invert a successful one. `Spec x Q E` says what `x` returns and for
which reasons it may stop instead: with `E` everything this is partial
correctness, with `E` everything but missing fuel it is termination, and `E` can
as well rule out some assertion or some vector access.
-/

namespace PtrAnalysis

/-- Why a computation stopped before returning. -/
inductive Stop where
  | assertion (text : String)
  | outOfRange (vec : String)
  | fuel
  deriving DecidableEq, Repr

theorem Stop.assertion_ne_fuel {text : String} : Stop.assertion text ≠ .fuel := by simp

theorem Stop.outOfRange_ne_fuel {vec : String} : Stop.outOfRange vec ≠ .fuel := by simp

abbrev Run (α : Type) := Except Stop α

namespace Run

variable {α β : Type}

/-- The `assert` of the source: `text` is what it prints. -/
def require (p : Prop) [Decidable p] (text : String) : Run Unit :=
  if p then .ok () else .error (.assertion text)

/-- An unchecked vector access, `p` saying that the index is inside. -/
def inRange (p : Prop) [Decidable p] (vec : String) : Run Unit :=
  if p then .ok () else .error (.outOfRange vec)

/-! ## Successful computations -/

@[simp] theorem pure_eq (a : α) : (pure a : Run α) = .ok a := rfl

theorem bind_ok {x : Run α} {f : α → Run β} {b : β} :
    (x >>= f) = .ok b ↔ ∃ a, x = .ok a ∧ f a = .ok b := by
  cases x with
  | error e => simp [bind, Except.bind]
  | ok a => simp [bind, Except.bind]

/-- What stops a computation whose last step is a `return` stopped its first. -/
theorem bind_ok_error {x : Run α} {g : α → β} {e : Stop}
    (h : (x >>= fun a => .ok (g a)) = .error e) : x = .error e := by
  cases x with
  | error e' => simpa [bind, Except.bind] using h
  | ok a => cases h

/-- A run that passes a test returns. -/
theorem any_ok {x : Run α} {p : α → Bool} (h : x.toOption.any p = true) :
    ∃ a, x = .ok a ∧ p a = true := by
  cases x with
  | error e => cases h
  | ok a => exact ⟨a, rfl, h⟩

@[simp] theorem require_ok {p : Prop} [Decidable p] {text : String} {u : Unit} :
    require p text = .ok u ↔ p := by
  unfold require
  split <;> simp_all

@[simp] theorem inRange_ok {p : Prop} [Decidable p] {vec : String} {u : Unit} :
    inRange p vec = .ok u ↔ p := by
  unfold inRange
  split <;> simp_all

theorem require_bind_ok {p : Prop} [Decidable p] {text : String}
    {f : Unit → Run β} {b : β} :
    (require p text >>= f) = .ok b ↔ p ∧ f () = .ok b := by
  rw [bind_ok]
  constructor
  · rintro ⟨u, hu, hb⟩
    exact ⟨require_ok.mp hu, hb⟩
  · rintro ⟨hp, hb⟩
    exact ⟨(), require_ok.mpr hp, hb⟩

theorem inRange_bind_ok {p : Prop} [Decidable p] {vec : String}
    {f : Unit → Run β} {b : β} :
    (inRange p vec >>= f) = .ok b ↔ p ∧ f () = .ok b := by
  rw [bind_ok]
  constructor
  · rintro ⟨u, hu, hb⟩
    exact ⟨inRange_ok.mp hu, hb⟩
  · rintro ⟨hp, hb⟩
    exact ⟨(), inRange_ok.mpr hp, hb⟩

/-! ## Loops -/

theorem foldlM_nil_ok {f : β → α → Run β} {b b' : β} :
    List.foldlM f b [] = (.ok b' : Run β) ↔ b = b' := by
  simp

theorem foldlM_cons_ok {f : β → α → Run β} {b b' : β} {a : α} {l : List α} :
    List.foldlM f b (a :: l) = .ok b' ↔
      ∃ b1, f b a = .ok b1 ∧ List.foldlM f b1 l = .ok b' := by
  rw [List.foldlM_cons, bind_ok]

/-- The loop rule: an invariant that may mention the elements already
processed and is kept by each pass of the loop body. -/
theorem foldlM_inv {f : β → α → Run β} (Inv : List α → β → Prop) :
    ∀ {l : List α} {b b' : β}, List.foldlM f b l = .ok b' → Inv [] b →
      (∀ done a rest b1 b2, l = done ++ a :: rest → Inv done b1 →
        f b1 a = .ok b2 → Inv (done ++ [a]) b2) →
      Inv l b' := by
  intro l
  induction l generalizing Inv with
  | nil =>
      intro b b' h h0 _
      rwa [foldlM_nil_ok.mp h] at h0
  | cons a l ih =>
      intro b b' h h0 hstep
      obtain ⟨b1, hb1, hl⟩ := foldlM_cons_ok.mp h
      refine ih (fun done c => Inv (a :: done) c) hl ?_ ?_
      · simpa using hstep [] a l b b1 rfl h0 hb1
      · intro done c rest c1 c2 hl' hc hf
        exact hstep (a :: done) c rest c1 c2 (by rw [hl']; rfl) hc hf

/-- The loop rule for an invariant that does not look at the elements. -/
theorem foldlM_keeps {f : β → α → Run β} {P : β → Prop} {l : List α} {b b' : β}
    (h : List.foldlM f b l = .ok b') (h0 : P b)
    (hstep : ∀ a ∈ l, ∀ b1 b2, P b1 → f b1 a = .ok b2 → P b2) : P b' :=
  foldlM_inv (fun _ c => P c) h h0 fun done a rest b1 b2 hl hb hf =>
    hstep a (by simp [hl]) b1 b2 hb hf

/-! ## Specifications -/

/-- `x` returns a value with property `Q`, or stops for a reason in `E`. -/
def Spec (x : Run α) (Q : α → Prop) (E : Stop → Prop) : Prop :=
  match x with
  | .ok a => Q a
  | .error e => E e

section Spec

variable {Q Q' : α → Prop} {R : β → Prop} {E E' : Stop → Prop}

theorem spec_ok {a : α} (h : Q a) : Spec (.ok a) Q E := h

theorem spec_true (x : Run α) : Spec x (fun _ => True) fun _ => True := by
  cases x <;> trivial

theorem Spec.result {x : Run α} (hs : Spec x Q E) {a : α} (h : x = .ok a) : Q a := by
  rw [h] at hs
  exact hs

theorem Spec.stop {x : Run α} (hs : Spec x Q E) {e : Stop} (h : x = .error e) : E e := by
  rw [h] at hs
  exact hs

theorem Spec.imp {x : Run α} (hs : Spec x Q E) (h : ∀ a, Q a → Q' a) : Spec x Q' E := by
  cases x with
  | error e => exact hs
  | ok a => exact h a hs

theorem Spec.stops {x : Run α} (hs : Spec x Q E) (h : ∀ e, E e → E' e) : Spec x Q E' := by
  cases x with
  | error e => exact h e hs
  | ok a => exact hs

/-- The properties of two specifications together. -/
theorem Spec.and {x : Run α} (hs : Spec x Q E) (hs' : Spec x Q' E) :
    Spec x (fun a => Q a ∧ Q' a) E := by
  cases x with
  | error e => exact hs
  | ok a => exact ⟨hs, hs'⟩

/-- Two specifications with different reasons to stop: either rules out the other's. -/
theorem Spec.both {x : Run α} (hs : Spec x Q E) (hs' : Spec x Q' E') :
    Spec x (fun a => Q a ∧ Q' a) (fun e => E e ∧ E' e) := by
  cases x with
  | error e => exact ⟨hs, hs'⟩
  | ok a => exact ⟨hs, hs'⟩

/-- Add what is known of every result. -/
theorem Spec.and_ok {x : Run α} (hs : Spec x Q E) (h : ∀ a, x = .ok a → Q' a) :
    Spec x (fun a => Q a ∧ Q' a) E := by
  cases x with
  | error e => exact hs
  | ok a => exact ⟨hs, h a rfl⟩

theorem Spec.bind {x : Run α} {f : α → Run β} (hx : Spec x Q E)
    (hf : ∀ a, Q a → Spec (f a) R E) : Spec (x >>= f) R E := by
  cases x with
  | error e => exact hx
  | ok a => exact hf a hx

theorem spec_require {p : Prop} [Decidable p] {text : String} {f : Unit → Run β}
    (hE : ¬ p → E (.assertion text)) (hf : p → Spec (f ()) R E) :
    Spec (require p text >>= f) R E := by
  unfold require
  split
  · rename_i hp
    exact hf hp
  · rename_i hp
    exact hE hp

theorem spec_inRange {p : Prop} [Decidable p] {vec : String} {f : Unit → Run β}
    (hE : ¬ p → E (.outOfRange vec)) (hf : p → Spec (f ()) R E) :
    Spec (inRange p vec >>= f) R E := by
  unfold inRange
  split
  · rename_i hp
    exact hf hp
  · rename_i hp
    exact hE hp

/-- The loop rule of specifications: `Inv` may mention the elements already
processed and is kept by each pass of the body. -/
theorem spec_foldlM {f : β → α → Run β} (Inv : List α → β → Prop) {l : List α} {b : β}
    (h0 : Inv [] b)
    (hstep : ∀ done a rest c, l = done ++ a :: rest → Inv done c →
      Spec (f c a) (Inv (done ++ [a])) E) :
    Spec (List.foldlM f b l) (Inv l) E := by
  induction l generalizing Inv b with
  | nil => exact h0
  | cons a l ih =>
      rw [List.foldlM_cons]
      refine (hstep [] a l b rfl h0).bind fun c hc => ?_
      refine ih (fun done c => Inv (a :: done) c) hc fun done c' rest c1 hl hc1 => ?_
      exact hstep (a :: done) c' rest c1 (by rw [hl]; rfl) hc1

/-- The loop rule for an invariant that does not look at the elements. -/
theorem spec_foldlM_keeps {f : β → α → Run β} {P : β → Prop} {l : List α} {b : β}
    (h0 : P b) (hstep : ∀ a ∈ l, ∀ c, P c → Spec (f c a) P E) :
    Spec (List.foldlM f b l) P E :=
  spec_foldlM (fun _ c => P c) h0 fun done a rest c hl hc => hstep a (by simp [hl]) c hc

end Spec

/-! ## Computations with more checks -/

/-- Where `x` returns a value, `y` returns the same. -/
def Within (x y : Run α) : Prop := ∀ a, x = .ok a → y = .ok a

namespace Within

variable {x y : Run α}

theorem refl (x : Run α) : Within x x := fun _ => id

theorem bind {f f' : α → Run β} (h : Within x y) (hf : ∀ a, Within (f a) (f' a)) :
    Within (x >>= f) (y >>= f') := by
  intro b hb
  obtain ⟨a, ha, hfa⟩ := bind_ok.mp hb
  exact bind_ok.mpr ⟨a, h a ha, hf a b hfa⟩

/-- A check in front. -/
theorem require_left {p : Prop} [Decidable p] (text : String) (x : Run α) :
    Within (require p text >>= fun _ => x) x := fun _ h => (require_bind_ok.mp h).2

theorem foldlM {f f' : β → α → Run β} (hf : ∀ b a, Within (f b a) (f' b a)) :
    ∀ (l : List α) (b : β), Within (l.foldlM f b) (l.foldlM f' b)
  | [], b => .refl _
  | a :: l, b => by
      rw [List.foldlM_cons, List.foldlM_cons]
      exact (hf b a).bind fun b' => foldlM hf l b'

end Within

/-! ## Computations that end -/

/-- The computation comes to an end, by returning or by an assertion. -/
def Ends (x : Run α) : Prop := Spec x (fun _ => True) (· ≠ .fuel)

theorem ends_ok (a : α) : Ends (.ok a : Run α) := trivial

end Run

end PtrAnalysis
