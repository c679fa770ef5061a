import PtrAnalysis.Lib.Run

/-!
# Two runs side by side

`Agree R x y` says that two computations stop for the same reason or return values that `R`
relates. Where the values are related by a function `T`, code commutes with `T`: the rules
`…_map` follow the shape of the code down to the operations that do.
-/

namespace PtrAnalysis.Run

section

variable {α α' β γ : Type}

/-! ## Code that commutes with a change of state -/

variable {T : β → γ}

theorem ite_map {p q : Prop} [Decidable p] [Decidable q] {x y : Run γ} {x' y' : Run β} (h : p ↔ q)
    (hx : q → x = T <$> x') (hy : ¬ q → y = T <$> y') :
    (if p then x else y) = T <$> if q then x' else y' := by
  by_cases hq : q
  · rw [if_pos (h.mpr hq), if_pos hq]
    exact hx hq
  · rw [if_neg (mt h.mp hq), if_neg hq]
    exact hy hq

theorem bind_map {x : Run α} {f : α → Run γ} {g : α → Run β} (h : ∀ a, f a = T <$> g a) :
    (x >>= f) = T <$> (x >>= g) := by
  rw [map_bind]
  exact bind_congr h

/-- A call of an operation that commutes, with what is known of its result. -/
theorem call_map_ok {S : α → α'} {x : Run α'} {x' : Run α} {f : α' → Run γ} {g : α → Run β}
    (hx : x = S <$> x') (h : ∀ a, x' = .ok a → f (S a) = T <$> g a) :
    (x >>= f) = T <$> (x' >>= g) := by
  subst hx
  cases x' with
  | error e => rfl
  | ok a => exact h a rfl

theorem call_map {S : α → α'} {x : Run α'} {x' : Run α} {f : α' → Run γ} {g : α → Run β}
    (hx : x = S <$> x') (h : ∀ a, f (S a) = T <$> g a) : (x >>= f) = T <$> (x' >>= g) :=
  call_map_ok hx fun a _ => h a

theorem foldlM_map {T : β → β} {f : β → α → Run β} (h : ∀ b a, f (T b) a = T <$> f b a)
    (l : List α) (b : β) : l.foldlM f (T b) = T <$> l.foldlM f b := by
  induction l generalizing b with
  | nil => rfl
  | cons a l ih =>
      rw [List.foldlM_cons, List.foldlM_cons]
      exact call_map (h b a) ih

/-- A result of code that commutes with a change that does nothing to its start. -/
theorem eq_map_ok {T : β → β} {x : Run β} (h : x = T <$> x) {b : β} (hb : x = .ok b) :
    ∃ b', b = T b' := by
  subst hb
  exact ⟨b, Except.ok.inj h⟩

end

/-! ## Code that commutes while a history stays as it is -/

/-- Where `x` returns, the history of length `c` did not get shorter, and unless it got longer `y`
returns the changed value. -/
def Silent {α β : Type} (T : α → β) (hist : α → Nat) (c : Nat) (x : Run α) (y : Run β) : Prop :=
  ∀ a, x = .ok a → c ≤ hist a ∧ (hist a = c → y = .ok (T a))

namespace Silent

variable {α α' β β' γ : Type} {T : α → β} {T' : α' → β'} {hist : α → Nat} {hist' : α' → Nat}
  {c : Nat} {x x' : Run α} {y y' : Run β}

theorem pure (a : α) (h : hist a = c) : Silent T hist c (.ok a) (.ok (T a)) := fun b hb => by
  obtain rfl := Except.ok.inj hb
  exact ⟨h.ge, fun _ => rfl⟩

theorem bind {f : α → Run α'} {g : β → Run β'} (h : Silent T hist c x y)
    (hf : ∀ a, Silent T' hist' (hist a) (f a) (g (T a))) : Silent T' hist' c (x >>= f) (y >>= g) := by
  intro b hb
  obtain ⟨a, ha, hb⟩ := bind_ok.mp hb
  obtain ⟨h1, h2⟩ := h a ha
  obtain ⟨h3, h4⟩ := hf a b hb
  refine ⟨h1.trans h3, fun he => ?_⟩
  rw [h2 (by omega)]
  exact h4 (by omega)

/-- The same computation first in both. -/
theorem first {f : γ → Run α} {g : γ → Run β} (z : Run γ) (hf : ∀ a, Silent T hist c (f a) (g a)) :
    Silent T hist c (z >>= f) (z >>= g) := by
  intro b hb
  obtain ⟨a, ha, hb⟩ := bind_ok.mp hb
  obtain ⟨h1, h2⟩ := hf a b hb
  refine ⟨h1, fun he => ?_⟩
  rw [ha]
  exact h2 he

theorem ite {p : Prop} [Decidable p] (hx : p → Silent T hist c x y)
    (hy : ¬ p → Silent T hist c x' y') :
    Silent T hist c (if p then x else x') (if p then y else y') := by
  by_cases hp : p
  · rw [if_pos hp, if_pos hp]
    exact hx hp
  · rw [if_neg hp, if_neg hp]
    exact hy hp

theorem foldlM {f : α → γ → Run α} {g : β → γ → Run β} (l : List γ)
    (h : ∀ a b, Silent T hist (hist a) (f a b) (g (T a) b)) (a : α) :
    Silent T hist (hist a) (l.foldlM f a) (l.foldlM g (T a)) := by
  induction l generalizing a with
  | nil => exact pure a rfl
  | cons b l ih =>
      rw [List.foldlM_cons, List.foldlM_cons]
      exact (h a b).bind ih

end Silent

/-! ## Related results -/

/-- Both computations stop for the same reason, or they return related values. -/
inductive Agree {α β : Type} (R : α → β → Prop) : Run α → Run β → Prop where
  | ok {a : α} {b : β} (h : R a b) : Agree R (.ok a) (.ok b)
  | error (e : Stop) : Agree R (.error e) (.error e)

namespace Agree

variable {α α' β β' : Type} {R : α → β → Prop} {S : α' → β' → Prop} {x : Run α} {y : Run β}

theorem refl {R : α → α → Prop} (h : ∀ a, x = .ok a → R a a) : Agree R x x := by
  cases x with
  | error e => exact .error e
  | ok a => exact .ok (h a rfl)

theorem map {T : α → β} (hy : y = T <$> x) (h : ∀ a, x = .ok a → R a (T a)) : Agree R x y := by
  subst hy
  cases x with
  | error e => exact .error e
  | ok a => exact .ok (h a rfl)

theorem bind {f : α → Run α'} {g : β → Run β'} (h : Agree R x y)
    (hfg : ∀ a b, R a b → Agree S (f a) (g b)) : Agree S (x >>= f) (y >>= g) := by
  cases h with
  | error e => exact .error e
  | @ok a b hab => exact hfg a b hab

theorem ite {p q : Prop} [Decidable p] [Decidable q] {x' : Run α} {y' : Run β} (h : p ↔ q)
    (hx : p → Agree R x y) (hy : ¬ p → Agree R x' y') :
    Agree R (if p then x else x') (if q then y else y') := by
  by_cases hp : p
  · rw [if_pos hp, if_pos (h.mp hp)]
    exact hx hp
  · rw [if_neg hp, if_neg (mt h.mpr hp)]
    exact hy hp

theorem result (h : Agree R x y) {a : α} (hx : x = .ok a) : ∃ b, y = .ok b ∧ R a b := by
  cases h with
  | error e => cases hx
  | ok hab =>
      cases hx
      exact ⟨_, rfl, hab⟩

end Agree

end PtrAnalysis.Run
