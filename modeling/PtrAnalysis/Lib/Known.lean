import Mathlib.Data.Set.Insert
import PtrAnalysis.Lib.Act

/-!
# Values that are known to be good

Code computes values, such as indices into a table that grows, which are good in the state
they come from and in all later ones. `Gives R I K S x T` says of code `x` that it takes a
state to one that `R` relates it to, and that it keeps the invariant `I` if the values in
`S` are good; the values in `T` are then good for its result. The rules follow the code, and
a value once found to be good is in the set of everything behind it.
-/

namespace PtrAnalysis

namespace Act

variable {σ ι α β : Type}

/-- From `s`, `x` keeps `I` if the values in `S` are good, and then the values in `T` are. -/
def GivesAt (R : σ → σ → Prop) (I : σ → Prop) (K : σ → ι → Prop) (S : Set ι) (x : Act σ α)
    (T : α → Set ι) (s : σ) : Prop :=
  Wp x (fun a s' => R s s' ∧ (I s → (∀ n ∈ S, K s n) → I s' ∧ ∀ n ∈ T a, K s' n)) s

/-- The same from every state. -/
def Gives (R : σ → σ → Prop) (I : σ → Prop) (K : σ → ι → Prop) (S : Set ι) (x : Act σ α)
    (T : α → Set ι) : Prop :=
  ∀ s, GivesAt R I K S x T s

/-- A value that is good stays good. -/
def Lasts (R : σ → σ → Prop) (K : σ → ι → Prop) : Prop := ∀ s s' n, R s s' → K s n → K s' n

variable {R : σ → σ → Prop} {I : σ → Prop} {K : σ → ι → Prop} {S : Set ι}

theorem Gives.runs {x : Act σ α} {T : α → Set ι} (h : Gives R I K S x T) : Runs R x := fun s =>
  (h s).imp fun _ _ hs => hs.1

theorem Gives.mono {x : Act σ α} {S' : Set ι} {T T' : α → Set ι} (h : Gives R I K S x T)
    (hS : S ⊆ S') (hT : ∀ a, T' a ⊆ T a) : Gives R I K S' x T' := fun s =>
  (h s).imp fun a _ hs => ⟨hs.1, fun hI hk =>
    (hs.2 hI fun n hn => hk n (hS hn)).imp id fun hgood n hn => hgood n (hT a hn)⟩

theorem GivesAt.mono {x : Act σ α} {S' : Set ι} {T : α → Set ι} {s : σ}
    (h : GivesAt R I K S x T s) (hS : S ⊆ S') : GivesAt R I K S' x T s :=
  Wp.imp h fun _ _ hs => ⟨hs.1, fun hI hk => hs.2 hI fun n hn => hk n (hS hn)⟩

theorem Gives.throw (e : Stop) (T : α → Set ι) : Gives R I K S (throw e : Act σ α) T :=
  fun _ => trivial

theorem Gives.ite {p : Prop} [Decidable p] {x y : Act σ α} {T : α → Set ι}
    (hx : p → Gives R I K S x T) (hy : ¬ p → Gives R I K S y T) :
    Gives R I K S (if p then x else y) T := by
  split
  · rename_i h
    exact hx h
  · rename_i h
    exact hy h

section

variable [IsPreorder σ R]

theorem Gives.pure (a : α) {T : α → Set ι} (h : T a ⊆ S) : Gives R I K S (pure a : Act σ α) T :=
  fun s => ⟨refl s, fun hI hk => ⟨hI, fun n hn => hk n (h hn)⟩⟩

theorem Gives.done (a : α) : Gives R I K S (Pure.pure a : Act σ α) fun _ => ∅ :=
  .pure a (Set.empty_subset S)

theorem Gives.get : Gives R I K S (get : Act σ σ) fun _ => ∅ := fun s =>
  ⟨refl s, fun hI _ => ⟨hI, fun _ hn => absurd hn (Set.notMem_empty _)⟩⟩

theorem Gives.lift (x : Run α) : Gives R I K S (liftM x : Act σ α) fun _ => ∅ := fun s =>
  wp_lift.mpr fun _ _ => ⟨refl s, fun hI _ => ⟨hI, fun _ hn => absurd hn (Set.notMem_empty _)⟩⟩

/-- The rest of the code, from the state `s'` that the first part left; the values in `S'` were
found good there. -/
theorem GivesAt.after (hK : Lasts R K) {f : Act σ β} {S' : Set ι} {T : β → Set ι} {s s' : σ}
    (hf : GivesAt R I K (S ∪ S') f T s') (hR : R s s')
    (hs : I s → (∀ n ∈ S, K s n) → I s' ∧ ∀ n ∈ S', K s' n) :
    Wp f (fun b s'' => R s s'' ∧ (I s → (∀ n ∈ S, K s n) → I s'' ∧ ∀ n ∈ T b, K s'' n)) s' := by
  apply Wp.imp hf
  rintro b s'' ⟨hR', hs'⟩
  refine ⟨IsTrans.trans _ _ _ hR hR', fun hI hk => ?_⟩
  obtain ⟨hI', hgood⟩ := hs hI hk
  refine hs' hI' fun n hn => ?_
  rcases hn with hn | hn
  · exact hK s s' n hR (hk n hn)
  · exact hgood n hn

theorem GivesAt.bind (hK : Lasts R K) {x : Act σ α} {f : α → Act σ β} {T : α → Set ι}
    {T' : β → Set ι} {s : σ} (hx : GivesAt R I K S x T s)
    (hf : ∀ a s', R s s' → GivesAt R I K (S ∪ T a) (f a) T' s') :
    GivesAt R I K S (x >>= f) T' s := by
  unfold GivesAt at hx ⊢
  rw [wp_bind]
  apply hx.imp
  rintro a s' ⟨hR, hs⟩
  exact (hf a s' hR).after hK hR hs

/-- The first part has no value to give. -/
theorem GivesAt.seq (hK : Lasts R K) {x : Act σ α} {f : α → Act σ β} {T : β → Set ι} {s : σ}
    (hx : GivesAt R I K S x (fun _ => ∅) s)
    (hf : ∀ a s', R s s' → GivesAt R I K S (f a) T s') : GivesAt R I K S (x >>= f) T s :=
  hx.bind hK fun a s' hR => (hf a s' hR).mono Set.subset_union_left

theorem Gives.bind (hK : Lasts R K) {x : Act σ α} {f : α → Act σ β} {T : α → Set ι}
    {T' : β → Set ι} (hx : Gives R I K S x T) (hf : ∀ a, Gives R I K (S ∪ T a) (f a) T') :
    Gives R I K S (x >>= f) T' := fun s =>
  (hx s).bind hK fun a s' _ => hf a s'

theorem Gives.seq (hK : Lasts R K) {x : Act σ α} {f : α → Act σ β} {T : β → Set ι}
    (hx : Gives R I K S x fun _ => ∅) (hf : ∀ a, Gives R I K S (f a) T) :
    Gives R I K S (x >>= f) T :=
  .bind hK hx fun a => (hf a).mono Set.subset_union_left fun _ => le_rfl

theorem Gives.foldlM (hK : Lasts R K) {f : β → α → Act σ β} {l : List α} (b : β)
    (hf : ∀ a ∈ l, ∀ b, Gives R I K S (f b a) fun _ => ∅) :
    Gives R I K S (l.foldlM f b) fun _ => ∅ := by
  induction l generalizing b with
  | nil => exact .done b
  | cons a l ih =>
      rw [List.foldlM_cons]
      exact .seq hK (hf a (List.mem_cons_self ..) b) fun b' =>
        ih b' fun a' ha' => hf a' (List.mem_cons_of_mem _ ha')

theorem Gives.forM (hK : Lasts R K) {f : α → Act σ Unit} {l : List α}
    (hf : ∀ a ∈ l, Gives R I K S (f a) fun _ => ∅) : Gives R I K S (l.forM f) fun _ => ∅ := by
  induction l with
  | nil => exact .done ()
  | cons a l ih =>
      change Gives R I K S (f a >>= fun _ => l.forM f) _
      exact .seq hK (hf a (List.mem_cons_self ..)) fun _ =>
        ih fun a' ha' => hf a' (List.mem_cons_of_mem _ ha')

end

end Act

end PtrAnalysis
