import Mathlib.Data.Finset.Card
import Mathlib.Data.Set.Finite.Basic
import Mathlib.Logic.Relation
import PtrAnalysis.Lib.Run

/-!
# Boolean equations and a memoised search

Every unknown has an equation, the disjunction or the conjunction of its inputs: other
unknowns, sources, which are false but of interest, and inputs of which nothing is known,
which are true. The search evaluates an unknown depth first. It collects the sources, and
it remembers what it evaluated, false for what is not finished.

The sources it finds are exactly those that reach the unknown. Its result is that of the
least solution, unless a conjunction has two inputs that matter and depends on a cycle.
-/

namespace PtrAnalysis

open Run Relation

namespace Equations

inductive Input (α β : Type) where
  | node (a : α)
  | source (p : β)
  | unknown

structure Eqn (α β : Type) where
  /-- A conjunction, or else a disjunction. -/
  all : Bool
  inputs : List (Input α β)

variable {α β : Type}

/-! ## The least solution -/

/-- The value of an input if the unknowns in `S` are true. -/
def Input.Eval (S : α → Prop) : Input α β → Prop
  | .node a => S a
  | .source _ => False
  | .unknown => True

/-- The value of the first inputs `l` of an equation. -/
def EvalOn (all : Bool) (l : List (Input α β)) (S : α → Prop) : Prop :=
  if all then ∀ x ∈ l, Input.Eval S x else ∃ x ∈ l, Input.Eval S x

theorem Input.Eval.mono {S S' : α → Prop} (h : ∀ a, S a → S' a) {x : Input α β}
    (hx : Input.Eval S x) : Input.Eval S' x := by
  cases x with
  | node a => exact h a hx
  | source p => exact hx
  | unknown => trivial

theorem EvalOn.mono {S S' : α → Prop} (h : ∀ a, S a → S' a) {all : Bool} {l : List (Input α β)}
    (hl : EvalOn all l S) : EvalOn all l S' := by
  unfold EvalOn at hl ⊢
  split at hl
  · rw [if_pos ‹_›]
    exact fun x hx => (hl x hx).mono h
  · rw [if_neg ‹_›]
    obtain ⟨x, hx, heval⟩ := hl
    exact ⟨x, hx, heval.mono h⟩

variable (E : α → Run (Eqn α β))

/-- The unknowns in `S` satisfy all equations that ask for more. -/
def Closed (S : α → Prop) : Prop := ∀ v e, E v = .ok e → EvalOn e.all e.inputs S → S v

/-- The unknown is true in the least solution. -/
def Least (v : α) : Prop := ∀ S, Closed E S → S v

/-- The equation of `v` has the input `a`. -/
def Feeds (v a : α) : Prop := ∃ e, E v = .ok e ∧ .node a ∈ e.inputs

def Reaches : α → α → Prop := ReflTransGen (Feeds E)

/-- The source `p` reaches `v`. -/
def Gets (v : α) (p : β) : Prop := ∃ w e, Reaches E v w ∧ E w = .ok e ∧ .source p ∈ e.inputs

/-- The unknown does not depend on a cycle. -/
def Steady (v : α) : Prop := ∀ w, Reaches E v w → ¬ TransGen (Feeds E) w w

/-- The input is true because nothing is known of it. -/
def Offset (x : Input α β) : Prop :=
  x = .unknown ∨ ∃ b, x = .node b ∧ E b = .ok ⟨false, [.unknown]⟩

/-- A conjunction that depends on a cycle has but one input that matters. -/
def Calm (v : α) : Prop :=
  ∀ e, E v = .ok e → e.all = true → Steady E v ∨ e.inputs.Pairwise fun x y => Offset E x ∨ Offset E y

section

variable {E} {v w a : α}

theorem least_closed : Closed E (Least E) := fun v e he heval S hS =>
  hS v e he (heval.mono fun _ h => h S hS)

/-- What is true in the least solution is so for a reason. -/
theorem Least.eval (h : Least E v) {e : Eqn α β} (he : E v = .ok e) :
    EvalOn e.all e.inputs (Least E) := by
  have hclosed : Closed E fun w => Least E w ∧ ∀ e, E w = .ok e → EvalOn e.all e.inputs (Least E) := by
    intro w e he heval
    have heval' : EvalOn e.all e.inputs (Least E) := heval.mono fun _ h => h.1
    refine ⟨least_closed w e he heval', fun e' he' => ?_⟩
    obtain rfl : e = e' := Except.ok.inj (he.symm.trans he')
    exact heval'
  exact (h _ hclosed).2 e he

theorem Steady.feeds (h : Steady E v) (ha : Feeds E v a) : Steady E a := fun w hw =>
  h w (.head ha hw)

theorem Steady.reaches (h : Steady E v) (hw : Reaches E v w) : Steady E w := fun u hu =>
  h u (hw.trans hu)

theorem steady_of_feeds (h : ∀ a, Feeds E v a → Steady E a) : Steady E v := by
  intro w hw hcycle
  rcases hw.cases_head with rfl | ⟨a, ha, haw⟩
  · obtain ⟨a, ha, hav⟩ := TransGen.head'_iff.mp hcycle
    exact h a ha v hav hcycle
  · exact h a ha w haw hcycle

theorem offset_steady (h : E a = .ok ⟨false, [.unknown]⟩) : Steady E a := by
  refine steady_of_feeds fun b ⟨e, he, hb⟩ => ?_
  obtain rfl := Except.ok.inj (h.symm.trans he)
  simp at hb

theorem offset_least (h : E a = .ok ⟨false, [.unknown]⟩) : Least E a :=
  least_closed a _ h (by simp [EvalOn, Input.Eval])

end

/-! ## The search -/

/-- The sources found so far, and the unknowns that were visited with their values. -/
structure Found (α β : Type) where
  src : List β
  seen : α → Option Bool

namespace Found

variable {t : Found α β}

section

variable [DecidableEq β]

def insert (t : Found α β) (p : β) : Found α β :=
  { t with src := if p ∈ t.src then t.src else t.src ++ [p] }

@[simp] theorem insert_seen (p : β) : (t.insert p).seen = t.seen := rfl

@[simp] theorem mem_insert {p q : β} : q ∈ (t.insert p).src ↔ q ∈ t.src ∨ q = p := by
  unfold insert
  dsimp only
  split
  · constructor
    · exact .inl
    · rintro (hq | rfl) <;> assumption
  · simp

end

variable [DecidableEq α]

def see (t : Found α β) (v : α) (r : Bool) : Found α β :=
  { t with seen := Function.update t.seen v (some r) }

@[simp] theorem see_src (v : α) (r : Bool) : (t.see v r).src = t.src := rfl

@[simp] theorem see_self (v : α) (r : Bool) : (t.see v r).seen v = some r :=
  Function.update_self ..

@[simp] theorem see_of_ne {v w : α} (h : w ≠ v) (r : Bool) : (t.see v r).seen w = t.seen w :=
  Function.update_of_ne h _ _

end Found

/-- How a value is combined with those before it. -/
def join (all : Bool) (r r' : Bool) : Bool := if all then r && r' else r || r'

section

variable [DecidableEq α] [DecidableEq β]

def visit (eval : α → Found α β → Run (Bool × Found α β)) (x : Input α β) (t : Found α β) :
    Run (Bool × Found α β) :=
  match x with
  | .node a => eval a t
  | .source p => .ok (false, t.insert p)
  | .unknown => .ok (true, t)

def search : Nat → α → Found α β → Run (Bool × Found α β)
  | 0, _, _ => .error .fuel
  | fuel + 1, v, t =>
    match t.seen v with
    | some r => .ok (r, t)
    | none => do
      let e ← E v
      let (r, t) ← e.inputs.foldlM (fun u x => do
        let (r, t) ← visit (search fuel) x u.2
        return (join e.all u.1 r, t)) (e.all, t.see v false)
      return (r, if r then t.see v true else t)

end

/-! ## What holds while it runs -/

section

/-- What was visited stays, with its value. -/
structure Keeps (t t' : Found α β) : Prop where
  seen : ∀ w r, t.seen w = some r → t'.seen w = some r
  src : ∀ p ∈ t.src, p ∈ t'.src

theorem Keeps.refl (t : Found α β) : Keeps t t := ⟨fun _ _ => id, fun _ => id⟩

theorem Keeps.trans {t t' t'' : Found α β} (h : Keeps t t') (h' : Keeps t' t'') : Keeps t t'' :=
  ⟨fun w r hw => h'.seen w r (h.seen w r hw), fun p hp => h'.src p (h.src p hp)⟩

/-- Nothing more will come from the input. -/
def Input.Passed (t : Found α β) : Input α β → Prop
  | .node a => ∃ r, t.seen a = some r
  | .source p => p ∈ t.src
  | .unknown => True

theorem Input.Passed.keeps {t t' : Found α β} {x : Input α β} (h : Input.Passed t x)
    (hk : Keeps t t') : Input.Passed t' x := by
  cases x with
  | node a =>
      obtain ⟨r, hr⟩ := h
      exact ⟨r, hk.seen a r hr⟩
  | source p => exact hk.src p h
  | unknown => trivial

/-- The unknowns in `A` are not finished. -/
structure Mid (A : Set α) (t : Found α β) : Prop where
  sound : ∀ w, t.seen w = some true → Least E w
  exact : ∀ w r, t.seen w = some r → w ∉ A → Steady E w → Least E w → r = true
  passed : ∀ w r, t.seen w = some r → w ∉ A → ∃ e, E w = .ok e ∧ ∀ x ∈ e.inputs, Input.Passed t x
  only : ∀ p ∈ t.src, ∃ w e r, t.seen w = some r ∧ E w = .ok e ∧ .source p ∈ e.inputs

/-- The disjunction has no input that makes it true for a reason outside the cycle. -/
def Dull (w : α) : Prop := ∀ e, E w = .ok e → e.all = false →
  .unknown ∉ e.inputs ∧ ∀ a, .node a ∈ e.inputs → Steady E a → ¬ Least E a

/-- The unknowns visited between `t` and `t'` that depend on cycles are dull. -/
def NewDull (t t' : Found α β) : Prop :=
  ∀ w r, t'.seen w = some r → t.seen w = none → ¬ Steady E w → Dull E w

def Input.Steady : Input α β → Prop
  | .node a => Equations.Steady E a
  | _ => True

/-- What the visit of an input does and what its value `r` means. -/
structure Visit (A : Set α) (x : Input α β) (t : Found α β) (r : Bool) (t' : Found α β) : Prop where
  mid : Mid E A t'
  keeps : Keeps t t'
  passed : Input.Passed t' x
  sound : r = true → Input.Eval (Least E) x
  exact : Input.Steady E x → Input.Eval (Least E) x → r = true
  reach : ∀ w r, t'.seen w = some r → t.seen w = none → ∃ a, x = .node a ∧ Reaches E a w
  dull : r = false → NewDull E t t'

variable {E} {A : Set α} {t t' t0 : Found α β} {x : Input α β} {r : Bool} {v : α}

theorem Visit.offset (h : Visit E A x t r t') (hx : Offset E x) :
    r = true ∧ ∀ w r', t'.seen w = some r' → t.seen w = none → Steady E w := by
  rcases hx with rfl | ⟨b, rfl, hb⟩
  · refine ⟨h.exact trivial trivial, fun w r' hw hnew => ?_⟩
    obtain ⟨a, ha, -⟩ := h.reach w r' hw hnew
    cases ha
  · refine ⟨h.exact (offset_steady hb) (offset_least hb), fun w r' hw hnew => ?_⟩
    obtain ⟨a, ha, hreach⟩ := h.reach w r' hw hnew
    cases ha
    exact (offset_steady hb).reaches hreach

@[simp] theorem join_true {all r r' : Bool} :
    join all r r' = true ↔ if all then r = true ∧ r' = true else r = true ∨ r' = true := by
  unfold join
  cases all <;> simp

theorem evalOn_concat {all : Bool} {l : List (Input α β)} {S : α → Prop} :
    EvalOn all (l ++ [x]) S ↔
      if all then EvalOn all l S ∧ Input.Eval S x else EvalOn all l S ∨ Input.Eval S x := by
  unfold EvalOn
  cases all <;> simp [or_and_right, exists_or, forall_and, or_imp]

/-- The inputs `done` of `v` were visited since `t0`, with the value `acc`. -/
structure Folded (E : α → Run (Eqn α β)) (e : Eqn α β) (v : α) (A : Set α) (t0 : Found α β)
    (done : List (Input α β)) (acc : Bool) (t : Found α β) : Prop where
  mid : Mid E (insert v A) t
  keeps : Keeps t0 t
  passed : ∀ x ∈ done, Input.Passed t x
  sound : acc = true → EvalOn e.all done (Least E)
  exact : Steady E v → EvalOn e.all done (Least E) → acc = true
  reach : ∀ w r, t.seen w = some r → t0.seen w = none → Reaches E v w
  dull : acc = false → NewDull E t0 t
  any : e.all = false → acc = false →
    .unknown ∉ done ∧ ∀ a, .node a ∈ done → Steady E a → ¬ Least E a
  offsets : e.all = true → ¬ Steady E v → (∀ y ∈ done, Offset E y) →
    acc = true ∧ ∀ w r, t.seen w = some r → t0.seen w = none → Steady E w

theorem Folded.start {e : Eqn α β} (h : Mid E (insert v A) t0) : Folded E e v A t0 [] e.all t0 where
  mid := h
  keeps := .refl t0
  passed := by simp
  sound hall := by simp [EvalOn, hall]
  exact _ h := by
    by_contra hall
    simp [EvalOn, hall] at h
  reach w r hw hnew := by simp [hw] at hnew
  dull _ w r hw hnew := by simp [hw] at hnew
  any _ _ := by simp
  offsets hall _ _ := ⟨hall, fun w r hw hnew => by simp [hw] at hnew⟩

/-- One more input. -/
theorem Folded.step {e : Eqn α β} {done rest : List (Input α β)} {acc : Bool}
    (h : Folded E e v A t0 done acc t) (he : E v = .ok e) (hcalm : Calm E v)
    (hinputs : e.inputs = done ++ x :: rest) (hx : Visit E (insert v A) x t r t') :
    Folded E e v A t0 (done ++ [x]) (join e.all acc r) t' := by
  have hfeeds : ∀ a, x = .node a → Feeds E v a := fun a ha => ⟨e, he, by simp [hinputs, ha]⟩
  -- an unknown is new since `t0` if it was new before the visit, or is since
  have hnew : ∀ {w r'}, t'.seen w = some r' → t0.seen w = none →
      (∃ r1, t.seen w = some r1) ∨ t.seen w = none := fun {w _} _ _ => by
    cases t.seen w <;> simp
  have hreach : ∀ w r, t'.seen w = some r → t0.seen w = none → Reaches E v w := by
    intro w r' hw h0
    rcases hnew hw h0 with ⟨r1, hr1⟩ | hnone
    · exact h.reach w r1 hr1 h0
    · obtain ⟨a, ha, haw⟩ := hx.reach w r' hw hnone
      exact .head (hfeeds a ha) haw
  refine ⟨hx.mid, h.keeps.trans hx.keeps, ?_, ?_, ?_, hreach, ?_, ?_, ?_⟩
  · intro y hy
    rcases List.mem_append.mp hy with hy | hy
    · exact (h.passed y hy).keeps hx.keeps
    · exact List.mem_singleton.mp hy ▸ hx.passed
  · intro hacc
    rw [join_true] at hacc
    rw [evalOn_concat]
    cases hall : e.all
    · simp only [hall, Bool.false_eq_true, if_false] at hacc ⊢
      exact hacc.imp (fun ha => hall ▸ h.sound ha) hx.sound
    · simp only [hall, if_true] at hacc ⊢
      exact hacc.imp (fun ha => hall ▸ h.sound ha) hx.sound
  · intro hv heval
    have hxs : Input.Steady E x := by
      cases x with
      | node a => exact hv.feeds (hfeeds a rfl)
      | _ => trivial
    rw [evalOn_concat] at heval
    rw [join_true]
    cases hall : e.all
    · simp only [hall, Bool.false_eq_true, if_false] at heval ⊢
      exact heval.imp (fun ha => h.exact hv (hall ▸ ha)) (hx.exact hxs)
    · simp only [hall, if_true] at heval ⊢
      exact heval.imp (fun ha => h.exact hv (hall ▸ ha)) (hx.exact hxs)
  · intro hfalse w r' hw h0 hns
    cases hall : e.all
    · simp only [join, hall, Bool.false_eq_true, if_false, Bool.or_eq_false_iff] at hfalse
      rcases hnew hw h0 with ⟨r1, hr1⟩ | hnone
      · exact h.dull hfalse.1 w r1 hr1 h0 hns
      · exact hx.dull hfalse.2 w r' hw hnone hns
    · -- only one input of the conjunction matters
      simp only [join, hall, if_true, Bool.and_eq_false_iff] at hfalse
      have hv : ¬ Steady E v := fun hv => hns (hv.reaches (hreach w r' hw h0))
      have hpair := (hcalm e he hall).resolve_left hv
      by_cases hoff : Offset E x
      · obtain ⟨hr, hsteady⟩ := hx.offset hoff
        have hacc : acc = false := by simpa [hr] using hfalse
        rcases hnew hw h0 with ⟨r1, hr1⟩ | hnone
        · exact h.dull hacc w r1 hr1 h0 hns
        · exact absurd (hsteady w r' hw hnone) hns
      · have hdone : ∀ y ∈ done, Offset E y := fun y hy => by
          rw [hinputs] at hpair
          exact ((List.pairwise_append.mp hpair).2.2 y hy x (List.mem_cons_self ..)).resolve_right hoff
        obtain ⟨hacc, hsteady⟩ := h.offsets hall hv hdone
        have hr : r = false := by simpa [hacc] using hfalse
        rcases hnew hw h0 with ⟨r1, hr1⟩ | hnone
        · exact absurd (hsteady w r1 hr1 h0) hns
        · exact hx.dull hr w r' hw hnone hns
  · intro hall hfalse
    simp only [join, hall, Bool.false_eq_true, if_false, Bool.or_eq_false_iff] at hfalse
    obtain ⟨hun, hnode⟩ := h.any hall hfalse.1
    have hr : r ≠ true := by simp [hfalse.2]
    refine ⟨?_, fun a ha hs hl => ?_⟩
    · rw [List.mem_append, List.mem_singleton]
      rintro (hmem | rfl)
      · exact hun hmem
      · exact hr (hx.exact trivial trivial)
    · rcases List.mem_append.mp ha with ha | ha
      · exact hnode a ha hs hl
      · obtain rfl := List.mem_singleton.mp ha
        exact hr (hx.exact hs hl)
  · intro hall hv hoff
    obtain ⟨hacc, hsteady⟩ := h.offsets hall hv fun y hy => hoff y (List.mem_append_left _ hy)
    obtain ⟨hr, hsteady'⟩ := hx.offset (hoff x (by simp))
    refine ⟨by simp [join, hall, hacc, hr], fun w r' hw h0 => ?_⟩
    rcases hnew hw h0 with ⟨r1, hr1⟩ | hnone
    · exact hsteady w r1 hr1 h0
    · exact hsteady' w r' hw hnone

theorem Visit.unknown (h : Mid E A t) : Visit E A .unknown t true t where
  mid := h
  keeps := .refl t
  passed := trivial
  sound _ := trivial
  exact _ _ := rfl
  reach w r hw hnew := by simp [hw] at hnew
  dull h := by cases h

theorem Visit.source [DecidableEq β] {p : β} {e : Eqn α β} (h : Mid E A t) (he : E v = .ok e)
    (hp : .source p ∈ e.inputs) (hv : t.seen v = some r) :
    Visit E A (.source p) t false (t.insert p) := by
  have hkeeps : Keeps t (t.insert p) := ⟨fun _ _ => id, fun q hq => Found.mem_insert.mpr (.inl hq)⟩
  refine ⟨⟨h.sound, h.exact, fun w r hw hwA => ?_, fun q hq => ?_⟩, hkeeps,
    Found.mem_insert.mpr (.inr rfl), fun hr => ?_, fun _ heval => absurd heval id,
    fun w r hw hnew => ?_, fun _ w r hw hnew => ?_⟩
  · obtain ⟨e, he, hpassed⟩ := h.passed w r hw hwA
    exact ⟨e, he, fun x hx => (hpassed x hx).keeps hkeeps⟩
  · rcases Found.mem_insert.mp hq with hq | rfl
    · exact h.only q hq
    · exact ⟨v, e, r, hv, he, hp⟩
  · cases hr
  · exact absurd (hnew.symm.trans hw) (by simp)
  · exact absurd (hnew.symm.trans hw) (by simp)

def Found.empty : Found α β := ⟨[], fun _ => none⟩

/-- What of `R` was not visited yet. -/
def unseen (R : Finset α) (t : Found α β) : Finset α := R.filter fun w => t.seen w = none

theorem unseen_keeps {R : Finset α} (h : Keeps t t') : unseen R t' ⊆ unseen R t := by
  intro w hw
  rw [unseen, Finset.mem_filter] at hw ⊢
  refine ⟨hw.1, ?_⟩
  cases hs : t.seen w with
  | none => rfl
  | some r => exact absurd (h.seen w r hs) (by simp [hw.2])

section

variable [DecidableEq α]

theorem Found.see_keeps {b : Bool} (h : ∀ r, t.seen v = some r → r = b) : Keeps t (t.see v b) := by
  refine ⟨fun w r hw => ?_, fun _ => id⟩
  by_cases hwv : w = v
  · subst hwv
    rw [Found.see_self, h r hw]
  · rw [Found.see_of_ne hwv, hw]

/-- The unknown `v` that is now visited. -/
theorem Mid.enter (h : Mid E A t) (hv : t.seen v = none) : Mid E (insert v A) (t.see v false) := by
  have hkeeps : Keeps t (t.see v false) := Found.see_keeps fun r hr => by simp [hv] at hr
  have hold : ∀ {w r}, (t.see v false).seen w = some r → w ≠ v → t.seen w = some r :=
    fun hw hne => by rwa [Found.see_of_ne hne] at hw
  refine ⟨fun w hw => ?_, fun w r hw hwA => ?_, fun w r hw hwA => ?_, fun p hp => ?_⟩
  · by_cases hwv : w = v
    · subst hwv
      simp at hw
    · exact h.sound w (hold hw hwv)
  · obtain ⟨hwv, hwA⟩ := not_or.mp hwA
    exact h.exact w r (hold hw hwv) hwA
  · obtain ⟨hwv, hwA⟩ := not_or.mp hwA
    obtain ⟨e, he, hpassed⟩ := h.passed w r (hold hw hwv) hwA
    exact ⟨e, he, fun x hx => (hpassed x hx).keeps hkeeps⟩
  · obtain ⟨w, e, r, hw, he⟩ := h.only p hp
    exact ⟨w, e, r, hkeeps.seen w r hw, he⟩

/-- All inputs of `v` were visited. -/
theorem Folded.finish {e : Eqn α β} (h : Folded E e v A (t.see v false) e.inputs r t')
    (he : E v = .ok e) (hv : t.seen v = none) :
    Visit E A (.node v) t r (if r then t'.see v true else t') := by
  have hself : t'.seen v = some false := h.keeps.seen v false (by simp)
  have hstart : Keeps t (t.see v false) := Found.see_keeps fun r hr => by simp [hv] at hr
  have hsound : r = true → Least E v := fun hr => least_closed v e he (h.sound hr)
  have hexact : Steady E v → Least E v → r = true := fun hs hl => h.exact hs (hl.eval he)
  -- the value of `v` is entered, and all others stay
  have hres : (if r then t'.see v true else t').seen v = some r := by
    cases r
    · exact hself
    · simp
  have hrest : ∀ w, w ≠ v → (if r then t'.see v true else t').seen w = t'.seen w := by
    intro w hwv
    cases r
    · rfl
    · simp [hwv]
  have hsrc : (if r then t'.see v true else t').src = t'.src := by cases r <;> rfl
  have hpass : ∀ {x}, Input.Passed t' x → Input.Passed (if r then t'.see v true else t') x := by
    rintro (a | p | _) hx
    · by_cases hav : a = v
      · exact ⟨r, hav ▸ hres⟩
      · obtain ⟨r', hr'⟩ := hx
        exact ⟨r', (hrest a hav).trans hr'⟩
    · exact (congrArg (p ∈ ·) hsrc).mpr hx
    · trivial
  refine ⟨⟨fun w hw => ?_, fun w r' hw hwA => ?_, fun w r' hw hwA => ?_, fun p hp => ?_⟩,
    ⟨fun w r' hw => ?_, fun p hp => ?_⟩, ⟨r, hres⟩, hsound, hexact, fun w r' hw hnew => ?_, ?_⟩
  · by_cases hwv : w = v
    · subst hwv
      exact hsound (Option.some.inj (hres.symm.trans hw))
    · exact h.mid.sound w (hrest w hwv ▸ hw)
  · by_cases hwv : w = v
    · subst hwv
      obtain rfl := Option.some.inj (hres.symm.trans hw)
      exact hexact
    · exact h.mid.exact w r' (hrest w hwv ▸ hw) (not_or.mpr ⟨hwv, hwA⟩)
  · by_cases hwv : w = v
    · subst hwv
      exact ⟨e, he, fun x hx => hpass (h.passed x hx)⟩
    · obtain ⟨e', he', hpassed⟩ := h.mid.passed w r' (hrest w hwv ▸ hw) (not_or.mpr ⟨hwv, hwA⟩)
      exact ⟨e', he', fun x hx => hpass (hpassed x hx)⟩
  · obtain ⟨w, e', r', hw, he'⟩ := h.mid.only p (hsrc ▸ hp)
    by_cases hwv : w = v
    · exact ⟨w, e', r, hwv ▸ hres, he'⟩
    · exact ⟨w, e', r', (hrest w hwv).trans hw, he'⟩
  · have hwv : w ≠ v := fun hwv => by simp [hwv, hv] at hw
    rw [hrest w hwv]
    exact h.keeps.seen w r' (hstart.seen w r' hw)
  · exact hsrc ▸ h.keeps.src p (hstart.src p hp)
  · refine ⟨v, rfl, ?_⟩
    by_cases hwv : w = v
    · exact hwv ▸ .refl
    · exact h.reach w r' (hrest w hwv ▸ hw) (by simpa [hwv] using hnew)
  · rintro rfl w r' hw hnew hns
    by_cases hwv : w = v
    · subst hwv
      intro e' he' hall
      obtain rfl := Except.ok.inj (he.symm.trans he')
      exact h.any hall rfl
    · exact h.dull rfl w r' (hrest w hwv ▸ hw) (by simpa [hwv] using hnew) hns

theorem unseen_enter {R : Finset α} (hR : v ∈ R) (hv : t.seen v = none) :
    (unseen R (t.see v false)).card < (unseen R t).card := by
  refine Finset.card_lt_card ⟨unseen_keeps (Found.see_keeps fun r hr => by simp [hv] at hr), ?_⟩
  intro hsub
  have hmem := hsub (Finset.mem_filter.mpr ⟨hR, hv⟩)
  simp [unseen] at hmem

/-- Each call that is not answered from memory visits one more unknown. -/
theorem search_returns [DecidableEq β] {R : Finset α} (hok : ∀ w ∈ R, ∃ e, E w = .ok e)
    (hR : ∀ w ∈ R, ∀ a, Feeds E w a → a ∈ R) {fuel : Nat} (hv : v ∈ R)
    (hfuel : (unseen R t).card < fuel) :
    ∃ r t', search E fuel v t = .ok (r, t') ∧ Keeps t t' := by
  induction fuel generalizing v t with
  | zero => omega
  | succ fuel ih =>
      unfold search
      cases hs : t.seen v with
      | some r => exact ⟨r, t, rfl, .refl t⟩
      | none =>
          obtain ⟨e, he⟩ := hok v hv
          have hstart : Keeps t (t.see v false) := Found.see_keeps fun r hr => by simp [hs] at hr
          have hlt := unseen_enter hv hs
          -- the inputs are visited one after the other
          have hloop : ∀ (l : List (Input α β)), (∀ a, .node a ∈ l → a ∈ R) → ∀ acc t1,
              Keeps (t.see v false) t1 → ∃ r t2, l.foldlM (fun u x => do
                let (r, t) ← visit (search E fuel) x u.2
                return (join e.all u.1 r, t)) (acc, t1) = .ok (r, t2) ∧ Keeps t1 t2 := by
            intro l
            induction l with
            | nil => exact fun _ acc t1 _ => ⟨acc, t1, rfl, .refl t1⟩
            | cons x l ihl =>
                intro hl acc t1 h1
                obtain ⟨r2, t2, hvisit, h2⟩ : ∃ r2 t2,
                    visit (search E fuel) x t1 = .ok (r2, t2) ∧ Keeps t1 t2 := by
                  cases x with
                  | node a =>
                      have hle := Finset.card_le_card (unseen_keeps (R := R) h1)
                      exact ih (hl a (List.mem_cons_self ..)) (by omega)
                  | source p =>
                      exact ⟨false, t1.insert p, rfl, fun _ _ => id, fun q hq =>
                        Found.mem_insert.mpr (.inl hq)⟩
                  | unknown => exact ⟨true, t1, rfl, .refl t1⟩
                obtain ⟨r3, t3, hfold, h3⟩ := ihl (fun a ha => hl a (List.mem_cons_of_mem _ ha))
                  (join e.all acc r2) t2 (h1.trans h2)
                exact ⟨r3, t3, foldlM_cons_ok.mpr ⟨_, bind_ok.mpr ⟨_, hvisit, rfl⟩, hfold⟩, h2.trans h3⟩
          obtain ⟨r1, t1, hfold, h1⟩ := hloop e.inputs (fun a ha => hR v hv a ⟨e, he, ha⟩) e.all _ (.refl _)
          refine ⟨r1, _, bind_ok.mpr ⟨e, he, bind_ok.mpr ⟨_, hfold, rfl⟩⟩, ?_⟩
          have hkeeps := hstart.trans h1
          cases r1
          · exact hkeeps
          · refine ⟨fun w r hw => ?_, hkeeps.src⟩
            have hwv : w ≠ v := fun hwv => by simp [hwv, hs] at hw
            exact (Found.see_of_ne hwv true).trans (hkeeps.seen w r hw)

/-- The search returns, whatever the cycles. -/
theorem search_total [DecidableEq β] (hfin : {w | Reaches E v w}.Finite)
    (hok : ∀ w, Reaches E v w → ∃ e, E w = .ok e) :
    ∃ N, ∀ fuel, N ≤ fuel → ∃ r t, search E fuel v Found.empty = .ok (r, t) := by
  have hmem : ∀ w, w ∈ hfin.toFinset ↔ Reaches E v w := fun w => Set.Finite.mem_toFinset hfin
  refine ⟨(unseen hfin.toFinset (Found.empty : Found α β)).card + 1, fun fuel hfuel => ?_⟩
  obtain ⟨r, t, hrun, -⟩ := search_returns (fun w hw => hok w ((hmem w).mp hw))
    (fun w hw a ha => (hmem a).mpr (((hmem w).mp hw).tail ha)) ((hmem v).mpr .refl)
    (Nat.lt_of_succ_le hfuel)
  exact ⟨r, t, hrun⟩

end

end

/-! ## The order of the inputs -/

/-- The equations that `v` depends on in `E` are those of `E'`, up to the order of their
inputs. -/
def Reorders (E E' : α → Run (Eqn α β)) (v : α) : Prop := ∀ w, Reaches E v w → ∀ e, E w = .ok e →
  ∃ e', E' w = .ok e' ∧ e'.all = e.all ∧ e'.inputs.Perm e.inputs

namespace Reorders

variable {E E' E'' : α → Run (Eqn α β)} {v w a : α}

theorem refl (E : α → Run (Eqn α β)) (v : α) : Reorders E E v := fun _ _ e he =>
  ⟨e, he, rfl, .refl _⟩

theorem below (h : Reorders E E' v) (hw : Reaches E v w) : Reorders E E' w := fun u hu =>
  h u (hw.trans hu)

theorem feeds (h : Reorders E E' v) (ha : Feeds E v a) : Feeds E' v a := by
  obtain ⟨e, he, hmem⟩ := ha
  obtain ⟨e', he', -, hperm⟩ := h v .refl e he
  exact ⟨e', he', hperm.mem_iff.mpr hmem⟩

theorem reaches (h : Reorders E E' v) (hw : Reaches E v w) : Reaches E' v w := by
  induction hw with
  | refl => exact .refl
  | tail hu hfeeds ih => exact ih.tail ((h.below hu).feeds hfeeds)

theorem trans (h : Reorders E E' v) (h' : Reorders E' E'' v) : Reorders E E'' v := by
  intro w hw e he
  obtain ⟨e', he', hall, hperm⟩ := h w hw e he
  obtain ⟨e'', he'', hall', hperm'⟩ := h' w (h.reaches hw) e' he'
  exact ⟨e'', he'', hall'.trans hall, hperm'.trans hperm⟩

theorem gets (h : Reorders E E' v) {p : β} (hp : Gets E v p) : Gets E' v p := by
  obtain ⟨w, e, hw, he, hmem⟩ := hp
  obtain ⟨e', he', -, hperm⟩ := h w hw e he
  exact ⟨w, e', h.reaches hw, he', hperm.mem_iff.mpr hmem⟩

theorem cycle (h : Reorders E E' v) (hw : TransGen (Feeds E) v w) : TransGen (Feeds E') v w := by
  induction hw with
  | single ha => exact .single (h.feeds ha)
  | tail hu hfeeds ih => exact ih.tail ((h.below hu.to_reflTransGen).feeds hfeeds)

theorem steady (h : Reorders E E' v) (hv : Steady E' v) : Steady E v := fun w hw hcycle =>
  hv w (h.reaches hw) ((h.below hw).cycle hcycle)

theorem least (h : Reorders E E' v) (hl : Least E v) : Least E' v := by
  intro S hS
  have hclosed : Closed E fun w => Reaches E v w → S w := by
    intro w e he heval hw
    obtain ⟨e', he', hall, hperm⟩ := h w hw e he
    refine hS w e' he' ?_
    have hinput : ∀ x ∈ e.inputs, Input.Eval (fun w => Reaches E v w → S w) x → Input.Eval S x := by
      rintro (a | p | _) hx hev
      · exact hev (hw.tail ⟨e, he, hx⟩)
      · exact hev
      · exact hev
    unfold EvalOn at heval ⊢
    simp only [hall, hperm.mem_iff]
    split at heval
    · rw [if_pos ‹_›]
      exact fun x hx => hinput x hx (heval x hx)
    · rw [if_neg ‹_›]
      obtain ⟨x, hx, hev⟩ := heval
      exact ⟨x, hx, hinput x hx hev⟩
  exact hl _ hclosed .refl

theorem offset (h : Reorders E E' v) {e : Eqn α β} (he : E v = .ok e) {x : Input α β}
    (hmem : x ∈ e.inputs) (hx : Offset E x) : Offset E' x := by
  rcases hx with hx | ⟨b, rfl, hb⟩
  · exact .inl hx
  · obtain ⟨⟨all, inputs⟩, he', hall, hperm⟩ := h b (.single ⟨e, he, hmem⟩) _ hb
    obtain rfl : all = false := hall
    exact .inr ⟨b, rfl, (List.perm_singleton.mp hperm) ▸ he'⟩

theorem calm (h : Reorders E E' v) (h' : Reorders E' E v) (hv : Calm E v) : Calm E' v := by
  intro e' he' hall
  obtain ⟨e, he, hall', hperm⟩ := h' v .refl e' he'
  refine (hv e he (hall'.trans hall)).imp h'.steady fun hpair => ?_
  refine (hperm.pairwise_iff fun {x y} => Or.symm).mp (hpair.imp_of_mem fun {x y} hx hy hxy => ?_)
  exact hxy.imp (h.offset he hx) (h.offset he hy)

end Reorders

end Equations

end PtrAnalysis
