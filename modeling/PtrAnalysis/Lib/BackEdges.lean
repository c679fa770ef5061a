import PtrAnalysis.Lib.Equations

/-!
# What the memoised search loses

While the search evaluates an unknown, the unknown counts as false. `walk` visits the unknowns in the
order of the search and says which ones each is evaluated inside of. An input that leads back to one
of these is lost, and nothing else is: without such inputs, the least solution is what the search
returns.
-/

namespace PtrAnalysis

open Run Relation

namespace Equations

variable {α β : Type} (E : α → Run (Eqn α β))

/-- Enter `v` from inside of `above`; `m` holds, for each unknown that was entered, what the search was
inside of then, and the unknown itself. -/
def walk [DecidableEq α] : Nat → List α → α → (α → Option (List α)) → Run (α → Option (List α))
  | 0, _, _, _ => .error .fuel
  | fuel + 1, above, v, m =>
    match m v with
    | some _ => .ok m
    | none => do
      let e ← E v
      e.inputs.foldlM (fun m x => match x with
        | .node a => walk fuel (v :: above) a m
        | _ => .ok m) (Function.update m v (some (v :: above)))

/-- The unknowns in `S` satisfy all equations that ask for more, if inputs that lead back are false. -/
def ClosedAhead (m : α → Option (List α)) (S : α → Prop) : Prop :=
  ∀ v e l, E v = .ok e → m v = some l → EvalOn e.all e.inputs (fun a => S a ∧ a ∉ l) → S v

/-- The unknown is true in the least solution without the inputs that lead back. -/
def LeastAhead (m : α → Option (List α)) (v : α) : Prop := ∀ S, ClosedAhead E m S → S v

theorem evalOn_congr {all : Bool} {l : List (Input α β)} {S S' : α → Prop}
    (h : ∀ a, .node a ∈ l → (S a ↔ S' a)) : EvalOn all l S ↔ EvalOn all l S' := by
  have hinput : ∀ x ∈ l, (Input.Eval S x ↔ Input.Eval S' x) := by
    intro x hx
    cases x with
    | node a => exact h a hx
    | source p => exact Iff.rfl
    | unknown => exact Iff.rfl
  unfold EvalOn
  split
  · exact forall₂_congr hinput
  · exact exists_congr fun x => and_congr_right (hinput x)

/-- The search and the walk in step, inside of `above`. -/
structure Along (above : List α) (t : Found α β) (m : α → Option (List α)) : Prop where
  entered : ∀ w, t.seen w = none ↔ m w = none
  inside : ∀ w ∈ above, t.seen w = some false
  passed : ∀ w r, t.seen w = some r → w ∉ above → ∃ e, E w = .ok e ∧ ∀ x ∈ e.inputs, Input.Passed t x
  back : ∀ w l e, m w = some l → w ∉ above → E w = .ok e → ∀ a ∈ above, .node a ∈ e.inputs → a ∈ l
  value : ∀ w r l e, t.seen w = some r → m w = some l → w ∉ above → E w = .ok e →
    EvalOn e.all e.inputs (fun a => t.seen a = some true ∧ a ∉ l) → r = true
  sound : ∀ S, ClosedAhead E m S → ∀ w, t.seen w = some true → S w
  only : ∀ p ∈ t.src, ∃ w e r, t.seen w = some r ∧ E w = .ok e ∧ .source p ∈ e.inputs

variable {E} {above : List α} {t t' t0 : Found α β} {m m' m0 : α → Option (List α)} {v w : α}
  {r : Bool}

theorem along_empty : Along E [] (Found.empty : Found α β) fun _ => none where
  entered _ := iff_of_true rfl rfl
  inside w hw := by cases hw
  passed w r hw := by cases hw
  back w l e hw := by cases hw
  value w r l e hw := by cases hw
  sound S _ w hw := by cases hw
  only p hp := by cases hp

/-- An input keeps the value it had when it was passed. -/
theorem Keeps.true_iff (h : Keeps t t') (ha : Input.Passed t (.node v)) :
    t'.seen v = some true ↔ t.seen v = some true := by
  obtain ⟨r, hr⟩ := ha
  rw [hr, h.seen v r hr]

variable [DecidableEq α]

/-- The unknown `v` is entered. -/
theorem Along.enter (h : Along E above t m) (hv : t.seen v = none) :
    Along E (v :: above) (t.see v false) (Function.update m v (some (v :: above))) := by
  have hkeeps : Keeps t (t.see v false) := Found.see_keeps fun r hr => by simp [hv] at hr
  have hseen : ∀ w, w ≠ v → (t.see v false).seen w = t.seen w := fun w hw => Found.see_of_ne hw _
  refine ⟨fun w => ?_, fun w hw => ?_, fun w r hw hwA => ?_, fun w l e hw hwA he a ha hmem => ?_,
    fun w r l e hw hl hwA he heval => ?_, fun S hS w hw => ?_, fun p hp => ?_⟩
  · by_cases hwv : w = v
    · subst hwv
      simp
    · rw [hseen w hwv, Function.update_of_ne hwv]
      exact h.entered w
  · rcases List.mem_cons.mp hw with rfl | hw
    · exact Found.see_self ..
    · have hold := h.inside w hw
      rw [hseen w fun hwv => by simp [← hwv, hold] at hv]
      exact hold
  · obtain ⟨hwv, hwA⟩ := not_or.mp (List.mem_cons.not.mp hwA)
    obtain ⟨e, he, hpassed⟩ := h.passed w r (hseen w hwv ▸ hw) hwA
    exact ⟨e, he, fun x hx => (hpassed x hx).keeps hkeeps⟩
  · obtain ⟨hwv, hnot⟩ := not_or.mp (List.mem_cons.not.mp hwA)
    rw [Function.update_of_ne hwv] at hw
    rcases List.mem_cons.mp ha with rfl | ha
    · -- what was finished has no input that was not visited
      obtain ⟨r, hr⟩ := Option.ne_none_iff_exists'.mp fun hn => by
        simp [(h.entered w).mp hn] at hw
      obtain ⟨e', he', hpassed⟩ := h.passed w r hr hnot
      obtain rfl := Except.ok.inj (he.symm.trans he')
      obtain ⟨r', hr'⟩ := hpassed _ hmem
      simp [hv] at hr'
    · exact h.back w l e hw hnot he a ha hmem
  · obtain ⟨hwv, hwA⟩ := not_or.mp (List.mem_cons.not.mp hwA)
    rw [hseen w hwv] at hw
    rw [Function.update_of_ne hwv] at hl
    refine h.value w r l e hw hl hwA he (heval.mono fun a ⟨ha, hal⟩ => ⟨?_, hal⟩)
    by_cases hav : a = v
    · subst hav
      simp at ha
    · rwa [hseen a hav] at ha
  · have hwv : w ≠ v := fun hwv => by simp [hwv] at hw
    refine h.sound S (fun u e l he hl heval => hS u e l he ?_ heval) w (hseen w hwv ▸ hw)
    have huv : u ≠ v := fun huv => by simp [huv, (h.entered v).mp hv] at hl
    rwa [Function.update_of_ne huv]
  · obtain ⟨w, e, r, hw, he⟩ := h.only p hp
    exact ⟨w, e, r, hkeeps.seen w r hw, he⟩

omit [DecidableEq α] in
/-- A source of an input of `v`. -/
theorem Along.source [DecidableEq β] (h : Along E above t m) {e : Eqn α β} {p : β} (he : E v = .ok e)
    (hp : .source p ∈ e.inputs) (hv : t.seen v = some r) : Along E above (t.insert p) m := by
  have hkeeps : Keeps t (t.insert p) := ⟨fun _ _ => id, fun q hq => Found.mem_insert.mpr (.inl hq)⟩
  refine ⟨h.entered, h.inside, fun w r hw hwA => ?_, h.back, h.value, h.sound, fun q hq => ?_⟩
  · obtain ⟨e, he, hpassed⟩ := h.passed w r hw hwA
    exact ⟨e, he, fun x hx => (hpassed x hx).keeps hkeeps⟩
  · rcases Found.mem_insert.mp hq with hq | rfl
    · exact h.only q hq
    · exact ⟨v, e, r, hv, he, hp⟩

/-- The inputs `done` of `v` were visited since it was entered, with the value `acc`. -/
structure AlongFold (E : α → Run (Eqn α β)) (e : Eqn α β) (v : α) (above : List α) (t0 : Found α β)
    (m0 : α → Option (List α)) (done : List (Input α β)) (acc : Bool) (t : Found α β)
    (m : α → Option (List α)) : Prop where
  along : Along E (v :: above) t m
  keeps : Keeps t0 t
  grows : ∀ w l, m0 w = some l → m w = some l
  passed : ∀ x ∈ done, Input.Passed t x
  value : acc = true ↔ EvalOn e.all done fun a => t.seen a = some true ∧ a ∉ v :: above
  reach : ∀ w r, t.seen w = some r → t0.seen w = none → Reaches E v w

/-- What the visit of the input `a` does. -/
structure AlongVisit (E : α → Run (Eqn α β)) (above : List α) (a : α) (t : Found α β)
    (m : α → Option (List α)) (r : Bool) (t' : Found α β) (m' : α → Option (List α)) : Prop where
  along : Along E above t' m'
  keeps : Keeps t t'
  grows : ∀ w l, m w = some l → m' w = some l
  result : t'.seen a = some r
  reach : ∀ w r, t'.seen w = some r → t.seen w = none → Reaches E a w

omit [DecidableEq α] in
/-- One more input, whose value is `r`. -/
theorem AlongFold.step {e : Eqn α β} {done : List (Input α β)} {acc : Bool} {x : Input α β}
    (h : AlongFold E e v above t0 m0 done acc t m) (halong : Along E (v :: above) t' m')
    (hkeeps : Keeps t t') (hgrows : ∀ w l, m w = some l → m' w = some l) (hx : Input.Passed t' x)
    (hr : r = true ↔ Input.Eval (fun a => t'.seen a = some true ∧ a ∉ v :: above) x)
    (hreach : ∀ w r, t'.seen w = some r → t.seen w = none → Reaches E v w) :
    AlongFold E e v above t0 m0 (done ++ [x]) (join e.all acc r) t' m' := by
  refine ⟨halong, h.keeps.trans hkeeps, fun w l hw => hgrows w l (h.grows w l hw), fun y hy => ?_, ?_,
    fun w r' hw h0 => ?_⟩
  · rcases List.mem_append.mp hy with hy | hy
    · exact (h.passed y hy).keeps hkeeps
    · exact List.mem_singleton.mp hy ▸ hx
  · have hdone : EvalOn e.all done (fun a => t'.seen a = some true ∧ a ∉ v :: above) ↔
        EvalOn e.all done fun a => t.seen a = some true ∧ a ∉ v :: above :=
      evalOn_congr fun a ha => and_congr_left fun _ => hkeeps.true_iff (h.passed _ ha)
    rw [join_true, evalOn_concat, hdone, ← h.value, ← hr]
  · cases ht : t.seen w with
    | none => exact hreach w r' hw ht
    | some r1 => exact h.reach w r1 ht h0

/-- All inputs of `v` were visited. -/
theorem AlongFold.finish {e : Eqn α β}
    (h : AlongFold E e v above (t.see v false) (Function.update m v (some (v :: above))) e.inputs r t'
      m') (he : E v = .ok e) (halong : Along E above t m) (hv : t.seen v = none) :
    AlongVisit E above v t m r (if r then t'.see v true else t') m' := by
  have hself : t'.seen v = some false := h.keeps.seen v false (by simp)
  have hpath : m' v = some (v :: above) := h.grows v _ (Function.update_self ..)
  have hstart : Keeps t (t.see v false) := Found.see_keeps fun r hr => by simp [hv] at hr
  have hnot : v ∉ above := fun hmem => by simp [halong.inside v hmem] at hv
  have hres : (if r then t'.see v true else t').seen v = some r := by
    cases r
    · exact hself
    · simp
  have hrest : ∀ w, w ≠ v → (if r then t'.see v true else t').seen w = t'.seen w := by
    intro w hwv
    cases r
    · rfl
    · simp [hwv]
  have hsrc : (if r then t'.see v true else t').src = t'.src := by cases r <;> rfl
  have hpass : ∀ {x}, Input.Passed t' x → Input.Passed (if r then t'.see v true else t') x := by
    rintro (a | p | _) hx
    · by_cases hav : a = v
      · exact ⟨r, hav ▸ hres⟩
      · obtain ⟨r', hr'⟩ := hx
        exact ⟨r', (hrest a hav).trans hr'⟩
    · exact (congrArg (p ∈ ·) hsrc).mpr hx
    · trivial
  generalize (if r then t'.see v true else t') = u at hres hrest hsrc hpass
  have hcons : ∀ {w}, w ≠ v → w ∉ above → w ∉ v :: above := fun hwv hwA => by simp [hwv, hwA]
  refine ⟨⟨fun w => ?_, fun w hw => ?_, fun w r' hw hwA => ?_, fun w l e' hl hwA he' a ha hmem => ?_,
    fun w r' l e' hw hl hwA he' heval => ?_, fun S hS w hw => ?_, fun p hp => ?_⟩,
    ⟨fun w r' hw => ?_, fun p hp => ?_⟩, fun w l hw => ?_, hres, fun w r' hw hnew => ?_⟩
  · by_cases hwv : w = v
    · subst hwv
      simp [hres, hpath]
    · rw [hrest w hwv]
      exact h.along.entered w
  · rw [hrest w fun hwv => hnot (hwv ▸ hw)]
    exact h.along.inside w (List.mem_cons_of_mem v hw)
  · by_cases hwv : w = v
    · subst hwv
      exact ⟨e, he, fun x hx => hpass (h.passed x hx)⟩
    · obtain ⟨e', he', hpassed⟩ := h.along.passed w r' (hrest w hwv ▸ hw) (hcons hwv hwA)
      exact ⟨e', he', fun x hx => hpass (hpassed x hx)⟩
  · by_cases hwv : w = v
    · subst hwv
      obtain rfl := Option.some.inj (hpath.symm.trans hl)
      exact List.mem_cons_of_mem w ha
    · exact h.along.back w l e' hl (hcons hwv hwA) he' a (List.mem_cons_of_mem v ha) hmem
  · by_cases hwv : w = v
    · subst hwv
      obtain rfl := Option.some.inj (hpath.symm.trans hl)
      obtain rfl := Option.some.inj (hres.symm.trans hw)
      obtain rfl := Except.ok.inj (he.symm.trans he')
      refine h.value.mpr (heval.mono fun a ⟨ha, hal⟩ => ⟨?_, hal⟩)
      rwa [hrest a fun hav => hal (by simp [hav])] at ha
    · have hwc := hcons hwv hwA
      refine h.along.value w r' l e' (hrest w hwv ▸ hw) hl hwc he' ?_
      -- an input that is `v` leads back
      refine (evalOn_congr fun a ha => ?_).mp heval
      by_cases hav : a = v
      · have hal : a ∈ l := h.along.back w l e' hl hwc he' a (by simp [hav]) ha
        simp [hal]
      · rw [hrest a hav]
  · by_cases hwv : w = v
    · subst hwv
      obtain rfl := Option.some.inj (hres.symm.trans hw)
      refine hS w e _ he hpath ((h.value.mp rfl).mono fun a ⟨ha, hal⟩ => ⟨?_, hal⟩)
      exact h.along.sound S hS a ha
    · exact h.along.sound S hS w (hrest w hwv ▸ hw)
  · obtain ⟨w, e', r', hw, he'⟩ := h.along.only p (hsrc ▸ hp)
    by_cases hwv : w = v
    · exact ⟨w, e', r, hwv ▸ hres, he'⟩
    · exact ⟨w, e', r', (hrest w hwv).trans hw, he'⟩
  · have hwv : w ≠ v := fun hwv => by simp [hwv, hv] at hw
    rw [hrest w hwv]
    exact h.keeps.seen w r' (hstart.seen w r' hw)
  · exact hsrc ▸ h.keeps.src p (hstart.src p hp)
  · have hwv : w ≠ v := fun hwv => by simp [hwv, (halong.entered v).mp hv] at hw
    exact h.grows w l (by rwa [Function.update_of_ne hwv])
  · by_cases hwv : w = v
    · exact hwv ▸ .refl
    · exact h.reach w r' (hrest w hwv ▸ hw) (by simpa [hwv] using hnew)

omit [DecidableEq α] in
/-- An unknown that is evaluated to true is not one that the search is inside of. -/
theorem AlongVisit.eval {a : α} (h : AlongVisit E (v :: above) a t m r t' m') :
    r = true ↔ t'.seen a = some true ∧ a ∉ v :: above := by
  rw [h.result, Option.some.injEq]
  refine ⟨fun hr => ⟨hr, fun ha => ?_⟩, And.left⟩
  have hfalse := h.along.inside a ha
  rw [h.result, hr] at hfalse
  cases hfalse

/-- The inputs of `v`, one after the other. -/
theorem fold_along [DecidableEq β] {fuel : Nat} {e : Eqn α β} (he : E v = .ok e)
    (hvisit : ∀ {a : α} {t t' : Found α β} {m : α → Option (List α)} {r : Bool},
      Along E (v :: above) t m → search E fuel a t = .ok (r, t') →
        ∃ m', walk E fuel (v :: above) a m = .ok m' ∧ AlongVisit E (v :: above) a t m r t' m')
    (hv : t0.seen v = some false) (rest done : List (Input α β)) {acc : Bool}
    (hinputs : e.inputs = done ++ rest) (h : AlongFold E e v above t0 m0 done acc t m)
    (hrun : rest.foldlM (fun u x => do
      let (r, t) ← visit (search E fuel) x u.2
      return (join e.all u.1 r, t)) (acc, t) = .ok (r, t')) :
    ∃ m', rest.foldlM (fun m x => match x with
        | .node a => walk E fuel (v :: above) a m
        | _ => .ok m) m = .ok m' ∧
      AlongFold E e v above t0 m0 e.inputs r t' m' := by
  induction rest generalizing done acc t m with
  | nil =>
      obtain ⟨rfl, rfl⟩ := Prod.mk.inj (foldlM_nil_ok.mp hrun)
      rw [hinputs, List.append_nil]
      exact ⟨m, rfl, h⟩
  | cons x rest ih =>
      obtain ⟨u, hstep, hrest⟩ := foldlM_cons_ok.mp hrun
      obtain ⟨⟨r1, t1⟩, hx, hstep⟩ := bind_ok.mp hstep
      obtain rfl := Except.ok.inj hstep
      have hinputs' : e.inputs = (done ++ [x]) ++ rest := by simp [hinputs]
      have hmem : x ∈ e.inputs := by simp [hinputs]
      cases x with
      | node a =>
          obtain ⟨m1, hwalk, hx⟩ := hvisit h.along hx
          have hreach : ∀ w r, t1.seen w = some r → t.seen w = none → Reaches E v w :=
            fun w r hw hnew => .head ⟨e, he, hmem⟩ (hx.reach w r hw hnew)
          obtain ⟨m', hm', hall⟩ := ih _ hinputs'
            (h.step hx.along hx.keeps hx.grows ⟨r1, hx.result⟩ hx.eval hreach) hrest
          exact ⟨m', foldlM_cons_ok.mpr ⟨m1, hwalk, hm'⟩, hall⟩
      | source p =>
          obtain ⟨rfl, rfl⟩ := Prod.mk.inj (Except.ok.inj hx)
          have hkeeps : Keeps t (t.insert p) :=
            ⟨fun _ _ => id, fun q hq => Found.mem_insert.mpr (.inl hq)⟩
          exact ih _ hinputs' (h.step (h.along.source he hmem (h.keeps.seen v false hv)) hkeeps
            (fun _ _ => id) (Found.mem_insert.mpr (.inr rfl)) (iff_of_false (by simp) id)
            fun w r hw hnone => absurd (hw.symm.trans hnone) (by simp)) hrest
      | unknown =>
          obtain ⟨rfl, rfl⟩ := Prod.mk.inj (Except.ok.inj hx)
          exact ih _ hinputs' (h.step h.along (.refl t) (fun _ _ => id) trivial
            (iff_of_true rfl trivial) fun w r hw hnone => absurd (hw.symm.trans hnone) (by simp)) hrest

/-- The search and the walk, by induction on the depth of the recursion. -/
theorem search_along [DecidableEq β] {fuel : Nat} (h : Along E above t m)
    (hrun : search E fuel v t = .ok (r, t')) :
    ∃ m', walk E fuel above v m = .ok m' ∧ AlongVisit E above v t m r t' m' := by
  induction fuel generalizing v above t m r t' with
  | zero => cases hrun
  | succ fuel ih =>
      unfold search at hrun
      unfold walk
      cases hv : t.seen v with
      | some r0 =>
          rw [hv] at hrun
          obtain ⟨rfl, rfl⟩ := Prod.mk.inj (Except.ok.inj hrun)
          have hm : m v ≠ none := fun hn => by simp [(h.entered v).mpr hn] at hv
          obtain ⟨l, hl⟩ := Option.ne_none_iff_exists'.mp hm
          rw [hl]
          exact ⟨m, rfl, h, .refl t, fun _ _ => id, hv, fun w r hw hnew =>
            absurd (hw.symm.trans hnew) (by simp)⟩
      | none =>
          rw [hv] at hrun
          rw [(h.entered v).mp hv]
          dsimp only at hrun ⊢
          obtain ⟨e, he, hrun⟩ := bind_ok.mp hrun
          obtain ⟨⟨r1, t1⟩, hfold, hrun⟩ := bind_ok.mp hrun
          obtain ⟨rfl, rfl⟩ := Prod.mk.inj (Except.ok.inj hrun)
          have hstart : AlongFold E e v above (t.see v false)
              (Function.update m v (some (v :: above))) [] e.all (t.see v false)
              (Function.update m v (some (v :: above))) :=
            ⟨h.enter hv, .refl _, fun _ _ => id, by simp, by cases hall : e.all <;> simp [EvalOn],
              fun w r hw hnew => absurd (hw.symm.trans hnew) (by simp)⟩
          obtain ⟨m', hm', hall⟩ := fold_along he (fun h => ih h) (Found.see_self ..) e.inputs [] rfl
            hstart hfold
          exact ⟨m', bind_ok.mpr ⟨e, he, hm'⟩, hall.finish he h hv⟩

/-! ## The search from the outside -/

/-- What a search that returns says: its result is that of the least solution without the inputs that
lead back, it found the sources that reach `v`, and all that `v` depends on has an equation. -/
theorem search_ahead [DecidableEq β] {fuel : Nat} (hrun : search E fuel v Found.empty = .ok (r, t)) :
    (∃ m, walk E fuel [] v (fun _ => none) = .ok m ∧ (r = true ↔ LeastAhead E m v)) ∧
      (∀ p, p ∈ t.src ↔ Gets E v p) ∧ ∀ w, Reaches E v w → ∃ e, E w = .ok e := by
  obtain ⟨m, hm, h⟩ := search_along along_empty hrun
  have hseen : ∀ w, Reaches E v w → ∃ r, t.seen w = some r := by
    intro w hw
    induction hw with
    | refl => exact ⟨r, h.result⟩
    | tail _ hfeeds ih =>
        obtain ⟨r1, hr1⟩ := ih
        obtain ⟨e, he, hpassed⟩ := h.along.passed _ r1 hr1 List.not_mem_nil
        obtain ⟨e', he', hmem⟩ := hfeeds
        obtain rfl := Except.ok.inj (he.symm.trans he')
        exact hpassed _ hmem
  refine ⟨⟨m, hm, fun hr S hS => ?_, fun hl => ?_⟩, fun p => ⟨fun hp => ?_, ?_⟩, fun w hw => ?_⟩
  · exact h.along.sound S hS v (hr ▸ h.result)
  · -- what was evaluated to true satisfies the equations
    have htrue : t.seen v = some true := hl (fun w => t.seen w = some true) fun w e l he hl heval => by
      have hw : t.seen w ≠ none := fun hn => by simp [(h.along.entered w).mp hn] at hl
      obtain ⟨r1, hr1⟩ := Option.ne_none_iff_exists'.mp hw
      change t.seen w = some true
      rw [hr1, h.along.value w r1 l e hr1 hl List.not_mem_nil he heval]
    exact Option.some.inj (h.result.symm.trans htrue)
  · obtain ⟨w, e, r1, hw, he⟩ := h.along.only p hp
    exact ⟨w, e, h.reach w r1 hw rfl, he⟩
  · rintro ⟨w, e, hw, he, hmem⟩
    obtain ⟨r1, hr1⟩ := hseen w hw
    obtain ⟨e', he', hpassed⟩ := h.along.passed w r1 hr1 List.not_mem_nil
    obtain rfl := Except.ok.inj (he.symm.trans he')
    exact hpassed _ hmem
  · obtain ⟨r1, hr1⟩ := hseen w hw
    obtain ⟨e, he, -⟩ := h.along.passed w r1 hr1 List.not_mem_nil
    exact ⟨e, he⟩

end Equations

end PtrAnalysis
