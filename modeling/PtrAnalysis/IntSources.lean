import PtrAnalysis.GenValues
import PtrAnalysis.Lib.BackEdges

/-!
# Where integers come from

`traceInt` is the memoised search for the equations that it reads off the operations. Of a
select it reads the condition and the first arm, not both arms; where no select is reached
its sources are the pointers that reach the integer. Its result is that of the least
solution without the operands that lead back to a value still in progress; these change
nothing unless an arithmetic operation on two addresses depends on a cycle.
-/

namespace PtrAnalysis

open Run Equations

section

variable (P : Ir)

/-! ## The equations -/

/-- Nothing is known of the integer. -/
def untraced : Eqn Val Val := ⟨false, [.unknown]⟩

/-- Sometimes a pointer or other value can come into an integer phi. -/
def phiInput (x : Val) : Input Val Val :=
  if (P.typeOf x).isInt then .node x else if P.isPtr x then .source x else .unknown

/-- The equation of an operation. Of a select, the operands `sel` and `sel + 1` count. -/
def readOp (load : Val → Run (Eqn Val Val)) (sel : Nat) (op : Op) (ops : List Val) :
    Run (Eqn Val Val) :=
  let a := ops.headD (.misc .other 0)
  let b := ops.getD 1 (.misc .other 0)
  match op with
  | .invoke | .fpToUI | .fpToSI | .iCmp | .fCmp | .call | .vaArg | .extractElement => .ok untraced
  | .ptrToInt => .ok ⟨false, [.source a]⟩
  | .load => load a
  | .shl | .lShr | .aShr | .trunc | .zExt | .sExt | .bitCast =>
      if (P.typeOf a).isInt then .ok ⟨false, [.node a]⟩
      else do
        require (op = .bitCast) "invalid operand for int insn"
        require (P.typeOf a = .float) "invalid cast to int"
        .ok untraced
  | .add | .sub | .mul | .uDiv | .sDiv | .uRem | .sRem | .and | .or | .xor =>
      .ok ⟨true, [.node a, .node b]⟩
  | .phi => .ok ⟨false, ops.map (phiInput P)⟩
  | .select => .ok ⟨false, [.node (ops.getD sel (.misc .other 0)),
      .node (ops.getD (sel + 1) (.misc .other 0))]⟩
  | _ => .error (.assertion "this insn should not produce an int value")

def readLoad (i : Nat) (addr : Val) : Run (Eqn Val Val) := do
  match ← loadSource P i addr with
  | some S => return ⟨false, [.node S]⟩
  | none => return untraced

/-- The equation of an integer value. -/
def readVal (sel : Nat) (v : Val) : Run (Eqn Val Val) := do
  require ((P.typeOf v).isInt) "trying to trace non-int value"
  match v with
  | .arg _ _ | .num _ _ => .ok untraced
  | .expr op _ ops => readOp P (fun _ => .error (.assertion "cast<LoadInst>")) sel op ops.toList
  | .inst i => readOp P (readLoad P i) sel (P.insts i).op (P.insts i).ops
  | _ => .error (.assertion "unknown type of int value")

/-- What the code reads. -/
def codeEqn : Val → Run (Eqn Val Val) := readVal P 0

/-- What the operations say: both arms of a select count. -/
def dataEqn : Val → Run (Eqn Val Val) := readVal P 1

end

/-! ## The search -/

namespace Trace

/-- A trace as a state of the search. -/
def state (t : Trace) : Found Val Val := ⟨t.src, t.seen⟩

/-- The result of a trace as one of the search. -/
def result (u : Bool × Trace) : Bool × Found Val Val := (u.1, u.2.state)

theorem state_see (t : Trace) (v : Val) (r : Bool) : (t.see v r).state = t.state.see v r := rfl

end Trace

section

variable {P : Ir} {fuel : Nat}

/-- The trace is the search for the equations of the code. -/
def IsSearch (P : Ir) (fuel : Nat) : Prop :=
  ∀ v t, search (codeEqn P) fuel v t.state = (traceInt P fuel v t).map Trace.result

/-- The rest of the search for `v`, when its equation is read. -/
def searchInputs (P : Ir) (fuel : Nat) (v : Val) (t : Found Val Val) (e : Eqn Val Val) :
    Run (Bool × Found Val Val) := do
  let (r, t) ← e.inputs.foldlM (fun u x => do
    let (r, t) ← visit (search (codeEqn P) fuel) x u.2
    return (join e.all u.1 r, t)) (e.all, t.see v false)
  return (r, if r then t.see v true else t)

theorem IsSearch.node (h : IsSearch P fuel) (v a : Val) (t : Trace) :
    searchInputs P fuel v t.state ⟨false, [.node a]⟩ =
    (do
      let (r, t) ← traceInt P fuel a (t.see v false)
      Trace.found v r t : Run (Bool × Trace)).map Trace.result := by
  have ha := h a (t.see v false)
  rw [Trace.state_see] at ha
  unfold searchInputs
  simp only [List.foldlM_cons, List.foldlM_nil, visit, ha]
  cases traceInt P fuel a (t.see v false) with
  | error e => rfl
  | ok u =>
      rcases u with ⟨r, t'⟩
      cases r <;> rfl

theorem IsSearch.both (h : IsSearch P fuel) (v a b : Val) (t : Trace) (all : Bool) :
    searchInputs P fuel v t.state ⟨all, [.node a, .node b]⟩ =
    (do
      let (r1, t) ← traceInt P fuel a (t.see v false)
      let (r2, t) ← traceInt P fuel b t
      Trace.found v (join all r1 r2) t : Run (Bool × Trace)).map Trace.result := by
  have ha := h a (t.see v false)
  rw [Trace.state_see] at ha
  unfold searchInputs
  simp only [List.foldlM_cons, List.foldlM_nil, visit, ha]
  cases traceInt P fuel a (t.see v false) with
  | error e => rfl
  | ok u =>
      rcases u with ⟨r1, t1⟩
      have hb := h b t1
      have hfirst : join all all r1 = r1 := by cases all <;> rfl
      simp only [Except.map, Trace.result, bind, Except.bind, pure, Except.pure, hb, hfirst]
      cases traceInt P fuel b t1 with
      | error e => rfl
      | ok u =>
          rcases u with ⟨r2, t2⟩
          cases hr : join all r1 r2
          · simp [Trace.found, hr]
          · simp [Trace.found, Trace.state_see, hr]

/-- One input of a phi. -/
def phiStep (P : Ir) (fuel : Nat) (u : Bool × Trace) (x : Val) : Run (Bool × Trace) :=
  if (P.typeOf x).isInt then do
    let (r, t) ← traceInt P fuel x u.2
    return (u.1 || r, t)
  else if P.isPtr x then .ok (u.1, u.2.insert x)
  else .ok (true, u.2)

theorem IsSearch.phi (h : IsSearch P fuel) (v : Val) (t : Trace) (ops : List Val) :
    searchInputs P fuel v t.state ⟨false, ops.map (phiInput P)⟩ =
    (do
      let (r, t) ← ops.foldlM (phiStep P fuel) (false, t.see v false)
      Trace.found v r t : Run (Bool × Trace)).map Trace.result := by
  have hloop : ∀ (l : List Val) (acc : Bool) (t : Trace),
      (l.map (phiInput P)).foldlM (fun u x => do
        let (r, t) ← visit (search (codeEqn P) fuel) x u.2
        return (join false u.1 r, t)) (acc, t.state) =
      (l.foldlM (phiStep P fuel) (acc, t)).map Trace.result := by
    intro l
    induction l with
    | nil => exact fun _ _ => rfl
    | cons x l ih =>
        intro acc t
        rw [List.map_cons, List.foldlM_cons, List.foldlM_cons]
        by_cases hint : (P.typeOf x).isInt
        · have hx := h x t
          simp only [phiInput, phiStep, hint, if_true, visit, hx]
          cases traceInt P fuel x t with
          | error e => rfl
          | ok u => exact ih (acc || u.1) u.2
        · have hjoin : join false acc false = acc := by cases acc <;> rfl
          by_cases hptr : P.isPtr x
          · simp only [phiInput, phiStep, hint, hptr, if_true, if_false, Bool.false_eq_true]
            change List.foldlM _ (join false acc false, t.state.insert x) _ = _
            rw [hjoin]
            exact ih acc (t.insert x)
          · simp only [phiInput, phiStep, hint, hptr, if_false, Bool.false_eq_true]
            change List.foldlM _ (join false acc true, t.state) _ = _
            rw [show join false acc true = true by cases acc <;> rfl]
            exact ih true t
  have hrun := hloop ops false (t.see v false)
  rw [Trace.state_see] at hrun
  unfold searchInputs
  rw [hrun]
  cases ops.foldlM (phiStep P fuel) (false, t.see v false) with
  | error e => rfl
  | ok u =>
      rcases u with ⟨r, t'⟩
      cases r <;> rfl

/-- What the trace does for an operation, from the state in which `v` is entered. -/
def traceOp (P : Ir) (fuel : Nat) (v : Val) (t : Trace) (load : Val → Run (Bool × Trace)) (op : Op)
    (ops : List Val) : Run (Bool × Trace) :=
  let a := ops.headD (.misc .other 0)
  let b := ops.getD 1 (.misc .other 0)
  let both := fun f : Bool → Bool → Bool => do
    let (r1, t) ← traceInt P fuel a t
    let (r2, t) ← traceInt P fuel b t
    Trace.found v (f r1 r2) t
  match op with
  | .invoke | .fpToUI | .fpToSI | .iCmp | .fCmp | .call | .vaArg | .extractElement =>
      .ok (true, t.see v true)
  | .ptrToInt => .ok (false, t.insert a)
  | .load => load a
  | .shl | .lShr | .aShr | .trunc | .zExt | .sExt | .bitCast =>
      if (P.typeOf a).isInt then do
        let (r, t) ← traceInt P fuel a t
        Trace.found v r t
      else do
        require (op = .bitCast) "invalid operand for int insn"
        require (P.typeOf a = .float) "invalid cast to int"
        .ok (true, t.see v true)
  | .add | .sub | .mul | .uDiv | .sDiv | .uRem | .sRem | .and | .or | .xor => both Bool.and
  | .phi => do
      let (r, t) ← ops.foldlM (phiStep P fuel) (false, t)
      Trace.found v r t
  | .select => both Bool.or
  | _ => .error (.assertion "this insn should not produce an int value")

def traceLoad (P : Ir) (fuel i : Nat) (t : Trace) (addr : Val) : Run (Bool × Trace) := do
  match ← loadSource P i addr with
  | some S => do
      let (r, t) ← traceInt P fuel S t
      Trace.found (.inst i) r t
  | none => .ok (true, t.see (.inst i) true)

theorem IsSearch.load (h : IsSearch P fuel) (i : Nat) (t : Trace) (addr : Val) :
    (readLoad P i addr >>= searchInputs P fuel (.inst i) t.state) =
      (traceLoad P fuel i (t.see (.inst i) false) addr).map Trace.result := by
  unfold readLoad traceLoad
  cases loadSource P i addr with
  | error e => rfl
  | ok S =>
      cases S with
      | none => rfl
      | some S => exact h.node (.inst i) S t

theorem IsSearch.op (h : IsSearch P fuel) (v : Val) (t : Trace) (read : Val → Run (Eqn Val Val))
    (load : Val → Run (Bool × Trace)) (op : Op) (ops : List Val)
    (hload : ∀ a, (read a >>= searchInputs P fuel v t.state) = (load a).map Trace.result) :
    (readOp P read 0 op ops >>= searchInputs P fuel v t.state) =
      (traceOp P fuel v (t.see v false) load op ops).map Trace.result := by
  have hnode := h.node v
  have hboth := h.both v
  have hhead : ops.getD 0 (.misc .other 0) = ops.headD (.misc .other 0) := by cases ops <;> rfl
  unfold readOp traceOp
  cases op
  case load => exact hload _
  case phi => exact h.phi v t ops
  case select =>
    dsimp only
    rw [hhead]
    exact hboth _ _ t false
  case add | sub | mul | uDiv | sDiv | uRem | sRem | and | or | xor => exact hboth _ _ t true
  case shl | lShr | aShr | trunc | zExt | sExt | bitCast =>
    dsimp only
    split
    · exact hnode _ t
    · first
        | rfl
        | by_cases hfloat : P.typeOf (ops.headD (.misc .other 0)) = .float
          · rw [show require (P.typeOf (ops.headD (.misc .other 0)) = .float)
              "invalid cast to int" = .ok () from if_pos hfloat]
            rfl
          · rw [show require (P.typeOf (ops.headD (.misc .other 0)) = .float)
              "invalid cast to int" = .error (.assertion "invalid cast to int") from if_neg hfloat]
            rfl
  all_goals rfl

end

/-! ## What the trace finds -/

/-- The operations that make integers. -/
def Op.makesInt : Op → Bool
  | .invoke | .fpToUI | .fpToSI | .iCmp | .fCmp | .call | .vaArg | .extractElement | .ptrToInt
  | .load | .shl | .lShr | .aShr | .trunc | .zExt | .sExt | .bitCast
  | .add | .sub | .mul | .uDiv | .sDiv | .uRem | .sRem | .and | .or | .xor | .phi | .select => true
  | _ => false

/-- Shifts and casts of integers; bits are also cast from a number with a fraction. -/
def Op.IntOperand (P : Ir) (op : Op) (a : Val) : Prop :=
  op ∈ [.shl, .lShr, .aShr, .trunc, .zExt, .sExt, .bitCast] →
    (P.typeOf a).isInt = true ∨ op = .bitCast ∧ P.typeOf a = .float

/-- The integer values of a module: arguments, numbers, and the results of operations. -/
inductive Traceable (P : Ir) : Val → Prop where
  | arg {f i : Nat} : (P.typeOf (.arg f i)).isInt = true → Traceable P (.arg f i)
  | num {t : Ty} {n : Nat} : t.isInt = true → Traceable P (.num t n)
  | expr {op : Op} {t : Ty} {ops : Vals} : t.isInt = true → op.makesInt = true → op ≠ .load →
      op.IntOperand P (ops.toList.headD (.misc .other 0)) → Traceable P (.expr op t ops)
  | inst {i : Nat} : (P.insts i).ty.isInt = true → (P.insts i).op.makesInt = true →
      (P.insts i).op.IntOperand P ((P.insts i).ops.headD (.misc .other 0)) →
      ((P.insts i).op = .load → i ∈ blockOf P i) → Traceable P (.inst i)

section

variable {P : Ir}

theorem lastStore_returns {i : Nat} (addr : Val) {l : List Nat} (S : Option Val)
    (hop : (P.insts i).op = .load) (hi : i ∈ l) : ∃ S', lastStore P i addr l S = .ok S' := by
  induction l generalizing S with
  | nil => cases hi
  | cons j l ih =>
      unfold lastStore
      dsimp only
      rcases List.mem_cons.mp hi with rfl | hi
      · rw [hop]
        exact ⟨S, by simp⟩
      · split
        · exact ih _ hi
        · split
          · exact ⟨S, rfl⟩
          · exact ih _ hi
        · exact ih _ hi

theorem readLoad_returns {i : Nat} {addr : Val} (hop : (P.insts i).op = .load)
    (hi : i ∈ blockOf P i) : ∃ e, readLoad P i addr = .ok e := by
  obtain ⟨S, hS⟩ := lastStore_returns addr none hop hi
  have hload : ∃ S, loadSource P i addr = .ok S := by
    unfold loadSource
    rw [hS]
    dsimp only
    split
    · split
      · split
        · exact ⟨_, rfl⟩
        · exact ⟨_, rfl⟩
      · exact ⟨_, rfl⟩
    · exact ⟨_, rfl⟩
  obtain ⟨S', hS'⟩ := hload
  unfold readLoad
  rw [hS']
  cases S' with
  | none => exact ⟨_, rfl⟩
  | some S' => exact ⟨_, rfl⟩

theorem readOp_returns (read : Val → Run (Eqn Val Val)) (sel : Nat) {op : Op} {ops : List Val}
    (hop : op.makesInt = true) (hint : op.IntOperand P (ops.headD (.misc .other 0)))
    (hload : op = .load → ∃ e, read (ops.headD (.misc .other 0)) = .ok e) :
    ∃ e, readOp P read sel op ops = .ok e := by
  have hcast : op ∈ [.shl, .lShr, .aShr, .trunc, .zExt, .sExt, .bitCast] →
      ∃ e, (if (P.typeOf (ops.headD (.misc .other 0))).isInt then
          .ok ⟨false, [.node (ops.headD (.misc .other 0))]⟩
        else do
          require (op = .bitCast) "invalid operand for int insn"
          require (P.typeOf (ops.headD (.misc .other 0)) = .float) "invalid cast to int"
          .ok untraced : Run (Eqn Val Val)) = .ok e := by
    intro hmem
    rcases hint hmem with h | ⟨rfl, h⟩
    · exact ⟨_, if_pos h⟩
    · refine ⟨untraced, ?_⟩
      rw [h]
      rfl
  unfold readOp
  cases op
  case load => exact hload rfl
  case shl | lShr | aShr | trunc | zExt | sExt | bitCast => exact hcast (by decide)
  all_goals first
    | exact ⟨_, rfl⟩
    | cases hop

theorem Traceable.reads {v : Val} (h : Traceable P v) (sel : Nat) : ∃ e, readVal P sel v = .ok e := by
  unfold readVal
  cases h with
  | arg hint => exact ⟨_, require_bind_ok.mpr ⟨hint, rfl⟩⟩
  | num hint => exact ⟨_, require_bind_ok.mpr ⟨hint, rfl⟩⟩
  | expr hint hop hload hops =>
      obtain ⟨e, he⟩ := readOp_returns (fun _ => .error (.assertion "cast<LoadInst>")) sel hop hops
        fun h => absurd h hload
      exact ⟨e, require_bind_ok.mpr ⟨hint, he⟩⟩
  | @inst i hint hop hops hblock =>
      obtain ⟨e, he⟩ := readOp_returns (readLoad P i) sel hop hops fun h =>
        readLoad_returns h (hblock h)
      exact ⟨e, require_bind_ok.mpr ⟨hint, he⟩⟩

/-- The sources `src` are the pointers that reach `v`, and `r` is what the least solution
says. -/
def Exact (P : Ir) (v : Val) (r : Bool) (src : List Val) : Prop :=
  (∀ p, p ∈ src ↔ Gets (dataEqn P) v p) ∧ (r = true ↔ Least (dataEqn P) v)

/-- What `v` depends on, when the code reads it. The pointers are those of the operations, and
in any order of the operands nothing is lost with those that lead back to a value in
progress. -/
structure Traced (P : Ir) (v : Val) : Prop where
  reads : ∀ w, Reaches (codeEqn P) v w → ∃ e, codeEqn P w = .ok e
  sources : ∀ p, Gets (codeEqn P) v p ↔ Gets (dataEqn P) v p
  value : ∀ E, Reorders (codeEqn P) E v → Reorders E (codeEqn P) v →
    ∀ fuel m, walk E fuel [] v (fun _ => none) = .ok m →
      (LeastAhead E m v ↔ Least (dataEqn P) v)

/-- The search for `E` returns, with what is exact. -/
def Finds (P : Ir) (E : Val → Run (Eqn Val Val)) (v : Val) : Prop :=
  ∃ N, ∀ fuel, N ≤ fuel → ∃ r t, search E fuel v Found.empty = .ok (r, t) ∧ Exact P v r t.src

theorem Traced.finds {v : Val} {E : Val → Run (Eqn Val Val)} (h : Traced P v)
    (hfin : {w | Reaches (codeEqn P) v w}.Finite) (hE : Reorders (codeEqn P) E v)
    (hE' : Reorders E (codeEqn P) v) : Finds P E v := by
  have hok : ∀ w, Reaches E v w → ∃ e, E w = .ok e := fun w hw => by
    obtain ⟨e, he⟩ := h.reads w (hE'.reaches hw)
    obtain ⟨e', he', -⟩ := hE w (hE'.reaches hw) e he
    exact ⟨e', he'⟩
  obtain ⟨N, hN⟩ := search_total (hfin.subset fun w hw => hE'.reaches hw) hok
  refine ⟨N, fun fuel hfuel => ?_⟩
  obtain ⟨r, t, hrun⟩ := hN fuel hfuel
  obtain ⟨⟨m, hm, hr⟩, hsrc, -⟩ := search_ahead hrun
  refine ⟨r, t, hrun, fun p => ?_, hr.trans (h.value E hE hE' fuel m hm)⟩
  exact (hsrc p).trans (Iff.trans ⟨hE'.gets, hE.gets⟩ (h.sources p))

end

/-! ## A loop over an array, and a select -/

end PtrAnalysis
