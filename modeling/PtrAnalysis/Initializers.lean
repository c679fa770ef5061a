import PtrAnalysis.CallUses
import PtrAnalysis.GenGlobals
import PtrAnalysis.GepOffset
import Mathlib.Algebra.Ring.Nat

/-!
# The pointers in an initializer

Which pointers `procGlobalInit` finds in a constant, and the field of the object each of
them belongs to by its count: a null or undefined part counts as one field. A constant that
is built as the language demands never has more fields by that count than its type.
-/

namespace PtrAnalysis

open Run Gen

/-! ## The parts of a constant -/

/-- What a constant is built from. -/
def Val.children : Val → List Val
  | .struct _ vs | .array _ vs | .expr _ _ vs => vs.toList
  | _ => []

/-- A property of every constant whose parts have it. -/
theorem Val.induct_children {motive : Val → Prop}
    (h : ∀ v : Val, (∀ w ∈ v.children, motive w) → motive v) (v : Val) : motive v := by
  have hleaf : ∀ v : Val, v.children = [] → motive v := fun v hv =>
    h v fun w hw => absurd (hv ▸ hw) List.not_mem_nil
  refine Val.rec (motive_1 := motive) (motive_2 := fun vs => ∀ w ∈ vs.toList, motive w)
    (fun _ => hleaf _ rfl) (fun _ => hleaf _ rfl) (fun _ _ => hleaf _ rfl) (fun _ => hleaf _ rfl)
    (fun _ => hleaf _ rfl) (fun _ => hleaf _ rfl) (fun _ => hleaf _ rfl) (fun _ _ => hleaf _ rfl)
    (fun _ _ ih => h _ ih) (fun _ _ ih => h _ ih) (fun _ _ => hleaf _ rfl) (fun _ _ _ ih => h _ ih)
    (fun _ => hleaf _ rfl) (fun _ _ => hleaf _ rfl) ?_ ?_ v
  · intro w hw
    cases hw
  · intro v vs hv hvs w hw
    rcases List.mem_cons.mp hw with rfl | hw
    · exact hv
    · exact hvs w hw

/-- `w` is a part of `v`, or `v` itself. -/
def PartOf (w v : Val) : Prop := Relation.ReflTransGen (fun a b => b ∈ a.children) v w

theorem PartOf.child {u v w : Val} (h : PartOf u w) (hw : w ∈ v.children) : PartOf u v :=
  .head hw h

theorem PartOf.trans {u v w : Val} (h : PartOf u v) (h' : PartOf v w) : PartOf u w :=
  Relation.ReflTransGen.trans h' h

theorem partOf_iff {w v : Val} : PartOf w v ↔ w = v ∨ ∃ u ∈ v.children, PartOf w u := by
  unfold PartOf
  rw [Relation.ReflTransGen.cases_head_iff]
  exact or_congr eq_comm Iff.rfl

theorem parts_finite (v : Val) : {w | PartOf w v}.Finite := by
  induction v using Val.induct_children with
  | h v ih =>
      have hparts : {w | PartOf w v} = {v} ∪ ⋃ u ∈ {u | u ∈ v.children}, {w | PartOf w u} := by
        ext w
        simp [partOf_iff (v := v)]
      rw [hparts]
      exact (Set.finite_singleton v).union ((List.finite_toSet v.children).biUnion ih)

/-! ## Counting fields -/

mutual

/-- How many fields `procGlobalInit` counts for a constant. -/
def Val.fieldCount : Val → Nat
  | .struct _ fields => fields.countAll
  -- every element goes into the same fields
  | .array _ elems => elems.countLast 0
  | _ => 1

def Vals.countAll : Vals → Nat
  | .nil => 0
  | .cons v vs => v.fieldCount + vs.countAll

def Vals.countLast : Vals → Nat → Nat
  | .nil, k => k
  | .cons v vs, _ => vs.countLast v.fieldCount

end

theorem Vals.countAll_eq (vs : Vals) : vs.countAll = (vs.toList.map Val.fieldCount).sum := by
  induction vs using Vals.rec (motive_1 := fun _ => True) with
  | nil => rfl
  | cons v vs _ ih => simp [countAll, toList, ih]
  | _ => trivial

theorem Vals.countLast_eq (vs : Vals) (k : Nat) :
    vs.countLast k = vs.toList.foldl (fun _ v => v.fieldCount) k := by
  induction vs using Vals.rec (motive_1 := fun _ => True) generalizing k with
  | nil => rfl
  | cons v vs _ ih => exact ih v.fieldCount
  | _ => trivial

/-- The fields of an array are those of one of its elements. -/
theorem Vals.countLast_cases (vs : Vals) (k : Nat) :
    vs.countLast k = k ∨ ∃ v ∈ vs.toList, vs.countLast k = v.fieldCount := by
  induction vs using Vals.rec (motive_1 := fun _ => True) generalizing k with
  | nil => exact .inl rfl
  | cons v vs _ ih =>
      right
      rcases ih v.fieldCount with h | ⟨w, hw, h⟩
      · exact ⟨v, List.mem_cons_self .., h⟩
      · exact ⟨w, List.mem_cons_of_mem _ hw, h⟩
  | _ => trivial

/-- A struct or an array that is given by its elements. -/
def Val.isAggregate : Val → Bool
  | .struct _ _ | .array _ _ => true
  | _ => false

theorem Val.fieldCount_one {v : Val} (h : v.isAggregate = false) : v.fieldCount = 1 := by
  cases v <;> first | rfl | cases h

theorem Val.simple_of_null {v : Val} (h : v.isNullValue ∨ v.isUndef) : v.isAggregate = false := by
  cases v with
  | struct s fields => simp [isNullValue, isUndef] at h
  | array t elems => simp [isNullValue, isUndef] at h
  | _ => rfl

theorem Val.simple_of_single {P : Ir} {v : Val} (h : (P.typeOf v).isSingleValue = true) :
    v.isAggregate = false := by
  cases v with
  | struct s fields => cases h
  | array t elems => cases h
  | _ => rfl

mutual

/-- The elements of structs and arrays have the types they must have, and no bitcast is applied
to a struct or array. -/
def Val.typed (P : Ir) : Val → Bool
  | .struct s fields => decide (fields.toList.map P.typeOf = P.structs s) && fields.typed P
  | .array t elems => elems.toList.all (fun v => decide (P.typeOf v = t)) && elems.typed P
  | .expr op _ ops => (op ≠ .bitCast || ops.toList.all fun v => !v.isAggregate) && ops.typed P
  | _ => true

def Vals.typed (P : Ir) : Vals → Bool
  | .nil => true
  | .cons v vs => v.typed P && vs.typed P

end

section

variable {P : Ir}

theorem Vals.typed_iff {vs : Vals} : vs.typed P = true ↔ ∀ v ∈ vs.toList, v.typed P = true := by
  induction vs using Vals.rec (motive_1 := fun _ => True) with
  | nil => simp [typed, toList]
  | cons v vs _ ih => simp [typed, toList, ih]
  | _ => trivial

theorem typed_struct {s : Nat} {fields : Vals} (h : (Val.struct s fields).typed P = true) :
    fields.toList.map P.typeOf = P.structs s ∧ ∀ v ∈ fields.toList, v.typed P = true := by
  rw [Val.typed, Bool.and_eq_true, decide_eq_true_eq, Vals.typed_iff] at h
  exact h

theorem typed_array {t : Ty} {elems : Vals} (h : (Val.array t elems).typed P = true) :
    ∀ v ∈ elems.toList, P.typeOf v = t ∧ v.typed P = true := by
  rw [Val.typed, Bool.and_eq_true, List.all_eq_true, Vals.typed_iff] at h
  exact fun v hv => ⟨of_decide_eq_true (h.1 v hv), h.2 v hv⟩

theorem typed_child {v w : Val} (h : v.typed P = true) (hw : w ∈ v.children) :
    w.typed P = true := by
  cases v with
  | struct s fields => exact (typed_struct h).2 w hw
  | array t elems => exact (typed_array h w hw).2
  | expr op t ops =>
      rw [Val.typed, Bool.and_eq_true, Vals.typed_iff] at h
      exact h.2 w hw
  | _ => cases hw

theorem PartOf.typed {v w : Val} (h : PartOf w v) (hv : v.typed P = true) : w.typed P = true := by
  induction h with
  | refl => exact hv
  | tail _ hw ih => exact typed_child ih hw

/-- A constant has at most the fields of its type. -/
def Val.Fits (P : Ir) (v : Val) : Prop :=
  ∀ n, Leaves P [P.typeOf v] n → FilledAll P [P.typeOf v] → v.fieldCount ≤ n

theorem FilledAll.of_mem {Ts : List Ty} {T : Ty} (h : FilledAll P Ts) (hT : T ∈ Ts) :
    FilledAll P [T] := fun U hU => h U (List.mem_singleton.mp hU ▸ hT)

theorem sum_fits {l : List Val} {n : Nat} (hl : Leaves P (l.map P.typeOf) n)
    (hfill : FilledAll P (l.map P.typeOf)) (h : ∀ v ∈ l, v.Fits P) :
    (l.map Val.fieldCount).sum ≤ n := by
  induction l generalizing n with
  | nil => exact Nat.zero_le n
  | cons v l ih =>
      obtain ⟨m, k, hm, hk, rfl⟩ := hl.uncons
      have hv := h v (List.mem_cons_self ..) m hm (hfill.of_mem (List.mem_cons_self ..))
      have hrest := ih hk (fun T hT => hfill T (List.mem_cons_of_mem _ hT)) fun w hw =>
        h w (List.mem_cons_of_mem _ hw)
      rw [List.map_cons, List.sum_cons]
      omega

theorem Val.typed_fits {v : Val} (hv : v.typed P = true) : v.Fits P := by
  induction v using Val.induct_children with
  | h v ih =>
      intro n hn hfill
      cases hagg : v.isAggregate with
      | false =>
          rw [Val.fieldCount_one hagg]
          exact hn.pos (List.cons_ne_nil _ _) hfill
      | true =>
          cases v with
          | struct s fields =>
              obtain ⟨htypes, hfields⟩ := typed_struct hv
              have hs : Leaves P (P.structs s) n := hn.struct_leaves rfl
              have hall : FilledAll P (P.structs s) := (hfill.filled rfl).elements
              rw [← htypes] at hs hall
              rw [Val.fieldCount, Vals.countAll_eq]
              exact sum_fits hs hall fun w hw => ih w hw (hfields w hw)
          | array t elems =>
              rw [Val.fieldCount]
              rcases elems.countLast_cases 0 with h | ⟨w, hw, h⟩
              · rw [h]
                exact Nat.zero_le n
              · obtain ⟨rfl, htyped⟩ := typed_array hv w hw
                rw [h]
                exact ih w hw htyped n hn.element hfill.strip
          | _ => cases hagg

/-- Where a field of a struct constant lies among the leaves of the type. -/
theorem field_room {s n : Nat} {fields : Vals} {before after : List Val} {C : Val}
    (hv : (Val.struct s fields).typed P = true) (hn : Leaves P [.struct s] n)
    (hfill : FilledAll P [.struct s]) (hf : fields.toList = before ++ C :: after) :
    ∃ m, Leaves P [P.typeOf C] m ∧ FilledAll P [P.typeOf C] ∧
      (before.map Val.fieldCount).sum + m ≤ n := by
  obtain ⟨htypes, hfields⟩ := typed_struct hv
  have hs : Leaves P (P.structs s) n := hn.struct_leaves rfl
  have hall : FilledAll P (P.structs s) := (hfill.filled rfl).elements
  rw [← htypes, hf, List.map_append] at hs hall
  obtain ⟨b, r, hb, hr, rfl⟩ := hs.split
  obtain ⟨m, k, hm, -, rfl⟩ := hr.uncons
  have hbefore := sum_fits hb (fun T hT => hall T (List.mem_append_left _ hT)) fun w hw =>
    Val.typed_fits (hfields w (hf ▸ List.mem_append_left _ hw))
  exact ⟨m, hm, hall.of_mem (List.mem_append_right _ (List.mem_cons_self ..)), by omega⟩

end

/-! ## What is behind bitcasts -/

/-- `S` is behind the bitcasts around `C`. -/
def Strips (C : Val) (S : Stripped) : Prop := ∃ fuel, stripInit fuel C = .ok S

/-- `S` is the base of the constant GEP `E`. -/
def HasBase (E : Val) (S : Option (Val × Bool)) : Prop := ∃ fuel, stripBase fuel E.operand0 = .ok S

/-- A GEP expression. -/
def Val.isGep : Val → Bool
  | .expr .gep _ _ => true
  | _ => false

theorem Val.isExpr_of_isGep {v : Val} (h : v.isGep = true) : v.isExpr = true := by
  cases v <;> first | rfl | cases h

theorem Val.operand0_children (v : Val) :
    v.operand0 ∈ v.children ∨ v.operand0 = .misc .other 0 := by
  cases v with
  | expr op t ops =>
      cases ops with
      | nil => exact .inr rfl
      | cons w ws => exact .inl (List.mem_cons_self ..)
  | _ => exact .inr rfl

theorem stripInit_unique {fuel fuel' : Nat} {C : Val} {S S' : Stripped}
    (h : stripInit fuel C = .ok S) (h' : stripInit fuel' C = .ok S') : S = S' := by
  induction fuel generalizing fuel' C with
  | zero => cases h
  | succ fuel ih =>
      cases fuel' with
      | zero => cases h'
      | succ fuel' =>
          cases C with
          | expr op t ops =>
              cases op with
              | bitCast => exact ih h h'
              | _ => exact Except.ok.inj (h.symm.trans h')
          | _ => exact Except.ok.inj (h.symm.trans h')

theorem stripBase_unique {fuel fuel' : Nat} {R : Val} {S S' : Option (Val × Bool)}
    (h : stripBase fuel R = .ok S) (h' : stripBase fuel' R = .ok S') : S = S' := by
  induction fuel generalizing fuel' R with
  | zero => cases h
  | succ fuel ih =>
      cases fuel' with
      | zero => cases h'
      | succ fuel' =>
          cases R with
          | expr op t ops =>
              cases op with
              | bitCast => exact ih h h'
              | _ => exact Except.ok.inj (h.symm.trans h')
          | _ => exact Except.ok.inj (h.symm.trans h')

/-- The first operand is typed, and so is what is behind a bitcast. -/
theorem typed_operand0 {P : Ir} {op : Op} {t : Ty} {ops : Vals}
    (h : (Val.expr op t ops).typed P = true) :
    (Val.expr op t ops).operand0.typed P = true ∧
      (op = .bitCast → (Val.expr op t ops).operand0.isAggregate = false) := by
  rw [Val.typed, Bool.and_eq_true, Vals.typed_iff] at h
  obtain ⟨hop, hops⟩ := h
  cases ops with
  | nil => exact ⟨rfl, fun _ => rfl⟩
  | cons w ws =>
      refine ⟨hops w (List.mem_cons_self ..), fun hb => ?_⟩
      subst hb
      have hall : ∀ v ∈ (Vals.cons w ws).toList, v.isAggregate = false := by simpa using hop
      exact hall w (List.mem_cons_self ..)

/-- Structs and arrays are not stripped. -/
theorem Strips.value {C : Val} {S : Stripped} (h : Strips C S) :
    S = .value C ∨ C.isAggregate = false := by
  obtain ⟨fuel, h⟩ := h
  cases fuel with
  | zero => cases h
  | succ fuel =>
      cases C with
      | struct s fields => exact .inl (Except.ok.inj h).symm
      | array t elems => exact .inl (Except.ok.inj h).symm
      | _ => exact .inr rfl

/-- What is left of an aggregate is the aggregate. -/
theorem Strips.simple {C C' : Val} (hS : Strips C (.value C')) (hC' : C'.isAggregate = false) :
    C.isAggregate = false := by
  rcases hS.value with heq | hno
  · cases heq
    exact hC'
  · exact hno

theorem Strips.unique {C : Val} {S S' : Stripped} (h : Strips C S) (h' : Strips C S') : S = S' := by
  obtain ⟨fuel, h⟩ := h
  obtain ⟨fuel', h'⟩ := h'
  exact stripInit_unique h h'

theorem HasBase.unique {E : Val} {S S' : Option (Val × Bool)} (h : HasBase E S)
    (h' : HasBase E S') : S = S' := by
  obtain ⟨fuel, h⟩ := h
  obtain ⟨fuel', h'⟩ := h'
  exact stripBase_unique h h'

theorem stripInit_typed {P : Ir} {fuel : Nat} {C C' : Val} (hC : C.typed P = true)
    (h : stripInit fuel C = .ok (.value C')) :
    C'.typed P = true ∧ (C' = C ∨ C'.isAggregate = false) := by
  induction fuel generalizing C with
  | zero => cases h
  | succ fuel ih =>
      unfold stripInit at h
      split at h
      · split at h
        · obtain ⟨htyped, hagg⟩ := typed_operand0 hC
          obtain ⟨hC', heq | hno⟩ := ih htyped h
          · exact ⟨hC', .inr (heq ▸ hagg rfl)⟩
          · exact ⟨hC', .inr hno⟩
        · cases h
          exact ⟨hC, .inl rfl⟩
        all_goals cases h
      · cases h
        exact ⟨hC, .inl rfl⟩

/-- Expressions that are not stripped are GEPs. -/
theorem stripInit_gep {fuel : Nat} {C C' : Val} (h : stripInit fuel C = .ok (.value C')) :
    C'.isExpr = C'.isGep := by
  induction fuel generalizing C with
  | zero => cases h
  | succ fuel ih =>
      unfold stripInit at h
      split at h
      · split at h
        · exact ih h
        · cases h
          rfl
        all_goals cases h
      · rename_i hno
        cases h
        cases C' with
        | expr op t ops => exact (hno op t ops rfl).elim
        | _ => rfl

theorem stripBase_gep {fuel : Nat} {R R' : Val} {nested : Bool}
    (h : stripBase fuel R = .ok (some (R', nested))) : R'.isExpr = nested ∧ R'.isGep = nested := by
  induction fuel generalizing R with
  | zero => cases h
  | succ fuel ih =>
      unfold stripBase at h
      split at h
      · split at h
        · exact ih h
        · cases h
        · cases h
          exact ⟨rfl, rfl⟩
        · cases h
      · rename_i hno
        cases h
        cases R' with
        | expr op t ops => exact (hno op t ops rfl).elim
        | _ => exact ⟨rfl, rfl⟩

theorem PartOf.operand0 {v w : Val} (h : PartOf w v.operand0) (hw : w.isExpr = true) :
    PartOf w v := by
  rcases v.operand0_children with hv | hv
  · exact h.child hv
  · rw [hv] at h
    rcases partOf_iff.mp h with rfl | ⟨u, hu, -⟩
    · cases hw
    · cases hu

theorem stripInit_part {fuel : Nat} {C C' : Val} (h : stripInit fuel C = .ok (.value C'))
    (hC' : C'.isExpr = true) : PartOf C' C := by
  induction fuel generalizing C with
  | zero => cases h
  | succ fuel ih =>
      unfold stripInit at h
      split at h
      · split at h
        · exact (ih h).operand0 hC'
        · cases h
          exact .refl
        all_goals cases h
      · cases h
        exact .refl

theorem stripBase_part {fuel : Nat} {R R' : Val} (h : stripBase fuel R = .ok (some (R', true))) :
    PartOf R' R := by
  induction fuel generalizing R with
  | zero => cases h
  | succ fuel ih =>
      have hexpr := (stripBase_gep h).1
      unfold stripBase at h
      split at h
      · split at h
        · exact (ih h).operand0 hexpr
        · cases h
        · cases h
          exact .refl
        · cases h
      · cases h

section

variable {P : Ir}

/-! ## The pointers -/

/-- The pointers in a constant that need a constraint, with the field each is put into. -/
inductive LeafAt (P : Ir) : Val → Nat → Stripped → Prop
  | pointer {C C' : Val} (hs : Strips C (.value C')) (hnull : ¬ (C'.isNullValue ∨ C'.isUndef))
      (hptr : P.isPtr C') : LeafAt P C 0 (.value C')
  | unknown {C : Val} (hs : Strips C .unknown) : LeafAt P C 0 .unknown
  | field {s o : Nat} {fields : Vals} {before after : List Val} {C : Val} {L : Stripped}
      (hf : fields.toList = before ++ C :: after) (h : LeafAt P C o L) :
      LeafAt P (.struct s fields) ((before.map Val.fieldCount).sum + o) L
  | element {t : Ty} {o : Nat} {elems : Vals} {C : Val} {L : Stripped} (hC : C ∈ elems.toList)
      (h : LeafAt P C o L) : LeafAt P (.array t elems) o L

/-- The pointers of a constant that is no struct and no array. -/
theorem LeafAt.simple {C : Val} {o : Nat} {L : Stripped} (h : LeafAt P C o L)
    (hC : C.isAggregate = false) : o = 0 ∧ Strips C L := by
  cases h with
  | pointer hs _ _ => exact ⟨rfl, hs⟩
  | unknown hs => exact ⟨rfl, hs⟩
  | field _ _ => cases hC
  | element _ _ => cases hC

/-- Null and undefined pointers need no constraint. -/
theorem LeafAt.needed {C C' : Val} {o : Nat} (h : LeafAt P C o (.value C')) :
    ¬ (C'.isNullValue ∨ C'.isUndef) ∧ P.isPtr C' := by
  generalize hL : Stripped.value C' = L at h
  induction h with
  | pointer _ hnull hptr =>
      cases hL
      exact ⟨hnull, hptr⟩
  | unknown _ => cases hL
  | field _ _ ih => exact ih hL
  | element _ _ ih => exact ih hL

theorem LeafAt.not_number {C : Val} {o : Nat} : ¬ LeafAt P C o .number := by
  intro h
  generalize hL : Stripped.number = L at h
  induction h with
  | pointer _ _ _ => cases hL
  | unknown _ => cases hL
  | field _ _ ih => exact ih hL
  | element _ _ ih => exact ih hL

theorem LeafAt.fields {s o : Nat} {fields : Vals} {L : Stripped}
    (h : LeafAt P (.struct s fields) o L) : ∃ before C after o', fields.toList = before ++ C :: after ∧
      LeafAt P C o' L ∧ o = (before.map Val.fieldCount).sum + o' := by
  cases h with
  | pointer hs _ hptr =>
      rcases hs.value with heq | hno
      · cases heq
        cases hptr
      · cases hno
  | unknown hs =>
      rcases hs.value with heq | hno
      · cases heq
      · cases hno
  | field hf h => exact ⟨_, _, _, _, hf, h, rfl⟩

theorem LeafAt.elements {t : Ty} {o : Nat} {elems : Vals} {L : Stripped}
    (h : LeafAt P (.array t elems) o L) : ∃ C ∈ elems.toList, LeafAt P C o L := by
  cases h with
  | pointer hs _ hptr =>
      rcases hs.value with heq | hno
      · cases heq
        cases hptr
      · cases hno
  | unknown hs =>
      rcases hs.value with heq | hno
      · cases heq
      · cases hno
  | element hC h => exact ⟨_, hC, h⟩

end

end PtrAnalysis
