import PtrAnalysis.HandlerMaps

/-!
# What the declarations write

The footprints of the handlers of globals and functions. The parameters of an address-taken
function get IDs in its object before the object is made.
-/

namespace PtrAnalysis

open Run Act

namespace Gen

section

variable {P : Ir} {fuel : Nat} {own fresh : Set Slot} {S : Set Nat}

/-! ## Globals -/

theorem idGepCe_safe (hE : ExprsIn fresh) (v : Val) :
    Safe P own fresh S (idGepCe P fuel v) fun _ => ∅ := by
  induction fuel generalizing v with
  | zero => exact .throw _ _
  | succ fuel ih =>
      rw [idGepCe]
      refine .forM isNode_lasts fun u _ => ?_
      split
      · exact ih _
      · rename_i t ops _
        refine .seq isNode_lasts (.lift _) fun _ g => ?_
        unfold GivesAt
        rw [wp_bind, wp_get, wp_bind, wp_lift]
        intro _ hfree
        have hnone : g.slots (.val (.expr .gep t ops)) = none :=
          Option.isNone_iff_eq_none.mp (require_ok.mp hfree)
        refine freshNode_safe hnone (hE _ _ _) fun n g1 => ?_
        unfold GivesAt
        rw [wp_modify]
        refine ⟨⟨List.prefix_refl _, .of_eq (by funext a; cases a <;> rfl)⟩, fun hB _ =>
          ⟨{ hB with entry := fun a n hn => hB.entry a n (by cases a <;> exact hn) },
            fun n hn => absurd hn (Set.notMem_empty n)⟩⟩
      · exact .done _

/-- What the declaration of a global enters. -/
structure OwnsGlobal (own : Set Slot) (i : Nat) : Prop where
  val : .val (.global i) ∈ own
  obj : .obj (.global i) ∈ own

theorem idGlobal_safe (hE : ExprsIn fresh) {i : Nat} (hown : OwnsGlobal own i) :
    Safe P own fresh S (idGlobal P fuel i) fun _ => ∅ := by
  have hG : ∀ f, Val.global i ≠ .func f := fun f hf => by cases hf
  intro g
  unfold GivesAt
  simp only [idGlobal, pushNode, takeNode, bump, setValNode, setObjNode, pushNodes, wp_bind,
    wp_get, wp_modify, wp_pure]
  generalize decide ((P.global i).elem ≠ (P.global i).elem.strip) = isArray
  -- the value node comes first, then the object, whatever its size
  have hobject : ∀ (info : Nat → Option (List Nat × List Nat)) (U : Ty) (m : Nat) (l : List GenNode)
      (x : GenM Unit), StructsOnly g { g with structInfo := info, maxStruct := U, maxStructSz := m } →
      (FlatInfo g.structInfo → l ≠ []) →
      Safe P own fresh (S ∪ {g.nextNode, g.nextNode + 1}) x (fun _ => ∅) →
      Wp x (fun _ g' => Extends own fresh g g' ∧ (Bounded P g → (∀ n ∈ S, IsNode g n) →
        Bounded P g' ∧ ∀ n ∈ (∅ : Set Nat), IsNode g' n)) { g with
          structInfo := info, maxStruct := U, maxStructSz := m
          nodes := g.nodes ++ [{ val := some (.global i) }] ++ l
          nextNode := g.nextNode + 1 + l.length
          valNode := Function.update g.valNode (.global i) (some g.nextNode)
          objNode := Function.update g.objNode (.global i) (some (g.nextNode + 1)) } := by
    intro info U m l x hstructs hl hx
    have hslots := slots_valNode (g := { g with
      structInfo := info, maxStruct := U, maxStructSz := m
      nodes := g.nodes ++ [{ val := some (.global i) }], nextNode := g.nextNode + 1 })
      (.global i) g.nextNode
    have hvalue : Extends own fresh g { g with
        structInfo := info, maxStruct := U, maxStructSz := m
        nodes := g.nodes ++ [{ val := some (.global i) }], nextNode := g.nextNode + 1
        valNode := Function.update g.valNode (.global i) (some g.nextNode) } :=
      IsTrans.trans _ _ _ hstructs.extends ⟨List.prefix_append _ _, hslots ▸ .update hown.val _⟩
    refine (hx _).after isNode_lasts ?_ fun hB _ => ?_
    · exact IsTrans.trans _ _ _ hvalue (extends_object hown.obj l _ _ _)
    · have h1 := ((hB.structsOnly hstructs).push [{ val := some (.global i) }] rfl).enter hslots
        (by simp [hB.count]) (fun f => by simp) rfl rfl rfl rfl rfl rfl rfl
      refine ⟨h1.object hG (hl hB.structs) rfl, fun n hn => ?_⟩
      have hpos := List.length_pos_iff.mpr (hl hB.structs)
      rcases hn with rfl | rfl
      · simp only [IsNode, List.length_append, List.length_singleton, hB.count]
        omega
      · simp only [IsNode, List.length_append, List.length_singleton, hB.count]
        omega
  have hrest : Safe P own fresh (S ∪ {g.nextNode, g.nextNode + 1}) (do
      idGepCe P fuel (.global i)
      cons .addrOf g.nextNode (g.nextNode + 1)) fun _ => ∅ :=
    .seq isNode_lasts (idGepCe_safe hE _) fun _ => cons_safe (.inr (.inl rfl)) (.inl (.inr (.inr rfl)))
  split
  · rw [wp_bind]
    apply ((structs_spec P fuel).2 _ _).imp
    rintro sizes g1 ⟨hg1, hflat⟩
    obtain ⟨hinfo, hsome, info, U, m, rfl⟩ := hg1
    simp only [wp_bind, wp_modify]
    have hrun := hobject info U m (sizes.map fun sz => ⟨some (.global i), sz, isArray⟩) _
      ⟨hinfo, hsome, info, U, m, rfl⟩ (fun h => by simpa using (hflat h).1) hrest
    simpa only [wp_bind, List.length_map] using hrun
  · simp only [wp_bind, wp_modify]
    have hrun := hobject g.structInfo g.maxStruct g.maxStructSz [⟨some (.global i), 1, isArray⟩]
      (if isArray then do
        idGepCe P fuel (.global i)
        cons .addrOf g.nextNode (g.nextNode + 1)
      else cons .addrOf g.nextNode (g.nextNode + 1)) (refl g) (fun _ => by simp)
      (.ite (fun _ => hrest) fun _ => cons_safe (.inr (.inl rfl)) (.inl (.inr (.inr rfl))))
    exact hrun

/-! ## Functions that are not called through pointers -/

/-- What the declaration of function `f` enters; of the parameters of `main`, `argv` and `envp`
get objects. -/
structure OwnsFunc (P : Ir) (own : Set Slot) (f : Nat) : Prop where
  val : .val (.func f) ∈ own
  obj : .obj (.func f) ∈ own
  arg : ∀ j, .val (.arg f j) ∈ own
  argObj : (P.func f).name = "main" → ∀ j, 1 ≤ j → j ≤ 2 → .obj (.arg f j) ∈ own
  ret : .ret f ∈ own
  vararg : .vararg f ∈ own

theorem newValNode_safe (v : Val) : Safe P own fresh S (newValNode v) fun n => {n} :=
  newNode_safe fun _ => .pure _ Set.subset_union_right

theorem idMainArgs_safe {f : Nat} (hown : OwnsFunc P own f) (hmain : (P.func f).name = "main") :
    Safe P own fresh S (idMainArgs P f) fun _ => ∅ := by
  refine .forM isNode_lasts fun i _ => .ite (fun hi => ?_) fun _ => .done _
  refine .bind isNode_lasts (newValNode_safe _) fun vn => ?_
  refine .seq isNode_lasts (setValNode_safe (hown.arg i) (.inr rfl)) fun _ g => ?_
  unfold GivesAt
  simp only [pushNodes, bump, setObjNode, wp_bind, wp_get, wp_modify]
  have hcons : Safe P own fresh (S ∪ {vn} ∪ {g.nextNode, g.nextNode + 1}) (do
      cons .addrOf vn g.nextNode
      cons .addrOf g.nextNode (g.nextNode + 1)) fun _ => ∅ :=
    .seq isNode_lasts (cons_safe (.inl (.inr rfl)) (.inl (.inr (.inl rfl)))) fun _ =>
      cons_safe (.inr (.inl rfl)) (.inl (.inr (.inr rfl)))
  have hrun := pair_safe false (hown.argObj hmain i hi.1 hi.2) (fun f h => by cases h) hcons rfl
  rwa [wp_bind] at hrun

theorem setRetNode_safe {f n : Nat} (hown : .ret f ∈ own) (hn : n ∈ S) :
    Safe P own fresh S (modify fun g : Gen => { g with
      retNode := Function.update g.retNode f (some n) }) fun _ => ∅ := by
  intro g
  unfold GivesAt
  rw [wp_modify]
  refine ⟨⟨List.prefix_refl _, ?_⟩, fun hB hS => ⟨?_, fun n hn => absurd hn (Set.notMem_empty n)⟩⟩
  · exact slots_retNode f n ▸ .update hown _
  · exact hB.enter (slots_retNode f n) (hS n hn) (fun f => by simp) rfl rfl rfl rfl rfl rfl rfl

theorem setVarargNode_safe {f n : Nat} (hown : .vararg f ∈ own) (hn : n ∈ S) :
    Safe P own fresh S (modify fun g : Gen => { g with
      varargNode := Function.update g.varargNode f (some n) }) fun _ => ∅ := by
  intro g
  unfold GivesAt
  rw [wp_modify]
  refine ⟨⟨List.prefix_refl _, ?_⟩, fun hB hS => ⟨?_, fun n hn => absurd hn (Set.notMem_empty n)⟩⟩
  · exact slots_varargNode f n ▸ .update hown _
  · exact hB.enter (slots_varargNode f n) (hS n hn) (fun f => by simp) rfl rfl rfl rfl rfl rfl rfl

theorem idPlainFunc_safe {f : Nat} (hown : OwnsFunc P own f) :
    Safe P own fresh S (idPlainFunc P f) fun _ => ∅ := by
  have hvararg : ∀ S, Safe P own fresh S (if (P.func f).isVarArg then do
      let va ← newValNode (.func f)
      modify fun g => { g with varargNode := Function.update g.varargNode f (some va) }
      else pure ()) fun _ => ∅ := fun S =>
    .ite (fun _ => .bind isNode_lasts (newValNode_safe _) fun va =>
      setVarargNode_safe hown.vararg (.inr rfl)) fun _ => .done _
  refine .seq isNode_lasts (.forM isNode_lasts fun i _ => .ite (fun _ => ?_) fun _ => .done _)
    fun _ => .ite (fun _ => ?_) fun _ => hvararg S
  · exact .bind isNode_lasts (newValNode_safe _) fun vn => setValNode_safe (hown.arg i) (.inr rfl)
  · refine .bind isNode_lasts (newValNode_safe _) fun rn => ?_
    exact .seq isNode_lasts (setRetNode_safe hown.ret (.inr rfl)) fun _ => hvararg _

/-! ## Functions that may be -/

/-- The object of function `f` with the nodes of its first `k` parameters. -/
def funcNodes (f k : Nat) (va : Bool) : List GenNode :=
  ⟨some (.func f), funcNodeOffArg0 + k + va.toNat, false⟩ :: ⟨some (.func f), 1, false⟩ ::
    ((List.range k).map (fun i => ⟨some (.arg f i), 1, false⟩) ++
      List.replicate va.toNat ⟨some (.func f), 1, false⟩)

theorem funcNodes_length (f k : Nat) (va : Bool) :
    (funcNodes f k va).length = funcNodeOffArg0 + k + va.toNat := by
  simp [funcNodes, funcNodeOffArg0]
  omega

/-- The parameters get their IDs, and nothing else changes. -/
theorem setArgs_spec {f : Nat} (onF : Nat) (as : List Nat) (g : Gen) :
    Wp (as.forM fun i => do
        setValNode (.arg f i) (onF + funcNodeOffArg0 + i)
        modify fun g => { g with atArgs := insert (.arg f i) g.atArgs })
      (fun _ g' => ∃ vals args, g' = { g with valNode := vals, atArgs := args } ∧
        (∀ i ∈ as, vals (.arg f i) = some (onF + funcNodeOffArg0 + i)) ∧
        ∀ v, (∀ i ∈ as, v ≠ .arg f i) → vals v = g.valNode v) g := by
  induction as generalizing g with
  | nil => exact ⟨g.valNode, g.atArgs, rfl, by simp, fun _ _ => rfl⟩
  | cons i as ih =>
      change Wp (_ >>= fun _ => as.forM _) _ g
      rw [wp_bind, wp_bind, setValNode, wp_modify, wp_modify]
      apply (ih _).imp
      rintro _ _ ⟨vals, args, rfl, hin, hout⟩
      refine ⟨vals, args, rfl, fun j hj => ?_, fun v hv => ?_⟩
      · by_cases hj' : j ∈ as
        · exact hin j hj'
        · obtain rfl : j = i := (List.mem_cons.mp hj).resolve_right hj'
          rw [hout _ fun k hk h => hj' (by cases h; exact hk)]
          exact Function.update_self ..
      · rw [hout v fun k hk => hv k (List.mem_cons_of_mem _ hk)]
        exact Function.update_of_ne (hv i (List.mem_cons_self ..)) _ _

/-- How many parameters get nodes in the object. -/
structure Reach (P : Ir) (f k : Nat) : Prop where
  none : lastPtr P f = allOnes P → k = 0
  some : lastPtr P f ≠ allOnes P → k = lastPtr P f + 1 ∧ k ≤ (P.func f).params.length

/-- The object behind the nodes `l`. -/
theorem idTakenFunc_spec {f : Nat} {g : Gen} {l : List GenNode}
    (hcount : g.nextNode = g.nodes.length) (hnodes : g.nodes = l ++ [⟨some (.func f), 1, false⟩]) :
    Wp (idTakenFunc P f l.length) (fun _ g' => ∃ k vals args, Reach P f k ∧
      (∀ j < (P.func f).params.length, vals (.arg f j) = some (l.length + funcNodeOffArg0 + j)) ∧
      (∀ j, (P.func f).params.length ≤ j → vals (.arg f j) = g.valNode (.arg f j)) ∧
      (∀ v, (∀ j, v ≠ .arg f j) → vals v = g.valNode v) ∧
      g' = { g with
        nodes := l ++ funcNodes f k (P.func f).isVarArg
        nextNode := (l ++ funcNodes f k (P.func f).isVarArg).length
        valNode := vals, atArgs := args }) g := by
  have hmodify : ∀ (sz : Nat) (body : List GenNode),
      (l ++ ⟨some (.func f), 1, false⟩ :: body).modify l.length
        (fun N => { N with objSz := sz }) = l ++ ⟨some (.func f), sz, false⟩ :: body := by
    intro sz body
    rw [List.modify_eq_take_cons_drop (by simp)]
    simp
  unfold idTakenFunc
  rw [wp_bind]
  apply (setArgs_spec l.length _ g).imp
  rintro _ _ ⟨vals, args, rfl, hin, hout⟩
  have hargs : ∀ j < (P.func f).params.length,
      vals (.arg f j) = some (l.length + funcNodeOffArg0 + j) := fun j hj =>
    hin j (List.mem_range.mpr hj)
  have hrest : ∀ v, (∀ j, v ≠ .arg f j) → vals v = g.valNode v := fun v hv =>
    hout v fun j _ => hv j
  have hmore : ∀ j, (P.func f).params.length ≤ j → vals (.arg f j) = g.valNode (.arg f j) :=
    fun j hj => hout _ fun i hi h => by
      cases h
      exact absurd (List.mem_range.mp hi) (not_lt.mpr hj)
  have hnext : g.nextNode = l.length + 1 := by simp [hcount, hnodes]
  simp only [pushNodes, bump, wp_bind, wp_get, wp_lift, wp_modify]
  intro _ _ _ _
  -- the varargs come last
  have hend : ∀ k nodes next, Reach P f k → nodes = l ++ ⟨some (.func f), 1, false⟩ ::
      ⟨some (.func f), 1, false⟩ :: (List.range k).map (fun i => ⟨some (.arg f i), 1, false⟩) →
      next = l.length + funcNodeOffArg0 + k → Wp (if (P.func f).isVarArg then do
        pushNodes (.func f) [1] false
        bump 1
        modify fun g => { g with nodes := g.nodes.modify l.length fun N =>
          { N with objSz := g.nextNode - l.length } }
      else modify fun g => { g with nodes := g.nodes.modify l.length fun N =>
          { N with objSz := g.nextNode - l.length } })
      (fun _ g' => ∃ k vals args, Reach P f k ∧
        (∀ j < (P.func f).params.length, vals (.arg f j) = some (l.length + funcNodeOffArg0 + j)) ∧
        (∀ j, (P.func f).params.length ≤ j → vals (.arg f j) = g.valNode (.arg f j)) ∧
        (∀ v, (∀ j, v ≠ .arg f j) → vals v = g.valNode v) ∧
        g' = { g with
          nodes := l ++ funcNodes f k (P.func f).isVarArg
          nextNode := (l ++ funcNodes f k (P.func f).isVarArg).length
          valNode := vals, atArgs := args })
      { g with nodes := nodes, nextNode := next, valNode := vals, atArgs := args } := by
    rintro k _ _ hk rfl rfl
    simp only [pushNodes, bump, wp_ite, wp_bind, wp_modify]
    constructor
    · intro hva
      refine ⟨k, vals, args, hk, hargs, hmore, hrest, ?_⟩
      rw [hva, List.append_assoc, List.cons_append, hmodify, List.length_append, funcNodes_length]
      simp [funcNodes]
      omega
    · intro hva
      refine ⟨k, vals, args, hk, hargs, hmore, hrest, ?_⟩
      rw [Bool.not_eq_true] at hva
      rw [hva, hmodify, List.length_append, funcNodes_length]
      simp [funcNodes]
      omega
  rw [wp_ite]
  constructor
  · intro hlast
    rw [wp_bind, wp_lift]
    intro _ hlt
    rw [wp_bind, wp_pushAll]
    have hk : lastPtr P f + 1 ≤ (P.func f).params.length := by
      have := inRange_ok.mp hlt
      omega
    refine hend (lastPtr P f + 1) _ _ ⟨fun h => absurd h hlast, fun _ => ⟨rfl, hk⟩⟩ ?_ ?_
    · simp [hnodes]
    · simp [hnext, funcNodeOffArg0]
  · intro hlast
    refine hend 0 _ _ ⟨fun _ => rfl, fun h => absurd h hlast⟩ ?_ ?_
    · simp [hnodes]
    · simp [hnext, funcNodeOffArg0]

/-- Function `f` of the program may be called through a pointer. -/
structure OwnTaken (P : Ir) (fuel f : Nat) : Prop where
  taken : P.escapes fuel (.func f) = .ok true
  own : P.isExt f = false
  notMain : (P.func f).name ≠ "main"

/-- The object of such a function: its parameters have the IDs behind the return node, but only
the first `k` of them have nodes. -/
structure FuncObject (P : Ir) (f : Nat) (g : Gen) (onF k : Nat) : Prop where
  reach : Reach P f k
  obj : g.objNode (.func f) = some onF
  arg : ∀ j < (P.func f).params.length, g.valNode (.arg f j) = some (onF + funcNodeOffArg0 + j)
  nodes : ∃ l, l.length = onF ∧ l ++ funcNodes f k (P.func f).isVarArg <+: g.nodes

/-- The nodes of a declared function, of which `body` is the object. -/
theorem Bounded.func {g : Gen} (h : Bounded P g) {f : Nat} (body : List GenNode)
    (vals : Val → Option Nat) (args : Finset Val) {k : Nat}
    (hk : k = g.nodes.length + 1 + body.length) (hne : body ≠ [])
    (hsz : (body.getD 0 ({} : GenNode)).objSz ≤ body.length)
    (hret : P.isExt f = false → (P.func f).ret.isPtr = true → 1 < body.length)
    (hvals : ∀ v n, vals v = some n →
      g.valNode v = some n ∨ n < g.nodes.length + 1 + body.length) : Bounded P { g with
      nodes := g.nodes ++ [{ val := some (.func f) }] ++ body
      nextNode := k, valNode := vals, atArgs := args
      objNode := Function.update g.objNode (.func f) (some (g.nodes.length + 1)) } := by
  have hlen : (g.nodes ++ [({ val := some (.func f) } : GenNode)] ++ body).length =
      g.nodes.length + 1 + body.length := by
    simp only [List.length_append, List.length_singleton]
  have hle : g.nodes.length ≤ (g.nodes ++ [({ val := some (.func f) } : GenNode)] ++ body).length := by
    omega
  have hpos := List.length_pos_iff.mpr hne
  have hold : ∀ f' on, Function.update g.objNode (.func f) (some (g.nodes.length + 1)) (.func f') =
      some on → f' = f ∧ on = g.nodes.length + 1 ∨ g.objNode (.func f') = some on := by
    intro f' on hon
    by_cases hf : f' = f
    · subst hf
      rw [Function.update_self] at hon
      exact .inl ⟨rfl, (Option.some.inj hon).symm⟩
    · rw [Function.update_of_ne fun h => hf (Val.func.inj h)] at hon
      exact .inr hon
  refine
    { count := hk.trans hlen.symm
      special := h.special.trans hle
      entry := fun a n hn => ?_
      cons := fun C hC => (h.cons C hC).imp (·.trans_le hle) (·.trans_le hle)
      calls := fun n hn => (h.calls n hn).trans_le hle
      tagged := fun e he => (h.tagged e he).imp (·.trans_le hle) (·.trans_le hle)
      stat := fun name n hn => (h.stat name n hn).trans_le hle
      block := fun f' on hon => ?_
      ret := fun f' on hon he hr => ?_
      structs := h.structs }
  · cases a with
    | val v =>
        rcases hvals v n hn with hv | hlt
        · exact (h.entry (.val v) n hv).trans_le hle
        · exact hlen ▸ hlt
    | obj v =>
        by_cases hv : v = .func f
        · subst hv
          simp only [slots, Function.update_self, Option.some.injEq] at hn
          dsimp only
          omega
        · simp only [slots, Function.update_of_ne hv] at hn
          exact (h.entry (.obj v) n hn).trans_le hle
    | ret f' => exact (h.entry (.ret f') n hn).trans_le hle
    | vararg f' => exact (h.entry (.vararg f') n hn).trans_le hle
  · rcases hold f' on hon with ⟨rfl, rfl⟩ | hon
    · have hfirst : (g.nodes ++ [({ val := some (.func f') } : GenNode)] ++ body).getD
          (g.nodes.length + 1) {} = body.getD 0 {} := by
        rw [List.getD_eq_getElem?_getD, List.getElem?_append_right (by simp)]
        simp [List.getD_eq_getElem?_getD]
      simp only [objSz, hfirst]
      omega
    · have hlt : on < g.nodes.length := h.entry (.obj (.func f')) on hon
      rw [prefix_objSz (g := g) ⟨_, (List.append_assoc _ _ _).symm⟩ hlt]
      exact (h.block f' on hon).trans hle
  · rcases hold f' on hon with ⟨rfl, rfl⟩ | hon
    · have := hret he hr
      simp only [funcNodeOffRet]
      omega
    · exact (h.ret f' on hon he hr).trans_le hle

theorem extends_func {g g' : Gen} {f : Nat} (hown : OwnsFunc P own f) {l : List GenNode}
    (hnodes : g'.nodes = g.nodes ++ l) (hval : ∀ v, v ≠ .func f → (∀ j, v ≠ .arg f j) →
      g'.valNode v = g.valNode v) (hobj : ∀ v, v ≠ .func f → g'.objNode v = g.objNode v)
    (hret : g'.retNode = g.retNode) (hva : g'.varargNode = g.varargNode) :
    Extends own fresh g g' := by
  refine ⟨hnodes ▸ List.prefix_append _ _, fun a => ?_⟩
  cases a with
  | val v =>
      by_cases hv : v = .func f
      · exact .inr (.inl (hv ▸ hown.val))
      · by_cases harg : ∃ j, v = .arg f j
        · obtain ⟨j, rfl⟩ := harg
          exact .inr (.inl (hown.arg j))
        · exact .inl (hval v hv fun j hj => harg ⟨j, hj⟩)
  | obj v =>
      by_cases hv : v = .func f
      · exact .inr (.inl (hv ▸ hown.obj))
      · exact .inl (hobj v hv)
  | ret f' => exact .inl (congrFun hret f')
  | vararg f' => exact .inl (congrFun hva f')

/-- The state with the two nodes that every function has whose address is taken. -/
def declared (g : Gen) (f : Nat) (cs : List Constraint) : Gen := { g with
  nodes := g.nodes ++ [{ val := some (.func f) }] ++ [{ val := some (.func f), objSz := 1 }]
  nextNode := g.nodes.length + 1 + 1, constraints := cs
  valNode := Function.update g.valNode (.func f) (some g.nodes.length)
  objNode := Function.update g.objNode (.func f) (some (g.nodes.length + 1)) }

theorem extends_declared {g : Gen} {f : Nat} (hown : OwnsFunc P own f) (cs : List Constraint) :
    Extends own fresh g (declared g f cs) :=
  extends_func hown (List.append_assoc _ _ _) (fun _ hv _ => Function.update_of_ne hv _ _)
    (fun _ hv => Function.update_of_ne hv _ _) rfl rfl

/-- The entries of such a function: its own, and IDs of parameters inside its object. -/
theorem declared_vals {g : Gen} {f : Nat} {vals : Val → Option Nat} {k : Nat}
    (hargs : ∀ j < (P.func f).params.length,
      vals (.arg f j) = some (g.nodes.length + 1 + funcNodeOffArg0 + j))
    (hout : ∀ j, (P.func f).params.length ≤ j →
      vals (.arg f j) = Function.update g.valNode (.func f) (some g.nodes.length) (.arg f j))
    (hrest : ∀ v, (∀ j, v ≠ .arg f j) →
      vals v = Function.update g.valNode (.func f) (some g.nodes.length) v)
    (hk : funcNodeOffArg0 + (P.func f).params.length ≤ k) (v : Val) (n : Nat)
    (hv : vals v = some n) : g.valNode v = some n ∨ n < g.nodes.length + 1 + k := by
  have hold : vals v = Function.update g.valNode (.func f) (some g.nodes.length) v →
      g.valNode v = some n ∨ n < g.nodes.length + 1 + k := by
    intro heq
    rw [heq] at hv
    by_cases hvf : v = .func f
    · subst hvf
      rw [Function.update_self] at hv
      have := Option.some.inj hv
      exact .inr (by omega)
    · exact .inl ((Function.update_of_ne hvf _ _).symm.trans hv)
  by_cases harg : ∃ j, v = .arg f j
  · obtain ⟨j, rfl⟩ := harg
    by_cases hj : j < (P.func f).params.length
    · have := Option.some.inj ((hargs j hj).symm.trans hv)
      exact .inr (by omega)
    · exact hold (hout j (not_lt.mp hj))
  · exact hold (hrest v fun j hj => harg ⟨j, hj⟩)

theorem Bounded.declared {g : Gen} (h : Bounded P g) {f : Nat} {cs : List Constraint} {b : Bool}
    (hadd : PtrAnalysis.addCons g.constraints .addrOf g.nodes.length (g.nodes.length + 1) 0 =
      .ok (cs, b))
    (hret : P.isExt f = false → (P.func f).ret.isPtr = false) : Bounded P (declared g f cs) := by
  have h2 := h.func (f := f) [{ val := some (.func f), objSz := 1 }]
    (Function.update g.valNode (.func f) (some g.nodes.length)) g.atArgs
    rfl (by simp) (by simp) (fun he hr => by simp [hret he] at hr) (fun v n hv => ?_)
  · exact h2.addCons hadd (by simp [IsNode]) (by simp [IsNode])
  · by_cases hvf : v = .func f
    · subst hvf
      rw [Function.update_self] at hv
      have := Option.some.inj hv
      right
      simp only [List.length_singleton]
      omega
    · exact .inl ((Function.update_of_ne hvf _ _).symm.trans hv)

theorem idTakenFunc_maps {f : Nat} (hown : OwnsFunc P own f) {g : Gen}
    {cs : List Constraint} {b : Bool}
    (hadd : addCons g.constraints .addrOf g.nodes.length (g.nodes.length + 1) 0 = .ok (cs, b)) :
    Wp (idTakenFunc P f (g.nodes.length + 1)) (fun _ g' => Extends own fresh g g' ∧
      (∃ onF k, FuncObject P f g' onF k) ∧
      (Bounded P g → (∀ k, Reach P f k →
        (P.func f).params.length ≤ k + (P.func f).isVarArg.toNat) → Bounded P g'))
      (declared g f cs) := by
  have hl : g.nodes.length + 1 = (g.nodes ++ [({ val := some (.func f) } : GenNode)]).length := by
    simp
  have hspec := idTakenFunc_spec (P := P) (f := f) (g := declared g f cs)
    (l := g.nodes ++ [{ val := some (.func f) }]) (by simp [declared]) rfl
  rw [← hl] at hspec
  apply hspec.imp
  rintro _ _ ⟨k, vals, args, hreach, hargs, hout, hrest, rfl⟩
  refine ⟨?_, ⟨_, k, hreach, ?_, hargs, ?_⟩, fun hB hall => ?_⟩
  · refine extends_func hown (List.append_assoc _ _ _) (fun v hv harg => ?_)
      (fun v hv => Function.update_of_ne hv _ _) rfl rfl
    dsimp only
    rw [hrest v harg]
    exact Function.update_of_ne hv _ _
  · exact Function.update_self ..
  · exact ⟨_, hl.symm, List.prefix_refl _⟩
  · have hlen := funcNodes_length f k (P.func f).isVarArg
    have hge := hall k hreach
    have h2 := hB.func (f := f) (funcNodes f k (P.func f).isVarArg) vals args (k := (g.nodes ++ [({ val := some (.func f) } : GenNode)] ++
        funcNodes f k (P.func f).isVarArg).length) (by simp only [List.length_append,
          List.length_singleton]) (by simp [funcNodes]) ?_ (fun _ _ => ?_)
      (declared_vals hargs hout hrest (by omega))
    · refine h2.addCons hadd ?_ ?_
      · simp only [IsNode, List.length_append, List.length_singleton]
        omega
      · simp only [IsNode, List.length_append, List.length_singleton, hlen, funcNodeOffArg0]
        omega
    · rw [hlen]
      simp [funcNodes]
    · rw [hlen, funcNodeOffArg0]
      omega

/-- The declaration of a function writes what it owns, makes the object of a function that may
be called through a pointer, and uses no ID without a node if all parameters reach one. -/
theorem idFunc_maps {f : Nat} (hown : OwnsFunc P own f) {g : Gen}
    (hcount : g.nextNode = g.nodes.length) :
    Wp (idFunc P fuel f) (fun _ g' => Extends own fresh g g' ∧
      (OwnTaken P fuel f → ∃ onF k, FuncObject P f g' onF k) ∧
      (Bounded P g → ((P.func f).name = "main" → (P.func f).ret.isPtr = false) →
        (OwnTaken P fuel f → ∀ k, Reach P f k →
          (P.func f).params.length ≤ k + (P.func f).isVarArg.toNat) → Bounded P g')) g := by
  unfold idFunc
  rw [wp_bind, wp_lift]
  intro AT hAT
  rw [wp_ite]
  constructor
  · rintro rfl
    simp only [takeNode, bump, pushNode, setValNode, setObjNode, wp_bind, wp_get, wp_modify,
      wp_pure, wp_cons, hcount]
    intro cs b hadd
    have hstart : Extends own fresh g (declared g f cs) := extends_declared hown cs
    simp only [wp_ite, wp_pure]
    refine ⟨fun hext => ?_, fun hext => ⟨fun hmain => ?_, fun hmain => ⟨fun _ => ?_, fun h => ?_⟩⟩⟩
    · exact ⟨hstart, fun h => by simp [h.own] at hext, fun hB _ _ =>
        hB.declared hadd fun he => by simp [he] at hext⟩
    · have hargs : Safe P own fresh ∅ (idMainArgs P f) fun _ => ∅ := idMainArgs_safe hown hmain
      apply (hargs (declared g f cs)).imp
      rintro _ g' ⟨hE, hsafe⟩
      refine ⟨IsTrans.trans _ _ _ hstart hE, fun h => absurd hmain h.notMain, fun hB hret _ => ?_⟩
      exact (hsafe (hB.declared hadd fun _ => hret hmain) fun n hn =>
        absurd hn (Set.notMem_empty n)).1
    · rw [Bool.not_eq_true] at hext
      apply (idTakenFunc_maps hown hadd).imp
      rintro _ g' ⟨hE, hobj, hsafe⟩
      exact ⟨hE, fun _ => hobj, fun hB _ hall => hsafe hB (hall ⟨hAT, hext, hmain⟩)⟩
    · exact absurd trivial h
  · intro hno
    rw [Bool.not_eq_true] at hno
    simp only [hno, wp_bind, wp_pure, Bool.false_eq_true, if_false]
    have hrest : Safe P own fresh ∅ (if P.isExt f then pure ()
        else if (P.func f).name = "main" then idMainArgs P f else idPlainFunc P f) fun _ => ∅ :=
      .ite (fun _ => .done _) fun _ => .ite (fun hm => idMainArgs_safe hown hm) fun _ =>
        idPlainFunc_safe hown
    apply (hrest g).imp
    rintro _ g' ⟨hE, hsafe⟩
    refine ⟨hE, fun h => ?_, fun hB _ _ => (hsafe hB fun n hn => absurd hn (Set.notMem_empty n)).1⟩
    rw [hno] at hAT
    exact absurd (h.taken.symm.trans hAT) (by simp)

end

end Gen

end PtrAnalysis
