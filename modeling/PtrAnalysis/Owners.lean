import PtrAnalysis.InitMaps

/-!
# Who enters what

Every handler enters the nodes of its own value: of a function, a global, an instruction.
Constant expressions get theirs where they are met first. Only an external call that stores
a new object through its argument enters an object for the value of another handler; as
long as none does so for a value that has an object, or gets one, no entry ever changes.
-/

namespace PtrAnalysis

open Run Act

namespace Gen

/-- The handlers of a module, in the units in which `obj_cons_id` calls them. -/
inductive Step where
  | func (f : Nat)
  | global (i : Nat)
  | init (i : Nat)
  | gepCe
  /-- The node of an instruction that returns a pointer. -/
  | enter (i : Nat)
  | insn (i : Nat)
  deriving DecidableEq

section

variable (P : Ir) (fuel : Nat)

/-- Process the initializer of global `i`. -/
def initGlobal (i : Nat) : GenM Unit :=
  match (P.global i).init with
  | some C => do
      let _ ← procGlobalInit P fuel (← getObjNode (.global i)) C true
  | none => pure ()

/-- Make the node of instruction `i`. -/
def enterInsn (i : Nat) : GenM Unit := do
  if (P.insts i).ty.isPtr then
    pushNode { val := some (.inst i) }
    let n ← takeNode
    setValNode (.inst i) n

/-- The handler of a step. The fuel that is left for an instruction depends on its block. -/
def Step.run (left : Nat) : Step → GenM Unit
  | .func f => idFunc P fuel f
  | .global i => idGlobal P fuel i
  | .init i => initGlobal P fuel i
  | .gepCe => do (← get).gepCe.forM fun vn => procGepCe P fuel vn
  | .enter i => enterInsn P i
  | .insn i => visitInsn P left i

def Step.Takes (k : Step) (g g' : Gen) : Prop := ∃ left, k.run P fuel left g = .ok ((), g')

/-- What comes before all handlers. -/
def beginModule : GenM Unit := do
  specialNodes
  modify fun g => { g with maxStruct := .int, maxStructSz := 0 }
  P.named.forM fun s => analyzeStruct P fuel s

/-- The handlers of instructions come last, in some order. -/
def moduleSteps (visits : List Step) : List Step :=
  (List.range P.funcs.length).map .func ++ (List.range P.globals.length).map .global ++
    (List.range P.globals.length).map .init ++ [.gepCe] ++ visits

/-- No instruction is handled twice. -/
structure Visits (visits : List Step) : Prop where
  nodup : visits.Nodup
  kind : ∀ k ∈ visits, ∃ i, k = .enter i ∨ k = .insn i

/-- The state `g` is reached when the steps `done` are. -/
def Reached (visits done : List Step) (g : Gen) : Prop :=
  done <+: moduleSteps P visits ∧
    ∃ g0, beginModule P fuel Gen.empty = .ok ((), g0) ∧ Leads (Step.Takes P fuel) done g0 g

/-- Call `i` may get an object of its own. -/
def GivesObject (i : Nat) : Prop :=
  ((P.insts i).op = .call ∨ (P.insts i).op = .invoke) ∧
    makesObject P i (calleeOf (P.insts i)) = true

/-- Call `i` stores a new object through its argument `v`. -/
def StoresNew (i : Nat) (v : Val) : Prop :=
  ((P.insts i).op = .call ∨ (P.insts i).op = .invoke) ∧
    ∃ f, calleeOf (P.insts i) = some f ∧ P.isExt f = true ∧ GetsNew P i f v

/-- The entries a step may change, if they are there. -/
inductive Step.Owns : Step → Slot → Prop where
  | func (f : Nat) : Owns (.func f) (.val (.func f))
  | funcObj (f : Nat) : Owns (.func f) (.obj (.func f))
  | arg (f j : Nat) : Owns (.func f) (.val (.arg f j))
  | argObj (f j : Nat) : (P.func f).name = "main" → 1 ≤ j → j ≤ 2 → Owns (.func f) (.obj (.arg f j))
  | ret (f : Nat) : Owns (.func f) (.ret f)
  | vararg (f : Nat) : Owns (.func f) (.vararg f)
  | global (i : Nat) : Owns (.global i) (.val (.global i))
  | globalObj (i : Nat) : Owns (.global i) (.obj (.global i))
  | enter (i : Nat) : Owns (.enter i) (.val (.inst i))
  | call (i : Nat) : GivesObject P i → Owns (.insn i) (.obj (.inst i))
  | new (i : Nat) (v : Val) : StoresNew P i v → Owns (.insn i) (.obj v)

/-- The entries a step may make. -/
inductive Step.Fresh : Step → Slot → Prop where
  | global (i : Nat) (op : Op) (t : Ty) (ops : Vals) : Fresh (.global i) (.val (.expr op t ops))
  | init (i : Nat) (a : Slot) : a ∈ initFresh → Fresh (.init i) a
  | gepCe (a : Slot) : a ∈ initFresh → Fresh .gepCe a
  | insn (i : Nat) (op : Op) (t : Ty) (ops : Vals) : Fresh (.insn i) (.val (.expr op t ops))

/-- The new objects are stored through values that have no other object. -/
structure OneObject (visits : List Step) : Prop where
  global : ∀ i j, .insn i ∈ visits → StoresNew P i (.global j) → False
  main : ∀ i f j, .insn i ∈ visits → StoresNew P i (.arg f j) → (P.func f).name = "main" →
    1 ≤ j → j ≤ 2 → False
  call : ∀ i j, .insn i ∈ visits → .insn j ∈ visits → StoresNew P i (.inst j) → ¬ GivesObject P j
  once : ∀ i j v, .insn i ∈ visits → .insn j ∈ visits → StoresNew P i v → StoresNew P j v → i = j

end

section

variable {P : Ir} {fuel : Nat} {visits : List Step}

/-! ## The footprint of a step -/

/-- The order of the kinds of steps. -/
def Step.rank : Step → Nat
  | .func _ => 0
  | .global _ => 1
  | .init _ | .gepCe => 2
  | .enter _ | .insn _ => 3

theorem Visits.rank (hv : Visits visits) {k : Step} (hk : k ∈ visits) : k.rank = 3 := by
  obtain ⟨i, rfl | rfl⟩ := hv.kind k hk <;> rfl

theorem moduleSteps_rank (hv : Visits visits) :
    (moduleSteps P visits).Pairwise fun k k' => k.rank ≤ k'.rank ∧ k ≠ k' := by
  have hrange : ∀ (n r : Nat) (mk : Nat → Step), (∀ i, (mk i).rank = r) →
      Function.Injective mk →
      ((List.range n).map mk).Pairwise fun k k' => k.rank ≤ k'.rank ∧ k ≠ k' := by
    intro n r mk hr hinj
    refine List.pairwise_map.mpr (List.nodup_range.imp fun {i j} hne => ⟨?_, fun h => hne (hinj h)⟩)
    rw [hr, hr]
  have hvisits : visits.Pairwise fun k k' => k.rank ≤ k'.rank ∧ k ≠ k' :=
    hv.nodup.imp_of_mem fun hk hk' hne => ⟨by rw [hv.rank hk, hv.rank hk'], hne⟩
  have hlt : ∀ {k k' : Step}, k.rank < k'.rank → k.rank ≤ k'.rank ∧ k ≠ k' := fun h =>
    ⟨h.le, fun heq => by simp [heq] at h⟩
  unfold moduleSteps
  simp only [List.pairwise_append, List.mem_append, List.mem_map, List.mem_singleton]
  refine ⟨⟨⟨⟨hrange _ 0 _ (fun _ => rfl) fun _ _ => Step.func.inj,
    hrange _ 1 _ (fun _ => rfl) fun _ _ => Step.global.inj, ?_⟩,
    hrange _ 2 _ (fun _ => rfl) fun _ _ => Step.init.inj, ?_⟩, List.pairwise_singleton _ _, ?_⟩,
    hvisits, ?_⟩
  · rintro _ ⟨i, -, rfl⟩ _ ⟨j, -, rfl⟩
    exact hlt (by simp [Step.rank])
  · rintro _ (⟨i, -, rfl⟩ | ⟨i, -, rfl⟩) _ ⟨j, -, rfl⟩ <;> exact hlt (by simp [Step.rank])
  · rintro _ ((⟨i, -, rfl⟩ | ⟨i, -, rfl⟩) | ⟨i, -, rfl⟩) _ rfl <;> simp [Step.rank]
  · rintro k hk k' hk'
    refine hlt ?_
    rw [hv.rank hk']
    rcases hk with ((⟨i, -, rfl⟩ | ⟨i, -, rfl⟩) | ⟨i, -, rfl⟩) | rfl <;> simp [Step.rank]

theorem mem_visits {k : Step} (hk : k ∈ moduleSteps P visits) (hrank : k.rank = 3) :
    k ∈ visits := by
  simp only [moduleSteps, List.mem_append, List.mem_map, List.mem_singleton] at hk
  rcases hk with (((⟨i, -, rfl⟩ | ⟨i, -, rfl⟩) | ⟨i, -, rfl⟩) | rfl) | hk
  all_goals first
    | exact hk
    | simp [Step.rank] at hrank

/-- A step writes nothing that a later one owns. -/
theorem moduleSteps_spares (hv : Visits visits) (hone : OneObject P visits) :
    (moduleSteps P visits).Pairwise
      (Spares (fun k => {a | Step.Owns P k a}) fun k => {a | Step.Fresh k a}) := by
  refine (moduleSteps_rank hv).imp_of_mem ?_
  rintro k k' hk hk' ⟨hrank, hne⟩ a ha'
  have hin : ∀ i, Step.insn i ∈ moduleSteps P visits → Step.insn i ∈ visits := fun i h =>
    mem_visits h rfl
  constructor
  · intro ha
    -- two steps that own one entry are the same, or one of them stores a new object
    cases ha' with
    | func f => cases ha; exact hne rfl
    | funcObj f =>
        cases ha with
        | funcObj => exact hne rfl
        | new i _ h => simp [Step.rank] at hrank
    | arg f j => cases ha; exact hne rfl
    | argObj f j _ _ _ =>
        cases ha with
        | argObj => exact hne rfl
        | new i _ h => simp [Step.rank] at hrank
    | ret f => cases ha; exact hne rfl
    | vararg f => cases ha; exact hne rfl
    | global i => cases ha; exact hne rfl
    | globalObj i =>
        cases ha with
        | globalObj => exact hne rfl
        | new j _ h => simp [Step.rank] at hrank
    | enter i => cases ha; exact hne rfl
    | call i hgives =>
        cases ha with
        | call => exact hne rfl
        | new j _ h => exact hone.call j i (hin j hk) (hin i hk') h hgives
    | new i v hnew =>
        cases ha with
        | funcObj f =>
            obtain ⟨-, g, -, -, -, -, -, -, hptr⟩ := hnew
            simp [Ir.typeOf, Ty.contained, Ty.isPtr] at hptr
        | argObj f j hmain h1 h2 => exact hone.main i f j (hin i hk') hnew hmain h1 h2
        | globalObj j => exact hone.global i j (hin i hk') hnew
        | call j hgives => exact hone.call i j (hin i hk') (hin j hk) hnew hgives
        | new j _ hnew' => exact hne (congrArg _ (hone.once j i v (hin j hk) (hin i hk') hnew' hnew))
  · intro ha
    -- what a later step owns is no constant expression, and no closed value
    have hfresh : a ∈ initFresh → 2 ≤ k'.rank → False := by
      rintro ⟨v, rfl, hc, -⟩ hr
      cases ha' with
      | enter i => simp [Val.closed] at hc
      | func | arg | global => simp [Step.rank] at hr
    cases ha with
    | global i op t ops => cases ha'
    | insn i op t ops => cases ha'
    | init i _ h => exact hfresh h hrank
    | gepCe _ h => exact hfresh h hrank

/-! ## The steps of a run -/

theorem getRetNode_extends {own fresh : Set Slot} (f : Nat) :
    Runs (Extends own fresh) (getRetNode P f) :=
  .bind .get fun _ => .ite (.pure _) (.lift _)

/-- What a function returns is not entered anywhere. -/
theorem idRetInsn_extends {own fresh : Set Slot} (hE : ExprsIn fresh) (i : Nat) :
    Runs (Extends own fresh) (idRetInsn P fuel i) := by
  have hcptr : ∀ v, Runs (Extends own fresh) (getValNodeCptr P fuel v) := fun v =>
    (getValNodeCptr_safe hE v : Safe P own fresh ∅ _ _).runs
  have hcopy : ∀ rnF vnS, Runs (Extends own fresh) (consUnless0 .copy rnF vnS) := fun rnF vnS =>
    (consUnless0_safe (.inl rfl) (.inr rfl) : Safe P own fresh {rnF, vnS} _ _).runs
  unfold idRetInsn
  split
  · exact .pure _
  · refine .ite (.bind (getRetNode_extends _) fun rnF => ?_) (.pure _)
    exact .bind (hcptr _) fun vnS => .bind (.lift _) fun _ => hcopy _ _

/-- What holds between the steps; constant expressions only matter as long as initializers
are left. -/
structure Between (P : Ir) (fuel : Nat) (rest : List Step) (g : Gen) : Prop where
  inv : Inv P fuel g
  tidy : Tidy g
  closed : (∃ k ∈ rest, k.rank ≤ 2) → ClosedNodes g

theorem enterInsn_spec {i : Nat} {g : Gen} (hg : Inv P fuel g) (ht : Tidy g) :
    Wp (enterInsn P i) (fun _ g' => (Inv P fuel g' ∧ Tidy g') ∧
      Extends {a | Step.Owns P (.enter i) a} {a | Step.Fresh (.enter i) a} g g') g := by
  unfold enterInsn
  rw [wp_ite]
  refine ⟨fun _ => ?_, fun _ => ⟨⟨hg, ht⟩, refl g⟩⟩
  simp only [takeNode, bump, pushNode, setValNode, wp_bind, wp_get, wp_modify, wp_pure]
  have hgrown : Grown P fuel g { g with
      nodes := g.nodes ++ [{ val := some (.inst i) }], nextNode := g.nextNode + 1
      valNode := Function.update g.valNode (.inst i) (some g.nextNode) } :=
    .valueNode (some (.inst i)) rfl rfl rfl rfl rfl rfl
  have hslots := slots_valNode (g := { g with
    nodes := g.nodes ++ [{ val := some (.inst i) }], nextNode := g.nextNode + 1 })
    (.inst i) g.nextNode
  refine ⟨⟨(hgrown hg).1, ⟨fun j n hn => ?_, fun t => ?_⟩⟩, List.prefix_append _ _,
    hslots ▸ .update (.enter i) _⟩
  · by_cases hj : j = i
    · subst hj
      obtain rfl : g.nextNode = n := by simpa using hn
      simp [hg.1]
    · have hold : g.valNode (.inst j) = some n := by simpa [Function.update, hj] using hn
      have hval := ht.inst j n hold
      have hlt : n < g.nodes.length := by
        by_contra hge
        simp [List.getD_eq_getElem?_getD, List.getElem?_eq_none (not_lt.mp hge)] at hval
      simpa [List.getD_eq_getElem?_getD, List.getElem?_append_left hlt] using hval
  · simpa using ht.null t

theorem noInst_of_rank {k : Step} (hk : k.rank ≤ 2 ∨ ∃ i, k = .insn i) :
    NoInst {a | Step.Owns P k a} {a | Step.Fresh k a} := by
  constructor <;> intro i <;> constructor <;> intro h
  · cases h
    simp [Step.rank] at hk
  · cases h with
    | init j _ h | gepCe _ h =>
        obtain ⟨v, hv, hc, -⟩ := h
        cases hv
        cases hc
  · cases h
  · cases h with
    | init j _ h | gepCe _ h =>
        obtain ⟨v, hv, -, hnull⟩ := h
        cases hv
        cases hnull

/-- The step lemma. -/
theorem step_between (hP : P.ClosedConstants) (hv : Visits visits) {k : Step}
    {after : List Step} (hsuf : k :: after <:+ moduleSteps P visits) {g : Gen}
    (hg : Between P fuel (k :: after) g) (left : Nat) :
    Wp (k.run P fuel left) (fun _ g' => Between P fuel after g' ∧
      Extends {a | Step.Owns P k a} {a | Step.Fresh k a} g g') g := by
  -- all steps but those that enter instructions are tidy
  have hstep : (k.rank ≤ 2 ∨ ∃ i, k = .insn i) → Runs (Grown P fuel) (k.run P fuel left) →
      Wp (k.run P fuel left) (fun _ g' => ((∃ k' ∈ after, k'.rank ≤ 2) → ClosedNodes g') ∧
        Extends {a | Step.Owns P k a} {a | Step.Fresh k a} g g') g →
      Wp (k.run P fuel left) (fun _ g' => Between P fuel after g' ∧
        Extends {a | Step.Owns P k a} {a | Step.Fresh k a} g g') g := by
    intro hk hgrown hrun
    refine ((hgrown g).and hrun).imp ?_
    rintro _ g' ⟨hinv, hclosed, hext⟩
    exact ⟨⟨(hinv hg.inv).1, hg.tidy.extends (noInst_of_rank hk) hext, hclosed⟩, hext⟩
  -- only instructions come after an instruction
  have hlast : k.rank = 3 → ∀ k' ∈ after, ¬ k'.rank ≤ 2 := by
    intro hk k' hk'
    have hpair := (moduleSteps_rank (P := P) hv).sublist hsuf.sublist
    have hle := (List.pairwise_cons.mp hpair).1 k' hk'
    omega
  have hnow : k.rank ≤ 2 → ClosedNodes g := fun hk => hg.closed ⟨k, List.mem_cons_self .., hk⟩
  cases k with
  | func f =>
      refine hstep (.inl (by simp [Step.rank])) (idFunc_grown f) ?_
      have hown : OwnsFunc P {a | Step.Owns P (.func f) a} f :=
        ⟨.func f, .funcObj f, .arg f, fun hm j h1 h2 => .argObj f j hm h1 h2, .ret f, .vararg f⟩
      have hmaps : Wp (idFunc P fuel f) (fun _ g' =>
          Extends {a | Step.Owns P (.func f) a} {a | Step.Fresh (.func f) a} g g') g :=
        (idFunc_maps hown hg.inv.1).imp fun _ _ h => h.1
      refine ((idFunc_closed f g).and hmaps).imp ?_
      rintro _ g' ⟨hclosed, hext⟩
      exact ⟨fun _ => hclosed (hnow (by simp [Step.rank])), hext⟩
  | global i =>
      refine hstep (.inl (by simp [Step.rank])) (idGlobal_grown i) ?_
      have hown : OwnsGlobal {a | Step.Owns P (.global i) a} i := ⟨.global i, .globalObj i⟩
      have hE : ExprsIn {a | Step.Fresh (.global i) a} := .global i
      have hmaps : Safe P _ _ ∅ (idGlobal P fuel i) fun _ => ∅ := idGlobal_safe hE hown
      refine ((idGlobal_closed hP i g).and (hmaps.runs g)).imp ?_
      rintro _ g' ⟨hclosed, hext⟩
      exact ⟨fun _ => hclosed (hnow (by simp [Step.rank])), hext⟩
  | init i =>
      refine hstep (.inl (by simp [Step.rank])) (globalInit_top_grown i) ?_
      have hruns : Runs Inits (initGlobal P fuel i) := by
        unfold initGlobal
        split
        · rename_i C hC
          refine .bind (.bind .get fun _ => .lift _) fun _ => ?_
          exact .bind ((globalInit_inits hP).1 _ _ _ (hP.init i C hC)) fun _ => .pure _
        · exact .pure _
      refine (hruns g).imp ?_
      intro _ g' h
      obtain ⟨hclosed, hext⟩ := h (hnow (by simp [Step.rank]))
      exact ⟨fun _ => hclosed, hext.nodes, hext.writes.mono (Set.empty_subset _) fun a ha =>
        .init i a ha⟩
  | gepCe =>
      refine hstep (.inl (by simp [Step.rank]))
        (.bind .get fun _ => .forM fun vn _ => globalInit_grown.2 vn) ?_
      have hruns : Runs Inits (Step.run P fuel left .gepCe) :=
        .bind .get fun _ => .forM fun vn _ => (globalInit_inits hP).2 vn
      refine (hruns g).imp ?_
      intro _ g' h
      obtain ⟨hclosed, hext⟩ := h (hnow (by simp [Step.rank]))
      exact ⟨fun _ => hclosed, hext.nodes, hext.writes.mono (Set.empty_subset _) fun a ha =>
        .gepCe a ha⟩
  | enter i =>
      apply (enterInsn_spec hg.inv hg.tidy).imp
      rintro _ g' ⟨⟨hinv, htidy⟩, hext⟩
      refine ⟨⟨hinv, htidy, ?_⟩, hext⟩
      rintro ⟨k', hk', hr⟩
      exact absurd hr (hlast rfl k' hk')
  | insn i =>
      have hno := noInst_of_rank (P := P) (.inr ⟨i, rfl⟩ : (Step.insn i).rank ≤ 2 ∨ _)
      have hE : ExprsIn {a | Step.Fresh (.insn i) a} := .insn i
      refine hstep (.inr ⟨i, rfl⟩) (visitInsn_grown i) ?_
      have hext : Wp (visitInsn P left i) (fun _ g' =>
          Extends {a | Step.Owns P (.insn i) a} {a | Step.Fresh (.insn i) a} g g') g := by
        by_cases hret : (P.insts i).op = .ret
        · unfold visitInsn
          dsimp only
          rw [hret]
          exact Runs.bind (.lift _) (fun _ => idRetInsn_extends hE i) g
        · have hown : OwnsInsn P {a | Step.Owns P (.insn i) a} i := fun hop =>
            ⟨fun hm => .call i ⟨hop.symm.symm, hm⟩, fun f hf hx v hv => .new i v ⟨hop, f, hf, hx, hv⟩⟩
          exact (visitInsn_safe (S := ∅) hE hno hown (fun h => absurd h hret) hg.tidy).imp
            fun _ _ h => h.1
      apply hext.imp
      intro _ g' h
      exact ⟨fun ⟨k', hk', hr⟩ => absurd hr (hlast rfl k' hk'), h⟩

/-- Before the handlers there are only the special nodes. -/
theorem beginModule_spec : Wp (beginModule P fuel) (fun _ g =>
    Inv P fuel g ∧ (∀ a, g.slots a = none) ∧ ∀ N ∈ g.nodes, N.val = none) Gen.empty := by
  have hspecial : Wp specialNodes (fun _ g => (∀ a, g.slots a = none) ∧
      ∀ N ∈ g.nodes, N.val = none) Gen.empty := by
    unfold specialNodes
    simp only [wp_bind, wp_modify, wp_pushAll, wp_cons]
    refine fun _ _ _ => ⟨fun a => by cases a <;> rfl, fun N hN => ?_⟩
    have hN' : N ∈ special := hN
    simp only [special, List.mem_cons, List.not_mem_nil, or_false] at hN'
    rcases hN' with rfl | rfl | rfl <;> rfl
  have hrest : Runs StructsOnly (do
      modify fun g => { g with maxStruct := .int, maxStructSz := 0 }
      P.named.forM fun s => analyzeStruct P fuel s : GenM Unit) :=
    .bind (.modify fun g => ⟨id, fun _ => id, g.structInfo, .int, 0, rfl⟩) fun _ =>
      .forM fun s _ => analyzeStruct_only P fuel s
  unfold beginModule
  rw [wp_bind]
  apply ((specialNodes_inv : Wp _ (fun _ g => Inv P fuel g) _).and hspecial).imp
  rintro _ g ⟨hinv, hslots, hnodes⟩
  apply (hrest g).imp
  intro _ g' hstructs
  refine ⟨(hstructs.grown hinv).1, fun a => ?_, ?_⟩
  · obtain ⟨-, -, info, U, m, rfl⟩ := hstructs
    have ha := hslots a
    cases a <;> exact ha
  · obtain ⟨-, -, info, U, m, rfl⟩ := hstructs
    exact hnodes

theorem Step.Takes.between (hP : P.ClosedConstants) (hv : Visits visits) {k : Step}
    {after : List Step} {g g' : Gen} (hk : k.Takes P fuel g g')
    (hsuf : k :: after <:+ moduleSteps P visits) (hg : Between P fuel (k :: after) g) :
    Between P fuel after g' ∧ Extends {a | Step.Owns P k a} {a | Step.Fresh k a} g g' := by
  obtain ⟨left, hrun⟩ := hk
  exact (step_between hP hv hsuf hg left).result hrun

/-- The steps done so far leave the table ready for the rest. -/
theorem Reached.ready (hP : P.ClosedConstants) (hv : Visits visits) (hone : OneObject P visits)
    {done rest : List Step} (hall : done ++ rest = moduleSteps P visits) {g : Gen}
    (h : Reached P fuel visits done g) :
    Ready slots (fun k => {a | Step.Owns P k a}) (Between P fuel) rest g := by
  obtain ⟨-, g0, hbegin, hrun⟩ := h
  obtain ⟨hinv, hslots, hnodes⟩ := beginModule_spec.result hbegin
  have hclosed : ClosedNodes g0 := fun N hN v hval => by simp [hnodes N hN] at hval
  have hready : Ready slots (fun k => {a | Step.Owns P k a}) (Between P fuel) (done ++ rest) g0 :=
    ⟨⟨hinv, ⟨fun i n hn => absurd ((hslots (.val (.inst i))).symm.trans hn) (by simp),
      fun t => hslots (.val (.null t))⟩, fun _ => hclosed⟩, fun _ _ a _ => hslots a⟩
  have hspare : (done ++ rest).Pairwise (Spares (fun k => {a | Step.Owns P k a})
      fun k => {a | Step.Fresh k a}) := hall ▸ moduleSteps_spares hv hone
  exact (hready.steps hspare (fun k after s s' hsuf hs hk =>
    (hk.between hP hv (hall ▸ hsuf) hs).imp id Extends.writes) hrun).1

/-- What the steps `mid` keep when they follow the steps `done`. -/
theorem Reached.stays (hP : P.ClosedConstants) (hv : Visits visits) (hone : OneObject P visits)
    {done mid : List Step} {g g' : Gen} (h : Reached P fuel visits done g)
    (hpre : done ++ mid <+: moduleSteps P visits) (hrun : Leads (Step.Takes P fuel) mid g g') :
    Stays g.slots g'.slots ∧ g.nodes <+: g'.nodes := by
  obtain ⟨rest, hrest⟩ := hpre
  rw [List.append_assoc] at hrest
  obtain ⟨hinv, hfree⟩ := h.ready hP hv hone hrest
  have hspare : (mid ++ rest).Pairwise (Spares (fun k => {a | Step.Owns P k a})
      fun k => {a | Step.Fresh k a}) :=
    (moduleSteps_spares hv hone).sublist (hrest ▸ List.sublist_append_right done _)
  have hready : Ready slots (fun k => {a | Step.Owns P k a})
      (fun l s => Between P fuel l s ∧ g.nodes <+: s.nodes) (mid ++ rest) g :=
    ⟨⟨hinv, List.prefix_refl _⟩, hfree⟩
  obtain ⟨hend, hstays⟩ := hready.steps hspare (fun k after s s' hsuf hs hk => by
    obtain ⟨hafter, hext⟩ := hk.between hP hv (hsuf.trans ⟨done, hrest⟩) hs.1
    exact ⟨⟨hafter, hs.2.trans hext.nodes⟩, hext.writes⟩) hrun
  exact ⟨hstays, hend.inv.2⟩

/-- A call through a pointer has a block of its own, which starts at the next free node. -/
theorem indCall_object {i n left : Nat} {g : Gen}
    (hop : (P.insts i).op = .call ∨ (P.insts i).op = .invoke)
    (hind : calleeOf (P.insts i) = none) (hg : Inv P fuel g) (ht : Tidy g)
    (hn : g.valNode (.inst i) = some n) :
    Wp (visitInsn P left i) (fun _ g' => g'.objNode (.inst i) = some g.nodes.length ∧
      ∃ N, g'.nodes[g.nodes.length]? = some N ∧ N.val = some (.inst i)) g := by
  have hrun : Wp (idCallInsn P left i) (fun _ g' => g'.objNode (.inst i) = some g.nodes.length ∧
      ∃ N, g'.nodes[g.nodes.length]? = some N ∧ N.val = some (.inst i)) g := by
    unfold idCallInsn
    dsimp only
    rw [wp_bind, findValNode_some hn]
    intro hne
    rw [if_pos hne, hind]
    unfold idCallObj
    simp only [wp_bind, wp_get, ht.inst i n hn, setObjNode, wp_modify]
    apply (traceAllocType_only i g).imp
    intro T g1 hg1
    obtain ⟨hflat, -, info, U, m, rfl⟩ := hg1
    -- the object is entered before its nodes are made
    apply (pushObject_nodes (.inst i) T true _).imp
    rintro _ g3 ⟨g2, l, hg2, hl, hval, rfl⟩
    obtain ⟨-, -, info', U', m', rfl⟩ := hg2
    obtain ⟨N, l', rfl⟩ := List.exists_cons_of_ne_nil (hl (hflat hg.2.structs))
    -- the rest may only make nodes for constant expressions
    have hexpr : ExprsIn {a | ∃ op t ops, a = .val (.expr op t ops)} := fun op t ops =>
      ⟨op, t, ops, rfl⟩
    have hsafe : Safe P ∅ {a | ∃ op t ops, a = .val (.expr op t ops)} ∅ (idIndCall P left i)
        fun _ => ∅ := idIndCall_safe hexpr i
    apply (hsafe.runs _).imp
    intro _ g' hE
    constructor
    · rcases hE.writes (.obj (.inst i)) with heq | ho | ⟨-, op, t, ops, he⟩
      · refine Eq.trans heq ?_
        simp [slots, hg.1]
      · cases ho
      · cases he
    · obtain ⟨l'', hl''⟩ := hE.nodes
      exact ⟨N, by simp [← hl''], hval N (List.mem_cons_self ..)⟩
  unfold visitInsn
  dsimp only
  rcases hop with hop | hop <;> rw [hop] <;> exact hrun

/-- If all new objects are stored through values that have no other object, no step changes
an entry that is there, and a call through a pointer keeps the block that was made for it. -/
theorem objects_stay (hP : P.ClosedConstants) (hv : Visits visits) (hone : OneObject P visits)
    {done mid : List Step} {g g' : Gen} (h : Reached P fuel visits done g)
    (hpre : done ++ mid <+: moduleSteps P visits) (hrun : Leads (Step.Takes P fuel) mid g g') :
    Stays g.slots g'.slots ∧ ∀ i n after, mid = .insn i :: after →
      (P.insts i).op = .call ∨ (P.insts i).op = .invoke → calleeOf (P.insts i) = none →
      g.valNode (.inst i) = some n → g'.objNode (.inst i) = some g.nodes.length ∧
        ∃ N, g'.nodes[g.nodes.length]? = some N ∧ N.val = some (.inst i) := by
  refine ⟨(h.stays hP hv hone hpre hrun).1, ?_⟩
  rintro i n after rfl hop hind hn
  obtain ⟨g1, ⟨left, hinsn⟩, hafter⟩ := hrun
  obtain ⟨rest, hrest⟩ := id hpre
  rw [List.append_assoc] at hrest
  have hinv := (h.ready hP hv hone hrest).inv
  obtain ⟨hobj, N, hN, hval⟩ := (indCall_object hop hind hinv.inv hinv.tidy hn).result hinsn
  -- the rest of the run starts behind the call
  have h1 : Reached P fuel visits (done ++ [.insn i]) g1 := by
    obtain ⟨-, g0, hbegin, hdone⟩ := h
    refine ⟨?_, g0, hbegin, leads_append.mpr ⟨g, hdone, g1, ⟨left, hinsn⟩, rfl⟩⟩
    exact (List.prefix_append_right_inj done).mpr (by simp) |>.trans hpre
  obtain ⟨hstays, hnodes⟩ := h1.stays hP hv hone (by simpa using hpre) hafter
  obtain ⟨l, hl⟩ := hnodes
  refine ⟨hstays (.obj (.inst i)) _ hobj, N, ?_, hval⟩
  rw [← hl, List.getElem?_append_left (List.getElem?_eq_some_iff.mp hN).1, hN]

/-! ## The run of a module -/

theorem forM_leads {α κ : Type} (takes : κ → Gen → Gen → Prop) (mk : α → κ) {f : α → GenM Unit}
    {l : List α} (h : ∀ a ∈ l, ∀ g g', f a g = .ok ((), g') → takes (mk a) g g') (g : Gen) :
    Wp (l.forM f) (fun _ g' => Leads takes (l.map mk) g g') g := by
  induction l generalizing g with
  | nil => exact (rfl : g = g)
  | cons a l ih =>
      change Wp (f a >>= fun _ => l.forM f) _ g
      rw [wp_bind]
      refine wp_iff.mpr fun _ g1 ha => ?_
      exact (ih (fun a' ha' => h a' (List.mem_cons_of_mem _ ha')) g1).imp fun _ g' hl =>
        ⟨g1, h a (List.mem_cons_self ..) g g1 ha, hl⟩

/-- The instructions of function `f`. -/
def bodyInsts (P : Ir) (f : Nat) : List Nat := (P.func f).blocks.flatMap Block.insts

/-- The instructions of block `b`. -/
def blockInsts (P : Ir) (f b : Nat) : List Nat :=
  match (P.func f).blocks[b]? with
  | some B => B.insts
  | none => []

/-- The run from `g` to `g'` handled the blocks that are in `seen'` but not in `seen`. -/
def BlocksDone (P : Ir) (fuel f : Nat) (seen : List Nat) (g : Gen) (seen' : List Nat) (g' : Gen) :
    Prop :=
  ∃ bs : List Nat, seen' = bs.reverse ++ seen ∧ (seen.Nodup → seen'.Nodup) ∧
    Leads (Step.Takes P fuel) ((bs.flatMap (blockInsts P f)).map .insn) g g'

/-- Blocks are handled once each, in the order in which they are found. -/
theorem processBlock_done (f b left : Nat) (seen : List Nat) (g : Gen) :
    Wp (processBlock P left f b seen) (BlocksDone P fuel f seen g) g := by
  induction left generalizing b seen g with
  | zero => exact trivial
  | succ left ih =>
      unfold processBlock
      rw [wp_ite]
      refine ⟨fun _ => ⟨[], rfl, id, rfl⟩, fun hb => ?_⟩
      have hnew : seen.Nodup → (b :: seen).Nodup := fun hs => List.nodup_cons.mpr ⟨hb, hs⟩
      cases hblock : (P.func f).blocks[b]? with
      | none => exact ⟨[b], rfl, hnew, by simp [blockInsts, hblock, Leads]⟩
      | some B =>
          dsimp only
          rw [wp_bind]
          apply (forM_leads (Step.Takes P fuel) .insn (fun i _ _ _ h => ⟨left, h⟩) g).imp
          intro _ g1 h1
          -- the blocks behind `b` are handled one after the other
          apply wp_foldlM (BlocksDone P fuel f seen g)
          · exact ⟨[b], rfl, hnew, by simpa [blockInsts, hblock] using h1⟩
          · rintro b' - seen' g2 ⟨bs, rfl, hnd, hbs⟩
            apply (ih b' _ g2).imp
            rintro _ g3 ⟨bs', rfl, hnd', hbs'⟩
            refine ⟨bs ++ bs', by simp, hnd' ∘ hnd, ?_⟩
            rw [List.flatMap_append, List.map_append]
            exact leads_append.mpr ⟨g2, hbs, hbs'⟩

theorem mem_blockInsts {f b i : Nat} :
    i ∈ blockInsts P f b ↔ ∃ B, (P.func f).blocks[b]? = some B ∧ i ∈ B.insts := by
  unfold blockInsts
  cases (P.func f).blocks[b]? <;> simp

theorem nodup_blocks {f : Nat} {bs : List Nat} (h : (bodyInsts P f).Nodup) (hbs : bs.Nodup) :
    (bs.flatMap (blockInsts P f)).Nodup := by
  obtain ⟨hone, hdisj⟩ := List.nodup_flatMap.mp h
  -- different blocks have different instructions
  have hlt : ∀ b b', b < b' → List.Disjoint (blockInsts P f b) (blockInsts P f b') := by
    intro b b' hb i hi hi'
    obtain ⟨B, hB, hi⟩ := mem_blockInsts.mp hi
    obtain ⟨B', hB', hi'⟩ := mem_blockInsts.mp hi'
    obtain ⟨hlt, rfl⟩ := List.getElem?_eq_some_iff.mp hB
    obtain ⟨hlt', rfl⟩ := List.getElem?_eq_some_iff.mp hB'
    exact List.pairwise_iff_getElem.mp hdisj b b' hlt hlt' hb hi hi'
  refine List.nodup_flatMap.mpr ⟨fun b _ => ?_, hbs.imp fun {b b'} hne => ?_⟩
  · unfold blockInsts
    split
    · rename_i B hB
      exact hone B (List.mem_of_getElem? hB)
    · exact List.nodup_nil
  · rcases Nat.lt_or_gt_of_ne hne with hb | hb
    · exact hlt b b' hb
    · exact (hlt b' b hb).symm

theorem mem_bodyInsts {f b i : Nat} (h : i ∈ blockInsts P f b) : i ∈ bodyInsts P f := by
  obtain ⟨B, hB, hi⟩ := mem_blockInsts.mp h
  exact List.mem_flatMap.mpr ⟨B, List.mem_of_getElem? hB, hi⟩

/-- The visits of the functions `fs` enter and handle their instructions. -/
def VisitsOf (P : Ir) (fs : List Nat) (visits : List Step) : Prop :=
  visits.Nodup ∧ ∀ k ∈ visits, ∃ i ∈ fs.flatMap (bodyInsts P), k = .enter i ∨ k = .insn i

theorem visitFunc_leads {f left : Nat} (h : (bodyInsts P f).Nodup) (g : Gen) :
    Wp (visitFunc P left f) (fun _ g' => ∃ visits, VisitsOf P [f] visits ∧
      Leads (Step.Takes P fuel) visits g g') g := by
  unfold visitFunc
  rw [wp_bind]
  apply (forM_leads (Step.Takes P fuel) .enter (fun i _ _ _ h => ⟨left, h⟩) g).imp
  intro _ g1 h1
  rw [wp_bind]
  apply (processBlock_done f 0 left [] g1).imp
  rintro _ g2 ⟨bs, rfl, hnd, hbs⟩
  have hbs' := nodup_blocks h (by simpa using hnd List.nodup_nil)
  refine ⟨(bodyInsts P f).map .enter ++ (bs.flatMap (blockInsts P f)).map .insn, ⟨?_, ?_⟩,
    leads_append.mpr ⟨g1, h1, hbs⟩⟩
  · refine List.nodup_append.mpr ⟨h.map fun _ _ => Step.enter.inj,
      hbs'.map fun _ _ => Step.insn.inj, ?_⟩
    rintro _ hk _ hk' rfl
    obtain ⟨i, -, rfl⟩ := List.mem_map.mp hk
    obtain ⟨j, -, hj⟩ := List.mem_map.mp hk'
    cases hj
  · intro k hk
    rcases List.mem_append.mp hk with hk | hk
    · obtain ⟨i, hi, rfl⟩ := List.mem_map.mp hk
      exact ⟨i, by simpa using hi, .inl rfl⟩
    · obtain ⟨i, hi, rfl⟩ := List.mem_map.mp hk
      obtain ⟨b, -, hb⟩ := List.mem_flatMap.mp hi
      exact ⟨i, by simpa using mem_bodyInsts hb, .inr rfl⟩

theorem VisitsOf.append {fs fs' : List Nat} {visits visits' : List Step}
    (h : VisitsOf P fs visits) (h' : VisitsOf P fs' visits')
    (hdisj : (fs.flatMap (bodyInsts P)).Disjoint (fs'.flatMap (bodyInsts P))) :
    VisitsOf P (fs ++ fs') (visits ++ visits') := by
  constructor
  · refine List.nodup_append.mpr ⟨h.1, h'.1, ?_⟩
    rintro k hk _ hk' rfl
    obtain ⟨i, hi, hki⟩ := h.2 k hk
    obtain ⟨j, hj, hkj⟩ := h'.2 k hk'
    obtain rfl : i = j := by rcases hki with rfl | rfl <;> simpa using hkj
    exact hdisj hi hj
  · intro k hk
    rw [List.flatMap_append]
    rcases List.mem_append.mp hk with hk | hk
    · obtain ⟨i, hi, hki⟩ := h.2 k hk
      exact ⟨i, List.mem_append_left _ hi, hki⟩
    · obtain ⟨i, hi, hki⟩ := h'.2 k hk
      exact ⟨i, List.mem_append_right _ hi, hki⟩

theorem visitFuncs_leads {left : Nat} {fs : List Nat} (h : (fs.flatMap (bodyInsts P)).Nodup)
    (g : Gen) : Wp (fs.forM fun f => if P.isExt f then pure () else visitFunc P left f)
      (fun _ g' => ∃ visits, VisitsOf P fs visits ∧ Leads (Step.Takes P fuel) visits g g') g := by
  induction fs generalizing g with
  | nil => exact ⟨[], ⟨List.nodup_nil, by simp⟩, rfl⟩
  | cons f fs ih =>
      change Wp ((if P.isExt f then pure () else visitFunc P left f) >>= fun _ =>
        fs.forM fun f => if P.isExt f then pure () else visitFunc P left f) _ g
      rw [List.flatMap_cons, List.nodup_append'] at h
      obtain ⟨hf, hfs, hdisj⟩ := h
      have hone : Wp (if P.isExt f then pure () else visitFunc P left f) (fun _ g' =>
          ∃ visits, VisitsOf P [f] visits ∧ Leads (Step.Takes P fuel) visits g g') g := by
        rw [wp_ite]
        exact ⟨fun _ => ⟨[], ⟨List.nodup_nil, by simp⟩, rfl⟩, fun _ => visitFunc_leads hf g⟩
      rw [wp_bind]
      apply hone.imp
      rintro _ g1 ⟨visits, hvisits, h1⟩
      apply (ih hfs g1).imp
      rintro _ g2 ⟨visits', hvisits', h2⟩
      exact ⟨visits ++ visits', hvisits.append hvisits' (by simpa using hdisj),
        leads_append.mpr ⟨g1, h1, h2⟩⟩

/-- Every run of `obj_cons_id` is one of steps, if no instruction stands in two places. -/
theorem objConsId_reached
    (hP : ((List.range P.funcs.length).flatMap (bodyInsts P)).Nodup) {g : Gen}
    (h : objConsId P fuel Gen.empty = .ok ((), g)) :
    ∃ visits, Visits visits ∧ Reached P fuel visits (moduleSteps P visits) g := by
  have hbegin : objConsId P fuel = (beginModule P fuel >>= fun _ => do
      (List.range P.funcs.length).forM fun f => idFunc P fuel f
      (List.range P.globals.length).forM fun i => idGlobal P fuel i
      (List.range P.globals.length).forM fun i => initGlobal P fuel i
      (← get).gepCe.forM fun vn => procGepCe P fuel vn
      (List.range P.funcs.length).forM fun f =>
        if P.isExt f then pure () else visitFunc P fuel f
      let g ← get
      require (g.nextNode = g.nodes.length) "wrong node count") := by
    simp only [beginModule, bind_assoc]
    rfl
  have hrun : Wp (objConsId P fuel) (fun _ g' => ∃ visits, Visits visits ∧
      Reached P fuel visits (moduleSteps P visits) g') Gen.empty := by
    rw [hbegin, wp_bind]
    refine wp_iff.mpr fun _ g0 h0 => ?_
    have htakes : ∀ {k : Step} {g g' : Gen}, k.run P fuel fuel g = .ok ((), g') →
        k.Takes P fuel g g' := fun h => ⟨fuel, h⟩
    rw [wp_bind]
    apply (forM_leads (Step.Takes P fuel) .func (fun f _ _ _ h => htakes h) g0).imp
    intro _ g1 h1
    rw [wp_bind]
    apply (forM_leads (Step.Takes P fuel) .global (fun f _ _ _ h => htakes h) g1).imp
    intro _ g2 h2
    rw [wp_bind]
    apply (forM_leads (Step.Takes P fuel) .init (fun f _ _ _ h => htakes h) g2).imp
    intro _ g3 h3
    rw [wp_bind, wp_get, wp_bind]
    refine wp_iff.mpr fun _ g4 h4 => ?_
    rw [wp_bind]
    apply (visitFuncs_leads hP g4).imp
    rintro _ g5 ⟨visits, hvisits, h5⟩
    rw [wp_bind, wp_get, wp_lift]
    intro _ _
    refine ⟨visits, ⟨hvisits.1, fun k hk => ?_⟩, List.prefix_refl _, g0, h0, ?_⟩
    · obtain ⟨i, -, hk⟩ := hvisits.2 k hk
      exact ⟨i, hk⟩
    · have hgep : Leads (Step.Takes P fuel) [.gepCe] g3 g4 := ⟨g4, htakes h4, rfl⟩
      exact leads_append.mpr ⟨g4, leads_append.mpr ⟨g3, leads_append.mpr ⟨g2,
        leads_append.mpr ⟨g1, h1, h2⟩, h3⟩, hgep⟩, h5⟩
  exact hrun.result h

end

/-! ## Two runs -/

/-- A function `void f(int **x)` that calls `scandir`, which stores a new object through its
second argument, with `v` there; `int *g` is a global. -/
def callScandir (v : Val) : Ir where
  structs _ := []
  named := []
  funcs := [⟨"scandir", true, false, false, [.ptr .other, .ptr (.ptr .int)], .int, []⟩,
    ⟨"f", false, false, false, [.ptr (.ptr .int)], .void, [⟨[0], []⟩]⟩]
  globals := [⟨.ptr .int, none, false⟩]
  insts _ := ⟨.call, .int, [.func 0, v, .func 0]⟩
  parent _ := (1, 0)
  users w := if w = .func 0 ∨ w = v then [.inst 0] else []
  extInfo name := if name = "scandir" then some .a1rNew else none
  setOrder := id
  ulongBits := 32

theorem callScandir_closed (v : Val) : (callScandir v).ClosedConstants where
  init i C h := by
    unfold Ir.global callScandir at h
    rcases i with _ | i <;> simp at h
  users w u h he := by
    unfold callScandir at h
    dsimp only at h
    split at h
    · rw [List.mem_singleton.mp h] at he
      cases he
    · cases h

def scandirVisits : List Step := [.insn 0]

theorem scandirVisits_visits : Visits scandirVisits where
  nodup := List.nodup_singleton _
  kind _ hk := ⟨0, .inr (List.mem_singleton.mp hk)⟩

/-- All steps before the call. -/
def beforeScandir : List Step := [.func 0, .func 1, .global 0, .init 0, .gepCe]

/-- A test on the states before and after the call holds on a run of `callScandir`. -/
theorem scandir_run (v : Val) (p : Gen → Gen → Bool)
    (h : Passes ((beginModule (callScandir v) 20 >>= fun _ =>
      beforeScandir.forM (Step.run (callScandir v) 20 20)) Gen.empty) (fun g =>
        Passes (visitInsn (callScandir v) 20 0 g) fun g' => p g g') = true) :
    ∃ g g', Reached (callScandir v) 20 scandirVisits beforeScandir g ∧
      Leads (Step.Takes (callScandir v) 20) [.insn 0] g g' ∧ p g g' = true := by
  obtain ⟨_, g, hrun, h⟩ := Passes.state h
  obtain ⟨_, g', hcall, h⟩ := Passes.state h
  have hreached : Wp (beginModule (callScandir v) 20 >>= fun _ =>
      beforeScandir.forM (Step.run (callScandir v) 20 20))
      (fun _ g => Reached (callScandir v) 20 scandirVisits beforeScandir g) Gen.empty := by
    rw [wp_bind]
    refine wp_iff.mpr fun _ g0 h0 => ?_
    apply (forM_leads (Step.Takes (callScandir v) 20) id (fun k _ _ _ h => ⟨20, h⟩) g0).imp
    intro _ g1 h1
    exact ⟨⟨[.insn 0], rfl⟩, g0, h0, by simpa using h1⟩
  exact ⟨g, g', hreached.result hrun, ⟨g', ⟨20, hcall⟩, rfl⟩, h⟩

theorem objects_stay_scandir : ∃ g g', Reached (callScandir (.arg 1 0)) 20 scandirVisits beforeScandir g ∧
    Leads (Step.Takes (callScandir (.arg 1 0)) 20) [.insn 0] g g' ∧ Stays g.slots g'.slots := by
  obtain ⟨g, g', hreached, hrun, -⟩ :=
    scandir_run (.arg 1 0) (fun _ _ => true) (by decide +kernel)
  have hnew : ∀ i v, StoresNew (callScandir (.arg 1 0)) i v → v = .arg 1 0 := by
    rintro i v ⟨-, f, hf, -, k, hk, hv, -⟩
    obtain rfl : 0 = f := by simpa [calleeOf, callScandir, Inst.operand] using hf
    obtain rfl : 1 = k := by
      simpa [Ir.extType, Ir.func, callScandir, newArgNo] using hk
    simpa [callScandir, Inst.args, Inst.nonArgs] using hv.symm
  have hone : OneObject (callScandir (.arg 1 0)) scandirVisits :=
    { global := fun i j _ h => by cases hnew i _ h
      main := fun i f j _ h hmain _ _ => by
        cases hnew i _ h
        exact absurd hmain (by decide)
      call := fun i j _ _ h => by cases hnew i _ h
      once := fun i j v hi hj _ _ => by
        simp only [scandirVisits, List.mem_singleton, Step.insn.injEq] at hi hj
        rw [hi, hj] }
  exact ⟨g, g', hreached, hrun, (objects_stay (callScandir_closed _) scandirVisits_visits hone
    hreached (by decide) hrun).1⟩

/-- The object of a global whose address is passed there is replaced. -/
theorem scandir_overwrites : ¬ ∀ (P : Ir) (fuel : Nat) (visits done mid : List Step) (g g' : Gen),
    P.ClosedConstants → Visits visits → Reached P fuel visits done g →
      done ++ mid <+: moduleSteps P visits → Leads (Step.Takes P fuel) mid g g' →
        Stays g.slots g'.slots := by
  intro h
  obtain ⟨g, g', hreached, hrun, htest⟩ := scandir_run (.global 0)
    (fun g g' => decide (g.objNode (.global 0) = some 7 ∧ g'.objNode (.global 0) ≠ some 7))
    (by decide +kernel)
  obtain ⟨hold, hnew⟩ := of_decide_eq_true htest
  exact hnew (h _ 20 scandirVisits beforeScandir [.insn 0] g g' (callScandir_closed _)
    scandirVisits_visits hreached (by decide) hrun (.obj (.global 0)) 7 hold)

end Gen

end PtrAnalysis
