import PtrAnalysis.Lib.Assoc
import PtrAnalysis.Semantics

/-!
# Factoring loads and stores

Several loads `A = *V + k` with the same `V` and `k` are replaced by one load
into a new node and copies from there, and stores likewise. The tags of indirect
calls are moved to the new constraints in a second pass, which looks up the new
node by `(V, k)` alone.
-/

namespace PtrAnalysis

open Run

/-- The node that is dereferenced, and the offset. -/
abbrev LsKey := Nat × Nat

/-- The load or store with the given key and other side. -/
def lsCons (load : Bool) (key : LsKey) (x : Nat) : Constraint :=
  if load then ⟨.load, x, key.1, key.2⟩ else ⟨.store, key.1, x, key.2⟩

/-- The copy between the other side `x` and the node `t` that stands for all. -/
def lsLink (load : Bool) (t x : Nat) : Constraint :=
  if load then ⟨.copy, x, t, 0⟩ else ⟨.copy, t, x, 0⟩

def lsKey (C : Constraint) : LsKey :=
  (if C.type = .load then C.src else C.dest, C.off)

/-- `loads[key]` or `stores[key]` -/
def lsGroup (cs : List Constraint) (load : Bool) (key : LsKey) : Finset Nat :=
  ((cs.filter fun C => C.type = (if load then .load else .store) ∧ lsKey C = key).map
    fun C => if load then C.dest else C.src).toFinset

/-- Groups of at least this size are factored. -/
def factorLsMinSz : Nat := 2

/-- Factor one group, returning the new node, or 0 if it was not factored. -/
def factorGroup (a : Anders) (other : Finset Nat) (key : LsKey) (load : Bool) :
    Run (Anders × Nat) := do
  require (other.card ≠ 0) "szo"
  if other.card < factorLsMinSz then
    return ({ a with constraints := a.constraints ++ (ascending other).map (lsCons load key) }, 0)
  else
    let t := a.size
    return ({ a with
      size := a.size + 1
      nodes := Function.update a.nodes t {}
      constraints := a.constraints ++ (lsCons load key t :: (ascending other).map (lsLink load t)) },
      t)

/-- Factor all loads or all stores, entering the new nodes into the table. -/
def factorGroups (cs : List Constraint) (load : Bool) (keys : List LsKey)
    (t : Anders × List (LsKey × Nat)) : Run (Anders × List (LsKey × Nat)) :=
  keys.foldlM (fun (t : Anders × List (LsKey × Nat)) key => do
    let (a, n) ← factorGroup t.1 (lsGroup cs load key) key load
    return (a, if n = 0 then t.2 else (key, n) :: t.2)) t

/-- The constraint that takes the calls of `C`. -/
def moveIcall (temp : List (LsKey × Nat)) (C : Constraint) : Constraint :=
  match temp.lookup (lsKey C) with
  | none => C
  | some t => if C.type = .load then { C with dest := t } else { C with src := t }

/-- Factor load/store constraints. The two lists are the keys of the hash maps of
groups, in the order of their iteration. -/
def factorLs (loadKeys storeKeys : List LsKey) (a : Anders) : Run Anders := do
  let cs := a.constraints
  let a := { a with constraints := cs.filter fun C => C.type ≠ .load ∧ C.type ≠ .store }
  let t ← factorGroups cs true loadKeys (a, [])
  let (a, temp) ← factorGroups cs false storeKeys t
  return { a with
    icallCons := a.icallCons.foldl (fun m e => m.add (moveIcall temp e.1) e.2) [] }

/-! ## What is factored -/

theorem mem_lsGroup {cs : List Constraint} {load : Bool} {key : LsKey} {x : Nat} :
    x ∈ lsGroup cs load key ↔ lsCons load key x ∈ cs := by
  simp only [lsGroup, List.mem_toFinset, List.mem_map, List.mem_filter, decide_eq_true_eq]
  constructor
  · rintro ⟨⟨type, dest, src, off⟩, ⟨hC, htype, hkey⟩, hx⟩
    cases load <;> dsimp only [reduceIte, Bool.false_eq_true] at htype hx <;> subst htype hx hkey <;>
      exact hC
  · intro hC
    refine ⟨_, ⟨hC, ?_, ?_⟩, ?_⟩ <;> cases load <;> rfl

/-- A group of loads or stores that gets a node of its own. -/
def Big (cs : List Constraint) (g : Bool × LsKey) : Prop :=
  factorLsMinSz ≤ (lsGroup cs g.1 g.2).card

instance (cs : List Constraint) (g : Bool × LsKey) : Decidable (Big cs g) := by
  unfold Big
  infer_instance

/-- The constraints that replace a group, `t` being its node if it is big. -/
def groupCons (cs : List Constraint) (g : Bool × LsKey) (t : Nat) (C : Constraint) : Prop :=
  if Big cs g then C = lsCons g.1 g.2 t ∨ ∃ x ∈ lsGroup cs g.1 g.2, C = lsLink g.1 t x
  else ∃ x ∈ lsGroup cs g.1 g.2, C = lsCons g.1 g.2 x

/-- Loads and stores aside. -/
def Constraint.plain (C : Constraint) : Prop := C.type ≠ .load ∧ C.type ≠ .store

/-- The groups in `done` are replaced; the node of group `g` is `T g`. -/
structure Factoring (a : Anders) (done : List (Bool × LsKey)) (T : Bool × LsKey → Nat) (b : Anders)
    (temp : List (LsKey × Nat)) : Prop where
  frame : b = { a with size := b.size, nodes := b.nodes, constraints := b.constraints }
  size_le : a.size ≤ b.size
  old : ∀ n < a.size, b.nodes n = a.nodes n
  fresh : ∀ g ∈ done, Big a.constraints g → a.size ≤ T g ∧ T g < b.size
  inj : ∀ g ∈ done, ∀ h ∈ done, Big a.constraints g → Big a.constraints h → T g = T h → g = h
  cons : ∀ C, C ∈ b.constraints ↔
    C ∈ a.constraints ∧ C.plain ∨ ∃ g ∈ done, groupCons a.constraints g (T g) C
  temp : ∀ key, temp.lookup key =
    if (false, key) ∈ done ∧ Big a.constraints (false, key) then some (T (false, key))
    else if (true, key) ∈ done ∧ Big a.constraints (true, key) then some (T (true, key))
    else none

section

variable {a b : Anders} {done : List (Bool × LsKey)} {T : Bool × LsKey → Nat}
  {temp : List (LsKey × Nat)} {g : Bool × LsKey}

theorem Factoring.start (a : Anders) (T : Bool × LsKey → Nat) : Factoring a [] T
    { a with constraints := a.constraints.filter fun C => C.type ≠ .load ∧ C.type ≠ .store } [] where
  frame := rfl
  size_le := Nat.le_refl _
  old _ _ := rfl
  fresh _ hg := by cases hg
  inj _ hg := by cases hg
  cons C := by
    rw [List.mem_filter, decide_eq_true_eq]
    constructor
    · exact .inl
    · rintro (h | ⟨g, hg, -⟩)
      · exact h
      · cases hg
  temp key := by simp

/-- A group too small to be factored goes back to the list. -/
theorem Factoring.small (h : Factoring a done T b temp) (hbig : ¬ Big a.constraints g) :
    Factoring a (done ++ [g]) T { b with
      constraints := b.constraints ++
        (ascending (lsGroup a.constraints g.1 g.2)).map (lsCons g.1 g.2) } temp where
  frame := by
    have hf := congrArg (fun c : Anders => { c with constraints := b.constraints ++
      (ascending (lsGroup a.constraints g.1 g.2)).map (lsCons g.1 g.2) }) h.frame
    exact hf
  size_le := h.size_le
  old := h.old
  fresh g' hg' hb := by
    rcases List.mem_append.mp hg' with hd | hl
    · exact h.fresh g' hd hb
    · rw [List.mem_singleton.mp hl] at hb
      exact absurd hb hbig
  inj g1 h1 g2 h2 hb1 hb2 heq := by
    rcases List.mem_append.mp h1 with h1 | h1 <;> rcases List.mem_append.mp h2 with h2 | h2
    · exact h.inj g1 h1 g2 h2 hb1 hb2 heq
    · rw [List.mem_singleton.mp h2] at hb2
      exact absurd hb2 hbig
    · rw [List.mem_singleton.mp h1] at hb1
      exact absurd hb1 hbig
    · rw [List.mem_singleton.mp h1, List.mem_singleton.mp h2]
  cons C := by
    simp only [List.mem_append, h.cons C, List.mem_map, mem_ascending, List.mem_singleton,
      or_and_right, exists_or, exists_eq_left, or_assoc, groupCons, if_neg hbig]
    simp only [eq_comm]
  temp key := by
    rw [h.temp key]
    simp only [List.mem_append, List.mem_singleton]
    have hkey : ∀ load, ((load, key) ∈ done ∨ (load, key) = g) ∧ Big a.constraints (load, key) ↔
        (load, key) ∈ done ∧ Big a.constraints (load, key) := by
      intro load
      constructor
      · rintro ⟨hd | rfl, hb⟩
        · exact ⟨hd, hb⟩
        · exact absurd hb hbig
      · exact fun hc => ⟨.inl hc.1, hc.2⟩
    simp only [hkey]

/-- A big group gets the next node. -/
theorem Factoring.factored (h : Factoring a done T b temp) (hbig : Big a.constraints g)
    (hnew : g ∉ done) (hload : g.1 = true → ∀ key, (false, key) ∉ done) :
    Factoring a (done ++ [g]) (Function.update T g b.size) { b with
      size := b.size + 1
      nodes := Function.update b.nodes b.size {}
      constraints := b.constraints ++ (lsCons g.1 g.2 b.size ::
        (ascending (lsGroup a.constraints g.1 g.2)).map (lsLink g.1 b.size)) }
      ((g.2, b.size) :: temp) where
  frame := by
    have hf := congrArg (fun c : Anders => { c with
      size := b.size + 1
      nodes := Function.update b.nodes b.size {}
      constraints := b.constraints ++ (lsCons g.1 g.2 b.size ::
        (ascending (lsGroup a.constraints g.1 g.2)).map (lsLink g.1 b.size)) }) h.frame
    exact hf
  size_le := Nat.le_succ_of_le h.size_le
  old n hn := by
    have hle := h.size_le
    change Function.update b.nodes b.size {} n = _
    rw [Function.update_of_ne (by omega)]
    exact h.old n hn
  fresh g' hg' hb := by
    have hle := h.size_le
    change _ ∧ _ < b.size + 1
    by_cases hg : g' = g
    · rw [hg, Function.update_self]
      omega
    · rw [Function.update_of_ne hg]
      rcases List.mem_append.mp hg' with hd | hl
      · obtain ⟨h1, h2⟩ := h.fresh g' hd hb
        omega
      · exact absurd (List.mem_singleton.mp hl) hg
  inj g1 h1 g2 h2 hb1 hb2 heq := by
    have hold : ∀ g', g' ∈ done ++ [g] → g' ≠ g → g' ∈ done := fun g' hg' hne =>
      (List.mem_append.mp hg').resolve_right fun hl => hne (List.mem_singleton.mp hl)
    by_cases hg1 : g1 = g <;> by_cases hg2 : g2 = g
    · rw [hg1, hg2]
    · have := (h.fresh g2 (hold g2 h2 hg2) hb2).2
      rw [hg1, Function.update_self, Function.update_of_ne hg2] at heq
      omega
    · have := (h.fresh g1 (hold g1 h1 hg1) hb1).2
      rw [hg2, Function.update_self, Function.update_of_ne hg1] at heq
      omega
    · rw [Function.update_of_ne hg1, Function.update_of_ne hg2] at heq
      exact h.inj g1 (hold g1 h1 hg1) g2 (hold g2 h2 hg2) hb1 hb2 heq
  cons C := by
    have hold : ∀ g' ∈ done, Function.update T g b.size g' = T g' := by
      intro g' hg'
      refine Function.update_of_ne ?_ ..
      rintro rfl
      exact hnew hg'
    have hdone : (∃ g' ∈ done, groupCons a.constraints g' (Function.update T g b.size g') C) ↔
        ∃ g' ∈ done, groupCons a.constraints g' (T g') C := by
      constructor
      · rintro ⟨g', hg', hc⟩
        exact ⟨g', hg', hold g' hg' ▸ hc⟩
      · rintro ⟨g', hg', hc⟩
        exact ⟨g', hg', (hold g' hg').symm ▸ hc⟩
    simp only [List.mem_append, List.mem_singleton, or_and_right, exists_or, exists_eq_left, hdone,
      Function.update_self, ← or_assoc, h.cons C]
    rw [groupCons, if_pos hbig]
    simp only [List.mem_cons, List.mem_map, mem_ascending, eq_comm, or_assoc]
  temp key := by
    rw [List.lookup_cons]
    obtain ⟨load, key'⟩ := g
    by_cases hkey : key = key'
    · subst hkey
      rw [show (key == key) = true from beq_self_eq_true key]
      cases load with
      | false =>
          rw [if_pos ⟨by simp, hbig⟩, Function.update_self]
      | true =>
          have hno : ¬ ((false, key) ∈ done ++ [(true, key)] ∧ Big a.constraints (false, key)) := by
            rintro ⟨hd, -⟩
            simp only [List.mem_append, List.mem_singleton, Prod.mk.injEq, Bool.false_eq_true,
              false_and, or_false] at hd
            exact hload rfl key hd
          rw [if_neg hno, if_pos ⟨by simp, hbig⟩, Function.update_self]
    · have hne : ∀ l, (l, key) ≠ (load, key') := fun l he => hkey (Prod.mk.inj he).2
      rw [show (key == key') = false by simpa using hkey]
      simp only [List.mem_append, List.mem_singleton, hne, or_false, Function.update_of_ne (hne _)]
      exact h.temp key

theorem factorGroup_spec (h : Factoring a done T b temp) (hsize : 0 < a.size) (hnew : g ∉ done)
    (hload : g.1 = true → ∀ key, (false, key) ∉ done)
    (hne : (lsGroup a.constraints g.1 g.2).card ≠ 0) :
    Spec (factorGroup b (lsGroup a.constraints g.1 g.2) g.2 g.1) (fun u => ∃ T',
      Factoring a (done ++ [g]) T' u.1 (if u.2 = 0 then temp else (g.2, u.2) :: temp))
      fun _ => False := by
  unfold factorGroup
  refine spec_require (fun hc => absurd hne hc) fun _ => ?_
  split
  · rename_i hsmall
    exact ⟨T, h.small (Nat.not_le_of_lt hsmall)⟩
  · rename_i hbig
    have hpos : b.size ≠ 0 := by
      have := h.size_le
      omega
    refine ⟨Function.update T g b.size, ?_⟩
    dsimp only
    rw [if_neg hpos]
    exact h.factored (Nat.le_of_not_lt hbig) hnew hload

/-- All groups of one kind. -/
theorem factorGroups_spec (load : Bool) (keys : List LsKey) (hsize : 0 < a.size)
    (h : Factoring a done T b temp) (hnew : ∀ key, (load, key) ∉ done)
    (hload : load = true → ∀ key, (false, key) ∉ done) (hnodup : keys.Nodup)
    (hne : ∀ key ∈ keys, (lsGroup a.constraints load key).card ≠ 0) :
    Spec (factorGroups a.constraints load keys (b, temp)) (fun u => ∃ T',
      Factoring a (done ++ keys.map (Prod.mk load)) T' u.1 u.2) fun _ => False := by
  refine spec_foldlM (fun d (u : Anders × List (LsKey × Nat)) => ∃ T',
    Factoring a (done ++ d.map (Prod.mk load)) T' u.1 u.2) ⟨T, by simpa using h⟩
    fun d key rest u hl hu => ?_
  obtain ⟨T', hT'⟩ := hu
  have hfresh : (load, key) ∉ done ++ d.map (Prod.mk load) := by
    intro hc
    rcases List.mem_append.mp hc with hc | hc
    · exact hnew key hc
    · obtain ⟨key', hkey', he⟩ := List.mem_map.mp hc
      obtain rfl := (Prod.mk.inj he).2
      rw [hl] at hnodup
      exact (List.nodup_append.mp hnodup).2.2 key' hkey' key' (by simp) rfl
  have hstore : load = true → ∀ key, (false, key) ∉ done ++ d.map (Prod.mk load) := by
    intro ht key' hc
    rcases List.mem_append.mp hc with hc | hc
    · exact hload ht key' hc
    · obtain ⟨k, -, he⟩ := List.mem_map.mp hc
      rw [ht] at he
      exact Bool.noConfusion (Prod.mk.inj he).1
  have hstep := factorGroup_spec (g := (load, key)) hT' hsize hfresh hstore
    (hne key (by rw [hl]; simp))
  rw [List.map_append, ← List.append_assoc]
  exact hstep.bind fun v hv => hv

end

/-! ## The tags -/

namespace IcallCons

/-- Call `i` is attached to constraint `C`. -/
def Calls (m : IcallCons) (C : Constraint) (i : Nat) : Prop := ∃ I, m.find C = some I ∧ i ∈ I

theorem find_add (m : IcallCons) (C C' : Constraint) (I : Finset Nat) :
    (m.add C I).find C' = if C' = C then some ((m.find C).getD ∅ ∪ I) else m.find C' := by
  rw [add, find, List.lookup_cons]
  by_cases hC : C' = C
  · rw [if_pos hC, show (C' == C) = true by simpa using hC]
  · rw [if_neg hC, show (C' == C) = false by simpa using hC]
    exact lookup_filter_ne hC

/-- What a map holds after the entries of another one were moved by `f`. -/
theorem find_move (f : Constraint → Constraint) (l : IcallCons) (m : IcallCons) (C : Constraint) :
    (((l.foldl (fun m e => m.add (f e.1) e.2) m).find C).isSome = true ↔
      (m.find C).isSome = true ∨ ∃ e ∈ l, f e.1 = C) ∧
    ∀ i, (l.foldl (fun m e => m.add (f e.1) e.2) m).Calls C i ↔
      m.Calls C i ∨ ∃ e ∈ l, f e.1 = C ∧ i ∈ e.2 := by
  induction l generalizing m with
  | nil => simp
  | cons e l ih =>
      obtain ⟨h1, h2⟩ := ih (m.add (f e.1) e.2)
      rw [List.foldl_cons]
      refine ⟨h1.trans ?_, fun i => (h2 i).trans ?_⟩
      · rw [find_add]
        by_cases hC : C = f e.1
        · simp [hC]
        · simp [hC, Ne.symm hC]
      · have hadd : (m.add (f e.1) e.2).Calls C i ↔ m.Calls C i ∨ f e.1 = C ∧ i ∈ e.2 := by
          unfold Calls
          rw [find_add]
          by_cases hC : C = f e.1
          · subst hC
            cases m.find (f e.1) <;> simp
          · simp [hC, Ne.symm hC]
        rw [hadd, List.exists_mem_cons_iff, or_assoc]

end IcallCons

end PtrAnalysis
