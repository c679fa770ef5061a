import PtrAnalysis.InitRuns

/-!
# Calls on initializers

What one call of `procGlobalInit` or `procGepCe` does to the log, by induction on the depth
of the recursion. A call for the part of an initializer counts the fields of the part and
puts every pointer in it where it belongs, unless the global was entered again and finished
meanwhile: then the inner call has done all this.
-/

namespace PtrAnalysis

open Run Act

namespace Gen

section

variable (P : Ir)

/-- Initializers are built as the language demands. -/
def TypedInits : Prop :=
  ∀ i C, (P.global i).init = some C → C.typed P = true ∧ P.typeOf C = (P.global i).elem

/-- A part of some initializer. -/
def InitPart (C : Val) : Prop := ∃ i D, (P.global i).init = some D ∧ PartOf C D

/-- The object of global `i` at `on` has room for `C` from node `n` on. -/
structure Room (g0 : Gen) (i on n : Nat) (C : Val) : Prop where
  obj : g0.objNode (.global i) = some on
  filled : FilledAll P [P.typeOf C]
  fits : ∃ p w m, n = on + p ∧ Leaves P [(P.global i).elem] w ∧ Leaves P [P.typeOf C] m ∧ p + m ≤ w

/-- A later state of the run, with what was asked for until then. -/
def After (g0 g : Gen) (log : List Request) (Q : List Request → Gen → Prop) (g' : Gen) : Prop :=
  ∃ log', Visiting P g0 none log' g' ∧ Advances g log g' log' ∧ Q log' g'

/-- `C` is for node `n` of an object whose global is not finished. -/
def Unfinished (g0 : Gen) (n : Nat) (C : Val) (g : Gen) : Prop :=
  ∃ i on, Room P g0 i on n C ∧ g.globalInitDone on = none

/-- `k` is what a call for `C` at node `n` is to return, and every pointer in `C` is in the log;
or the global was finished meanwhile. -/
def Counted (g0 : Gen) (n : Nat) (C : Val) (k : Nat) (log : List Request) (g : Gen) : Prop :=
  Unfinished P g0 n C g → k = C.fieldCount ∧ Served P log C n

/-- What a call of `procGlobalInit` does. -/
def InitSpec (g0 : Gen) (fuel : Nat) : Prop :=
  ∀ n C first log g, Visiting P g0 none log g → InitPart P C →
    (first = true → ∃ i, g0.objNode (.global i) = some n ∧ (P.global i).init = some C) →
    Wp (procGlobalInit P fuel n C first) (fun k => After P g0 g log fun log' g' =>
      (first = true → g'.globalInitDone n ≠ none) ∧ Counted P g0 n C k log' g') g

/-- What a call of `procGepCe` does. -/
def GepSpec (g0 : Gen) (fuel : Nat) : Prop :=
  ∀ n log g, Visiting P g0 none log g → Wp (procGepCe P fuel n) (fun _ =>
    After P g0 g log fun _ g' => ∀ E, g.valAt n = some E → g'.marked E = true) g

end

section

variable {P : Ir} {fuel : Nat} {g0 g g1 g' : Gen} {log log1 log' : List Request}
  {pending : Option Val}

/-! ## Parts of initializers -/

theorem InitPart.typed {C : Val} (h : InitPart P C) (hT : TypedInits P) : C.typed P = true := by
  obtain ⟨i, D, hD, hpart⟩ := h
  exact hpart.typed (hT i D hD).1

theorem InitPart.child {C D : Val} (h : InitPart P D) (hC : PartOf C D) : InitPart P C := by
  obtain ⟨i, E, hE, hpart⟩ := h
  exact ⟨i, E, hE, hC.trans hpart⟩

theorem Occurs.part {C D : Val} (h : Occurs P g0 D) (hC : PartOf C D) : Occurs P g0 C := by
  rcases h with ⟨n, v, hv, hpart⟩ | ⟨i, E, hE, hpart⟩
  · exact .inl ⟨n, v, hv, hC.trans hpart⟩
  · exact .inr ⟨i, E, hE, hC.trans hpart⟩

theorem InitPart.occurs {C : Val} (h : InitPart P C) : Occurs P g0 C := .inr h

/-! ## Room in an object -/

theorem Room.first (h0 : Declared P g0) (hT : TypedInits P) {i on : Nat} {C : Val}
    (hon : g0.objNode (.global i) = some on) (hC : (P.global i).init = some C) :
    Room P g0 i on on C := by
  obtain ⟨w, hw, hfill, -⟩ := h0.object i on hon
  have htype := (hT i C hC).2
  exact ⟨hon, htype ▸ hfill, 0, w, w, rfl, hw, htype ▸ hw, by omega⟩

namespace Unfinished

variable {n : Nat} {C : Val}

theorem earlier (h : Unfinished P g0 n C g') (hadv : Advances g log g' log') :
    Unfinished P g0 n C g := by
  obtain ⟨i, on, hroom, hnone⟩ := h
  refine ⟨i, on, hroom, ?_⟩
  by_contra hdone
  exact hadv.done on hdone hnone

theorem field {s : Nat} {fields : Vals} {before after : List Val}
    (h : Unfinished P g0 n (.struct s fields) g) (hv : (Val.struct s fields).typed P = true)
    (hf : fields.toList = before ++ C :: after) :
    Unfinished P g0 (n + (before.map Val.fieldCount).sum) C g := by
  obtain ⟨i, on, ⟨hon, hfill, p, w, m, rfl, hw, hm, hle⟩, hnone⟩ := h
  obtain ⟨k, hk, hfillC, hsum⟩ := field_room hv hm hfill hf
  exact ⟨i, on, ⟨hon, hfillC, _, w, k, Nat.add_assoc .., hw, hk, by omega⟩, hnone⟩

theorem element {t : Ty} {elems : Vals} (h : Unfinished P g0 n (.array t elems) g)
    (hv : (Val.array t elems).typed P = true) (hC : C ∈ elems.toList) :
    Unfinished P g0 n C g := by
  obtain ⟨i, on, ⟨hon, hfill, p, w, m, rfl, hw, hm, hle⟩, hnone⟩ := h
  have htype := (typed_array hv C hC).1
  exact ⟨i, on, ⟨hon, htype ▸ hfill.strip, p, w, m, rfl, hw, htype ▸ hm.element, hle⟩, hnone⟩

/-- Only the first node of an object is ever marked. -/
theorem unmarked (h : Unfinished P g0 n C g) (h0 : Declared P g0)
    (hg : Visiting P g0 pending log g) : g.globalInitDone n = none := by
  obtain ⟨i, on, ⟨hobj, hfill, p, w, m, rfl, hw, hm, hle⟩, hnone⟩ := h
  have hpos := hm.pos (List.cons_ne_nil _ _) hfill
  exact hg.unmarked h0 hobj hw (by omega) hnone

end Unfinished

/-! ## The table of structs -/

theorem getStructOff_known (s : Nat) :
    Runs (Keeping fun g => Known P g.structInfo) (getStructOff P fuel s) := by
  have hrun : Runs (Keeping fun g : Gen => Known P g.structInfo) (analyzeStruct P fuel s) :=
    fun g => by
      by_cases hg : Known P g.structInfo
      · exact ((structs_known P fuel).1 s g hg).imp fun _ _ h _ => h.1
      · exact wp_true.imp fun _ _ _ h => absurd h hg
  exact .bind .get fun _ => .ite (.bind hrun fun _ => .bind .get fun _ => .pure _)
    (.bind .get fun _ => .pure _)

theorem gepOff_known (T : Ty) (idx : List Val) (off : Nat) :
    Runs (Keeping fun g => Known P g.structInfo) (gepOff P fuel T idx off) := by
  induction idx generalizing T off with
  | nil =>
      rw [gepOff]
      exact .pure _
  | cons v rest ih =>
      unfold gepOff
      split
      · exact .pure _
      · rename_i heq
        obtain ⟨rfl, rfl⟩ := List.cons.inj heq
        split
        · exact .bind (getStructOff_known _) fun _ => .bind (.lift _) fun _ => ih _ _
        · exact .throw _
      · rename_i heq
        obtain ⟨rfl, rfl⟩ := List.cons.inj heq
        exact ih _ _

theorem computeGepOff_known (ops : List Val) :
    Runs (Keeping fun g => Known P g.structInfo) (computeGepOff P fuel ops) := by
  unfold computeGepOff
  split
  · exact .pure _
  · exact .pure _
  · exact gepOff_known _ _ _

/-! ## Parts of a call -/

theorem computeGepOff_visits (h : Visiting P g0 pending log g) (ops : List Val) :
    Wp (computeGepOff P fuel ops) (fun off g' => Visiting P g0 pending log g' ∧
      Advances g log g' log ∧ IsGepOffset P ops off) g := by
  refine wp_iff.mpr fun off g' hrun => ?_
  have hknown := (computeGepOff_known ops).result hrun h.known
  obtain ⟨-, -, info, T, k, rfl⟩ := (computeGepOff_only ops).result hrun
  have hsame : ∀ g1 : Gen, g1 = { g with structInfo := info, maxStruct := T, maxStructSz := k } →
      Visiting P g0 pending log g1 ∧ Advances g log g1 log := by
    rintro _ rfl
    exact h.same rfl rfl rfl rfl rfl rfl hknown h.added
  obtain ⟨hg', hadv⟩ := hsame _ rfl
  exact ⟨hg', hadv, fuel, g, _, h.known, hrun⟩

theorem gepNode_visits (h : Visiting P g0 pending log g) (h0 : Declared P g0) {v : Val}
    (hocc : v.isExpr = true → Occurs P g0 v) :
    Wp (gepNode v) (fun n g' => Visiting P g0 pending log g' ∧ Advances g log g' log ∧
      g'.valNode v = some n) g := by
  unfold gepNode
  rw [wp_bind]
  cases hn : g.valNode v with
  | some n =>
      rw [findValNode_some hn]
      intro hne
      rw [if_pos hne]
      exact ⟨h, .refl, hn⟩
  | none =>
      rw [findValNode_none hn]
      simp only [ne_eq, not_true, if_false, takeNode, bump, pushNode, setValNode, wp_bind, wp_get,
        wp_modify, wp_pure]
      obtain ⟨hg', hadv⟩ := h.push h0 hn hocc
      exact ⟨hg', hadv, Function.update_self ..⟩

/-- The end of a call. -/
theorem finish_visits (h0 : Declared P g0) (hT : TypedInits P) {C : Val} {first : Bool} {n k : Nat}
    (hfirst : first = true → ∃ i, g0.objNode (.global i) = some n ∧ (P.global i).init = some C)
    (h1 : Visiting P g0 none log1 g1) (hadv : Advances g log g1 log1)
    (hk : Counted P g0 n C k log1 g1) :
    Wp (if first then setInitDone n k >>= fun _ => pure k else pure k) (fun k' =>
      After P g0 g log fun log' g' => (first = true → g'.globalInitDone n ≠ none) ∧
        Counted P g0 n C k' log' g') g1 := by
  rw [wp_ite]
  constructor
  · intro hf
    obtain ⟨i, hon, hC⟩ := hfirst hf
    rw [wp_bind]
    obtain ⟨h2, hadv'⟩ := h1.finish h0 (k := k) (h1.objects ▸ hon) hC fun hnone =>
      (hk ⟨i, n, .first h0 hT hon hC, hnone⟩).2
    exact ⟨log1, h2, hadv.trans hadv', fun _ => by simp, fun hu => hk (hu.earlier hadv')⟩
  · exact fun hf => ⟨log1, h1, hadv, fun h => absurd h hf, hk⟩

/-! ## Initializers -/

theorem served_simple {C : Val} {S : Stripped} (hC : C.isAggregate = false) (hS : Strips C S)
    {n : Nat} (hr : ∀ o, LeafAt P C o S → ∃ r ∈ log, r.cause = .leaf S ∧ r.dest = n) :
    Served P log C n := by
  intro o L hL
  obtain ⟨rfl, hL'⟩ := hL.simple hC
  obtain rfl := hS.unique hL'
  exact hr 0 hL

theorem Counted.simple {C : Val} {n : Nat} (hC : C.isAggregate = false)
    (h : Served P log C n) : Counted P g0 n C 1 log g := fun _ =>
  ⟨(Val.fieldCount_one hC).symm, h⟩

theorem getObjNode_some {v : Val} {Q : Nat → Gen → Prop}
    (hQ : ∀ n, g.objNode v = some n → Q n g) : Wp (getObjNode v) Q g := by
  simp only [getObjNode, wp_bind, wp_get, wp_lift]
  intro n hn
  cases hv : g.objNode v with
  | none => simp [needEntry, hv] at hn
  | some m =>
      rw [hv] at hn
      obtain ⟨-, hm⟩ := require_bind_ok.mp hn
      exact hQ n (hv.trans (congrArg some (Except.ok.inj hm)))

theorem leaf_visits (hg : Visiting P g0 none log g) {t : ConsType} {L : Stripped} {dest src : Nat}
    (hr : Serves P g ⟨.leaf L, t, dest, src, 0⟩)
    (hvis : ∀ E, L = .value E → E.isGep = true → g.marked E = true) :
    Wp (cons t dest src) (fun _ => After P g0 g log fun log' _ =>
      ∃ r ∈ log', r.cause = .leaf L ∧ r.dest = dest) g := by
  refine wp_cons.mpr fun cs b hadd => ?_
  obtain ⟨h1, hadv⟩ := hg.leafRequest hr rfl hvis hadd
  exact ⟨_, h1, hadv, _, List.mem_append_right _ (List.mem_singleton_self _), rfl, rfl⟩

/-- The loop over the fields of a struct. -/
theorem fields_visit (ihI : InitSpec P g0 fuel) (hg : Visiting P g0 none log g) {s n : Nat}
    {fields : Vals} (hpart : InitPart P (.struct s fields))
    (htyped : (Val.struct s fields).typed P = true) :
    Wp (fields.toList.foldlM (fun off C => do
      let k ← procGlobalInit P fuel (n + off) C false
      return off + k) 0) (fun off => After P g0 g log fun log' g' =>
        Unfinished P g0 n (.struct s fields) g' → off = (fields.toList.map Val.fieldCount).sum ∧
          ∀ before C after, fields.toList = before ++ C :: after →
            Served P log' C (n + (before.map Val.fieldCount).sum)) g := by
  refine wp_foldlM_done (fun done off => After P g0 g log fun log' g' =>
    Unfinished P g0 n (.struct s fields) g' → off = (done.map Val.fieldCount).sum ∧
      ∀ before C after, done = before ++ C :: after →
        Served P log' C (n + (before.map Val.fieldCount).sum)) ?_ ?_
  · refine ⟨log, hg, .refl, fun _ => ⟨rfl, fun before C after h => ?_⟩⟩
    simp at h
  rintro done C rest off g1 hl ⟨log1, h1, hadv1, hdone⟩
  rw [wp_bind]
  have hmem : C ∈ fields.toList := hl ▸ List.mem_append_right _ (List.mem_cons_self ..)
  refine (ihI (n + off) C false log1 g1 h1 (hpart.child (.child .refl hmem))
    fun h => absurd h Bool.false_ne_true).imp ?_
  rintro k g2 ⟨log2, h2, hadv2, -, hk⟩
  refine ⟨log2, h2, hadv1.trans hadv2, fun hu => ?_⟩
  obtain ⟨rfl, hserved⟩ := hdone (hu.earlier hadv2)
  obtain ⟨rfl, hC⟩ := hk (hu.field htyped hl)
  refine ⟨by simp, fun before D after h => ?_⟩
  rcases List.append_eq_append_iff.mp h with ⟨l, hbefore, hl'⟩ | ⟨l, rfl, hl'⟩
  · cases l with
    | nil =>
        cases hl'
        rw [List.append_nil] at hbefore
        exact hbefore ▸ hC
    | cons E l => simp at hl'
  · cases l with
    | nil =>
        cases hl'
        rw [List.append_nil] at hC
        exact hC
    | cons E l =>
        rw [List.cons_append] at hl'
        obtain ⟨rfl, -⟩ := List.cons.inj hl'
        exact (hserved before D l rfl).mono hadv2.log

/-- The loop over the elements of an array, which go into the same nodes. -/
theorem elements_visit (ihI : InitSpec P g0 fuel) (hg : Visiting P g0 none log g) {t : Ty} {n : Nat}
    {elems : Vals} (hpart : InitPart P (.array t elems))
    (htyped : (Val.array t elems).typed P = true) :
    Wp (elems.toList.foldlM (fun _ C => procGlobalInit P fuel n C false) 0)
      (fun off => After P g0 g log fun log' g' => Unfinished P g0 n (.array t elems) g' →
        off = elems.toList.foldl (fun _ C => C.fieldCount) 0 ∧
          ∀ C ∈ elems.toList, Served P log' C n) g := by
  refine wp_foldlM_done (fun done off => After P g0 g log fun log' g' =>
    Unfinished P g0 n (.array t elems) g' → off = done.foldl (fun _ C => C.fieldCount) 0 ∧
      ∀ C ∈ done, Served P log' C n) ⟨log, hg, .refl, fun _ => ⟨rfl, fun _ hD => absurd hD List.not_mem_nil⟩⟩ ?_
  rintro done C rest off g1 hl ⟨log1, h1, hadv1, hdone⟩
  have hmem : C ∈ elems.toList := hl ▸ List.mem_append_right _ (List.mem_cons_self ..)
  refine (ihI n C false log1 g1 h1 (hpart.child (.child .refl hmem))
    fun h => absurd h Bool.false_ne_true).imp ?_
  rintro k g2 ⟨log2, h2, hadv2, -, hk⟩
  refine ⟨log2, h2, hadv1.trans hadv2, fun hu => ?_⟩
  obtain ⟨-, hserved⟩ := hdone (hu.earlier hadv2)
  obtain ⟨rfl, hC⟩ := hk (hu.element htyped hmem)
  refine ⟨by simp, fun D hD => ?_⟩
  rcases List.mem_append.mp hD with hD | hD
  · exact (hserved D hD).mono hadv2.log
  · exact List.mem_singleton.mp hD ▸ hC

/-- The end of a call for a single pointer, which was served. -/
theorem single_visits (h0 : Declared P g0) (hT : TypedInits P) {C : Val} {S : Stripped}
    {first : Bool} {n : Nat}
    (hfirst : first = true → ∃ i, g0.objNode (.global i) = some n ∧ (P.global i).init = some C)
    (h1 : Visiting P g0 none log1 g1) (hadv : Advances g log g1 log1)
    (hC : C.isAggregate = false) (hS : Strips C S)
    (hr : ∀ o, LeafAt P C o S → ∃ r ∈ log1, r.cause = .leaf S ∧ r.dest = n) :
    Wp (if first then setInitDone n 1 >>= fun _ => pure 1 else pure 1) (fun k' =>
      After P g0 g log fun log' g' => (first = true → g'.globalInitDone n ≠ none) ∧
        Counted P g0 n C k' log' g') g1 :=
  finish_visits h0 hT hfirst h1 hadv (.simple hC (served_simple hC hS hr))

/-- A leaf that is a constant expression, up to its constraint. -/
theorem exprLeaf_visits (h0 : Declared P g0) (ihE : GepSpec P g0 fuel)
    (hg : Visiting P g0 none log g) {C : Val} {dest : Nat} (hocc : Occurs P g0 C)
    (hexpr : C.isExpr = true) (hgep : C.isGep = true) {rest : Unit → GenM Nat}
    {Q : Nat → Gen → Prop}
    (hrest : ∀ g' log', Visiting P g0 none log' g' → Advances g log g' log' →
      (∃ r ∈ log', r.cause = .leaf (.value C) ∧ r.dest = dest) → Wp (rest ()) Q g') :
    Wp (gepNode C >>= fun vnE => procGepCe P fuel vnE >>= fun _ =>
      cons .copy dest vnE >>= rest) Q g := by
  rw [wp_bind]
  refine (gepNode_visits hg h0 fun _ => hocc).imp ?_
  rintro m g1 ⟨h1, hadv1, hm⟩
  rw [wp_bind]
  refine (ihE m log g1 h1).imp ?_
  rintro _ g2 ⟨log2, h2, hadv2, hmarked⟩
  rw [wp_bind]
  have hvis : ∀ E, Stripped.value C = .value E → E.isGep = true → g2.marked E = true := by
    intro E hE _
    cases hE
    exact hmarked _ (h1.value _ m hm hexpr)
  refine (leaf_visits h2 (.expr hgep (hadv2.vals _ _ hm)) hvis).imp ?_
  rintro _ g3 ⟨log3, h3, hadv3, hr⟩
  exact hrest g3 log3 h3 ((hadv1.trans hadv2).trans hadv3) hr

/-- A leaf that is a global or a function, up to its constraint. -/
theorem objectLeaf_visits (hg : Visiting P g0 none log g) {C : Val} {dest : Nat}
    (hexpr : C.isExpr = false) (hgep : C.isGep = false) {rest : Unit → GenM Nat}
    {Q : Nat → Gen → Prop}
    (hrest : ∀ g' log', Visiting P g0 none log' g' → Advances g log g' log' →
      (∃ r ∈ log', r.cause = .leaf (.value C) ∧ r.dest = dest) → Wp (rest ()) Q g') :
    Wp (getObjNode C >>= fun onC => cons .addrOf dest onC >>= rest) Q g := by
  rw [wp_bind]
  refine getObjNode_some fun m hm => ?_
  rw [wp_bind]
  have hvis : ∀ E, Stripped.value C = .value E → E.isGep = true → g.marked E = true := by
    intro E hE hEgep
    cases hE
    simp [hgep] at hEgep
  refine (leaf_visits hg (.object hexpr hm) hvis).imp ?_
  rintro _ g1 ⟨log1, h1, hadv, hr⟩
  exact hrest g1 log1 h1 hadv hr

/-- The count of a struct, from what the loop over its fields did. -/
theorem Counted.struct {s n off : Nat} {fields : Vals}
    (h : Unfinished P g0 n (.struct s fields) g →
      off = (fields.toList.map Val.fieldCount).sum ∧
        ∀ before C after, fields.toList = before ++ C :: after →
          Served P log C (n + (before.map Val.fieldCount).sum)) :
    Counted P g0 n (.struct s fields) off log g := by
  intro hu
  obtain ⟨hoff, hserved⟩ := h hu
  refine ⟨hoff.trans (Vals.countAll_eq fields).symm, fun o L hL => ?_⟩
  obtain ⟨before, D, after, o', hf, hL', rfl⟩ := hL.fields
  obtain ⟨r, hr, hcause, hdest⟩ := hserved before D after hf o' L hL'
  exact ⟨r, hr, hcause, by omega⟩

/-- The count of an array, from what the loop over its elements did. -/
theorem Counted.array {t : Ty} {n off : Nat} {elems : Vals}
    (h : Unfinished P g0 n (.array t elems) g →
      off = elems.toList.foldl (fun _ C => C.fieldCount) 0 ∧
        ∀ C ∈ elems.toList, Served P log C n) :
    Counted P g0 n (.array t elems) off log g := by
  intro hu
  obtain ⟨hoff, hserved⟩ := h hu
  refine ⟨hoff.trans (Vals.countLast_eq elems 0).symm, fun o L hL => ?_⟩
  obtain ⟨D, hD, hL'⟩ := hL.elements
  exact hserved D hD o L hL'

/-- A call of `procGlobalInit`, from what the calls below it do. -/
theorem initSpec_step (h0 : Declared P g0) (hT : TypedInits P) (ihI : InitSpec P g0 fuel)
    (ihE : GepSpec P g0 fuel) : InitSpec P g0 (fuel + 1) := by
  intro n C first log g hg hpart hfirst
  unfold procGlobalInit
  rw [wp_bind, wp_lift]
  intro _ hn
  rw [wp_bind, wp_get]
  split
  · rename_i k hk
    refine ⟨log, hg, .refl, fun _ => by simp [hk], fun hu => ?_⟩
    rw [hu.unmarked h0 hg] at hk
    cases hk
  rw [wp_bind, wp_lift]
  intro S hS
  have hstrip : Strips C S := ⟨fuel, hS⟩
  split
  · exact single_visits h0 hT hfirst hg .refl (hstrip.value.resolve_left (by simp)) hstrip
      fun o hL => absurd hL LeafAt.not_number
  · rw [wp_bind]
    refine (leaf_visits hg .unknown (by simp)).imp ?_
    rintro _ g1 ⟨log1, h1, hadv, hr⟩
    exact single_visits h0 hT hfirst h1 hadv (hstrip.value.resolve_left (by simp)) hstrip
      fun _ _ => hr
  rename_i C'
  obtain ⟨htyped, hsame⟩ := stripInit_typed (hpart.typed hT) hS
  have hgep := stripInit_gep hS
  rw [wp_ite]
  constructor
  · intro hnull
    exact single_visits h0 hT hfirst hg .refl (hstrip.simple (Val.simple_of_null hnull)) hstrip
      fun o hL => absurd hnull hL.needed.1
  intro hnull
  rw [wp_ite]
  constructor
  · intro hval
    have hC : C.isAggregate = false := hstrip.simple (Val.simple_of_single hval)
    rw [wp_ite]
    constructor
    · intro hptr
      split
      · rename_i op t ops
        have hocc : Occurs P g0 (.expr op t ops) := hpart.occurs.part (stripInit_part hS rfl)
        exact exprLeaf_visits h0 ihE hg hocc rfl hgep.symm fun g1 log1 h1 hadv hr =>
          single_visits h0 hT hfirst h1 hadv hC hstrip fun _ _ => hr
      · rename_i hno
        have hexpr : C'.isExpr = false := by
          cases C' with
          | expr op t ops => exact (hno op t ops rfl).elim
          | _ => rfl
        exact objectLeaf_visits hg hexpr (hgep ▸ hexpr) fun g1 log1 h1 hadv hr =>
          single_visits h0 hT hfirst h1 hadv hC hstrip fun _ _ => hr
    · exact fun hptr => single_visits h0 hT hfirst hg .refl hC hstrip fun o hL =>
        absurd hL.needed.2 hptr
  intro hval
  split
  · rename_i s fields
    obtain rfl : Val.struct s fields = C := hsame.resolve_right (by simp [Val.isAggregate])
    rw [wp_bind]
    refine (fields_visit ihI hg hpart htyped).imp ?_
    rintro off g1 ⟨log1, h1, hadv, hdone⟩
    exact finish_visits h0 hT hfirst h1 hadv (.struct hdone)
  · rename_i t elems
    obtain rfl : Val.array t elems = C := hsame.resolve_right (by simp [Val.isAggregate])
    rw [wp_bind]
    refine (elements_visit ihI hg hpart htyped).imp ?_
    rintro off g1 ⟨log1, h1, hadv, hdone⟩
    exact finish_visits h0 hT hfirst h1 hadv (.array hdone)
  · trivial

/-! ## Constant GEPs -/

/-- The constraint of the GEP that was just marked. -/
theorem gepCons_visits {E : Val} (hg : Visiting P g0 (some E) log g) (hm : g.marked E = true)
    {t : ConsType} {dest src off : Nat} (hr : Serves P g ⟨.gep E, t, dest, src, off⟩) :
    Wp (cons t dest src off) (fun _ => After P g0 g log fun _ _ => True) g := by
  refine wp_cons.mpr fun cs b hadd => ?_
  obtain ⟨h1, hadv⟩ := hg.gepRequest hm hr rfl hadd
  exact ⟨_, h1, hadv, trivial⟩

/-- A call of `procGepCe`, from what the calls below it do. -/
theorem gepSpec_step (h0 : Declared P g0) (ihI : InitSpec P g0 fuel) (ihE : GepSpec P g0 fuel) :
    GepSpec P g0 (fuel + 1) := by
  intro n log g hg
  unfold procGepCe
  rw [wp_bind, wp_get]
  split
  · rename_i t ops hnode
    have hE : g.valAt n = some (.expr .gep t ops) := hnode
    rw [wp_bind, wp_get, wp_ite]
    have hmarked : ∀ g' : Gen, g'.marked (.expr .gep t ops) = true →
        ∀ E, g.valAt n = some E → g'.marked E = true := by
      intro g' hm E hE'
      cases hE.symm.trans hE'
      exact hm
    have hvn := hg.node n _ hE rfl
    constructor
    · intro hsome
      refine ⟨log, hg, .refl, hmarked g (marked_iff.mpr ⟨n, hvn, ?_⟩)⟩
      exact Option.isSome_iff_ne_none.mp hsome
    · intro hnone
      have hno : g.marked (.expr .gep t ops) = false := by
        rw [marked, hvn]
        simpa using hnone
      obtain ⟨h1, hself, hback⟩ := hg.mark h0 hE rfl hno
      rw [wp_bind, setInitDone, wp_modify]
      have hvn1 := h1.node n _ hE rfl
      generalize { g with globalInitDone := Function.update g.globalInitDone n (some 1) } = g1
        at h1 hself hback hvn1
      rw [wp_bind, wp_lift]
      intro S hS
      have hbase : HasBase (.expr .gep t ops) S := ⟨fuel, hS⟩
      split
      · refine (gepCons_visits h1 hself (.unknownBase hvn1 hbase)).imp ?_
        rintro _ g2 ⟨log2, h2, hadv, -⟩
        refine ⟨log2, h2, hback _ _ hadv fun R hR => ?_, hmarked _ (hadv.marked hself)⟩
        cases hbase.unique hR
      · rename_i R nested
        rw [wp_bind, wp_lift]
        intro _ hnull
        rw [wp_bind]
        have hocc : R.isExpr = true → Occurs P g0 R := by
          intro hR
          obtain rfl : true = nested := hR.symm.trans (stripBase_gep hS).1
          exact (hg.occurs n _ hE rfl).part ((stripBase_part hS).operand0 hR)
        refine (gepNode_visits h1 h0 hocc).imp ?_
        rintro m g2 ⟨h2, hadv2, hm⟩
        rw [wp_bind]
        refine (computeGepOff_visits h2 ops.toList).imp ?_
        rintro off g3 ⟨h3, hadv3, hoff⟩
        have hadv1 := hadv2.trans hadv3
        rw [wp_bind]
        refine (gepCons_visits h3 (hadv1.marked hself)
          (.gep (hadv1.vals _ _ hvn1) hbase (hadv3.vals _ _ hm) hoff)).imp ?_
        rintro _ g4 ⟨log4, h4, hadv4, -⟩
        have hm4 := hadv4.vals _ _ (hadv3.vals _ _ hm)
        have hadv := hadv1.trans hadv4
        have hend : ∀ g5, After P g0 g4 log4 (fun _ g' => nested = true → g'.marked R = true) g5 →
            After P g0 g log (fun _ g' => ∀ E, g.valAt n = some E → g'.marked E = true) g5 := by
          rintro g5 ⟨log5, h5, hadv5, hR⟩
          have hadv5 := hadv.trans hadv5
          refine ⟨log5, h5, hback _ _ hadv5 fun R' hR' => ?_, hmarked _ (hadv5.marked hself)⟩
          cases hbase.unique hR'
          exact hR rfl
        rw [wp_ite]
        constructor
        · rintro rfl
          refine (ihE m log4 g4 h4).imp fun _ g5 h5 => hend g5 (h5.imp fun log5 h => ?_)
          exact ⟨h.1, h.2.1, fun _ => h.2.2 R (h4.value _ _ hm4 (stripBase_gep hS).1)⟩
        · intro hnested
          have hlast : After P g0 g log
              (fun _ g' => ∀ E, g.valAt n = some E → g'.marked E = true) g4 :=
            hend g4 ⟨log4, h4, .refl, fun h => absurd h hnested⟩
          split
          · rename_i i
            split
            · rename_i C hC
              rw [wp_bind]
              refine getObjNode_some fun on hon => ?_
              rw [wp_bind]
              refine (ihI on C true log4 g4 h4 ⟨i, C, hC, .refl⟩ fun _ =>
                ⟨i, h4.objects ▸ hon, hC⟩).imp ?_
              rintro _ g5 ⟨log5, h5, hadv5, -⟩
              exact hend g5 ⟨log5, h5, hadv5, fun h => absurd h hnested⟩
            · exact hlast
          · exact hlast
  · trivial

/-- Every call, by induction on the depth of the recursion. -/
theorem globalInit_visits (h0 : Declared P g0) (hT : TypedInits P) (fuel : Nat) :
    InitSpec P g0 fuel ∧ GepSpec P g0 fuel := by
  induction fuel with
  | zero => exact ⟨fun _ _ _ _ _ _ _ _ => trivial, fun _ _ _ _ => trivial⟩
  | succ fuel ih => exact ⟨initSpec_step h0 hT ih.1 ih.2, gepSpec_step h0 ih.1 ih.2⟩

end

end Gen

end PtrAnalysis
