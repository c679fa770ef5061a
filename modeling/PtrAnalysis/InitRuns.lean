import PtrAnalysis.HandlerMaps
import PtrAnalysis.Initializers

/-!
# What the initializers add

`procGlobalInit` and `procGepCe` call each other, and a global is entered again while it
is being processed. The log of what was asked of `add_cons`, and why, shows what is done
once and what is done at all: the entry of a GEP is made where its node is marked, and the
call of a global that returns first found no field of it marked.
-/

namespace PtrAnalysis

open Run Act

namespace Gen

/-! ## The log -/

/-- Why a constraint is added while initializers are processed. -/
inductive Cause where
  /-- For the constant GEP `E`. -/
  | gep (E : Val)
  /-- For a pointer in an initializer. -/
  | leaf (L : Stripped)
  deriving DecidableEq

/-- A call of `add_cons`. -/
structure Request where
  cause : Cause
  type : ConsType
  dest : Nat
  src : Nat
  off : Nat

/-- The constraints behind `cs` when all requests were made. -/
def addAll (cs : List Constraint) (log : List Request) : Run (List Constraint) :=
  log.foldlM (fun cs r => Prod.fst <$> addCons cs r.type r.dest r.src r.off) cs

/-- The value of a node. -/
def valAt (g : Gen) (n : Nat) : Option Val := (g.nodes.getD n {}).val

/-- Whether the node of constant GEP `E` was visited. -/
def marked (g : Gen) (E : Val) : Bool := ((g.valNode E).bind g.globalInitDone).isSome

/-- The nodes are counted, and a constant expression has one node at most. -/
structure ExprNodes (g : Gen) : Prop where
  count : g.nextNode = g.nodes.length
  node : ∀ n v, g.valAt n = some v → v.isExpr = true → g.valNode v = some n
  value : ∀ v n, g.valNode v = some n → v.isExpr = true → g.valAt n = some v

section

variable (P : Ir)

/-- `off` is what `computeGepOff` gives for these operands. -/
def IsGepOffset (ops : List Val) (off : Nat) : Prop :=
  ∃ fuel g g', Known P g.structInfo ∧ computeGepOff P fuel ops g = .ok (off, g')

/-- The request is the one its cause calls for. -/
inductive Serves (g : Gen) : Request → Prop where
  /-- The base of the GEP is made from an integer. -/
  | unknownBase {E : Val} {n : Nat} (hE : g.valNode E = some n) (hb : HasBase E none) :
      Serves g ⟨.gep E, .addrOf, n, i2p, 0⟩
  | gep {E R : Val} {nested : Bool} {n m off : Nat} (hE : g.valNode E = some n)
      (hb : HasBase E (some (R, nested))) (hR : g.valNode R = some m)
      (ho : IsGepOffset P E.exprOps off) : Serves g ⟨.gep E, .gep, n, m, off⟩
  | expr {C : Val} {dest n : Nat} (hC : C.isGep = true) (hn : g.valNode C = some n) :
      Serves g ⟨.leaf (.value C), .copy, dest, n, 0⟩
  | object {C : Val} {dest n : Nat} (hC : C.isExpr = false) (hn : g.objNode C = some n) :
      Serves g ⟨.leaf (.value C), .addrOf, dest, n, 0⟩
  | unknown {dest : Nat} : Serves g ⟨.leaf .unknown, .addrOf, dest, i2p, 0⟩

/-- Every pointer in the initializer `C` is in the log, for its field of the object at `on`. -/
def Served (log : List Request) (C : Val) (on : Nat) : Prop :=
  ∀ o L, LeafAt P C o L → ∃ r ∈ log, r.cause = .leaf L ∧ r.dest = on + o

/-- What the declarations leave for the initializers. -/
structure Declared (g : Gen) : Prop extends ExprNodes g where
  known : Known P g.structInfo
  fresh : ∀ n, g.globalInitDone n = none
  listed : ∀ n ∈ g.gepCe, ∃ E, g.valAt n = some E ∧ E.isGep = true
  /-- The object of a global has a node for each leaf of its type. -/
  object : ∀ i on, g.objNode (.global i) = some on → ∃ w, Leaves P [(P.global i).elem] w ∧
    FilledAll P [(P.global i).elem] ∧ ∀ p < w, g.valAt (on + p) = some (.global i)

/-- A part of what was there in `g0` or of an initializer. -/
def Occurs (g0 : Gen) (E : Val) : Prop :=
  (∃ n v, g0.valAt n = some v ∧ PartOf E v) ∨ ∃ i C, (P.global i).init = some C ∧ PartOf E C

/-- The state while initializers are processed; the constraint of the GEP `pending` is still to
be added. -/
structure Visiting (g0 : Gen) (pending : Option Val) (log : List Request) (g : Gen) : Prop extends
    ExprNodes g where
  added : addAll g0.constraints log = .ok g.constraints
  nodes : g0.nodes <+: g.nodes
  objects : g.objNode = g0.objNode
  listed : g.gepCe = g0.gepCe
  known : Known P g.structInfo
  occurs : ∀ n E, g.valAt n = some E → E.isExpr = true → Occurs P g0 E
  marks : ∀ n, g.globalInitDone n ≠ none →
    (∃ E, g.valAt n = some E ∧ E.isGep = true) ∨ ∃ i, g.objNode (.global i) = some n
  once : ∀ E, E.isGep = true → g.marked E = true → pending ≠ some E →
    (log.countP fun r => r.cause = .gep E) = 1
  never : ∀ E, E.isGep = true → g.marked E = false ∨ pending = some E →
    (log.countP fun r => r.cause = .gep E) = 0
  serves : ∀ r ∈ log, Serves P g r
  visited : ∀ r ∈ log, ∀ E, r.cause = .leaf (.value E) → E.isGep = true → g.marked E = true
  done : ∀ i C on, g.objNode (.global i) = some on → (P.global i).init = some C →
    g.globalInitDone on ≠ none → Served P log C on

end

/-- Later in the run. The base of a GEP visited in between was visited too. -/
structure Advances (g : Gen) (log : List Request) (g' : Gen) (log' : List Request) : Prop where
  log : log <+: log'
  done : ∀ n, g.globalInitDone n ≠ none → g'.globalInitDone n ≠ none
  vals : ∀ v n, g.valNode v = some n → g'.valNode v = some n
  bases : ∀ E R, E.isGep = true → g'.marked E = true → g.marked E = false →
    HasBase E (some (R, true)) → g'.marked R = true

/-! ## The steps of the run -/

section

variable {P : Ir} {g0 g g' g'' : Gen} {log log' log'' : List Request} {pending : Option Val}

theorem Advances.refl : Advances g log g log where
  log := List.prefix_refl _
  done _ h := h
  vals _ _ h := h
  bases E _ _ h h' := by
    rw [h] at h'
    cases h'

theorem marked_iff {E : Val} :
    g.marked E = true ↔ ∃ n, g.valNode E = some n ∧ g.globalInitDone n ≠ none := by
  unfold marked
  cases g.valNode E with
  | none => simp
  | some n => simp [Option.isSome_iff_ne_none]

theorem Advances.marked (h : Advances g log g' log') {E : Val} (hE : g.marked E = true) :
    g'.marked E = true := by
  obtain ⟨n, hn, hdone⟩ := marked_iff.mp hE
  exact marked_iff.mpr ⟨n, h.vals E n hn, h.done n hdone⟩

theorem Advances.trans (h : Advances g log g' log') (h' : Advances g' log' g'' log'') :
    Advances g log g'' log'' where
  log := h.log.trans h'.log
  done n hn := h'.done n (h.done n hn)
  vals v n hn := h'.vals v n (h.vals v n hn)
  bases E R hE hm hno hb := by
    cases hmid : g'.marked E with
    | false => exact h'.bases E R hE hm hmid hb
    | true => exact h'.marked (h.bases E R hE hmid hno hb)

/-- Nothing was marked and no value got a node. -/
theorem Advances.unmarked (hlog : log <+: log') (hval : g'.valNode = g.valNode)
    (hdone : g'.globalInitDone = g.globalInitDone) : Advances g log g' log' where
  log := hlog
  done n hn := hdone ▸ hn
  vals v n hn := hval ▸ hn
  bases E R _ hm hno _ := by
    rw [Gen.marked, hval, hdone] at hm
    cases hno.symm.trans hm

theorem Serves.mono {r : Request} (h : Serves P g r) (hobj : g'.objNode = g.objNode)
    (hval : ∀ v n, g.valNode v = some n → g'.valNode v = some n) : Serves P g' r := by
  cases h with
  | unknownBase hE hb => exact .unknownBase (hval _ _ hE) hb
  | gep hE hb hR ho => exact .gep (hval _ _ hE) hb (hval _ _ hR) ho
  | expr hC hn => exact .expr hC (hval _ _ hn)
  | object hC hn => exact .object hC (hobj ▸ hn)
  | unknown => exact .unknown

theorem Served.mono {C : Val} {on : Nat} (h : Served P log C on) (hlog : log <+: log') :
    Served P log' C on := fun o L hL => by
  obtain ⟨r, hr, hcause, hdest⟩ := h o L hL
  exact ⟨r, hlog.subset hr, hcause, hdest⟩

theorem valAt_iff {n : Nat} {v : Val} :
    g.valAt n = some v ↔ ∃ N, g.nodes[n]? = some N ∧ N.val = some v := by
  unfold valAt
  rw [List.getD_eq_getElem?_getD]
  cases g.nodes[n]? <;> simp

theorem valAt_longer (h : g.nodes <+: g'.nodes) {n : Nat} {v : Val} (hn : g.valAt n = some v) :
    g'.valAt n = some v := by
  obtain ⟨N, hN, hv⟩ := valAt_iff.mp hn
  obtain ⟨l, hl⟩ := h
  refine valAt_iff.mpr ⟨N, ?_, hv⟩
  rw [← hl, List.getElem?_append_left (List.getElem?_eq_some_iff.mp hN).1, hN]

theorem valAt_lt {n : Nat} {v : Val} (hn : g.valAt n = some v) : n < g.nodes.length := by
  obtain ⟨N, hN, -⟩ := valAt_iff.mp hn
  exact (List.getElem?_eq_some_iff.mp hN).1

/-! ## New nodes -/

/-- The state with a new node for `v`. -/
def pushed (g : Gen) (v : Val) : Gen := { g with
  nodes := g.nodes ++ [{ val := some v }], nextNode := g.nextNode + 1
  valNode := Function.update g.valNode v (some g.nextNode) }

theorem pushed_vals {v : Val} (hv : g.valNode v = none) (w : Val) (n : Nat)
    (hn : g.valNode w = some n) : (g.pushed v).valNode w = some n := by
  have hne : w ≠ v := fun heq => by
    rw [heq, hv] at hn
    cases hn
  exact (Function.update_of_ne hne _ _).trans hn

theorem pushed_valAt (hcount : g.nextNode = g.nodes.length) {v w : Val} {n : Nat}
    (hn : (g.pushed v).valAt n = some w) : g.valAt n = some w ∨ n = g.nextNode ∧ w = v := by
  obtain ⟨N, hN, hw⟩ := valAt_iff.mp hn
  have hN : (g.nodes ++ [({ val := some v } : GenNode)])[n]? = some N := hN
  rw [List.getElem?_append] at hN
  split at hN
  · exact .inl (valAt_iff.mpr ⟨N, hN, hw⟩)
  · rename_i hge
    rw [List.getElem?_singleton] at hN
    split at hN
    · cases hN
      cases hw
      exact .inr ⟨by omega, rfl⟩
    · cases hN

theorem ExprNodes.push (h : ExprNodes g) {v : Val} (hv : g.valNode v = none) :
    ExprNodes (g.pushed v) := by
  have hself : (g.pushed v).valAt g.nextNode = some v := valAt_iff.mpr ⟨{ val := some v }, by
    rw [h.count]
    exact List.getElem?_concat_length, rfl⟩
  refine ⟨by simp [pushed, h.count], fun n w hn hw => ?_, fun w n hn hw => ?_⟩
  · rcases pushed_valAt h.count hn with hn | ⟨rfl, rfl⟩
    · exact pushed_vals hv w n (h.node n w hn hw)
    · exact Function.update_self ..
  · by_cases hwv : w = v
    · subst hwv
      have hnew : (g.pushed w).valNode w = some g.nextNode := Function.update_self ..
      cases hnew.symm.trans hn
      exact hself
    · have hold : g.valNode w = some n := (Function.update_of_ne hwv _ _).symm.trans hn
      exact valAt_longer (List.prefix_append _ _) (h.value w n hold hw)

namespace Visiting

theorem start (h : Declared P g) : Visiting P g none [] g where
  added := rfl
  nodes := List.prefix_refl _
  objects := rfl
  listed := rfl
  count := h.count
  node := h.node
  value := h.value
  known := h.known
  occurs n E hE _ := .inl ⟨n, E, hE, .refl⟩
  marks n hn := absurd (h.fresh n) hn
  once E _ hE _ := by
    obtain ⟨n, -, hdone⟩ := marked_iff.mp hE
    exact absurd (h.fresh n) hdone
  never _ _ _ := rfl
  serves _ hr := absurd hr List.not_mem_nil
  visited _ hr := absurd hr List.not_mem_nil
  done _ _ on _ _ hdone := absurd (h.fresh on) hdone

/-- The object of a global is marked only at its first node. -/
theorem unmarked (h : Visiting P g0 pending log g) (h0 : Declared P g0) {i on q w : Nat}
    (hon : g0.objNode (.global i) = some on) (hw : Leaves P [(P.global i).elem] w) (hq : q < w)
    (hfirst : g.globalInitDone on = none) : g.globalInitDone (on + q) = none := by
  by_contra hdone
  obtain ⟨w', hw', -, hvals⟩ := h0.object i on hon
  obtain rfl := hw'.unique hw
  have hval : g.valAt (on + q) = some (.global i) := valAt_longer h.nodes (hvals q hq)
  obtain ⟨E, hE, hgep⟩ | ⟨j, hj⟩ := h.marks _ hdone
  · cases hE.symm.trans hval
    cases hgep
  · rw [h.objects] at hj
    obtain ⟨wj, hwj, hfill, hvals'⟩ := h0.object j _ hj
    have hj' := hvals' 0 (hwj.pos (List.cons_ne_nil _ _) hfill)
    have hij := (valAt_longer h.nodes hj').symm.trans hval
    cases hij
    obtain hq0 : on = on + q := Option.some.inj (hon.symm.trans hj)
    exact hdone (hq0 ▸ hfirst)

/-- The first node of a global's object. -/
theorem objectVal (h : Visiting P g0 pending log g) (h0 : Declared P g0) {i on : Nat}
    (hon : g.objNode (.global i) = some on) : g.valAt on = some (.global i) := by
  obtain ⟨w, hw, hfill, hvals⟩ := h0.object i on (h.objects ▸ hon)
  exact valAt_longer h.nodes (hvals 0 (hw.pos (List.cons_ne_nil _ _) hfill))

theorem new_unmarked (h : Visiting P g0 pending log g) (h0 : Declared P g0) :
    g.globalInitDone g.nextNode = none := by
  by_contra hdone
  have hlt : g.nextNode < g.nodes.length := by
    obtain ⟨E, hE, -⟩ | ⟨i, hi⟩ := h.marks _ hdone
    · exact valAt_lt hE
    · exact valAt_lt (h.objectVal h0 hi)
  rw [h.count] at hlt
  exact absurd hlt (lt_irrefl _)

/-- Nothing but the structs and the constraints changed. -/
theorem same (h : Visiting P g0 pending log g) (hnodes : g'.nodes = g.nodes)
    (hnext : g'.nextNode = g.nextNode) (hval : g'.valNode = g.valNode)
    (hobj : g'.objNode = g.objNode) (hlist : g'.gepCe = g.gepCe)
    (hdone : g'.globalInitDone = g.globalInitDone) (hknown : Known P g'.structInfo)
    (hadd : addAll g0.constraints log = .ok g'.constraints) :
    Visiting P g0 pending log g' ∧ Advances g log g' log := by
  have hat : ∀ n, g'.valAt n = g.valAt n := fun n => by rw [valAt, hnodes, valAt]
  have hmarked : ∀ E, g'.marked E = g.marked E := fun E => by rw [marked, hval, hdone, marked]
  constructor
  · refine
      { added := hadd
        nodes := hnodes ▸ h.nodes
        objects := hobj.trans h.objects
        listed := hlist.trans h.listed
        count := by rw [hnext, hnodes, h.count]
        node := fun n v hn hv => hval ▸ h.node n v (hat n ▸ hn) hv
        value := fun v n hn hv => hat n ▸ h.value v n (hval ▸ hn) hv
        known := hknown
        occurs := fun n E hE => h.occurs n E (hat n ▸ hE)
        marks := fun n hn => ?_
        once := fun E hE hm => h.once E hE (hmarked E ▸ hm)
        never := fun E hE hm => h.never E hE (hmarked E ▸ hm)
        serves := fun r hr => (h.serves r hr).mono hobj fun v n hn => hval ▸ hn
        visited := fun r hr E hc hE => (hmarked E).trans (h.visited r hr E hc hE)
        done := fun i C on hon hC hd => h.done i C on (hobj ▸ hon) hC (hdone ▸ hd) }
    rw [hdone] at hn
    rw [hat, hobj]
    exact h.marks n hn
  · exact .unmarked (List.prefix_refl _) hval hdone

/-- A new node. -/
theorem push (h : Visiting P g0 pending log g) (h0 : Declared P g0) {v : Val}
    (hv : g.valNode v = none) (hocc : v.isExpr = true → Occurs P g0 v) :
    Visiting P g0 pending log (g.pushed v) ∧ Advances g log (g.pushed v) log := by
  have hprefix : g.nodes <+: (g.pushed v).nodes := List.prefix_append _ _
  have hvals : ∀ w n, g.valNode w = some n → (g.pushed v).valNode w = some n := pushed_vals hv
  have hmarked : ∀ E, (g.pushed v).marked E = g.marked E := by
    intro E
    by_cases hE : E = v
    · subst hE
      have hnew : (g.pushed E).valNode E = some g.nextNode := Function.update_self ..
      have hdone : (g.pushed E).globalInitDone g.nextNode = none := h.new_unmarked h0
      rw [marked, hnew, marked, hv]
      simp [hdone]
    · have hsame : (g.pushed v).valNode E = g.valNode E := Function.update_of_ne hE _ _
      rw [marked, hsame, marked]
      rfl
  constructor
  · refine
      { h with
        toExprNodes := h.toExprNodes.push hv
        nodes := h.nodes.trans hprefix
        occurs := fun n w hn hw => ?_
        marks := fun n hn => (h.marks n hn).imp
          (fun hE => hE.imp fun E hE => ⟨valAt_longer hprefix hE.1, hE.2⟩) id
        once := fun E hE hm => h.once E hE (hmarked E ▸ hm)
        never := fun E hE hm => h.never E hE (hmarked E ▸ hm)
        serves := fun r hr => (h.serves r hr).mono rfl hvals
        visited := fun r hr E hc hE => (hmarked E).trans (h.visited r hr E hc hE) }
    rcases pushed_valAt h.count hn with hn | ⟨-, rfl⟩
    · exact h.occurs n w hn hw
    · exact hocc hw
  · refine
      { log := List.prefix_refl _
        done := fun n hn => hn
        vals := hvals
        bases := fun E R _ hm hno _ => ?_ }
    rw [hmarked, hno] at hm
    cases hm

/-- The node of a GEP is marked, and its constraint is still to be added; a base of it has to
be visited too. -/
theorem mark (h : Visiting P g0 none log g) (h0 : Declared P g0) {n : Nat} {E : Val}
    (hn : g.valAt n = some E) (hE : E.isGep = true) (hno : g.marked E = false) :
    let g' := { g with globalInitDone := Function.update g.globalInitDone n (some 1) }
    Visiting P g0 (some E) log g' ∧ g'.marked E = true ∧
      ∀ g2 log2, Advances g' log g2 log2 →
        (∀ R, HasBase E (some (R, true)) → g2.marked R = true) → Advances g log g2 log2 := by
  intro g'
  have hself : g'.marked E = true := marked_iff.mpr
    ⟨n, h.node n E hn (Val.isExpr_of_isGep hE), by simp [g']⟩
  have hother : ∀ E', E'.isGep = true → E' ≠ E → g'.marked E' = g.marked E' := by
    intro E' hE' hne
    unfold marked
    cases hE'n : g.valNode E' with
    | none => simp [g']
    | some m =>
        have hm : m ≠ n := fun heq => by
          have := h.value E' m hE'n (Val.isExpr_of_isGep hE')
          rw [heq, hn] at this
          exact hne (Option.some.inj this).symm
        simp [g', Function.update_of_ne hm]
  refine ⟨?_, hself, fun g2 log2 hadv hbase =>
    { hadv with
      done := fun m hm => hadv.done m ?_
      bases := fun E' R hE' hm hno' hb => ?_ }⟩
  rotate_left
  · by_cases hmn : m = n
    · simp [g', hmn]
    · simpa [g', Function.update_of_ne hmn] using hm
  · by_cases hne : E' = E
    · exact hbase R (hne ▸ hb)
    · exact hadv.bases E' R hE' hm ((hother E' hE' hne).trans hno') hb
  refine
    { h with
      marks := fun m hm => ?_
      once := fun E' hE' hm hpend => ?_
      never := fun E' hE' hm => ?_
      serves := fun r hr => (h.serves r hr).mono rfl fun _ _ h => h
      visited := fun r hr E' hc hE' => ?_
      done := fun i C on hon hC hd => ?_ }
  · by_cases hmn : m = n
    · exact .inl ⟨E, hmn ▸ hn, hE⟩
    · exact h.marks m (by simpa [g', Function.update_of_ne hmn] using hm)
  · have hne : E' ≠ E := fun heq => hpend (congrArg some heq).symm
    exact h.once E' hE' (hother E' hE' hne ▸ hm) (Option.some_ne_none _).symm
  · by_cases hne : E' = E
    · exact h.never E' hE' (.inl (hne ▸ hno))
    · rw [hother E' hE' hne] at hm
      exact h.never E' hE' (.inl (hm.resolve_right fun heq => hne (Option.some.inj heq).symm))
  · by_cases hne : E' = E
    · exact hne ▸ hself
    · exact (hother E' hE' hne).trans (h.visited r hr E' hc hE')
  · have hne : on ≠ n := fun heq => by
      have hval := h.objectVal h0 hon
      rw [heq, hn] at hval
      cases hval
      cases hE
    exact h.done i C on hon hC (by simpa [g', Function.update_of_ne hne] using hd)

theorem addAll_concat {cs cs1 cs2 : List Constraint} {r : Request} {b : Bool}
    (h : addAll cs log = .ok cs1) (hr : addCons cs1 r.type r.dest r.src r.off = .ok (cs2, b)) :
    addAll cs (log ++ [r]) = .ok cs2 := by
  unfold addAll at h ⊢
  rw [List.foldlM_append, h]
  simp [bind, Except.bind, hr, Functor.map, Except.map]

/-- The constraint of the GEP that was just marked. -/
theorem gepRequest {E : Val} (h : Visiting P g0 (some E) log g)
    (hm : g.marked E = true) {r : Request} (hr : Serves P g r) (hcause : r.cause = .gep E)
    {cs : List Constraint} {b : Bool}
    (hadd : addCons g.constraints r.type r.dest r.src r.off = .ok (cs, b)) :
    Visiting P g0 none (log ++ [r]) { g with constraints := cs } ∧
      Advances g log { g with constraints := cs } (log ++ [r]) := by
  have hcount : ∀ E', ((log ++ [r]).countP fun r => r.cause = .gep E') =
      (log.countP fun r => r.cause = .gep E') + if E' = E then 1 else 0 := by
    intro E'
    simp [List.countP_append, hcause, eq_comm]
  refine ⟨?_, .unmarked (List.prefix_append _ _) rfl rfl⟩
  refine
    { h with
      added := addAll_concat h.added hadd
      once := fun E' hE' hm' _ => ?_
      never := fun E' hE' hm' => ?_
      serves := fun r' hr' => ?_
      visited := fun r' hr' E' hc => ?_
      done := fun i C on hon hC hd => (h.done i C on hon hC hd).mono (List.prefix_append _ _) }
  · rw [hcount]
    split
    · rename_i heq
      rw [h.never E' hE' (.inr (congrArg some heq.symm))]
    · rename_i hne
      rw [h.once E' hE' hm' fun heq => hne (Option.some.inj heq).symm]
  · have hm' : g.marked E' = false := hm'.resolve_right (Option.some_ne_none _).symm
    have hne : E' ≠ E := fun heq => by
      rw [heq, hm] at hm'
      cases hm'
    rw [hcount, if_neg hne, h.never E' hE' (.inl hm')]
  · rcases List.mem_append.mp hr' with hr' | hr'
    · exact (h.serves r' hr').mono rfl fun _ _ h => h
    · rw [List.mem_singleton.mp hr']
      exact hr.mono rfl fun _ _ h => h
  · rcases List.mem_append.mp hr' with hr' | hr'
    · exact h.visited r' hr' E' hc
    · rw [List.mem_singleton.mp hr', hcause] at hc
      cases hc

/-- The constraint of a pointer in an initializer. -/
theorem leafRequest (h : Visiting P g0 none log g) {r : Request} (hr : Serves P g r) {L : Stripped}
    (hcause : r.cause = .leaf L)
    (hvis : ∀ E, L = .value E → E.isGep = true → g.marked E = true)
    {cs : List Constraint} {b : Bool}
    (hadd : addCons g.constraints r.type r.dest r.src r.off = .ok (cs, b)) :
    Visiting P g0 none (log ++ [r]) { g with constraints := cs } ∧
      Advances g log { g with constraints := cs } (log ++ [r]) := by
  have hcount : ∀ E', ((log ++ [r]).countP fun r => r.cause = .gep E') =
      log.countP fun r => r.cause = .gep E' := by
    intro E'
    simp [List.countP_append, hcause]
  constructor
  · refine
      { h with
        added := addAll_concat h.added hadd
        once := fun E' hE' hm' hp => (hcount E').trans (h.once E' hE' hm' hp)
        never := fun E' hE' hm' => (hcount E').trans (h.never E' hE' hm')
        serves := fun r' hr' => ?_
        visited := fun r' hr' E' hc hE' => ?_
        done := fun i C on hon hC hd => (h.done i C on hon hC hd).mono (List.prefix_append _ _) }
    · rcases List.mem_append.mp hr' with hr' | hr'
      · exact (h.serves r' hr').mono rfl fun _ _ h => h
      · rw [List.mem_singleton.mp hr']
        exact hr.mono rfl fun _ _ h => h
    · rcases List.mem_append.mp hr' with hr' | hr'
      · exact h.visited r' hr' E' hc hE'
      · rw [List.mem_singleton.mp hr', hcause] at hc
        exact hvis E' (Cause.leaf.inj hc) hE'
  · exact .unmarked (List.prefix_append _ _) rfl rfl

/-- The call for a global returns. -/
theorem finish (h : Visiting P g0 none log g) (h0 : Declared P g0) {i on k : Nat} {C : Val}
    (hon : g.objNode (.global i) = some on) (hC : (P.global i).init = some C)
    (hserved : g.globalInitDone on = none → Served P log C on) :
    let g' := { g with globalInitDone := Function.update g.globalInitDone on (some k) }
    Visiting P g0 none log g' ∧ Advances g log g' log := by
  intro g'
  have hval := h.objectVal h0 hon
  have hmarked : ∀ E, E.isGep = true → g'.marked E = g.marked E := by
    intro E hE
    unfold marked
    cases hEn : g.valNode E with
    | none => simp [g']
    | some m =>
        have hm : m ≠ on := fun heq => by
          have := h.value E m hEn (Val.isExpr_of_isGep hE)
          rw [heq, hval] at this
          cases this
          cases hE
        simp [g', Function.update_of_ne hm]
  constructor
  · refine
      { h with
        marks := fun m hm => ?_
        once := fun E hE hm => h.once E hE (hmarked E hE ▸ hm)
        never := fun E hE hm => h.never E hE (hmarked E hE ▸ hm)
        serves := fun r hr => (h.serves r hr).mono rfl fun _ _ h => h
        visited := fun r hr E hc hE => (hmarked E hE).trans (h.visited r hr E hc hE)
        done := fun j D onj honj hD hd => ?_ }
    · by_cases hmn : m = on
      · exact .inr ⟨i, hmn ▸ hon⟩
      · exact h.marks m (by simpa [g', Function.update_of_ne hmn] using hm)
    · by_cases heq : onj = on
      · subst heq
        have hij : Val.global j = .global i :=
          Option.some.inj ((h.objectVal h0 honj).symm.trans hval)
        cases hij
        cases hD.symm.trans hC
        cases hd' : g.globalInitDone onj with
        | none => exact hserved hd'
        | some k' => exact h.done _ _ onj honj hD (by rw [hd']; exact Option.some_ne_none _)
      · exact h.done j D onj honj hD (by simpa [g', Function.update_of_ne heq] using hd)
  · refine
      { log := List.prefix_refl _
        done := fun m hm => ?_
        vals := fun v n hn => hn
        bases := fun E R hE hm hno _ => ?_ }
    · by_cases hmn : m = on
      · simp [g', hmn]
      · simpa [g', Function.update_of_ne hmn] using hm
    · rw [hmarked E hE, hno] at hm
      cases hm

end Visiting

end

end Gen

end PtrAnalysis
