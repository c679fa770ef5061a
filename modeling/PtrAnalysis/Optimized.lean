import PtrAnalysis.FactorMeaning
import PtrAnalysis.Plain
import PtrAnalysis.Reruns

/-!
# From the constraints to the answers

The optimizer runs one pass of value numbering, then more of them as long as they pay, hybrid
cycle detection and factoring; the solver works on what they leave. For a system without calls
through function pointers the answers are its least solution, if every pointer that is stored
through points to something and no merge of the solver starts another one.
-/

namespace PtrAnalysis

open Run Relation PtrAnalysis.Graph

variable {M : Module} {a b c d : Anders} {func : Nat → Prop} {left left' : OffGraph}

/-! ## The passes and what they find -/

/-- New offline nodes are without counters, labels and stack. -/
theorem makeOffNodes_start : Spec (makeOffNodes a) (fun o => o = { o with
    nextPtrEq := 0, currDfs := 0, dfsStk := [], lbl2pe := [], gep2pe := [] }) fun _ => True := by
  unfold makeOffNodes
  refine spec_require (fun _ => trivial) fun _ => ?_
  exact (spec_true _).bind fun m _ => (spec_true _).bind fun m _ => rfl

/-- What was left changes nothing in a pass of value numbering. -/
theorem hvnIn_run {doUnion : Bool} (hleft : left.dfsStk = [])
    (hrun : hvnIn doUnion left a = .ok (b, left')) : hvn doUnion a = .ok b ∧ left'.dfsStk = [] := by
  have hfresh : ({ left with
      nextPtrEq := 0, currDfs := 0, dfsStk := [], lbl2pe := [], gep2pe := [] } : OffGraph).dfsStk = [] :=
    rfl
  rw [hvnIn_left doUnion hleft hfresh] at hrun
  obtain ⟨o, ho, hrun⟩ := bind_ok.mp hrun
  obtain ⟨o0, hn, ho⟩ := bind_ok.mp ho
  obtain ⟨g, he, hrun⟩ := bind_ok.mp hrun
  obtain ⟨o', hs, hrun⟩ := bind_ok.mp hrun
  obtain ⟨b', hm, hrun⟩ := bind_ok.mp hrun
  cases hrun
  cases ho
  have hstart := makeOffNodes_start.result hn
  have hstk : o'.dfsStk = [] := by
    obtain ⟨o1, -, hrest⟩ := bind_ok.mp hs
    obtain ⟨_, hreq, hrest⟩ := bind_ok.mp hrest
    cases hrest
    exact require_ok.mp hreq
  refine ⟨?_, hstk⟩
  unfold hvn
  rw [hn]
  rw [← hstart] at he
  change (addOffEdges a false { o0 with nextPtrEq := a.size, gep2pe := [] } >>= _) = _
  rw [he]
  change (hvnSearch doUnion g >>= _) = _
  rw [hs]
  exact hm

theorem hrIn_run {doUnion : Bool} {minDel : Nat} : ∀ {fuel : Nat} {left : OffGraph} {a : Anders},
    left.dfsStk = [] → hrIn doUnion minDel fuel left a = .ok (b, left') →
    ReflTransGen (fun x y => ∃ doUnion, hvn doUnion x = .ok y) a b ∧ left'.dfsStk = []
  | 0, _, _, _, hrun => absurd hrun (by simp [hrIn])
  | fuel + 1, left, a, hleft, hrun => by
      obtain ⟨⟨a', left1⟩, hpass, hrest⟩ := bind_ok.mp hrun
      obtain ⟨hhvn, hleft1⟩ := hvnIn_run hleft hpass
      dsimp only at hrest
      split at hrest
      · obtain ⟨hrest, hend⟩ := hrIn_run hleft1 hrest
        exact ⟨.head ⟨doUnion, hhvn⟩ hrest, hend⟩
      · cases hrest
        exact ⟨.single ⟨doUnion, hhvn⟩, hleft1⟩

theorem hcdIn_run (hleft : left.dfsStk = []) (hrun : hcdIn left a = .ok (b, left')) :
    ∃ c, HcdRun a c ∧ b = c.rewrite c.constraints c.icallCons := by
  obtain ⟨o, ho, hrun⟩ := bind_ok.mp hrun
  obtain ⟨o0, hn, ho⟩ := bind_ok.mp ho
  obtain ⟨g, he, hrun⟩ := bind_ok.mp hrun
  obtain ⟨⟨c, o'⟩, hsearch, hrun⟩ := bind_ok.mp hrun
  cases hrun
  cases ho
  have hstk := hleft.trans (makeOffNodes_built.result hn).stk.symm
  exact ⟨c, ⟨o0, { o0 with
    nextPtrEq := left.nextPtrEq, currDfs := left.currDfs, dfsStk := left.dfsStk
    lbl2pe := left.lbl2pe, gep2pe := left.gep2pe }, g, o', hn, rfl,
    ⟨rfl, rfl, rfl, rfl, rfl, hstk⟩, he, hsearch⟩, rfl⟩

/-! ## Factoring -/

/-- The hash maps of loads and stores are walked completely. -/
def Job.Walks (J : Job) : Prop :=
  ∀ cs, ((J.loadKeys cs).Nodup ∧ ∀ key, key ∈ J.loadKeys cs ↔ (lsGroup cs true key).card ≠ 0) ∧
    (J.storeKeys cs).Nodup ∧ ∀ key, key ∈ J.storeKeys cs ↔ (lsGroup cs false key).card ≠ 0

theorem Anders.Plain.factorInput (ha : a.Plain M) {J : Job} (hJ : J.Walks) :
    FactorInput a func (J.loadKeys a.constraints) (J.storeKeys a.constraints) where
  size := (Nat.zero_le _).trans_lt ha.last
  inside := by
    refine ⟨fun hC => ha.node _ hC, fun o ho => ?_⟩
    change o + (a.nodes o).objSz ≤ a.size
    by_cases h0 : (a.nodes o).objSz = 0
    · omega
    · have := (ha.blocks o h0).2
      have := ha.last
      omega
  icall C hC := ha.callsListed C hC
  map := by rw [ha.untagged]; exact List.nodup_nil
  loads := (hJ a.constraints).1
  stores := (hJ a.constraints).2

/-- The node of a group is new and empty. -/
theorem factorGroups_nodes {cs : List Constraint} {load : Bool} {keys : List LsKey}
    {t : Anders × List (LsKey × Nat)} (ht : ∀ n, t.1.nodes n = a.nodes n ∨ t.1.nodes n = {}) :
    Spec (factorGroups cs load keys t) (fun u => ∀ n, u.1.nodes n = a.nodes n ∨ u.1.nodes n = {})
      fun _ => True := by
  refine spec_foldlM_keeps ht fun key _ u hu => ?_
  have hgroup : Spec (factorGroup u.1 (lsGroup cs load key) key load)
      (fun v => ∀ n, v.1.nodes n = a.nodes n ∨ v.1.nodes n = {}) fun _ => True := by
    unfold factorGroup
    refine spec_require (fun _ => trivial) fun _ => ?_
    split
    · exact hu
    · intro n
      change Function.update u.1.nodes u.1.size {} n = a.nodes n ∨
        Function.update u.1.nodes u.1.size {} n = {}
      rw [Function.update_apply]
      split
      · exact .inr rfl
      · exact hu n
  exact hgroup.bind fun v hv => hv

theorem factorLs_nodes {loadKeys storeKeys : List LsKey} : Spec (factorLs loadKeys storeKeys a)
    (fun b => ∀ n, b.nodes n = a.nodes n ∨ b.nodes n = {}) fun _ => True := by
  unfold factorLs
  refine (factorGroups_nodes (a := a) fun n => .inl rfl).bind fun t ht => ?_
  exact (factorGroups_nodes ht).bind fun u hu => hu

/-- A side of a constraint that factoring may put on a side of one of its own. -/
def FactorSide (a : Anders) (sz x : Nat) : Prop :=
  (∃ C ∈ a.constraints, x = C.dest ∨ C.type ≠ .addrOf ∧ x = C.src) ∨ a.size ≤ x ∧ x < sz

/-- Only addresses and sums keep both sides in any case. -/
theorem Factoring.sides {done : List (Bool × LsKey)} {T : Bool × LsKey → Nat}
    {temp : List (LsKey × Nat)} (h : Factoring a done T b temp) {C : Constraint}
    (hC : C ∈ b.constraints) : C ∈ a.constraints ∨
      C.type ≠ .addrOf ∧ C.type ≠ .gep ∧ FactorSide a b.size C.dest ∧ FactorSide a b.size C.src := by
  have hls : ∀ {l k x}, lsCons l k x ∈ a.constraints →
      FactorSide a b.size x ∧ FactorSide a b.size k.1 := by
    intro l k x hx
    cases l with
    | true => exact ⟨.inl ⟨_, hx, .inl rfl⟩, .inl ⟨_, hx, .inr ⟨by simp [lsCons], rfl⟩⟩⟩
    | false => exact ⟨.inl ⟨_, hx, .inr ⟨by simp [lsCons], rfl⟩⟩, .inl ⟨_, hx, .inl rfl⟩⟩
  rcases (h.cons C).mp hC with hold | ⟨⟨l, k⟩, hd, hg⟩
  · exact .inl hold.1
  · unfold groupCons at hg
    split at hg
    · rename_i hbig
      have hT : FactorSide a b.size (T (l, k)) := .inr (h.fresh _ hd hbig)
      rcases hg with rfl | ⟨x, hx, rfl⟩
      · -- the load or store of the new node
        obtain ⟨z, hz⟩ := Finset.card_pos.mp (Nat.pos_of_ne_zero hbig.card)
        have hk := (hls (mem_lsGroup.mp hz)).2
        cases l with
        | true => exact .inr ⟨by simp [lsCons], by simp [lsCons], hT, hk⟩
        | false => exact .inr ⟨by simp [lsCons], by simp [lsCons], hk, hT⟩
      · have hside := (hls (mem_lsGroup.mp hx)).1
        cases l with
        | true => exact .inr ⟨by simp [lsLink], by simp [lsLink], hside, hT⟩
        | false => exact .inr ⟨by simp [lsLink], by simp [lsLink], hT, hside⟩
    · obtain ⟨x, hx, rfl⟩ := hg
      exact .inl (mem_lsGroup.mp hx)

/-- What factoring makes of a system: one that may be solved, with the same answers for the old
nodes. -/
structure FactoredPlain (M : Module) (func : Nat → Prop) (a d : Anders) : Prop where
  solvable : (∀ n h, a.hcdVar n = some h → h < a.size) → d.Solvable M
  noFunc : ∀ o, ¬ d.FuncNode M o
  rep : d.rep = a.rep
  hv : d.hv = a.hv
  size_le : a.size ≤ d.size
  flow : ∀ n < a.size, ∀ o, d.Flow func n o ↔ a.Flow func n o

/-- Nodes that there are not represent themselves. -/
theorem Anders.Plain.outside (ha : a.Plain M) {m n : Nat} (hmn : a.rep m = a.rep n) :
    m = n ∨ m < a.size ∧ n < a.size := by
  have hself : ∀ {x}, a.size ≤ x → ∀ {y}, a.rep y = x ↔ y = x := fun hx =>
    ha.merged fun hv => absurd hv.2 (Nat.not_lt.mpr hx)
  by_cases hm : m < a.size
  · by_cases hn : n < a.size
    · exact .inr ⟨hm, hn⟩
    · have hn := Nat.le_of_not_lt hn
      exact .inl ((hself hn).mp (hmn.trans ((hself hn).mpr rfl)))
  · have hm := Nat.le_of_not_lt hm
    exact .inl ((hself hm).mp (hmn.symm.trans ((hself hm).mpr rfl))).symm

section

variable {done : List (Bool × LsKey)} {T : Bool × LsKey → Nat} {temp : List (LsKey × Nat)}
  (ha : a.Plain M) (hT : Factoring a done T b temp)

include ha hT

/-- A side of a new constraint is a node, and not a special one. -/
theorem Factoring.side_node {x : Nat} (hx : FactorSide a b.size x) : x ≠ 0 ∧ x ≠ i2p ∧ x < b.size := by
  rcases hx with ⟨C, hC, rfl | ⟨ht, rfl⟩⟩ | ⟨hle, hlt⟩
  · exact ⟨(ha.nonnull C hC).2, (ha.proper C hC).1, (ha.node C hC).1.trans_le hT.size_le⟩
  · exact ⟨(ha.nonnull C hC).1, (ha.proper C hC).2.1 ht, (ha.node C hC).2.trans_le hT.size_le⟩
  · have htwo := ha.pointer.1
    unfold pI2p at htwo
    unfold i2p
    exact ⟨by omega, by omega, hlt⟩

omit ha in
theorem Factoring.rep_eq : b.rep = a.rep := by
  rw [hT.frame]
  rfl

variable (hnodes : ∀ n, b.nodes n = a.nodes n ∨ b.nodes n = {})

include hnodes

/-- What the constraints and the nodes have to be without calls. -/
theorem Factoring.noTags : ({ b with icallCons := [] } : Anders).NoTags := by
  have hside : ∀ {x}, FactorSide a b.size x → x ≠ 0 ∧ x ≠ i2p ∧ x < b.size := hT.side_node ha
  refine ⟨fun C hC => ?_, fun C hC => ?_, fun x hx => ?_, fun n => ?_, rfl, fun n hn => ?_, fun hm => ?_⟩
  · rcases hT.sides hC with hC | ⟨-, hgep, hd, hs⟩
    · exact ha.proper C hC
    · exact ⟨(hside hd).2.1, fun _ => (hside hs).2.1, fun h => absurd h hgep⟩
  · rcases hT.sides hC with hC | ⟨-, -, hd, hs⟩
    · exact ⟨(ha.node C hC).1.trans_le hT.size_le, (ha.node C hC).2.trans_le hT.size_le⟩
    · exact ⟨(hside hd).2.2, (hside hs).2.2⟩
  · change b.rep x < b.size
    rw [hT.rep_eq]
    by_cases hxa : x < a.size
    · exact (ha.rep x hxa).trans_le hT.size_le
    · rw [(ha.merged fun hv => hxa hv.2).mpr rfl]
      exact hx
  · rcases hnodes n with hn | hn
    · rw [hn]
      exact ha.fresh n
    · rw [hn]
      exact ⟨rfl, rfl, rfl, rfl, rfl, rfl⟩
  · have hold : b.nodes n = a.nodes n := (hnodes n).resolve_right fun h0 => hn (by
      have h0 : b.nodes n = {} := h0
      rw [h0])
    change n ≠ 0 ∧ n + (b.nodes n).objSz ≤ b.lastObjNode + 1
    rw [hold, hT.frame]
    exact ha.blocks n (hold ▸ hn)
  · intro x
    change b.rep x = _ ↔ _
    rw [hT.rep_eq]
    exact ha.alone hm

theorem Factoring.solvable (hh : ∀ n h, a.hcdVar n = some h → h < a.size) :
    ({ b with icallCons := [] } : Anders).Solvable M := by
  refine ⟨hT.noTags ha hnodes, fun C hC => ?_, fun C hC ht => ?_, ?_, fun n h hn => ?_, ?_,
    fun i vn hi => (ha.call i vn hi).trans_le hT.size_le, ?_⟩
  · rcases hT.sides hC with hC | ⟨-, -, hd, hs⟩
    · exact ha.nonnull C hC
    · exact ⟨(hT.side_node ha hs).1, (hT.side_node ha hd).1⟩
  · change b.rep C.src = C.src
    rw [hT.rep_eq]
    exact ha.rep_object (ha.named C ((hT.sides hC).resolve_right fun h => h.1 ht) ht)
  · change b.lastObjNode < b.size
    rw [show b.lastObjNode = a.lastObjNode by rw [hT.frame]]
    exact ha.last.trans_le hT.size_le
  · have hn : b.hcdVar n = some h := hn
    rw [hT.frame] at hn
    exact (hh n h hn).trans_le hT.size_le
  · change b.extFuncNodes ⊆ b.extFuncNodeSet
    rw [hT.frame]
    exact ha.ext
  · rcases hnodes i2p with hn | hn
    · rw [hn]
      exact ha.single
    · rw [hn]
      exact Nat.zero_le 1

theorem Factoring.noFunc (o : Nat) : ¬ ({ b with icallCons := [] } : Anders).FuncNode M o := by
  rintro (hfunc | ⟨-, f, hf, hcase⟩)
  · have hfunc : o ∈ b.funcNodeSet := hfunc
    rw [show b.funcNodeSet = a.funcNodeSet by rw [hT.frame], ha.functions.1] at hfunc
    exact absurd hfunc (Finset.notMem_empty o)
  · rcases hnodes o with ho | ho
    · rw [ho] at hf hcase
      exact ha.functions.2 o ⟨f, hf, hcase⟩
    · rw [ho] at hf
      cases hf

end

theorem factorLs_plain (ha : a.Plain M) {loadKeys storeKeys : List LsKey}
    (hin : FactorInput a func loadKeys storeKeys) (hrun : factorLs loadKeys storeKeys a = .ok d) :
    FactoredPlain M func a d := by
  have hnodes := factorLs_nodes.result hrun
  obtain ⟨b, T, temp, done, hT, hdone, hrun'⟩ := factorLs_factoring hin
  obtain rfl : { b with icallCons := movedIcall temp a } = d :=
    Except.ok.inj (hrun'.symm.trans hrun)
  have hmoved : movedIcall temp a = [] := by
    unfold movedIcall
    rw [ha.untagged]
    rfl
  have hclash : NoClash a := fun C hC => by
    rw [ha.untagged] at hC
    exact absurd hC (IcallCons.not_tagged_nil C)
  have hhv : b.hv = a.hv := by
    rw [hT.frame]
    rfl
  refine ⟨fun hh => ?_, fun o => ?_, hT.rep_eq, hhv, hT.size_le, fun n hn o => ?_⟩
  · rw [hmoved]
    exact hT.solvable ha hnodes hh
  · rw [hmoved]
    exact hT.noFunc ha hnodes o
  · have hfactored := hT.all hdone
    have hspread := spread_flow_iff (S := a.system func) (r := a.rep)
      (fun C C2 _ _ ht => absurd ht (ha.not_tagged func C2)) n o
    change ({ b with icallCons := movedIcall temp a }.system func).Flow b.rep n o ↔
      (a.system func).Flow a.rep n o
    rw [hT.rep_eq, ← hspread]
    exact ⟨hfactored.spread_of_flow_over hin hclash (fun _ _ => ha.outside) hn,
      hfactored.flow_of_spread_over hin hclash⟩

/-! ## All of it -/

/-- Where the old nodes have the same sets, targets stay right. -/
theorem TargetOf.mono {F G : Nat → Nat → Prop} {sz n v : Nat} (h : TargetOf F n v)
    (hlt : ∀ {x y}, F x y → x < sz ∧ y < sz) (hv : v < sz) (hFG : ∀ x < sz, ∀ y, G x y ↔ F x y) :
    TargetOf G n v := by
  obtain ⟨p, hp, hne⟩ := h.some
  have hn := (hlt hp).1
  refine ⟨⟨p, (hFG n hn p).mpr hp, hne⟩, fun q hq hqne o => ?_⟩
  have hq := (hFG n hn q).mp hq
  rw [hFG q (hlt hq).2 o, hFG v hv o]
  exact h.each q hq hqne o

/-- What the optimizer makes of `a`: a system that may be solved and that loses nothing, and if every
pointer that is stored through points to something, right targets and the answers of the old one. -/
structure OptimizedPlain (M : Module) (func : Nat → Prop) (a d : Anders) : Prop where
  solvable : d.Solvable M
  noFunc : ∀ o, ¬ d.FuncNode M o
  sound : ∀ n < a.size, ∀ o, a.Flow func n o → d.Flow func n o
  targets : a.StoresReach func → ∀ n, d.hv n ≠ 0 → TargetOf (d.Flow func) n (d.hv n)
  exact : a.StoresReach func → ∀ n < a.size, ∀ o, d.Flow func n o ↔ a.Flow func n o

theorem HcdRun.targets_lt (h : HcdRun a c) (ha : a.Plain M) (h0 : ∀ n, a.hcdVar n = none) (n v : Nat)
    (hn : c.hcdVar n = some v) : v < a.size := by
  have hv : c.hv n = v := by
    rw [Graph.hv, hn]
    rfl
  rcases (h.keeps ha h0).merged.target n with hzero | hvar
  · rw [← hv, hzero]
    exact (Nat.zero_le _).trans_lt ha.last
  · exact hv ▸ hvar.2

theorem optimize_plain {J : Job} (hJ : J.Walks) (ha : a.Plain M) (h0 : ∀ n, a.hcdVar n = none)
    (hmark : ∀ n, (a.nodes n).nonptr = false) (hleft : left.dfsStk = [])
    (hrun : optimize J left a = .ok (d, left')) : OptimizedPlain M func a d := by
  obtain ⟨⟨a1, left1⟩, hhvn, hrun⟩ := bind_ok.mp hrun
  obtain ⟨⟨a2, left2⟩, hhr, hrun⟩ := bind_ok.mp hrun
  obtain ⟨⟨a3, left3⟩, hhcd, hrun⟩ := bind_ok.mp hrun
  obtain ⟨a4, hfactor, hrun⟩ := bind_ok.mp hrun
  cases hrun
  obtain ⟨hhvn, hleft1⟩ := hvnIn_run hleft hhvn
  obtain ⟨hhr, hleft2⟩ := hrIn_run hleft1 hhr
  -- value numbering
  have hready : a.HvnReady func := ⟨ha.objects, ha.objectReps, ha.callsListed,
    fun n _ hn => absurd hn (by simp [hmark]), (ha.hcdReady h0).hv⟩
  obtain ⟨h2, hnone2, hsize2, hsteps⟩ := hvnPasses ha h0 hready (.head ⟨false, hhvn⟩ hhr)
  have hhvns := hvnSteps hready hsteps
  -- hybrid cycle detection
  obtain ⟨c, hc, rfl⟩ := hcdIn_run hleft2 hhcd
  have hready2 := h2.hcdReady hnone2
  have hpass : HcdPass func a2 c := hc.pass hready2
  have h3 := hc.plain h2 hnone2
  have hapart : (a2.system func).Apart ((c.rewrite c.constraints c.icallCons).system func) c.rep :=
    (hpass.rewritten hready2).apart (h2.not_tagged func)
  have hsize : c.size = a2.size := hpass.keeps.coarser.size
  -- factoring
  have hinput : FactorInput _ func _ _ := h3.factorInput hJ
  have hf := factorLs_plain h3 hinput hfactor
  have hflow : ∀ n < a2.size, ∀ o, d.Flow func n o ↔ (c.rewrite c.constraints c.icallCons).Flow func n o :=
    fun n hn o => hf.flow n (hsize.symm ▸ hn) o
  refine ⟨hf.solvable fun n h hn => hsize.symm ▸ hc.targets_lt h2 hnone2 n h hn, hf.noFunc,
    fun n hn o ho => ?_, fun hs n hn => ?_, fun hs n hn o => ?_⟩
  · rw [hflow n (hsize2 ▸ hn)]
    exact (hpass.rewritten hready2).sound hapart (hhvns.sound ho)
  · obtain ⟨hs2, -⟩ := hhvns.precise hs
    obtain ⟨hflow3, -, htargets⟩ := hpass.exact hready2 hs2 hapart
    have hinput2 : FactorInput a2 func _ _ := h2.factorInput hJ
    have hlt : ∀ {x y}, a2.Flow func x y → x < a2.size ∧ y < a2.size := fun hxy =>
      hxy.lt hinput2.inside fun {m n} hmn hm => by
        rcases h2.outside hmn with rfl | ⟨-, hn⟩
        · exact hm
        · exact hn
    rw [hf.hv] at hn ⊢
    have hv : c.hv n < a2.size := by
      rcases (hc.keeps h2 hnone2).merged.target n with hzero | hvar
      · exact absurd hzero hn
      · exact hvar.2
    exact (htargets n hn).mono hlt hv fun m hm o => (hflow m hm o).trans (hflow3 m o)
  · obtain ⟨hs2, hback⟩ := hhvns.precise hs
    obtain ⟨hflow3, -, -⟩ := hpass.exact hready2 hs2 hapart
    exact (hflow n (hsize2 ▸ hn) o).trans ((hflow3 n o).trans ⟨hback, hhvns.sound⟩)

/-- Walk the hash maps in the order in which their keys first occur. -/
def inOrder : Job :=
  { numbers 0 with
    loadKeys := fun cs => lsKeys cs true
    storeKeys := fun cs => lsKeys cs false }

/-- Constraints over fieldless objects up to `last` are between their nodes. -/
theorem fieldless_plain {size last : Nat} {cs : List Constraint} (hlast : last < size)
    (hpointer : pI2p < size) (hcs : ∀ C ∈ cs, C.Proper ∧ C.dest < size ∧ C.src < size)
    (hnonnull : ∀ C ∈ cs, C.src ≠ 0 ∧ C.dest ≠ 0)
    (hnamed : ∀ C ∈ cs, C.type = .addrOf → (fieldlessObjects last C.src).objSz ≠ 0) :
    (Anders.initial size last (fieldlessObjects last) cs).Plain (.uniform false) where
  toNoCalls := Anders.initial_noCalls hcs (fieldlessObjects_node last)
  nonnull := hnonnull
  named := hnamed
  inner _ _ hk := fieldlessObjects_inner hk
  pointer := ⟨hpointer, rfl⟩
  merged _ _ := Iff.rfl
  last := hlast
  ext := Finset.Subset.refl _
  call _ _ h := by cases h
  single := Nat.zero_le 1

theorem fieldlessObjects_unmarked (last n : Nat) : (fieldlessObjects last n).nonptr = false := by
  rw [(fieldlessObjects_node last n).1]

theorem inOrder_walks : inOrder.Walks := fun cs => ⟨lsKeys_spec cs true, lsKeys_spec cs false⟩

/-- For a system without calls through function pointers, the optimizer and a run of the solver in
which no merge of nodes that point to nothing starts another one find all of the least solution. -/
theorem optimized_sound (W : Type) [Worklist W] [LawfulWorklist W] (M : Module) (J : Job)
    (hJ : J.Walks) (a : Anders) (ha : a.Plain M) (h0 : ∀ n, a.hcdVar n = none)
    (hmark : ∀ n, (a.nodes n).nonptr = false) (left : OffGraph) (hleft : left.dfsStk = [])
    (t : Anders × OffGraph) (hopt : optimize J left a = .ok t) (k : Nat) (s : Solver W)
    (hrun : runSolver W M k t.1 = .ok (.done s)) (hcasc : ∅ ∉ s.cascades) (n : Nat)
    (hn : n < a.size) (o : Nat) (hf : a.Flow (fun _ => False) n o) : o ∈ s.pts (s.rep n) := by
  have hd : OptimizedPlain M (fun _ => False) a t.1 := optimize_plain hJ ha h0 hmark hleft hopt
  have hnone : t.1.FuncNode M = fun _ => False := funext fun x => eq_false (hd.noFunc x)
  have hflow := hd.sound n hn o hf
  rw [← hnone] at hflow
  exact runSolver_least hd.solvable hrun hcasc hflow

/-- `p = &x; q = p; r = p; *w = q; q = *w; s = *p; s = &y; *w = s; t = *w`, where `w` points to
nothing: value numbering takes what is read back for a copy of `q`. -/
def storedNowhere : Anders :=
  .initial 11 4 (fieldlessObjects 4) [⟨.addrOf, 5, 3, 0⟩, ⟨.copy, 6, 5, 0⟩, ⟨.copy, 7, 5, 0⟩,
    ⟨.store, 9, 6, 0⟩, ⟨.load, 6, 9, 0⟩, ⟨.load, 8, 5, 0⟩, ⟨.addrOf, 8, 4, 0⟩, ⟨.store, 9, 8, 0⟩,
    ⟨.load, 10, 9, 0⟩]

theorem optimized_sound_nowhere : ∃ t s,
    optimize inOrder (Process.fresh (W := Unit)).off storedNowhere = .ok t ∧
    runSolver (Lists true PrioHeap) (.uniform false) 40 t.1 = .ok (.done s) ∧
    3 ∈ s.pts (s.rep 10) ∧
    ∀ n < 11, ∀ o, storedNowhere.Flow (fun _ => False) n o → o ∈ s.pts (s.rep n) := by
  have hrun : (do
      let t ← optimize inOrder (Process.fresh (W := Unit)).off storedNowhere
      let l ← runSolver (Lists true PrioHeap) (.uniform false) 40 t.1
      return (t, l) : Run ((Anders × OffGraph) × Loop (Lists true PrioHeap))).toOption.any (fun u =>
        !u.2.isMore && decide (∅ ∉ u.2.state.cascades) &&
          decide (3 ∈ u.2.state.pts (u.2.state.rep 10))) = true := by decide +kernel
  obtain ⟨u, hu, hp⟩ := any_ok hrun
  obtain ⟨t, ht, hu⟩ := bind_ok.mp hu
  obtain ⟨l, hl, hu⟩ := bind_ok.mp hu
  cases hu
  simp only [Bool.and_eq_true, decide_eq_true_eq, Bool.not_eq_true'] at hp
  obtain ⟨⟨hdone, hcasc⟩, hten⟩ := hp
  have hplain : storedNowhere.Plain (.uniform false) :=
    fieldless_plain (by decide) (by decide) (by decide) (by decide) (by decide)
  cases l with
  | more s => cases hdone
  | done s =>
      refine ⟨t, s, ht, hl, hten, fun n hn o hf => ?_⟩
      exact optimized_sound _ _ inOrder inOrder_walks storedNowhere hplain (fun _ => rfl)
        (fieldlessObjects_unmarked 4) _ rfl t ht 40 s hl hcasc n hn o hf

/-- For a system without calls through function pointers in which every pointer that is stored
through points to something, the optimizer and a run of the solver in which no merge starts
another one compute the least solution: whatever the passes merge and factor, whatever the
worklist, and whatever the order of the visits. -/
theorem optimized_exact (W : Type) [Worklist W] [LawfulWorklist W] (M : Module) (J : Job)
    (hJ : J.Walks) (a : Anders) (ha : a.Plain M) (h0 : ∀ n, a.hcdVar n = none)
    (hmark : ∀ n, (a.nodes n).nonptr = false) (hs : a.StoresReach fun _ => False)
    (left : OffGraph) (hleft : left.dfsStk = []) (t : Anders × OffGraph)
    (hopt : optimize J left a = .ok t) (k : Nat) (s : Solver W)
    (hrun : runSolver W M k t.1 = .ok (.done s)) (hquiet : s.cascades = []) (n : Nat)
    (hn : n < a.size) (o : Nat) : o ∈ s.pts (s.rep n) ↔ a.Flow (fun _ => False) n o := by
  have hd : OptimizedPlain M (fun _ => False) a t.1 := optimize_plain hJ ha h0 hmark hleft hopt
  have hnone : t.1.FuncNode M = fun _ => False := funext fun x => eq_false (hd.noFunc x)
  have htargets := hd.targets hs
  rw [← hd.exact hs n hn o]
  rw [← hnone] at htargets ⊢
  exact runSolver_flow hd.solvable htargets hrun hquiet n o

/-- `p = &x; q = p; r = p; *p = q; q = *p; s = *p; s = &y`: value numbering merges copies, `q` is in
an offline cycle with `*p`, and two loads are factored. -/
def readTwice : Anders :=
  .initial 9 4 (fieldlessObjects 4) [⟨.addrOf, 5, 3, 0⟩, ⟨.copy, 6, 5, 0⟩, ⟨.copy, 7, 5, 0⟩,
    ⟨.store, 5, 6, 0⟩, ⟨.load, 6, 5, 0⟩, ⟨.load, 8, 5, 0⟩, ⟨.addrOf, 8, 4, 0⟩]

theorem optimized_exact_loads : ∃ t s,
    optimize inOrder (Process.fresh (W := Unit)).off readTwice = .ok t ∧
    runSolver (Lists true PrioHeap) (.uniform false) 40 t.1 = .ok (.done s) ∧
    t.1.size = 10 ∧ t.1.rep 7 = 5 ∧ t.1.hv 5 = 6 ∧
    ∀ n < 9, ∀ o, o ∈ s.pts (s.rep n) ↔ readTwice.Flow (fun _ => False) n o := by
  have hrun : (do
      let t ← optimize inOrder (Process.fresh (W := Unit)).off readTwice
      let l ← runSolver (Lists true PrioHeap) (.uniform false) 40 t.1
      return (t, l) : Run ((Anders × OffGraph) × Loop (Lists true PrioHeap))).toOption.any (fun u =>
        !u.2.isMore && decide (u.2.state.cascades = []) &&
          decide (u.1.1.size = 10 ∧ u.1.1.rep 7 = 5 ∧ u.1.1.hv 5 = 6)) = true := by decide +kernel
  obtain ⟨u, hu, hp⟩ := any_ok hrun
  obtain ⟨t, ht, hu⟩ := bind_ok.mp hu
  obtain ⟨l, hl, hu⟩ := bind_ok.mp hu
  cases hu
  simp only [Bool.and_eq_true, decide_eq_true_eq, Bool.not_eq_true'] at hp
  obtain ⟨⟨hdone, hquiet⟩, hsize, hrep, hv⟩ := hp
  have hplain : readTwice.Plain (.uniform false) :=
    fieldless_plain (by decide) (by decide) (by decide) (by decide) (by decide)
  have hreach : readTwice.StoresReach fun _ => False := fun C hC htype _ => by
    have hdest : ∀ C ∈ readTwice.constraints, C.type = .store → C.dest = 5 := by decide
    rw [hdest C hC htype]
    exact ⟨3, .addr (C := ⟨.addrOf, 5, 3, 0⟩) (List.mem_cons_self ..) rfl, by decide⟩
  cases l with
  | more s => cases hdone
  | done s =>
      refine ⟨t, s, ht, hl, hsize, hrep, hv, fun n hn o => ?_⟩
      exact optimized_exact _ _ inOrder inOrder_walks readTwice hplain (fun _ => rfl)
        (fieldlessObjects_unmarked 4) hreach _ rfl t ht 40 s hl hquiet n hn o

end PtrAnalysis
