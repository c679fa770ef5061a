import PtrAnalysis.Blocks

/-!
# The object of an address-taken function

A function that may be called through a pointer has its return node and its parameters in
one object behind the node of the function. The parameters up to the last pointer have
their nodes there, at the offsets that indirect calls use.
-/

namespace PtrAnalysis

open Run Act

namespace Gen

section

variable {P : Ir} {fuel f : Nat}

/-- Function `f` has a parameter that is a pointer. -/
def HasPtrParam (P : Ir) (f : Nat) : Prop :=
  ∃ j < (P.func f).params.length, P.isPtr (.arg f j) = true

/-- The object of `f` starts at node `onF`, with its return node and its parameters behind it. -/
structure TakenFunc (P : Ir) (f : Nat) (g : Gen) (onF : Nat) : Prop where
  special : i2p < onF
  obj : g.objNode (.func f) = some onF
  plain : g.retNode f = none
  arg : ∀ j < (P.func f).params.length, g.valNode (.arg f j) = some (onF + funcNodeOffArg0 + j)
  func : (g.nodes.getD onF {}).val = some (.func f)
  ret : funcNodeOffRet < g.objSz onF
  reach : ∀ j < (P.func f).params.length, P.isPtr (.arg f j) = true →
    funcNodeOffArg0 + j < g.objSz onF
  node : ∀ j, funcNodeOffArg0 + j < g.objSz onF → j < (P.func f).params.length ∧
    (g.nodes.getD (onF + funcNodeOffArg0 + j) {}).val = some (.arg f j)
  inside : onF + g.objSz onF ≤ g.nodes.length

/-! ## The last pointer parameter -/

theorem lastPtr_none (h : ¬ HasPtrParam P f) : lastPtr P f = 2 ^ 32 - 1 := by
  unfold lastPtr
  have hno : ∀ i ∈ List.range (P.func f).params.length, ¬ P.isPtr (.arg f i) = true :=
    fun i hi hptr => h ⟨i, List.mem_range.mp hi, hptr⟩
  generalize List.range (P.func f).params.length = l at hno
  generalize 2 ^ 32 - 1 = last
  induction l with
  | nil => rfl
  | cons i l ih =>
      rw [List.foldl_cons, if_neg (hno i (by simp))]
      exact ih fun j hj => hno j (by simp [hj])

theorem lastPtr_spec (h : HasPtrParam P f) : lastPtr P f < (P.func f).params.length ∧
    ∀ j < (P.func f).params.length, P.isPtr (.arg f j) = true → j ≤ lastPtr P f := by
  have hloop : ∀ n last, (∃ j < n, P.isPtr (.arg f j) = true) →
      (List.range n).foldl (fun last i => if P.isPtr (.arg f i) then i else last) last < n ∧
      ∀ j < n, P.isPtr (.arg f j) = true →
        j ≤ (List.range n).foldl (fun last i => if P.isPtr (.arg f i) then i else last) last := by
    intro n last
    induction n with
    | zero => simp
    | succ n ih =>
        rintro ⟨j, hj, hptr⟩
        rw [List.range_succ, List.foldl_append, List.foldl_cons, List.foldl_nil]
        split
        · exact ⟨by omega, fun k hk _ => by omega⟩
        · rename_i hn
          have hlt : ∀ k < n + 1, P.isPtr (.arg f k) = true → k < n := by
            intro k hk hkptr
            rcases Nat.lt_succ_iff_lt_or_eq.mp hk with hk | rfl
            · exact hk
            · exact absurd hkptr hn
          obtain ⟨h1, h2⟩ := ih ⟨j, hlt j hj hptr, hptr⟩
          exact ⟨by omega, fun k hk hkptr => h2 k (hlt k hk hkptr) hkptr⟩
  exact hloop _ _ h

/-! ## The layout -/

/-- The parameters get their nodes, and nothing else changes. -/
theorem setArgs_ends (onF : Nat) (as : List Nat) (g : Gen) :
    Ends (as.forM fun i => do
        setValNode (.arg f i) (onF + funcNodeOffArg0 + i)
        modify fun g => { g with atArgs := insert (.arg f i) g.atArgs })
      (fun _ g' => (∀ i ∈ as, g'.valNode (.arg f i) = some (onF + funcNodeOffArg0 + i)) ∧
        (∀ v, (∀ i ∈ as, v ≠ .arg f i) → g'.valNode v = g.valNode v) ∧
        g'.objNode = g.objNode ∧ g'.retNode = g.retNode ∧ g'.nodes = g.nodes ∧
        g'.nextNode = g.nextNode) g := by
  induction as generalizing g with
  | nil => exact ends_pure.mpr (by simp)
  | cons i as ih =>
      change Ends (_ >>= fun _ => as.forM _) _ g
      rw [ends_bind, ends_bind, setValNode, ends_modify, ends_modify]
      apply (ih _).imp
      rintro _ g' ⟨hin, hout, hrest⟩
      refine ⟨fun j hj => ?_, fun v hv => ?_, hrest⟩
      · by_cases hj' : j ∈ as
        · exact hin j hj'
        · obtain rfl : j = i := (List.mem_cons.mp hj).resolve_right hj'
          rw [hout _ fun k hk h => hj' (by cases h; exact hk)]
          exact Function.update_self ..
      · rw [hout v fun k hk => hv k (List.mem_cons_of_mem _ hk)]
        exact Function.update_of_ne (hv i (List.mem_cons_self ..)) _ _

theorem ends_pushAll {α : Type} {as : List α} {f : α → GenNode} {Q : Unit → Gen → Prop} {g : Gen} :
    Ends (as.forM fun a => pushNode (f a)) Q g ↔ Q () { g with nodes := g.nodes ++ as.map f } := by
  induction as generalizing g with
  | nil =>
      rw [List.map_nil, List.append_nil]
      exact ends_pure
  | cons a as ih =>
      change Ends (pushNode (f a) >>= fun _ => as.forM fun a => pushNode (f a)) Q g ↔ _
      rw [ends_bind, pushNode, ends_modify, ih]
      simp

/-- The object of a function whose first `k` parameters have nodes in it. -/
theorem TakenFunc.laidOut {g : Gen} {l : List GenNode} {k : Nat} (hspecial : i2p < l.length)
    (hobj : g.objNode (.func f) = some l.length) (hplain : g.retNode f = none)
    (harg : ∀ j < (P.func f).params.length,
      g.valNode (.arg f j) = some (l.length + funcNodeOffArg0 + j))
    (hk : k ≤ (P.func f).params.length)
    (hreach : ∀ j < (P.func f).params.length, P.isPtr (.arg f j) = true → j < k)
    (hnodes : g.nodes = l ++ ⟨some (.func f), funcNodeOffArg0 + k, false⟩ ::
      ⟨some (.func f), 1, false⟩ :: (List.range k).map fun i => ⟨some (.arg f i), 1, false⟩) :
    TakenFunc P f g l.length := by
  have hfirst : g.nodes.getD l.length {} = ⟨some (.func f), funcNodeOffArg0 + k, false⟩ := by
    rw [hnodes]
    simp
  have hsz : g.objSz l.length = funcNodeOffArg0 + k := by rw [objSz, hfirst]
  refine ⟨hspecial, hobj, hplain, harg, by rw [hfirst], by simp only [hsz, funcNodeOffRet, funcNodeOffArg0]; omega,
    fun j hj hptr => ?_, fun j hj => ?_, ?_⟩
  · have := hreach j hj hptr
    omega
  · have hjk : j < k := by omega
    refine ⟨by omega, ?_⟩
    rw [hnodes, List.getD_eq_getElem?_getD, List.getElem?_append_right (by omega),
      show l.length + funcNodeOffArg0 + j - l.length = j + 1 + 1 by simp [funcNodeOffArg0]; omega]
    simp [hjk]
  · rw [hsz, hnodes]
    simp [funcNodeOffArg0]
    omega

/-- The object of `f` is made if it has a pointer parameter, or else if there is none to be
numbered by all ones. -/
theorem idTakenFunc_ends {g : Gen} {l : List GenNode} (hlen : (P.func f).params.length < 2 ^ 32)
    (hbits : 32 ≤ P.ulongBits) (hva : (P.func f).isVarArg = false) (hspecial : i2p < l.length)
    (hcount : g.nextNode = g.nodes.length) (hobj : g.objNode (.func f) = some l.length)
    (hplain : g.retNode f = none) (hnodes : g.nodes = l ++ [⟨some (.func f), 1, false⟩])
    (hok : HasPtrParam P f ∨ P.ulongBits = 32) :
    Ends (idTakenFunc P f l.length) (fun _ g' => TakenFunc P f g' l.length) g := by
  have hmodify : ∀ (sz : Nat) (body : List GenNode),
      (l ++ ⟨some (.func f), 1, false⟩ :: body).modify l.length
        (fun N => { N with objSz := sz }) = l ++ ⟨some (.func f), sz, false⟩ :: body := by
    intro sz body
    rw [List.modify_eq_take_cons_drop (by simp)]
    simp
  unfold idTakenFunc
  rw [ends_bind]
  apply (setArgs_ends l.length _ g).imp
  rintro _ g1 ⟨hin, -, hobj1, hret1, hnodes1, hnext1⟩
  have harg : ∀ j < (P.func f).params.length,
      g1.valNode (.arg f j) = some (l.length + funcNodeOffArg0 + j) := fun j hj =>
    hin j (List.mem_range.mpr hj)
  have hnext : g1.nextNode = l.length + funcNodeOffRet := by
    rw [hnext1, hcount, hnodes]
    simp [funcNodeOffRet]
  have hg1 : g1.nodes = l ++ [⟨some (.func f), 1, false⟩] := hnodes1.trans hnodes
  simp only [pushNodes, bump, ends_bind, ends_get, ends_lift, ends_modify, hva, Bool.false_eq_true,
    if_false, require_ok, hnext, exists_const, ends_ite]
  refine ⟨trivial, by simp [funcNodeOffArg0, funcNodeOffRet], fun hall => ?_, fun hall => ?_⟩
  · have hptr : HasPtrParam P f := by
      refine hok.elim id fun h32 => ?_
      by_contra hno
      exact hall (by rw [lastPtr_none hno, allOnes, h32])
    obtain ⟨hlt, hle⟩ := lastPtr_spec hptr
    simp only [inRange_ok, hlt, exists_const, ends_pushAll, true_and]
    refine .laidOut hspecial (hobj1 ▸ hobj) (hret1 ▸ hplain) harg (k := lastPtr P f + 1) (by omega)
      (fun j hj hptr => by have := hle j hj hptr; omega) ?_
    simp [hg1, hmodify]
    simp [funcNodeOffArg0, funcNodeOffRet]
    omega
  · have hno : ¬ HasPtrParam P f := by
      intro hptr
      obtain ⟨hlt, -⟩ := lastPtr_spec hptr
      have hbig : 2 ^ 32 - 1 ≤ allOnes P := by
        have := Nat.pow_le_pow_right (n := 2) (by decide) hbits
        unfold allOnes
        omega
      simp only [ne_eq, Decidable.not_not] at hall
      omega
    refine .laidOut hspecial (hobj1 ▸ hobj) (hret1 ▸ hplain) harg (k := 0) (by omega)
      (fun j hj hptr => absurd ⟨j, hj, hptr⟩ hno) ?_
    simp [hg1, hmodify]
    simp [funcNodeOffArg0, funcNodeOffRet]
    omega

/-- Without a pointer parameter the object is not made where `unsigned long` is wider. -/
theorem idTakenFunc_stops {g : Gen} {onF : Nat} (hlen : (P.func f).params.length < 2 ^ 32)
    (hbits : 32 ≤ P.ulongBits) (h : Ends (idTakenFunc P f onF) (fun _ _ => True) g) :
    HasPtrParam P f ∨ P.ulongBits = 32 := by
  by_contra hno
  obtain ⟨hptr, h32⟩ := not_or.mp hno
  have hlast := lastPtr_none hptr
  have hne : lastPtr P f ≠ allOnes P := by
    have := Nat.pow_le_pow_right (n := 2) (by decide) (show 33 ≤ P.ulongBits by omega)
    unfold allOnes
    omega
  unfold idTakenFunc at h
  rw [ends_bind] at h
  obtain ⟨_, g1, -, h⟩ := h
  simp only [pushNodes, bump, ends_bind, ends_get, ends_lift, ends_modify, ends_ite] at h
  obtain ⟨-, -, -, -, htaken, -⟩ := h
  obtain ⟨_, hin, -⟩ := htaken hne
  have hlt := inRange_ok.mp hin
  omega

/-- A function of the program whose address is taken is laid out exactly if it has a pointer
parameter or `unsigned long` has 32 bits. -/
theorem idFunc_ends {g : Gen} {Q : Unit → Gen → Prop} (hlen : (P.func f).params.length < 2 ^ 32)
    (hbits : 32 ≤ P.ulongBits) (hext : P.isExt f = false) (hmain : (P.func f).name ≠ "main")
    (hva : (P.func f).isVarArg = false) (htaken : P.escapes fuel (.func f) = .ok true)
    (hcount : g.nextNode = g.nodes.length) (hspecial : i2p < g.nextNode)
    (hplain : g.retNode f = none) (hQ : ∀ g', TakenFunc P f g' (g.nextNode + 1) → Q () g') :
    Ends (idFunc P fuel f) Q g ↔ HasPtrParam P f ∨ P.ulongBits = 32 := by
  have honF : g.nextNode + 1 = (g.nodes ++ [({ val := some (.func f) } : GenNode)]).length := by
    simp [hcount]
  have hcons : ∀ {g1 : Gen} {Q : Unit → Gen → Prop},
      Ends (cons .addrOf g.nextNode (g.nextNode + 1)) Q g1 ↔
        Q () { g1 with constraints := g1.constraints ++ [⟨.addrOf, g.nextNode, g.nextNode + 1, 0⟩] } := by
    intro g1 Q
    simp only [cons, ends_bind, ends_get, ends_lift, ends_modify,
      addCons_addrOf (Nat.succ_ne_zero _) (Nat.ne_of_gt (Nat.zero_lt_of_lt hspecial))
        (Nat.ne_of_gt hspecial)]
    simp
  unfold idFunc
  simp only [ends_bind, ends_lift, htaken, Except.ok.injEq, exists_eq_left', ends_ite, takeNode, bump,
    pushNode, setValNode, setObjNode, ends_get, ends_modify, ends_pure, hcons, hext, hmain]
  simp only [Bool.false_eq_true, false_imp_iff, true_imp_iff, not_true, not_false_eq_true, true_and,
    and_true]
  constructor
  · intro h
    exact idTakenFunc_stops hlen hbits (h.imp fun _ _ _ => trivial)
  · intro hok
    rw [honF]
    refine (idTakenFunc_ends hlen hbits hva ?_ ?_ ?_ ?_ ?_ hok).imp fun _ g' h => hQ g' (honF ▸ h)
    · rw [← honF]
      omega
    · simp
    · simp
    · exact hplain
    · simp

end

end Gen

end PtrAnalysis
