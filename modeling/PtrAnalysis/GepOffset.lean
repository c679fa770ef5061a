import PtrAnalysis.StructInfo

/-!
# Offsets of GEPs

A GEP walks from the type its pointer points to into arrays and structs. `Addresses` is
that walk with the number of leaves it steps over; `gepOff` adds up the entries of the
struct table instead. The two agree, so that the offset of a GEP leaves room for what it
addresses, and offsets tell apart all that does not begin at the same leaf.
-/

namespace PtrAnalysis

section

variable (P : Ir)

/-- Type `U` is reached from type `T` by some indices, `fields` of them numbers of struct
fields, over `o` leaves of `T`. A struct index is a 32-bit constant. -/
inductive Addresses : Ty → List Val → List Nat → Nat → Ty → Prop
  | here (T : Ty) : Addresses T [] [] 0 T
  | element {E U : Ty} {idx : Val} {rest : List Val} {fields : List Nat} {o : Nat}
      (h : Addresses E rest fields o U) : Addresses (.array E) (idx :: rest) fields o U
  | field {F U t : Ty} {s o o' : Nat} {before after : List Ty} {rest : List Val}
      {fields : List Nat} (hs : P.structs s = before ++ F :: after)
      (hlt : before.length < 2 ^ 32) (ho : Leaves P before o)
      (h : Addresses F rest fields o' U) :
      Addresses (.struct s) (.num t before.length :: rest) (before.length :: fields) (o + o') U

end

/-- Field numbers without the zeros at the end, which lead to a first sub-field. -/
def significant : List Nat → List Nat
  | [] => []
  | n :: fields => if n = 0 ∧ significant fields = [] then [] else n :: significant fields

variable {P : Ir} {T U F : Ty} {rest rest' : List Val} {fields fields' : List Nat} {o o' n : Nat}

theorem FilledAll.strip (h : FilledAll P [.array T]) : FilledAll P [T] := by
  intro V hV s hs
  rw [List.mem_singleton.mp hV] at hs
  exact h (.array T) (List.mem_singleton_self _) s hs

theorem FilledAll.filled {s : Nat} (h : FilledAll P [T]) (hT : T.strip = .struct s) :
    Filled P s := h T (List.mem_singleton_self _) s hT

theorem Filled.field {s : Nat} {before after : List Ty} (h : Filled P s)
    (hs : P.structs s = before ++ F :: after) : FilledAll P before ∧ FilledAll P [F] := by
  have hall := h.elements
  rw [hs] at hall
  constructor
  · exact fun V hV => hall V (List.mem_append_left _ hV)
  · intro V hV
    rw [List.mem_singleton.mp hV]
    exact hall F (List.mem_append_right _ (List.mem_cons_self ..))

/-- An array has the leaves of its elements. -/
theorem Leaves.element (h : Leaves P [.array T] n) : Leaves P [T] n := by
  cases h with
  | simple hT h => exact .simple hT h
  | struct hT hs h => exact .struct hT hs h

/-! ## The walk -/

namespace Addresses

/-- What is addressed lies behind the leaves stepped over, inside the whole. -/
theorem fits (h : Addresses P T rest fields o U) (hn : Leaves P [T] n) :
    ∃ k, Leaves P [U] k ∧ o + k ≤ n := by
  induction h generalizing n with
  | here T => exact ⟨n, hn, by omega⟩
  | element _ ih => exact ih hn.element
  | @field F U t s o o' before after rest fields hs _ ho _ ih =>
      have hall := hn.struct_leaves rfl
      rw [hs] at hall
      obtain ⟨m, k, hm, hk, rfl⟩ := hall.split
      obtain rfl := ho.unique hm
      obtain ⟨k1, k2, h1, -, rfl⟩ := hk.uncons
      obtain ⟨l, hl, hle⟩ := ih h1
      exact ⟨l, hl, by omega⟩

theorem filled (h : Addresses P T rest fields o U) (hfill : FilledAll P [T]) :
    FilledAll P [U] := by
  induction h with
  | here T => exact hfill
  | element _ ih => exact ih hfill.strip
  | field hs _ _ _ ih => exact ih ((hfill.filled rfl).field hs).2

/-- Only a struct has structs inside. -/
theorem struct_of_struct {u : Nat} (h : Addresses P T rest fields o U)
    (hU : U.strip = .struct u) : ∃ s, T.strip = .struct s := by
  induction h with
  | here T => exact ⟨u, hU⟩
  | element _ ih => exact ih hU
  | field => exact ⟨_, rfl⟩

/-- A struct that is addressed begins at the leaf of the offset. -/
theorem beginsAt {s u : Nat} (h : Addresses P T rest fields o U) (hT : T.strip = .struct s)
    (hU : U.strip = .struct u) : BeginsAt P s o u := by
  induction h generalizing s with
  | here T =>
      obtain rfl := Ty.struct.inj (hT.symm.trans hU)
      exact .self _
  | element _ ih => exact ih hT hU
  | field hs _ ho h ih =>
      obtain rfl := Ty.struct.inj hT
      obtain ⟨s1, hs1⟩ := h.struct_of_struct hU
      exact .field hs ho hs1 (ih hs1 hU)

/-- Offset 0 is reached through first fields only. -/
theorem significant_zero (h : Addresses P T rest fields o U) (hfill : FilledAll P [T])
    (h0 : o = 0) : significant fields = [] := by
  induction h with
  | here T => rfl
  | element _ ih => exact ih hfill.strip h0
  | @field F U t s o o' before after rest fields hs _ ho _ ih =>
      obtain ⟨hbefore, hF⟩ := (hfill.filled rfl).field hs
      have hnil : before = [] := by
        by_contra hne
        have := ho.pos hne hbefore
        omega
      rw [significant, if_pos]
      exact ⟨by rw [hnil]; rfl, ih hF (by omega)⟩

/-- A field ends before a later one begins. -/
theorem before_later {s o1 o2 : Nat} {b1 a1 b2 a2 : List Ty} {F2 : Ty}
    (h : Addresses P F rest fields o U) (hfill : FilledAll P [F])
    (hs1 : P.structs s = b1 ++ F :: a1) (hs2 : P.structs s = b2 ++ F2 :: a2)
    (ho1 : Leaves P b1 o1) (ho2 : Leaves P b2 o2) (hlt : b1.length < b2.length) :
    o1 + o < o2 := by
  obtain ⟨mid, hmid⟩ : ∃ mid, b2 = b1 ++ F :: mid := by
    rcases List.append_eq_append_iff.mp (hs1.symm.trans hs2) with ⟨l, rfl, hl⟩ | ⟨l, rfl, -⟩
    · cases l with
      | nil => simp at hlt
      | cons V mid => exact ⟨mid, by rw [(List.cons.inj hl).1]⟩
    · rw [List.length_append] at hlt
      omega
  subst hmid
  obtain ⟨m, k, hm, hk, rfl⟩ := ho2.split
  obtain rfl := ho1.unique hm
  obtain ⟨k1, k2, h1, -, rfl⟩ := hk.uncons
  obtain ⟨l, hl, hle⟩ := h.fits h1
  have := hl.pos (by simp) (h.filled hfill)
  omega

/-- Walks to the same leaf go through the same fields, but for first ones at the end. -/
theorem significant_eq {U' : Ty} (h : Addresses P T rest fields o U)
    (h' : Addresses P T rest' fields' o' U') (hfill : FilledAll P [T]) (heq : o = o') :
    significant fields = significant fields' := by
  induction h generalizing rest' fields' o' with
  | here T => rw [h'.significant_zero hfill heq.symm, significant]
  | element h ih =>
      cases h' with
      | here => rw [h.significant_zero hfill.strip heq, significant]
      | element h' => exact ih h' hfill.strip heq
  | @field F U t s o1 o2 before after rest fields hs hlt ho h ih =>
      cases h' with
      | here =>
          rw [(Addresses.field (t := t) hs hlt ho h).significant_zero hfill heq, significant]
      | @field F' U' t' s o1' o2' before' after' rest' fields' hs' hlt' ho' h' =>
          have hF := ((hfill.filled rfl).field hs).2
          have hF' := ((hfill.filled rfl).field hs').2
          rcases Nat.lt_trichotomy before.length before'.length with hl | hl | hl
          · have := h.before_later hF hs hs' ho ho' hl
            omega
          · obtain ⟨rfl, htail⟩ := List.append_inj (hs.symm.trans hs') hl
            obtain ⟨rfl, -⟩ := List.cons.inj htail
            obtain rfl := ho.unique ho'
            rw [significant, significant, ih h' hF (by omega)]
          · have := h'.before_later hF' hs' hs ho' ho hl
            omega

end Addresses

/-! ## What the code computes -/

open Run Act

namespace Gen

theorem getStructOff_total {s : Nat} (hn : Leaves P (P.structs s) n) (hfill : Filled P s) :
    ∃ N, ∀ fuel, N ≤ fuel → ∀ g, Known P g.structInfo → Ends (getStructOff P fuel s)
      (fun so g' => Known P g'.structInfo ∧ ∃ sz, g'.structInfo s = some (sz, so)) g := by
  obtain ⟨N, hN⟩ := analyzeStruct_total hn hfill
  refine ⟨N, fun fuel hle g hg => ?_⟩
  have hread : ∀ g' : Gen, Known P g'.structInfo → (g'.structInfo s).isSome →
      Known P g'.structInfo ∧
        ∃ sz, g'.structInfo s = some (sz, ((g'.structInfo s).getD ([], [])).2) := by
    intro g' hg' hs
    obtain ⟨t, ht⟩ := Option.isSome_iff_exists.mp hs
    exact ⟨hg', t.1, by rw [ht, Option.getD_some]⟩
  unfold getStructOff
  simp only [ends_bind, ends_get, ends_ite, ends_pure]
  constructor
  · intro _
    apply (((structs_known P fuel).1 s g hg).ends (hN fuel hle g hg)).imp
    rintro _ g' ⟨hg', hs⟩
    exact hread g' hg' hs
  · intro hsome
    exact hread g hg (by simpa [Option.isNone_iff_eq_none, Option.isSome_iff_ne_none] using hsome)

/-- The offset is the number of leaves stepped over, by induction on the walk. -/
theorem gepOff_addresses (h : Addresses P T rest fields o U) (hn : Leaves P [T] n)
    (hfill : FilledAll P [T]) :
    ∃ N, ∀ fuel, N ≤ fuel → ∀ acc g, Known P g.structInfo → Ends (gepOff P fuel T rest acc)
      (fun off g' => off = acc + o ∧ Known P g'.structInfo) g := by
  induction h generalizing n with
  | here T =>
      refine ⟨0, fun fuel _ acc g hg => ?_⟩
      rw [gepOff, ends_pure]
      exact ⟨rfl, hg⟩
  | element _ ih =>
      obtain ⟨N, hN⟩ := ih hn.element hfill.strip
      refine ⟨N, fun fuel hle acc g hg => ?_⟩
      exact hN fuel hle acc g hg
  | @field F U t s o o' before after rest fields hs hlt ho h ih =>
      obtain ⟨N1, hN1⟩ := getStructOff_total (hn.struct_leaves rfl) (hfill.filled rfl)
      have hF : ∃ k, Leaves P [F] k := by
        have hall := hn.struct_leaves rfl
        rw [hs] at hall
        obtain ⟨-, k, -, hk, -⟩ := hall.split
        obtain ⟨k1, -, h1, -⟩ := hk.uncons
        exact ⟨k1, h1⟩
      obtain ⟨k, hk⟩ := hF
      obtain ⟨N2, hN2⟩ := ih hk ((hfill.filled rfl).field hs).2
      refine ⟨max N1 N2, fun fuel hle acc g hg => ?_⟩
      rw [gepOff, ends_bind]
      apply (hN1 fuel (by omega) g hg).imp
      rintro so g' ⟨hg', sz, hsz⟩
      -- the entry of the field is the number of leaves before it
      have hvec := (hg' s _ hsz).1
      have hlen : before.length < so.length := by
        rw [hvec.fields, hs]
        simp
      have hso : so.getD before.length 0 = o := by
        have hoff := hvec.offsets before.length so[before.length] (List.getElem?_eq_getElem hlen)
        rw [hs, List.take_left' rfl] at hoff
        rw [List.getD_eq_getElem?_getD, List.getElem?_eq_getElem hlen]
        exact hoff.unique ho
      have hfield : (P.structs s).getD before.length .other = F := by
        rw [hs]
        simp
      simp only [Nat.mod_eq_of_lt hlt, ends_bind, ends_lift, require_ok]
      refine ⟨(), hlen, ?_⟩
      rw [hso, hfield]
      apply (hN2 fuel (by omega) (acc + o) g' hg').imp
      rintro off g2 ⟨rfl, hg2⟩
      exact ⟨Nat.add_assoc .., hg2⟩

/-- A GEP that walks from a type of `n` leaves, all structs in it filled, gets the number of
leaves it steps over as its offset. What it addresses ends inside the whole, and the size
entered for the leaf at the offset covers it. GEPs of the same offset address the same leaf,
but for array elements and first sub-fields. -/
theorem computeGepOff_addresses (P : Ir) (base idx : Val) (rest : List Val) (fields : List Nat)
    (o n : Nat) (U : Ty) (h : Addresses P (P.typeOf base).contained rest fields o U)
    (hn : Leaves P [(P.typeOf base).contained] n)
    (hfill : FilledAll P [(P.typeOf base).contained]) :
    (∃ N, ∀ fuel, N ≤ fuel → ∀ g, Known P g.structInfo →
      ∃ g', computeGepOff P fuel (base :: idx :: rest) g = .ok (o, g') ∧ Known P g'.structInfo) ∧
    (∃ k, Leaves P [U] k ∧ o + k ≤ n ∧
      ∀ s t, (P.typeOf base).contained.strip = .struct s → Vectors P s t →
        t.1.length = n ∧ ∃ m, t.1[o]? = some m ∧ k ≤ m) ∧
    ∀ rest' fields' o' U', Addresses P (P.typeOf base).contained rest' fields' o' U' → o = o' →
      significant fields = significant fields' := by
  obtain ⟨k, hk, hle⟩ := h.fits hn
  refine ⟨?_, ⟨k, hk, hle, fun s t hs ht => ?_⟩, fun rest' fields' o' U' h' heq =>
    h.significant_eq h' hfill heq⟩
  · obtain ⟨N, hN⟩ := gepOff_addresses h hn hfill
    refine ⟨N, fun fuel hle g hg => ?_⟩
    obtain ⟨off, g', hrun, hoff, hg'⟩ := hN fuel hle 0 g hg
    rw [Nat.zero_add] at hoff
    subst hoff
    exact ⟨g', hrun, hg'⟩
  · have hlen : t.1.length = n := ht.leaves.unique (hn.struct_leaves hs)
    have hpos := hk.pos (by simp) (h.filled hfill)
    have hlt : o < t.1.length := by omega
    refine ⟨hlen, t.1[o], List.getElem?_eq_getElem hlt, ?_⟩
    have hlargest := ht.largest o _ (List.getElem?_eq_getElem hlt)
    cases hk with
    | simple hU hnil =>
        cases hnil
        exact hlargest.pos (hfill.filled hs)
    | struct hU hu hnil =>
        cases hnil
        exact hlargest.1 _ _ (h.beginsAt hs hU) hu

/-- The pointer of the second pair in the array of a list head. -/
theorem computeGepOff_addresses_nested :
    ∃ N, ∀ fuel, N ≤ fuel → ∀ g, Known listHead g.structInfo →
      ∃ g', computeGepOff listHead fuel [.null (.ptr (.struct 1)), .num .int 0, .num .int 1,
        .num .int 1, .num .int 1] g = .ok (3, g') ∧ Known listHead g'.structInfo := by
  have hsimple : ∀ {T : Ty}, (∀ s, T.strip ≠ .struct s) → Leaves listHead [T] 1 := .one
  have hwalk : Addresses listHead (.struct 1) [.num .int 1, .num .int 1, .num .int 1] [1, 1] 3
      (.ptr .other) := by
    have h0 : Leaves listHead [.struct 0] 2 :=
      .struct rfl (.simple (by simp [Ty.strip]) (hsimple (by simp [Ty.strip]))) .nil
    have hpair : listHead.structs 0 = [.int] ++ .ptr .other :: [] := rfl
    have hhead : listHead.structs 1 = [.struct 0] ++ .array (.struct 0) :: [.ptr .other] := rfl
    have hlast : Addresses listHead (.struct 0) [.num .int 1] [1] 1 (.ptr .other) :=
      .field hpair (by decide) (hsimple (by simp [Ty.strip])) (.here _)
    exact .field hhead (by decide) h0 (.element hlast)
  have hfill : FilledAll listHead [.struct 1] := by
    intro T hT s hs
    rw [List.mem_singleton.mp hT] at hs
    obtain rfl := Ty.struct.inj hs
    exact listHead_filled
  exact (computeGepOff_addresses listHead (.null (.ptr (.struct 1))) (.num .int 0) _ _ _ 5 _ hwalk
    (.struct rfl listHead_leaves .nil) hfill).1

end Gen

end PtrAnalysis
