import Mathlib.Logic.Relation
import PtrAnalysis.Ir

/-!
# Expanded structs

What the vectors of `struct_info` describe. A struct is expanded into its leaves: an
array counts as one element, and a field of struct type stands for the leaves of that
struct. `Leaves` counts them, by a derivation that is as deep as the structs are
nested; `BeginsAt` finds the structs that begin at a leaf.
-/

namespace PtrAnalysis

section

variable (P : Ir)

/-- Fields of the given types expand to `n` leaves. -/
inductive Leaves : List Ty → Nat → Prop
  | nil : Leaves [] 0
  | simple {T : Ty} {Ts : List Ty} {n : Nat} (hT : ∀ s, T.strip ≠ .struct s) (h : Leaves Ts n) :
      Leaves (T :: Ts) (1 + n)
  | struct {T : Ty} {Ts : List Ty} {s m n : Nat} (hT : T.strip = .struct s)
      (hs : Leaves (P.structs s) m) (h : Leaves Ts n) : Leaves (T :: Ts) (m + n)

/-- Struct `s'` is embedded in struct `s` and its expansion begins at leaf `i`. -/
inductive BeginsAt : Nat → Nat → Nat → Prop
  | self (s : Nat) : BeginsAt s 0 s
  | field {s s' s1 i o : Nat} {T : Ty} {before after : List Ty}
      (hs : P.structs s = before ++ T :: after) (ho : Leaves P before o)
      (hT : T.strip = .struct s1) (h : BeginsAt s1 i s') : BeginsAt s (o + i) s'

/-- Struct `s'` begins at leaf `i` of the given fields. -/
def BeginsIn (Ts : List Ty) (i s' : Nat) : Prop :=
  ∃ before T after o s1 j, Ts = before ++ T :: after ∧ Leaves P before o ∧ T.strip = .struct s1 ∧
    BeginsAt P s1 j s' ∧ i = o + j

/-- Struct `s'` is the type of an element of struct `s`, or of the elements of an array
there. -/
def Holds (s s' : Nat) : Prop := ∃ T ∈ P.structs s, T.strip = .struct s'

/-- Every struct embedded in `s`, and `s` itself, has an element. -/
def Filled (s : Nat) : Prop := ∀ s', Relation.ReflTransGen (Holds P) s s' → P.structs s' ≠ []

/-- Every struct among the types is filled. -/
def FilledAll (Ts : List Ty) : Prop := ∀ T ∈ Ts, ∀ s, T.strip = .struct s → Filled P s

end

variable {P : Ir} {Ts Us : List Ty} {m n : Nat}

/-! ## Counting -/

namespace Leaves

theorem unique (h : Leaves P Ts m) (h' : Leaves P Ts n) : m = n := by
  induction h generalizing n with
  | nil =>
      cases h'
      rfl
  | simple hT _ ih =>
      cases h' with
      | simple _ h' => rw [ih h']
      | struct hT' _ _ => exact absurd hT' (hT _)
  | struct hT _ _ ihs ih =>
      cases h' with
      | simple hT' _ => exact absurd hT (hT' _)
      | struct hT' hs' h' =>
          obtain rfl := Ty.struct.inj (hT.symm.trans hT')
          rw [ihs hs', ih h']

theorem append (h : Leaves P Ts m) (h' : Leaves P Us n) : Leaves P (Ts ++ Us) (m + n) := by
  induction h with
  | nil =>
      rw [Nat.zero_add]
      exact h'
  | simple hT _ ih =>
      rw [Nat.add_assoc]
      exact .simple hT ih
  | struct hT hs _ _ ih =>
      rw [Nat.add_assoc]
      exact .struct hT hs ih

/-- The leaves of the first fields, and those of the others. -/
theorem split (h : Leaves P (Ts ++ Us) n) : ∃ m k, Leaves P Ts m ∧ Leaves P Us k ∧ n = m + k := by
  induction Ts generalizing n with
  | nil => exact ⟨0, n, .nil, h, (Nat.zero_add n).symm⟩
  | cons T Ts ih =>
      cases h with
      | simple hT h =>
          obtain ⟨m, k, hm, hk, rfl⟩ := ih h
          exact ⟨1 + m, k, .simple hT hm, hk, (Nat.add_assoc ..).symm⟩
      | struct hT hs h =>
          obtain ⟨m, k, hm, hk, rfl⟩ := ih h
          exact ⟨_ + m, k, .struct hT hs hm, hk, (Nat.add_assoc ..).symm⟩

theorem uncons {T : Ty} (h : Leaves P (T :: Ts) n) :
    ∃ m k, Leaves P [T] m ∧ Leaves P Ts k ∧ n = m + k := by
  rw [← List.singleton_append] at h
  exact h.split

/-- A field that is no struct is one leaf. -/
theorem one {T : Ty} (hT : ∀ s, T.strip ≠ .struct s) : Leaves P [T] 1 := .simple hT .nil

/-- A field of struct type has its leaves. -/
theorem of_struct {T : Ty} {s : Nat} (hT : T.strip = .struct s) (h : Leaves P (P.structs s) n) :
    Leaves P [T] n := .struct hT h .nil

theorem struct_leaves {T : Ty} {s : Nat} (hT : T.strip = .struct s) (h : Leaves P [T] n) :
    Leaves P (P.structs s) n := by
  cases h with
  | simple hT' _ => exact absurd hT (hT' s)
  | struct hT' hs h =>
      obtain rfl := Ty.struct.inj (hT.symm.trans hT')
      cases h
      exact hs

end Leaves

/-! ## Filled structs -/

theorem Filled.embedded {s s' : Nat} (h : Filled P s) (hs : Holds P s s') : Filled P s' :=
  fun _ h' => h _ (.head hs h')

theorem Filled.elements {s : Nat} (h : Filled P s) : FilledAll P (P.structs s) :=
  fun T hT _ hs => h.embedded ⟨T, hT, hs⟩

theorem filled_iff {s : Nat} : Filled P s ↔ P.structs s ≠ [] ∧ FilledAll P (P.structs s) := by
  constructor
  · intro h
    exact ⟨h s .refl, h.elements⟩
  · rintro ⟨hne, hall⟩ s' hs'
    rcases Relation.ReflTransGen.cases_head hs' with rfl | ⟨s1, ⟨T, hT, hs1⟩, hs'⟩
    · exact hne
    · exact hall T hT s1 hs1 s' hs'

/-- A filled struct has a leaf. -/
theorem Leaves.pos (h : Leaves P Ts n) (hne : Ts ≠ []) (hfill : FilledAll P Ts) : 0 < n := by
  induction h with
  | nil => exact absurd rfl hne
  | simple => omega
  | @struct T Ts s m n hT _ _ ihs _ =>
      obtain ⟨hne', hall⟩ := filled_iff.mp (hfill T (List.mem_cons_self ..) s hT)
      have := ihs hne' hall
      omega

theorem Filled.pos {s : Nat} (hfill : Filled P s) (h : Leaves P (P.structs s) n) : 0 < n :=
  h.pos (filled_iff.mp hfill).1 hfill.elements

/-! ## Where embedded structs begin -/

theorem beginsAt_iff {s i s' : Nat} :
    BeginsAt P s i s' ↔ (i = 0 ∧ s' = s) ∨ BeginsIn P (P.structs s) i s' := by
  constructor
  · intro h
    cases h with
    | self => exact .inl ⟨rfl, rfl⟩
    | field hs ho hT h => exact .inr ⟨_, _, _, _, _, _, hs, ho, hT, h, rfl⟩
  · rintro (⟨rfl, rfl⟩ | ⟨before, T, after, o, s1, j, hs, ho, hT, h, rfl⟩)
    · exact .self _
    · exact .field hs ho hT h

/-- An embedded struct ends inside. -/
theorem BeginsAt.fits {s i s' : Nat} (h : BeginsAt P s i s') (hn : Leaves P (P.structs s) n) :
    ∃ k, Leaves P (P.structs s') k ∧ i + k ≤ n := by
  induction h generalizing n with
  | self => exact ⟨n, hn, by omega⟩
  | field hs ho hT _ ih =>
      rw [hs] at hn
      obtain ⟨m, k, hm, hk, rfl⟩ := hn.split
      obtain rfl := ho.unique hm
      obtain ⟨k1, k2, h1, -, rfl⟩ := hk.uncons
      obtain ⟨l, hl, hle⟩ := ih (h1.struct_leaves hT)
      exact ⟨l, hl, by omega⟩

theorem BeginsAt.filled {s i s' : Nat} (h : BeginsAt P s i s') (hfill : Filled P s) :
    Filled P s' := by
  induction h with
  | self => exact hfill
  | @field s s' s1 i o T before after hs _ hT _ ih =>
      refine ih (hfill.elements T ?_ s1 hT)
      rw [hs]
      exact List.mem_append_right _ (List.mem_cons_self ..)

theorem BeginsIn.fits {i s' : Nat} (h : BeginsIn P Ts i s') (hn : Leaves P Ts n) :
    ∃ k, Leaves P (P.structs s') k ∧ i + k ≤ n := by
  obtain ⟨before, T, after, o, s1, j, rfl, ho, hT, h, rfl⟩ := h
  obtain ⟨m, k, hm, hk, rfl⟩ := hn.split
  obtain rfl := ho.unique hm
  obtain ⟨k1, k2, h1, -, rfl⟩ := hk.uncons
  obtain ⟨l, hl, hle⟩ := h.fits (h1.struct_leaves hT)
  exact ⟨l, hl, by omega⟩

theorem BeginsIn.filled {i s' : Nat} (h : BeginsIn P Ts i s') (hfill : FilledAll P Ts) :
    Filled P s' := by
  obtain ⟨before, T, after, o, s1, j, rfl, -, hT, h, rfl⟩ := h
  exact h.filled (hfill T (List.mem_append_right _ (List.mem_cons_self ..)) s1 hT)

/-- A struct that begins in filled fields begins at one of their leaves. -/
theorem BeginsIn.lt {i s' : Nat} (h : BeginsIn P Ts i s') (hfill : FilledAll P Ts)
    (hn : Leaves P Ts n) : i < n := by
  obtain ⟨k, hk, hle⟩ := h.fits hn
  have := (h.filled hfill).pos hk
  omega

/-- One more field. -/
theorem beginsIn_append {T : Ty} {i s' : Nat} (hn : Leaves P Ts n) :
    BeginsIn P (Ts ++ [T]) i s' ↔
      BeginsIn P Ts i s' ∨ ∃ s1 j, T.strip = .struct s1 ∧ BeginsAt P s1 j s' ∧ i = n + j := by
  constructor
  · rintro ⟨before, U, after, o, s1, j, hsplit, ho, hU, h, rfl⟩
    rcases List.eq_nil_or_concat after with rfl | ⟨after, V, rfl⟩
    · obtain ⟨rfl, hlast⟩ := List.append_inj' hsplit rfl
      obtain ⟨rfl, -⟩ := List.cons.inj hlast
      obtain rfl := ho.unique hn
      exact .inr ⟨s1, j, hU, h, rfl⟩
    · have hsplit' : Ts ++ [T] = (before ++ U :: after) ++ [V] := by simpa using hsplit
      obtain ⟨rfl, -⟩ := List.append_inj' hsplit' rfl
      exact .inl ⟨before, U, after, o, s1, j, rfl, ho, hU, h, rfl⟩
  · rintro (⟨before, U, after, o, s1, j, rfl, ho, hU, h, rfl⟩ | ⟨s1, j, hT, h, rfl⟩)
    · exact ⟨before, U, after ++ [T], o, s1, j, by simp, ho, hU, h, rfl⟩
    · exact ⟨Ts, T, [], n, s1, j, rfl, hn, hT, h, rfl⟩

end PtrAnalysis
