import PtrAnalysis.Expansion
import PtrAnalysis.Gen

/-!
# The table of structs

`analyzeStruct` enters the two vectors of a struct, after those of the structs in it.
`Vectors` says what they are to be. They come out right for exactly the structs in
which no struct without elements is embedded: the size of the whole struct is written
over the first entry, which such a struct does not have.
-/

namespace PtrAnalysis

open Run Act

namespace Gen

section

variable (P : Ir)

/-- `m` is the size of the largest of some structs, 1 if there is none. -/
def Largest (begins : Nat → Prop) (m : Nat) : Prop :=
  (∀ s' k, begins s' → Leaves P (P.structs s') k → k ≤ m) ∧
    ((∃ s', begins s' ∧ Leaves P (P.structs s') m) ∨ m = 1 ∧ ∀ s', ¬ begins s')

/-- The vectors of struct `s`. -/
structure Vectors (s : Nat) (t : List Nat × List Nat) : Prop where
  leaves : Leaves P (P.structs s) t.1.length
  whole : t.1[0]? = some t.1.length
  largest : ∀ i m, t.1[i]? = some m → Largest P (BeginsAt P s i) m
  inside : ∀ i m, t.1[i]? = some m → i + m ≤ t.1.length
  fields : t.2.length = (P.structs s).length
  offsets : ∀ j o, t.2[j]? = some o → Leaves P ((P.structs s).take j) o

/-- Every entry of the table is right, and no entry is there for a struct with an
embedded one that has no elements. -/
def Known (info : Nat → Option (List Nat × List Nat)) : Prop :=
  ∀ s t, info s = some t → Vectors P s t ∧ Filled P s

/-- The vectors for the elements in `done`. -/
structure Expanded (done : List Ty) (sz off : List Nat) : Prop where
  filled : FilledAll P done
  leaves : Leaves P done sz.length
  largest : ∀ i m, sz[i]? = some m → Largest P (BeginsIn P done i) m
  inside : ∀ i m, sz[i]? = some m → i + m ≤ sz.length
  fields : off.length = done.length
  offsets : ∀ j o, off[j]? = some o → Leaves P (done.take j) o

end

variable {P : Ir} {done : List Ty} {sz off : List Nat} {s : Nat}

theorem Known.empty : Known P fun _ => none := fun _ _ h => nomatch h

theorem Largest.congr {begins begins' : Nat → Prop} {m : Nat} (h : Largest P begins m)
    (hb : ∀ s', begins' s' ↔ begins s') : Largest P begins' m := by
  unfold Largest
  simp only [hb]
  exact h

theorem Largest.pos {i m : Nat} (h : Largest P (BeginsAt P s i) m) (hfill : Filled P s) :
    0 < m := by
  obtain ⟨-, ⟨s', hs', hm⟩ | ⟨rfl, -⟩⟩ := h
  · exact (hs'.filled hfill).pos hm
  · exact Nat.one_pos

/-! ## One element more -/

theorem Expanded.nil : Expanded P [] [] [] where
  filled T hT := nomatch hT
  leaves := .nil
  largest i m h := by simp at h
  inside i m h := by simp at h
  fields := rfl
  offsets j o h := by simp at h

/-- The offset of an element is the number of leaves before it. -/
theorem Expanded.offset (h : Expanded P done sz off) (T : Ty) :
    (off ++ [sz.length]).length = (done ++ [T]).length ∧
      ∀ j o, (off ++ [sz.length])[j]? = some o → Leaves P ((done ++ [T]).take j) o := by
  refine ⟨by simp [h.fields], fun j o hj => ?_⟩
  rw [List.getElem?_append] at hj
  split at hj
  · rename_i hlt
    rw [List.take_append_of_le_length (by rw [← h.fields]; omega)]
    exact h.offsets j o hj
  · obtain ⟨hj0, rfl⟩ : j - off.length = 0 ∧ sz.length = o := by
      rw [List.getElem?_singleton] at hj
      split at hj
      · exact ⟨by assumption, Option.some.inj hj⟩
      · cases hj
    have hjl : j = done.length := by
      have := h.fields
      omega
    subst hjl
    rw [List.take_left']
    · exact h.leaves
    · rfl

/-- An element that is no struct. -/
theorem Expanded.simple (h : Expanded P done sz off) {T : Ty} (hT : ∀ s, T.strip ≠ .struct s) :
    Expanded P (done ++ [T]) (sz ++ [1]) (off ++ [sz.length]) := by
  have hbegins : ∀ i s', BeginsIn P (done ++ [T]) i s' ↔ BeginsIn P done i s' := by
    intro i s'
    rw [beginsIn_append h.leaves]
    constructor
    · rintro (hin | ⟨s1, j, hs1, -⟩)
      · exact hin
      · exact absurd hs1 (hT s1)
    · exact .inl
  refine
    { filled := ?_
      leaves := by simpa using h.leaves.append (.one hT)
      largest := ?_
      inside := ?_
      fields := (h.offset T).1
      offsets := (h.offset T).2 }
  · intro U hU s hs
    rcases List.mem_append.mp hU with hU | hU
    · exact h.filled U hU s hs
    · rw [List.mem_singleton.mp hU] at hs
      exact absurd hs (hT s)
  · intro i m hm
    rw [List.getElem?_append] at hm
    split at hm
    · exact (h.largest i m hm).congr (hbegins i)
    · rename_i hge
      have hnone : ∀ s', ¬ BeginsIn P (done ++ [T]) i s' := fun s' hs' =>
        hge (((hbegins i s').mp hs').lt h.filled h.leaves)
      have hm1 : m = 1 := by
        rw [List.getElem?_singleton] at hm
        split at hm
        · exact (Option.some.inj hm).symm
        · cases hm
      exact ⟨fun s' k hs' => absurd hs' (hnone s'), .inr ⟨hm1, hnone⟩⟩
  · intro i m hm
    rw [List.length_append, List.length_singleton]
    rw [List.getElem?_append] at hm
    split at hm
    · have := h.inside i m hm
      omega
    · rw [List.getElem?_singleton] at hm
      split at hm
      · cases hm
        omega
      · cases hm

/-- An element of struct type brings the vector of that struct. -/
theorem Expanded.struct (h : Expanded P done sz off) {T : Ty} {s : Nat} {t : List Nat × List Nat}
    (hT : T.strip = .struct s) (ht : Vectors P s t) (hfill : Filled P s) :
    Expanded P (done ++ [T]) (sz ++ t.1) (off ++ [sz.length]) := by
  have hbegins : ∀ i s', BeginsIn P (done ++ [T]) i s' ↔
      BeginsIn P done i s' ∨ ∃ j, BeginsAt P s j s' ∧ i = sz.length + j := by
    intro i s'
    rw [beginsIn_append h.leaves]
    constructor
    · rintro (hin | ⟨s1, j, hs1, hj⟩)
      · exact .inl hin
      · obtain rfl := Ty.struct.inj (hT.symm.trans hs1)
        exact .inr ⟨j, hj⟩
    · rintro (hin | ⟨j, hj⟩)
      · exact .inl hin
      · exact .inr ⟨s, j, hT, hj⟩
  refine
    { filled := ?_
      leaves := by simpa using h.leaves.append (.of_struct hT ht.leaves)
      largest := ?_
      inside := ?_
      fields := (h.offset T).1
      offsets := (h.offset T).2 }
  · intro U hU s1 hs1
    rcases List.mem_append.mp hU with hU | hU
    · exact h.filled U hU s1 hs1
    · rw [List.mem_singleton.mp hU] at hs1
      obtain rfl := Ty.struct.inj (hT.symm.trans hs1)
      exact hfill
  · intro i m hm
    rw [List.getElem?_append] at hm
    split at hm
    · rename_i hlt
      refine (h.largest i m hm).congr fun s' => (hbegins i s').trans ?_
      constructor
      · rintro (hin | ⟨j, -, rfl⟩)
        · exact hin
        · omega
      · exact .inl
    · rename_i hge
      refine (ht.largest _ m hm).congr fun s' => (hbegins i s').trans ?_
      constructor
      · rintro (hin | ⟨j, hj, rfl⟩)
        · exact absurd (hin.lt h.filled h.leaves) hge
        · rwa [Nat.add_sub_cancel_left]
      · exact fun hj => .inr ⟨i - sz.length, hj, by omega⟩
  · intro i m hm
    rw [List.length_append]
    rw [List.getElem?_append] at hm
    split at hm
    · have := h.inside i m hm
      omega
    · have := ht.inside _ m hm
      omega

/-- The first field stands for the complete struct. -/
theorem Expanded.vectors (h : Expanded P (P.structs s) sz off) (hpos : 0 < sz.length) :
    Vectors P s (sz.set 0 sz.length, off) ∧ Filled P s := by
  have hne : P.structs s ≠ [] := by
    intro hnil
    have hl := h.leaves
    rw [hnil] at hl
    have := hl.unique .nil
    omega
  have hfill := filled_iff.mpr ⟨hne, h.filled⟩
  refine ⟨?_, hfill⟩
  refine
    { leaves := by simpa using h.leaves
      whole := by simp [hpos]
      largest := ?_
      inside := ?_
      fields := h.fields
      offsets := h.offsets }
  · intro i m hm
    rw [List.getElem?_set] at hm
    split at hm
    · -- all structs that begin at the first leaf end inside, and `s` is one of them
      rename_i hi
      subst hi
      obtain rfl : sz.length = m := by simpa [hpos] using hm
      constructor
      · intro s' k hs' hk
        obtain ⟨k', hk', hle⟩ := hs'.fits h.leaves
        rw [hk.unique hk']
        omega
      · exact .inl ⟨s, .self s, h.leaves⟩
    · rename_i hi
      refine (h.largest i m hm).congr fun s' => beginsAt_iff.trans ?_
      constructor
      · rintro (⟨rfl, -⟩ | hin)
        · exact absurd rfl hi
        · exact hin
      · exact .inr
  · intro i m hm
    rw [List.length_set]
    rw [List.getElem?_set] at hm
    split at hm
    · obtain rfl : sz.length = m := by simpa [hpos] using hm
      omega
    · exact h.inside i m hm

/-! ## The two functions -/

theorem Known.enter {info : Nat → Option (List Nat × List Nat)} {t : List Nat × List Nat}
    (h : Known P info) (ht : Vectors P s t ∧ Filled P s) :
    Known P (Function.update info s (some t)) := by
  intro s' t' hs'
  by_cases hss : s' = s
  · subst hss
    rw [Function.update_self] at hs'
    exact Option.some.inj hs' ▸ ht
  · rw [Function.update_of_ne hss] at hs'
    exact h s' t' hs'

/-- One pass of the loop over the elements. -/
def SoFar (P : Ir) (done : List Ty) (t : List Nat × List Nat × Nat) (g : Gen) : Prop :=
  Known P g.structInfo ∧ t.2.2 = t.1.length ∧ Expanded P done t.1 t.2.1

/-- Wherever the functions return, the table is right; by induction on the depth of the
recursion. -/
theorem structs_known (P : Ir) (fuel : Nat) :
    (∀ s g, Known P g.structInfo → Wp (analyzeStruct P fuel s)
      (fun _ g' => Known P g'.structInfo ∧ (g'.structInfo s).isSome) g) ∧
    ∀ s g, Known P g.structInfo → Wp (getStructSz P fuel s)
      (fun sz g' => Known P g'.structInfo ∧ ∃ off, g'.structInfo s = some (sz, off)) g := by
  induction fuel with
  | zero => exact ⟨fun _ _ _ => trivial, fun _ _ _ => trivial⟩
  | succ fuel ih =>
      obtain ⟨ihA, ihS⟩ := ih
      constructor
      · intro s g hg
        rw [analyzeStruct]
        simp only [wp_bind, wp_get, wp_ite, wp_pure]
        refine ⟨fun hsome => ⟨hg, hsome⟩, fun _ => ?_⟩
        refine (wp_foldlM_done (SoFar P) ⟨hg, rfl, .nil⟩ ?_).imp ?_
        · rintro done ET rest ⟨sz, off, nf⟩ g1 - ⟨hg1, hnf, hexp⟩
          obtain rfl : nf = sz.length := hnf
          dsimp only
          split
          · rename_i s' hs'
            rw [wp_bind]
            apply (ihS s' g1 hg1).imp
            rintro szE g2 ⟨hg2, offE, hoff⟩
            obtain ⟨ht, hfill⟩ := hg2 _ _ hoff
            exact ⟨hg2, (List.length_append ..).symm, hexp.struct hs' ht hfill⟩
          · rename_i hT
            exact ⟨hg1, by simp, hexp.simple hT⟩
        · rintro ⟨sz, off, nf⟩ g1 ⟨hg1, hnf, hexp⟩
          obtain rfl : nf = sz.length := hnf
          simp only [wp_lift, inRange_ok, wp_modify]
          intro _ hpos
          have hnew := hg1.enter (hexp.vectors hpos)
          exact ⟨fun _ => ⟨hnew, by simp⟩, fun _ => ⟨hnew, by simp⟩⟩
      · intro s g hg
        rw [getStructSz]
        simp only [wp_bind, wp_get, wp_ite, wp_pure]
        have hread : ∀ g' : Gen, (g'.structInfo s).isSome →
            ∃ off, g'.structInfo s = some (((g'.structInfo s).getD ([], [])).1, off) := by
          intro g' hs
          obtain ⟨t, ht⟩ := Option.isSome_iff_exists.mp hs
          exact ⟨t.2, by rw [ht, Option.getD_some]⟩
        constructor
        · intro _
          apply (ihA s g hg).imp
          rintro _ g' ⟨hg', hs⟩
          exact ⟨hg', hread g' hs⟩
        · intro hsome
          exact ⟨hg, hread g (by simpa [Option.isNone_iff_eq_none, Option.isSome_iff_ne_none] using hsome)⟩

/-- The loop returns where the recursive calls do. -/
theorem analyzeStruct_ends {fuel : Nat} {g : Gen} (hg : Known P g.structInfo)
    (hfill : Filled P s) (hrec : ∀ s' g, Holds P s s' → Known P g.structInfo →
      Ends (getStructSz P fuel s') (fun _ _ => True) g) :
    Ends (analyzeStruct P (fuel + 1) s) (fun _ _ => True) g := by
  rw [analyzeStruct]
  simp only [ends_bind, ends_get, ends_ite, ends_pure]
  refine ⟨fun _ => trivial, fun _ => ?_⟩
  refine (ends_foldlM_done (SoFar P) ⟨hg, rfl, .nil⟩ ?_).imp ?_
  · rintro done ET rest ⟨sz, off, nf⟩ g1 hl ⟨hg1, hnf, hexp⟩
    obtain rfl : nf = sz.length := hnf
    dsimp only
    split
    · rename_i s' hs'
      have hin : Holds P s s' := ⟨ET, hl ▸ List.mem_append_right _ (List.mem_cons_self ..), hs'⟩
      rw [ends_bind]
      apply (((structs_known P fuel).2 s' g1 hg1).ends (hrec s' g1 hin hg1)).imp
      rintro szE g2 ⟨hg2, offE, hoff⟩
      obtain ⟨ht, hfill⟩ := hg2 _ _ hoff
      rw [ends_pure]
      exact ⟨hg2, (List.length_append ..).symm, hexp.struct hs' ht hfill⟩
    · rename_i hT
      rw [ends_pure]
      exact ⟨hg1, by simp, hexp.simple hT⟩
  · rintro ⟨sz, off, nf⟩ g1 ⟨hg1, hnf, hexp⟩
    have hpos : 0 < sz.length := hexp.leaves.pos (filled_iff.mp hfill).1 hexp.filled
    simp only [ends_lift, inRange_ok, ends_modify]
    exact ⟨(), hpos, fun _ => trivial, fun _ => trivial⟩

theorem getStructSz_ends {fuel : Nat} {g : Gen}
    (h : Ends (analyzeStruct P fuel s) (fun _ _ => True) g) :
    Ends (getStructSz P (fuel + 1) s) (fun _ _ => True) g := by
  rw [getStructSz]
  simp only [ends_bind, ends_get, ends_ite, ends_pure]
  exact ⟨fun _ => h, fun _ => trivial⟩

/-- Filled structs are analysed with some depth of recursion, by induction on how deep
they are nested. -/
theorem elements_end {Ts : List Ty} {n : Nat} (h : Leaves P Ts n) (hfill : FilledAll P Ts) :
    ∃ N, ∀ fuel, N ≤ fuel → ∀ T ∈ Ts, ∀ s, T.strip = .struct s → ∀ g, Known P g.structInfo →
      Ends (getStructSz P fuel s) (fun _ _ => True) g := by
  induction h with
  | nil => exact ⟨0, fun _ _ T hT => nomatch hT⟩
  | @simple T Ts n hT _ ih =>
      obtain ⟨N, hN⟩ := ih fun U hU => hfill U (List.mem_cons_of_mem _ hU)
      refine ⟨N, fun fuel hle U hU s hs g hg => ?_⟩
      rcases List.mem_cons.mp hU with rfl | hU
      · exact absurd hs (hT s)
      · exact hN fuel hle U hU s hs g hg
  | @struct T Ts s m n hT hs _ ihs ih =>
      have hf := hfill T (List.mem_cons_self ..) s hT
      obtain ⟨N1, hN1⟩ := ihs hf.elements
      obtain ⟨N2, hN2⟩ := ih fun U hU => hfill U (List.mem_cons_of_mem _ hU)
      refine ⟨max (N1 + 2) N2, fun fuel hle U hU s' hs' g hg => ?_⟩
      rcases List.mem_cons.mp hU with rfl | hU
      · obtain rfl := Ty.struct.inj (hT.symm.trans hs')
        obtain ⟨k, rfl⟩ : ∃ k, fuel = k + 2 := ⟨fuel - 2, by omega⟩
        refine getStructSz_ends (analyzeStruct_ends hg hf fun s1 g1 hin hg1 => ?_)
        obtain ⟨V, hV, hs1⟩ := hin
        exact hN1 k (by omega) V hV s1 hs1 g1 hg1
      · exact hN2 fuel (by omega) U hU s' hs' g hg

theorem analyzeStruct_total {n : Nat} (h : Leaves P (P.structs s) n) (hfill : Filled P s) :
    ∃ N, ∀ fuel, N ≤ fuel → ∀ g, Known P g.structInfo →
      Ends (analyzeStruct P fuel s) (fun _ _ => True) g := by
  obtain ⟨N, hN⟩ := elements_end h hfill.elements
  refine ⟨N + 1, fun fuel hle g hg => ?_⟩
  obtain ⟨k, rfl⟩ : ∃ k, fuel = k + 1 := ⟨fuel - 1, by omega⟩
  refine analyzeStruct_ends hg hfill fun s1 g1 hin hg1 => ?_
  obtain ⟨V, hV, hs1⟩ := hin
  exact hN k (by omega) V hV s1 hs1 g1 hg1

/-- For a struct that is nested finitely: it is analysed, from any table built by
`analyzeStruct`, and then entered with the right vectors, exactly if every struct
embedded in it and the struct itself have an element. -/
theorem analyzeStruct_describes_iff (P : Ir) (s n : Nat) (hn : Leaves P (P.structs s) n) :
    (∃ N, ∀ fuel, N ≤ fuel → ∀ g, Known P g.structInfo →
      ∃ g', analyzeStruct P fuel s g = .ok ((), g') ∧ Known P g'.structInfo ∧
        ∃ t, g'.structInfo s = some t ∧ Vectors P s t ∧ t.1.length = n) ↔ Filled P s := by
  constructor
  · rintro ⟨N, hN⟩
    obtain ⟨g', -, hg', t, ht, -⟩ := hN N (Nat.le_refl N) Gen.empty .empty
    exact (hg' s t ht).2
  · intro hfill
    obtain ⟨N, hN⟩ := analyzeStruct_total hn hfill
    refine ⟨N, fun fuel hle g hg => ?_⟩
    obtain ⟨_, g', hrun, hg', hs⟩ := ((structs_known P fuel).1 s g hg).ends (hN fuel hle g hg)
    obtain ⟨t, ht⟩ := Option.isSome_iff_exists.mp hs
    have hvec := (hg' s t ht).1
    exact ⟨g', hrun, hg', t, ht, hvec, hvec.leaves.unique hn⟩

/-- A module with nothing but structs. -/
def structsOnly (structs : Nat → List Ty) : Ir where
  structs := structs
  named := []
  funcs := []
  globals := []
  insts _ := ⟨.ret, .void, []⟩
  parent _ := (0, 0)
  users _ := []
  extInfo _ := none
  setOrder := id
  ulongBits := 64

/-- `{ { i32, ptr }, [4 x { i32, ptr }], ptr }` -/
def listHead : Ir :=
  structsOnly fun s => if s = 0 then [.int, .ptr .other] else
    [.struct 0, .array (.struct 0), .ptr .other]

theorem listHead_leaves : Leaves listHead (listHead.structs 1) 5 := by
  have hsimple : ∀ {T : Ty}, (∀ s, T.strip ≠ .struct s) → Leaves listHead [T] 1 := .one
  have h0 : Leaves listHead (listHead.structs 0) 2 := .simple (by simp [Ty.strip]) (hsimple (by simp [Ty.strip]))
  exact .struct rfl h0 (.struct rfl h0 (hsimple (by simp [Ty.strip])))

theorem listHead_filled : Filled listHead 1 := by
  intro s' _
  unfold listHead structsOnly
  dsimp only
  split <;> simp

/-- Its five leaves are found. -/
theorem analyzeStruct_describes_nested :
    ∃ N, ∀ fuel, N ≤ fuel → ∀ g, Known listHead g.structInfo →
      ∃ g', analyzeStruct listHead fuel 1 g = .ok ((), g') ∧ Known listHead g'.structInfo ∧
        ∃ t, g'.structInfo 1 = some t ∧ Vectors listHead 1 t ∧ t.1.length = 5 :=
  (analyzeStruct_describes_iff listHead 1 5 listHead_leaves).mpr listHead_filled

/-- For a struct without elements there is no first entry to write the size to, also
where the struct is the type of a field. -/
theorem analyzeStruct_describes_empty :
    Leaves (structsOnly fun _ => []) [] 0 ∧
    (∀ fuel, analyzeStruct (structsOnly fun _ => []) (fuel + 1) 0 Gen.empty =
      .error (.outOfRange "sz")) ∧
    ∀ fuel, analyzeStruct (structsOnly fun s => if s = 0 then [] else [.struct 0, .int])
      (fuel + 3) 1 Gen.empty = .error (.outOfRange "sz") :=
  ⟨.nil, fun _ => rfl, fun _ => rfl⟩

end Gen

end PtrAnalysis
