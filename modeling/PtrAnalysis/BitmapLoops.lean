import PtrAnalysis.BitmapIter
import PtrAnalysis.Solve

/-!
# Loops that erase what they pass

`solve_node` walks a list of constraints and resets the bits of those that became redundant, with the
iterator one bit ahead. The model of the solver goes over the ascending list of the members as they
were at the start (`consLoop`); here the loop itself, on the bitmap, does just that.
-/

namespace PtrAnalysis

open Run


section

variable {σ : Type} {n : Nat} [NeZero n]

/-- The loop over a list of constraints in `solve_node`, for at most so many passes: move past the
bit, since it may be erased, and reset it if `one` found it redundant. -/
def eraseLoop (one : σ → Nat → Run (σ × Bool)) : Nat → Bitmap n → BitmapIter → σ → Run (Bitmap n × σ)
  | 0, _, _, _ => .error .fuel
  | k + 1, B, it, t =>
    if it.atEnd then .ok (B, t)
    else do
      let cid := it.bitNumber
      let it ← it.next B
      let (t, redundant) ← one t cid
      eraseLoop one k (if redundant then B.reset cid else B) it t

/-- One pass of that loop on the set. -/
def eraseOne (one : σ → Nat → Run (σ × Bool)) (u : Finset Nat × σ) (cid : Nat) :
    Run (Finset Nat × σ) := do
  let (t, redundant) ← one u.2 cid
  return (if redundant then u.1.erase cid else u.1, t)

/-- The members from `k` on. -/
def rest (k : Nat) (s : Finset Nat) : List Nat := (ascending s).filter (k ≤ ·)

theorem mem_rest {k x : Nat} {s : Finset Nat} : x ∈ rest k s ↔ x ∈ s ∧ k ≤ x := by
  rw [rest, List.mem_filter, mem_ascending, decide_eq_true_eq]

theorem rest_sorted (k : Nat) (s : Finset Nat) : (rest k s).Pairwise (· < ·) :=
  (ascending_sorted s).filter _

theorem rest_zero (s : Finset Nat) : rest 0 s = ascending s :=
  sorted_ext (rest_sorted 0 s) (ascending_sorted s) fun x => by
    rw [mem_rest, mem_ascending]
    exact and_iff_left (Nat.zero_le x)

/-- What is left to walk, when the cursor has arrived at a bit of the set or at its end. -/
inductive Remains (s : Finset Nat) : Option (Nat × BitIter) → List Nat → Prop where
  | done : Remains s none []
  | stands {b : Nat} {c : BitIter} (hb : b ∈ s) (hpos : c.pos = b + 1) (hover : c.Over s) :
      Remains s (some (b, c)) (b :: rest (b + 1) s)

variable {B : Bitmap n} {s : Finset Nat} {c : BitIter}

theorem BitIter.Over.ahead_of {s : Finset Nat} {c : BitIter} (h : c.Over s) : c.Ahead (· ∈ s) :=
  ⟨h.sorted, fun b hb => (h.ahead b hb).2, fun b hb => (h.ahead b hb).1⟩

/-- The cursor goes to the first of the members from its position on. -/
theorem Remains.of_over (h : c.Over s) : Remains s (c.next s) (rest c.pos s) := by
  cases hn : c.next s with
  | none =>
      have hnil : rest c.pos s = [] := List.eq_nil_iff_forall_not_mem.mpr fun x hx => by
        obtain ⟨hxs, hle⟩ := mem_rest.mp hx
        exact absurd (BitIter.Over.finished hn x hxs) (Nat.not_lt.mpr hle)
      rw [hnil]
      exact .done
  | some t =>
      obtain ⟨hb, hover, hbetween⟩ := h.step hn
      obtain ⟨-, hle, hpos, -⟩ := h.ahead_of.next (fun _ => id) hn
      have hcons : rest c.pos s = t.1 :: rest (t.1 + 1) s := by
        refine sorted_ext (rest_sorted ..) (.cons (fun x hx => (mem_rest.mp hx).2) (rest_sorted ..))
          fun x => ?_
        rw [List.mem_cons, mem_rest, mem_rest]
        constructor
        · rintro ⟨hx, hxc⟩
          by_cases hlt : x < t.1 + 1
          · rcases hbetween x hx (hpos ▸ hlt) with heq | hbefore
            · exact .inl heq
            · omega
          · exact .inr ⟨hx, Nat.not_lt.mp hlt⟩
        · rintro (rfl | ⟨hx, hlt⟩)
          · exact ⟨hb, hle⟩
          · exact ⟨hx, by omega⟩
      rw [hcons]
      exact .stands hb hpos hover

/-- Erasing a number that was passed leaves the rest as it is. -/
theorem Remains.erase {o : Option (Nat × BitIter)} {l : List Nat} (h : Remains s o l) {x : Nat}
    (hx : ∀ y ∈ l, x < y) : Remains (s.erase x) o l := by
  cases h with
  | done => exact .done
  | stands hb hpos hover =>
      rename_i b c
      have hne : ∀ y, b ≤ y → y ≠ x := fun y hy heq => by
        have := hx b List.mem_cons_self
        omega
      have hmem : ∀ y, b ≤ y → (y ∈ s.erase x ↔ y ∈ s) := fun y hy => by
        rw [Finset.mem_erase]
        exact and_iff_right (hne y hy)
      have hrest : rest (b + 1) s = rest (b + 1) (s.erase x) :=
        sorted_ext (rest_sorted ..) (rest_sorted ..) fun y => by
          rw [mem_rest, mem_rest]
          exact and_congr_left fun hy => (hmem y (by omega)).symm
      rw [hrest]
      refine .stands ((hmem b le_rfl).mpr hb) hpos ⟨hover.sorted, fun y hy => ?_, fun y hy => ?_⟩
      · obtain ⟨hys, hcy⟩ := hover.ahead y hy
        exact ⟨(hmem y (by omega)).mpr hys, hcy⟩
      · exact hover.next y (Finset.mem_of_mem_erase hy)

/-- What the loop returns, or why it stops, is what the pass over the list does. -/
def SameLoop (x : Run (Bitmap n × σ)) (y : Run (Finset Nat × σ)) : Prop :=
  match x, y with
  | .ok (B, t), .ok (s, t') => B.Holds s ∧ t = t'
  | .error e, .error e' => e = e'
  | _, _ => False

theorem eraseLoop_rest (one : σ → Nat → Run (σ × Bool)) (k : Nat) {it : BitmapIter}
    {o : Option (Nat × BitIter)} {l : List Nat} (t : σ) (h : B.Holds s)
    (ha : BitmapIter.Arrives n it o) (hl : Remains s o l) (hk : l.length < k) :
    SameLoop (eraseLoop one k B it t) (l.foldlM (eraseOne one) (s, t)) := by
  induction k generalizing B s it o l t with
  | zero => exact absurd hk (Nat.not_lt_zero _)
  | succ k ih =>
      rw [eraseLoop]
      cases hl with
      | done =>
          have hend : it.atEnd = true := ha
          rw [if_pos hend]
          exact ⟨h, rfl⟩
      | stands hb hpos hover =>
          rename_i b c
          obtain ⟨it', hnext, ha'⟩ := BitmapIter.next_arrives h ha ⟨b, hb, rfl⟩
          have hrem := Remains.of_over hover
          rw [hpos] at hrem
          rw [if_neg (by rw [ha.notEnd]; exact Bool.false_ne_true), hnext, ha.bit, List.foldlM_cons,
            eraseOne]
          change SameLoop (one t b >>= _) _
          cases hone : one t b with
          | error e => exact rfl
          | ok u =>
              have hlen : (rest (b + 1) s).length < k := Nat.lt_of_succ_lt_succ hk
              cases hu : u.2 with
              | false =>
                  change SameLoop (eraseLoop one k (if u.2 then B.reset b else B) it' u.1)
                    ((rest (b + 1) s).foldlM (eraseOne one) (if u.2 then s.erase b else s, u.1))
                  rw [hu]
                  exact ih u.1 h ha' hrem hlen
              | true =>
                  change SameLoop (eraseLoop one k (if u.2 then B.reset b else B) it' u.1)
                    ((rest (b + 1) s).foldlM (eraseOne one) (if u.2 then s.erase b else s, u.1))
                  rw [hu]
                  exact ih u.1 (Bitmap.reset_spec h b) ha'
                    (hrem.erase fun y hy => (mem_rest.mp hy).2) hlen

/-- The loop over a list of constraints passes each of them once, in order, although it erases
some on the way; and it ends. -/
theorem eraseLoop_ascending (one : σ → Nat → Run (σ × Bool)) (t : σ) (h : B.Holds s) :
    ∃ it, BitmapIter.start B = .ok it ∧
      SameLoop (eraseLoop one (s.card + 1) B it t) ((ascending s).foldlM (eraseOne one) (s, t)) := by
  obtain ⟨it, hstart, ha⟩ := BitmapIter.start_arrives h
  have hrem := Remains.of_over (BitIter.start_over s)
  rw [BitIter.start, rest_zero] at hrem
  exact ⟨it, hstart, eraseLoop_rest one _ t h ha hrem (by rw [ascending_length]; omega)⟩

/-- What a pass does besides erasing. -/
theorem eraseOne_rest (one : σ → Nat → Run (σ × Bool)) (l : List Nat) (u : Finset Nat) (t : σ) :
    (l.foldlM (eraseOne one) (u, t)).map (·.2) =
      l.foldlM (fun t cid => (one t cid).map (·.1)) t := by
  induction l generalizing u t with
  | nil => rfl
  | cons cid l ih =>
      rw [List.foldlM_cons, List.foldlM_cons, eraseOne]
      cases one t cid with
      | error e => rfl
      | ok v => exact ih (if v.2 then u.erase cid else u) v.1

theorem SameLoop.map_eq {x : Run (Bitmap n × σ)} {y : Run (Finset Nat × σ)} (h : SameLoop x y) :
    x.map (·.2) = y.map (·.2) := by
  cases x with
  | error e =>
      cases y with
      | error e' => exact congrArg Except.error h
      | ok _ => exact absurd h id
  | ok v =>
      cases y with
      | error _ => exact absurd h id
      | ok w => exact congrArg Except.ok h.2

end

section

variable {W : Type} {n : Nat} [NeZero n]

/-- One pass of `consLoop`, with whether the constraint became redundant. -/
def consOne (one : Solver W → List Constraint → Nat → Run (Solver W × List Constraint × Bool))
    (drop : Nat → Node → Node) (x : Nat) (t : Solver W × List Constraint) (cid : Nat) :
    Run ((Solver W × List Constraint) × Bool) := do
  let (s, seen, redundant) ← one t.1 t.2 cid
  return ((if redundant then s.modify x (drop cid) else s, seen), redundant)

/-- The loop over a list of constraints of node `x`, on the bitmap that holds the list and loses
what became redundant while it is walked, is the one of the solver over the ascending list. -/
theorem eraseLoop_consLoop
    (one : Solver W → List Constraint → Nat → Run (Solver W × List Constraint × Bool))
    (drop : Nat → Node → Node) (x : Nat) (s : Solver W) {B : Bitmap n} {cids : Finset Nat}
    (h : B.Holds cids) : ∃ it, BitmapIter.start B = .ok it ∧
      (eraseLoop (consOne one drop x) (cids.card + 1) B it (s, [])).map (·.2.1) =
        consLoop one drop x (ascending cids) s := by
  obtain ⟨it, hstart, hsame⟩ := eraseLoop_ascending (consOne one drop x) (s, []) h
  refine ⟨it, hstart, ?_⟩
  have hpass : (fun (t : Solver W × List Constraint) cid => (consOne one drop x t cid).map (·.1)) =
      fun t cid => do
        let (s, seen, redundant) ← one t.1 t.2 cid
        return (if redundant then s.modify x (drop cid) else s, seen) := by
    funext t cid
    unfold consOne
    cases one t.1 t.2 cid <;> rfl
  have hmap := hsame.map_eq.trans (eraseOne_rest _ _ _ _)
  rw [hpass] at hmap
  rw [consLoop, ← hmap]
  cases eraseLoop (consOne one drop x) (cids.card + 1) B it (s, []) <;> rfl

end

/-- Constraint `3` becomes redundant and loses the only bit of its element. -/
theorem eraseLoop_consLoop_redundant : ∃ it,
    BitmapIter.start (((Bitmap.new : Bitmap 2).set 3).set 200) = .ok it ∧
      (eraseLoop (consOne (fun s seen cid => .ok (s, seen, decide (cid = 3)))
        (fun cid N => { N with loadTo := N.loadTo.erase cid }) 4) 3
        (((Bitmap.new : Bitmap 2).set 3).set 200) it
        (startState (Lists true PrioHeap) (.initial 5 3 (fun _ => {}) []), [])).map (·.2.1) =
      consLoop (fun s seen cid => .ok (s, seen, decide (cid = 3)))
        (fun cid N => { N with loadTo := N.loadTo.erase cid }) 4 [3, 200]
        (startState (Lists true PrioHeap) (.initial 5 3 (fun _ => {}) [])) := by
  have h := Bitmap.set_spec (Bitmap.set_spec (Bitmap.new_holds (n := 2)) (x := 3) (by decide))
    (x := 200) (by decide)
  have hlist : ascending (insert 200 (insert 3 ∅)) = [3, 200] := by decide
  have hcard : (insert 200 (insert 3 ∅) : Finset Nat).card + 1 = 3 := by decide
  have hloop := eraseLoop_consLoop (fun s seen cid => .ok (s, seen, decide (cid = 3)))
    (fun cid N => { N with loadTo := N.loadTo.erase cid }) 4
    (startState (Lists true PrioHeap) (.initial 5 3 (fun _ => {}) [])) h
  rw [hlist, hcard] at hloop
  exact hloop

end PtrAnalysis
