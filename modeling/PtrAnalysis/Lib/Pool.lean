import Mathlib.Data.List.InsertIdx
import Mathlib.Data.List.Nodup
import Mathlib.Logic.Function.Basic
import PtrAnalysis.Lib.Keyed

/-!
# Lists in one memory

Linked lists whose nodes come from one memory, with a stack of nodes that were given back and are
used again. `Store.Owned` says that every node that was ever allocated is in one list or free; then a
list can be taken for the list of what its nodes hold, and an edit of one list is seen in no other.
-/

namespace PtrAnalysis

open Keyed

/-- A change of one list. -/
inductive Edit (α : Type) where
  /-- A node that holds `x`, in front of position `p`. -/
  | insert (p : Nat) (x : α)
  | erase (p : Nat)
  | write (p : Nat) (f : α → α)

/-- The memory, the number of nodes allocated so far, the free ones, and the nodes of each list. -/
structure Store (ι α : Type) where
  cells : Nat → α
  fresh : Nat
  stack : List Nat
  lists : ι → List Nat

variable {ι α : Type}

/-- What an edit does to a list, if it has the position. -/
def Edit.apply (l : List α) : Edit α → Option (List α)
  | .insert p x => if p ≤ l.length then some (insertAt l p x) else none
  | .erase p => if p < l.length then some (l.eraseIdx p) else none
  | .write p f => if p < l.length then some (l.modify p f) else none

section

variable {l : List α} {p : Nat}

theorem Edit.apply_insert (hp : p ≤ l.length) (x : α) :
    (Edit.insert p x).apply l = some (insertAt l p x) := if_pos hp

theorem Edit.apply_erase (hp : p < l.length) : (Edit.erase p).apply l = some (l.eraseIdx p) := if_pos hp

theorem Edit.apply_write (hp : p < l.length) (f : α → α) :
    (Edit.write p f).apply l = some (l.modify p f) := if_pos hp

end

def applyEdits (es : List (Edit α)) (l : List α) : Option (List α) := es.foldlM Edit.apply l

theorem applyEdits_cons {e : Edit α} {es : List (Edit α)} {l l' : List α} (h : e.apply l = some l') :
    applyEdits (e :: es) l = applyEdits es l' := by
  rw [applyEdits, List.foldlM_cons, h]
  rfl

theorem applyEdits_append {es es' : List (Edit α)} {l l' : List α} (h : applyEdits es l = some l') :
    applyEdits (es ++ es') l = applyEdits es' l' := by
  unfold applyEdits at h ⊢
  rw [List.foldlM_append, h]
  rfl

/-! ## Edits while a list is walked -/

section

variable (pre : List α) (x : α) (l : List α)

theorem walk_insert : (Edit.insert pre.length x).apply (pre ++ l) = some (pre ++ x :: l) := by
  have hle : pre.length ≤ (pre ++ l).length := by
    rw [List.length_append]
    exact Nat.le_add_right ..
  rw [Edit.apply_insert hle, insertAt, List.take_left, List.drop_left]

theorem walk_append : (Edit.insert pre.length x).apply pre = some (pre ++ [x]) := by
  have hend := walk_insert pre x []
  rwa [List.append_nil] at hend

theorem walked_lt : pre.length < (pre ++ x :: l).length := by
  rw [List.length_append, List.length_cons]
  omega

theorem walk_erase : (Edit.erase pre.length).apply (pre ++ x :: l) = some (pre ++ l) := by
  rw [Edit.apply_erase (walked_lt ..), List.eraseIdx_append_of_length_le le_rfl, Nat.sub_self]
  rfl

theorem walk_write (f : α → α) :
    (Edit.write pre.length f).apply (pre ++ x :: l) = some (pre ++ f x :: l) := by
  have hmodify : (pre ++ x :: l).modify pre.length f = pre ++ f x :: l := by
    induction pre with
    | nil => rfl
    | cons y pre ih => exact congrArg (y :: ·) ih
  rw [Edit.apply_write (walked_lt ..), hmodify]

/-- Go on behind an entry that stays. -/
theorem walk_on (es : Nat → List (Edit α)) {own : List α}
    (h : ∀ pre, applyEdits (es pre.length) (pre ++ own) = some (pre ++ l)) :
    applyEdits (es (pre.length + 1)) (pre ++ x :: own) = some (pre ++ x :: l) := by
  have hx := h (pre ++ [x])
  rwa [List.length_append, List.append_assoc, List.append_assoc] at hx

/-- The same where the entry is the last one so far. -/
theorem walk_end (es : Nat → List (Edit α))
    (h : ∀ pre, applyEdits (es pre.length) pre = some (pre ++ l)) :
    applyEdits (es (pre.length + 1)) (pre ++ [x]) = some (pre ++ x :: l) := by
  have hx := h (pre ++ [x])
  rwa [List.length_append, List.append_assoc] at hx

/-- Each entry from position `p` on goes. -/
def eraseEdits (p : Nat) (l : List α) : List (Edit α) := l.map fun _ => .erase p

theorem eraseEdits_spec :
    applyEdits (eraseEdits pre.length l) (pre ++ l) = some pre := by
  induction l with
  | nil => exact congrArg some (List.append_nil pre)
  | cons x l ih => exact (applyEdits_cons (walk_erase ..)).trans ih

/-- The entries of another list are copied to position `p` and behind it. -/
def copyEdits : Nat → List α → List (Edit α)
  | _, [] => []
  | p, x :: l => .insert p x :: copyEdits (p + 1) l

theorem copyEdits_spec :
    applyEdits (copyEdits pre.length l) pre = some (pre ++ l) := by
  induction l generalizing pre with
  | nil => exact congrArg some (List.append_nil pre).symm
  | cons x l ih =>
      have hrest := walk_end pre x l (copyEdits · l) ih
      exact (applyEdits_cons (walk_append ..)).trans hrest

end

section

variable (key : α → Nat) (keepOwn addOther : Bool) (change : α → α → α)
  (both : α → α → Option α × Bool)

/-- What `combine` does to its own list, of which position `p` has been reached. Where both lists have
a key, the own entry is written first, and goes if `both` leaves nothing. -/
def combineEdits : Nat → List α → List α → List (Edit α)
  | p, own, [] => if keepOwn then [] else eraseEdits p own
  | p, [], y :: other => if addOther then .insert p y :: combineEdits (p + 1) [] other else []
  | p, x :: own, y :: other =>
      if key y < key x then
        if addOther then .insert p y :: combineEdits (p + 1) (x :: own) other
        else combineEdits p (x :: own) other
      else if key x = key y then
        .write p (change · y) ::
          match (both x y).1 with
          | none => .erase p :: combineEdits p own other
          | some _ => combineEdits (p + 1) own other
      else if keepOwn then combineEdits (p + 1) own (y :: other)
      else .erase p :: combineEdits p own (y :: other)
  termination_by _ own other => own.length + other.length

/-- What is left of `own` without the keys of `other` is copied to position `p` and behind it; an
entry of which nothing is left is taken back. -/
def copyCombineEdits : Nat → List α → List α → List (Edit α)
  | p, own, [] => copyEdits p own
  | _, [], _ :: _ => []
  | p, x :: own, y :: other =>
      if key y < key x then copyCombineEdits p (x :: own) other
      else if key x = key y then
        .insert p (change x y) ::
          match (both x y).1 with
          | none => .erase p :: copyCombineEdits p own other
          | some _ => copyCombineEdits (p + 1) own other
      else .insert p x :: copyCombineEdits (p + 1) own (y :: other)
  termination_by _ own other => own.length + other.length

end

section

variable {key : α → Nat} {keepOwn addOther : Bool} {change : α → α → α}
  {both : α → α → Option α × Bool} (hchange : ∀ x y z, (both x y).1 = some z → change x y = z)

include hchange

theorem combineEdits_spec (pre own other : List α) :
    applyEdits (combineEdits key keepOwn addOther change both pre.length own other) (pre ++ own) =
      some (pre ++ (combine key keepOwn addOther both own other).1) := by
  induction own, other using walk_induct key generalizing pre with
  | done own =>
      rw [combineEdits, combine]
      split
      · rfl
      · rw [List.append_nil]
        exact eraseEdits_spec pre own
  | rest y other ih =>
      rw [combineEdits, combine]
      split
      · have hrest := walk_on pre y _ (combineEdits key keepOwn addOther change both · [] other) ih
        exact (applyEdits_cons (walk_insert ..)).trans hrest
      · rfl
  | other x own y other hlt ih =>
      rw [combineEdits, combine, if_pos hlt, if_pos hlt]
      split
      · have hrest :=
          walk_on pre y _ (combineEdits key keepOwn addOther change both · (x :: own) other) ih
        exact (applyEdits_cons (walk_insert ..)).trans hrest
      · exact ih pre
  | both x own y other heq ih =>
      have hlt : ¬ key y < key x := by omega
      rw [combineEdits, combine, if_neg hlt, if_neg hlt, if_pos heq, if_pos heq]
      refine (applyEdits_cons (walk_write ..)).trans ?_
      dsimp only
      cases hb : (both x y).1 with
      | none => exact (applyEdits_cons (walk_erase ..)).trans (ih pre)
      | some z =>
          rw [hchange x y z hb]
          exact walk_on pre z _ (combineEdits key keepOwn addOther change both · own other) ih
  | own x own y other hlt ih =>
      have hge : ¬ key y < key x := by omega
      have hne : key x ≠ key y := by omega
      rw [combineEdits, combine, if_neg hge, if_neg hge, if_neg hne, if_neg hne]
      split
      · exact walk_on pre x _ (combineEdits key keepOwn addOther change both · own (y :: other)) ih
      · exact (applyEdits_cons (walk_erase ..)).trans (ih pre)

theorem copyCombineEdits_spec (pre own other : List α) :
    applyEdits (copyCombineEdits key change both pre.length own other) pre =
      some (pre ++ (combine key true false both own other).1) := by
  induction own, other using walk_induct key generalizing pre with
  | done own =>
      rw [copyCombineEdits, combine]
      exact copyEdits_spec pre own
  | rest y other ih =>
      rw [copyCombineEdits, combine]
      exact congrArg some (List.append_nil pre).symm
  | other x own y other hlt ih =>
      rw [copyCombineEdits, combine, if_pos hlt, if_pos hlt]
      exact ih pre
  | both x own y other heq ih =>
      have hlt : ¬ key y < key x := by omega
      rw [copyCombineEdits, combine, if_neg hlt, if_neg hlt, if_pos heq, if_pos heq]
      refine (applyEdits_cons (walk_append ..)).trans ?_
      dsimp only
      cases hb : (both x y).1 with
      | none =>
          have herase := walk_erase pre (change x y) []
          rw [List.append_nil] at herase
          exact (applyEdits_cons herase).trans (ih pre)
      | some z =>
          rw [hchange x y z hb]
          exact walk_end pre z _ (copyCombineEdits key change both · own other) ih
  | own x own y other hlt ih =>
      have hge : ¬ key y < key x := by omega
      have hne : key x ≠ key y := by omega
      rw [copyCombineEdits, combine, if_neg hge, if_neg hge, if_neg hne, if_neg hne]
      have hrest := walk_end pre x _ (copyCombineEdits key change both · own (y :: other)) ih
      exact (applyEdits_cons (walk_append ..)).trans hrest

end

/-! ## Edits that only add, and edits that only take away -/

section

variable (key : α → Nat)

/-- Nothing is erased, and what is written keeps its key. -/
def Edit.Adds : Edit α → Prop
  | .insert .. => True
  | .erase _ => False
  | .write _ f => ∀ x, key (f x) = key x

/-- Nothing is inserted, and what is written keeps its key. -/
def Edit.Removes : Edit α → Prop
  | .insert .. => False
  | .erase _ => True
  | .write _ f => ∀ x, key (f x) = key x

/-- Edits of one of the two kinds never erase a key and insert it again. -/
def OneWay (es : List (Edit α)) : Prop := (∀ e ∈ es, e.Adds key) ∨ ∀ e ∈ es, e.Removes key

end

section

variable {key : α → Nat} {keepOwn addOther : Bool} {change : α → α → α}
  {both : α → α → Option α × Bool} (hkey : ∀ x y, key (change x y) = key x)

include hkey

/-- Nothing goes if own entries stay and `both` leaves something. -/
theorem combineEdits_adds (hboth : ∀ x y, (both x y).1 ≠ none) (p : Nat) (own other : List α) :
    ∀ e ∈ combineEdits key true addOther change both p own other, e.Adds key := by
  induction own, other using walk_induct key generalizing p with
  | done own =>
      rw [combineEdits]
      exact List.forall_mem_nil _
  | rest y other ih =>
      rw [combineEdits]
      split
      · exact List.forall_mem_cons.mpr ⟨trivial, ih _⟩
      · exact List.forall_mem_nil _
  | other x own y other hlt ih =>
      rw [combineEdits, if_pos hlt]
      split
      · exact List.forall_mem_cons.mpr ⟨trivial, ih _⟩
      · exact ih _
  | both x own y other heq ih =>
      have hge : ¬ key y < key x := by omega
      rw [combineEdits, if_neg hge, if_pos heq]
      refine List.forall_mem_cons.mpr ⟨fun z => hkey z y, ?_⟩
      cases hb : (both x y).1 with
      | none => exact absurd hb (hboth x y)
      | some z => exact ih _
  | own x own y other hlt ih =>
      have hge : ¬ key y < key x := by omega
      have hne : key x ≠ key y := by omega
      rw [combineEdits, if_neg hge, if_neg hne, if_pos rfl]
      exact ih _

/-- Nothing comes if the entries of the other list are not added. -/
theorem combineEdits_removes (p : Nat) (own other : List α) :
    ∀ e ∈ combineEdits key keepOwn false change both p own other, e.Removes key := by
  induction own, other using walk_induct key generalizing p with
  | done own =>
      rw [combineEdits]
      split
      · exact List.forall_mem_nil _
      · intro e he
        obtain ⟨_, -, rfl⟩ := List.mem_map.mp he
        trivial
  | rest y other ih =>
      rw [combineEdits]
      exact List.forall_mem_nil _
  | other x own y other hlt ih =>
      rw [combineEdits, if_pos hlt]
      exact ih _
  | both x own y other heq ih =>
      have hge : ¬ key y < key x := by omega
      rw [combineEdits, if_neg hge, if_pos heq]
      refine List.forall_mem_cons.mpr ⟨fun z => hkey z y, ?_⟩
      cases hb : (both x y).1 with
      | none => exact List.forall_mem_cons.mpr ⟨trivial, ih _⟩
      | some z => exact ih _
  | own x own y other hlt ih =>
      have hge : ¬ key y < key x := by omega
      have hne : key x ≠ key y := by omega
      rw [combineEdits, if_neg hge, if_neg hne]
      split
      · exact ih _
      · exact List.forall_mem_cons.mpr ⟨trivial, ih _⟩

end

namespace Store

/-- Take a free node, or else a new one, and let it hold `x`. -/
def take (S : Store ι α) (x : α) : Store ι α × Nat :=
  match S.stack with
  | [] => ({ S with cells := Function.update S.cells S.fresh x, fresh := S.fresh + 1 }, S.fresh)
  | el :: stack => ({ S with cells := Function.update S.cells el x, stack }, el)

/-- What the nodes of a list hold. -/
def view (S : Store ι α) (a : ι) : List α := (S.lists a).map S.cells

/-- Every node that was allocated is in one list, once, or free, once. -/
structure Owned (S : Store ι α) : Prop where
  nodup : ∀ a, (S.lists a).Nodup
  apart : ∀ {a b x}, x ∈ S.lists a → x ∈ S.lists b → a = b
  free : S.stack.Nodup
  unused : ∀ {x a}, x ∈ S.stack → x ∉ S.lists a
  iff : ∀ x, x < S.fresh ↔ x ∈ S.stack ∨ ∃ a, x ∈ S.lists a

variable [DecidableEq ι] {S : Store ι α} {a : ι}

/-- An edit of list `a`. -/
def edit (S : Store ι α) (a : ι) : Edit α → Option (Store ι α)
  | .insert p x =>
    if p ≤ (S.lists a).length then
      let (S, el) := S.take x
      some { S with lists := Function.update S.lists a (insertAt (S.lists a) p el) }
    else none
  | .erase p =>
    match (S.lists a)[p]? with
    | none => none
    | some el => some { S with
        stack := el :: S.stack
        lists := Function.update S.lists a ((S.lists a).eraseIdx p) }
  | .write p f =>
    match (S.lists a)[p]? with
    | none => none
    | some el => some { S with cells := Function.update S.cells el (f (S.cells el)) }

def edits (S : Store ι α) (a : ι) (es : List (Edit α)) : Option (Store ι α) :=
  es.foldlM (fun S e => S.edit a e) S

theorem mem_insertAt {l : List Nat} {p x y : Nat} : x ∈ insertAt l p y ↔ x = y ∨ x ∈ l := by
  rw [insertAt, List.mem_append, List.mem_cons, ← List.take_append_drop p l, List.mem_append]
  simp only [List.take_append_drop]
  tauto

theorem insertAt_nodup {l : List Nat} {p y : Nat} (hl : l.Nodup) (hy : y ∉ l) :
    (insertAt l p y).Nodup := by
  have hperm : (insertAt l p y).Perm (y :: l) := by
    rw [insertAt]
    refine List.perm_middle.trans (List.Perm.cons y ?_)
    rw [List.take_append_drop]
  exact hperm.nodup_iff.mpr (List.nodup_cons.mpr ⟨hy, hl⟩)

/-- A cell of no other list changes. -/
theorem map_update {l : List Nat} {cells : Nat → α} {el : Nat} {x : α} (h : el ∉ l) :
    l.map (Function.update cells el x) = l.map cells :=
  List.map_congr_left fun _ hy => Function.update_of_ne (ne_of_mem_of_not_mem hy h) ..

/-- `el` was taken, which is in no list, and all others stay where they are. -/
structure Taken (S : Store ι α) (x : α) (T : Store ι α) (el : Nat) : Prop where
  lists : T.lists = S.lists
  cells : T.cells = Function.update S.cells el x
  new : ∀ b, el ∉ S.lists b
  out : el ∉ T.stack
  free : T.stack.Nodup
  sub : ∀ {y}, y ∈ T.stack → y ∈ S.stack
  iff : ∀ y, y < T.fresh ↔ y = el ∨ y ∈ T.stack ∨ ∃ b, y ∈ S.lists b

omit [DecidableEq ι] in
theorem Owned.take (h : S.Owned) (x : α) : S.Taken x (S.take x).1 (S.take x).2 := by
  unfold Store.take
  cases hs : S.stack with
  | nil =>
      refine ⟨rfl, rfl, fun b hb => Nat.lt_irrefl S.fresh ((h.iff _).mpr (.inr ⟨b, hb⟩)),
        List.not_mem_nil, .nil, fun hy => hs ▸ hy, fun y => ?_⟩
      have hiff := h.iff y
      rw [hs] at hiff
      dsimp only
      rw [Nat.lt_succ_iff_lt_or_eq, hiff, or_comm]
  | cons el stack =>
      have hfree := h.free
      rw [hs] at hfree
      obtain ⟨hel, hstack⟩ := List.nodup_cons.mp hfree
      refine ⟨rfl, rfl, fun b => h.unused (by rw [hs]; exact List.mem_cons_self), hel, hstack,
        fun hy => hs ▸ List.mem_cons_of_mem el hy, fun y => ?_⟩
      have hiff := h.iff y
      rw [hs, List.mem_cons, or_assoc] at hiff
      exact hiff

/-- The nodes after a node was inserted. -/
theorem Owned.insert (h : S.Owned) {p : Nat} (hp : p ≤ (S.lists a).length) (x : α) :
    ∃ S', S.edit a (.insert p x) = some S' ∧ S'.Owned ∧
      S'.view = Function.update S.view a (insertAt (S.view a) p x) := by
  have htake := h.take x
  rw [Store.edit, if_pos hp]
  generalize S.take x = taken at htake ⊢
  obtain ⟨T, el⟩ := taken
  dsimp only at htake ⊢
  rw [htake.lists]
  have hmem : ∀ b y, y ∈ Function.update S.lists a (insertAt (S.lists a) p el) b ↔
      (b = a ∧ y = el) ∨ y ∈ S.lists b := by
    intro b y
    by_cases hb : b = a
    · subst hb
      rw [Function.update_self, mem_insertAt]
      exact or_congr_left (and_iff_right rfl).symm
    · rw [Function.update_of_ne hb]
      exact (or_iff_right fun hn => hb hn.1).symm
  refine ⟨_, rfl, ⟨fun b => ?_, fun {b c y} hb hc => ?_, htake.free, fun {y b} hy hb => ?_, fun y => ?_⟩, ?_⟩
  · dsimp only
    by_cases hb : b = a
    · subst hb
      rw [Function.update_self]
      exact insertAt_nodup (h.nodup b) (htake.new b)
    · rw [Function.update_of_ne hb]
      exact h.nodup b
  · rcases (hmem b y).mp hb with ⟨rfl, rfl⟩ | hyb
    · exact ((hmem c y).mp hc).elim (fun hn => hn.1.symm) fun hc => absurd hc (htake.new c)
    · rcases (hmem c y).mp hc with ⟨-, rfl⟩ | hyc
      · exact absurd hyb (htake.new b)
      · exact h.apart hyb hyc
  · rcases (hmem b y).mp hb with ⟨rfl, rfl⟩ | hb
    · exact htake.out hy
    · exact h.unused (htake.sub hy) hb
  · refine (htake.iff y).trans ?_
    constructor
    · rintro (rfl | hy | ⟨b, hb⟩)
      · exact .inr ⟨a, (hmem a y).mpr (.inl ⟨rfl, rfl⟩)⟩
      · exact .inl hy
      · exact .inr ⟨b, (hmem b y).mpr (.inr hb)⟩
    · rintro (hy | ⟨b, hb⟩)
      · exact .inr (.inl hy)
      · rcases (hmem b y).mp hb with ⟨-, rfl⟩ | hb
        · exact .inl rfl
        · exact .inr (.inr ⟨b, hb⟩)
  · funext b
    unfold view
    dsimp only
    rw [htake.cells]
    by_cases hb : b = a
    · subst hb
      have hnew := htake.new b
      rw [← List.take_append_drop p (S.lists b), List.mem_append, not_or] at hnew
      rw [Function.update_self, Function.update_self, insertAt, insertAt, List.map_append, List.map_cons,
        Function.update_self, map_update hnew.1, map_update hnew.2, List.map_take, List.map_drop]
    · rw [Function.update_of_ne hb, Function.update_of_ne hb]
      exact map_update (htake.new b)

/-- The nodes after the one at position `p` was given back. -/
theorem Owned.erase (h : S.Owned) {p : Nat} (hp : p < (S.lists a).length) :
    ∃ S', S.edit a (.erase p) = some S' ∧ S'.Owned ∧
      S'.view = Function.update S.view a ((S.view a).eraseIdx p) := by
  rw [Store.edit, List.getElem?_eq_getElem hp]
  dsimp only
  have hel : (S.lists a)[p] ∈ S.lists a := List.getElem_mem hp
  have hmem : ∀ b y, y ∈ Function.update S.lists a ((S.lists a).eraseIdx p) b ↔
      y ∈ S.lists b ∧ y ≠ (S.lists a)[p] := by
    intro b y
    by_cases hb : b = a
    · subst hb
      have hnodup := h.nodup b
      rw [Function.update_self, List.eraseIdx_eq_take_drop_succ]
      nth_rewrite 1 [← List.take_append_drop p (S.lists b)] at hnodup
      nth_rewrite 3 [← List.take_append_drop p (S.lists b)]
      rw [List.drop_eq_getElem_cons hp] at hnodup ⊢
      rw [List.mem_append, List.mem_append, List.mem_cons]
      obtain ⟨-, h2, h12⟩ := List.nodup_append.mp hnodup
      have hbehind := (List.nodup_cons.mp h2).1
      constructor
      · rintro (hy | hy)
        · exact ⟨.inl hy, h12 y hy _ List.mem_cons_self⟩
        · exact ⟨.inr (.inr hy), ne_of_mem_of_not_mem hy hbehind⟩
      · rintro ⟨hy | hy | hy, hne⟩
        · exact .inl hy
        · exact absurd hy hne
        · exact .inr hy
    · rw [Function.update_of_ne hb]
      exact (and_iff_left_of_imp fun hy he => hb (h.apart hy (he ▸ hel))).symm
  refine ⟨_, rfl, ⟨fun b => ?_, fun {b c y} hb hc => ?_, ?_, fun {y b} hy hb => ?_, fun y => ?_⟩, ?_⟩
  · dsimp only
    by_cases hb : b = a
    · subst hb
      rw [Function.update_self]
      exact (h.nodup b).sublist (List.eraseIdx_sublist ..)
    · rw [Function.update_of_ne hb]
      exact h.nodup b
  · exact h.apart ((hmem b y).mp hb).1 ((hmem c y).mp hc).1
  · exact List.nodup_cons.mpr ⟨fun hs => h.unused hs hel, h.free⟩
  · obtain ⟨hyb, hne⟩ := (hmem b y).mp hb
    exact h.unused ((List.mem_cons.mp hy).resolve_left hne) hyb
  · refine (h.iff y).trans ?_
    dsimp only
    rw [List.mem_cons]
    constructor
    · rintro (hy | ⟨b, hb⟩)
      · exact .inl (.inr hy)
      · by_cases hy : y = (S.lists a)[p]
        · exact .inl (.inl hy)
        · exact .inr ⟨b, (hmem b y).mpr ⟨hb, hy⟩⟩
    · rintro ((rfl | hy) | ⟨b, hb⟩)
      · exact .inr ⟨a, hel⟩
      · exact .inl hy
      · exact .inr ⟨b, ((hmem b y).mp hb).1⟩
  · funext b
    unfold view
    dsimp only
    by_cases hb : b = a
    · subst hb
      rw [Function.update_self, Function.update_self, List.eraseIdx_map]
    · rw [Function.update_of_ne hb, Function.update_of_ne hb]

/-- What the nodes hold after the one at position `p` was written. -/
theorem Owned.write (h : S.Owned) {p : Nat} (hp : p < (S.lists a).length) (f : α → α) :
    ∃ S', S.edit a (.write p f) = some S' ∧ S'.Owned ∧
      S'.view = Function.update S.view a ((S.view a).modify p f) := by
  rw [Store.edit, List.getElem?_eq_getElem hp]
  refine ⟨_, rfl, ⟨h.nodup, h.apart, h.free, h.unused, h.iff⟩, ?_⟩
  have hel : (S.lists a)[p] ∈ S.lists a := List.getElem_mem hp
  funext b
  unfold view
  dsimp only
  by_cases hb : b = a
  · subst hb
    rw [Function.update_self]
    refine List.ext_getElem (by rw [List.length_modify, List.length_map, List.length_map]) fun i hi hi' => ?_
    rw [List.getElem_map, List.getElem_modify, List.getElem_map]
    rw [List.length_map] at hi
    split
    · rename_i heq
      subst heq
      exact Function.update_self ..
    · rename_i hne
      exact Function.update_of_ne (fun he => hne ((h.nodup b).getElem_inj_iff.mp he).symm) ..
  · rw [Function.update_of_ne hb]
    exact map_update fun hm => hb (h.apart hm hel)

/-- An edit of one list does there what it does to a list of values, nothing elsewhere, and leaves
each node in one place. -/
theorem Owned.edit (h : S.Owned) {e : Edit α} {l : List α} (he : e.apply (S.view a) = some l) :
    ∃ S', S.edit a e = some S' ∧ S'.Owned ∧ S'.view = Function.update S.view a l := by
  have hlen : (S.view a).length = (S.lists a).length := List.length_map ..
  cases e with
  | insert p x =>
      obtain ⟨hp, hl⟩ := Option.ite_none_right_eq_some.mp he
      rw [← Option.some.inj hl]
      exact h.insert (hlen ▸ hp) x
  | erase p =>
      obtain ⟨hp, hl⟩ := Option.ite_none_right_eq_some.mp he
      rw [← Option.some.inj hl]
      exact h.erase (hlen ▸ hp)
  | write p f =>
      obtain ⟨hp, hl⟩ := Option.ite_none_right_eq_some.mp he
      rw [← Option.some.inj hl]
      exact h.write (hlen ▸ hp) f

theorem Owned.edits (h : S.Owned) {es : List (Edit α)} {l : List α}
    (he : applyEdits es (S.view a) = some l) :
    ∃ S', S.edits a es = some S' ∧ S'.Owned ∧ S'.view = Function.update S.view a l := by
  induction es generalizing S with
  | nil =>
      refine ⟨S, rfl, h, ?_⟩
      rw [← Option.some.inj he, Function.update_eq_self]
  | cons e es ih =>
      obtain ⟨l1, h1, hrest⟩ := Option.bind_eq_some_iff.mp he
      obtain ⟨S1, hS1, hown, hview⟩ := h.edit h1
      have hat : S1.view a = l1 := by rw [hview, Function.update_self]
      obtain ⟨S', hS', hown', hview'⟩ := ih hown (hat ▸ hrest)
      refine ⟨S', ?_, hown', ?_⟩
      · rw [Store.edits, List.foldlM_cons, hS1]
        exact hS'
      · rw [hview', hview, Function.update_idem]

/-! ## Nodes that stay -/

section

variable {key : α → Nat} {S' : Store ι α} {e : Edit α} {es : List (Edit α)} {x : Nat}

omit [DecidableEq ι] in
theorem key_write {f : α → α} (hf : ∀ y, key (f y) = key y) (cells : Nat → α) (el : Nat) :
    key (Function.update cells el (f (cells el)) x) = key (cells x) := by
  by_cases hx : x = el
  · rw [hx, Function.update_self, hf]
  · rw [Function.update_of_ne hx]

theorem Owned.edit_adds (h : S.Owned) (he : e.Adds key) (hS : S.edit a e = some S')
    (hx : x ∈ S.lists a) : x ∈ S'.lists a ∧ key (S'.cells x) = key (S.cells x) := by
  cases e with
  | insert p y =>
      have htake := h.take y
      rw [Store.edit] at hS
      generalize S.take y = taken at htake hS
      obtain ⟨-, hS⟩ := Option.ite_none_right_eq_some.mp hS
      obtain rfl := Option.some.inj hS
      constructor
      · dsimp only
        rw [Function.update_self, mem_insertAt, htake.lists]
        exact .inr hx
      · dsimp only
        rw [htake.cells, Function.update_of_ne (ne_of_mem_of_not_mem hx (htake.new a))]
  | erase p => exact he.elim
  | write p f =>
      rw [Store.edit] at hS
      split at hS
      · cases hS
      · obtain rfl := Option.some.inj hS
        exact ⟨hx, key_write he ..⟩

theorem edit_removes (he : e.Removes key) (hS : S.edit a e = some S') (hx : x ∈ S'.lists a) :
    x ∈ S.lists a ∧ key (S'.cells x) = key (S.cells x) := by
  cases e with
  | insert p y => exact he.elim
  | erase p =>
      rw [Store.edit] at hS
      split at hS
      · cases hS
      · obtain rfl := Option.some.inj hS
        dsimp only at hx
        rw [Function.update_self] at hx
        exact ⟨(List.eraseIdx_sublist ..).subset hx, rfl⟩
  | write p f =>
      rw [Store.edit] at hS
      split at hS
      · cases hS
      · obtain rfl := Option.some.inj hS
        exact ⟨hx, key_write he ..⟩

theorem Owned.edits_adds (h : S.Owned) (hes : ∀ e ∈ es, e.Adds key) {l : List α}
    (he : applyEdits es (S.view a) = some l) (hS : S.edits a es = some S') (hx : x ∈ S.lists a) :
    x ∈ S'.lists a ∧ key (S'.cells x) = key (S.cells x) := by
  induction es generalizing S with
  | nil =>
      obtain rfl := Option.some.inj hS
      exact ⟨hx, rfl⟩
  | cons e es ih =>
      obtain ⟨hadds, hes⟩ := List.forall_mem_cons.mp hes
      obtain ⟨l1, h1, hrest⟩ := Option.bind_eq_some_iff.mp he
      obtain ⟨S1, hS1, hown, hview⟩ := h.edit h1
      have hat : S1.view a = l1 := by rw [hview, Function.update_self]
      rw [Store.edits, List.foldlM_cons, hS1] at hS
      obtain ⟨hx1, hk1⟩ := h.edit_adds hadds hS1 hx
      obtain ⟨hx', hk'⟩ := ih hown hes (hat ▸ hrest) hS hx1
      exact ⟨hx', hk'.trans hk1⟩

theorem edits_removes (hes : ∀ e ∈ es, e.Removes key) (hS : S.edits a es = some S')
    (hx : x ∈ S'.lists a) : x ∈ S.lists a ∧ key (S'.cells x) = key (S.cells x) := by
  induction es generalizing S with
  | nil =>
      obtain rfl := Option.some.inj hS
      exact ⟨hx, rfl⟩
  | cons e es ih =>
      obtain ⟨hremoves, hes⟩ := List.forall_mem_cons.mp hes
      obtain ⟨S1, hS1, hrest⟩ := Option.bind_eq_some_iff.mp hS
      obtain ⟨hx1, hk'⟩ := ih hes hrest
      obtain ⟨hx0, hk1⟩ := edit_removes hremoves hS1 hx1
      exact ⟨hx0, hk'.trans hk1⟩

omit [DecidableEq ι] in
/-- One node of a list with ascending keys has a key. -/
theorem node_inj (hasc : Ascends key (S.view a)) {y : Nat} (hx : x ∈ S.lists a)
    (hy : y ∈ S.lists a) (hxy : key (S.cells x) = key (S.cells y)) : x = y := by
  have hnodup : ((S.lists a).map fun z => key (S.cells z)).Nodup :=
    List.pairwise_map.mpr ((List.pairwise_map.mp hasc).imp Nat.ne_of_lt)
  exact List.inj_on_of_nodup_map hnodup hx hy hxy

/-- After edits of one kind the node that had a key still has it, if any node has. -/
theorem Owned.edits_stay (h : S.Owned) (hasc : Ascends key (S.view a)) (hes : OneWay key es)
    {l : List α} (he : applyEdits es (S.view a) = some l) (hS : S.edits a es = some S')
    (hx : x ∈ S.lists a) (hk : ∃ z ∈ S'.view a, key z = key (S.cells x)) :
    x ∈ S'.lists a ∧ key (S'.cells x) = key (S.cells x) := by
  rcases hes with hes | hes
  · exact h.edits_adds hes he hS hx
  · obtain ⟨_, hz, hkz⟩ := hk
    obtain ⟨y, hy, rfl⟩ := List.mem_map.mp hz
    obtain ⟨hy0, hky⟩ := edits_removes hes hS hy
    obtain rfl : x = y := node_inj hasc hx hy0 (hkz.symm.trans hky)
    exact ⟨hy, hky⟩

/-- An edit of one list changes no other. -/
theorem edit_others {b : ι} (hb : b ≠ a) (hS : S.edit a e = some S') : S'.lists b = S.lists b := by
  cases e with
  | insert p y =>
      have htake : (S.take y).1.lists = S.lists := by
        unfold take
        split <;> rfl
      rw [Store.edit] at hS
      generalize S.take y = taken at htake hS
      obtain ⟨-, hS⟩ := Option.ite_none_right_eq_some.mp hS
      obtain rfl := Option.some.inj hS
      dsimp only
      rw [Function.update_of_ne hb, htake]
  | erase p =>
      rw [Store.edit] at hS
      split at hS
      · cases hS
      · obtain rfl := Option.some.inj hS
        exact Function.update_of_ne hb ..
  | write p f =>
      rw [Store.edit] at hS
      split at hS
      · cases hS
      · obtain rfl := Option.some.inj hS
        rfl

theorem edits_others {b : ι} (hb : b ≠ a) (hS : S.edits a es = some S') :
    S'.lists b = S.lists b := by
  induction es generalizing S with
  | nil => rw [← Option.some.inj hS]
  | cons e es ih =>
      obtain ⟨S1, hS1, hrest⟩ := Option.bind_eq_some_iff.mp hS
      exact (ih hrest).trans (edit_others hb hS1)

end

/-- Nothing is allocated. -/
def start (x : α) : Store ι α := ⟨fun _ => x, 0, [], fun _ => []⟩

omit [DecidableEq ι] in
theorem start_owned (x : α) : (start x : Store ι α).Owned where
  nodup _ := .nil
  apart hx := by cases hx
  free := .nil
  unused hx := by cases hx
  iff y := by simp [start]

end Store

end PtrAnalysis
