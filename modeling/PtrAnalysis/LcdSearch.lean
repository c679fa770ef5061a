import PtrAnalysis.Lib.Tarjan
import PtrAnalysis.LcdRule

/-!
# Lazy cycle detection finds the components

`runLcd` is followed by a `Search` of the copy graph it began with, read through
the representatives of that moment. `Tracks` ties the two together: a node the
search has not finished is still its own representative and has its old edges, and
two nodes were merged only if they are in one complete component. This needs that
merging a component starts no cascade, which is `Calm`.
-/

namespace PtrAnalysis

open Run Relation PtrAnalysis.Graph PtrAnalysis.Search

/-! ## Merges that start no cascade -/

namespace Graph

/-- Graph `g'` is `g` after `b` went under `a`; at most the target of `b` was moved. -/
structure Absorbed (g : Graph) (a b : Nat) (g' : Graph) : Prop where
  mergeable : Mergeable g a b
  coarser : Coarser g g'
  nodes : g'.nodes = (g.absorb a b).nodes
  forest : g'.forest = (g.absorb a b).forest
  entry : ∀ m, m ≠ b → g'.hv m ≠ 0 → g'.hv m = g.hv m ∨ m = a ∧ g'.hv m = g.hv b

namespace Absorbed

variable {g g' : Graph} {a b : Nat}

theorem rep (h : Absorbed g a b g') (x : Nat) : g'.rep x = if g.rep x = b then a else g.rep x := by
  have hrep : g'.rep x = (g.absorb a b).rep x := by rw [Graph.rep, h.forest]; rfl
  rw [hrep, absorb_rep h.mergeable]

theorem isRep (h : Absorbed g a b g') (x : Nat) :
    g'.isRep x = true ↔ g.isRep x = true ∧ x ≠ b := by
  have hrep : g'.isRep x = (g.absorb a b).isRep x := by rw [Graph.isRep, h.forest]; rfl
  rw [hrep, absorb_isRep h.mergeable]

/-- Two nodes are together if they were before, or both were in one of the merged sets. -/
theorem rep_eq (h : Absorbed g a b g') (x y : Nat) :
    g'.rep x = g'.rep y ↔
      g.rep x = g.rep y ∨ (g.rep x = a ∨ g.rep x = b) ∧ (g.rep y = a ∨ g.rep y = b) := by
  have hne := h.mergeable.ne
  rw [h.rep, h.rep]
  split <;> split <;> grind

end Absorbed

end Graph

/-- If two nodes with targets have them in one set, merging the nodes merges no others. -/
theorem mergeNodes_calm {g : Graph} {n1 n2 : Nat} (fuel : Nat) (hm : Mergeable g n1 n2)
    (hcalm : g.hv n1 ≠ 0 → g.hv n2 ≠ 0 → g.rep (g.hv n1) = g.rep (g.hv n2)) :
    ∃ a b g', (a = n1 ∧ b = n2 ∨ a = n2 ∧ b = n1) ∧
      mergeNodes (fuel + 1) g n1 n2 = .ok (g', a) ∧ Absorbed g a b g' := by
  obtain ⟨⟨a, b⟩, hr⟩ : ∃ t, byRank g n1 n2 = t := ⟨_, rfl⟩
  have hab := hm.byRank hr
  have hcases : a = n1 ∧ b = n2 ∨ a = n2 ∧ b = n1 := by
    rcases byRank_cases g n1 n2 with h | h <;> rw [h] at hr <;> cases hr
    · exact .inl ⟨rfl, rfl⟩
    · exact .inr ⟨rfl, rfl⟩
  have hsame : g.hv b ≠ 0 → g.hv a ≠ 0 →
      (g.absorb a b).rep (g.hv a) = (g.absorb a b).rep (g.hv b) := by
    intro hb ha
    refine (absorb_coarser hab).rep ?_
    rcases hcases with ⟨rfl, rfl⟩ | ⟨rfl, rfl⟩
    · exact hcalm ha hb
    · exact (hcalm hb ha).symm
  have hc := absorb_coarser hab
  have hmoved : ∀ {g'}, g'.nodes = (g.absorb a b).nodes → g'.forest = (g.absorb a b).forest →
      g'.size = g.size → g'.indCalls = (g.absorb a b).indCalls → g'.cascades = g.cascades →
      (∀ m, m ≠ b → g'.hv m ≠ 0 → g'.hv m = g.hv m ∨ m = a ∧ g'.hv m = g.hv b) →
      Absorbed g a b g' := fun hn hf hs hi hcas he =>
    ⟨hab, hc.trans (.ofSame hn hf hs hi (by rw [hcas]; exact List.Subset.refl _)), hn, hf, he⟩
  have hdone : Spec (mergeNodes (fuel + 1) g n1 n2)
      (fun t => t.2 = a ∧ Absorbed g a b t.1) (fun _ => False) := by
    rw [mergeNodes]
    refine spec_require (fun h => h hm.valid1) fun _ => ?_
    refine spec_require (fun h => h hm.valid2) fun _ => ?_
    refine spec_require (fun h => h hm.ne) fun _ => ?_
    refine spec_require (fun h => h hm.not_i2p) fun _ => ?_
    refine spec_require (fun h => h hm.isRep) fun _ => ?_
    rw [hr]
    change Spec (if g.hv b = 0 then _ else if g.hv a = 0 then _ else _) _ _
    split
    · exact ⟨rfl, hmoved rfl rfl rfl rfl rfl fun m _ _ => .inl rfl⟩
    · split
      · refine ⟨rfl, hmoved rfl rfl rfl rfl rfl fun m hm _ => ?_⟩
        simp only [setHcdVar_hv, absorb_hv, if_neg hm]
        split
        · rename_i hma
          exact .inr ⟨hma, rfl⟩
        · exact .inl rfl
      · change Spec (if (g.absorb a b).rep (g.hv a) = (g.absorb a b).rep (g.hv b) then _ else _) _ _
        rw [if_pos (hsame ‹_› ‹_›)]
        refine ⟨rfl, hmoved rfl rfl rfl rfl rfl fun m hm _ => .inl ?_⟩
        simp only [setHcdVar_hv, absorb_hv, if_neg hm]
  cases hres : mergeNodes (fuel + 1) g n1 n2 with
  | error e => exact (hdone.stop hres).elim
  | ok t =>
      obtain ⟨rfl, habs⟩ := hdone.result hres
      exact ⟨t.2, b, t.1, hcases, rfl, habs⟩

/-! ## The graph that is searched -/

namespace Graph

/-- There is a copy edge from `u` to the set of `v`. -/
def CopiesTo (g : Graph) (u v : Nat) : Prop := ∃ d ∈ (g.nodes u).copyTo, g.rep d = v

/-- `x` can be reached from a representative among `starts`. -/
def Found (g : Graph) (starts : Finset Nat) (x : Nat) : Prop :=
  ∃ n ∈ starts, g.isRep n = true ∧ ReflTransGen g.CopiesTo n x

theorem Found.isRep {g : Graph} {starts : Finset Nat} {x : Nat} (h : g.Found starts x) :
    g.isRep x = true := by
  obtain ⟨n, -, hn, hr⟩ := h
  cases hr with
  | refl => exact hn
  | tail _ hs =>
      obtain ⟨d, -, rfl⟩ := hs
      exact isRep_rep g d

theorem Found.to {g : Graph} {starts : Finset Nat} {x y : Nat} (h : g.Found starts x)
    (hxy : ReflTransGen g.CopiesTo x y) : g.Found starts y :=
  h.imp fun _ ⟨hn, hrep, hr⟩ => ⟨hn, hrep, hr.trans hxy⟩

/-- What every copy graph has: edges lead to other nodes, and never to the unknown
pointer. -/
structure Clean (g : Graph) (starts : Finset Nat) : Prop where
  loop : ∀ u, u ∉ (g.nodes u).copyTo
  valid : ∀ x, g.Found starts x → (x ≠ 0 ∧ x < g.size) ∧ x ≠ i2p

/-- Merging the components starts no cascade: where two nodes of a component have
targets in offline cycles, these are in one set, or in one component further down. -/
def Calm (g : Graph) (starts : Finset Nat) : Prop :=
  ∀ x y, g.Found starts x → Mutual g.CopiesTo x y → g.hv x ≠ 0 → g.hv y ≠ 0 →
    g.rep (g.hv x) = g.rep (g.hv y) ∨
      Mutual g.CopiesTo (g.rep (g.hv x)) (g.rep (g.hv y)) ∧
        ReflTransGen g.CopiesTo x (g.rep (g.hv x)) ∧ ¬ Mutual g.CopiesTo x (g.rep (g.hv x))

/-- Two nodes are the same or in one component that the search completed. -/
def Merged (g : Graph) (T : Search Nat) (x y : Nat) : Prop :=
  x = y ∨ (x ∈ T.done ∧ y ∈ T.done) ∧ Mutual g.CopiesTo x y

end Graph

section

variable {W : Type} [Worklist W] [LawfulWorklist W] {g : Graph} {starts : Finset Nat}
  {T T1 T2 : Search Nat} {s s' : Solver W} {n m : Nat} {new : List Nat}

/-- The state follows the search `T` of `g`: `R` says which sets were merged, and the
edges of the nodes in `K` are the old ones. -/
structure Follows (g : Graph) (T : Search Nat) (R : Nat → Nat → Prop) (K : Nat → Prop)
    (s : Solver W) : Prop where
  size : s.size = g.size
  isRep : ∀ {x}, s.isRep x = true → g.isRep x = true
  mono : ∀ {x y}, g.rep x = g.rep y → s.rep x = s.rep y
  rep : ∀ x y, s.rep x = s.rep y ↔ R (g.rep x) (g.rep y)
  entry : ∀ r, s.isRep r = true → s.hv r ≠ 0 →
    ∃ x, g.isRep x = true ∧ s.rep x = r ∧ g.hv x = s.hv r
  old : ∀ x, T.num x ≠ 0 → g.isRep x = true
  number : ∀ x, g.isRep x = true → s.lcdDfsId x = if T.num x = 0 then none else some (T.low x)
  root : ∀ x, s.isRep x = true → (x ∈ s.lcdRoots ↔ x ∈ T.done)
  clock : s.currLcdDfs = T.clock
  edge : ∀ x, g.isRep x = true → K x → (s.nodes x).copyTo = (g.nodes x).copyTo

structure Tracks (g : Graph) (T : Search Nat) (s : Solver W) : Prop
    extends Follows g T (g.Merged T) (fun x => x ∉ T.stack ∧ x ∉ T.done) s where
  stk : s.lcdStk = T.stack

omit [Worklist W] [LawfulWorklist W]

namespace Follows

variable {R R' : Nat → Nat → Prop} {K K' : Nat → Prop}

theorem congr (h : Follows g T R K s) (hR : ∀ x y, R x y ↔ R' x y) : Follows g T R' K s :=
  { h with rep := fun x y => (h.rep x y).trans (hR _ _) }

/-- The representative of an old one was merged with it. -/
theorem rep_self (h : Follows g T R K s) {x : Nat} (hx : g.isRep x = true) : R (s.rep x) x := by
  have hr := (h.rep (s.rep x) x).mp (rep_rep ..)
  rwa [rep_eq_self.mpr (h.isRep (isRep_rep ..)), rep_eq_self.mpr hx] at hr

/-- The number of an old representative the search has seen. -/
theorem dfsId (h : Follows g T R K s) {x : Nat} (hx : g.isRep x = true) (hs : T.num x ≠ 0) :
    s.lcdDfsId x = some (T.low x) := by rw [h.number x hx, if_neg hs]

/-- Reading a number that is there changes nothing. -/
theorem setDfsId (h : Follows g T R K s) {x : Nat} (hx : g.isRep x = true) (hs : T.num x ≠ 0) :
    PtrAnalysis.setDfsId s x (PtrAnalysis.dfsId s x) = s := by
  have hid := h.dfsId hx hs
  unfold PtrAnalysis.setDfsId PtrAnalysis.dfsId
  rw [hid, Option.getD_some, ← hid, Function.update_eq_self]

/-- Other numbers for the nodes. -/
theorem renumber (h : Follows g T R K s) {low : Nat → Nat} {f : Nat → Option Nat}
    (hf : ∀ x, g.isRep x = true → f x = if T.num x = 0 then none else some (low x)) :
    Follows g { T with low } R K { s with lcdDfsId := f } :=
  ⟨h.size, h.isRep, h.mono, h.rep, h.entry, h.old, hf, h.root, h.clock, h.edge⟩

end Follows

namespace Tracks

/-- Two nodes of which one is not finished are together only if they were. -/
theorem merged (h : Tracks g T s) {x y : Nat} (hxy : s.rep x = s.rep y) (hx : g.rep x ∉ T.done) :
    g.rep x = g.rep y :=
  ((h.rep x y).mp hxy).resolve_right fun hd => hx hd.1.1

/-- A node that is not finished is still its own representative. -/
theorem rep_undone (h : Tracks g T s) {x : Nat} (hx : g.isRep x = true) (hd : x ∉ T.done) :
    s.rep x = x :=
  (h.rep_self hx).resolve_right fun hm => hd hm.1.2

theorem renumber (h : Tracks g T s) {low : Nat → Nat} {f : Nat → Option Nat}
    (hf : ∀ x, g.isRep x = true → f x = if T.num x = 0 then none else some (low x)) :
    Tracks g { T with low } { s with lcdDfsId := f } :=
  ⟨h.toFollows.renumber hf, h.stk⟩

/-- Node `n` gets the next number. -/
theorem enter (h : Tracks g T s) (hn : g.isRep n = true) (hT : Inv g.CopiesTo T) :
    Tracks g (T.enter n)
      (setDfsId { s with currLcdDfs := s.currLcdDfs + 1 } n s.currLcdDfs) where
  size := h.size
  isRep := h.isRep
  mono := h.mono
  rep := h.rep
  entry := h.entry
  old x hx := by
    rw [enter_num] at hx
    split at hx
    · rename_i hxn
      exact hxn ▸ hn
    · exact h.old x hx
  number x hx := by
    have hpos := hT.clock
    rw [enter_num, enter_low, setDfsId_id, h.clock]
    split
    · rw [if_neg hpos.ne']
    · exact h.number x hx
  root := h.root
  clock := congrArg (· + 1) h.clock
  edge := h.edge
  stk := h.stk

/-- The number of an open successor is taken over. -/
theorem lower (h : Tracks g T s) (hn : g.isRep n = true) (hm : g.isRep m = true)
    (hns : T.num n ≠ 0) (hms : T.num m ≠ 0) :
    Tracks g (T.lower n m) (if dfsId s m < dfsId s n then setDfsId s n (dfsId s m) else s) := by
  have hidn := h.dfsId hn hns
  have hidm := h.dfsId hm hms
  have hdn : PtrAnalysis.dfsId s n = T.low n := by rw [PtrAnalysis.dfsId, hidn, Option.getD_some]
  have hdm : PtrAnalysis.dfsId s m = T.low m := by rw [PtrAnalysis.dfsId, hidm, Option.getD_some]
  rw [hdn, hdm]
  split
  · rename_i hlt
    refine h.renumber fun x hx => ?_
    rw [Function.update_apply, Function.update_apply, min_eq_right hlt.le]
    split
    · rename_i hxn
      rw [if_neg (hxn ▸ hns)]
    · exact h.number x hx
  · rename_i hle
    refine h.renumber (f := s.lcdDfsId) fun x hx => ?_
    rw [Function.update_apply, min_eq_left (Nat.le_of_not_lt hle), h.number x hx]
    split
    · rfl
    · split
      · rename_i hxn
        rw [hxn]
      · rfl

end Tracks

/-! ## Walking the edges of a node -/

/-- The reasons for which a search may stop: the worklist is full, or the model ran out
of fuel. -/
def SearchStop (e : Stop) : Prop := e = .fuel ∨ e ∈ listStops

/-- What a recursive call is to do. -/
def VisitTracks (g : Graph) (starts : Finset Nat) (visit : Solver W → Nat → Run (Solver W)) : Prop :=
  ∀ {s : Solver W} {T : Search Nat} {n : Nat}, Tracks g T s → Inv g.CopiesTo T → T.num n = 0 →
    g.Found starts n → (∀ z ∈ T.path, ReflTransGen g.CopiesTo z n) →
    Spec (visit s n) (fun s' => ∃ T' new, Tracks g T' s' ∧ Inv g.CopiesTo T' ∧
      Visited g.CopiesTo T T' n new) SearchStop

/-- The walk over the edges of `n` that began in `T` has come to `T1`; the edges that
were added lead to nodes that ask for nothing more. -/
structure OnWalk (g : Graph) (T T1 : Search Nat) (n : Nat) (new : List Nat) (s : Solver W)
    (e : LcdEdges) : Prop where
  tracks : Tracks g T1 s
  inv : Inv g.CopiesTo T1
  walked : Walked g.CopiesTo T T1 n new
  add : ∀ y ∈ e.add, g.isRep y = true ∧ T1.Handled n y

/-- An edge to a node other than `n` is replaced without complaint. -/
theorem lcdReplace_ok (dest0 : Nat) {dest : Nat} (e : LcdEdges) (hne : dest ≠ n) :
    ∃ e', lcdReplace n dest0 dest e = .ok e' ∧ e'.it = e.it ∧ ∀ y ∈ e'.add, y ∈ e.add ∨ y = dest := by
  unfold lcdReplace
  split
  · dsimp only
    split
    · exact ⟨_, rfl, rfl, fun y hy => .inl hy⟩
    · rw [require, if_pos hne]
      exact ⟨_, rfl, rfl, fun y hy => (Finset.mem_insert.mp hy).symm⟩
  · exact ⟨_, rfl, rfl, fun y hy => .inl hy⟩

/-- The rest of an edge to `d`, whose number is compared with that of `n`. -/
theorem lcdEdge_rest {d dest0 : Nat} {e : LcdEdges} (hne : d ≠ n) (hd : g.isRep d = true)
    (hread : setDfsId s d (dfsId s d) = s)
    (hw : OnWalk g T T2 n new (if dfsId s d < dfsId s n then setDfsId s n (dfsId s d) else s) e)
    (hkeep : ∀ w, T1.Handled n w → T2.Handled n w) (hto : T2.Handled n d)
    (hdest : T2.Handled n (g.rep dest0)) :
    Spec (do
        let s1 := setDfsId s d (dfsId s d)
        let s2 := if dfsId s d < dfsId s1 n then setDfsId s1 n (dfsId s d) else s1
        return (s2, ← lcdReplace n dest0 d e))
      (fun t => ∃ T2 new', OnWalk g T T2 n new' t.1 t.2 ∧
        (∀ w, T1.Handled n w → T2.Handled n w) ∧ T2.Handled n (g.rep dest0) ∧ t.2.it = e.it)
      SearchStop := by
  rw [hread]
  obtain ⟨e', he', hit, hadd⟩ := lcdReplace_ok dest0 e hne
  dsimp only
  rw [he']
  refine ⟨T2, new, ⟨hw.tracks, hw.inv, hw.walked, fun y hy => ?_⟩, hkeep, hdest, hit⟩
  rcases hadd y hy with hy | rfl
  · exact hw.add y hy
  · exact ⟨hd, hto⟩

/-- The node behind the edge is open, and `n` takes over its number. -/
theorem lcdEdge_lower {dest0 : Nat} {e : LcdEdges} (hne : g.rep dest0 ≠ n)
    (hn : g.isRep n = true) (hd : dest0 ∈ (g.nodes n).copyTo) (ht : Tracks g T2 s)
    (h2 : Inv g.CopiesTo T2) (hopen : T2.Open (g.rep dest0)) (hpath : n ∈ T2.path)
    (hwk : Walked g.CopiesTo T (T2.lower n (g.rep dest0)) n new)
    (hadd : ∀ y ∈ e.add, g.isRep y = true ∧ T2.Handled n y)
    (hkeep : ∀ w, T1.Handled n w → T2.Handled n w) :
    Spec (do
        let s1 := setDfsId s (g.rep dest0) (dfsId s (g.rep dest0))
        let s2 := if dfsId s (g.rep dest0) < dfsId s1 n then
          setDfsId s1 n (dfsId s (g.rep dest0)) else s1
        return (s2, ← lcdReplace n dest0 (g.rep dest0) e))
      (fun t => ∃ T2 new', OnWalk g T T2 n new' t.1 t.2 ∧
        (∀ w, T1.Handled n w → T2.Handled n w) ∧ T2.Handled n (g.rep dest0) ∧ t.2.it = e.it)
      SearchStop := by
  have hrep : g.isRep (g.rep dest0) = true := isRep_rep ..
  have hto := h2.handled_lower n hopen
  have hns := h2.num_pos (.inl hpath)
  have hds := h2.num_pos hopen
  have hw : OnWalk g T (T2.lower n (g.rep dest0)) n new (if dfsId s (g.rep dest0) < dfsId s n then
      setDfsId s n (dfsId s (g.rep dest0)) else s) e :=
    { tracks := ht.lower hn hrep hns hds
      inv := h2.lower hpath hopen ⟨dest0, hd, rfl⟩
      walked := hwk
      add := fun y hy => ⟨(hadd y hy).1, (hadd y hy).2.lower n (g.rep dest0)⟩ }
  exact lcdEdge_rest hne hrep (ht.setDfsId hrep hds) hw
    (fun w hw => (hkeep w hw).lower n (g.rep dest0)) hto hto

/-- The representative found is the old one, or both are finished. -/
theorem Tracks.rep_cases (ht : Tracks g T1 s) (dest0 : Nat) :
    s.rep dest0 = g.rep dest0 ∨ s.rep dest0 ∈ T1.done ∧ g.rep dest0 ∈ T1.done := by
  have hm := ht.rep_self (isRep_rep g dest0)
  have hsame : s.rep (g.rep dest0) = s.rep dest0 := ht.mono (rep_rep ..)
  rw [hsame] at hm
  exact hm.imp id And.left

/-- A component that the visit completed has larger numbers than `n`. -/
theorem Tracks.component_done {w : Nat} {new2 : List Nat} (ht2 : Tracks g T2 s)
    (h1 : Inv g.CopiesTo T1)
    (h2 : Inv g.CopiesTo T2) (hv : Visited g.CopiesTo T1 T2 w new2) (hw : g.isRep w = true)
    (hunseen : T1.num w = 0) (hdone : w ∈ T2.done) (hn : g.isRep n = true) (hopen : T1.Open n)
    (hno : T2.Open n) : s.rep w ∈ T2.done ∧ g.isRep (s.rep w) = true ∧ T2.num (s.rep w) ≠ 0 ∧
      s.rep w ≠ n ∧ ¬ dfsId s (s.rep w) < dfsId s n := by
  obtain ⟨hin, hr⟩ : s.rep w ∈ T2.done ∧ ReflTransGen g.CopiesTo (s.rep w) w := by
    rcases ht2.rep_self hw with heq | hm
    · rw [heq]
      exact ⟨hdone, .refl⟩
    · exact ⟨hm.1.1, hm.2.1⟩
  have hrep : g.isRep (s.rep w) = true := ht2.isRep (isRep_rep ..)
  have hseen : T2.num (s.rep w) ≠ 0 := (h2.seen _).mpr (.inr hin)
  have hbig := hv.low_component h1 h2 hunseen hin hr
  have hsmall : T2.low n < T1.clock := by
    refine Nat.lt_of_le_of_lt (h2.low_le n hno) ?_
    rw [hv.num n (h1.num_pos hopen)]
    exact h1.num_lt n
  refine ⟨hin, hrep, hseen, fun h => h2.notDone n hno (h ▸ hin), ?_⟩
  rw [dfsId, dfsId, ht2.dfsId hrep hseen, ht2.dfsId hn (h2.num_pos hno)]
  simp only [Option.getD_some]
  omega

/-- Behind the visit of the node that the edge leads to. -/
theorem lcdEdge_visited {dest0 : Nat} {e : LcdEdges} {new2 : List Nat} (hT : Inv g.CopiesTo T1)
    (hwk : Walked g.CopiesTo T T1 n new) (hadd : ∀ y ∈ e.add, g.isRep y = true ∧ T1.Handled n y)
    (hd : dest0 ∈ (g.nodes n).copyTo) (hn : g.isRep n = true) (hne : g.rep dest0 ≠ n)
    (hunseen : T1.num (g.rep dest0) = 0) (ht2 : Tracks g T2 s) (h2 : Inv g.CopiesTo T2)
    (hv : Visited g.CopiesTo T1 T2 (g.rep dest0) new2) :
    Spec (do
        let s1 := setDfsId s (s.rep (g.rep dest0)) (dfsId s (s.rep (g.rep dest0)))
        let s2 := if dfsId s (s.rep (g.rep dest0)) < dfsId s1 n then
          setDfsId s1 n (dfsId s (s.rep (g.rep dest0))) else s1
        return (s2, ← lcdReplace n dest0 (s.rep (g.rep dest0)) e))
      (fun t => ∃ T2 new', OnWalk g T T2 n new' t.1 t.2 ∧
        (∀ w, T1.Handled n w → T2.Handled n w) ∧ T2.Handled n (g.rep dest0) ∧ t.2.it = e.it)
      SearchStop := by
  have hsucc : g.CopiesTo n (g.rep dest0) := ⟨dest0, hd, rfl⟩
  have hwrep : g.isRep (g.rep dest0) = true := isRep_rep ..
  have hpath : n ∈ T2.path := hv.path ▸ hwk.mem_path
  have hkeep : ∀ w, T1.Handled n w → T2.Handled n w := fun w =>
    hv.handled hT (fun x hx => hv.path ▸ hx) hwk.isOpen
  have hadd2 : ∀ y ∈ e.add, g.isRep y = true ∧ T2.Handled n y := fun y hy =>
    ⟨(hadd y hy).1, hkeep y (hadd y hy).2⟩
  by_cases hdone : g.rep dest0 ∈ T2.done
  · obtain ⟨hin, hrep2, hseen, hne2, hlt⟩ :=
      ht2.component_done hT h2 hv hwrep hunseen hdone hn hwk.isOpen (.inl hpath)
    have hwalk := hwk.visited_done hT h2 hv hsucc hdone
    exact lcdEdge_rest hne2 hrep2 (ht2.setDfsId hrep2 hseen)
      (by rw [if_neg hlt]; exact ⟨ht2, h2, hwalk, hadd2⟩) hkeep (.inl hin) (.inl hdone)
  · have hopen : T2.Open (g.rep dest0) := by
      rcases hv.left with ⟨hin, -⟩ | ⟨hin, -⟩
      · exact absurd hin hdone
      · exact .inr (hv.stack ▸ List.mem_append_left _ hin)
    rw [ht2.rep_undone hwrep hdone]
    exact lcdEdge_lower hne hn hd ht2 h2 hopen hpath
      (hwk.visited_left hT h2 hv hsucc hdone) hadd2 hkeep

theorem lcdEdge_tracks {visit : Solver W → Nat → Run (Solver W)} {dest0 : Nat} {e : LcdEdges}
    (hvisit : VisitTracks g starts visit) (hc : g.Clean starts) (hT : Inv g.CopiesTo T)
    (hn : g.Found starts n) (hw : OnWalk g T T1 n new s e) (hd : dest0 ∈ (g.nodes n).copyTo) :
    Spec (lcdEdge visit n s e dest0) (fun t => ∃ T2 new', OnWalk g T T2 n new' t.1 t.2 ∧
      (∀ w, T1.Handled n w → T2.Handled n w) ∧ T2.Handled n (g.rep dest0) ∧ t.2.it = e.it)
      SearchStop := by
  obtain ⟨ht, h1, hwk, hadd⟩ := hw
  have hsucc : g.CopiesTo n (g.rep dest0) := ⟨dest0, hd, rfl⟩
  have hwrep : g.isRep (g.rep dest0) = true := isRep_rep ..
  have hdest := ht.rep_cases dest0
  have hself : T1.Handled n n := .inr ⟨hwk.isOpen, h1.low_le n hwk.isOpen⟩
  unfold lcdEdge
  refine spec_require (fun h => (h fun he => hc.loop n (he ▸ hd)).elim) fun _ => ?_
  dsimp only
  split
  · rename_i hskip
    refine ⟨T1, new, ⟨ht, h1, hwk, hadd⟩, fun _ h => h, ?_, rfl⟩
    rcases hdest with heq | ⟨-, hwd⟩
    · rw [← heq]
      rcases hskip with hin | hin
      · exact (hadd _ hin).2
      · exact hin ▸ hself
    · exact .inl hwd
  · rename_i hskip
    have hne : s.rep dest0 ≠ n := fun h => hskip (.inr h)
    split
    · rename_i hroot
      have hin := (ht.root _ (isRep_rep ..)).mp hroot
      have hwd : g.rep dest0 ∈ T1.done := hdest.elim (fun h => h ▸ hin) And.right
      obtain ⟨e', he', hit, hadd'⟩ := lcdReplace_ok dest0 e hne
      rw [he']
      refine ⟨T1, new, ⟨ht, h1, hwk, fun y hy => ?_⟩, fun _ h => h, .inl hwd, hit⟩
      rcases hadd' y hy with hy | rfl
      · exact hadd y hy
      · exact ⟨ht.isRep (isRep_rep ..), .inl hin⟩
    · rename_i hroot
      have hnot : s.rep dest0 ∉ T1.done := fun h => hroot ((ht.root _ (isRep_rep ..)).mpr h)
      have heq : s.rep dest0 = g.rep dest0 := hdest.resolve_right fun h => hnot h.1
      rw [heq] at hne hnot ⊢
      have hnum := ht.number _ hwrep
      by_cases hunseen : T1.num (g.rep dest0) = 0
      · rw [if_pos hunseen] at hnum
        rw [if_pos (by rw [hnum]; rfl)]
        have hcall := hvisit ht h1 hunseen (hn.to (.single hsucc)) fun z hz =>
          (hwk.reaches hT h1 z hz).tail hsucc
        refine hcall.bind fun s2 hs2 => ?_
        obtain ⟨T2, new2, ht2, h2, hv⟩ := hs2
        -- `n` is still in progress, so it was not merged
        have hpath : n ∈ T2.path := hv.path ▸ hwk.mem_path
        have hnrep2 : s2.rep n = n := ht2.rep_undone hn.isRep (h2.notDone n (.inl hpath))
        refine spec_inRange (fun h => (h (rep_eq_self.mp hnrep2)).elim) fun _ => ?_
        rw [pure_bind]
        exact lcdEdge_visited h1 hwk hadd hd hn.isRep hne hunseen ht2 h2 hv
      · rw [if_neg hunseen] at hnum
        rw [if_neg (by rw [hnum]; simp), pure_bind]
        have hopen : T1.Open (g.rep dest0) := ((h1.seen _).mp hunseen).resolve_right hnot
        exact lcdEdge_lower hne hn.isRep hd ht h1 hopen hwk.mem_path (hwk.lower h1 _) hadd
          fun _ h => h

/-- A node that is walked has its old edges. -/
theorem OnWalk.copyTo {e : LcdEdges} (h : OnWalk g T T1 n new s e) (hn : g.isRep n = true) :
    (s.nodes n).copyTo = (g.nodes n).copyTo :=
  h.tracks.edge n hn ⟨h.inv.apart n h.walked.mem_path, h.inv.notDone n h.walked.isOpen⟩

theorem lcdWalk_tracks {visit : Solver W → Nat → Run (Solver W)}
    (hvisit : VisitTracks g starts visit) (hc : g.Clean starts) (hT : Inv g.CopiesTo T)
    (hn : g.Found starts n) : ∀ (steps : Nat) {s : Solver W} {e : LcdEdges} {T1 : Search Nat}
      {new : List Nat}, OnWalk g T T1 n new s e → e.it.Over (g.nodes n).copyTo →
      (∀ c ∈ (g.nodes n).copyTo, c < e.it.pos → T1.Handled n (g.rep c)) →
      Spec (lcdWalk visit n steps s e) (fun t => ∃ T2 new', OnWalk g T T2 n new' t.1 t.2 ∧
        ∀ w, g.CopiesTo n w → T2.Handled n w) SearchStop
  | 0, _, _, _, _, _, _, _ => .inl rfl
  | steps + 1, s, e, T1, new, hw, hit, hdone => by
      rw [lcdWalk, hw.copyTo hn.isRep]
      cases hnext : e.it.next (g.nodes n).copyTo with
      | none =>
          refine ⟨T1, new, hw, ?_⟩
          rintro w ⟨d, hd, rfl⟩
          exact hdone d hd (BitIter.Over.finished hnext d hd)
      | some t =>
          obtain ⟨dest0, it⟩ := t
          obtain ⟨hd, hover, hbehind⟩ := hit.step hnext
          have hw' : OnWalk g T T1 n new s { e with it } := ⟨hw.tracks, hw.inv, hw.walked, hw.add⟩
          refine (lcdEdge_tracks hvisit hc hT hn hw' hd).bind fun t1 h1 => ?_
          obtain ⟨T2, new2, hw2, hkeep, hto, hit2⟩ := h1
          refine lcdWalk_tracks hvisit hc hT hn steps hw2 (hit2 ▸ hover) fun c hcn hlt => ?_
          rw [hit2] at hlt
          rcases hbehind c hcn hlt with rfl | hlt
          · exact hto
          · exact hkeep _ (hdone c hcn hlt)

/-! ## Collapsing a component -/

/-- The members of `D` are merged, and apart from that what the search completed. -/
def Joined (g : Graph) (T : Search Nat) (D : Nat → Prop) (x y : Nat) : Prop :=
  g.Merged T x y ∨ D x ∧ D y

/-- The nodes that are to be merged: open, valid, and calm. -/
structure Component (g : Graph) (T : Search Nat) (K C : Nat → Prop) : Prop where
  isRep : ∀ x, C x → g.isRep x = true
  isOpen : ∀ x, C x → x ∉ T.done
  valid : ∀ x, C x → (x ≠ 0 ∧ x < g.size) ∧ x ≠ i2p
  outside : ∀ x, C x → ¬ K x
  calm : ∀ x y, C x → C y → g.hv x ≠ 0 → g.hv y ≠ 0 →
    g.Merged T (g.rep (g.hv x)) (g.rep (g.hv y))

namespace Component

variable {K C D : Nat → Prop}

/-- The set of a member of `D` is made of the members of `D`. -/
theorem joined_iff (hC : Component g T K C) (hD : ∀ x, D x → C x) {x y : Nat} (hx : D x) :
    Joined g T D y x ↔ D y := by
  refine ⟨fun h => ?_, fun hy => .inr ⟨hy, hx⟩⟩
  rcases h with (rfl | hm) | hd
  · exact hx
  · exact absurd hm.1.2 (hC.isOpen x (hD x hx))
  · exact hd.1

/-- A node of the component that is not in `D` yet is alone. -/
theorem alone_iff (hC : Component g T K C) {x y : Nat} (hx : C x) (hxD : ¬ D x) :
    Joined g T D y x ↔ y = x := by
  refine ⟨fun h => ?_, fun h => .inl (.inl h)⟩
  rcases h with (rfl | hm) | hd
  · rfl
  · exact absurd hm.1.2 (hC.isOpen x hx)
  · exact absurd hd.2 hxD

/-- A node of the component that is not in `D` yet is its own representative. -/
theorem rep_alone (hC : Component g T K C) (hf : Follows g T (Joined g T D) K s) {m : Nat}
    (hm : C m) (hmD : ¬ D m) : s.rep m = m :=
  (hC.alone_iff hm hmD).mp (hf.rep_self (hC.isRep m hm))

/-- The nodes that the representative of `D` stands for. -/
theorem rep_eq_iff (hC : Component g T K C) (hf : Follows g T (Joined g T D) K s)
    (hD : ∀ x, D x → C x) {r : Nat} (hr : D r) (hrep : s.isRep r = true) (x : Nat) :
    s.rep x = r ↔ D (g.rep x) := by
  have h := hf.rep x r
  rw [show s.rep r = r from rep_eq_self.mpr hrep, rep_eq_self.mpr (hC.isRep r (hD r hr))] at h
  exact h.trans (hC.joined_iff hD hr)

theorem rep_eq_alone_iff (hC : Component g T K C) (hf : Follows g T (Joined g T D) K s) {m : Nat}
    (hm : C m) (hmD : ¬ D m) (x : Nat) : s.rep x = m ↔ g.rep x = m := by
  have h := hf.rep x m
  rw [hC.rep_alone hf hm hmD, rep_eq_self.mpr (hC.isRep m hm)] at h
  exact h.trans (hC.alone_iff hm hmD)

/-- Two nodes of the component that were merged belong to `D` from now on. -/
theorem absorbed (hC : Component g T K C) (hf : Follows g T (Joined g T D) K s) {a b m : Nat}
    {g' : Graph} (habs : Absorbed s.toGraph a b g') (ha : C a) (hb : C b)
    (hsets : ∀ x, s.rep x = a ∨ s.rep x = b ↔ D (g.rep x) ∨ g.rep x = m) :
    Follows g T (Joined g T fun x => D x ∨ x = m) K (s.withGraph g') where
  size := habs.coarser.size.trans hf.size
  isRep hx := hf.isRep (habs.coarser.isRep hx)
  mono hxy := habs.coarser.rep (hf.mono hxy)
  rep x y := by
    have hxy : s.rep x = s.rep y ↔ Joined g T D (g.rep x) (g.rep y) := hf.rep x y
    refine (habs.rep_eq x y).trans ?_
    rw [hsets, hsets, hxy]
    constructor
    · rintro ((hm | hD) | hD)
      · exact .inl hm
      · exact .inr ⟨.inl hD.1, .inl hD.2⟩
      · exact .inr hD
    · rintro (hm | hD)
      · exact .inl (.inl hm)
      · exact .inr hD
  entry q hq hv := by
    obtain ⟨hqs, hqb⟩ := (habs.isRep q).mp hq
    rcases habs.entry q hqb hv with heq | ⟨hqa, heq⟩
    · obtain ⟨x, hx, hxq, hxv⟩ := hf.entry q hqs (fun h => hv (heq.trans h))
      refine ⟨x, hx, (habs.rep x).trans ?_, hxv.trans heq.symm⟩
      rw [if_neg (hxq ▸ hqb)]
      exact hxq
    · obtain ⟨x, hx, hxb, hxv⟩ := hf.entry b habs.mergeable.isRep.2 (fun h => hv (heq.trans h))
      refine ⟨x, hx, (habs.rep x).trans ?_, hxv.trans heq.symm⟩
      rw [if_pos hxb, hqa]
  old := hf.old
  number := hf.number
  root x hx := hf.root x ((habs.isRep x).mp hx).1
  clock := hf.clock
  edge x hx hK := by
    have hne : ∀ c, C c → x ≠ c := fun c hc he => hC.outside c hc (he ▸ hK)
    rw [show (s.withGraph g').nodes x = _ from congrFun habs.nodes x]
    simp only [absorb, if_neg (hne a ha), if_neg (hne b hb)]
    exact hf.edge x hx hK

/-- Merging the representative of `D` with one more node of the component. -/
theorem merge (hC : Component g T K C) (hf : Follows g T (Joined g T D) K s)
    (hD : ∀ x, D x → C x) {r m : Nat} (hr : D r) (hrep : s.isRep r = true) (hm : C m)
    (hmD : ¬ D m) :
    ∃ g' a, mergeNodes s.size s.toGraph r m = .ok (g', a) ∧ (D a ∨ a = m) ∧
      g'.isRep a = true ∧ Follows g T (Joined g T fun x => D x ∨ x = m) K (s.withGraph g') := by
  have hset_r := hC.rep_eq_iff hf hD hr hrep
  have hset_m := hC.rep_eq_alone_iff hf hm hmD
  have hmrep : s.isRep m = true := rep_eq_self.mp (hC.rep_alone hf hm hmD)
  have hmergeable : Mergeable s.toGraph r m := by
    have hsize : s.size = g.size := hf.size
    have hvr := hC.valid r (hD r hr)
    have hvm := hC.valid m hm
    exact ⟨hsize ▸ hvr.1, hsize ▸ hvm.1, fun h => hmD (h ▸ hr), ⟨hvr.2, hvm.2⟩, hrep, hmrep⟩
  have hcalm : s.hv r ≠ 0 → s.hv m ≠ 0 → s.rep (s.hv r) = s.rep (s.hv m) := by
    intro hvr hvm
    obtain ⟨x, hx, hxr, hxv⟩ := hf.entry r hrep hvr
    obtain ⟨y, hy, hym, hyv⟩ := hf.entry m hmrep hvm
    have hxD := (hset_r x).mp hxr
    have hyD := (hset_m y).mp hym
    rw [rep_eq_self.mpr hx] at hxD
    rw [rep_eq_self.mpr hy] at hyD
    subst hyD
    rw [← hxv, ← hyv, hf.rep]
    exact .inl (hC.calm x y (hD x hxD) hm (hxv ▸ hvr) (hyv ▸ hvm))
  obtain ⟨fuel, hfuel⟩ :=
    Nat.exists_eq_succ_of_ne_zero (Nat.ne_of_gt (Nat.zero_lt_of_lt hmergeable.valid1.2))
  obtain ⟨a, b, g', hab, hrun, habs⟩ := mergeNodes_calm fuel hmergeable hcalm
  have hsets : ∀ x, s.rep x = a ∨ s.rep x = b ↔ D (g.rep x) ∨ g.rep x = m := by
    intro x
    rw [← hset_r, ← hset_m]
    rcases hab with ⟨rfl, rfl⟩ | ⟨rfl, rfl⟩
    · rfl
    · exact or_comm
  have harep : g'.isRep a = true :=
    (habs.isRep a).mpr ⟨habs.mergeable.isRep.1, habs.mergeable.ne⟩
  rw [show s.size = fuel + 1 from hfuel]
  rcases hab with ⟨rfl, rfl⟩ | ⟨rfl, rfl⟩
  · exact ⟨g', a, hrun, .inl hr, harep, hC.absorbed hf habs (hD a hr) hm hsets⟩
  · exact ⟨g', a, hrun, .inr rfl, harep, hC.absorbed hf habs hm (hD b hr) hsets⟩

end Component

/-- The nodes on top of the stack are merged into the root. -/
theorem lcdPop_tracks {K C : Nat → Prop} {rest : List Nat} (hC : Component g T K C)
    (ourDfs : Nat) (hrest : ∀ x ∈ rest, g.isRep x = true ∧ T.num x ≠ 0 ∧ T.low x < ourDfs) :
    ∀ (todo : List Nat) (chg : Bool) {s : Solver W} {D : Nat → Prop} {r : Nat},
      Follows g T (Joined g T D) K s → (∀ x, D x → C x) → D r → s.isRep r = true →
      (∀ x ∈ todo, C x ∧ ¬ D x ∧ T.num x ≠ 0 ∧ ourDfs ≤ T.low x) → todo.Nodup →
      ∃ s' r' chg', lcdPop ourDfs (todo ++ rest) s r chg = .ok (s', r', chg') ∧
        Follows g T (Joined g T fun x => D x ∨ x ∈ todo) K s' ∧ (D r' ∨ r' ∈ todo) ∧
        s'.isRep r' = true ∧ s'.lcdStk = rest
  | [], chg, s, D, r, hf, hD, hr, hrep, htodo, _ => by
      have hf' : Follows g T (Joined g T fun x => D x ∨ x ∈ []) K { s with lcdStk := rest } :=
        Follows.congr ⟨hf.size, hf.isRep, hf.mono, hf.rep, hf.entry, hf.old, hf.number, hf.root, hf.clock, hf.edge⟩
          fun x y => by simp [Joined]
      cases rest with
      | nil => exact ⟨_, r, chg, rfl, hf', .inl hr, hrep, rfl⟩
      | cons m rest =>
          obtain ⟨hm, hseen, hlt⟩ := hrest m List.mem_cons_self
          refine ⟨{ s with lcdStk := m :: rest }, r, chg, ?_, hf', .inl hr, hrep, rfl⟩
          rw [List.nil_append, lcdPop, hf.setDfsId hm hseen, dfsId, hf.dfsId hm hseen]
          simp only [Option.getD_some, if_pos hlt]
  | m :: todo, chg, s, D, r, hf, hD, hr, hrep, htodo, hnodup => by
      obtain ⟨hm, hmD, hseen, hle⟩ := htodo m List.mem_cons_self
      obtain ⟨hmt, hnodup⟩ := List.nodup_cons.mp hnodup
      have hmrep := hC.isRep m hm
      have hne : m ≠ r := fun h => hmD (h ▸ hr)
      obtain ⟨g', a, hrun, ha, harep, hf'⟩ := hC.merge hf hD hr hrep hm hmD
      have hD' : ∀ x, D x ∨ x = m → C x := fun x hx => hx.elim (hD x) fun h => h ▸ hm
      have htodo' : ∀ x ∈ todo, C x ∧ ¬ (D x ∨ x = m) ∧ T.num x ≠ 0 ∧ ourDfs ≤ T.low x := by
        intro x hx
        obtain ⟨hxC, hxD, hxs, hxl⟩ := htodo x (List.mem_cons_of_mem _ hx)
        exact ⟨hxC, fun h => h.elim hxD fun he => hmt (he ▸ hx), hxs, hxl⟩
      obtain ⟨s', r', chg', hpop, hfin, hr', hrep', hstk⟩ :=
        lcdPop_tracks hC ourDfs hrest todo true hf' hD' ha harep htodo' hnodup
      refine ⟨s', r', chg', ?_, hfin.congr fun x y => ?_, ?_, hrep', hstk⟩
      · rw [List.cons_append, lcdPop, hf.setDfsId hmrep hseen, dfsId, hf.dfsId hmrep hseen]
        simp only [Option.getD_some, if_neg (Nat.not_lt.mpr hle), hC.rep_alone hf hm hmD]
        rw [if_pos hne, hrun]
        exact hpop
      · simp only [Joined, List.mem_cons, or_assoc]
      · simpa only [List.mem_cons, or_assoc] using hr'

/-- At a root, the new nodes are a component that can be merged calmly. -/
theorem OnWalk.component {e : LcdEdges} (hw : OnWalk g T T1 n new s e) (hT : Inv g.CopiesTo T)
    (hc : g.Clean starts) (hcalm : g.Calm starts) (hn : g.Found starts n)
    (hroot : T1.low n = T1.num n) (hall : ∀ w, g.CopiesTo n w → T1.Handled n w) :
    Component g T1 (fun x => (x ∉ T1.stack ∧ x ∉ T1.done) ∧ x ≠ n) (fun x => x = n ∨ x ∈ new) := by
  obtain ⟨ht, h1, hwk, -⟩ := hw
  have hmut : ∀ x, x = n ∨ x ∈ new ↔ Mutual g.CopiesTo n x :=
    fun x => hwk.component hT h1 hroot hall
  have hfound : ∀ x, x = n ∨ x ∈ new → g.Found starts x := fun x hx =>
    hn.to ((hmut x).mp hx).1
  have hopen : ∀ x, x = n ∨ x ∈ new → T1.Open x := fun x hx => hwk.open_iff.mpr (.inl hx)
  refine ⟨fun x hx => (hfound x hx).isRep, fun x hx => h1.notDone x (hopen x hx),
    fun x hx => hc.valid x (hfound x hx), ?_, ?_⟩
  · rintro x hx ⟨⟨hs, -⟩, hxn⟩
    refine hs ?_
    rw [hwk.stack]
    exact List.mem_append_left _ (hx.resolve_left hxn)
  · intro x y hx hy hvx hvy
    have hxy := ((hmut x).mp hx).symm.trans ((hmut y).mp hy)
    rcases hcalm x y (hfound x hx) hxy hvx hvy with heq | ⟨htargets, hreach, hout⟩
    · exact .inl heq
    · -- the targets are further down, where all is complete
      have hdone : g.rep (g.hv x) ∈ T1.done := by
        have hnx := ((hmut x).mp hx).1.trans hreach
        refine (hwk.reach_in hT h1 hroot hall hnx).resolve_right fun hin => ?_
        exact hout (((hmut x).mp hx).symm.trans ((hmut _).mp hin))
      exact .inr ⟨⟨hdone, h1.done_of_reach hdone htargets.1⟩, htargets⟩

/-- A node that is not a root is saved on the stack. -/
theorem Tracks.retreat (h : Tracks g T s) (n : Nat) (del add : Finset Nat) :
    Tracks g (T.retreat n) { moveEdges s n del add with lcdStk := n :: s.lcdStk } where
  size := h.size
  isRep := h.isRep
  mono := h.mono
  rep := h.rep
  entry := h.entry
  old := h.old
  number := h.number
  root := h.root
  clock := h.clock
  edge x hx hK := by
    have hxn : x ≠ n := fun he => hK.1 (he ▸ List.mem_cons_self)
    rw [show ({ moveEdges s n del add with lcdStk := n :: s.lcdStk } : Solver W).nodes x = _ from
      moveEdges_nodes s n del add x, if_neg hxn]
    exact h.edge x hx ⟨fun hs => hK.1 (List.mem_cons_of_mem _ hs), hK.2⟩
  stk := congrArg (n :: ·) h.stk

/-- Moving the edges of a root leaves it alone in its set. -/
theorem Tracks.root_alone (h : Tracks g T s) (n : Nat) (del add : Finset Nat) :
    Follows g T (Joined g T (· = n)) (fun x => (x ∉ T.stack ∧ x ∉ T.done) ∧ x ≠ n)
      (moveEdges s n del add) where
  size := h.size
  isRep := h.isRep
  mono := h.mono
  rep x y := by
    refine (h.rep x y).trans ⟨.inl, ?_⟩
    rintro (hm | ⟨hx, hy⟩)
    · exact hm
    · exact .inl (hx.trans hy.symm)
  entry := h.entry
  old := h.old
  number := h.number
  root := h.root
  clock := h.clock
  edge x hx hK := by
    rw [moveEdges_nodes, if_neg hK.2]
    exact h.edge x hx hK.1

/-- The merged component counts as complete. -/
theorem Follows.complete {r : Nat} (hwk : Walked g.CopiesTo T T1 n new) (hT : Inv g.CopiesTo T)
    (h1 : Inv g.CopiesTo T1) (hroot : T1.low n = T1.num n)
    (hall : ∀ w, g.CopiesTo n w → T1.Handled n w)
    (h : Follows g T1 (Joined g T1 fun x => x = n ∨ x ∈ new)
      (fun x => (x ∉ T1.stack ∧ x ∉ T1.done) ∧ x ≠ n) s)
    (hr : s.isRep r = true) (hrn : r = n ∨ r ∈ new) (hstk : s.lcdStk = T.stack) :
    Tracks g (T1.complete n T.stack) { s with lcdRoots := insert r s.lcdRoots } := by
  have hmut : ∀ x, x = n ∨ x ∈ new ↔ Mutual g.CopiesTo n x :=
    fun x => hwk.component hT h1 hroot hall
  have hdone := (hwk.complete hT h1 hroot hall).1
  have hopen : ∀ x, Mutual g.CopiesTo n x → x ∉ T1.done := fun x hx =>
    h1.notDone x (hwk.open_iff.mpr (.inl ((hmut x).mpr hx)))
  have hmerged : ∀ x y, Joined g T1 (fun x => x = n ∨ x ∈ new) x y ↔
      g.Merged (T1.complete n T.stack) x y := by
    intro x y
    unfold Joined Graph.Merged
    dsimp only
    rw [hmut, hmut, hdone, hdone]
    constructor
    · rintro ((heq | ⟨⟨hx, hy⟩, hxy⟩) | ⟨hx, hy⟩)
      · exact .inl heq
      · exact .inr ⟨⟨.inl hx, .inl hy⟩, hxy⟩
      · exact .inr ⟨⟨.inr hx, .inr hy⟩, hx.symm.trans hy⟩
    · rintro (heq | ⟨⟨hx, hy⟩, hxy⟩)
      · exact .inl (.inl heq)
      · rcases hx with hx | hx
        · exact .inl (.inr ⟨⟨hx, h1.done_of_reach hx hxy.1⟩, hxy⟩)
        · exact .inr ⟨hx, hx.trans hxy⟩
  refine ⟨⟨h.size, h.isRep, h.mono, fun x y => (h.rep x y).trans (hmerged _ _), h.entry, h.old, h.number,
    fun x hx => ?_, h.clock, fun x hx hK => h.edge x hx ?_⟩, hstk⟩
  · have hrx := h.root x hx
    change x ∈ insert r s.lcdRoots ↔ _
    rw [Finset.mem_insert, hrx, hdone, ← hmut, or_comm]
    refine or_congr_right ⟨fun he => he ▸ hrn, fun hxn => ?_⟩
    -- both stand for the component
    have hsame : s.rep x = s.rep r := (h.rep x r).mpr (by
      rw [rep_eq_self.mpr (h.isRep hx), rep_eq_self.mpr (h.isRep hr)]
      exact .inr ⟨hxn, hrn⟩)
    rwa [show s.rep x = x from rep_eq_self.mpr hx, show s.rep r = r from rep_eq_self.mpr hr] at hsame
  · have hxd : x ∉ T1.done ∧ ¬ (x = n ∨ x ∈ new) := by
      rw [hmut, ← not_or, ← hdone]
      exact hK.2
    refine ⟨⟨fun hs => ?_, hxd.1⟩, fun he => hxd.2 (.inl he)⟩
    rw [hwk.stack] at hs
    rcases List.mem_append.mp hs with hs | hs
    · exact hxd.2 (.inr hs)
    · exact hK.1 hs

/-- A root merges its component. -/
theorem OnWalk.collapse {e : LcdEdges} (hw : OnWalk g T T1 n new s e) (hT : Inv g.CopiesTo T)
    (hc : g.Clean starts) (hcalm : g.Calm starts) (hn : g.Found starts n) (hrep : s.isRep n = true)
    (hroot : T1.low n = T1.num n) (hall : ∀ w, g.CopiesTo n w → T1.Handled n w) :
    ∃ s' r chg, lcdPop (T1.num n) (moveEdges s n e.del e.add).lcdStk (moveEdges s n e.del e.add)
        n false = .ok (s', r, chg) ∧
      Tracks g (T1.complete n T.stack) { s' with lcdRoots := insert r s'.lcdRoots } := by
  have hC := hw.component hT hc hcalm hn hroot hall
  obtain ⟨ht, h1, hwk, -⟩ := hw
  have hrest : ∀ x ∈ T.stack, g.isRep x = true ∧ T1.num x ≠ 0 ∧ T1.low x < T1.num n := by
    intro x hx
    have ho : T1.Open x := .inr (hwk.stack ▸ List.mem_append_right _ hx)
    have hseen := h1.num_pos ho
    exact ⟨ht.old x hseen, hseen, Nat.lt_of_le_of_lt (h1.low_le x ho) (hwk.older hT (.inr hx))⟩
  have htodo : ∀ x ∈ new, (x = n ∨ x ∈ new) ∧ ¬ x = n ∧ T1.num x ≠ 0 ∧ T1.num n ≤ T1.low x := by
    intro x hx
    have hxs : x ∈ T1.stack := hwk.stack ▸ List.mem_append_left _ hx
    exact ⟨.inr hx, fun he => h1.apart n hwk.mem_path (he ▸ hxs), h1.num_pos (.inr hxs),
      hwk.low_ge hroot (.inr hx)⟩
  have hnodup : new.Nodup := by
    have hall := h1.nodup
    rw [hwk.stack] at hall
    exact (List.nodup_append.mp hall).1
  have hstk : (moveEdges s n e.del e.add).lcdStk = new ++ T.stack := ht.stk.trans hwk.stack
  rw [hstk]
  obtain ⟨s', r, chg, hpop, hf, hr, hrep', hstk'⟩ := lcdPop_tracks hC (T1.num n) hrest new false
    (ht.root_alone n e.del e.add) (fun x hx => .inl hx) rfl hrep htodo hnodup
  exact ⟨s', r, chg, hpop, hf.complete hwk hT h1 hroot hall hrep' hr hstk'⟩

end

section

variable {W : Type} [Worklist W] [LawfulWorklist W] {g : Graph} {starts : Finset Nat}

/-- A push changes nothing the search looks at. -/
theorem pushIf_tracks {T : Search Nat} {s : Solver W} (h : Tracks g T s) (chg : Bool) (n : Nat) :
    Spec (pushIf chg s n) (Tracks g T) SearchStop := by
  unfold pushIf pushNode
  split
  · cases hw : Worklist.push s.wl n (s.nodes n).vtime with
    | error e => exact .inr (LawfulWorklist.push_stop hw)
    | ok w =>
        exact ⟨⟨h.size, h.isRep, h.mono, h.rep, h.entry, h.old, h.number, h.root, h.clock, h.edge⟩, h.stk⟩
  · exact h

/-- A visit finds the components it completes, and merges them. -/
theorem lcdDfs_tracks (hc : g.Clean starts) (hcalm : g.Calm starts) :
    ∀ fuel, VisitTracks g starts (lcdDfs (W := W) fuel)
  | 0, _, _, _, _, _, _, _, _ => .inl rfl
  | fuel + 1, s, T, n, ht, hT, hunseen, hn, hpath => by
      have hnd := hT.unseen_done hunseen
      have hrep : s.isRep n = true := rep_eq_self.mp (ht.rep_undone hn.isRep hnd)
      rw [lcdDfs]
      refine spec_require (fun h => (h ⟨(hc.valid n hn).2, fun hr => ?_⟩).elim) fun _ => ?_
      · exact hnd ((ht.root n hrep).mp hr)
      refine spec_require (fun h => (h hrep).elim) fun _ => ?_
      have hstart : OnWalk g T (T.enter n) n []
          (setDfsId { s with currLcdDfs := s.currLcdDfs + 1 } n s.currLcdDfs) ⟨.start, ∅, ∅⟩ :=
        ⟨ht.enter hn.isRep hT, hT.enter hunseen hpath, .enter hT hunseen, fun y hy => by simp at hy⟩
      refine (lcdWalk_tracks (lcdDfs_tracks hc hcalm fuel) hc hT hn _ hstart
        (BitIter.start_over _) fun c _ hlt => absurd hlt (Nat.not_lt_zero c)).bind fun t ht2 => ?_
      obtain ⟨s2, e⟩ := t
      obtain ⟨T2, new, hw, hall⟩ := ht2
      have hopen := hw.walked.isOpen
      have hrep2 : s2.isRep n = true :=
        rep_eq_self.mp (hw.tracks.rep_undone hn.isRep (hw.inv.notDone n hopen))
      refine spec_require (fun h => (h hrep2).elim) fun _ => ?_
      have hid : dfsId (moveEdges s2 n e.del e.add) n = T2.low n := by
        have := hw.tracks.dfsId hn.isRep (hw.inv.num_pos hopen)
        rw [dfsId, show (moveEdges s2 n e.del e.add).lcdDfsId = s2.lcdDfsId from rfl, this,
          Option.getD_some]
      have hnum : T2.num n = s.currLcdDfs := hw.walked.num_eq.trans ht.clock.symm
      change Spec (if dfsId (moveEdges s2 n e.del e.add) n = s.currLcdDfs then _ else _) _ _
      rw [hid, ← hnum]
      split
      · rename_i hroot
        obtain ⟨s3, r, chg, hpop, hfin⟩ := hw.collapse hT hc hcalm hn hrep2 hroot hall
        obtain ⟨-, hinv, hvis⟩ := hw.walked.complete hT hw.inv hroot hall
        change Spec (lcdPop (T2.num n) (moveEdges s2 n e.del e.add).lcdStk
          (moveEdges s2 n e.del e.add) n false >>= _) _ _
        rw [hpop]
        exact (pushIf_tracks hfin chg r).imp fun s4 ht4 => ⟨_, [], ht4, hinv, hvis⟩
      · rename_i hroot
        have hlt : T2.low n < T2.num n := Nat.lt_of_le_of_ne (hw.inv.low_le n hopen) hroot
        obtain ⟨hinv, hvis⟩ := hw.walked.retreat hT hw.inv hlt hall
        exact ⟨T2.retreat n, n :: new, hw.tracks.retreat n e.del e.add, hinv, hvis⟩

/-- Between two starts nothing is walked, and what was searched is complete. -/
structure Between (g : Graph) (starts : Finset Nat) (T : Search Nat) (s : Solver W) : Prop where
  tracks : Tracks g T s
  inv : Inv g.CopiesTo T
  path : T.path = []
  found : ∀ x ∈ T.done, g.Found starts x

omit [Worklist W] [LawfulWorklist W] in
theorem Between.done_iff {T : Search Nat} {s : Solver W} (h : Between g starts T s) {x : Nat} :
    T.num x ≠ 0 ↔ x ∈ T.done := by
  rw [h.inv.seen]
  refine or_iff_right fun ho => ?_
  rcases ho with ho | ho
  · simp [h.path] at ho
  · simp [h.inv.stack_empty h.path] at ho

/-- A run of cycle detection completes the search of what can be reached from the starts. -/
theorem runLcd_tracks {s : Solver W} (hc : s.Clean s.lcdStarts) (hcalm : s.Calm s.lcdStarts)
    (hstk : s.lcdStk = []) :
    Spec (runLcd s) (fun s' => ∃ T, (∀ x, x ∈ T.done ↔ s.Found s.lcdStarts x) ∧
      ∀ x y, s'.rep x = s'.rep y ↔ s.Merged T (s.rep x) (s.rep y)) SearchStop := by
  have hstart : Tracks s.toGraph start { s with
      lastLcd := s.nNodeRuns, currLcdDfs := 1, lcdDfsId := fun _ => none, lcdRoots := ∅ } := by
    refine ⟨⟨rfl, fun h => h, fun h => h, fun x y => ?_, fun r hr hv => ⟨r, hr, ?_, rfl⟩,
      fun x hx => absurd rfl hx, fun x _ => rfl, fun x _ => by simp [start], rfl, fun x _ _ => rfl⟩,
      hstk⟩
    · exact ⟨.inl, fun h => h.resolve_right fun hd => hd.1.1.elim⟩
    · exact rep_eq_self.mpr hr
  unfold runLcd
  dsimp only
  have hloop : Spec ((ascending s.lcdStarts).foldlM (fun s n =>
      if s.isRep n ∧ (s.lcdDfsId n).isNone then lcdDfs (s.size + 1) s n else .ok s)
      ({ s with
        lastLcd := s.nNodeRuns, currLcdDfs := 1, lcdDfsId := fun _ => none, lcdRoots := ∅ }
        : Solver W))
      (fun s' => ∃ T, Between s.toGraph s.lcdStarts T s' ∧
        ∀ n ∈ ascending s.lcdStarts, s.isRep n = true → n ∈ T.done) SearchStop := by
    refine spec_foldlM (fun done s' => ∃ T, Between s.toGraph s.lcdStarts T s' ∧
      ∀ n ∈ done, s.isRep n = true → n ∈ T.done) ⟨start, ⟨hstart, start_inv, rfl, ?_⟩, ?_⟩ ?_
    · intro x hx
      cases hx
    · intro n hn
      cases hn
    · rintro done n rest s1 hsplit ⟨T, hb, hprev⟩
      have hn : n ∈ s.lcdStarts := mem_ascending.mp (by simp [hsplit])
      split
      · rename_i hvisit
        have hnrep : s.isRep n = true := hb.tracks.isRep hvisit.1
        have hunseen : T.num n = 0 := by
          have hnum := hb.tracks.number n hnrep
          rw [Option.isNone_iff_eq_none.mp hvisit.2] at hnum
          split at hnum
          · assumption
          · cases hnum
        have hfound : s.Found s.lcdStarts n := ⟨n, hn, hnrep, .refl⟩
        refine (lcdDfs_tracks hc hcalm _ hb.tracks hb.inv hunseen hfound
          (by simp [hb.path])).imp fun s2 hs2 => ?_
        obtain ⟨T2, new, ht2, h2, hv⟩ := hs2
        have hpath : T2.path = [] := hv.path.trans hb.path
        refine ⟨T2, ⟨ht2, h2, hpath, fun x hx => ?_⟩, fun m hm hmrep => ?_⟩
        · by_cases hx0 : T.num x = 0
          · exact hfound.to (hv.fresh x hx0 ((h2.seen x).mpr (.inr hx))).2
          · exact hb.found x (hb.done_iff.mp hx0)
        · rcases List.mem_append.mp hm with hm | hm
          · exact hv.done (hprev m hm hmrep)
          · obtain rfl := List.mem_singleton.mp hm
            rcases hv.left with ⟨hd, -⟩ | ⟨hin, -⟩
            · exact hd
            · have hstack := hv.stack
              rw [h2.stack_empty hpath] at hstack
              simp [(List.append_eq_nil_iff.mp hstack.symm).1] at hin
      · rename_i hvisit
        refine ⟨T, hb, fun m hm hmrep => ?_⟩
        rcases List.mem_append.mp hm with hm | hm
        · exact hprev m hm hmrep
        · obtain rfl := List.mem_singleton.mp hm
          by_contra hd
          have hunseen : T.num m = 0 := not_not.mp fun h => hd (hb.done_iff.mp h)
          refine hvisit ⟨rep_eq_self.mp (hb.tracks.rep_undone hmrep hd), ?_⟩
          rw [hb.tracks.number m hmrep, if_pos hunseen]
          rfl
  refine hloop.bind fun s' hs' => ?_
  obtain ⟨T, hb, hall⟩ := hs'
  refine spec_require (fun h => (h ?_).elim) fun _ => ?_
  · rw [hb.tracks.stk, hb.inv.stack_empty hb.path]
  · refine ⟨T, fun x => ⟨hb.found x, ?_⟩, hb.tracks.rep⟩
    rintro ⟨n, hn, hrep, hr⟩
    exact hb.inv.done_of_reach (hall n (mem_ascending.mpr hn) hrep) hr

end

end PtrAnalysis
