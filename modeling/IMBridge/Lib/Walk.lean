import Mathlib.Data.Finset.Max
import Mathlib.Data.Fintype.Card
import Mathlib.Data.List.Chain

/-!
Walks in a directed graph: simple paths, walks that end in a vertex, and properties that spread
along the edges, one edge per round.
-/

namespace IMBridge.Lib.Walk

open Relation List TransGen Finset

variable {V : Type*} {R : V → V → Prop}

/-- The vertices `x :: others` form a simple cycle, each with an edge to the next one. -/
def SimpleCycle (R : V → V → Prop) (x : V) (others : List V) : Prop :=
  (x :: others).IsChain R ∧ (x :: others).Nodup ∧ R ((x :: others).getLast (cons_ne_nil x others)) x

variable {x v a b : V} {k : Nat}

theorem SimpleCycle.edge_next {others before after : List V} (cycle : SimpleCycle R x others)
    (split : x :: others = before ++ v :: after) : R v ((after ++ [x]).head (by simp)) := by
  obtain ⟨chain, -, back⟩ := cycle
  cases after with
  | nil =>
    grind
  | cons next rest =>
    rw [split, isChain_append_cons_cons] at chain
    exact chain.2.1

theorem exists_simplePath (reach : ReflTransGen R a b) :
    ∃ path : List V, (a :: path).IsChain R ∧ (a :: path).Nodup ∧ (a :: path).getLast (cons_ne_nil a path) = b := by
  classical
  induction reach using ReflTransGen.head_induction_on with
  | refl => exact ⟨[], by simp⟩
  | @head a c edge _ ih =>
    obtain ⟨path, chain, nodup, last⟩ := ih
    by_cases visited : a ∈ c :: path
    · -- the path comes back to its first vertex: cut off the loop
      obtain ⟨before, after, eq⟩ := append_of_mem visited
      have suffix : (a :: after) <:+ c :: path := ⟨before, eq.symm⟩
      refine ⟨after, chain.suffix suffix, nodup.sublist suffix.sublist, ?_⟩
      grind
    · refine ⟨c :: path, isChain_cons_cons.2 ⟨edge, chain⟩, nodup_cons.2 ⟨visited, nodup⟩, ?_⟩
      rw [← last, getLast_cons_cons]

theorem forall_mem_tail {P : V → Prop} {others : List V} (chain : (x :: others).IsChain fun a b => R a b ∧ P b) :
    ∀ v ∈ others, P v := by
  induction others generalizing x with
  | nil => simp
  | cons v rest ih =>
    grind

/-- A walk back to its first vertex `x` that otherwise keeps to vertices in `P` contains a simple
cycle whose other vertices are in `P`. -/
theorem exists_simpleCycle {P : V → Prop} {y : V} (walk : ReflTransGen (fun a b => R a b ∧ P b) x y) (back : R y x) :
    ∃ others, SimpleCycle R x others ∧ ∀ v ∈ others, P v := by
  obtain ⟨others, chain, nodup, last⟩ := exists_simplePath walk
  exact ⟨others, ⟨chain.imp fun _ _ step => step.1, nodup, by rwa [last]⟩, forall_mem_tail chain⟩

/-! ### Labels that travel along the edges -/

section Labels

variable {L : Type*} [LinearOrder L]

/-- The vertex with the label `l` leads to `v` over vertices that all have larger labels. -/
def LabelReaches (R : V → V → Prop) (label : V → L) (l : L) (v : V) : Prop :=
  ∃ z, label z = l ∧ ReflTransGen (fun a b => R a b ∧ l < label b) z v

variable {label : V → L}

theorem LabelReaches.self (v : V) : LabelReaches R label (label v) v := ⟨v, rfl, ReflTransGen.refl⟩

theorem LabelReaches.forward {l : L} {u v : V} (reach : LabelReaches R label l u) (edge : R u v)
    (lt : l < label v) : LabelReaches R label l v := by
  obtain ⟨z, own, walk⟩ := reach
  exact ⟨z, own, walk.tail ⟨edge, lt⟩⟩

/-- A label that comes home has gone round a cycle on which it is the smallest. -/
theorem LabelReaches.exists_cycle (distinct : Function.Injective label) {x y : V}
    (reach : LabelReaches R label (label x) y) (back : R y x) :
    ∃ others, SimpleCycle R x others ∧ ∀ v ∈ others, label x < label v := by
  obtain ⟨z, own, walk⟩ := reach
  obtain rfl : z = x := distinct own
  exact exists_simpleCycle walk back

end Labels

/-! ### Walks that end in a vertex -/

inductive EndsWalk (R : V → V → Prop) : Nat → V → Prop
  | start (v : V) : EndsWalk R 0 v
  | step {k : Nat} {u v : V} : EndsWalk R k u → R u v → EndsWalk R (k + 1) v

theorem EndsWalk.pred (walk : EndsWalk R (k + 1) v) : EndsWalk R k v := by
  induction k generalizing v with
  | zero => exact EndsWalk.start v
  | succ k ih =>
    cases walk with
    | step shorter edge => exact EndsWalk.step (ih shorter) edge

theorem EndsWalk.mono {j : Nat} (walk : EndsWalk R k v) (le : j ≤ k) : EndsWalk R j v := by
  induction le with
  | refl => exact walk
  | step _ ih => exact ih walk.pred

theorem EndsWalk.exists_finset [DecidableEq V] (walk : EndsWalk R k v)
    (acyclic : ∀ c, ReflTransGen R c v → ¬TransGen R c c) :
    ∃ visited : Finset V, visited.card = k + 1 ∧ ∀ u ∈ visited, ReflTransGen R u v := by
  induction walk with
  | start v => exact ⟨{v}, by simp, by simp [ReflTransGen.refl]⟩
  | @step k u v shorter edge ih =>
    obtain ⟨visited, card, reach⟩ := ih fun c toU => acyclic c (toU.tail edge)
    have fresh : v ∉ visited := by
      intro mem
      exact acyclic v ReflTransGen.refl (tail' (reach v mem) edge)
    refine ⟨insert v visited, by rw [card_insert_of_notMem fresh, card], ?_⟩
    grind

theorem EndsWalk.lt_card [Fintype V] (walk : EndsWalk R k v) (acyclic : ∀ c, ReflTransGen R c v → ¬TransGen R c c) :
    k < Fintype.card V := by
  classical
  obtain ⟨visited, card, -⟩ := walk.exists_finset acyclic
  calc k < visited.card := by omega
    _ ≤ Fintype.card V := card_le_univ visited

/-! ### Strongly connected components -/

def Component (R : V → V → Prop) (x v : V) : Prop := ReflTransGen R x v ∧ ReflTransGen R v x

theorem Component.self (x : V) : Component R x x := ⟨ReflTransGen.refl, ReflTransGen.refl⟩

theorem Component.within (ha : Component R x a) (reach : ReflTransGen R a b) (hb : ReflTransGen R b x) :
    ReflTransGen (fun u v => R u v ∧ Component R x u ∧ Component R x v) a b := by
  induction reach with
  | refl => exact ReflTransGen.refl
  | @tail u v toU edge ih =>
    have hu : Component R x u := ⟨ha.1.trans toU, ReflTransGen.head edge hb⟩
    have hv : Component R x v := ⟨hu.1.tail edge, hb⟩
    exact (ih hu.2).tail ⟨edge, hu, hv⟩

theorem Component.exists_pred (cyclic : TransGen R x x) (hv : Component R x v) : ∃ u, R u v ∧ Component R x u := by
  have reach : TransGen R x v := trans_left cyclic hv.1
  obtain ⟨u, toU, edge⟩ := tail'_iff.1 reach
  exact ⟨u, edge, toU, ReflTransGen.head edge hv.2⟩

/-- No other cycle leads to the component of `x`. -/
def Source (R : V → V → Prop) (x : V) : Prop :=
  ∀ c, TransGen R c c → ReflTransGen R c x → ReflTransGen R x c

theorem Source.acyclic_pred {u : V} (source : Source R x) (hv : Component R x v) (edge : R u v)
    (outside : ¬Component R x u) : ∀ c, ReflTransGen R c u → ¬TransGen R c c := by
  intro c toU cyclic
  have toX : ReflTransGen R u x := ReflTransGen.head edge hv.2
  exact outside ⟨(source c cyclic (toU.trans toX)).trans toU, toX⟩

/-- In a finite graph with a cycle some cyclic component is reached from no other one, and it has
a vertex with least label. -/
theorem exists_least_source [Fintype V] {L : Type*} [LinearOrder L] (label : V → L) {c : V} (cyclic : TransGen R c c) :
    ∃ x, TransGen R x x ∧ Source R x ∧ ∀ v, Component R x v → label x ≤ label v := by
  classical
  -- a cyclic vertex with the fewest vertices that lead to it
  let upstream (v : V) : Finset V := univ.filter fun u => ReflTransGen R u v
  obtain ⟨y, hy, fewest⟩ := exists_min_image
    (univ.filter fun v => TransGen R v v) (fun v => (upstream v).card) ⟨c, by simp [cyclic]⟩
  have cyclicY : TransGen R y y := (mem_filter.1 hy).2
  have sourceY : Source R y := by
    intro d cyclicD toY
    have sub : upstream d ⊆ upstream y := by
      intro u mem
      simp only [upstream, Finset.mem_filter, Finset.mem_univ, true_and] at mem ⊢
      exact mem.trans toY
    have same : upstream d = upstream y := Finset.eq_of_subset_of_card_le sub (fewest d (by simp [cyclicD]))
    have mem : y ∈ upstream d := by
      rw [same]
      simp [upstream, ReflTransGen.refl]
    exact (mem_filter.1 mem).2
  obtain ⟨x, hx, least⟩ := exists_min_image (univ.filter fun v => Component R y v) label ⟨y, by simp [Component.self]⟩
  have inY : Component R y x := (mem_filter.1 hx).2
  refine ⟨x, ?_, ?_, ?_⟩
  · exact trans_right inY.2 (trans_left cyclicY inY.1)
  · intro d cyclicD toX
    exact inY.2.trans (sourceY d cyclicD (toX.trans inY.2))
  · intro v hv
    exact least v (mem_filter.2 ⟨mem_univ v, inY.1.trans hv.1, hv.2.trans inY.2⟩)

/-! ### Spreading, one edge per round -/

theorem spread_path {S : Nat → V → Prop} (step : ∀ {j u v}, S j u → R u v → S (j + 1) v) {path : List V}
    (chain : (a :: path).IsChain R) {i : Nat} (start : S i a) :
    S (i + path.length) ((a :: path).getLast (cons_ne_nil a path)) := by
  induction path generalizing a i with
  | nil => simpa using start
  | cons v rest ih =>
    rw [isChain_cons_cons] at chain
    have next := ih chain.2 (step start chain.1)
    rw [getLast_cons_cons, length_cons]
    rwa [Nat.add_right_comm, Nat.add_assoc] at next

/-- What holds of a vertex and spreads along the edges round by round holds, after one round less
than there are vertices, of everything the vertex reaches. -/
theorem spread_reach [Fintype V] {S : Nat → V → Prop} (keep : ∀ {j v}, S j v → S (j + 1) v)
    (step : ∀ {j u v}, S j u → R u v → S (j + 1) v) (reach : ReflTransGen R a b) {i j : Nat} (start : S i a)
    (late : i + Fintype.card V ≤ j + 1) : S j b := by
  obtain ⟨path, chain, nodup, last⟩ := exists_simplePath reach
  have short : path.length + 1 ≤ Fintype.card V := by simpa using nodup.length_le_card
  have reached : S (i + path.length) b := last ▸ spread_path step chain start
  have later : i + path.length ≤ j := by omega
  clear late
  induction later with
  | refl => exact reached
  | step _ ih => exact keep ih

end IMBridge.Lib.Walk
