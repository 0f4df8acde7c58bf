import Mathlib.Data.Set.Insert

/-!
Replacement of terms in a shared, mutable term graph, by a traversal in preorder that does not
descend into the terms it has put in. The result is described without the traversal: the nodes below
the visited roots have their parameters replaced.
-/

namespace IMBridge.Lib.TermGraph

variable {P C : Type}

structure Node (P C : Type) where
  cls : C
  params : List P

/-- What to put in the place of which term. `isNew` marks the terms that are put in. -/
structure Replacement (P : Type) where
  target : P → Option P
  isNew : P → Bool
  isNew_of_target : ∀ {old new}, target old = some new → isNew new = true

section Definitions

variable (r : Replacement P)

def Replacement.apply (p : P) : P := (r.target p).getD p

def Node.replaceParams (node : Node P C) : Node P C :=
  { node with params := node.params.map r.apply }

/-- Preorder traversal: overwrite the parameters of the node, then go on with the new list. -/
def preorder [DecidableEq P] : Nat → (P → Node P C) → P → (P → Node P C)
  | 0, graph, _ => graph
  | fuel + 1, graph, p =>
      if r.isNew p then graph
      else
        let visited := Function.update graph p ((graph p).replaceParams r)
        (visited p).params.foldl (preorder fuel) visited

/-- Replacement in a place that holds `p`: the new content of the place and the new graph. -/
def replaceAt [DecidableEq P] (fuel : Nat) (graph : P → Node P C) (p : P) : P × (P → Node P C) :=
  match r.target p with
  | some new => (new, graph)
  | none => (p, preorder r fuel graph p)

variable (graph : P → Node P C)

inductive Below : P → P → Prop
  | self {p : P} : r.isNew p = false → Below p p
  | param {p q n : P} : r.isNew p = false → q ∈ (graph p).params → r.target q = none → Below q n → Below p n

inductive Contains : P → Prop
  | here {p : P} : r.target p ≠ none → Contains p
  | param {p q : P} : q ∈ (graph p).params → Contains q → Contains p

def Fresh : Prop := ∀ new, r.isNew new = true → ¬Contains r graph new

def touched (roots : List P) : Set P := {n | ∃ p ∈ roots, r.target p = none ∧ Below r graph p n}

open Classical in
noncomputable def mark (nodes : Set P) : P → Node P C :=
  fun n => if n ∈ nodes then (graph n).replaceParams r else graph n

end Definitions

variable {r : Replacement P} {graph : P → Node P C}

theorem mark_inside {nodes : Set P} {n : P} (inside : n ∈ nodes) :
    mark r graph nodes n = (graph n).replaceParams r := if_pos inside

theorem mark_outside {nodes : Set P} {n : P} (outside : n ∉ nodes) : mark r graph nodes n = graph n := if_neg outside

@[simp] theorem mark_cls (nodes : Set P) (n : P) : (mark r graph nodes n).cls = (graph n).cls := by
  unfold mark
  split <;> rfl

theorem mark_empty : mark r graph ∅ = graph := by
  funext n
  exact mark_outside (Set.notMem_empty n)

theorem mem_touched {roots : List P} {n : P} :
    n ∈ touched r graph roots ↔ ∃ p ∈ roots, r.target p = none ∧ Below r graph p n := Iff.rfl

theorem touched_nil : touched r graph [] = ∅ := by
  ext n
  simp [mem_touched]

theorem touched_append (roots more : List P) :
    touched r graph (roots ++ more) = touched r graph roots ∪ touched r graph more := by
  ext n
  simp only [mem_touched, Set.mem_union, List.mem_append, or_and_right, exists_or]

theorem touched_of_none {p : P} (none_ : r.target p = none) : touched r graph [p] = {n | Below r graph p n} := by
  ext n
  simp [mem_touched, none_]

theorem touched_of_target {p : P} (some_ : r.target p ≠ none) : touched r graph [p] = ∅ := by
  ext n
  simp [mem_touched, some_]

theorem Replacement.apply_of_none {p : P} (none_ : r.target p = none) : r.apply p = p := by
  simp [apply, none_]

theorem Replacement.isNew_apply {p : P} (some_ : r.target p ≠ none) : r.isNew (r.apply p) = true := by
  obtain ⟨new, found⟩ := Option.ne_none_iff_exists'.mp some_
  rw [apply, found]
  exact r.isNew_of_target found

theorem Fresh.target_none (fresh : Fresh r graph) {new : P} (isNew : r.isNew new = true) : r.target new = none := by
  by_contra some_
  exact fresh new isNew (.here some_)

theorem Fresh.apply_apply (fresh : Fresh r graph) (p : P) : r.apply (r.apply p) = r.apply p := by
  by_cases none_ : r.target p = none
  · rw [Replacement.apply_of_none none_, Replacement.apply_of_none none_]
  · exact Replacement.apply_of_none (fresh.target_none (Replacement.isNew_apply none_))

section Traversal

variable [DecidableEq P]

theorem update_mark (fresh : Fresh r graph) (nodes : Set P) (p : P) :
    Function.update (mark r graph nodes) p ((mark r graph nodes p).replaceParams r) = mark r graph (nodes ∪ {p}) := by
  funext n
  by_cases same : n = p
  · subst same
    have member : n ∈ nodes ∪ {n} := Set.mem_union_right _ (Set.mem_singleton n)
    rw [Function.update_self, mark_inside member]
    by_cases inside : n ∈ nodes
    · rw [mark_inside inside]
      simp [Node.replaceParams, fresh.apply_apply]
    · rw [mark_outside inside]
  · rw [Function.update_of_ne same]
    by_cases inside : n ∈ nodes
    · rw [mark_inside inside, mark_inside (Set.mem_union_left _ inside)]
    have outside : n ∉ nodes ∪ {p} := by simp [inside, same]
    rw [mark_outside inside, mark_outside outside]

variable {p : P} {fuel : Nat}

theorem preorder_of_isNew (fuel : Nat) (other : P → Node P C) (isNew : r.isNew p = true) :
    preorder r fuel other p = other := by
  cases fuel with
  | zero => rfl
  | succ fuel => simp [preorder, isNew]

theorem foldl_preorder (params : List P)
    (each : ∀ q ∈ params, ∀ nodes, preorder r fuel (mark r graph nodes) q = mark r graph (nodes ∪ {n | Below r graph q n}))
    (nodes : Set P) :
    (params.map r.apply).foldl (preorder r fuel) (mark r graph nodes) = mark r graph (nodes ∪ touched r graph params) := by
  induction params generalizing nodes with
  | nil => rw [List.map_nil, List.foldl_nil, touched_nil, Set.union_empty]
  | cons q rest ih =>
    have tail := ih fun other member => each other (List.mem_cons_of_mem _ member)
    have split : touched r graph (q :: rest) = touched r graph [q] ∪ touched r graph rest := touched_append [q] rest
    rw [List.map_cons, List.foldl_cons, split, ← Set.union_assoc]
    by_cases none_ : r.target q = none
    · rw [Replacement.apply_of_none none_, each q List.mem_cons_self, tail, touched_of_none none_]
    rw [preorder_of_isNew fuel _ (Replacement.isNew_apply none_), tail, touched_of_target none_, Set.union_empty]

omit [DecidableEq P] in
theorem below_of_isNew (isNew : r.isNew p = true) : {n | Below r graph p n} = ∅ := by
  ext n
  constructor
  · intro below
    cases below <;> simp_all
  · intro absurd_
    exact absurd_.elim

omit [DecidableEq P] in
theorem below_of_not_isNew (isNew : r.isNew p = false) :
    {n | Below r graph p n} = {p} ∪ touched r graph (graph p).params := by
  ext n
  constructor
  · intro below
    cases below with
    | self _ => exact Or.inl rfl
    | param _ member none_ rest => exact Or.inr ⟨_, member, none_, rest⟩
  · intro visited
    cases visited with
    | inl same =>
      obtain rfl : n = p := same
      exact .self isNew
    | inr lower =>
      obtain ⟨q, member, none_, rest⟩ := lower
      exact .param isNew member none_ rest

/-- With fuel above the height of `p`, the traversal marks exactly what is below `p`. -/
theorem preorder_mark (fresh : Fresh r graph) {rank : P → Nat} (ranked : ∀ n, ∀ q ∈ (graph n).params, rank q < rank n)
    (enough : rank p < fuel) (nodes : Set P) :
    preorder r fuel (mark r graph nodes) p = mark r graph (nodes ∪ {n | Below r graph p n}) := by
  induction fuel generalizing p nodes with
  | zero => omega
  | succ fuel ih =>
    cases isNew : r.isNew p with
    | true => rw [preorder_of_isNew (fuel + 1) _ isNew, below_of_isNew isNew, Set.union_empty]
    | false =>
      have each : ∀ q ∈ (graph p).params, ∀ nodes,
          preorder r fuel (mark r graph nodes) q = mark r graph (nodes ∪ {n | Below r graph q n}) := by
        intro q member nodes
        have lower := ranked p q member
        exact ih (by omega) nodes
      have member : p ∈ nodes ∪ {p} := Set.mem_union_right _ (Set.mem_singleton p)
      simp only [preorder, isNew, Bool.false_eq_true, ↓reduceIte, update_mark fresh, mark_inside member]
      rw [below_of_not_isNew isNew, ← Set.union_assoc]
      exact foldl_preorder _ each _

theorem replaceAt_mark (fresh : Fresh r graph) {rank : P → Nat}
    (ranked : ∀ n, ∀ q ∈ (graph n).params, rank q < rank n) (enough : ∀ p, rank p < fuel) (nodes : Set P) (p : P) :
    replaceAt r fuel (mark r graph nodes) p = (r.apply p, mark r graph (nodes ∪ touched r graph [p])) := by
  unfold replaceAt
  cases found : r.target p with
  | some new =>
    have some_ : r.target p ≠ none := by simp [found]
    simp [Replacement.apply, found, touched_of_target some_]
  | none =>
    simp [Replacement.apply, found, preorder_mark fresh ranked (enough p), touched_of_none found]

end Traversal

section Occurrences

variable {p n : P} {rank : P → Nat} {roots : List P}

theorem Below.snoc {q : P} (below : Below r graph p n) (member : q ∈ (graph n).params) (none_ : r.target q = none)
    (old : r.isNew q = false) : Below r graph p q := by
  induction below with
  | self oldSelf => exact .param oldSelf member none_ (.self old)
  | param oldSelf inside key _ ih => exact .param oldSelf inside key (ih member)

theorem Below.target_none (below : Below r graph p n) (none_ : r.target p = none) : r.target n = none := by
  induction below with
  | self _ => exact none_
  | param _ _ key _ ih => exact ih key

theorem not_contains_mark {nodes : Set P} (clean : ¬Contains r graph p) : ¬Contains r (mark r graph nodes) p := by
  intro found
  induction found with
  | here some_ => exact clean (.here some_)
  | @param p q member _ ih =>
    have below : ∀ q ∈ (graph p).params, ¬Contains r graph q := fun q inside inner =>
      clean (.param inside inner)
    have same : ∀ q ∈ (graph p).params, r.apply q = q := by
      intro q inside
      apply Replacement.apply_of_none
      by_contra some_
      exact below q inside (.here some_)
    have params : (mark r graph nodes p).params = (graph p).params := by
      by_cases inside : p ∈ nodes
      · rw [mark_inside inside]
        exact (List.map_congr_left same).trans (List.map_id' _)
      · rw [mark_outside inside]
    exact ih (below q (params ▸ member))

variable (fresh : Fresh r graph)
include fresh

variable (ranked : ∀ n, ∀ q ∈ (graph n).params, rank q < rank n)
include ranked

theorem not_contains_of_touched
    (visited : n ∈ touched r graph roots) : ¬Contains r (mark r graph (touched r graph roots)) n := by
  induction height : rank n using Nat.strong_induction_on generalizing n with
  | _ _ ih =>
    obtain ⟨p, root, none_, below⟩ := visited
    have visited : n ∈ touched r graph roots := ⟨p, root, none_, below⟩
    intro found
    cases found with
    | here some_ => exact some_ (below.target_none none_)
    | @param _ q' member inner =>
      rw [mark_inside visited] at member
      obtain ⟨q, inside, rfl⟩ := List.mem_map.mp member
      by_cases key : r.target q = none
      · rw [Replacement.apply_of_none key] at inner
        cases old : r.isNew q with
        | true => exact not_contains_mark (fresh q old) inner
        | false =>
          have lower := ranked n q inside
          exact ih (rank q) (by omega) ⟨p, root, none_, below.snoc inside key old⟩ rfl inner
      · exact not_contains_mark (fresh _ (Replacement.isNew_apply key)) inner

theorem not_contains_apply (root : p ∈ roots) : ¬Contains r (mark r graph (touched r graph roots)) (r.apply p) := by
  by_cases key : r.target p = none
  · rw [Replacement.apply_of_none key]
    cases old : r.isNew p with
    | true => exact not_contains_mark (fresh p old)
    | false => exact not_contains_of_touched fresh ranked ⟨p, root, key, .self old⟩
  · exact not_contains_mark (fresh _ (Replacement.isNew_apply key))

/-- A term with a replacement occurs in `p` on a path that avoids `nodes`. -/
inductive Exposed (r : Replacement P) (graph : P → Node P C) (nodes : Set P) : P → Prop
  | here {p : P} : r.target p ≠ none → Exposed r graph nodes p
  | param {p q : P} : p ∉ nodes → q ∈ (graph p).params → Exposed r graph nodes q → Exposed r graph nodes p

theorem contains_mark_iff_exposed :
    Contains r (mark r graph (touched r graph roots)) p ↔ Exposed r graph (touched r graph roots) p := by
  constructor
  · intro found
    induction found with
    | here some_ => exact .here some_
    | @param p q member inner ih =>
      by_cases visited : p ∈ touched r graph roots
      · exact absurd (.param member inner) (not_contains_of_touched fresh ranked visited)
      rw [mark_outside visited] at member
      exact .param visited member ih
  · intro exposed
    induction exposed with
    | here some_ => exact .here some_
    | param outside member _ ih => exact .param (by rwa [mark_outside outside]) ih

end Occurrences

end IMBridge.Lib.TermGraph
