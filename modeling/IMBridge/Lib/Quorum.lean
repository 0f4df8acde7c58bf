import Mathlib.Data.List.Sort
import Mathlib.Data.Finset.Card
import Mathlib.Data.Fintype.Basic

/-!
Majorities. `kthLargest k xs` is the entry that a descending sort puts at index `k`, the value which
a group of `k + 1` has reached. Two groups that differ in at most one member have overlapping
majorities.
-/

namespace IMBridge.Lib.Quorum

open List Finset
section KthLargest

variable {α : Type*} [LinearOrder α]

def descending (xs : List α) : List α := xs.insertionSort (· ≥ ·)

def kthLargest (k : Nat) (xs : List α) : Option α := (descending xs)[k]?

@[simp] theorem length_descending (xs : List α) : (descending xs).length = xs.length :=
  (perm_insertionSort _ xs).length_eq

theorem countP_descending (p : α → Bool) (xs : List α) : (descending xs).countP p = xs.countP p :=
  (perm_insertionSort _ xs).countP_eq p

variable {xs : List α} {k : Nat} {a : α}

theorem kthLargest_mem (found : kthLargest k xs = some a) : a ∈ xs :=
  (perm_insertionSort _ xs).mem_iff.mp (mem_of_getElem? found)

theorem exists_kthLargest (enough : k < xs.length) : ∃ a, kthLargest k xs = some a :=
  ⟨_, getElem?_eq_getElem (by simpa using enough)⟩

theorem le_getElem_iff_countP (sorted : xs.Pairwise (· ≥ ·)) (inside : k < xs.length) (bound : α) :
    bound ≤ xs[k] ↔ k + 1 ≤ xs.countP (fun x => decide (bound ≤ x)) := by
  induction xs generalizing k with
  | nil => exact absurd inside (Nat.not_lt_zero k)
  | cons x xs ih =>
    obtain ⟨largest, rest⟩ := pairwise_cons.mp sorted
    by_cases reached : bound ≤ x
    · grind
    · have none : ∀ y ∈ xs, ¬bound ≤ y := fun y member below =>
        reached (le_trans below (largest y member))
      have count : (x :: xs).countP (fun y => decide (bound ≤ y)) = 0 := by
        grind
      rw [count]
      grind

/-- A bound holds for the `k`-th largest entry exactly when more than `k` entries reach it. -/
theorem le_kthLargest_iff (found : kthLargest k xs = some a) (bound : α) :
    bound ≤ a ↔ k + 1 ≤ xs.countP (fun x => decide (bound ≤ x)) := by
  obtain ⟨inside, same⟩ := List.getElem?_eq_some_iff.mp found
  have sorted : (descending xs).Pairwise (· ≥ ·) := pairwise_insertionSort _ xs
  rw [← same, le_getElem_iff_countP sorted inside, countP_descending]

omit [LinearOrder α] in
theorem countP_ofFn {n : Nat} (f : Fin n → α) (p : α → Bool) :
    (ofFn f).countP p = (univ.filter (fun i => p (f i) = true)).card := by
  rw [ofFn_eq_map, countP_map, countP_eq_length_filter]
  have nodup : ((finRange n).filter (p ∘ f)).Nodup := (nodup_finRange n).filter _
  rw [← toFinset_card_of_nodup nodup]
  congr 1
  ext i
  simp

theorem lt_card_le_kthLargest {n : Nat} {f : Fin n → α} (found : kthLargest k (ofFn f) = some a) :
    k + 1 ≤ (univ.filter (fun i => a ≤ f i)).card := by
  have reached := (le_kthLargest_iff found a).mp le_rfl
  rw [countP_ofFn] at reached
  simpa using reached

end KthLargest

section Overlap

variable {α : Type*} [DecidableEq α]

/-- Groups that differ at most in `x` have overlapping majorities. -/
theorem majorities_meet {group group' : Finset α} {x : α} (grows : group' ⊆ insert x group)
    (shrinks : group ⊆ insert x group') {n n' : Nat} (size : group.card ≤ n)
    (size' : group'.card ≤ n') {quorum quorum' : Finset α} (inside : quorum ⊆ group)
    (inside' : quorum' ⊆ group') (majority : n / 2 + 1 ≤ quorum.card)
    (majority' : n' / 2 + 1 ≤ quorum'.card) : (quorum ∩ quorum').Nonempty := by
  have larger : group'.card ≤ group.card + 1 := (card_le_card grows).trans (card_insert_le x group)
  have smaller : group.card ≤ group'.card + 1 := (card_le_card shrinks).trans (card_insert_le x group')
  by_cases old : x ∈ group
  · have within : group' ⊆ group := by rwa [insert_eq_self.mpr old] at grows
    apply inter_nonempty_of_card_lt_card_add_card inside (inside'.trans within)
    omega
  have within : group ⊆ group' := by
    grind
  apply inter_nonempty_of_card_lt_card_add_card (inside.trans within) inside'
  omega

end Overlap

end IMBridge.Lib.Quorum
