import Mathlib.Algebra.BigOperators.Group.Finset.Piecewise
import Mathlib.Algebra.Order.BigOperators.Group.Finset

/-!
Open addressing with linear probing and erased cells. A value is found again as long as no cell
between the start of its probe sequence and its own cell is empty, which erasing and overwriting
cannot change.
-/

namespace IMBridge.Lib.LinearProbing

open Nat Function Finset List
variable {V : Type}

inductive Slot (V : Type) where
  | empty | erased | live (value : V)
deriving DecidableEq

namespace Slot

def toList : Slot V → List V
  | live value => [value]
  | _ => []

/-- The cell is not available to a search as a place to stop. -/
def used : Slot V → Nat
  | empty => 0
  | _ => 1

end Slot

def next (capacity i : Nat) : Nat :=
  if i + 1 < capacity then i + 1 else i + 1 - capacity

variable {capacity start i : Nat} {cells : Nat → Slot V}

theorem iterate_next (inside : start < capacity) (n : Nat) : (next capacity)^[n] start = (start + n) % capacity := by
  induction n with
  | zero => exact (mod_eq_of_lt inside).symm
  | succ n ih =>
    have less := mod_lt (start + n) (zero_lt_of_lt inside)
    rw [iterate_succ_apply', ih, next, ← Nat.add_assoc, ← mod_add_mod (start + n) capacity 1]
    split
    next more => rw [mod_eq_of_lt more]
    next last =>
      have full : (start + n) % capacity + 1 = capacity := by omega
      rw [full, Nat.sub_self, mod_self]

theorem iterate_next_lt (inside : start < capacity) (n : Nat) : (next capacity)^[n] start < capacity := by
  rw [iterate_next inside]
  exact mod_lt _ (zero_lt_of_lt inside)

theorem exists_iterate_next (inside : start < capacity) (cell : i < capacity) :
    ∃ n < capacity, (next capacity)^[n] start = i := by
  refine ⟨(i + (capacity - start)) % capacity, mod_lt _ (zero_lt_of_lt inside), ?_⟩
  rw [iterate_next inside, add_mod_mod, show start + (i + (capacity - start)) = i + capacity by omega,
    add_mod_right, mod_eq_of_lt cell]

/-- The probe sequence from `start` comes to cell `i` without passing an empty cell. -/
def Reaches (cells : Nat → Slot V) (capacity start i : Nat) : Prop :=
  ∃ n < capacity, (next capacity)^[n] start = i ∧
    ∀ m < n, cells ((next capacity)^[m] start) ≠ .empty

theorem Reaches.mono {cells' : Nat → Slot V} (reaches : Reaches cells capacity start i)
    (used : ∀ j, cells j ≠ .empty → cells' j ≠ .empty) : Reaches cells' capacity start i := by
  obtain ⟨n, few, here, path⟩ := reaches
  exact ⟨n, few, here, fun m before => used _ (path m before)⟩

theorem Reaches.update (reaches : Reaches cells capacity start i) (p : Nat) {slot : Slot V} (used : slot ≠ .empty) :
    Reaches (update cells p slot) capacity start i := by
  refine reaches.mono fun j nonempty => ?_
  grind

section Totals

variable {M : Type} [AddCommMonoid M] (weight : Slot V → M) (cells : Nat → Slot V)

def total (capacity : Nat) : M := ∑ i ∈ range capacity, weight (cells i)

theorem total_update {capacity p : Nat} (inside : p < capacity) (slot : Slot V) :
    total weight (update cells p slot) capacity + weight (cells p) = total weight cells capacity + weight slot := by
  have member := Finset.mem_range.mpr inside
  have moved : (fun i => weight (update cells p slot i)) = update (fun i => weight (cells i)) p (weight slot) := by
    funext i
    rcases eq_or_ne i p with rfl | other
    · rw [update_self, update_self]
    · rw [update_of_ne other, update_of_ne other]
  rw [total, total, moved, sum_update_of_mem member, sdiff_singleton_eq_erase,
    ← sum_erase_add _ _ member, add_comm (weight slot), add_right_comm]

theorem total_succ (n : Nat) : total weight cells (n + 1) = total weight cells n + weight (cells n) :=
  Finset.sum_range_succ ..

end Totals

theorem exists_empty (room : total Slot.used cells capacity < capacity) : ∃ i < capacity, cells i = .empty := by
  by_contra none
  have all : ∀ i ∈ Finset.range capacity, (cells i).used = 1 := by
    intro i member
    have nonempty : cells i ≠ .empty := fun empty => none ⟨i, Finset.mem_range.mp member, empty⟩
    cases slot : cells i with
    | empty => exact absurd slot nonempty
    | erased => rfl
    | live => rfl
  rw [total, sum_congr rfl all, sum_const, card_range, Nat.nsmul_eq_mul, Nat.mul_one] at room
  exact absurd room (Nat.lt_irrefl _)

def entries (cells : Nat → Slot V) (capacity : Nat) : List V :=
  (List.range capacity).flatMap fun i => (cells i).toList

theorem mem_entries {value : V} : value ∈ entries cells capacity ↔ ∃ i < capacity, cells i = .live value := by
  rw [entries, mem_flatMap]
  constructor
  · rintro ⟨i, inside, member⟩
    refine ⟨i, List.mem_range.mp inside, ?_⟩
    cases slot : cells i with
    | live other =>
      rw [slot] at member
      rw [List.mem_singleton.mp member]
    | empty => rw [slot] at member; cases member
    | erased => rw [slot] at member; cases member
  · rintro ⟨i, inside, slot⟩
    exact ⟨i, List.mem_range.mpr inside, by rw [slot]; exact List.mem_singleton.mpr rfl⟩

theorem coe_entries (cells : Nat → Slot V) (capacity : Nat) : (entries cells capacity : Multiset V) =
      total (fun slot => (slot.toList : Multiset V)) cells capacity := by
  induction capacity with
  | zero => rfl
  | succ n ih =>
    rw [total_succ, ← ih, entries, range_succ, flatMap_append, ← Multiset.coe_add]
    simp [entries]

theorem length_entries (cells : Nat → Slot V) (capacity : Nat) :
    (entries cells capacity).length = total (fun slot => slot.toList.length) cells capacity := by
  induction capacity with
  | zero => rfl
  | succ n ih =>
    rw [total_succ, ← ih, entries, range_succ, flatMap_append, length_append]
    simp [entries]

theorem entries_update (cells : Nat → Slot V) {p : Nat} (inside : p < capacity) (slot : Slot V) :
    (entries (update cells p slot) capacity ++ (cells p).toList).Perm (entries cells capacity ++ slot.toList) := by
  rw [← Multiset.coe_eq_coe, ← Multiset.coe_add, ← Multiset.coe_add, coe_entries, coe_entries]
  exact total_update _ cells inside slot

/-- In a duplicate-free concatenation, an element tells the part that it is in. -/
theorem index_unique_of_nodup_flatMap {α β : Type} {l : List α} {f : α → List β} (nodup : (l.flatMap f).Nodup)
    {j : Nat} {a b : α} (first : l[i]? = some a) (second : l[j]? = some b) {x : β} (here : x ∈ f a) (there : x ∈ f b) :
    i = j := by
  obtain ⟨inside, rfl⟩ := List.getElem?_eq_some_iff.mp first
  obtain ⟨inside', rfl⟩ := List.getElem?_eq_some_iff.mp second
  have apart := List.pairwise_iff_getElem.mp (List.nodup_flatMap.mp nodup).2
  rcases lt_trichotomy i j with less | same | more
  · exact absurd there (apart i j inside inside' less here)
  · exact same
  · exact absurd here (apart j i inside' inside more there)

end IMBridge.Lib.LinearProbing
