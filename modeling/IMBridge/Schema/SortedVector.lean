import Mathlib.Order.RelClasses
import Mathlib.Data.List.Basic

/-!
`ObSortedVector` with the comparison functions that its callers hand in. The results are about a
vector sorted strictly by a key: it stays so, and it holds one value under a key at most.
-/

namespace IMBridge.Schema.SortedVector

open List Option
variable {α β κ : Type}

/-- `std::lower_bound`: where the elements below `value` end, in a range that they begin. -/
def lowerBound (compare : α → β → Bool) (values : List α) (value : β) : Nat :=
  values.findIdx fun element => !compare element value

def find (compare equal : α → β → Bool) (values : List α) (value : β) : Option Nat :=
  let pos := lowerBound compare values value
  match values[pos]? with
  | some element => if equal element value then some pos else none
  | none => none

def replace (compare equal : α → α → Bool) (values : List α) (value : α) : List α × Option α :=
  let pos := lowerBound compare values value
  match values[pos]? with
  | some element =>
    if equal element value then (values.set pos value, some element)
    else (values.insertIdx pos value, none)
  | none => (values.insertIdx pos value, none)

/-- The removed element and the new vector, or `none` for `OB_ENTRY_NOT_EXIST`. -/
def removeIf (compare equal : α → β → Bool) (values : List α) (value : β) : Option (α × List α) :=
  match find compare equal values value with
  | some pos => values[pos]?.map fun element => (element, values.eraseIdx pos)
  | none => none

section Sorted

variable {lt : κ → κ → Prop} [IsStrictTotalOrder κ lt] {key : α → κ}

def Sorted (lt : κ → κ → Prop) (key : α → κ) (values : List α) : Prop :=
  values.Pairwise fun first second => lt (key first) (key second)

variable {values : List α}

section

variable (sorted : Sorted lt key values)
include sorted

theorem Sorted.nodup_map : (values.map key).Nodup := by
  rw [Nodup, pairwise_map]
  refine sorted.imp fun below same => ?_
  rw [same] at below
  exact irrefl_of lt _ below

theorem Sorted.split {compare : α → β → Bool} {value : β} {bound : κ}
    (compares : ∀ element, compare element value = true ↔ lt (key element) bound) :
    ∃ below rest, values = below ++ rest ∧ lowerBound compare values value = below.length ∧
      (∀ element ∈ below, lt (key element) bound) ∧
      ∀ element ∈ rest, ¬ lt (key element) bound := by
  induction values with
  | nil => exact ⟨[], [], rfl, rfl, by simp, by simp⟩
  | cons element values ih =>
    obtain ⟨first, sorted⟩ := pairwise_cons.mp sorted
    by_cases less : lt (key element) bound
    · obtain ⟨below, rest, rfl, position, small, large⟩ := ih sorted
      refine ⟨element :: below, rest, rfl, ?_, forall_mem_cons.mpr ⟨less, small⟩, large⟩
      rw [lowerBound, findIdx_cons, (compares element).mpr less]
      exact congrArg (· + 1) position
    · refine ⟨[], element :: values, rfl, ?_, by simp, forall_mem_cons.mpr ⟨less, ?_⟩⟩
      · have not_less : compare element value = false :=
          Bool.eq_false_iff.mpr fun holds => less ((compares element).mp holds)
        rw [lowerBound, findIdx_cons, not_less]
        rfl
      · exact fun other member below => less (trans_of lt (first other member) below)

structure Around (lt : κ → κ → Prop) (key : α → κ) (bound : κ) (below : List α) (same : Option α)
    (above : List α) : Prop where
  small : ∀ element ∈ below, lt (key element) bound
  equal : ∀ element ∈ same, key element = bound
  large : ∀ element ∈ above, lt bound (key element)

theorem Sorted.around {compare : α → β → Bool} {value : β} {bound : κ}
    (compares : ∀ element, compare element value = true ↔ lt (key element) bound) :
    ∃ below same above, values = below ++ (same.toList ++ above) ∧
      lowerBound compare values value = below.length ∧ Around lt key bound below same above := by
  obtain ⟨below, rest, rfl, position, small, notBelow⟩ := sorted.split compares
  obtain ⟨-, ordered, -⟩ := pairwise_append.mp sorted
  cases rest with
  | nil => exact ⟨below, none, [], rfl, position, small, by simp, by simp⟩
  | cons element above =>
    have first := (pairwise_cons.mp ordered).1
    rcases trichotomous_of lt (key element) bound with less | same | greater
    · grind
    · refine ⟨below, some element, above, rfl, position, small, by simpa using same, ?_⟩
      grind
    · refine ⟨below, none, element :: above, rfl, position, small, by simp, ?_⟩
      exact forall_mem_cons.mpr ⟨greater, fun other member => trans_of lt greater (first other member)⟩

end

namespace Around

variable {bound : κ} {below above : List α} {same : Option α}

theorem sorted (around : Around lt key bound below same above) (middle : Option α)
    (sorted : Sorted lt key (below ++ (same.toList ++ above)))
    (keyed : ∀ element ∈ middle, key element = bound) :
    Sorted lt key (below ++ (middle.toList ++ above)) := by
  obtain ⟨before, after, -⟩ := pairwise_append.mp sorted
  obtain ⟨-, after, -⟩ := pairwise_append.mp after
  refine pairwise_append.mpr ⟨before, pairwise_append.mpr ⟨?_, after, ?_⟩, ?_⟩
  · simp
  · intro first member second later
    exact keyed first (mem_toList.mp member) ▸ around.large second later
  · intro first member second later
    rcases mem_append.mp later with middle | above
    · exact keyed second (mem_toList.mp middle) ▸ around.small first member
    · exact trans_of lt (around.small first member) (around.large second above)

theorem mem_iff (around : Around lt key bound below same above) (middle : Option α) (element : α) :
    element ∈ below ++ (middle.toList ++ above) ↔
      element ∈ middle ∨ (element ∈ below ++ (same.toList ++ above) ∧ key element ≠ bound) := by
  have apart : element ∈ below ∨ element ∈ above → key element ≠ bound := by
    rintro (member | member) rfl
    · exact irrefl_of lt _ (around.small element member)
    · exact irrefl_of lt _ (around.large element member)
  have together := around.equal element
  simp only [mem_append, mem_toList]
  tauto

omit [IsStrictTotalOrder κ lt] in
theorem getElem?_some {element : α} : (below ++ ((some element).toList ++ above))[below.length]? = some element := by
  simp

theorem ne_of_none (around : Around lt key bound below none above) {element : α}
    (found : (below ++ ((none : Option α).toList ++ above))[below.length]? = some element) :
    key element ≠ bound := by
  rintro rfl
  have member : element ∈ above := by
    grind
  exact irrefl_of lt _ (around.large element member)

end Around

theorem insertIdx_between (below above : List α) (value : α) :
    (below ++ above).insertIdx below.length value = below ++ value :: above := by
  induction below with
  | nil => rfl
  | cons element below ih => simpa using ih

theorem replace_spec (sorted : Sorted lt key values) (compare equal : α → α → Bool) (value : α)
    (compares : ∀ element, compare element value = true ↔ lt (key element) (key value))
    (equals : ∀ element, equal element value = true ↔ key element = key value) :
    Sorted lt key (replace compare equal values value).1 ∧ ∀ element, element ∈ (replace compare equal values value).1 ↔
        element = value ∨ (element ∈ values ∧ key element ≠ key value) := by
  obtain ⟨below, same, above, rfl, position, around⟩ := sorted.around compares
  have replaced : (replace compare equal (below ++ (same.toList ++ above)) value).1 =
      below ++ ((some value).toList ++ above) := by
    rw [replace, position]
    cases same with
    | some element =>
      have equal := (equals element).mpr (around.equal element rfl)
      rw [Around.getElem?_some]
      simp [equal]
    | none =>
      have inserted := insertIdx_between below above value
      split
      next element found =>
        rwa [if_neg fun holds => around.ne_of_none found ((equals element).mp holds)]
      next => exact inserted
  rw [replaced]
  refine ⟨around.sorted _ sorted (by simp), fun element => ?_⟩
  rw [around.mem_iff, mem_some_iff, eq_comm]

theorem removeIf_spec (sorted : Sorted lt key values) (compare equal : α → β → Bool) (value : β) (bound : κ)
    (compares : ∀ element, compare element value = true ↔ lt (key element) bound)
    (equals : ∀ element, equal element value = true ↔ key element = bound) :
    (∃ old values', old ∈ values ∧ key old = bound ∧
      removeIf compare equal values value = some (old, values') ∧ Sorted lt key values' ∧
      ∀ element, element ∈ values' ↔ element ∈ values ∧ key element ≠ bound) ∨
    ((∀ element ∈ values, key element ≠ bound) ∧ removeIf compare equal values value = none) := by
  obtain ⟨below, same, above, rfl, position, around⟩ := sorted.around compares
  have others : ∀ element, element ∈ below ++ above ↔
      element ∈ below ++ (same.toList ++ above) ∧ key element ≠ bound := fun element => by
    simpa only [toList_none, nil_append, not_mem_none, false_or] using around.mem_iff none element
  cases same with
  | some old =>
    have same := around.equal old rfl
    refine .inl ⟨old, below ++ above, by simp, same, ?_, ?_, others⟩
    · have located : find compare equal (below ++ ((some old).toList ++ above)) value = some below.length := by
        rw [find, position, Around.getElem?_some]
        exact if_pos ((equals old).mpr same)
      rw [removeIf, located]
      simp [eraseIdx_append_of_length_le]
    · exact around.sorted none sorted (by simp)
  | none =>
    refine .inr ⟨fun element member => ((others element).mp member).2, ?_⟩
    have missing : find compare equal (below ++ ((none : Option α).toList ++ above)) value = none := by
      rw [find, position]
      split
      next element found =>
        grind
      next => rfl
    rw [removeIf, missing]

end Sorted

end IMBridge.Schema.SortedVector
