import IMBridge.Hash.PointerHashArray

/-!
What every operation keeps true of a sub map, and what it does to its entries. Erased cells count as
used, so they never break a path.
-/

namespace IMBridge.Hash

open IMBridge.Lib Function List
open IMBridge.Lib.LinearProbing

namespace PointerHashArray

variable {K V : Type} {traits : Traits K V}

structure Valid (traits : Traits K V) (a : PointerHashArray V) : Prop where
  spare : a.maxEntries < a.capacity
  bounded : a.count ≤ a.maxEntries
  count : a.count = total Slot.used a.cells a.capacity
  itemCount : a.itemCount = a.entries.length
  reaches : ∀ i < a.capacity, ∀ value, a.cells i = .live value →
    Reaches a.cells a.capacity (a.keyToAnchorIdx traits (traits.getKey value)) i

variable {a : PointerHashArray V} {key : K}

theorem keyToAnchorIdx_lt (some_cell : 0 < a.capacity) (key : K) : a.keyToAnchorIdx traits key < a.capacity := by
  unfold keyToAnchorIdx
  dsimp only
  split
  next inside => exact inside
  next => exact Nat.mod_lt _ some_cell

theorem entries_of_empty (empty : ∀ i, a.cells i = .empty) : a.entries = [] := by
  simp [entries, LinearProbing.entries, empty, Slot.toList]

theorem valid_of_empty (spare : a.maxEntries < a.capacity) (empty : ∀ i, a.cells i = .empty) (count : a.count = 0)
    (itemCount : a.itemCount = 0) : a.Valid traits where
  spare := spare
  bounded := by omega
  count := by simp [count, total, empty, Slot.used]
  itemCount := by rw [itemCount, entries_of_empty empty]; rfl
  reaches := by
    intro i _ value live
    rw [empty i] at live
    cases live

theorem valid_create {memSize : Nat} (large : 72 ≤ memSize) : (create V memSize).Valid traits :=
  valid_of_empty (loadLimit_lt (by omega)) (fun _ => rfl) rfl rfl

theorem Valid.clear (valid : a.Valid traits) : a.clear.Valid traits := valid_of_empty valid.spare (fun _ => rfl) rfl rfl

namespace Valid

variable {a : PointerHashArray V} (valid : a.Valid traits)

include valid

theorem capacity_pos : 0 < a.capacity := Nat.zero_lt_of_lt valid.spare

theorem anchor_lt (key : K) : a.keyToAnchorIdx traits key < a.capacity := keyToAnchorIdx_lt valid.capacity_pos key

theorem exists_empty : ∃ i < a.capacity, a.cells i = .empty := by
  apply LinearProbing.exists_empty
  rw [← valid.count]
  exact Nat.lt_of_le_of_lt valid.bounded valid.spare

end Valid

def probe (traits : Traits K V) (a : PointerHashArray V) (key : K) (n : Nat) : Nat :=
  (next a.capacity)^[n] (a.keyToAnchorIdx traits key)

theorem probe_succ (a : PointerHashArray V) (key : K) (n : Nat) :
    next a.capacity (a.probe traits key n) = a.probe traits key (n + 1) :=
  (iterate_succ_apply' ..).symm

/-- A cell in which `key` may be set: it holds no entry, and the search for `key` gets there. -/
structure Free (traits : Traits K V) (a : PointerHashArray V) (key : K) (p : Nat) : Prop where
  inside : p < a.capacity
  unused : (a.cells p).toList = []
  reaches : Reaches a.cells a.capacity (a.keyToAnchorIdx traits key) p

theorem Free.not_live {p : Nat} (free : a.Free traits key p) (value : V) : a.cells p ≠ .live value := by
  intro live
  have unused := free.unused
  rw [live] at unused
  cases unused

def Passes (traits : Traits K V) (key : K) : Slot V → Prop
  | .empty => False
  | .erased => True
  | .live value => traits.getKey value ≠ key

theorem Passes.nonempty {slot : Slot V} (passes : Passes traits key slot) : slot ≠ .empty := by
  rintro rfl
  exact passes

/-- A search that comes to an empty cell has missed nothing. -/
theorem Valid.absent (valid : a.Valid traits) {n : Nat}
    (passed : ∀ m < n, Passes traits key (a.cells (a.probe traits key m)))
    (empty : a.cells (a.probe traits key n) = .empty) : ∀ value ∈ a.entries, traits.getKey value ≠ key := by
  intro value member same
  obtain ⟨i, inside, live⟩ := mem_entries.mp member
  obtain ⟨m, few, here, before⟩ := valid.reaches i inside value live
  rw [same] at here before
  rw [← here] at live
  change a.cells (a.probe traits key m) = .live value at live
  rcases lt_trichotomy m n with early | rfl | late
  · have missed := passed m early
    rw [live] at missed
    exact missed same
  · rw [live] at empty
    cases empty
  · exact before n late empty

structure Step (traits : Traits K V) (a a' : PointerHashArray V) : Prop where
  valid : a'.Valid traits
  capacity : a'.capacity = a.capacity
  maxEntries : a'.maxEntries = a.maxEntries
  count : a.count ≤ a'.count

namespace Valid

variable {a : PointerHashArray V} (valid : a.Valid traits)

include valid

theorem itemCount_le : a.itemCount ≤ a.count := by
  rw [valid.itemCount, valid.count, PointerHashArray.entries, length_entries]
  refine Finset.sum_le_sum fun i _ => ?_
  cases a.cells i with
  | empty => exact Nat.le_refl 0
  | erased => exact Nat.zero_le 1
  | live => exact Nat.le_refl 1

section Write

variable (count itemCount : Nat) {p : Nat} {slot : Slot V}
variable (inside : p < a.capacity) (used : slot ≠ .empty)
variable (path : ∀ value, slot = .live value → Reaches a.cells a.capacity (a.keyToAnchorIdx traits (traits.getKey value)) p)
variable (counted : count + (a.cells p).used = a.count + slot.used)
variable (items : itemCount + (a.cells p).toList.length = a.itemCount + slot.toList.length)
variable (bounded : count ≤ a.maxEntries)

include inside used path counted items bounded

/-- Writing a cell that is on the path of the value written keeps all this, if the counters follow. -/
theorem write : Valid traits { a with
      cells := update a.cells p slot, count := count, itemCount := itemCount } where
  spare := valid.spare
  bounded := bounded
  count := by
    have moved := total_update Slot.used a.cells inside slot
    rw [← valid.count] at moved
    dsimp only
    omega
  itemCount := by
    have moved := (entries_update a.cells inside slot).length_eq
    rw [length_append, length_append] at moved
    have before := valid.itemCount
    rw [PointerHashArray.entries] at before ⊢
    dsimp only
    omega
  reaches := by
    intro i cell value live
    refine Reaches.update ?_ p used
    change update a.cells p slot i = .live value at live
    rcases eq_or_ne i p with rfl | other
    · rw [update_self] at live
      exact path value live
    · rw [update_of_ne other] at live
      exact valid.reaches i cell value live

theorem setValue_spec {old : Option V} (more : a.count ≤ count)
    (result : a.setValue (some p) slot = ⟨if count < itemCount then .errUnexpected else .success, old,
      { a with cells := update a.cells p slot, count := count, itemCount := itemCount }⟩) :
    ∃ a', a.setValue (some p) slot = ⟨.success, old, a'⟩ ∧ Step traits a a' ∧
      (a'.entries ++ (a.cells p).toList).Perm (a.entries ++ slot.toList) ∧
      a'.count = count ∧ a'.itemCount = itemCount := by
  have after := valid.write count itemCount inside used path counted items bounded
  have fits : ¬ count < itemCount := Nat.not_lt.mpr after.itemCount_le
  refine ⟨_, result.trans (by rw [if_neg fits]), ⟨after, rfl, rfl, more⟩, ?_, rfl, rfl⟩
  exact entries_update a.cells inside slot

end Write

theorem setValue_insert {value : V} {p : Nat} (free : a.Free traits (traits.getKey value) p)
    (room : a.cells p = .erased ∨ ¬ a.isFull) :
    ∃ a', a.setValue (some p) (.live value) = ⟨.success, none, a'⟩ ∧ Step traits a a' ∧
      a'.entries.Perm (value :: a.entries) ∧ a'.count + a.itemCount ≤ a.count + a'.itemCount := by
  have bounded := valid.bounded
  have path : ∀ other, Slot.live value = .live other →
      Reaches a.cells a.capacity (a.keyToAnchorIdx traits (traits.getKey other)) p := by
    rintro other ⟨rfl⟩
    exact free.reaches
  have stays : a.entries ++ (Slot.live value).toList = a.entries ++ [value] := rfl
  cases slot : a.cells p with
  | empty =>
    have space : a.count < a.maxEntries := by
      rcases room with erased | unfilled
      · rw [slot] at erased
        cases erased
      · exact Nat.not_le.mp unfilled
    obtain ⟨a', result, step, moved, counts, items⟩ := valid.setValue_spec (a.count + 1)
      (a.itemCount + 1) free.inside (by simp) path (by rw [slot]; rfl) (by rw [slot]; rfl) space
      (Nat.le_succ _) (show a.setValue (some p) (.live value) = ⟨_, none, _⟩ by
        simp only [setValue, if_pos free.inside, slot])
    rw [free.unused, append_nil, stays] at moved
    exact ⟨a', result, step, moved.trans perm_append_comm, by omega⟩
  | erased =>
    obtain ⟨a', result, step, moved, counts, items⟩ := valid.setValue_spec a.count
      (a.itemCount + 1) free.inside (by simp) path (by rw [slot]; rfl) (by rw [slot]; rfl) bounded
      (Nat.le_refl _) (show a.setValue (some p) (.live value) = ⟨_, none, _⟩ by
        simp only [setValue, if_pos free.inside, slot])
    rw [free.unused, append_nil, stays] at moved
    exact ⟨a', result, step, moved.trans perm_append_comm, by omega⟩
  | live other => exact absurd slot (free.not_live other)

theorem setValue_overwrite {value old : V} {p : Nat} (inside : p < a.capacity)
    (live : a.cells p = .live old) (same : traits.getKey old = traits.getKey value) :
    ∃ a', a.setValue (some p) (.live value) = ⟨.success, some old, a'⟩ ∧ Step traits a a' ∧
      (old :: a'.entries).Perm (value :: a.entries) := by
  have path : ∀ other, Slot.live value = .live other →
      Reaches a.cells a.capacity (a.keyToAnchorIdx traits (traits.getKey other)) p := by
    rintro other ⟨rfl⟩
    rw [← same]
    exact valid.reaches p inside old live
  obtain ⟨a', result, step, moved, -⟩ := valid.setValue_spec a.count a.itemCount inside (by simp) path
    (by rw [live]; rfl) (by rw [live]; rfl) valid.bounded (Nat.le_refl _)
    (show a.setValue (some p) (.live value) = ⟨_, some old, _⟩ by
      simp only [setValue, if_pos inside, live])
  rw [live] at moved
  exact ⟨a', result, step, perm_append_comm.trans (moved.trans perm_append_comm)⟩

theorem setValue_erase {old : V} {p : Nat} (inside : p < a.capacity) (live : a.cells p = .live old) :
    ∃ a', a.setValue (some p) .erased = ⟨.success, some old, a'⟩ ∧ Step traits a a' ∧
      (old :: a'.entries).Perm a.entries := by
  have positive : 0 < a.itemCount := by
    rw [valid.itemCount]
    exact length_pos_of_mem (mem_entries.mpr ⟨p, inside, live⟩)
  obtain ⟨a', result, step, moved, -⟩ := valid.setValue_spec a.count (a.itemCount - 1) inside
    (by simp) (by simp) (by rw [live]; rfl) (by rw [live]; exact Nat.sub_add_cancel positive)
    valid.bounded (Nat.le_refl _)
    (show a.setValue (some p) .erased = ⟨_, some old, _⟩ by
      simp only [setValue, if_pos inside, live])
  rw [live, show (Slot.erased : Slot V).toList = [] from rfl, append_nil] at moved
  exact ⟨a', result, step, perm_append_comm.trans moved⟩

end Valid

variable [DecidableEq K]

theorem findFrom_spec (valid : a.Valid traits) (key : K) (overwrite : Bool) {left n : Nat} {pos : Option Nat}
    (all : left + n = a.capacity) (passed : ∀ m < n, Passes traits key (a.cells (a.probe traits key m)))
    (free : ∀ p, pos = some p → a.Free traits key p) :
    (∃ p value, p < a.capacity ∧ a.cells p = .live value ∧ traits.getKey value = key ∧
      a.findFrom traits key overwrite left (a.probe traits key n) pos =
        ⟨if overwrite then .success else .hashExist, some p, true⟩) ∨
    (∃ p, a.Free traits key p ∧ (∀ value ∈ a.entries, traits.getKey value ≠ key) ∧
      a.findFrom traits key overwrite left (a.probe traits key n) pos = ⟨.success, some p, false⟩) := by
  have start := valid.anchor_lt key
  induction left generalizing n pos with
  | zero =>
    -- All cells have been probed, the empty one too.
    obtain ⟨i, cell, empty⟩ := valid.exists_empty
    obtain ⟨m, few, here⟩ := exists_iterate_next start cell
    rw [← here] at empty
    exact absurd empty (passed m (by omega)).nonempty
  | succ left ih =>
    have cell : a.probe traits key n < a.capacity := iterate_next_lt start n
    have here : Reaches a.cells a.capacity (a.keyToAnchorIdx traits key) (a.probe traits key n) :=
      ⟨n, by omega, rfl, fun m before => (passed m before).nonempty⟩
    cases slot : a.cells (a.probe traits key n) with
    | empty =>
      refine .inr ⟨pos.getD (a.probe traits key n), ?_, valid.absent passed slot, ?_⟩
      · cases pos with
        | none => exact ⟨cell, by rw [Option.getD_none, slot]; rfl, here⟩
        | some p => exact free p rfl
      · rw [findFrom, slot]
    | erased =>
      have rest : a.findFrom traits key overwrite (left + 1) (a.probe traits key n) pos =
          a.findFrom traits key overwrite left (a.probe traits key (n + 1))
            (some (pos.getD (a.probe traits key n))) := by
        rw [findFrom, slot, probe_succ]
      rw [rest]
      refine ih (by omega) (Nat.forall_lt_succ_right.mpr ⟨passed, by rw [slot]; trivial⟩) ?_
      intro p chosen
      cases pos with
      | none =>
        obtain rfl : a.probe traits key n = p := Option.some.inj chosen
        exact ⟨cell, by rw [slot]; rfl, here⟩
      | some q => exact free p chosen
    | live value =>
      by_cases same : traits.getKey value = key
      · exact .inl ⟨_, value, cell, slot, same, by rw [findFrom, slot]; exact if_pos same⟩
      have rest : a.findFrom traits key overwrite (left + 1) (a.probe traits key n) pos =
          a.findFrom traits key overwrite left (a.probe traits key (n + 1)) pos := by
        rw [findFrom, slot, probe_succ]
        exact if_neg same
      rw [rest]
      exact ih (by omega) (Nat.forall_lt_succ_right.mpr ⟨passed, by rw [slot]; exact same⟩) free

theorem searchFrom_eq (a : PointerHashArray V) (key : K) (overwrite : Bool) (left i : Nat) (pos : Option Nat) :
    a.searchFrom traits key left i =
      if (a.findFrom traits key overwrite left i pos).exist then
        (a.findFrom traits key overwrite left i pos).pos
      else none := by
  induction left generalizing i pos with
  | zero => rfl
  | succ left ih =>
    rw [searchFrom, findFrom]
    grind

namespace Valid

variable {a : PointerHashArray V} (valid : a.Valid traits)

include valid

theorem placement (key : K) (overwrite : Bool) :
    (∃ p value, p < a.capacity ∧ a.cells p = .live value ∧ traits.getKey value = key ∧
      a.placementHashFindSetPos traits key overwrite = ⟨if overwrite then .success else .hashExist, some p, true⟩) ∨
    (∃ p, a.Free traits key p ∧ (∀ value ∈ a.entries, traits.getKey value ≠ key) ∧
      a.placementHashFindSetPos traits key overwrite = ⟨.success, some p, false⟩) :=
  findFrom_spec valid key overwrite (Nat.add_zero _) (fun _ none => absurd none (by omega))
    (fun _ none => by cases none)

theorem getRefactored_spec (key : K) :
    (∃ value ∈ a.entries, traits.getKey value = key ∧ a.getRefactored traits key = .ok value) ∨
    ((∀ value ∈ a.entries, traits.getKey value ≠ key) ∧ a.getRefactored traits key = .error .hashNotExist) := by
  by_cases none : a.itemCount = 0
  · have empty : a.entries = [] := eq_nil_of_length_eq_zero (valid.itemCount ▸ none)
    refine .inr ⟨by simp [empty], ?_⟩
    rw [getRefactored, placementHashSearch, if_pos none]
  have search : a.placementHashSearch traits key =
      if (a.placementHashFindSetPos traits key true).exist then
        (a.placementHashFindSetPos traits key true).pos
      else .none := by
    rw [placementHashSearch, if_neg none]
    exact searchFrom_eq a key true _ _ _
  rcases valid.placement key true with ⟨p, value, inside, live, same, found⟩ | ⟨p, -, absent, found⟩
  · refine .inl ⟨value, mem_entries.mpr ⟨p, inside, live⟩, same, ?_⟩
    rw [getRefactored, search, found]
    simp only [if_true, if_pos inside, live]
  · refine .inr ⟨absent, ?_⟩
    rw [getRefactored, search, found]
    rfl

/-- `find_set_pos` for a pointer: its key is stored, or there is room for it, or the map is full and
at best an erased cell is on the way. -/
theorem findSetPos_spec (value : V) (overwrite : Bool) :
    (∃ p old, p < a.capacity ∧ a.cells p = .live old ∧ traits.getKey old = traits.getKey value ∧
      a.findSetPos traits (traits.getKey value) (.live value) overwrite =
        ⟨if overwrite then .success else .hashExist, some p, none, true⟩) ∨
    ((∀ other ∈ a.entries, traits.getKey other ≠ traits.getKey value) ∧ ¬ a.isFull ∧
      ∃ p, a.Free traits (traits.getKey value) p ∧ a.findSetPos traits (traits.getKey value) (.live value) overwrite =
          ⟨.success, some p, none, false⟩) ∨
    ((∀ other ∈ a.entries, traits.getKey other ≠ traits.getKey value) ∧ a.isFull ∧ ∃ p erased, (∀ q, erased = some q →
          a.Free traits (traits.getKey value) q ∧ a.cells q = .erased) ∧
        a.findSetPos traits (traits.getKey value) (.live value) overwrite = ⟨.hashFull, some p, erased, false⟩) := by
  rcases valid.placement (traits.getKey value) overwrite with
    ⟨p, old, inside, live, same, found⟩ | ⟨p, free, absent, found⟩
  · refine .inl ⟨p, old, inside, live, same, ?_⟩
    simp [findSetPos, found]
  refine .inr ?_
  by_cases full : a.isFull
  · right
    refine ⟨absent, full, p, ?_⟩
    cases slot : a.cells p with
    | empty => exact ⟨none, by simp, by simp [findSetPos, found, full, slot]⟩
    | erased =>
      refine ⟨some p, ?_, by simp [findSetPos, found, full, slot]⟩
      rintro q ⟨rfl⟩
      exact ⟨free, slot⟩
    | live other => exact absurd slot (free.not_live other)
  · refine .inl ⟨absent, full, p, free, ?_⟩
    simp [findSetPos, found, full]

theorem setRefactored_absent {value : V} (overwrite : Bool)
    (absent : ∀ other ∈ a.entries, traits.getKey other ≠ traits.getKey value) :
    (a.isFull ∧ a.setRefactored traits (traits.getKey value) (.live value) overwrite = ⟨.hashFull, none, a⟩) ∨
    (¬ a.isFull ∧ ∃ a', a.setRefactored traits (traits.getKey value) (.live value) overwrite =
      ⟨.success, none, a'⟩ ∧ Step traits a a' ∧ a'.entries.Perm (value :: a.entries) ∧
      a'.count + a.itemCount ≤ a.count + a'.itemCount) := by
  rcases valid.findSetPos_spec value overwrite with
    ⟨p, old, inside, live, same, -⟩ | ⟨-, room, p, free, found⟩ | ⟨-, full, p, erased, -, found⟩
  · exact absurd same (absent old (mem_entries.mpr ⟨p, inside, live⟩))
  · obtain ⟨a', result, step, moved⟩ := valid.setValue_insert free (.inr room)
    refine .inr ⟨room, a', ?_, step, moved⟩
    rwa [setRefactored, found]
  · refine .inl ⟨full, ?_⟩
    rw [setRefactored, found]
    rfl

theorem eraseRefactored_spec (key : K) : (∃ old a', traits.getKey old = key ∧
      a.eraseRefactored traits key = ⟨.success, some old, a'⟩ ∧ Step traits a a' ∧
      (old :: a'.entries).Perm a.entries) ∨
    ((∀ value ∈ a.entries, traits.getKey value ≠ key) ∧ a.eraseRefactored traits key = ⟨.hashNotExist, none, a⟩) := by
  rcases valid.placement key true with ⟨p, old, inside, live, same, found⟩ | ⟨p, -, absent, found⟩
  · obtain ⟨a', result, step, moved⟩ := valid.setValue_erase inside live
    refine .inl ⟨old, a', same, ?_, step, moved⟩
    rwa [eraseRefactored, setRefactored, findSetPos, found]
  · refine .inr ⟨absent, ?_⟩
    rw [eraseRefactored, setRefactored, findSetPos, found]
    rfl

end Valid

end PointerHashArray

end IMBridge.Hash
