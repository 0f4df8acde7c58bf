import Mathlib.Data.List.Basic
import Mathlib.Data.List.GetD

/-!
Index-addressed buffers: a memory `Nat → α` of which only a prefix is meaningful. `Holds mem xs`
says that this prefix spells `xs`.
-/

namespace IMBridge.Lib.Buffer

open List
variable {α β : Type*} (mem : Nat → α)

def write (base : Nat) (vals : List α) : Nat → α :=
  fun k => if k < base then mem k else vals.getD (k - base) (mem k)

variable {base k count : Nat} {xs ys : List α}

theorem write_before (vals : List α) (before : k < base) : write mem base vals k = mem k := by
  simp [write, before]

theorem write_inside (base : Nat) (vals : List α) (inside : k < vals.length) :
    write mem base vals (base + k) = vals.get ⟨k, inside⟩ := by
  have behind : ¬base + k < base := by omega
  simp only [write, if_neg behind, Nat.add_sub_cancel_left, get_eq_getElem]
  exact getD_eq_getElem _ _ inside

def read (start count : Nat) : List α := (range count).map (fun j => mem (start + j))

@[simp] theorem read_length (start count : Nat) : (read mem start count).length = count := by
  simp [read]

theorem write_behind (vals : List α) (behind : base + vals.length ≤ k) : write mem base vals k = mem k := by
  have inside : ¬k < base := by omega
  simp only [write, if_neg inside]
  exact getD_eq_default _ _ (by omega)

theorem read_write_self (base : Nat) (vals : List α) : read (write mem base vals) base vals.length = vals := by
  apply ext_getElem
  · simp
  · intro k left right
    simp only [read, getElem_map, getElem_range]
    exact write_inside mem base vals right

theorem read_write_apart {start : Nat} (vals : List α) (apart : start + count ≤ base ∨ base + vals.length ≤ start) :
    read (write mem base vals) start count = read mem start count := by
  unfold read
  apply map_congr_left
  intro k member
  have inside := mem_range.mp member
  rcases apart with before | behind
  · exact write_before mem vals (by omega)
  · exact write_behind mem vals (by omega)

theorem read_add (start count more : Nat) :
    read mem start (count + more) = read mem start count ++ read mem (start + count) more := by
  simp only [read, range_add, map_append, map_map]
  congr 1
  apply map_congr_left
  intro k _
  rw [Function.comp_apply, Nat.add_assoc]

theorem read_write_take (base : Nat) (vals : List α) (inside : count ≤ vals.length) :
    read (write mem base vals) base count = vals.take count := by
  have whole := read_write_self mem base vals
  obtain ⟨more, length⟩ := Nat.exists_eq_add_of_le inside
  rw [length, read_add] at whole
  have head := congrArg (take count) whole
  rwa [take_left' (read_length _ _ _)] at head

theorem write_append (base : Nat) (first second : List α) :
    write (write mem base first) (base + first.length) second = write mem base (first ++ second) := by
  funext k
  rcases Nat.lt_or_ge k base with before | within
  · rw [write_before _ _ (by omega), write_before _ _ before, write_before _ _ before]
  obtain ⟨j, rfl⟩ := Nat.exists_eq_add_of_le within
  simp only [write, Nat.add_sub_cancel_left, Nat.add_lt_add_iff_left, Nat.not_lt.mpr within, if_false]
  grind

/-- The first `xs.length` cells of `mem` spell `xs`. -/
def Holds (xs : List α) : Prop := ∀ k (bound : k < xs.length), mem k = xs.get ⟨k, bound⟩

@[simp] theorem holds_nil : Holds mem [] := by
  intro k bound
  simp at bound

variable {mem}

theorem holds_cons {x : α} : Holds mem (x :: xs) ↔ mem 0 = x ∧ Holds (fun k => mem (k + 1)) xs := by
  constructor
  · intro holds
    exact ⟨holds 0 (Nat.succ_pos _), fun k bound => holds (k + 1) (Nat.succ_lt_succ bound)⟩
  · rintro ⟨head, rest⟩ k bound
    cases k with
    | zero => exact head
    | succ k => exact rest k (Nat.lt_of_succ_lt_succ bound)

theorem Holds.left_of_append (holds : Holds mem (xs ++ ys)) : Holds mem xs := by
  intro k bound
  rw [holds k (by simp only [length_append]; omega)]
  simp [getElem_append_left bound]

theorem Holds.right_of_append (holds : Holds mem (xs ++ ys)) : Holds (fun k => mem (xs.length + k)) ys := by
  intro k bound
  change mem (xs.length + k) = _
  rw [holds (xs.length + k) (by simp only [length_append]; omega)]
  simp

/-- The part of a list that stands behind its beginning, in a memory looked at from `base` on. -/
theorem Holds.behind (holds : Holds (fun k => mem (base + k)) (xs ++ ys)) :
    Holds (fun k => mem (base + xs.length + k)) ys := by
  simpa only [Nat.add_assoc] using holds.right_of_append

theorem Holds.append (holds : Holds mem xs) (ys : List α) : Holds (write mem xs.length ys) (xs ++ ys) := by
  intro k bound
  rcases Nat.lt_or_ge k xs.length with before | behind
  · rw [write_before mem ys before, holds k before]
    simp [getElem_append_left before]
  obtain ⟨j, rfl⟩ := Nat.exists_eq_add_of_le behind
  have inside : j < ys.length := by
    simp only [length_append] at bound
    omega
  rw [write_inside mem xs.length ys inside]
  simp

theorem Holds.read_eq (holds : Holds mem xs) {start : Nat} (inside : start + count ≤ xs.length) :
    read mem start count = (xs.drop start).take count := by
  apply ext_getElem
  · simp only [read_length, length_take, length_drop]
    omega
  · intro j left right
    simp only [read_length] at left
    simp only [read, getElem_map, getElem_range, getElem_take, getElem_drop]
    exact holds (start + j) (by omega)

theorem holds_write_zero (mem : Nat → α) (vals : List α) : Holds (write mem 0 vals) vals := by
  simpa using (holds_nil mem).append vals

end IMBridge.Lib.Buffer
