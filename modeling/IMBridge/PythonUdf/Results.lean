import Mathlib.Algebra.Order.Ring.Nat
import IMBridge.PythonUdf.ChunkLoop

/-!
Which result a buffered row gets. `eval` counts the rows it was given, not the results it got back,
and concatenates whatever Python returned.
-/

namespace IMBridge.PythonUdf

open IMBridge.Engine List
open IMBridge.Lib

variable {V R : Type}

/-- What keeps the results with their rows: for the next `size` rows, or for all that are left, the
UDF returns as many results, for the last ones at least as many, and so on for the other rows, in
chunks of the size that the adapted info asks for. -/
def Env.ReturnsEnough (env : Env V R) (expr : Nat) : Nat → Nat → UdfInfo R → Int → List (List V) → Prop
  | 0, _, _, _, _ => True
  | fuel + 1, tick, info, size, rows => rows ≠ [] →
      let count := (min size rows.length).toNat
      let returned := ((env.pyfun expr (rows.take count)).getD []).length
      let next := env.modify tick info count
      count ≤ returned ∧ (rows.drop count ≠ [] → returned = count) ∧
        env.ReturnsEnough expr fuel (tick + 1) next next.predictSize (rows.drop count)

namespace Chunk

/-- Position `r` of the concatenated result is element `k` of the array returned for `chunk`, which
follows the chunks `before`. -/
def IsElement (before : List (Chunk V)) (chunk : Chunk V) (r k : Nat) : Prop :=
  k < chunk.array.length ∧ r = (before.flatMap array).length + k

/-- No array is shorter than its chunk, and none is longer while rows follow. -/
def ReturnsEnough : List (Chunk V) → Prop
  | [] => True
  | chunk :: chunks => chunk.rows.length ≤ chunk.array.length ∧
      (chunks.flatMap rows ≠ [] → chunk.array.length = chunk.rows.length) ∧ ReturnsEnough chunks

/-- The rows have their own results behind the first `m` results, if the first row is row `n`. -/
def OwnResults (n m : Nat) (chunks : List (Chunk V)) : Prop :=
  ∀ before chunk after, chunks = before ++ chunk :: after → ∀ k < chunk.rows.length,
    k < chunk.array.length ∧ n + (before.flatMap rows).length = m + (before.flatMap array).length

variable {chunk : Chunk V} {chunks : List (Chunk V)} {n m : Nat}

theorem ReturnsEnough.length_le (enough : ReturnsEnough chunks) :
    (chunks.flatMap rows).length ≤ (chunks.flatMap array).length := by
  induction chunks with
  | nil => exact Nat.le_refl 0
  | cons chunk chunks ih =>
    rw [flatMap_cons, flatMap_cons, length_append, length_append]
    exact Nat.add_le_add enough.1 (ih enough.2.2)

theorem ownResults_cons : OwnResults n m (chunk :: chunks) ↔
    (∀ k < chunk.rows.length, k < chunk.array.length ∧ n = m) ∧
      OwnResults (n + chunk.rows.length) (m + chunk.array.length) chunks := by
  constructor
  · intro own
    refine ⟨own [] chunk chunks rfl, fun before other after split k inside => ?_⟩
    have here := own (chunk :: before) other after (by rw [split, cons_append]) k inside
    simpa [Nat.add_assoc] using here
  · rintro ⟨first, rest⟩ before other after split k inside
    cases before with
    | nil =>
      obtain ⟨rfl, rfl⟩ := cons.inj split
      exact first k inside
    | cons head before =>
      obtain ⟨rfl, split'⟩ := cons.inj split
      simpa [Nat.add_assoc] using rest before other after split' k inside

/-- The first chunk with a row fixes where its results start, so no array before it is too long. -/
theorem ownResults_iff (chunks : List (Chunk V)) (le : n ≤ m) :
    OwnResults n m chunks ↔ (chunks.flatMap rows ≠ [] → n = m) ∧ ReturnsEnough chunks := by
  induction chunks generalizing n m with
  | nil => exact ⟨fun _ => ⟨fun some_row => absurd rfl some_row, trivial⟩, fun _ before _ _ split => by simp at split⟩
  | cons chunk chunks ih =>
    rw [ownResults_cons, ReturnsEnough, flatMap_cons]
    constructor
    · rintro ⟨first, rest⟩
      have short : chunk.rows.length ≤ chunk.array.length := by
        by_contra longer
        exact Nat.lt_irrefl _ (first chunk.array.length (by omega)).1
      obtain ⟨same, enough⟩ := (ih (Nat.add_le_add le short)).1 rest
      by_cases more : chunks.flatMap rows = []
      · refine ⟨fun some_row => ?_, short, fun some_row => absurd more some_row, enough⟩
        rw [more, append_nil, ← length_pos_iff] at some_row
        exact (first 0 some_row).2
      · have balanced := same more
        exact ⟨fun _ => by omega, short, fun _ => by omega, enough⟩
    · rintro ⟨same, short, long, enough⟩
      refine ⟨fun k inside => ⟨by omega, same fun empty => ?_⟩,
        (ih (Nat.add_le_add le short)).2 ⟨fun more => ?_, enough⟩⟩
      · rw [(append_eq_nil_iff.1 empty).1] at inside
        exact absurd inside (Nat.not_lt_zero k)
      · rw [same fun empty => more (append_eq_nil_iff.1 empty).2, long more]

theorem IsElement.getElem? {before after : List (Chunk V)} {chunk : Chunk V} {r k : Nat}
    (element : IsElement before chunk r k) :
    ((before ++ chunk :: after).flatMap array)[r]? = chunk.array[k]? := by
  rw [element.2, flatMap_append, flatMap_cons, getElem?_append_right (by omega),
    Nat.add_sub_cancel_left, getElem?_append_left element.1]

end Chunk

namespace Cell

variable {env : Env V R} {rt rt' : Runtime V R} {cell cell' : Cell V} {chunks : List (Chunk V)}

theorem Chunks.returnsEnough_iff {idx : Nat} (ran : Chunks env idx rt cell chunks rt' cell')
    {fuel : Nat} (few : chunks.length < fuel) :
    Chunk.ReturnsEnough chunks ↔ env.ReturnsEnough cell.expr fuel rt.calls.length (rt.infos cell.expr)
      cell.desirable (cell.inputStore.argRows idx (cell.inputStore.savedSize - idx)) := by
  induction ran generalizing fuel with
  | done all =>
    obtain ⟨fuel, rfl⟩ := Nat.exists_eq_succ_of_ne_zero (Nat.ne_zero_of_lt few)
    rw [Nat.sub_eq_zero_of_le all]
    exact ⟨fun _ some_row => absurd rfl some_row, fun _ => trivial⟩
  | @call idx count rt rt' cell cell' chunk chunks more size rows returned rest ih =>
    obtain ⟨fuel, rfl⟩ := Nat.exists_eq_succ_of_ne_zero (Nat.ne_zero_of_lt few)
    have bound := evalSize_le size
    obtain rfl : chunk.rows.length = count := by rw [rows, argRows_length]
    have parts : cell.inputStore.argRows idx (cell.inputStore.savedSize - idx) =
        chunk.rows ++ chunks.flatMap Chunk.rows := by
      have all := (Chunks.call more size rows returned rest).traced.rows
      rw [← all, flatMap_cons]
    have later : chunks.flatMap Chunk.rows = cell.inputStore.argRows (idx + chunk.rows.length)
        (cell.inputStore.savedSize - (idx + chunk.rows.length)) := rest.traced.rows
    have whole : (min cell.desirable (chunk.rows ++ chunks.flatMap Chunk.rows).length).toNat =
        chunk.rows.length := by
      rw [← parts, argRows_length, ← evalSize_eq_min more.le, size, Int.toNat_natCast]
    have some_row : chunk.rows ++ chunks.flatMap Chunk.rows ≠ [] := by
      rw [← parts, ← length_pos_iff, argRows_length]
      omega
    have next := ih (Nat.lt_of_succ_lt_succ few)
    rw [show (cell.nextCell env rt chunk).expr = cell.expr from rfl, nextRuntime_self,
      nextRuntime_calls] at next
    rw [Chunk.ReturnsEnough, next, parts, Env.ReturnsEnough, forall_prop_of_true some_row]
    dsimp only
    rw [whole, take_left, drop_left, returned, Option.getD_some, later]
    rfl

/-- Every row finds its own result at its position, and each restore that covers the row gives it
that result. -/
def KeepsResults (chunks : List (Chunk V)) (cell : Cell V) : Prop :=
  ∀ before chunk after, chunks = before ++ chunk :: after → ∀ k < chunk.rows.length,
    Chunk.IsElement before chunk ((before.flatMap Chunk.rows).length + k) k ∧
    ∀ frame outputIdx outputSize j, outputIdx + outputSize ≤ cell.resultSize → j < outputSize →
      outputIdx + j = (before.flatMap Chunk.rows).length + k →
      ∃ frame', cell.doRestore frame outputIdx outputSize = .ok frame' ∧
        some (frame'.udf cell.expr j) = chunk.array[k]?

theorem doRestore_eq_ok {outputIdx outputSize : Nat} (counted : outputIdx + outputSize ≤ cell.resultSize)
    (stored : cell.resultSize ≤ (cell.resultStore.getD []).length) (frame : Frame V) :
    ∃ frame', cell.doRestore frame outputIdx outputSize = .ok frame' ∧ ∀ j < outputSize,
      some (frame'.udf cell.expr j) = (cell.resultStore.getD [])[outputIdx + j]? := by
  have available : (((cell.resultStore.getD []).drop outputIdx).take outputSize).length = outputSize := by
    rw [length_take, length_drop]
    omega
  refine ⟨_, by rw [doRestore, if_neg (Nat.not_lt.mpr counted), if_neg (Nat.not_lt.mpr available.ge)],
    fun j inside => ?_⟩
  dsimp only
  have written := Buffer.write_inside (frame.udf cell.expr) 0 _ (available.symm ▸ inside)
  rw [Nat.zero_add] at written
  rw [Function.update_self, written, get_eq_getElem, ← getElem?_eq_getElem, getElem?_take_of_lt inside, getElem?_drop]

/-- `do_process` hands Python the buffered rows in order, in chunks, and keeps the concatenation of
what it returned. All rows find their own results there, and `do_restore` gives them these, exactly
when the UDF returns enough for each chunk that info and rows lead to. -/
theorem results_own_iff (ran : cell.doProcess env rt = .ok (rt', cell')) : ∃ chunks,
    (rt'.calls = rt.calls ++ chunks.map (fun chunk => (cell.expr, chunk.rows)) ∧
      chunks.flatMap Chunk.rows = cell.inputStore.argRows 0 cell.inputStore.savedSize ∧
      (∀ chunk ∈ chunks, env.pyfun cell.expr chunk.rows = some chunk.array) ∧
      cell'.resultStore.getD [] = chunks.flatMap Chunk.array ∧
      cell'.resultSize = cell.inputStore.savedSize) ∧
    (KeepsResults chunks cell' ↔
      env.ReturnsEnough cell.expr (cell.inputStore.savedSize + 1) rt.calls.length
        (rt.infos cell.expr) cell.desirable (cell.inputStore.argRows 0 cell.inputStore.savedSize)) := by
  obtain ⟨chunks, few, processes⟩ := doProcess_iff.mp ran
  have traced := processes.traced
  have rows := traced.rows
  have results : cell'.resultStore.getD [] = chunks.flatMap Chunk.array := traced.results
  have size : cell'.resultSize = cell.inputStore.savedSize := by
    rw [traced.size, rows, argRows_length]
    exact Nat.zero_add _
  have own_iff := Chunk.ownResults_iff chunks (Nat.le_refl 0)
  refine ⟨chunks, ⟨traced.calls, rows, traced.returned, results, size⟩,
    Iff.trans ?_ (Chunks.returnsEnough_iff processes (Nat.lt_succ_of_le few))⟩
  constructor
  · intro keeps
    refine (own_iff.1 fun before chunk after split k inside => ?_).2
    obtain ⟨here, position⟩ := (keeps before chunk after split k inside).1
    exact ⟨here, by omega⟩
  · intro enough before chunk after split k inside
    obtain ⟨here, position⟩ := own_iff.2 ⟨fun _ => rfl, enough⟩ before chunk after split k inside
    have element : Chunk.IsElement before chunk ((before.flatMap Chunk.rows).length + k) k := ⟨here, by omega⟩
    refine ⟨element, fun frame outputIdx outputSize j counted covered position => ?_⟩
    have stored : cell'.resultSize ≤ (cell'.resultStore.getD []).length := by
      rw [results, size, ← argRows_length cell.inputStore 0 cell.inputStore.savedSize]
      exact rows ▸ enough.length_le
    obtain ⟨frame', restored, given⟩ := doRestore_eq_ok counted stored frame
    refine ⟨frame', restored, ?_⟩
    rw [given j covered, results, position, split]
    exact element.getElem?

end Cell

def fourRows : Cell Nat where
  expr := 0
  args := []
  inputStore := ⟨[.int], [fun j => 10 * (j + 1)], 8192, 4, true⟩
  desirable := 2
  resultSize := 0
  resultStore := none

def addOne (pyfun : List (List Nat) → List Nat) : Env Nat where
  evalExpr := fun _ _ => 0
  pyfun := fun _ rows => some (pyfun rows)
  modify := fun _ info _ => { info with predictSize := 2 }

theorem results_own_four : ∃ rt' cell' chunks,
      fourRows.doProcess (addOne (map fun row => row.sum + 1)) ⟨fun _ => .fromRawExpr, []⟩ =
        .ok (rt', cell') ∧
      [(0, [[10], [20]]), (0, [[30], [40]])] = chunks.map (fun chunk => (0, chunk.rows)) ∧
      Cell.KeepsResults chunks cell' := by
  have ran : fourRows.doProcess (addOne (map fun row => row.sum + 1)) ⟨fun _ => .fromRawExpr, []⟩ = .ok (_, _) := rfl
  obtain ⟨chunks, ⟨calls, -⟩, keeps⟩ := Cell.results_own_iff ran
  refine ⟨_, _, chunks, ran, calls, keeps.mpr ?_⟩
  exact fun _ => ⟨by decide, fun _ => rfl, fun _ => ⟨by decide, fun _ => rfl,
    fun some_row => absurd rfl some_row⟩⟩

/-- One result too many for the first chunk and one too few for the second cancel out: every check
passes, and the third row gets what the first chunk returned last. -/
theorem crossed_results :
    ∃ (env : Env Nat) (rt rt' : Runtime Nat) (cell' : Cell Nat) (frame frame' : Frame Nat),
      fourRows.doProcess env rt = .ok (rt', cell') ∧
      cell'.resultSize = fourRows.inputStore.savedSize ∧
      rt'.calls = [(0, [[10], [20]]), (0, [[30], [40]])] ∧
      env.pyfun 0 [[10], [20]] = some [11, 21, 99] ∧ env.pyfun 0 [[30], [40]] = some [31] ∧
      cell'.doRestore frame 0 4 = .ok frame' ∧ frame'.udf 0 2 = 99 :=
  ⟨addOne fun rows => if rows = [[10], [20]] then [11, 21, 99] else [31],
    ⟨fun _ => .fromRawExpr, []⟩, _, _,
    ⟨fun _ _ => 0, fun _ => ⟨false, fun _ => false, fun _ => 0⟩, fun _ _ => 0⟩, _,
    rfl, rfl, rfl, rfl, rfl, rfl, rfl⟩

end IMBridge.PythonUdf
