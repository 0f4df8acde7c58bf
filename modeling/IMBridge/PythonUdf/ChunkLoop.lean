import IMBridge.PythonUdf.Restore

/-!
The chunk loop of `do_process`, for UDFs that may return anything. `Chunks` lists the Python calls a
terminating loop makes; the sizes of the chunks depend on the runtime info and on the measured
throughput alone.
-/

namespace IMBridge.PythonUdf

open IMBridge.Engine List
open IMBridge.Lib
open IMBridge.Lib.Outcome

variable {V R : Type}

structure Chunk (V : Type) where
  rows : List (List V)
  array : List V

namespace Cell

def nextInfo (env : Env V R) (rt : Runtime V R) (cell : Cell V) (chunk : Chunk V) : UdfInfo R :=
  env.modify rt.calls.length (rt.infos cell.expr) chunk.rows.length

def nextRuntime (env : Env V R) (rt : Runtime V R) (cell : Cell V) (chunk : Chunk V) : Runtime V R where
  infos := Function.update rt.infos cell.expr (cell.nextInfo env rt chunk)
  calls := rt.calls ++ [(cell.expr, chunk.rows)]

def nextCell (env : Env V R) (rt : Runtime V R) (cell : Cell V) (chunk : Chunk V) : Cell V :=
  { cell.appendResult chunk.array chunk.rows.length with
    desirable := (cell.nextInfo env rt chunk).predictSize }

theorem nextRuntime_self (env : Env V R) (rt : Runtime V R) (cell : Cell V) (chunk : Chunk V) :
    (cell.nextRuntime env rt chunk).infos cell.expr = cell.nextInfo env rt chunk :=
  Function.update_self _ _ _

variable {env : Env V R} {rt rt' : Runtime V R} {cell cell' : Cell V} {idx : Nat}

theorem nextRuntime_of_ne (env : Env V R) (rt : Runtime V R) (chunk : Chunk V) {expr : Nat} (other : expr ≠ cell.expr) :
    (cell.nextRuntime env rt chunk).infos expr = rt.infos expr :=
  Function.update_of_ne other _ _

theorem nextRuntime_calls (env : Env V R) (rt : Runtime V R) (cell : Cell V) (chunk : Chunk V) :
    (cell.nextRuntime env rt chunk).calls.length = rt.calls.length + 1 :=
  length_append ..

/-- The loop from row `idx` on ends after the calls `chunks`. -/
inductive Chunks (env : Env V R) :
    Nat → Runtime V R → Cell V → List (Chunk V) → Runtime V R → Cell V → Prop
  | done {idx : Nat} {rt : Runtime V R} {cell : Cell V} (all : cell.inputStore.savedSize ≤ idx) :
      Chunks env idx rt cell [] rt cell
  | call {idx count : Nat} {rt rt' : Runtime V R} {cell cell' : Cell V} {chunk : Chunk V}
      {chunks : List (Chunk V)} (more : idx < cell.inputStore.savedSize)
      (size : evalSize idx cell.inputStore.savedSize cell.desirable = count)
      (rows : chunk.rows = cell.inputStore.argRows idx count)
      (returned : env.pyfun cell.expr chunk.rows = some chunk.array)
      (rest : Chunks env (idx + count) (cell.nextRuntime env rt chunk) (cell.nextCell env rt chunk)
        chunks rt' cell') :
      Chunks env idx rt cell (chunk :: chunks) rt' cell'

theorem argRows_length (store : PUInputStore V) (idx count : Nat) : (store.argRows idx count).length = count := by
  rw [PUInputStore.argRows, length_map, length_range]

theorem argRows_append (store : PUInputStore V) (idx first second : Nat) :
    store.argRows idx first ++ store.argRows (idx + first) second = store.argRows idx (first + second) := by
  simp only [PUInputStore.argRows, range_add, map_append, map_map]
  congr 2
  funext j
  simp [Nat.add_assoc]

theorem processLoop_call {fuel count : Nat} (chunk : Chunk V) (more : idx < cell.inputStore.savedSize)
    (size : evalSize idx cell.inputStore.savedSize cell.desirable = count)
    (rows : chunk.rows = cell.inputStore.argRows idx count)
    (returned : env.pyfun cell.expr chunk.rows = some chunk.array) :
    processLoop env (fuel + 1) idx rt cell = processLoop env fuel (idx + count) (cell.nextRuntime env rt chunk)
        (cell.nextCell env rt chunk) := by
  have length : chunk.rows.length = count := by rw [rows, argRows_length]
  rw [processLoop, if_pos more]
  dsimp only
  rw [size, if_neg (by omega), Int.toNat_natCast, ← rows, returned]
  simp only [nextRuntime, nextCell, nextInfo, length]

/-- With fuel left over, the loop succeeds with exactly the calls it lists. -/
theorem processLoop_iff {fuel : Nat} : processLoop env fuel idx rt cell = .ok (rt', cell') ↔
      ∃ chunks, chunks.length < fuel ∧ Chunks env idx rt cell chunks rt' cell' := by
  constructor
  · intro ran
    induction fuel generalizing idx rt cell with
    | zero => cases ran
    | succ fuel ih =>
      by_cases more : idx < cell.inputStore.savedSize
      · by_cases valid : evalSize idx cell.inputStore.savedSize cell.desirable < 0
        · rw [processLoop, if_pos more] at ran
          grind
        obtain ⟨count, size⟩ := Int.eq_ofNat_of_zero_le (Int.not_lt.mp valid)
        cases returned : env.pyfun cell.expr (cell.inputStore.argRows idx count) with
        | none =>
          rw [processLoop, if_pos more] at ran
          grind
        | some array =>
          rw [processLoop_call ⟨_, array⟩ more size rfl returned] at ran
          obtain ⟨chunks, enough, rest⟩ := ih ran
          exact ⟨_ :: chunks, Nat.succ_lt_succ enough, .call more size rfl returned rest⟩
      · rw [processLoop, if_neg more] at ran
        cases ran
        exact ⟨[], Nat.succ_pos _, .done (Nat.not_lt.mp more)⟩
  · rintro ⟨chunks, enough, ran⟩
    induction ran generalizing fuel with
    | done all =>
      obtain ⟨fuel, rfl⟩ := Nat.exists_eq_succ_of_ne_zero (Nat.ne_of_gt enough)
      rw [processLoop, if_neg (Nat.not_lt.mpr all)]
    | call more size rows returned rest ih =>
      obtain ⟨fuel, rfl⟩ := Nat.exists_eq_succ_of_ne_zero (Nat.ne_zero_of_lt enough)
      rw [processLoop_call _ more size rows returned]
      exact ih (Nat.lt_of_succ_lt_succ enough)

def Processes (env : Env V R) (rt : Runtime V R) (cell : Cell V) (chunks : List (Chunk V))
    (rt' : Runtime V R) (cell' : Cell V) : Prop :=
  Chunks env 0 rt { cell with resultStore := none, resultSize := 0 } chunks rt' cell'

theorem doProcess_iff : cell.doProcess env rt = .ok (rt', cell') ↔
      ∃ chunks, chunks.length ≤ cell.inputStore.savedSize ∧ cell.Processes env rt chunks rt' cell' := by
  rw [doProcess, processLoop_iff]
  simp only [Nat.lt_succ_iff]
  rfl

theorem evalSize_eq_min {idx saved : Nat} {predictSize : Int} (inside : idx ≤ saved) :
    evalSize idx saved predictSize = min predictSize (saved - idx : Nat) := by
  unfold evalSize
  split <;> omega

theorem evalSize_le {saved count : Nat} {predictSize : Int} (size : evalSize idx saved predictSize = count) :
    idx + count ≤ saved := by
  unfold evalSize at size
  split at size <;> omega

structure Traced (env : Env V R) (idx : Nat) (rt : Runtime V R) (cell : Cell V)
    (chunks : List (Chunk V)) (rt' : Runtime V R) (cell' : Cell V) : Prop where
  key : cell'.key = cell.key
  inputStore : cell'.inputStore = cell.inputStore
  calls : rt'.calls = rt.calls ++ chunks.map fun chunk => (cell.expr, chunk.rows)
  others : ∀ expr, expr ≠ cell.expr → rt'.infos expr = rt.infos expr
  returned : ∀ chunk ∈ chunks, env.pyfun cell.expr chunk.rows = some chunk.array
  rows : chunks.flatMap Chunk.rows =
    cell.inputStore.argRows idx (cell.inputStore.savedSize - idx)
  results : cell'.resultStore.getD [] = cell.resultStore.getD [] ++ chunks.flatMap Chunk.array
  size : cell'.resultSize = cell.resultSize + (chunks.flatMap Chunk.rows).length

theorem Chunks.traced {chunks : List (Chunk V)} (ran : Chunks env idx rt cell chunks rt' cell') :
    Traced env idx rt cell chunks rt' cell' := by
  induction ran with
  | @done idx rt cell all =>
    have none : cell.inputStore.argRows idx (cell.inputStore.savedSize - idx) = [] := by
      rw [Nat.sub_eq_zero_of_le all]
      rfl
    exact ⟨rfl, rfl, by simp, fun _ _ => rfl, by simp, none.symm, by simp, by simp⟩
  | @call idx count rt rt' cell cell' chunk chunks more size rows returned rest ih =>
    have bound := evalSize_le size
    have slice : cell.inputStore.savedSize - idx = count + (cell.inputStore.savedSize - (idx + count)) := by omega
    exact {
      key := ih.key
      inputStore := ih.inputStore
      calls := by
        rw [ih.calls, nextRuntime, map_cons, append_assoc, singleton_append]
        rfl
      others := by
        intro expr other
        rw [ih.others expr other]
        exact nextRuntime_of_ne env rt chunk other
      returned := forall_mem_cons.2 ⟨returned, ih.returned⟩
      rows := by
        rw [flatMap_cons, ih.rows, rows, slice]
        exact argRows_append _ _ _ _
      results := by
        rw [ih.results, flatMap_cons, ← append_assoc]
        rfl
      size := by
        rw [ih.size, flatMap_cons, length_append, ← Nat.add_assoc]
        rfl }

end Cell

end IMBridge.PythonUdf
