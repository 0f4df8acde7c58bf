import IMBridge.PythonUdf.ChunkLoop
import IMBridge.PythonUdf.Info
import Mathlib.Algebra.BigOperators.Group.List.Basic
import Mathlib.Tactic.Linarith

/-!
The sizes of the chunks. A generated info splits the rows into non-empty chunks, as its size grows
too slowly to leave the range of an `int`; a copy has whatever size its memory held.
-/

namespace IMBridge.PythonUdf

open IMBridge.Engine List
open IMBridge.Lib
open IMBridge.Lib.Outcome

variable {V R : Type} [Numbers R]

open Numbers (int int_eq)

/-- With the throughputs `tps` from call number `tick` on, `left` rows are split into chunks of
`sizes` rows and leave the info as `last`. -/
inductive Splits (tps : Nat → R) : Nat → UdfInfo R → Nat → List Nat → UdfInfo R → Prop
  | done {tick : Nat} {info : UdfInfo R} : Splits tps tick info 0 [] info
  | chunk {tick left count : Nat} {info last : UdfInfo R} {sizes : List Nat} (more : 0 < left)
      (size : min info.predictSize left = count)
      (rest : Splits tps (tick + 1) (info.modifyDesirable (tps tick) count) (left - count) sizes last) :
      Splits tps tick info left (count :: sizes) last

variable {tps : Nat → R} {tick left : Nat} {info last : UdfInfo R} {sizes : List Nat}

/-- After every call `modify_desirable` adapts the info to the measured throughput, which may be any
number: the clock may stand still or be set back. -/
def Env.Steers (env : Env V R) (tps : Nat → R) : Prop :=
  ∀ tick info evalSize, env.modify tick info evalSize = info.modifyDesirable (tps tick) evalSize

theorem Splits.single (tps : Nat → R) (tick : Nat) (more : 0 < left) (fits : left ≤ info.predictSize) :
    Splits tps tick info left [left] (info.modifyDesirable (tps tick) left) := by
  refine .chunk more (by omega) ?_
  rw [Nat.sub_self]
  exact .done

theorem Splits.eq_of_zero (splits : Splits tps tick info 0 sizes last) : last = info := by
  cases splits with
  | done => rfl
  | chunk more => exact absurd more (Nat.lt_irrefl 0)

section

variable (splits : Splits tps tick info left sizes last)
include splits

theorem Splits.sum_eq : sizes.sum = left := by
  induction splits with
  | done => rfl
  | @chunk tick left count info last sizes more size rest ih =>
    rw [sum_cons, ih]
    omega

theorem Splits.forall_pos (early : ∀ size ∈ sizes.dropLast, 0 < size) : ∀ size ∈ sizes, 0 < size := by
  induction splits with
  | done => simp
  | @chunk tick left count info last sizes more size rest ih =>
    cases sizes with
    | nil =>
      have none : 0 = left - count := rest.sum_eq
      rw [forall_mem_singleton]
      omega
    | cons next sizes =>
      grind

theorem Splits.length_le (occupied : ∀ size ∈ sizes, 0 < size) : sizes.length ≤ left := by
  rw [← splits.sum_eq]
  exact length_le_sum_of_one_le sizes occupied

end

namespace Cell

theorem Chunks.splits {env : Env V R} {tps : Nat → R} (steers : env.Steers tps) {idx : Nat}
    {rt rt' : Runtime V R} {cell cell' : Cell V} {chunks : List (Chunk V)}
    (ran : Chunks env idx rt cell chunks rt' cell')
    (same : cell.desirable = (rt.infos cell.expr).predictSize) :
    Splits tps rt.calls.length (rt.infos cell.expr) (cell.inputStore.savedSize - idx)
      (chunks.map fun chunk => chunk.rows.length) (rt'.infos cell.expr) := by
  induction ran with
  | done all =>
    rw [Nat.sub_eq_zero_of_le all]
    exact .done
  | @call idx count rt rt' cell cell' chunk chunks more size rows returned rest ih =>
    have length : chunk.rows.length = count := by rw [rows, argRows_length]
    have info : cell.nextInfo env rt chunk = (rt.infos cell.expr).modifyDesirable (tps rt.calls.length) count := by
      rw [nextInfo, steers, length]
    have next := ih (by rw [show (cell.nextCell env rt chunk).expr = cell.expr from rfl, nextRuntime_self]; rfl)
    rw [show (cell.nextCell env rt chunk).expr = cell.expr from rfl, nextRuntime_self, info,
      nextRuntime_calls, ← Nat.sub_sub] at next
    rw [map_cons, length]
    refine .chunk (Nat.sub_pos_of_lt more) ?_ next
    rw [← same, ← evalSize_eq_min more.le, size]

/-- A UDF that always returns lets the loop run through the sizes. -/
theorem exists_chunks {env : Env V R} {tps : Nat → R} (steers : env.Steers tps) {tick left : Nat}
    {info last : UdfInfo R} {sizes : List Nat} (splits : Splits tps tick info left sizes last)
    {idx : Nat} {rt : Runtime V R} {cell : Cell V}
    (returns : ∀ rows, ∃ array, env.pyfun cell.expr rows = some array)
    (now : tick = rt.calls.length) (here : info = rt.infos cell.expr)
    (inside : idx + left = cell.inputStore.savedSize) (same : cell.desirable = info.predictSize) :
    ∃ chunks rt' cell', Chunks env idx rt cell chunks rt' cell' ∧
      chunks.map (fun chunk => chunk.rows.length) = sizes ∧ rt'.infos cell.expr = last := by
  induction splits generalizing idx rt cell with
  | done => exact ⟨[], rt, cell, .done (by omega), rfl, here.symm⟩
  | @chunk tick left count info last sizes more size rest ih =>
    obtain ⟨array, returned⟩ := returns (cell.inputStore.argRows idx count)
    have eval : evalSize idx cell.inputStore.savedSize cell.desirable = count := by
      rw [evalSize_eq_min (by omega), same, ← size]
      congr 2
      omega
    have next : cell.nextInfo env rt ⟨cell.inputStore.argRows idx count, array⟩ =
        info.modifyDesirable (tps tick) count := by
      rw [nextInfo, steers, argRows_length, now, here]
    obtain ⟨chunks, rt', cell', ran, lengths, left⟩ := @ih (idx + count)
      (cell.nextRuntime env rt ⟨cell.inputStore.argRows idx count, array⟩)
      (cell.nextCell env rt ⟨cell.inputStore.argRows idx count, array⟩) returns
      (by rw [now, nextRuntime_calls])
      (by rw [show (cell.nextCell env rt ⟨_, array⟩).expr = cell.expr from rfl, nextRuntime_self,
        next])
      (by
        rw [show (cell.nextCell env rt ⟨_, array⟩).inputStore = cell.inputStore from rfl]
        omega)
      (by rw [← next]; rfl)
    refine ⟨_ :: chunks, rt', cell', .call (by omega) eval rfl returned ran, ?_, left⟩
    rw [map_cons, argRows_length, lengths]

end Cell

theorem Splits.of_lt (splits : Splits tps tick info left sizes last) (more : 0 < left)
    (many : info.predictSize < left) :
    ∃ (count next : Nat) (rest : List Nat), (count : Int) = info.predictSize ∧ sizes = count :: next :: rest ∧
      Splits tps (tick + 1) (info.modifyDesirable (tps tick) count) (left - count) (next :: rest)
        last := by
  cases splits with
  | done => exact absurd more (Nat.lt_irrefl 0)
  | @chunk _ _ count _ _ sizes _ size rest =>
    cases sizes with
    | nil =>
      have none : 0 = left - count := rest.sum_eq
      omega
    | cons next sizes => exact ⟨count, next, sizes, by omega, rfl, rest⟩

namespace UdfInfo

/-- What code generation and the calls on `done` rows make of the size: each call that raises it has
got that many rows, so the size is of the order of the square root of `done`. -/
structure Grown (info : UdfInfo R) (done : Nat) : Prop where
  delta : info.delta = 256
  lower : 256 ≤ info.predictSize
  upper : info.predictSize * info.predictSize ≤ 512 * done + 256 * info.predictSize

theorem Grown.raised {done : Nat} (grown : info.Grown done) (few : done < 2147483648) :
    int R (info.predictSize + info.delta) = info.predictSize + 256 := by
  obtain ⟨delta, lower, upper⟩ := grown
  have small : info.predictSize < 2097152 := by
    by_contra large
    nlinarith
  rw [delta]
  exact int_eq (by omega) (by omega)

theorem Grown.modifyDesirable {done count : Nat} (grown : info.Grown done) (few : done < 2147483648)
    (whole : (count : Int) = info.predictSize) (tps : R) :
    (info.modifyDesirable tps count).Grown (done + count) := by
  have raised := grown.raised few
  obtain ⟨delta, lower, upper⟩ := grown
  have still : (info.modifyDesirable tps count).delta = 256 := by rw [info.modifyDesirable_delta, delta]
  rcases info.modifyDesirable_predictSize tps count with same | moved
  · refine ⟨still, by rw [same]; exact lower, ?_⟩
    rw [same]
    push_cast
    linarith
  · rw [raised] at moved
    refine ⟨still, by rw [moved]; omega, ?_⟩
    rw [moved]
    push_cast
    linarith

theorem Grown.exists_splits {done : Nat} (grown : info.Grown done) (few : done + left < 2147483648)
    (tps : Nat → R) (tick : Nat) :
    ∃ sizes last, Splits tps tick info left sizes last ∧ ∀ size ∈ sizes, 0 < size := by
  induction left using Nat.strong_induction_on generalizing tick info done with
  | _ left ih =>
    rcases Nat.eq_zero_or_pos left with rfl | more
    · exact ⟨[], info, .done, by simp⟩
    rcases le_or_gt (left : Int) info.predictSize with one | many
    · exact ⟨[left], _, .single tps tick more one, by simpa using more⟩
    have lower := grown.lower
    obtain ⟨count, whole⟩ := Int.eq_ofNat_of_zero_le (show 0 ≤ info.predictSize by omega)
    obtain ⟨sizes, last, rest, occupied⟩ := ih (left - count) (by omega)
      (grown.modifyDesirable (by omega) whole.symm (tps tick)) (by omega) (tick + 1)
    refine ⟨count :: sizes, last, .chunk more (by omega) rest, ?_⟩
    exact forall_mem_cons.mpr ⟨by omega, occupied⟩

theorem Grown.predictSize_le {done : Nat} (grown : info.Grown done) (few : done + left < 2147483648)
    (splits : Splits tps tick info left sizes last) : info.predictSize ≤ last.predictSize := by
  induction splits generalizing done with
  | done => exact Int.le_refl _
  | @chunk tick left count info last sizes more size rest ih =>
    have raised := grown.raised (by omega)
    have first : info.predictSize ≤ (info.modifyDesirable (tps tick) count).predictSize := by
      rcases info.modifyDesirable_predictSize (tps tick) count with same | moved <;> omega
    rcases le_or_gt info.predictSize left with whole | part
    · exact first.trans (ih (grown.modifyDesirable (by omega) (by omega) (tps tick)) (by omega))
    · rw [show left - count = 0 by omega] at rest
      rwa [rest.eq_of_zero]

/-- `do_process` from this info ends on `saved` saved rows, for every UDF that returns and however
long its calls take. Its calls are made on consecutive chunks of the rows, whose sizes satisfy `Q`
together with the info that is left. -/
def Ends (V : Type) (info : UdfInfo R) (saved : Nat) (Q : List Nat → UdfInfo R → Prop) : Prop :=
  ∀ (env : Env V R) (tps : Nat → R) (rt : Runtime V R) (cell : Cell V), env.Steers tps →
    (∀ rows, ∃ array, env.pyfun cell.expr rows = some array) →
    rt.infos cell.expr = info → cell.desirable = info.predictSize →
    cell.inputStore.savedSize = saved →
    ∃ (chunks : List (Chunk V)) (rt' : Runtime V R) (cell' : Cell V),
      cell.doProcess env rt = .ok (rt', cell') ∧
      rt'.calls = rt.calls ++ chunks.map (fun chunk => (cell.expr, chunk.rows)) ∧
      chunks.flatMap Chunk.rows = cell.inputStore.argRows 0 saved ∧
      Q (chunks.map fun chunk => chunk.rows.length) (rt'.infos cell.expr)

def savedCell (V : Type) (predictSize : Int) (saved : Nat) : Cell V :=
  ⟨0, [], ⟨[], [], saved, saved, true⟩, predictSize, 0, none⟩

def silentEnv (V : Type) (tps : Nat → R) : Env V R := ⟨fun _ inputs => inputs 0, fun _ _ => some [],
    fun tick info evalSize => info.modifyDesirable (tps tick) evalSize⟩

theorem ends_iff {V : Type} {info : UdfInfo R} {saved : Nat} {Q : List Nat → UdfInfo R → Prop} :
    info.Ends V saved Q ↔ ∀ (tps : Nat → R) (tick : Nat),
      ∃ sizes last, Splits tps tick info saved sizes last ∧ sizes.length ≤ saved ∧ Q sizes last := by
  constructor
  · intro ends tps tick
    have steers : (silentEnv V tps).Steers tps := fun _ _ _ => rfl
    obtain ⟨chunks, rt', cell', ended, calls, -, holds⟩ := ends (silentEnv V tps) tps
      ⟨fun _ => info, replicate tick (0, [])⟩ (savedCell V info.predictSize saved) steers
      (fun _ => ⟨[], rfl⟩) rfl rfl rfl
    obtain ⟨made, few, ran⟩ := Cell.doProcess_iff.mp ended
    have same : chunks.map (fun chunk => chunk.rows.length) = made.map (fun chunk => chunk.rows.length) := by
      have both := append_cancel_left (calls.symm.trans ran.traced.calls)
      have lengths := congrArg (map fun call => call.2.length) both
      rwa [map_map, map_map] at lengths
    have splits := ran.splits steers rfl
    rw [length_replicate] at splits
    exact ⟨_, _, splits, by rw [length_map]; exact few, same ▸ holds⟩
  · intro split env tps rt cell steers returns here desirable rows
    obtain ⟨sizes, last, splits, few, holds⟩ := split tps rt.calls.length
    obtain ⟨chunks, rt', cell', ran, lengths, left⟩ : ∃ chunks rt' cell', cell.Processes env rt chunks rt' cell' ∧
          chunks.map (fun chunk => chunk.rows.length) = sizes ∧ rt'.infos cell.expr = last :=
      Cell.exists_chunks steers splits returns rfl here.symm (rows ▸ Nat.zero_add _) desirable
    have traced := ran.traced
    refine ⟨chunks, rt', cell', Cell.doProcess_iff.mpr ⟨chunks, ?_, ran⟩, traced.calls, ?_, ?_⟩
    · rwa [rows, ← length_map, lengths]
    · rw [traced.rows, ← rows]
      rfl
    · rwa [lengths, left]

/-- `do_process` from this info ends on `saved` rows, and none of its calls is made on an empty
chunk. -/
def Drives (V : Type) (info : UdfInfo R) (saved : Nat) : Prop :=
  info.Ends V saved fun sizes _ => sizes.sum = saved ∧ ∀ size ∈ sizes, 0 < size

theorem grown_fromRawExpr : (fromRawExpr : UdfInfo R).Grown 0 where
  delta := rfl
  lower := Int.le_refl 256
  upper := Int.le_refl 65536

theorem drives_fromRawExpr (V : Type) {saved : Nat} (few : saved < 2147483648) :
    (fromRawExpr : UdfInfo R).Drives V saved := by
  refine ends_iff.mpr fun tps tick => ?_
  obtain ⟨sizes, last, splits, occupied⟩ := grown_fromRawExpr.exists_splits ((Nat.zero_add saved).symm ▸ few) tps tick
  exact ⟨sizes, last, splits, splits.length_le occupied, splits.sum_eq, occupied⟩

/-- What zeroed memory amounts to. -/
def zeroed : UdfInfo R := ⟨0, 0, 0, 0, 0, 0, 0⟩

end UdfInfo

/-- A size of zero that grows by nothing stays zero, and the loop does not get past its first row. -/
theorem Splits.eq_zero_of_still (splits : Splits tps tick info left sizes last)
    (zero : info.predictSize = 0) (still : info.delta = 0) : left = 0 := by
  induction splits with
  | done => rfl
  | @chunk tick left count info last sizes more size rest ih =>
    have none : left - count = 0 := by
      apply ih
      · rcases info.modifyDesirable_predictSize (tps tick) count with same | moved
        · rw [same, zero]
        · rw [moved, zero, still]
          exact int_eq (by decide) (by decide)
      · rw [info.modifyDesirable_delta, still]
    omega

namespace PythonUdfInfo

/-- The generated info drives a terminating loop over all rows. A copied or transferred one does so,
whatever its memory held, only where there are no rows. -/
theorem copies_drive_iff (V : Type) (raw : UDFMeta) (steps : List CopyStep) {saved : Nat}
    (few : saved < 2147483648) :
    (∀ info : PythonUdfInfo R, Reached raw steps info → info.steering.Drives V saved) ↔
      steps = [] ∨ saved = 0 := by
  constructor
  · intro drives
    refine or_iff_not_imp_left.mpr fun copied => ?_
    obtain ⟨info, reached, unset⟩ := exists_reached raw steps (UdfInfo.zeroed (R := R))
    obtain ⟨sizes, last, splits, -⟩ := UdfInfo.ends_iff.mp (drives info reached) (fun _ => 0) 0
    rw [unset copied] at splits
    exact splits.eq_zero_of_still rfl rfl
  · rintro (rfl | rfl) info reached
    · rw [reached.eq_fromRawExpr]
      exact UdfInfo.drives_fromRawExpr V few
    · exact UdfInfo.ends_iff.mpr fun tps tick => ⟨[], _, .done, Nat.le_refl 0, rfl, by simp⟩

end PythonUdfInfo

theorem copies_drive_thousand : 1000 < 2147483648 ∧ ∀ (R : Type) [Numbers R] (info : PythonUdfInfo R),
    PythonUdfInfo.Reached {} [] info → info.steering.Drives Nat 1000 :=
  ⟨by decide, fun _ _ => (PythonUdfInfo.copies_drive_iff Nat {} [] (by decide)).mpr (.inl rfl)⟩

/-- One copy into zeroed memory is enough. -/
theorem zeroed_copy_stuck : ∃ steps, ∀ (R : Type) [Numbers R], ∃ info : PythonUdfInfo R,
      PythonUdfInfo.Reached {} steps info ∧
      ∀ (env : Env Nat R) (tps : Nat → R) (rt : Runtime Nat R) (cell : Cell Nat), env.Steers tps →
        rt.infos cell.expr = info.steering → cell.desirable = info.steering.predictSize →
        cell.inputStore.savedSize = 1 →
        ∀ chunks rt' cell', ¬ cell.Processes env rt chunks rt' cell' := by
  refine ⟨[.deepCopy], fun R _ => ⟨(PythonUdfInfo.fromRawExpr {}).deepCopy .zeroed, .copied .generated _, ?_⟩⟩
  intro env tps rt cell steers here desirable one chunks rt' cell' ran
  have splits := ran.splits steers (desirable.trans (congrArg UdfInfo.predictSize here.symm))
  rw [here] at splits
  have none : cell.inputStore.savedSize - 0 = 0 := splits.eq_zero_of_still rfl rfl
  omega

end IMBridge.PythonUdf
