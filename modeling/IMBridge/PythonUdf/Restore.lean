import IMBridge.PythonUdf.Phases

/-!
Restoring emits the processed rows slice by slice through the result vectors of the UDFs and the
pass-through columns; resizing empties every buffer and leaves room for a further batch of 4096
active rows.
-/

namespace IMBridge.PythonUdf

open IMBridge.Engine Cell List Function ColInputStore
open IMBridge.Lib
open IMBridge.Lib.Outcome

variable {V : Type}

namespace Frame

theorem writeCols_spec (f : Nat → List V) (cols : List Nat) (frame : Frame V) :
    (frame.writeCols (cols.map fun col => (col, f col))).udf = frame.udf ∧
    (frame.writeCols (cols.map fun col => (col, f col))).calcExprs = frame.calcExprs ∧
    (∀ col, Buffer.Holds (frame.cols col) (f col) →
      Buffer.Holds ((frame.writeCols (cols.map fun col => (col, f col))).cols col) (f col)) ∧
    ∀ col ∈ cols, Buffer.Holds ((frame.writeCols (cols.map fun col => (col, f col))).cols col) (f col) := by
  induction cols generalizing frame with
  | nil => exact ⟨rfl, rfl, fun _ holds => holds, by simp⟩
  | cons first cols ih =>
    obtain ⟨udf, calcExprs, kept, written⟩ := ih
      { frame with cols := update frame.cols first (Buffer.write (frame.cols first) 0 (f first)) }
    -- a column listed twice is written twice, with the same values
    have head : Buffer.Holds (update frame.cols first
        (Buffer.write (frame.cols first) 0 (f first)) first) (f first) := by
      simpa using Buffer.holds_write_zero (frame.cols first) (f first)
    refine ⟨udf, calcExprs, fun col holds => ?_, fun col member => ?_⟩
    · apply kept col
      grind
    · rcases mem_cons.mp member with rfl | later
      · exact kept col head
      · exact written col later

end Frame

namespace Controller

variable [Inhabited V]

variable {g : Nat → List V → V} {rows done queue : List (RowVal V)} {cells : List (Cell V)} {plan : Plan V}
variable {ctl : Controller V}

theorem restoreCells_spec {idx count : Nat} (inside : idx + count ≤ rows.length) (frame : Frame V)
    (ready : ∀ cell ∈ cells, cell.Ready g rows) (distinct : (cells.map Cell.expr).Nodup) :
    ∃ frame', restoreCells idx count cells frame = .ok frame' ∧
      frame'.cols = frame.cols ∧ frame'.calcExprs = frame.calcExprs ∧
      (∀ expr, expr ∉ cells.map Cell.expr → frame'.udf expr = frame.udf expr) ∧
      ∀ cell ∈ cells, Buffer.Holds (frame'.udf cell.expr) (((rows.drop idx).take count).map (cell.result g)) := by
  induction cells generalizing frame with
  | nil => exact ⟨frame, rfl, rfl, rfl, fun _ _ => rfl, by simp⟩
  | cons cell cells ih =>
    have here := ready cell (by simp)
    have vals : ((cell.resultStore.getD []).drop idx).take count =
        ((rows.drop idx).take count).map (cell.result g) := by
      rw [here.results, map_take, map_drop]
    have covered : ¬cell.resultSize < idx + count := by rw [here.size]; omega
    have available : ¬(((rows.drop idx).take count).map (cell.result g)).length < count := by
      grind
    simp only [map_cons, nodup_cons] at distinct
    obtain ⟨frame', ran, cols, calcExprs, others, holds⟩ := ih { frame with
        udf := update frame.udf cell.expr
          (Buffer.write (frame.udf cell.expr) 0 (((rows.drop idx).take count).map (cell.result g))) }
      (fun other member => ready other (mem_cons_of_mem _ member)) distinct.2
    refine ⟨frame', ?_, cols, calcExprs, ?_, ?_⟩
    · simp only [restoreCells, Cell.doRestore, vals, if_neg covered, if_neg available, ok_bind]
      exact ran
    · grind
    · refine forall_mem_cons.2 ⟨?_, holds⟩
      rw [others _ distinct.1]
      simpa using Buffer.holds_write_zero _ _

omit [Inhabited V] in
theorem exprs_eq_range (keys : ctl.cells.map key = plan.udfExprs.zipIdx) :
    ctl.cells.map Cell.expr = range plan.udfExprs.length := by
  have second := congrArg (map Prod.snd) keys
  simpa [Cell.key, comp_def, zipIdx_map_snd, range_eq_range'] using second

/-- A state from which a refill can start, whatever rows the buffers still hold. -/
structure Usable (plan : Plan V) (ctl : Controller V) : Prop where
  keys : ctl.cells.map key = plan.udfExprs.zipIdx
  cells : ∀ cell ∈ ctl.cells, ∃ rows, cell.Keeps rows
  other : ∃ rows, ctl.otherStore.Represents plan.inputExprs rows
  otherLength : 8192 ≤ ctl.otherStore.length
  nonneg : 0 ≤ ctl.desirable

theorem Serves.usable (serves : Serves plan g done queue ctl) : Usable plan ctl :=
  ⟨serves.keys, fun cell member => ⟨[], (serves.cells cell member).keeps⟩, ⟨_, serves.other⟩,
    serves.otherLength, serves.nonneg⟩

theorem Keeps.usable (keeps : Keeps plan rows ctl) : Usable plan ctl :=
  ⟨keeps.keys, fun cell member => ⟨rows, keeps.cells cell member⟩, ⟨_, keeps.other⟩, keeps.otherLength, keeps.nonneg⟩

omit [Inhabited V] in
theorem shown_rows {frame : Frame V} {slice : List (RowVal V)} (keys : ctl.cells.map Cell.key = plan.udfExprs.zipIdx)
    (udfs : ∀ cell ∈ ctl.cells, Buffer.Holds (frame.udf cell.expr) (slice.map (cell.result g)))
    (cols : ∀ col ∈ plan.inputExprs, Buffer.Holds (frame.cols col) (slice.map (· (.child col)))) :
    (range slice.length).map (fun j =>
      ((range plan.udfExprs.length).map (fun expr => frame.udf expr j),
        plan.inputExprs.map (fun col => frame.cols col j))) = slice.map (plan.outRow g) := by
  apply ext_getElem
  · simp
  · intro j first second
    have bound : j < slice.length := by simpa using first
    simp only [getElem_map, getElem_range, Plan.outRow, Prod.mk.injEq]
    constructor
    · rw [← exprs_eq_range keys, ← keys, map_map, map_map]
      apply map_congr_left
      intro cell member
      simpa [result, key] using udfs cell member j (by simpa using bound)
    · apply map_congr_left
      intro col member
      simpa using cols col member j (by simpa using bound)

theorem advanceOutput_spec (serves : Serves plan g done queue ctl) (maxRowCnt : Nat) :
    let ctl' := ctl.advanceOutput { ctl.otherStore with outputIdx := done.length + min maxRowCnt queue.length }
      (min maxRowCnt queue.length)
    Usable plan ctl' ∧ (queue.drop maxRowCnt = [] → ctl'.canOutput = false) ∧ (queue.drop maxRowCnt ≠ [] →
        Serves plan g (done ++ queue.take maxRowCnt) (queue.drop maxRowCnt) ctl') := by
  have total : ctl.storedOutputCnt = done.length + queue.length := by
    simpa using serves.storedOutput
  have moved : Usable plan (ctl.advanceOutput
      { ctl.otherStore with outputIdx := done.length + min maxRowCnt queue.length }
      (min maxRowCnt queue.length)) := by
    have cells : ∀ cell ∈ ctl.cells, ∃ rows, cell.Keeps rows :=
      fun cell member => ⟨[], (serves.cells cell member).keeps⟩
    have other : Represents { ctl.otherStore with outputIdx := done.length + min maxRowCnt queue.length }
        plan.inputExprs ((done ++ queue).map (fun row col => row (.child col))) :=
      ⟨serves.other.exprs, serves.other.buffers, serves.other.saved⟩
    unfold advanceOutput
    simp only
    split
    · exact ⟨serves.keys, cells, ⟨[], reuse_spec other⟩, serves.otherLength, serves.nonneg⟩
    · exact ⟨serves.keys, cells, ⟨_, other⟩, serves.otherLength, serves.nonneg⟩
  refine ⟨moved, fun last => ?_, fun rest => ?_⟩
  · have short := drop_eq_nil_iff.mp last
    have finished : ctl.outputIdx + min maxRowCnt queue.length = ctl.storedOutputCnt := by
      rw [total, serves.outputIdx]
      omega
    simp only [advanceOutput, endOutput, canOutput, finished, beq_self_eq_true, ↓reduceIte, lt_irrefl, decide_false]
  · have long : maxRowCnt < queue.length := by
      by_contra short
      exact rest (drop_eq_nil_iff.mpr (by omega))
    have running : ¬(ctl.outputIdx + min maxRowCnt queue.length == ctl.storedOutputCnt) = true := by
      rw [beq_iff_eq, total, serves.outputIdx]
      omega
    have joined : done ++ queue.take maxRowCnt ++ queue.drop maxRowCnt = done ++ queue := by
      rw [append_assoc, take_append_drop]
    have lengths : (queue.take maxRowCnt).length = min maxRowCnt queue.length := length_take
    simp only [advanceOutput, endOutput, running]
    exact {
      keys := serves.keys
      cells := by rw [joined]; exact serves.cells
      other := by
        rw [joined]
        exact ⟨serves.other.exprs, serves.other.buffers, serves.other.saved⟩
      otherIdx := by simp [lengths]
      otherLength := serves.otherLength
      storedOutput := by rw [joined]; exact serves.storedOutput
      outputIdx := by simp [serves.outputIdx, lengths]
      nonneg := serves.nonneg }

theorem restore_spec (serves : Serves plan g done queue ctl) (some_row : queue ≠ []) (maxRowCnt : Nat)
    (brs : BatchRows) (frame : Frame V) :
    ∃ frame' ctl', restore maxRowCnt brs frame ctl =
        .ok (BatchRows.dense (min maxRowCnt queue.length) false, frame', ctl') ∧
      (range (min maxRowCnt queue.length)).map (fun j =>
        ((range plan.udfExprs.length).map (fun expr => frame'.udf expr j),
          plan.inputExprs.map (fun col => frame'.cols col j))) =
        (queue.take maxRowCnt).map (plan.outRow g) ∧
      Usable plan ctl' ∧ (queue.drop maxRowCnt = [] → ctl'.canOutput = false) ∧
      (queue.drop maxRowCnt ≠ [] → Serves plan g (done ++ queue.take maxRowCnt) (queue.drop maxRowCnt) ctl') := by
  have pos : 0 < queue.length := length_pos_iff.mpr some_row
  have total : ctl.storedOutputCnt = done.length + queue.length := by
    simpa using serves.storedOutput
  have left : ctl.storedOutputCnt - done.length = queue.length := by omega
  have busy : ¬(ctl.storedOutputCnt = 0 ∨ ctl.canOutput = false) := by
    simp only [canOutput, total, serves.outputIdx, decide_eq_false_iff_not]
    omega
  have slice : ((done ++ queue).drop done.length).take (min maxRowCnt queue.length) = queue.take maxRowCnt := by
    rw [drop_left, ← take_take, take_length]
  have inside : done.length + min maxRowCnt queue.length ≤ (done ++ queue).length := by
    rw [length_append]
    omega
  have distinct : (ctl.cells.map Cell.expr).Nodup := by
    rw [exprs_eq_range serves.keys]
    exact nodup_range
  obtain ⟨frame₁, restored, cols₁, -, -, udfs₁⟩ := restoreCells_spec inside frame serves.cells distinct
  have enough : ctl.otherStore.outputIdx + min maxRowCnt queue.length ≤
      ((done ++ queue).map (fun row col => row (.child col))).length := by
    rwa [serves.otherIdx, length_map]
  have loaded := loadVector_spec serves.other enough
  simp only [serves.otherIdx, ← map_drop, ← map_take, slice, map_map, comp_def] at loaded
  obtain ⟨udf₂, -, -, cols₂⟩ := Frame.writeCols_spec
    (fun col => (queue.take maxRowCnt).map (fun row => row (.child col))) plan.inputExprs frame₁
  rw [slice] at udfs₁
  refine ⟨frame₁.writeCols (plan.inputExprs.map fun col =>
    (col, (queue.take maxRowCnt).map (fun row => row (.child col)))), _, ?_, ?_,
    advanceOutput_spec serves maxRowCnt⟩
  · simp only [restore, if_neg busy, serves.outputIdx, left, restored, ok_bind, loaded]
    rfl
  · have lengths : (queue.take maxRowCnt).length = min maxRowCnt queue.length := length_take
    rw [← lengths]
    exact shown_rows serves.keys (by rw [udf₂]; exact udfs₁) cols₂

omit [Inhabited V] in
theorem le_foldl_max (cells : List (Cell V)) (start : Int) :
    start ≤ cells.foldl (fun desirable cell => max desirable cell.desirable) start := by
  induction cells generalizing start with
  | nil => exact Int.le_refl _
  | cons cell cells ih => exact Int.le_trans (Int.le_max_left _ _) (ih _)

theorem resetCells_spec (usable : ∀ cell ∈ cells, ∃ rows, cell.Keeps rows) (size : Int) :
    ∃ cells', resetCells size cells = .ok cells' ∧ cells'.map key = cells.map key ∧
      ∀ cell ∈ cells', cell.Keeps [] ∧ size ≤ cell.inputStore.length := by
  induction cells with
  | nil => exact ⟨[], rfl, rfl, by simp⟩
  | cons cell cells ih =>
    obtain ⟨rows, keeps⟩ := usable cell (by simp)
    obtain ⟨store, reset, length, fresh⟩ := PUInputStore.reset_spec keeps.store size
    obtain ⟨cells', ran, keys, kept⟩ := ih (fun other member => usable other (mem_cons_of_mem _ member))
    have old := keeps.length
    refine ⟨{ cell with inputStore := store } :: cells', ?_, ?_, ?_⟩
    · simp only [resetCells, Cell.reset, reset, ran]
      rfl
    · simp [keys, Cell.key]
    · exact forall_mem_cons.2 ⟨⟨⟨fresh, keeps.desirable, by simp only; omega⟩, by simp only; omega⟩, kept⟩

/-- Every refill starts with empty buffers that are large enough. -/
theorem resize_keeps (usable : Usable plan ctl) :
    Keeps plan [] (ctl.getDesirable.resize (ctl.getDesirable.desirable * bufferMag)) := by
  have nonneg : 0 ≤ ctl.getDesirable.desirable := Int.le_trans usable.nonneg (le_foldl_max ctl.cells ctl.desirable)
  obtain ⟨cells', ran, keys, kept⟩ := resetCells_spec usable.cells (ctl.getDesirable.desirable * bufferMag)
  obtain ⟨rows, rep⟩ := usable.other
  obtain ⟨fresh, idx, length⟩ := reset_spec rep (ctl.getDesirable.desirable * bufferMag)
  have old := usable.otherLength
  have resized : ctl.getDesirable.resize (ctl.getDesirable.desirable * bufferMag) = { ctl.getDesirable with
        cells := cells'
        otherStore := ctl.otherStore.reset (ctl.getDesirable.desirable * bufferMag)
        storedInputCnt := 0
        storedOutputCnt := 0
        outputIdx := 0 } := by
    simp only [resize]
    rw [show ctl.getDesirable.cells = ctl.cells from rfl, ran]
    rfl
  rw [resized]
  simp only [bufferMag] at kept length
  exact {
    keys := keys.trans usable.keys
    cells := fun cell member => (kept cell member).1
    other := by simpa using fresh
    otherIdx := idx
    stored := rfl
    drained := rfl
    nonneg := nonneg
    roomy := by
      intro cell member
      have grown := (kept cell member).2
      have initial := (kept cell member).1.length
      simp only
      omega
    otherRoomy := by simp only [bufferMag]; omega
    otherLength := by simp only [bufferMag]; omega }

omit [Inhabited V] in
theorem le_foldl_max_of_mem {cell : Cell V} (member : cell ∈ cells) (start : Int) :
    cell.desirable ≤ cells.foldl (fun desirable cell => max desirable cell.desirable) start := by
  induction cells generalizing start with
  | nil => simp at member
  | cons first cells ih =>
    rcases mem_cons.mp member with rfl | later
    · exact Int.le_trans (Int.le_max_right _ _) (le_foldl_max cells _)
    · exact ih later _

theorem one_le_resize_desirable (usable : Usable plan ctl) (some_udf : plan.udfExprs ≠ []) :
    1 ≤ (ctl.getDesirable.resize (ctl.getDesirable.desirable * bufferMag)).desirable := by
  have some_cell : ctl.cells ≠ [] := by
    intro none
    have keys := usable.keys
    rw [none] at keys
    exact some_udf (by simpa using congrArg List.length keys.symm)
  obtain ⟨cell, member⟩ := exists_mem_of_ne_nil _ some_cell
  obtain ⟨rows, keeps⟩ := usable.cells cell member
  have bound := le_foldl_max_of_mem member ctl.desirable
  have pos := keeps.desirable
  have same : (ctl.getDesirable.resize (ctl.getDesirable.desirable * bufferMag)).desirable =
      ctl.getDesirable.desirable := by
    simp only [resize]
    split <;> rfl
  rw [same]
  exact Int.le_trans pos bound

theorem isFull_eq_false (keeps : Keeps plan rows ctl) : ctl.isFull = false ↔ (rows.length : Int) ≤ ctl.desirable := by
  simp only [isFull, bufferMag, keeps.stored, decide_eq_false_iff_not]
  omega

theorem ne_nil_of_isFull (keeps : Keeps plan rows ctl) (full : ctl.isFull = true) : rows ≠ [] := by
  rintro rfl
  have room := (isFull_eq_false keeps).mpr keeps.nonneg
  simp [room] at full

end Controller

end IMBridge.PythonUdf
