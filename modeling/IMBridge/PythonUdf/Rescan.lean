import IMBridge.PythonUdf.RowConservation

/-!
Rescans of the prediction operator. `free` leaves the cells in the list and the expressions in the
fixed array of the column store, so the second `init` puts its cells behind the old ones, and its
first `push_back` finds a full array.
-/

namespace IMBridge.PythonUdf

open IMBridge.Engine List ColInputStore FixedArray
open IMBridge.Lib
open IMBridge.Lib.Outcome

variable {V : Type}

/-- One cell per UDF expression, nothing buffered and all counters zero. -/
structure Controller.Fresh (plan : Plan V) (ctl : Controller V) : Prop where
  keys : ctl.cells.map Cell.key = plan.udfExprs.zipIdx
  stores : ∀ cell ∈ ctl.cells, cell.inputStore.Represents (cell.args.map Arg.type) []
  results : ∀ cell ∈ ctl.cells, cell.resultSize = 0 ∧ cell.resultStore = none
  other : ctl.otherStore.Represents plan.inputExprs []
  otherIdx : ctl.otherStore.outputIdx = 0
  counters : ctl.storedInputCnt = 0 ∧ ctl.storedOutputCnt = 0 ∧ ctl.outputIdx = 0

namespace Op

variable [Inhabited V]

/-- The states of an operator that was opened and then called and rescanned in any order, with the
number of rescans. -/
inductive Reached (env : Env V) (plan : Plan V) (infos : Nat → UdfInfo) : Nat → Op V → Prop
  | opened {frame : Frame V} {child : List (Batch V)} {op : Op V} :
      innerOpen plan infos frame child = .ok op → Reached env plan infos 0 op
  | called {n : Nat} {op next : Op V} (maxRowCnt : Nat) : Reached env plan infos n op →
      innerGetNextBatch env maxRowCnt { op with brs := op.brs.reset } = .ok next →
      Reached env plan infos n next
  | rescanned {n : Nat} {op next : Op V} {child : List (Batch V)} : Reached env plan infos n op →
      innerRescan plan child op = .ok next → Reached env plan infos (n + 1) next

def observe (env : Env V) (plan : Plan V) (maxRowCnt : Nat → Nat) (count : Nat) (op : Op V) :
    Except Err (List (List (List V × List V)) × List (Nat × List (List V))) := do
  let (batches, op) ← calls env plan maxRowCnt count op
  return (batches, op.runtime.calls)

/-- Each of the first `k` rescans, at whatever point of the run, succeeds and leaves an operator
that cannot be told from one opened at that moment. -/
def RescansOpen (env : Env V) (plan : Plan V) (infos : Nat → UdfInfo) (k : Nat) : Prop :=
  ∀ n < k, ∀ op, Reached env plan infos n op → ∀ child, ∃ next fresh,
    innerRescan plan child op = .ok next ∧
    innerOpen plan op.runtime.infos op.frame child = .ok fresh ∧
    next.controller.Fresh plan ∧
    ∀ maxRowCnt count, next.observe env plan maxRowCnt count =
      { fresh with runtime := op.runtime }.observe env plan maxRowCnt count

end Op

namespace Op

variable [Inhabited V]

variable {plan : Plan V} {infos : Nat → UdfInfo} {frame : Frame V} {op : Op V}

theorem innerOpen_eq {child : List (Batch V)} (opened : innerOpen plan infos frame child = .ok op) :
    op.runtime.infos = infos ∧ op.controller.capacity = 8192 ∧
      (ColInputStore.empty : ColInputStore V).init plan.inputExprs 8192 = .ok op.controller.otherStore := by
  simp only [innerOpen, Controller.init, Controller.new] at opened
  cases made : Controller.initCells infos 8192 plan.udfExprs.zipIdx ([] : List (Cell V)) with
  | error err => simp [made] at opened
  | ok cells =>
    cases store : (ColInputStore.empty : ColInputStore V).init plan.inputExprs 8192 with
    | error err => simp [made, store] at opened
    | ok other =>
      simp only [made, store, ok_bind] at opened
      obtain rfl := Except.ok.inj opened
      exact ⟨rfl, rfl, rfl⟩

variable (admitted : plan.Admitted)
include admitted

variable (pos : ∀ expr, 0 < (infos expr).predictSize)
include pos

theorem initCells_udfExprs (cells : List (Cell V)) :
    ∃ new, Controller.initCells infos 8192 plan.udfExprs.zipIdx cells = .ok (cells ++ new) ∧
      new.length = plan.udfExprs.length := by
  obtain ⟨new, made, keys, -⟩ := initCells_spec pos plan.udfExprs.zipIdx (by
      intro udf member
      apply admitted
      have inside := mem_map_of_mem (f := Prod.fst) member
      simpa [zipIdx_map_fst] using inside) cells
  exact ⟨new, made, by simpa using congrArg List.length keys⟩

/-- A rescan right after opening fails if any column passes through the operator. -/
theorem innerRescan_of_inputExprs
    {first : List (Batch V)} (opened : innerOpen plan infos frame first = .ok op) (inputs : plan.inputExprs ≠ [])
    (child : List (Batch V)) : innerRescan plan child op = .error .sizeOverflow := by
  obtain ⟨sameInfos, capacity, store⟩ := innerOpen_eq opened
  obtain ⟨new, made, -⟩ := initCells_udfExprs admitted pos (op.controller.cells.map Cell.free)
  obtain ⟨col, cols, exprs⟩ := exists_cons_of_ne_nil inputs
  rw [exprs, init_cons] at store
  have full : op.controller.otherStore.exprs = ⟨some (col :: cols), cols.length + 1⟩ := by
    rw [← Except.ok.inj store]
  have refused := init_again full 8192
  simp only [innerRescan, Controller.init, Controller.free, ColInputStore.free, sameInfos, capacity,
    made, exprs, refused, ok_bind, error_bind]

theorem innerRescan_cells
    {first child : List (Batch V)} {next : Op V} (opened : innerOpen plan infos frame first = .ok op)
    (rescanned : innerRescan plan child op = .ok next) :
    next.controller.cells.length = op.controller.cells.length + plan.udfExprs.length := by
  obtain ⟨sameInfos, capacity, -⟩ := innerOpen_eq opened
  obtain ⟨new, made, count⟩ := initCells_udfExprs admitted pos (op.controller.cells.map Cell.free)
  simp only [innerRescan, Controller.init, Controller.free, sameInfos, capacity, made, ok_bind] at rescanned
  cases store : op.controller.otherStore.free.init plan.inputExprs 8192 with
  | error err => simp [store] at rescanned
  | ok other =>
    simp only [store, ok_bind] at rescanned
    obtain rfl := Except.ok.inj rescanned
    simp [count]

theorem plan_empty_of_rescansOpen {env : Env V} {k : Nat} (some_rescan : 0 < k)
    (same : RescansOpen env plan infos k) : plan.udfExprs = [] ∧ plan.inputExprs = [] := by
  obtain ⟨op, opened, -, -, -, owes⟩ := innerOpen_spec admitted infos pos (fun _ _ => default)
    ⟨fun _ _ => default, fun _ => ⟨false, fun _ => false, fun _ => default⟩, fun _ _ => default⟩ []
  obtain ⟨next, -, rescanned, -, fresh, -⟩ := same 0 some_rescan op (.opened opened) []
  have inputs : plan.inputExprs = [] := by
    by_contra inputs
    rw [innerRescan_of_inputExprs admitted pos opened inputs] at rescanned
    cases rescanned
  have before : op.controller.cells.length = plan.udfExprs.length := by
    simpa using congrArg List.length owes.usable.keys
  have after : next.controller.cells.length = plan.udfExprs.length := by
    simpa using congrArg List.length fresh.keys
  have added := innerRescan_cells admitted pos opened rescanned
  exact ⟨eq_nil_of_length_eq_zero (by omega), inputs⟩

end Op

structure Controller.Bare (ctl : Controller V) : Prop where
  cells : ctl.cells = []
  exprs : ctl.otherStore.exprs = .empty
  datums : ctl.otherStore.datumsCopy = .empty
  capacity : ctl.capacity = 8192
  desirable : ctl.desirable = 0

namespace Controller

variable {ctl : Controller V}

theorem Bare.getDesirable (bare : ctl.Bare) : ctl.getDesirable.Bare := by
  obtain ⟨cells, exprs, datums, capacity, desirable⟩ := bare
  exact ⟨cells, exprs, datums, capacity, by simp [Controller.getDesirable, cells, desirable]⟩

theorem Bare.advanceOutput (bare : ctl.Bare) (outputIdx outputSize : Nat) :
    (ctl.advanceOutput { ctl.otherStore with outputIdx := outputIdx } outputSize).Bare := by
  obtain ⟨cells, exprs, datums, capacity, desirable⟩ := bare
  unfold Controller.advanceOutput
  simp only
  split <;> exact ⟨cells, exprs, datums, capacity, desirable⟩

theorem Bare.restore (bare : ctl.Bare) (maxRowCnt : Nat) (brs : BatchRows) (frame : Frame V) :
    Post (fun _ => True) (fun out => out.2.2.Bare) (ctl.restore maxRowCnt brs frame) := by
  unfold Controller.restore
  split
  · exact bare
  simp only [bare.cells, restoreCells, loadVector, ok_bind]
  split
  · trivial
  · exact bare.advanceOutput _ _

variable [Inhabited V]

theorem Bare.resize (bare : ctl.Bare) (size : Int) : (ctl.resize size).Bare := by
  obtain ⟨cells, exprs, datums, capacity, desirable⟩ := bare
  simp only [Controller.resize, cells, resetCells]
  refine ⟨rfl, ?_, ?_, capacity, desirable⟩
  · unfold reset
    split <;> simp [reuse, exprs]
  · unfold reset
    split <;> simp [reuse, exprs, datums, items, FixedArray.empty]

theorem Bare.store (bare : ctl.Bare) (env : Env V) (brs : BatchRows) (frame : Frame V) :
    Post (fun _ => True) (fun out => out.2.Bare) (ctl.store env brs frame) := by
  obtain ⟨cells, exprs, datums, capacity, desirable⟩ := bare
  simp only [Controller.store, cells, storeCells, saveVector, ok_bind]
  split
  · trivial
  · exact ⟨rfl, exprs, by simp [copyActive, datums, FixedArray.empty], capacity, desirable⟩

theorem Bare.process (bare : ctl.Bare) (env : Env V) (rt : Runtime V) :
    Post (fun _ => True) (fun out => out.2.Bare) (ctl.process env rt) := by
  unfold Controller.process
  split
  · exact bare
  obtain ⟨cells, exprs, datums, capacity, desirable⟩ := bare
  simp only [cells, processCells, ok_bind]
  exact ⟨rfl, exprs, datums, capacity, desirable⟩

/-- A bare controller is initialised again to what `init` makes of a new one. -/
theorem Bare.init (bare : ctl.Bare) (infos : Nat → UdfInfo) {plan : Plan V} (udfs : plan.udfExprs = [])
    (inputs : plan.inputExprs = []) : ctl.free.init infos plan = new.init infos plan := by
  obtain ⟨cells, exprs, datums, capacity, desirable⟩ := bare
  simp [Controller.init, Controller.free, ColInputStore.free, ColInputStore.init, cells, capacity,
    desirable, exprs, datums, udfs, inputs, new, initCells, pushAll,
    ColInputStore.empty, initIgnored, FixedArray.init, FixedArray.empty]

theorem init_bare (infos : Nat → UdfInfo) {plan : Plan V} (udfs : plan.udfExprs = []) (inputs : plan.inputExprs = []) :
    ∃ ctl, (new : Controller V).init infos plan = .ok ctl ∧ ctl.Bare ∧ ctl.Fresh plan := by
  refine ⟨⟨[], ⟨.empty, .empty, 8192, 0, 0, true⟩, 8192, 0, 0, 0, 0⟩, ?_, ⟨rfl, rfl, rfl, rfl, rfl⟩, ?_⟩
  · rw [Controller.init, udfs, inputs]
    rfl
  · exact ⟨by simp [udfs], by simp, by simp, ⟨by simp [inputs, items, FixedArray.empty],
      by simp [inputs, items, FixedArray.empty], rfl⟩, rfl, rfl, rfl, rfl⟩

end Controller

namespace Op

variable [Inhabited V] (env : Env V)

theorem storeBatch_bare (brs : BatchRows) {op : Op V} (bare : op.controller.Bare) :
    Post (fun _ => True) (fun next => next.controller.Bare) (storeBatch env brs op) :=
  (bare.store env brs op.frame).bind (fun _ stored => stored)

theorem fill_bare (child : List (Batch V)) {op : Op V} (bare : op.controller.Bare) :
    Post (fun _ => True) (fun next => next.controller.Bare) (fill env child op) := by
  induction child generalizing op with
  | nil =>
    unfold fill
    split
    · exact bare
    · exact storeBatch_bare env _ bare
  | cons batch rest ih =>
    unfold fill
    split
    · exact bare
    have unchanged : { op with frame := { op.frame with cols := batch.cols } }.controller.Bare := bare
    apply (storeBatch_bare env batch.brs unchanged).bind
    intro next stored
    exact ih stored

theorem refill_bare {op : Op V} (bare : op.controller.Bare) :
    Post (fun _ => True) (fun next => next.controller.Bare) (refill env op) := by
  unfold refill
  apply (fill_bare env op.child (bare.getDesirable.resize _)).bind
  intro filled stored
  exact (stored.process env filled.runtime).bind (fun _ processed => processed)

theorem innerGetNextBatch_bare (maxRowCnt : Nat) {op : Op V} (bare : op.controller.Bare) :
    Post (fun _ => True) (fun next => next.controller.Bare) (innerGetNextBatch env maxRowCnt op) := by
  unfold innerGetNextBatch
  split
  · exact (bare.restore maxRowCnt op.brs op.frame).bind (fun _ restored => restored)
  · refine (refill_bare env bare).bind fun filled stored => ?_
    exact (stored.restore maxRowCnt filled.brs filled.frame).bind (fun _ restored => restored)

theorem Reached.bare {env : Env V} {plan : Plan V} {infos : Nat → UdfInfo}
    (udfs : plan.udfExprs = []) (inputs : plan.inputExprs = []) {n : Nat} {op : Op V}
    (reached : Reached env plan infos n op) : op.controller.Bare := by
  induction reached with
  | opened opened =>
    obtain ⟨ctl, made, bare, -⟩ := Controller.init_bare infos udfs inputs
    simp only [innerOpen, made, ok_bind] at opened
    obtain rfl := Except.ok.inj opened
    exact bare
  | @called n op next maxRowCnt _ called ih =>
    have unchanged : { op with brs := op.brs.reset }.controller.Bare := ih
    have post := innerGetNextBatch_bare env maxRowCnt unchanged
    rwa [called] at post
  | @rescanned n op next child _ rescanned ih =>
    obtain ⟨ctl, made, bare, -⟩ := Controller.init_bare op.runtime.infos udfs inputs
    simp only [innerRescan, ih.init _ udfs inputs, made, ok_bind] at rescanned
    obtain rfl := Except.ok.inj rescanned
    exact bare

theorem rescansOpen_of_plan_empty {plan : Plan V} (infos : Nat → UdfInfo)
    (udfs : plan.udfExprs = []) (inputs : plan.inputExprs = []) (k : Nat) :
    RescansOpen env plan infos k := by
  intro n _ op reached child
  obtain ⟨ctl, made, -, fresh⟩ := Controller.init_bare op.runtime.infos udfs inputs
  refine ⟨⟨ctl, BatchRows.dense 0 false, op.frame, op.runtime, child⟩,
    ⟨ctl, BatchRows.dense 0 false, op.frame, ⟨op.runtime.infos, []⟩, child⟩, ?_, ?_, fresh, ?_⟩
  · simp only [innerRescan, (reached.bare udfs inputs).init _ udfs inputs, made, ok_bind]
    rfl
  · simp only [innerOpen, made, ok_bind]
    rfl
  · intro maxRowCnt count
    rfl

/-- Rescans are like opening exactly when there is none, or when the operator has neither UDF
expressions nor columns to pass on. -/
theorem rescansOpen_iff (env : Env V) {plan : Plan V} (admitted : plan.Admitted)
    (infos : Nat → UdfInfo) (positive : ∀ expr, 0 < (infos expr).predictSize) (k : Nat) :
    RescansOpen env plan infos k ↔ k = 0 ∨ (plan.udfExprs = [] ∧ plan.inputExprs = []) := by
  constructor
  · intro same
    rcases Nat.eq_zero_or_pos k with none | some_rescan
    · exact Or.inl none
    · exact Or.inr (plan_empty_of_rescansOpen admitted positive some_rescan same)
  · intro condition
    rcases condition with rfl | empty
    · intro n below
      exact absurd below (Nat.not_lt_zero n)
    · exact rescansOpen_of_plan_empty env infos empty.1 empty.2 k

def echoPlan (inputs : List Nat) : Plan Nat := ⟨[[⟨.child 0, .int⟩]], inputs⟩

def echoOpen (inputs : List Nat) (child : List (Batch Nat)) : Except Err (Op Nat) :=
  innerOpen (echoPlan inputs) (fun _ => UdfInfo.fromRawExpr)
    ⟨fun _ _ => 0, fun _ => ⟨false, fun _ => false, fun _ => 0⟩, fun _ _ => 0⟩ child

def identityEnv : Env Nat where
  evalExpr _ row := row 0
  pyfun _ rows := some (rows.map (fun row => row.getD 0 0))
  modify _ info evalSize := info.modifyDesirable 1000 evalSize

/-- With a UDF there is no rescan that is like opening; an operator with nothing to do has three. -/
theorem echoPlan_rescansOpen_zero :
    (echoPlan [0]).Admitted ∧ RescansOpen identityEnv (echoPlan [0]) (fun _ => UdfInfo.fromRawExpr) 0 ∧
      ¬RescansOpen identityEnv (echoPlan [0]) (fun _ => UdfInfo.fromRawExpr) 1 ∧
      RescansOpen identityEnv ⟨[], []⟩ (fun _ => UdfInfo.fromRawExpr) 3 := by
  have admitted : (echoPlan [0]).Admitted := by
    intro args member
    obtain rfl := mem_singleton.mp member
    exact ⟨by simp, rfl⟩
  have positive : ∀ expr : Nat, 0 < ((fun _ => UdfInfo.fromRawExpr : Nat → UdfInfo) expr).predictSize := by
    intro expr
    show 0 < (UdfInfo.fromRawExpr : UdfInfo).predictSize
    decide
  have idle : (⟨[], []⟩ : Plan Nat).Admitted := fun _ member => absurd member not_mem_nil
  refine ⟨admitted, (rescansOpen_iff identityEnv admitted _ positive 0).mpr (Or.inl rfl), ?_, ?_⟩
  · intro same
    rcases (rescansOpen_iff identityEnv admitted _ positive 1).mp same with none | empty
    · cases none
    · cases empty.1
  · exact (rescansOpen_iff identityEnv idle _ positive 3).mpr (Or.inr ⟨rfl, rfl⟩)

/-- With a pass-through column the rescan fails; without one it succeeds, and then the single row 7
is given to Python twice. -/
theorem echoPlan_rescan_differs : (do
      let op ← echoOpen [0] []
      let op ← innerRescan (echoPlan [0]) [] op
      op.observe identityEnv (echoPlan [0]) (fun _ => 256) 1) = .error .sizeOverflow ∧
    (do
      let op ← echoOpen [] []
      let op ← innerRescan (echoPlan []) [⟨1, fun _ => false, fun _ _ => 7⟩] op
      op.observe identityEnv (echoPlan []) (fun _ => 256) 1) =
        .ok ([[([7], [])]], [(0, [[7]]), (0, [[7]])]) ∧
    (do
      let op ← echoOpen [] [⟨1, fun _ => false, fun _ _ => 7⟩]
      op.observe identityEnv (echoPlan []) (fun _ => 256) 1) = .ok ([[([7], [])]], [(0, [[7]])]) :=
  ⟨rfl, rfl, rfl⟩

end Op

end IMBridge.PythonUdf
