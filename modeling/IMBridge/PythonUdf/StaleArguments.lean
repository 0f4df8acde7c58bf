import IMBridge.PythonUdf.RowConservation

/-!
The exact condition for row conservation. `clear_evaluated_flag` runs once per refill, so an
argument that the operator computes itself keeps, at every position that was active in an earlier
batch of the refill, the value of that batch.
-/

namespace IMBridge.PythonUdf

open IMBridge.Engine Controller List
open IMBridge.Lib
open IMBridge.Lib.Outcome

variable {V : Type}

theorem Frame.stagedRow_stale {env : Env V} {brs later_brs : BatchRows} {frame later : Frame V}
    {sources : List (Source V)} (reads : Frame.Reads env brs frame later sources) {id j : Nat}
    (member : Source.calcExpr id ∈ sources) (active : j ∈ brs.active) (cols : Nat → Nat → V) :
    ({ later with cols := cols }.stagedRow env later_brs j) (.calcExpr id) =
      frame.stagedRow env brs j (.calcExpr id) := by
  have settled := reads id member
  simp only [Frame.stagedRow]
  refine (EvalInfo.evalVector_datums_of_flag _ later_brs _ ?_ ?_).trans (congrArg (fun info => info.datums j) settled)
  · rw [settled]
    exact EvalInfo.evalVector_evaluated _ _ _
  · rw [settled]
    exact EvalInfo.evalVector_flags _ _ _ active

/-- Row conservation of a plan, for every child, every row-wise UDF and every sequence of positive
batch sizes, as long as no buffer overflows. -/
def RowsConserved [Inhabited V] (plan : Plan V) : Prop :=
  ∀ (env : Env V) (g : Nat → List V → V) (infos : Nat → UdfInfo) (frame : Frame V)
    (child : List (Batch V)) (maxRowCnt : Nat → Nat) (op : Op V),
    env.RowWise g → env.KeepsPositive → (∀ expr, 0 < (infos expr).predictSize) →
    (∀ n, 0 < maxRowCnt n) → Op.innerOpen plan infos frame child = .ok op →
    (∀ n err, Op.calls env plan maxRowCnt n op = .error err → ¬err.IsOverflow) →
    Op.Emits env plan maxRowCnt op (expectedRows env plan g child)

namespace Op

variable [Inhabited V]

theorem not_overflow {brs : BatchRows} {err : Err} (bound : brs.active.length ≤ 4096) : ¬Overflow brs err :=
  fun overflow => absurd overflow.2 (by omega)

variable {plan : Plan V} {op : Op V}

theorem fill_nil (env : Env V) {rows : List (RowVal V)} (keeps : op.controller.Keeps plan rows)
    (running : op.brs.end_ = false) :
    ∃ op', fill env [] op = .ok op' ∧ op'.runtime = op.runtime ∧ op'.controller.Keeps plan rows := by
  by_cases full : op.controller.isFull = true
  · exact ⟨{ op with child := [] }, by simp [fill, full], rfl, keeps⟩
  obtain ⟨op', ran, -, -, runtime, -, -, -, kept⟩ := (storeBatch_post env
    BatchRows.finished { op with child := [] } keeps (by simpa using full)).exists_ok
    (fun _ _ => not_overflow (by simp))
  exact ⟨op', by simpa [fill, running, full] using ran, runtime, by simpa using kept⟩

/-- Two batches of one row are stored by one refill; the second row reads the computed arguments
of the first. -/
theorem fill_two (env : Env V) (op : Op V) (keeps : op.controller.Keeps plan []) (running : op.brs.end_ = false)
    (wanted : 1 ≤ op.controller.desirable) (clear : ∀ id, (op.frame.calcExprs id).evaluated = false)
    {first second : Batch V} (one : first.brs.active = [0]) (another : second.brs.active = [0]) :
    ∃ op' early later, fill env [first, second] op = .ok op' ∧ op'.runtime = op.runtime ∧
      op'.controller.Keeps plan [early, later] ∧
      ∀ id, Source.calcExpr id ∈ Controller.sources plan → later (.calcExpr id) = env.evalExpr id (first.cols · 0) := by
  have room := (isFull_eq_false keeps).mpr (by simpa using keeps.nonneg)
  obtain ⟨op₁, ran₁, brs₁, -, runtime₁, -, reads₁, desirable₁, kept₁⟩ := (storeBatch_post env
    first.brs { op with frame := { op.frame with cols := first.cols } } keeps room).exists_ok
    (fun _ _ => not_overflow (by simp [one]))
  simp only [one, map_cons, map_nil, nil_append] at kept₁
  have room₁ := (isFull_eq_false kept₁).mpr (by rw [desirable₁]; simpa using wanted)
  obtain ⟨op₂, ran₂, brs₂, -, runtime₂, -, -, -, kept₂⟩ := (storeBatch_post env
    second.brs { op₁ with frame := { op₁.frame with cols := second.cols } } kept₁ room₁).exists_ok
    (fun _ _ => not_overflow (by simp [another]))
  simp only [another, map_cons, map_nil, cons_append, nil_append] at kept₂
  have going₁ : op₁.brs.end_ = false := by rw [brs₁]; rfl
  have going₂ : op₂.brs.end_ = false := by rw [brs₂]; rfl
  obtain ⟨op₃, ran₃, runtime₃, kept₃⟩ := fill_nil env kept₂ going₂
  refine ⟨op₃, _, _, ?_, runtime₃.trans (runtime₂.trans runtime₁), kept₃, fun id member => ?_⟩
  · simp only [fill, running, room, Bool.or_self, Bool.false_eq_true, ↓reduceIte, ran₁, ok_bind, going₁, room₁, ran₂]
    simpa [fill] using ran₃
  · have active : 0 ∈ first.brs.active := by simp [one]
    rw [Frame.stagedRow_stale reads₁ member active second.cols]
    exact EvalInfo.evalVector_datums_of_clear _ first.brs _ (clear id) active

theorem first_call_two {env : Env V} {g : Nat → List V → V} (rowWise : env.RowWise g) (adapts : env.KeepsPositive)
    (some_udf : plan.udfExprs ≠ []) (owes : Owes plan g [] op) (running : op.brs.end_ = false)
    {first second : Batch V} (child : op.child = [first, second]) (one : first.brs.active = [0])
    (another : second.brs.active = [0]) (maxRowCnt : Nat → Nat) (two : maxRowCnt 0 = 2) :
    ∃ op' early later, calls env plan maxRowCnt 1 op = .ok ([[plan.outRow g early, plan.outRow g later]], op') ∧
      ∀ id, Source.calcExpr id ∈ Controller.sources plan → later (.calcExpr id) = env.evalExpr id (first.cols · 0) := by
  obtain ⟨op₁, early, later, filled, runtime, kept, stale⟩ := fill_two env { op with
      brs := op.brs.reset
      controller := op.controller.getDesirable.resize
        (op.controller.getDesirable.desirable * bufferMag)
      frame := op.frame.clearEvaluatedFlag }
    (resize_keeps owes.usable) (by simpa using running)
    (one_le_resize_desirable owes.usable some_udf) (fun _ => rfl) one another
  have infos : ∀ expr, 0 < (op₁.runtime.infos expr).predictSize := by
    rw [runtime]
    exact owes.infos
  obtain ⟨rt, ctl, processed, -, serves⟩ := process_spec rowWise adapts kept (by simp) infos
  obtain ⟨frame, ctl', restored, rows, -⟩ := restore_spec serves (by simp) 2 op₁.brs op₁.frame
  refine ⟨⟨ctl', BatchRows.dense 2 false, frame, rt, op₁.child⟩, early, later, ?_, stale⟩
  have emits : emitted plan ⟨ctl', BatchRows.dense 2 false, frame, rt, op₁.child⟩ =
      [plan.outRow g early, plan.outRow g later] := by
    simpa [emitted] using rows
  rw [← emits]
  simp only [calls, ok_bind, innerGetNextBatch, owes.idle rfl, Bool.false_eq_true, ↓reduceIte, two,
    refill, ← child] at filled ⊢
  rw [filled]
  simp only [ok_bind, processed, pure_bind, restored]
  rfl

theorem calls_head {env : Env V} {maxRowCnt : Nat → Nat} {op₁ : Op V} {batch : List (List V × List V)}
    (first : calls env plan maxRowCnt 1 op = .ok ([batch], op₁)) (n : Nat) {batches : List (List (List V × List V))}
    {op' : Op V} (run : calls env plan maxRowCnt (n + 1) op = .ok (batches, op')) : ∃ rest, batches = batch :: rest := by
  induction n generalizing batches op' with
  | zero =>
    grind
  | succ n ih =>
    rw [calls.eq_def] at run
    cases before : calls env plan maxRowCnt (n + 1) op with
    | error err => simp [before] at run
    | ok out =>
      obtain ⟨rest, same⟩ := ih before
      cases next : innerGetNextBatch env (maxRowCnt (n + 1)) { out.2 with brs := out.2.brs.reset } with
      | error err => simp [before, next] at run
      | ok op₂ =>
        simp only [before, ok_bind, next, same] at run
        cases run
        exact ⟨rest ++ [_], rfl⟩

end Op

def oneRow (value : V) : Batch V := ⟨1, fun _ => false, fun _ _ => value⟩

theorem oneRow_active (value : V) : (oneRow value).brs.active = [0] := rfl

section Converse

variable [Inhabited V]

/-- Surroundings that reveal argument `i`: every UDF returns it, and every expression computed by
the operator copies column 0. -/
def echoEnv (i : Nat) : Env V where
  evalExpr _ row := row 0
  pyfun _ rows := some (rows.map (fun row => row.getD i default))
  modify _ info _ := info

theorem outRow_echo_injOn {plan : Plan V} {args : List (Arg V)} (member : args ∈ plan.udfExprs)
    {i : Nat} {arg : Arg V} (found : args[i]? = some arg) {row other : RowVal V}
    (same : plan.outRow (fun _ vals => vals.getD i default) row = plan.outRow (fun _ vals => vals.getD i default) other) :
    row arg.source = other arg.source := by
  obtain ⟨expr, at_expr⟩ := mem_iff_getElem?.mp member
  have results := congrArg (fun out => out.1[expr]?) same
  simpa [Plan.outRow, at_expr, found] using results

theorem readsChild_of_rowsConserved [Nontrivial V] {plan : Plan V} (admitted : plan.Admitted)
    (conserved : RowsConserved plan) : plan.ReadsChild := by
  intro args known arg present id computed
  obtain ⟨a, b, different⟩ := exists_pair_ne V
  obtain ⟨i, found⟩ := mem_iff_getElem?.mp present
  have rowWise : (echoEnv i : Env V).RowWise (fun _ vals => vals.getD i default) := fun _ _ => rfl
  have adapts : (echoEnv i : Env V).KeepsPositive := fun _ _ _ pos => pos
  have two : ∀ n, 0 < (fun _ : Nat => 2) n := fun _ => Nat.zero_lt_two
  obtain ⟨op, opened, child, -, running, owes⟩ := Op.innerOpen_spec admitted
    (fun _ => UdfInfo.fromRawExpr) (fun _ => by decide) (fun _ vals => vals.getD i default)
    ⟨fun _ _ => a, fun _ => ⟨false, fun _ => false, fun _ => a⟩, fun _ _ => a⟩ [oneRow a, oneRow b]
  have never : ∀ n err, Op.calls (echoEnv i) plan (fun _ => 2) n op = .error err → ¬err.IsOverflow := by
    intro n err failed _
    have post := Op.calls_post rowWise adapts two owes n
    rw [failed, child] at post
    obtain ⟨-, batch, member, size⟩ := post
    simp only [mem_cons, not_mem_nil, or_false] at member
    rcases member with rfl | rfl <;> simp [oneRow_active] at size
  obtain ⟨last, batches, op', run, -, -, rows, -⟩ :=
    conserved _ _ _ _ _ _ _ rowWise adapts (fun _ => by decide) two opened never
  obtain ⟨op₁, early, later, first, stale⟩ := Op.first_call_two rowWise adapts
    (ne_nil_of_mem known) owes running child (oneRow_active a) (oneRow_active b)
    (fun _ => 2) rfl
  obtain ⟨rest, batches_eq⟩ := Op.calls_head first last run
  have expected : expectedRows (echoEnv i) plan (fun _ vals => vals.getD i default) [oneRow a, oneRow b] =
      [plan.outRow (fun _ vals => vals.getD i default) (ownRow (echoEnv i) (fun _ => a)),
        plan.outRow (fun _ vals => vals.getD i default) (ownRow (echoEnv i) (fun _ => b))] := rfl
  have second : plan.outRow (fun _ vals => vals.getD i default) later =
      plan.outRow (fun _ vals => vals.getD i default) (ownRow (echoEnv i) (fun _ => b)) := by
    have at_one := congrArg (fun out => out[1]?) rows
    rw [expected, batches_eq] at at_one
    simpa only [flatten_cons, cons_append, nil_append, getElem?_cons_succ,
      getElem?_cons_zero, Option.some.injEq] using at_one
  have own := outRow_echo_injOn known found second
  rw [computed, stale id (by
    rw [Controller.sources, mem_flatMap]
    exact ⟨args, known, computed ▸ mem_map_of_mem present⟩)] at own
  exact different own

end Converse

/-- Rows are conserved exactly by the plans whose UDF arguments are all columns of the child or
constants. -/
theorem rowsConserved_iff_readsChild [Inhabited V] [Nontrivial V] (plan : Plan V)
    (admitted : plan.Admitted) : RowsConserved plan ↔ plan.ReadsChild := by
  refine ⟨readsChild_of_rowsConserved admitted, fun reads => ?_⟩
  intro env g infos frame child maxRowCnt op rowWise adapts infos_pos pos opened never
  obtain ⟨op', opened', from_child, -, running, owes⟩ :=
    Op.innerOpen_spec admitted infos infos_pos g frame child
  obtain rfl : op = op' := by
    rw [opened] at opened'
    exact Except.ok.inj opened'
  obtain ⟨staged, stages, emits⟩ := Op.emits_staged rowWise adapts pos owes running
    (fun n err failed big => never n err failed big.1)
  rwa [stages.outRows_eq reads g, from_child] at emits

def columnPlan : Plan Nat := ⟨[[⟨.child 0, .int⟩, ⟨.const 3, .double⟩]], [0, 1]⟩

theorem columnPlan_conserved : columnPlan.Admitted ∧ RowsConserved columnPlan := by
  have admitted : columnPlan.Admitted := by
    intro args member
    obtain rfl := mem_singleton.mp member
    exact ⟨by simp, rfl⟩
  refine ⟨admitted, (rowsConserved_iff_readsChild columnPlan admitted).mpr ?_⟩
  intro args member arg present id
  obtain rfl := mem_singleton.mp member
  simp only [mem_cons, not_mem_nil, or_false] at present
  rcases present with rfl | rfl <;> simp

/-- `f(c0 + 1)` over a child with the output column `c0`. -/
def sumPlan : Plan Nat := ⟨[[⟨.calcExpr 0, .int⟩]], [0]⟩

def sumEnv : Env Nat where
  evalExpr _ row := row 0 + 1
  pyfun _ rows := some (rows.map (fun row => row.getD 0 0))
  modify _ info evalSize := info.modifyDesirable 1000 evalSize

/-- The rows that two calls with `max_row_cnt` 256 emit for `f(c0 + 1)`, with `f` the identity, on
a child that delivers the rows 10 and 20 in two batches. -/
def sumRows : Except Err (List (List Nat × List Nat)) := do
  let op ← Op.innerOpen sumPlan (fun _ => UdfInfo.fromRawExpr)
    ⟨fun _ _ => 0, fun _ => ⟨false, fun _ => false, fun _ => 0⟩, fun _ _ => 0⟩ [oneRow 10, oneRow 20]
  let out ← Op.calls sumEnv sumPlan (fun _ => 256) 2 op
  return out.1.flatten

theorem sumRows_stale : sumRows = .ok [([11], [10]), ([11], [20])] ∧
    expectedRows sumEnv sumPlan (fun _ vals => vals.getD 0 0) [oneRow 10, oneRow 20] =
      [([11], [10]), ([21], [20])] :=
  ⟨rfl, rfl⟩

end IMBridge.PythonUdf
