import IMBridge.PythonUdf.Restore

/-!
The rows emitted up to the end of the iteration are the active rows of the child, each once and in
order, provided that no UDF argument is computed by the operator itself.
-/

namespace IMBridge.PythonUdf

open IMBridge.Engine List Controller
open IMBridge.Lib
open IMBridge.Lib.Outcome

variable {V : Type}

/-- Every UDF argument is an output expression of the child or a constant. -/
def Plan.ReadsChild (plan : Plan V) : Prop :=
  ∀ args ∈ plan.udfExprs, ∀ arg ∈ args, ∀ id, arg.source ≠ .calcExpr id

def childRows (child : List (Batch V)) : List (Nat → V) :=
  child.flatMap (fun batch => batch.brs.active.map (fun j col => batch.cols col j))

variable (env : Env V)

def expectedRows (plan : Plan V) (g : Nat → List V → V) (child : List (Batch V)) :
    List (List V × List V) :=
  (childRows child).map (fun row => plan.outRow g (ownRow env row))

/-- A buffered row agrees with a child row on everything but the operator's own expressions. -/
def Agrees (row : Nat → V) (staged : RowVal V) : Prop :=
  ∀ source, (∀ id, source ≠ .calcExpr id) → staged source = ownRow env row source

theorem agrees_stagedRow (brs : BatchRows) (frame : Frame V) (j : Nat) :
    Agrees env (frame.cols · j) (frame.stagedRow env brs j) := by
  intro source plain
  cases source with
  | child col => rfl
  | const value => rfl
  | calcExpr id => exact absurd rfl (plain id)

theorem Agrees.outRow_eq {env : Env V} {row : Nat → V} {staged : RowVal V}
    (agrees : Agrees env row staged) {plan : Plan V} (reads : plan.ReadsChild)
    (g : Nat → List V → V) : plan.outRow g staged = plan.outRow g (ownRow env row) := by
  simp only [Plan.outRow, Prod.mk.injEq]
  constructor
  · apply map_congr_left
    rintro ⟨args, expr⟩ member
    have known : args ∈ plan.udfExprs := by
      grind
    congr 1
    apply map_congr_left
    intro arg present
    exact agrees arg.source (reads args known arg present)
  · apply map_congr_left
    intro col _
    exact agrees (.child col) (fun id => by simp)

/-- The buffered rows `rows` stand for the active rows of the batches `taken`, in order. -/
def Stages (taken : List (Batch V)) (rows : List (RowVal V)) : Prop :=
  Forall₂ (Agrees env) (childRows taken) rows

theorem Stages.append {env : Env V} {first second : List (Batch V)} {rows more : List (RowVal V)}
    (front : Stages env first rows) (back : Stages env second more) :
    Stages env (first ++ second) (rows ++ more) := by
  have both := rel_append front back
  simpa [Stages, childRows] using both

theorem stages_batch (batch : Batch V) (frame : Frame V) (same : frame.cols = batch.cols) :
    Stages env [batch] (batch.brs.active.map (frame.stagedRow env batch.brs)) := by
  simp only [Stages, childRows, flatMap_cons, flatMap_nil, append_nil,
    forall₂_map_left_iff, forall₂_map_right_iff, forall₂_same]
  intro j _
  rw [← same]
  exact agrees_stagedRow env batch.brs frame j

theorem Stages.outRows_eq {env : Env V} {taken : List (Batch V)} {rows : List (RowVal V)}
    (stages : Stages env taken rows) {plan : Plan V} (reads : plan.ReadsChild)
    (g : Nat → List V → V) : rows.map (plan.outRow g) = expectedRows env plan g taken := by
  unfold expectedRows
  unfold Stages at stages
  generalize childRows taken = owns at stages
  induction stages with
  | nil => rfl
  | cons agrees _ ih => rw [map_cons, map_cons, agrees.outRow_eq reads g, ih]

namespace Op

variable [Inhabited V]

def BigBatch (child : List (Batch V)) (err : Err) : Prop :=
  err.IsOverflow ∧ ∃ batch ∈ child, 4096 < batch.brs.active.length

variable {env : Env V} {plan : Plan V} {op start : Op V} {g : Nat → List V → V} {maxRowCnt : Nat → Nat}

theorem storeBatch_post (env : Env V) (brs : BatchRows) {rows : List (RowVal V)} (op : Op V)
    (keeps : op.controller.Keeps plan rows) (room : op.controller.isFull = false) :
    Post (Overflow brs) (fun op' : Op V =>
      op'.brs = brs ∧ op'.child = op.child ∧ op'.runtime = op.runtime ∧
      Frame.Settled env brs op.frame op'.frame ∧
      Frame.Reads env brs op.frame op'.frame (sources plan) ∧
      op'.controller.desirable = op.controller.desirable ∧
      op'.controller.Keeps plan (rows ++ brs.active.map (op.frame.stagedRow env brs)))
      (op.storeBatch env brs) := by
  have notFull := (isFull_eq_false keeps).mp room
  refine Post.bind (store_post keeps notFull) ?_
  rintro ⟨frame, controller⟩ ⟨settled, reads, desirable, kept⟩
  exact ⟨rfl, rfl, rfl, settled, reads, desirable, kept⟩

/-- Filling takes a prefix of the child's batches and buffers their active rows. It ends with
the child used up or with some row buffered. -/
theorem fill_post (env : Env V) (child : List (Batch V)) {rows : List (RowVal V)} (op : Op V)
    (keeps : op.controller.Keeps plan rows) (running : op.brs.end_ = false) :
    Post (BigBatch child) (fun op' : Op V => ∃ taken rows',
      child = taken ++ op'.child ∧ op'.controller.Keeps plan (rows ++ rows') ∧
      Stages env taken rows' ∧ op'.runtime = op.runtime ∧
      (op'.brs = BatchRows.finished ∧ op'.child = [] ∨ op'.brs.end_ = false ∧ rows ++ rows' ≠ []))
      (fill env child op) := by
  induction child generalizing op rows with
  | nil =>
    by_cases full : op.controller.isFull = true
    · simp only [fill, running, full, Bool.or_true, ↓reduceIte]
      exact ⟨[], [], rfl, by simpa using keeps, .nil, rfl, .inr ⟨running, by simpa using ne_nil_of_isFull keeps full⟩⟩
    · simp only [fill, running, full, Bool.or_self, Bool.false_eq_true, ↓reduceIte]
      refine (storeBatch_post env _ { op with child := [] } keeps (by simpa using full)).mono ?_ ?_
      · rintro err ⟨-, big⟩
        simp at big
      · rintro op' ⟨brs, rest, runtime, -, -, -, kept⟩
        exact ⟨[], [], rest.symm, by simpa using kept, .nil, runtime, .inl ⟨brs, rest⟩⟩
  | cons batch rest ih =>
    by_cases full : op.controller.isFull = true
    · simp only [fill, running, full, Bool.or_true, ↓reduceIte]
      exact ⟨[], [], rfl, by simpa using keeps, .nil, rfl, .inr ⟨running, by simpa using ne_nil_of_isFull keeps full⟩⟩
    · simp only [fill, running, full, Bool.or_self, Bool.false_eq_true, ↓reduceIte]
      refine Post.bind ((storeBatch_post env _ { op with frame := { op.frame with cols := batch.cols } } keeps
        (by simpa using full)).mono (fun err overflow => ?_) (fun _ same => same)) ?_
      · exact ⟨overflow.1, batch, by simp, overflow.2⟩
      · rintro op₁ ⟨brs₁, -, runtime₁, -, -, -, kept₁⟩
        refine (ih op₁ kept₁ (by rw [brs₁]; rfl)).mono ?_ ?_
        · rintro err ⟨overflow, big, member, size⟩
          exact ⟨overflow, big, mem_cons_of_mem _ member, size⟩
        · rintro op₂ ⟨taken, rows₂, split, kept₂, stages, runtime₂, stopped⟩
          refine ⟨batch :: taken, _, by rw [split]; rfl, by rw [← append_assoc]; exact kept₂,
            (stages_batch env batch { op.frame with cols := batch.cols } rfl).append stages,
            runtime₂.trans runtime₁, by rw [← append_assoc]; exact stopped⟩

structure Owes (plan : Plan V) (g : Nat → List V → V) (queue : List (RowVal V)) (op : Op V) :
    Prop where
  usable : op.controller.Usable plan
  infos : ∀ expr, 0 < (op.runtime.infos expr).predictSize
  idle : queue = [] → op.controller.canOutput = false
  serves : queue ≠ [] → ∃ done, op.controller.Serves plan g done queue

theorem refill_post (rowWise : env.RowWise g) (adapts : env.KeepsPositive) (usable : op.controller.Usable plan)
    (infos : ∀ expr, 0 < (op.runtime.infos expr).predictSize) (running : op.brs.end_ = false) :
    Post (BigBatch op.child) (fun op' : Op V => ∃ taken queue,
      op.child = taken ++ op'.child ∧ Owes plan g queue op' ∧ Stages env taken queue ∧
      (queue = [] → op'.brs = BatchRows.finished ∧ op'.child = []))
      (refill env op) := by
  have filled := fill_post env op.child { op with
      controller := op.controller.getDesirable.resize
        (op.controller.getDesirable.desirable * bufferMag)
      frame := op.frame.clearEvaluatedFlag }
    (resize_keeps usable) running
  refine Post.bind filled ?_
  rintro op₁ ⟨taken, queue, split, kept, stages, runtime, stopped⟩
  simp only [nil_append] at kept stopped
  have infos₁ : ∀ expr, 0 < (op₁.runtime.infos expr).predictSize := by
    rwa [runtime]
  by_cases empty : queue = []
  · have nothing : op₁.controller.isEmpty = true := by
      simp [Controller.isEmpty, kept.stored, empty]
    simp only [Controller.process, nothing, ↓reduceIte, ok_bind]
    refine ⟨taken, queue, split, ⟨kept.usable, infos₁, fun _ => ?_, absurd empty⟩, stages, fun _ => ?_⟩
    · simp [canOutput, kept.drained]
    grind
  · obtain ⟨rt, ctl, ran, infos₂, serves⟩ := process_spec rowWise adapts kept empty infos₁
    simp only [ran, ok_bind]
    exact ⟨taken, queue, split, ⟨serves.usable, infos₂, fun none => absurd none empty, fun _ => ⟨[], serves⟩⟩, stages,
      fun none => absurd none empty⟩

/-- What one call does: it buffers the rows `staged` of the batches `taken`, emits the next rows
owed, at most `maxRowCnt` of them, and reports the end exactly when there is nothing left. -/
structure Step (env : Env V) (plan : Plan V) (g : Nat → List V → V) (maxRowCnt : Nat)
    (queue : List (RowVal V)) (child : List (Batch V)) (op' : Op V) (taken : List (Batch V))
    (staged queue' : List (RowVal V)) : Prop where
  split : child = taken ++ op'.child
  owes : Owes plan g queue' op'
  stages : Stages env taken staged
  rows : (queue ++ staged).map (plan.outRow g) = op'.emitted plan ++ queue'.map (plan.outRow g)
  bounded : (op'.emitted plan).length ≤ maxRowCnt
  outcome : op'.brs.end_ = true ∧ op'.emitted plan = [] ∧ queue' = [] ∧ op'.child = [] ∨
    op'.brs.end_ = false ∧ op'.emitted plan ≠ []

theorem restore_step (env : Env V) {taken child : List (Batch V)} (before staged : List (RowVal V)) {maxRowCnt : Nat}
    (pos : 0 < maxRowCnt) (owes : Owes plan g (before ++ staged) op) (some_row : before ++ staged ≠ [])
    (split : child = taken ++ op.child) (stages : Stages env taken staged) :
    Post (fun _ => False) (fun op' : Op V => ∃ queue', Step env plan g maxRowCnt before child op' taken staged queue')
      (do
        let (brs, frame, controller) ← op.controller.restore maxRowCnt op.brs op.frame
        return { op with brs := brs, frame := frame, controller := controller }) := by
  generalize whole : before ++ staged = queue at owes some_row
  obtain ⟨done, serves⟩ := owes.serves some_row
  obtain ⟨frame, ctl, restored, emits, usable, idle, rest⟩ := restore_spec serves some_row maxRowCnt op.brs op.frame
  simp only [restored, ok_bind]
  have emitted : emitted plan { op with
      brs := BatchRows.dense (min maxRowCnt queue.length) false, frame := frame, controller := ctl } =
      (queue.take maxRowCnt).map (plan.outRow g) := by
    simpa [emitted] using emits
  refine ⟨queue.drop maxRowCnt, split, ⟨usable, owes.infos, idle, fun more => ⟨_, rest more⟩⟩, stages,
    ?_, ?_, .inr ⟨rfl, ?_⟩⟩
  · rw [whole]
    have joined := take_append_drop maxRowCnt queue
    grind
  · grind
  · intro none
    have empty := emitted.symm.trans none
    have size := congrArg List.length empty
    grind

theorem innerGetNextBatch_post (rowWise : env.RowWise g) (adapts : env.KeepsPositive) {queue : List (RowVal V)}
    (owes : Owes plan g queue op) (running : op.brs.end_ = false) {maxRowCnt : Nat} (pos : 0 < maxRowCnt) :
    Post (BigBatch op.child) (fun op' : Op V => ∃ taken staged queue',
      Step env plan g maxRowCnt queue op.child op' taken staged queue')
      (innerGetNextBatch env maxRowCnt op) := by
  by_cases ready : op.controller.canOutput = true
  · have some_row : queue ≠ [] := by
      intro empty
      simp [owes.idle empty] at ready
    simp only [innerGetNextBatch, ready, ↓reduceIte, ok_bind]
    refine (restore_step env queue [] pos (by simpa using owes) (by simpa using some_row)
      (nil_append _).symm .nil).mono (fun _ never => never.elim) ?_
    grind
  · have none : queue = [] := by
      by_contra some_row
      obtain ⟨done, serves⟩ := owes.serves some_row
      have pos : 0 < queue.length := length_pos_iff.mpr some_row
      apply ready
      simp only [canOutput, serves.storedOutput, serves.outputIdx, length_append, decide_eq_true_eq]
      omega
    subst none
    simp only [innerGetNextBatch, ready, Bool.false_eq_true, ↓reduceIte]
    refine Post.bind (refill_post rowWise adapts owes.usable owes.infos running) ?_
    rintro op₁ ⟨taken, staged, split, owes₁, stages, ended⟩
    by_cases empty : staged = []
    · obtain ⟨brs, rest⟩ := ended empty
      have quiet : op₁.controller.storedOutputCnt = 0 ∨ op₁.controller.canOutput = false := .inr (owes₁.idle empty)
      simp only [restore, if_pos quiet, ok_bind]
      have emitted : op₁.emitted plan = [] := by simp [emitted, brs]
      refine ⟨taken, staged, [], split, empty ▸ owes₁, stages, ?_, ?_, .inl ⟨?_, emitted, rfl, rest⟩⟩
      · rw [emitted, empty]
        rfl
      · rw [emitted]
        exact Nat.zero_le _
      · rw [brs]
        rfl
    · refine (restore_step env [] staged pos owes₁ empty split stages).mono (fun _ never => never.elim) ?_
      grind

/-- The state after `count` calls, none of which has ended the iteration: the rows emitted and
owed are those staged for the batches taken so far. -/
structure Running (env : Env V) (plan : Plan V) (g : Nat → List V → V) (maxRowCnt : Nat → Nat)
    (child : List (Batch V)) (count : Nat) (batches : List (List (List V × List V))) (op : Op V)
    (staged queue : List (RowVal V)) : Prop where
  owes : Owes plan g queue op
  running : op.brs.end_ = false
  stages : ∃ taken, child = taken ++ op.child ∧ Stages env taken staged
  rows : staged.map (plan.outRow g) = batches.flatten ++ queue.map (plan.outRow g)
  number : batches.length = count
  bounded : ∀ n batch, batches[n]? = some batch → batch.length ≤ maxRowCnt n
  progress : count ≤ batches.flatten.length

/-- Some call is the first to leave `end_` set; all calls up to it succeed, emit at most as many
rows as asked for and together the rows `rows`; and at the end neither the child nor the buffers
hold a row. -/
def Emits (env : Env V) (plan : Plan V) (maxRowCnt : Nat → Nat) (op : Op V)
    (rows : List (List V × List V)) : Prop :=
  ∃ last batches op', calls env plan maxRowCnt (last + 1) op = .ok (batches, op') ∧
    op'.brs.end_ = true ∧
    (∀ n ≤ last, ∃ some_batches some_op,
      calls env plan maxRowCnt n op = .ok (some_batches, some_op) ∧ some_op.brs.end_ = false) ∧
    batches.flatten = rows ∧
    (∀ n batch, batches[n]? = some batch → batch.length ≤ maxRowCnt n) ∧
    op'.child = [] ∧ op'.controller.canOutput = false

theorem getElem?_concat_bound {α : Type} {xs : List (List α)} {last : List α} {bound : Nat → Nat}
    (old : ∀ n batch, xs[n]? = some batch → batch.length ≤ bound n)
    (new : last.length ≤ bound xs.length) :
    ∀ n batch, (xs ++ [last])[n]? = some batch → batch.length ≤ bound n := by
  intro n batch found
  grind

theorem Running.next (rowWise : env.RowWise g) (adapts : env.KeepsPositive)
    (pos : ∀ n, 0 < maxRowCnt n) {child : List (Batch V)} {count : Nat}
    {batches : List (List (List V × List V))} {staged queue : List (RowVal V)}
    (called : calls env plan maxRowCnt count start = .ok (batches, op))
    (state : Running env plan g maxRowCnt child count batches op staged queue)
    (earlier : ∀ n ≤ count, ∃ some_batches some_op,
      calls env plan maxRowCnt n start = .ok (some_batches, some_op) ∧ some_op.brs.end_ = false)
    (never : ∀ err, calls env plan maxRowCnt (count + 1) start = .error err → ¬BigBatch child err) :
    (∃ staged', Stages env child staged' ∧ Emits env plan maxRowCnt start (staged'.map (plan.outRow g))) ∨
    ∃ batches' op' staged' queue', calls env plan maxRowCnt (count + 1) start = .ok (batches', op') ∧
      Running env plan g maxRowCnt child (count + 1) batches' op' staged' queue' := by
  have owes : Owes plan g queue { op with brs := op.brs.reset } :=
    ⟨state.owes.usable, state.owes.infos, state.owes.idle, state.owes.serves⟩
  obtain ⟨taken₀, suffix, stages₀⟩ := state.stages
  have post := innerGetNextBatch_post rowWise adapts owes (by simpa using state.running) (pos count)
  obtain ⟨op', ran, taken, more, queue', step⟩ := post.exists_ok (by
    intro err failed big
    refine never err ?_ ?_
    · simp only [calls, called, ok_bind, failed, error_bind]
    · obtain ⟨overflow, batch, member, size⟩ := big
      exact ⟨overflow, batch, by rw [suffix]; exact mem_append_right _ member, size⟩)
  have now : calls env plan maxRowCnt (count + 1) start = .ok (batches ++ [op'.emitted plan], op') := by
    simp only [calls, called, ok_bind, ran]
    rfl
  have bounded := getElem?_concat_bound state.bounded (by rw [state.number]; exact step.bounded)
  have split : op.child = taken ++ op'.child := step.split
  have stages := stages₀.append step.stages
  have rows : (staged ++ more).map (plan.outRow g) =
      (batches ++ [op'.emitted plan]).flatten ++ queue'.map (plan.outRow g) := by
    rw [map_append, state.rows, append_assoc, ← map_append, step.rows]
    simp
  rcases step.outcome with ⟨ended, -, noQueue, noChild⟩ | ⟨running, emits⟩
  · left
    rw [noQueue] at rows
    rw [suffix, split, noChild, append_nil]
    exact ⟨staged ++ more, stages, count, _, op', now, ended, earlier, by simpa using rows.symm,
      bounded, noChild, step.owes.idle noQueue⟩
  · right
    refine ⟨_, op', staged ++ more, queue', now, step.owes, running,
      ⟨taken₀ ++ taken, ?_, stages⟩, rows, ?_, bounded, ?_⟩
    · rw [suffix, split, append_assoc]
    · simp [state.number]
    · have old := state.progress
      have new : 0 < (op'.emitted plan).length := length_pos_iff.mpr emits
      grind

/-- A run that never overflows emits the rows staged for the child's batches. Each call that does
not end the iteration emits a row, so the end comes after at most one call per row and one more. -/
theorem emits_staged (rowWise : env.RowWise g) (adapts : env.KeepsPositive) (pos : ∀ n, 0 < maxRowCnt n)
    (owes : Owes plan g [] start) (running : start.brs.end_ = false)
    (never : ∀ n err, calls env plan maxRowCnt n start = .error err → ¬BigBatch start.child err) :
    ∃ staged, Stages env start.child staged ∧ Emits env plan maxRowCnt start (staged.map (plan.outRow g)) := by
  by_contra unfinished
  have always : ∀ count, (∃ batches op staged queue, calls env plan maxRowCnt count start = .ok (batches, op) ∧
      Running env plan g maxRowCnt start.child count batches op staged queue) ∧
      ∀ n ≤ count, ∃ some_batches some_op,
        calls env plan maxRowCnt n start = .ok (some_batches, some_op) ∧ some_op.brs.end_ = false := by
    intro count
    induction count with
    | zero =>
      refine ⟨⟨[], start, [], [], rfl, owes, running, ⟨[], rfl, .nil⟩, rfl, rfl, by simp, by simp⟩, ?_⟩
      intro n bound
      obtain rfl : n = 0 := by omega
      exact ⟨[], start, rfl, running⟩
    | succ count ih =>
      obtain ⟨⟨batches, op, staged, queue, called, state⟩, earlier⟩ := ih
      rcases state.next rowWise adapts pos called earlier (never _) with done | more
      · exact absurd done unfinished
      obtain ⟨batches', op', staged', queue', called', state'⟩ := more
      refine ⟨⟨batches', op', staged', queue', called', state'⟩, fun n bound => ?_⟩
      rcases Nat.lt_or_ge n (count + 1) with before | here
      · exact earlier n (by omega)
      obtain rfl : n = count + 1 := by omega
      exact ⟨batches', op', called', state'.running⟩
  obtain ⟨⟨batches, op, staged, queue, -, state⟩, -⟩ := always ((childRows start.child).length + 1)
  obtain ⟨taken, split, stages⟩ := state.stages
  have emitted := congrArg List.length state.rows
  have taken_le : (childRows taken).length ≤ (childRows start.child).length := by
    rw [split]
    simp [childRows]
  have staged_eq : (childRows taken).length = staged.length := stages.length_eq
  have progress := state.progress
  simp only [length_append, length_map] at emitted
  omega

theorem innerGetNextBatch_ended (env : Env V) (owes : Owes plan g [] op) (ended : op.brs.end_ = true)
    (maxRowCnt : Nat) :
    ∃ op', innerGetNextBatch env maxRowCnt op = .ok op' ∧ op'.brs.end_ = true ∧
      op'.child = op.child ∧ Owes plan g [] op' := by
  have kept := resize_keeps owes.usable
  have filled : ∀ child controller frame, fill env child { op with controller := controller, frame := frame } =
        .ok { op with controller := controller, frame := frame, child := child } := by
    intro child controller frame
    cases child <;> simp [fill, ended]
  have nothing : (op.controller.getDesirable.resize
      (op.controller.getDesirable.desirable * bufferMag)).isEmpty = true := by
    simp [Controller.isEmpty, kept.stored]
  refine ⟨{ op with
    controller := op.controller.getDesirable.resize
      (op.controller.getDesirable.desirable * bufferMag)
    frame := op.frame.clearEvaluatedFlag }, ?_, ended, rfl, kept.usable, owes.infos, fun _ => ?_, absurd rfl⟩
  · simp only [innerGetNextBatch, owes.idle rfl, Bool.false_eq_true, ↓reduceIte, refill]
    rw [filled]
    simp only [ok_bind, pure_bind, process, nothing, ↓reduceIte, restore, kept.drained, true_or]
    rfl
  · simp [canOutput, kept.drained]

/-- Every sequence of calls succeeds, unless a batch of more than 4096 active rows overflows. -/
theorem calls_post (rowWise : env.RowWise g) (adapts : env.KeepsPositive) (pos : ∀ n, 0 < maxRowCnt n)
    (owes : Owes plan g [] start) (count : Nat) :
    Post (BigBatch start.child) (fun out => ∃ queue taken, start.child = taken ++ out.2.child ∧
      Owes plan g queue out.2 ∧ (out.2.brs.end_ = true → queue = []))
      (calls env plan maxRowCnt count start) := by
  induction count with
  | zero => exact ⟨[], [], rfl, owes, fun _ => rfl⟩
  | succ count ih =>
    refine Post.bind ih ?_
    rintro ⟨batches, op⟩ ⟨queue, taken, split, owes₁, empty⟩
    have owes₂ : Owes plan g queue { op with brs := op.brs.reset } :=
      ⟨owes₁.usable, owes₁.infos, owes₁.idle, owes₁.serves⟩
    cases ended : op.brs.end_ with
    | true =>
      obtain rfl := empty ended
      obtain ⟨op', ran, stop, rest, owes'⟩ := innerGetNextBatch_ended env owes₂ (by simpa using ended) (maxRowCnt count)
      simp only [ran, ok_bind]
      exact ⟨[], taken, split.trans (by rw [rest]), owes', fun _ => rfl⟩
    | false =>
      refine Post.bind ((innerGetNextBatch_post rowWise adapts owes₂ (by simpa using ended)
        (pos count)).mono ?_ (fun _ same => same)) ?_
      · rintro err ⟨overflow, batch, member, size⟩
        exact ⟨overflow, batch, by rw [split]; exact mem_append_right _ member, size⟩
      · rintro op' ⟨more, staged, queue', step⟩
        have rest : op.child = more ++ op'.child := step.split
        refine ⟨queue', taken ++ more, ?_, step.owes, fun stop => ?_⟩
        · rw [split, rest, append_assoc]
        · rcases step.outcome with done | running
          · exact done.2.2.1
          · simp [running.1] at stop

end Op

/-- What `alloc_data_ptrs` asks of every UDF expression: arguments, all of supported types. -/
def Plan.Admitted (plan : Plan V) : Prop :=
  ∀ args ∈ plan.udfExprs, args ≠ [] ∧ (args.map Arg.type).any (fun type => type.slot.isNone) = false

namespace Op

variable [Inhabited V]

theorem initCells_spec {infos : Nat → UdfInfo} (pos : ∀ expr, 0 < (infos expr).predictSize)
    (udfs : List (List (Arg V) × Nat))
    (admitted : ∀ udf ∈ udfs, udf.1 ≠ [] ∧ (udf.1.map Arg.type).any (fun type => type.slot.isNone) = false)
    (cells : List (Cell V)) :
    ∃ new, initCells infos 8192 udfs cells = .ok (cells ++ new) ∧
      new.map Cell.key = udfs ∧ ∀ cell ∈ new, cell.Keeps [] := by
  induction udfs generalizing cells with
  | nil => exact ⟨[], by simp [initCells], rfl, by simp⟩
  | cons udf udfs ih =>
    obtain ⟨nonempty, supported⟩ := admitted udf (by simp)
    obtain ⟨store, made, length, fresh⟩ := PUInputStore.init_spec (E := V)
      (show udf.1.map Arg.type ≠ [] by simpa using nonempty) supported (show (0 : Int) < 8192 by decide)
    obtain ⟨new, rest, keys, keeps⟩ := ih (fun other member => admitted other (mem_cons_of_mem _ member))
      (cells ++ [⟨udf.2, udf.1, store, (infos udf.2).predictSize, 0, none⟩])
    refine ⟨⟨udf.2, udf.1, store, (infos udf.2).predictSize, 0, none⟩ :: new, ?_, ?_, ?_⟩
    · simp only [initCells, Cell.init, made]
      simpa using rest
    · simp [Cell.key, keys]
    · exact forall_mem_cons.2 ⟨⟨fresh, pos _, by simp only [length]; omega⟩, keeps⟩

theorem innerOpen_spec {plan : Plan V} (admitted : plan.Admitted) (infos : Nat → UdfInfo)
    (pos : ∀ expr, 0 < (infos expr).predictSize) (g : Nat → List V → V) (frame : Frame V)
    (child : List (Batch V)) :
    ∃ op, innerOpen plan infos frame child = .ok op ∧ op.child = child ∧ op.frame = frame ∧
      op.brs.end_ = false ∧ Owes plan g [] op := by
  obtain ⟨cells, made, keys, keeps⟩ := initCells_spec pos plan.udfExprs.zipIdx (by
      rintro ⟨args, expr⟩ member
      apply admitted
      have inside := mem_map_of_mem (f := Prod.fst) member
      simpa [zipIdx_map_fst] using inside) []
  obtain ⟨store, opened, rep, length, -⟩ := ColInputStore.init_empty (E := V) plan.inputExprs 8192
  refine ⟨⟨⟨cells, store, 8192, 0, 0, 0, 0⟩, BatchRows.dense 0 false, frame, ⟨infos, []⟩, child⟩,
    ?_, rfl, rfl, rfl, ⟨keys, fun cell member => ⟨[], keeps cell member⟩, ⟨[], rep⟩, ?_, Int.le_refl 0⟩,
    pos, fun _ => rfl, absurd rfl⟩
  · simp only [innerOpen, init, Controller.new, made, opened]
    rfl
  · simp only [length]
    omega

end Op

end IMBridge.PythonUdf
