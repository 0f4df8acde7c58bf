import IMBridge.PythonUdf.Adaptation
import IMBridge.PythonUdf.ChunkLoop
import IMBridge.PythonUdf.RowConservation

/-!
Whether the input buffers can overflow. A refill starts with buffers for at least 8192 rows and at
least twice `desirable_` rows, and takes one more batch as long as no more than `desirable_` rows
are buffered.
-/

namespace IMBridge.PythonUdf

open IMBridge.Engine List
open IMBridge.Lib
open IMBridge.Lib.Outcome

variable {V : Type}

namespace Cell

variable {env : Env V} {rt : Runtime V} {cell : Cell V}

theorem processLoop_error {fuel idx : Nat} {err : Err} (failed : processLoop env fuel idx rt cell = .error err) :
    ¬ err.IsOverflow := by
  induction fuel generalizing idx rt cell with
  | zero =>
    cases failed
    simp [Err.IsOverflow]
  | succ fuel ih =>
    rw [processLoop] at failed
    split at failed
    · dsimp only at failed
      split at failed
      · cases failed
        simp [Err.IsOverflow]
      split at failed
      · cases failed
        simp [Err.IsOverflow]
      · exact ih failed
    · cases failed

theorem Chunks.growing {tps : Nat → Rat} (adapts : env.Adapts tps) {idx : Nat} {rt' : Runtime V} {cell' : Cell V}
    {chunks : List (Chunk V)} (ran : Chunks env idx rt cell chunks rt' cell') (desirable : 0 < cell.desirable)
    (infos : ∀ expr, (rt.infos expr).Growing) : 0 < cell'.desirable ∧ ∀ expr, (rt'.infos expr).Growing := by
  induction ran with
  | done => exact ⟨desirable, infos⟩
  | @call idx count rt rt' cell cell' chunk chunks more size rows returned rest ih =>
    have next : (cell.nextInfo env rt chunk).Growing := by
      rw [nextInfo, adapts.2]
      exact (infos cell.expr).modifyDesirable _ _
    refine ih next.positive ?_
    intro expr
    by_cases same : expr = cell.expr
    · rwa [same, nextRuntime_self]
    · rw [nextRuntime_of_ne env rt chunk same]
      exact infos expr

variable [Inhabited V]

/-- `do_process` on any UDF does not overflow and leaves the buffered rows where they are. -/
theorem doProcess_post {tps : Nat → Rat} (adapts : env.Adapts tps) {rows : List (RowVal V)} (keeps : cell.Keeps rows)
    (infos : ∀ expr, (rt.infos expr).Growing) :
    Post (fun err => ¬ err.IsOverflow) (fun out : Runtime V × Cell V =>
      (∀ expr, (out.1.infos expr).Growing) ∧ out.2.key = cell.key ∧ out.2.Keeps rows)
      (cell.doProcess env rt) := by
  cases outcome : cell.doProcess env rt with
  | error err => exact processLoop_error outcome
  | ok out =>
    obtain ⟨chunks, -, ran⟩ := doProcess_iff.mp outcome
    obtain ⟨desirable, growing⟩ := Chunks.growing adapts ran keeps.desirable infos
    have traced := ran.traced
    have args : out.2.args = cell.args := congrArg Prod.fst traced.key
    have store : out.2.inputStore = cell.inputStore := traced.inputStore
    refine ⟨growing, traced.key, ?_, desirable, ?_⟩
    · rw [store, args]
      exact keeps.store
    · rw [store]
      exact keeps.length

theorem reset_zero_post {rows : List (RowVal V)} (keeps : cell.Keeps rows) :
    ∃ cell', cell.reset 0 = .ok cell' ∧ cell'.key = cell.key ∧ cell'.Keeps [] := by
  have short : (0 : Int) ≤ cell.inputStore.length := Int.le_trans (by decide) keeps.length
  refine ⟨{ cell with inputStore := cell.inputStore.reuse }, ?_, rfl,
    PUInputStore.reuse_spec keeps.store, keeps.desirable, keeps.length⟩
  rw [reset, PUInputStore.reset, if_pos short]
  rfl

end Cell

namespace Controller

variable [Inhabited V]

theorem processCells_post {env : Env V} {tps : Nat → Rat} (adapts : env.Adapts tps)
    {rows : List (RowVal V)} {cells : List (Cell V)} {rt : Runtime V} (count : Nat)
    (keeps : ∀ cell ∈ cells, cell.Keeps rows) (infos : ∀ expr, (rt.infos expr).Growing) :
    Post (fun err => ¬ err.IsOverflow) (fun out : Runtime V × List (Cell V) =>
      (∀ expr, (out.1.infos expr).Growing) ∧ out.2.map Cell.key = cells.map Cell.key ∧
      ∀ cell ∈ out.2, cell.Keeps [])
      (processCells env count cells rt) := by
  induction cells generalizing rt with
  | nil => exact ⟨infos, rfl, by simp⟩
  | cons cell cells ih =>
    have rest := fun rt' => @ih rt' fun other member =>
      keeps other (List.mem_cons_of_mem _ member)
    by_cases unsaved : cell.inputStore.savedSize ≠ count
    · simp only [processCells, if_pos unsaved]
      simp [throw, throwThe, MonadExceptOf.throw, Err.IsOverflow]
    simp only [processCells, if_neg unsaved]
    refine Post.bind (Cell.doProcess_post adapts (keeps cell (by simp)) infos) ?_
    rintro ⟨rt₁, cell₁⟩ ⟨infos₁, key₁, keeps₁⟩
    by_cases unprocessed : cell₁.resultSize ≠ count
    · simp only [if_pos unprocessed]
      simp [throw, throwThe, MonadExceptOf.throw, Err.IsOverflow]
    obtain ⟨cell₂, reset, key₂, keeps₂⟩ := Cell.reset_zero_post keeps₁
    simp only [if_neg unprocessed, reset, ok_bind]
    refine Post.bind (rest rt₁ infos₁) ?_
    rintro ⟨rt₂, cells₂⟩ ⟨infos₂, keys₂, kept₂⟩
    refine ⟨infos₂, ?_, ?_⟩
    · simp [key₁, key₂, keys₂]
    grind

variable {plan : Plan V} {ctl : Controller V}

theorem process_post {env : Env V} {tps : Nat → Rat} (adapts : env.Adapts tps) {rows : List (RowVal V)}
    {rt : Runtime V} (keeps : Keeps plan rows ctl) (infos : ∀ expr, (rt.infos expr).Growing) :
    Post (fun err => ¬ err.IsOverflow) (fun out : Runtime V × Controller V =>
      (∀ expr, (out.1.infos expr).Growing) ∧ Usable plan out.2)
      (process env rt ctl) := by
  rw [process]
  split
  · exact ⟨infos, keeps.usable⟩
  refine Post.bind (processCells_post adapts ctl.storedInputCnt keeps.cells infos) ?_
  rintro ⟨rt', cells⟩ ⟨infos', keys, kept⟩
  exact ⟨infos', keys.trans keeps.keys, fun cell member => ⟨[], kept cell member⟩,
    ⟨_, keeps.other⟩, keeps.otherLength, keeps.nonneg⟩

omit [Inhabited V] in
theorem restoreCells_error {idx count : Nat} {cells : List (Cell V)} {frame : Frame V} {err : Err}
    (failed : restoreCells idx count cells frame = .error err) : ¬ err.IsOverflow := by
  induction cells generalizing frame with
  | nil => cases failed
  | cons cell cells ih =>
    rw [restoreCells, Cell.doRestore] at failed
    split at failed
    · cases failed
      simp [Err.IsOverflow]
    split at failed
    · cases failed
      simp [Err.IsOverflow]
    · exact ih failed

omit [Inhabited V] in
theorem loadVector_post {store : ColInputStore V} {cols : List Nat} {rows : List (Nat → V)}
    (rep : store.Represents cols rows) (count : Nat) :
    Post (fun err => ¬ err.IsOverflow) (fun out : List (Nat × List V) × ColInputStore V =>
      out.2.Represents cols rows ∧ out.2.length = store.length)
      (store.loadVector count) := by
  rw [ColInputStore.loadVector]
  split
  · simp [Err.IsOverflow]
  · exact ⟨⟨rep.exprs, rep.buffers, rep.saved⟩, rfl⟩

theorem Usable.advanceOutput (usable : Usable plan ctl) {store : ColInputStore V} {rows : List (Nat → V)}
    (rep : store.Represents plan.inputExprs rows) (long : 8192 ≤ store.length) (count : Nat) :
    Usable plan (ctl.advanceOutput store count) := by
  rw [Controller.advanceOutput]
  dsimp only
  split
  · exact ⟨usable.keys, usable.cells, ⟨[], ColInputStore.reuse_spec rep⟩, long, usable.nonneg⟩
  · exact ⟨usable.keys, usable.cells, ⟨rows, rep⟩, long, usable.nonneg⟩

theorem restore_post (usable : Usable plan ctl) (maxRowCnt : Nat) (brs : BatchRows) (frame : Frame V) :
    Post (fun err => ¬ err.IsOverflow) (fun out : BatchRows × Frame V × Controller V =>
      Usable plan out.2.2) (restore maxRowCnt brs frame ctl) := by
  rw [restore]
  split
  · exact usable
  have restored : Post (fun err => ¬ err.IsOverflow) (fun _ => True) (restoreCells ctl.outputIdx
      (min maxRowCnt (ctl.storedOutputCnt - ctl.outputIdx)) ctl.cells frame) := by
    cases outcome : restoreCells ctl.outputIdx
        (min maxRowCnt (ctl.storedOutputCnt - ctl.outputIdx)) ctl.cells frame with
    | error err => exact restoreCells_error outcome
    | ok frame' => trivial
  obtain ⟨rows, rep⟩ := usable.other
  refine Post.bind restored ?_
  intro frame' _
  refine Post.bind (loadVector_post rep _) ?_
  rintro ⟨columns, store⟩ ⟨rep', length⟩
  exact usable.advanceOutput rep' (Int.le_trans usable.otherLength (Int.le_of_eq length.symm)) _

end Controller

namespace Op

variable [Inhabited V]

structure Standing (plan : Plan V) (op : Op V) : Prop where
  usable : op.controller.Usable plan
  infos : ∀ expr, (op.runtime.infos expr).Growing

def Bounded (bound : Nat) (child : List (Batch V)) : Prop := ∀ batch ∈ child, batch.size ≤ bound

omit [Inhabited V] in
theorem Bounded.not_bigBatch {child : List (Batch V)} (bounded : Bounded 4096 child) {err : Err} :
    ¬ BigBatch child err := by
  rintro ⟨-, batch, member, big⟩
  have active : batch.brs.active.length ≤ batch.size := by
    rw [← BatchRows.size_sub_accumulateBitCnt]
    exact Nat.sub_le _ _
  have small := bounded batch member
  omega

variable {env : Env V} {plan : Plan V} {tps : Nat → Rat} {brs : BatchRows} {frame : Frame V}
variable {ctl : Controller V}

theorem fill_standing (op : Op V) (keeps : op.controller.Keeps plan []) (bounded : Bounded 4096 op.child) :
    Post (fun err => ¬ err.IsOverflow) (fun op' : Op V =>
      ∃ rows, op'.controller.Keeps plan rows ∧ op'.runtime = op.runtime ∧ Bounded 4096 op'.child)
      (fill env op.child op) := by
  cases ended : op.brs.end_ with
  | true =>
    have stopped : fill env op.child op = .ok op := by
      cases children : op.child with
      | nil => rw [fill, ended, Bool.true_or, if_pos rfl, ← children]
      | cons batch rest => rw [fill, ended, Bool.true_or, if_pos rfl, ← children]
    rw [stopped]
    exact ⟨[], keeps, rfl, bounded⟩
  | false =>
    refine (fill_post env op.child op keeps ended).mono ?_ ?_
    · exact fun err big => absurd big bounded.not_bigBatch
    · rintro op' ⟨taken, rows, split, kept, -, runtime, -⟩
      refine ⟨rows, kept, runtime, fun batch member => bounded batch ?_⟩
      grind

theorem refill_standing (adapts : env.Adapts tps) {op : Op V} (standing : Standing plan op)
    (bounded : Bounded 4096 op.child) :
    Post (fun err => ¬ err.IsOverflow) (fun op' : Op V => Standing plan op' ∧ Bounded 4096 op'.child) (refill env op) := by
  refine Post.bind (fill_standing { op with
    controller := op.controller.getDesirable.resize
      (op.controller.getDesirable.desirable * Controller.bufferMag)
    frame := op.frame.clearEvaluatedFlag } (Controller.resize_keeps standing.usable) bounded) ?_
  rintro op₁ ⟨rows, kept, runtime, bounded₁⟩
  have infos : ∀ expr, (op₁.runtime.infos expr).Growing := by
    rw [runtime]
    exact standing.infos
  refine Post.bind (Controller.process_post adapts kept infos) ?_
  rintro ⟨rt, ctl⟩ ⟨infos', usable⟩
  exact ⟨⟨usable, infos'⟩, bounded₁⟩

theorem innerGetNextBatch_standing (adapts : env.Adapts tps) (op : Op V) (standing : Standing plan op)
    (bounded : Bounded 4096 op.child) (maxRowCnt : Nat) :
    Post (fun err => ¬ err.IsOverflow) (fun op' : Op V =>
      Standing plan op' ∧ Bounded 4096 op'.child) (innerGetNextBatch env maxRowCnt op) := by
  have finish : ∀ op₁ : Op V, Standing plan op₁ ∧ Bounded 4096 op₁.child →
      Post (fun err => ¬ err.IsOverflow) (fun op' : Op V =>
        Standing plan op' ∧ Bounded 4096 op'.child)
        (op₁.controller.restore maxRowCnt op₁.brs op₁.frame >>= fun out =>
          pure { op₁ with brs := out.1, frame := out.2.1, controller := out.2.2 }) := by
    rintro op₁ ⟨standing₁, bounded₁⟩
    refine Post.bind (Controller.restore_post standing₁.usable maxRowCnt op₁.brs op₁.frame) ?_
    rintro ⟨brs, frame, ctl⟩ usable
    exact ⟨⟨usable, standing₁.infos⟩, bounded₁⟩
  cases output : op.controller.canOutput with
  | true =>
    simp only [innerGetNextBatch, output, ↓reduceIte, ok_bind]
    exact finish op ⟨standing, bounded⟩
  | false =>
    simp only [innerGetNextBatch, output, Bool.false_eq_true, ↓reduceIte]
    exact Post.bind (refill_standing adapts standing bounded) finish

theorem calls_standing (adapts : env.Adapts tps) {op : Op V} (standing : Standing plan op)
    (bounded : Bounded 4096 op.child) (maxRowCnt : Nat → Nat) (count : Nat) :
    Post (fun err => ¬ err.IsOverflow) (fun out : List (List (List V × List V)) × Op V =>
      Standing plan out.2 ∧ Bounded 4096 out.2.child) (calls env plan maxRowCnt count op) := by
  induction count with
  | zero => exact ⟨standing, bounded⟩
  | succ count ih =>
    refine Post.bind ih ?_
    rintro ⟨batches, op₁⟩ ⟨standing₁, bounded₁⟩
    refine Post.bind (innerGetNextBatch_standing adapts { op₁ with brs := op₁.brs.reset }
      ⟨standing₁.usable, standing₁.infos⟩ bounded₁ (maxRowCnt count)) ?_
    rintro op₂ ⟨standing₂, bounded₂⟩
    exact ⟨standing₂, bounded₂⟩

/-- No call of any run from `inner_open` overflows a buffer, for child batches of up to
`batchSize` rows. -/
def NeverOverflows (V : Type) [Inhabited V] (batchSize : Nat) : Prop :=
  ∀ (env : Env V) (tps : Nat → Rat), env.Adapts tps → ∀ plan : Plan V, plan.Admitted →
  ∀ infos : Nat → UdfInfo, (∀ expr, (infos expr).Adapted) → ∀ (frame : Frame V)
    (child : List (Batch V)), Bounded batchSize child →
  ∀ op, innerOpen plan infos frame child = .ok op → ∀ (maxRowCnt : Nat → Nat) (count : Nat) (err : Err),
    calls env plan maxRowCnt count op = .error err → ¬ err.IsOverflow

theorem neverOverflows_of_le {batchSize : Nat} (small : batchSize ≤ 4096) :
    NeverOverflows V batchSize := by
  intro env tps adapts plan admitted infos adapted frame child bounded op opened maxRowCnt count err failed
  have growing := fun expr => (adapted expr).growing
  obtain ⟨op', opened', children, -, -, owes⟩ := innerOpen_spec admitted infos
    (fun expr => (growing expr).positive) (fun _ _ => default) frame child
  obtain rfl : op = op' := Except.ok.inj (opened.symm.trans opened')
  have runtime : op.runtime = ⟨infos, []⟩ := by
    obtain ⟨ctl, -, made⟩ := bind_eq_ok.mp opened
    cases made
    rfl
  have standing : Standing plan op := ⟨owes.usable, by rw [runtime]; exact growing⟩
  have post := calls_standing adapts standing
    (by rw [children]; exact fun batch member => (bounded batch member).trans small) maxRowCnt count
  rwa [failed] at post

omit [Inhabited V] in
theorem saveBatch_length {store store' : PUInputStore V} {load : Nat → Nat → V}
    (saved : store.saveBatch load brs = .ok store') : store'.length = store.length := by
  rw [PUInputStore.saveBatch] at saved
  split at saved
  · cases saved
    rfl
  split at saved
  · cases saved
  split at saved
  · cases saved
    rfl
  · cases saved

theorem storeCells_length {cells : List (Cell V)} {out : Frame V × List (Cell V)}
    (stored : Controller.storeCells env brs cells frame = .ok out) :
    out.2.map (fun cell => cell.inputStore.length) = cells.map fun cell => cell.inputStore.length := by
  induction cells generalizing frame out with
  | nil =>
    cases stored
    rfl
  | cons cell cells ih =>
    obtain ⟨⟨frame₁, cell₁⟩, first, later⟩ := bind_eq_ok.mp stored
    obtain ⟨⟨frame₂, cells₂⟩, second, last⟩ := bind_eq_ok.mp later
    obtain ⟨store, saved, made⟩ := bind_eq_ok.mp first
    cases made
    cases last
    simp only [List.map_cons, saveBatch_length saved, ih second]

theorem store_overflow {cell : Cell V} {rest : List (Cell V)} {rows : List (RowVal V)}
    (cells : ctl.cells = cell :: rest) (keeps : cell.Keeps rows)
    (full : cell.inputStore.length < (rows.length + brs.active.length : Nat)) :
    ctl.store env brs frame = .error .inputStoreOverflow := by
  have refused := PUInputStore.saveBatch_overflow keeps.store
    (cell.argLoad (cell.args.foldl (fun f arg => f.evalArg env brs arg.source) frame)) brs
    (by simpa using full)
  simp only [Controller.store, cells, Controller.storeCells, Cell.doStore, refused, error_bind]

def lengths (ctl : Controller V) : List Int := ctl.cells.map fun cell => cell.inputStore.length

theorem store_lengths {out : Frame V × Controller V} (stored : ctl.store env brs frame = .ok out) :
    lengths out.2 = lengths ctl := by
  obtain ⟨⟨frame₁, cells₁⟩, first, later⟩ := bind_eq_ok.mp stored
  obtain ⟨store, -, last⟩ := bind_eq_ok.mp later
  cases last
  exact storeCells_length first

theorem resetCells_reuse {cells : List (Cell V)} {size : Int} (short : ∀ cell ∈ cells, size ≤ cell.inputStore.length) :
    Controller.resetCells size cells =
      .ok (cells.map fun cell => { cell with inputStore := cell.inputStore.reuse }) := by
  induction cells with
  | nil => rfl
  | cons cell cells ih =>
    have rest := ih fun other member => short other (List.mem_cons_of_mem _ member)
    simp only [Controller.resetCells, Cell.reset, PUInputStore.reset, if_pos (short cell (List.mem_cons_self ..)), rest]
    rfl

theorem resize_lengths {size : Int} (short : ∀ cell ∈ ctl.cells, size ≤ cell.inputStore.length) :
    lengths (ctl.resize size) = lengths ctl := by
  rw [Controller.resize]
  dsimp only
  rw [resetCells_reuse short, lengths, List.map_map]
  rfl

theorem resize_desirable (ctl : Controller V) (size : Int) : (ctl.resize size).desirable = ctl.desirable := by
  rw [Controller.resize]
  dsimp only
  split <;> rfl

theorem storeBatch_fits (env : Env V) {rows : List (RowVal V)} (op : Op V) (keeps : op.controller.Keeps plan rows)
    (room : op.controller.isFull = false) (small : brs.active.length ≤ 4096) :
    ∃ op' rows', op.storeBatch env brs = .ok op' ∧ op'.brs = brs ∧ op'.controller.desirable = op.controller.desirable ∧
      op'.controller.Keeps plan (rows ++ rows') ∧ rows'.length = brs.active.length ∧
      lengths op'.controller = lengths op.controller := by
  obtain ⟨op', stored, same, -, -, -, -, desirable, kept⟩ := (storeBatch_post env brs op keeps room).exists_ok (by
      rintro err - ⟨-, big⟩
      omega)
  obtain ⟨out, first, made⟩ := bind_eq_ok.mp stored
  cases made
  exact ⟨_, _, stored, same, desirable, kept, List.length_map .., store_lengths first⟩

theorem fill_overflow (env : Env V) (op : Op V) (first second : Batch V) (rest : List (Batch V)) {bound : Int}
    {more : List Int} (keeps : op.controller.Keeps plan []) (running : op.brs.end_ = false)
    (buffers : lengths op.controller = bound :: more) (small : first.brs.active.length ≤ 4096)
    (wanted : (first.brs.active.length : Int) ≤ op.controller.desirable)
    (full : bound < (first.brs.active.length + second.brs.active.length : Nat)) :
    fill env (first :: second :: rest) op = .error .inputStoreOverflow := by
  have room : op.controller.isFull = false := (Controller.isFull_eq_false keeps).mpr (by simpa using keeps.nonneg)
  obtain ⟨op₁, rows, stored, brs, desirable, kept, count, same⟩ :=
    storeBatch_fits env { op with frame := { op.frame with cols := first.cols } } keeps room small
  rw [List.nil_append] at kept
  have room₁ : op₁.controller.isFull = false := by
    rwa [Controller.isFull_eq_false kept, count, desirable]
  have running₁ : op₁.brs.end_ = false := by
    rw [brs]
    rfl
  rw [fill, running, room, Bool.or_self, if_neg Bool.false_ne_true, stored, ok_bind, fill, running₁,
    room₁, Bool.or_self, if_neg Bool.false_ne_true]
  have lengths₁ : lengths op₁.controller = bound :: more := same.trans buffers
  obtain ⟨cell, cells, shape, length⟩ : ∃ cell cells, op₁.controller.cells = cell :: cells ∧
      cell.inputStore.length = bound := by
    cases shape : op₁.controller.cells with
    | nil =>
      rw [lengths, shape] at lengths₁
      cases lengths₁
    | cons cell cells =>
      rw [lengths, shape, map_cons] at lengths₁
      grind
  have keeps₁ := kept.cells cell (by rw [shape]; exact mem_cons_self ..)
  rw [storeBatch, store_overflow shape keeps₁ (by rw [length, count]; exact full)]
  rfl

def wholeBatch (size : Nat) : Batch V := ⟨size, fun _ => false, fun _ _ => default⟩

theorem wholeBatch_active (size : Nat) : (wholeBatch (V := V) size).brs.active.length = size := by
  rw [show (wholeBatch (V := V) size).brs = BatchRows.dense size false from rfl,
    BatchRows.active_dense, List.length_range]

def columnUdf : Plan V := ⟨[[⟨.child 0, .int⟩]], [0]⟩

omit [Inhabited V] in
theorem columnUdf_admitted : (columnUdf (V := V)).Admitted := by
  intro args member
  rw [columnUdf, List.mem_singleton] at member
  rw [member]
  exact ⟨by simp, rfl⟩

def steadyEnv : Env V where
  evalExpr := fun _ _ => default
  pyfun := fun _ rows => some (rows.map fun _ => default)
  modify := fun _ info evalSize => info.modifyDesirable 1 evalSize

/-- With a prediction size of `first` rows, a batch of as many rows does not fill the buffers; the
next one need not fit. -/
theorem calls_overflow (infos : Nat → UdfInfo) {first : Nat} (second : Nat)
    (pos : ∀ expr, 0 < (infos expr).predictSize) (size : (infos 0).predictSize = first)
    (small : first ≤ 4096) (full : 8192 < first + second) (frame : Frame V) (maxRowCnt : Nat → Nat) :
    ∃ op, innerOpen columnUdf infos frame [wholeBatch first, wholeBatch second] = .ok op ∧
      calls steadyEnv columnUdf maxRowCnt 1 op = .error .inputStoreOverflow := by
  obtain ⟨op, opened, children, -, running, owes⟩ := innerOpen_spec columnUdf_admitted infos pos
    (fun _ _ => default) frame [wholeBatch (V := V) first, wholeBatch second]
  refine ⟨op, opened, ?_⟩
  have cells : op.controller.cells = [⟨0, [⟨.child 0, .int⟩],
      ⟨[.int], [fun _ => default], 8192, 0, true⟩, (infos 0).predictSize, 0, none⟩] := by
    cases opened
    rfl
  have desirable : op.controller.getDesirable.desirable = first := by
    rw [Controller.getDesirable, cells]
    cases opened
    exact (congrArg (max 0) size).trans (max_eq_right (Int.natCast_nonneg first))
  have resized : lengths (op.controller.getDesirable.resize
      (op.controller.getDesirable.desirable * Controller.bufferMag)) = [8192] := by
    rw [resize_lengths, lengths]
    · exact (congrArg (List.map fun cell => cell.inputStore.length) cells).trans rfl
    · intro cell member
      rw [show op.controller.getDesirable.cells = op.controller.cells from rfl, cells, List.mem_singleton] at member
      rw [desirable, member]
      exact show (first * 2 : Int) ≤ 8192 by omega
  have overflow := fill_overflow (steadyEnv (V := V)) { op with
      brs := op.brs.reset
      controller := op.controller.getDesirable.resize
        (op.controller.getDesirable.desirable * Controller.bufferMag)
      frame := op.frame.clearEvaluatedFlag }
    (wholeBatch first) (wholeBatch second) []
    (Controller.resize_keeps owes.usable) (by simpa using running) resized
    (by rwa [wholeBatch_active])
    (by rw [wholeBatch_active, resize_desirable, desirable])
    (by
      rw [wholeBatch_active, wholeBatch_active]
      omega)
  rw [children] at overflow
  simp only [calls, ok_bind, innerGetNextBatch, owes.idle rfl, Bool.false_eq_true, ↓reduceIte, refill,
    children, overflow, error_bind]

/-- The buffers never overflow exactly for plan batch sizes of up to 4096 rows. The capacity is an
integer here: that `get_desirable() * BUFFER_MAG` leaves the range of an `int` from a desirable size
of `2 ^ 30` on is not modelled. -/
theorem never_overflows_iff (V : Type) [Inhabited V] (batchSize : Nat) :
    NeverOverflows V batchSize ↔ batchSize ≤ 4096 := by
  constructor
  · intro never
    by_contra large
    have size : (UdfInfo.doubled 15).predictSize = 4096 := by
      rw [UdfInfo.doubled_eq]
      decide
    have frame : Frame V := ⟨fun _ _ => default, fun _ => ⟨false, fun _ => false, fun _ => default⟩,
      fun _ _ => default⟩
    obtain ⟨op, opened, failed⟩ := calls_overflow (fun _ => .doubled 15) 4097
      (fun _ => (UdfInfo.doubled_adapted 15).growing.positive) size
      (by decide) (by decide) frame fun _ => batchSize
    refine never steadyEnv (fun _ => 1) ⟨fun _ => one_pos, fun _ _ _ => rfl⟩ columnUdf
      columnUdf_admitted (fun _ => .doubled 15) (fun _ => UdfInfo.doubled_adapted 15) frame _ ?_ op
      opened _ 1 _ failed (.inl rfl)
    intro batch member
    simp only [List.mem_cons, List.not_mem_nil, or_false] at member
    rcases member with rfl | rfl
    · exact show 4096 ≤ batchSize by omega
    · exact show 4097 ≤ batchSize by omega
  · exact neverOverflows_of_le

/-- Right after code generation, 256 rows and then a batch of 8000 are too much. -/
theorem fresh_plan_overflows : ∃ op, innerOpen (V := Nat) columnUdf (fun _ => .fromRawExpr)
        ⟨fun _ _ => 0, fun _ => ⟨false, fun _ => false, fun _ => 0⟩, fun _ _ => 0⟩
        [wholeBatch 256, wholeBatch 8000] = .ok op ∧
      calls steadyEnv columnUdf (fun _ => 8000) 1 op = .error .inputStoreOverflow :=
  calls_overflow _ _ (fun _ => by decide) rfl (by decide) (by decide) _ _

end Op

end IMBridge.PythonUdf
