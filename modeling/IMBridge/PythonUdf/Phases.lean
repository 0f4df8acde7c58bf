import IMBridge.Lib.Outcome
import IMBridge.PythonUdf.Operator

/-!
What the phases of the prediction operator do to the rows it holds. A buffered row is described by
the value it gives to every argument source (`RowVal`). The only error a phase can end with is a
buffer overflow, on a batch of more than 4096 active rows.
-/

namespace IMBridge.PythonUdf

open IMBridge.Engine Function List PUInputStore
open IMBridge.Lib
open IMBridge.Lib.Outcome

variable {V : Type}

/-- The values of one row, as the arguments and pass-through columns see them. -/
abbrev RowVal (V : Type) := Source V → V

/-- The own values of a child row: its columns, the constants, and the computed expressions
applied to this very row. -/
def ownRow (env : Env V) (row : Nat → V) : RowVal V
  | .child col => row col
  | .const value => value
  | .calcExpr id => env.evalExpr id row

/-- What the operator emits for a row if UDF `e` maps an argument list to `g e`. -/
def Plan.outRow (plan : Plan V) (g : Nat → List V → V) (row : RowVal V) : List V × List V :=
  (plan.udfExprs.zipIdx.map (fun udf => g udf.2 (udf.1.map (fun arg => row arg.source))),
    plan.inputExprs.map (fun col => row (.child col)))

namespace Frame

def evaluated (env : Env V) (brs : BatchRows) (frame : Frame V) (id : Nat) : EvalInfo V :=
  EvalInfo.evalVector (fun j => env.evalExpr id (frame.cols · j)) brs (frame.calcExprs id)

def stagedRow (env : Env V) (brs : BatchRows) (frame : Frame V) (j : Nat) : RowVal V
  | .child col => frame.cols col j
  | .const value => value
  | .calcExpr id => (frame.evaluated env brs id).datums j

/-- `later` is `frame` after some of its expressions were evaluated on the batch. -/
structure Settled (env : Env V) (brs : BatchRows) (frame later : Frame V) : Prop where
  cols : later.cols = frame.cols
  udf : later.udf = frame.udf
  calcExprs : ∀ id, later.calcExprs id = frame.calcExprs id ∨
    later.calcExprs id = frame.evaluated env brs id

theorem Settled.refl (env : Env V) (brs : BatchRows) (frame : Frame V) :
    Settled env brs frame frame :=
  ⟨rfl, rfl, fun _ => .inl rfl⟩

variable {env : Env V} {brs : BatchRows} {frame later : Frame V}

variable (settled : Settled env brs frame later)
include settled

theorem Settled.evalArg_self (id : Nat) :
    (later.evalArg env brs (.calcExpr id)).calcExprs id = frame.evaluated env brs id := by
  simp only [evalArg, update_self, settled.cols]
  rcases settled.calcExprs id with same | evaluated
  · rw [same]
    rfl
  · rw [evaluated]
    exact EvalInfo.evalVector_idem _ _ _

theorem Settled.evalArg (source : Source V) : Settled env brs frame (later.evalArg env brs source) := by
  cases source with
  | child col => exact settled
  | const value => exact settled
  | calcExpr id =>
    refine ⟨settled.cols, settled.udf, fun other => ?_⟩
    by_cases same : other = id
    · subst same
      exact .inr (settled.evalArg_self other)
    · simpa [Frame.evalArg, update_of_ne same] using settled.calcExprs other

theorem Settled.evalArg_keeps (source : Source V) {id : Nat} (done : later.calcExprs id = frame.evaluated env brs id) :
    (later.evalArg env brs source).calcExprs id = frame.evaluated env brs id := by
  cases source with
  | child col => exact done
  | const value => exact done
  | calcExpr other =>
    by_cases same : id = other
    · subst same
      exact settled.evalArg_self id
    · simpa [Frame.evalArg, update_of_ne same] using done

def Reads (env : Env V) (brs : BatchRows) (frame later : Frame V) (sources : List (Source V)) :
    Prop :=
  ∀ id, Source.calcExpr id ∈ sources → later.calcExprs id = frame.evaluated env brs id

theorem Settled.foldl_evalArg {sources : List (Source V)}
    (reads : Reads env brs frame later sources) (args : List (Arg V)) :
    Settled env brs frame (args.foldl (fun f arg => f.evalArg env brs arg.source) later) ∧
    Reads env brs frame (args.foldl (fun f arg => f.evalArg env brs arg.source) later)
      (sources ++ args.map Arg.source) := by
  induction args generalizing later sources with
  | nil => exact ⟨settled, by simpa using reads⟩
  | cons arg args ih =>
    have next : Reads env brs frame (later.evalArg env brs arg.source) (sources ++ [arg.source]) := by
      intro id member
      rcases mem_append.mp member with old | new
      · exact settled.evalArg_keeps arg.source (reads id old)
      rw [← mem_singleton.mp new]
      exact settled.evalArg_self id
    simpa using ih (settled.evalArg arg.source) next

theorem Settled.argDatum_eq {sources : List (Source V)}
    (reads : Reads env brs frame later sources) {source : Source V} (member : source ∈ sources) (j : Nat) :
    later.argDatum source j = frame.stagedRow env brs j source := by
  cases source with
  | child col => simp [argDatum, stagedRow, settled.cols]
  | const value => rfl
  | calcExpr id => simp [argDatum, stagedRow, reads id member]

end Frame

namespace Cell

variable [Inhabited V]

def argRow (args : List (Arg V)) (row : RowVal V) (i : Nat) : V :=
  match args[i]? with
  | some arg => row arg.source
  | none => default

theorem range_map_argRow (args : List (Arg V)) (row : RowVal V) :
    (range args.length).map (argRow args row) = args.map (fun arg => row arg.source) := by
  apply ext_getElem
  · simp
  · intro i first second
    have bound : i < args.length := by simpa using first
    simp [argRow, getElem?_eq_getElem bound]

structure Keeps (cell : Cell V) (rows : List (RowVal V)) : Prop where
  store : cell.inputStore.Represents (cell.args.map Arg.type) (rows.map (argRow cell.args))
  desirable : 0 < cell.desirable
  length : 8192 ≤ cell.inputStore.length

def key (cell : Cell V) : List (Arg V) × Nat := (cell.args, cell.expr)

end Cell

/-- The tolerated failure: a buffer overflow, on a batch of more than 4096 active rows. -/
def Overflow (brs : BatchRows) (err : Err) : Prop := err.IsOverflow ∧ 4096 < brs.active.length

namespace Cell

variable [Inhabited V]

theorem doStore_post {env : Env V} {brs : BatchRows} {frame later : Frame V} {cell : Cell V}
    {rows : List (RowVal V)} {sources : List (Source V)} (keeps : cell.Keeps rows)
    (settled : Frame.Settled env brs frame later) (reads : Frame.Reads env brs frame later sources)
    (room : (rows.length : Int) + 4096 ≤ cell.inputStore.length) :
    Post (Overflow brs) (fun out : Frame V × Cell V =>
      Frame.Settled env brs frame out.1 ∧
      Frame.Reads env brs frame out.1 (sources ++ cell.args.map Arg.source) ∧
      out.2.key = cell.key ∧ out.2.desirable = cell.desirable ∧
      out.2.inputStore.length = cell.inputStore.length ∧
      out.2.Keeps (rows ++ brs.active.map (frame.stagedRow env brs)))
      (cell.doStore env brs later) := by
  obtain ⟨settled', reads'⟩ := settled.foldl_evalArg reads cell.args
  by_cases fits : ((rows.length + brs.active.length : Nat) : Int) ≤ cell.inputStore.length
  · have saved := saveBatch_ok keeps.store
      (cell.argLoad (cell.args.foldl (fun f arg => f.evalArg env brs arg.source) later)) brs
      (by simpa using fits)
    simp only [doStore, saved]
    refine ⟨settled', reads', rfl, rfl, rfl, ?_, keeps.desirable, keeps.length⟩
    have loads : ∀ i j, cell.argLoad (cell.args.foldl (fun f arg => f.evalArg env brs arg.source) later) i j =
        argRow cell.args (frame.stagedRow env brs j) i := by
      intro i j
      unfold argLoad argRow
      cases found : cell.args[i]? with
      | none => rfl
      | some arg =>
        apply settled'.argDatum_eq reads'
        grind
    have appended := copyActive_represents keeps.store
      (cell.argLoad (cell.args.foldl (fun f arg => f.evalArg env brs arg.source) later)) brs
    simpa [loads, comp_def] using appended
  · have full := saveBatch_overflow keeps.store
      (cell.argLoad (cell.args.foldl (fun f arg => f.evalArg env brs arg.source) later)) brs
      (by simpa using fits)
    simp only [doStore, full]
    refine ⟨.inl rfl, ?_⟩
    push_cast at fits
    omega

end Cell

namespace Controller

variable [Inhabited V]

theorem storeCells_post {env : Env V} {brs : BatchRows} {frame later : Frame V}
    {cells : List (Cell V)} {rows : List (RowVal V)} {sources : List (Source V)} {bound : Int}
    (keeps : ∀ cell ∈ cells, cell.Keeps rows)
    (roomy : ∀ cell ∈ cells, bound ≤ cell.inputStore.length) (room : (rows.length : Int) + 4096 ≤ bound)
    (settled : Frame.Settled env brs frame later)
    (reads : Frame.Reads env brs frame later sources) :
    Post (Overflow brs) (fun out : Frame V × List (Cell V) =>
      Frame.Settled env brs frame out.1 ∧
      Frame.Reads env brs frame out.1 (sources ++ cells.flatMap (fun cell => cell.args.map Arg.source)) ∧
      out.2.map Cell.key = cells.map Cell.key ∧
      (∀ cell ∈ out.2, bound ≤ cell.inputStore.length) ∧
      ∀ cell ∈ out.2, cell.Keeps (rows ++ brs.active.map (frame.stagedRow env brs)))
      (storeCells env brs cells later) := by
  induction cells generalizing later sources with
  | nil => exact ⟨settled, by simpa using reads, rfl, by simp, by simp⟩
  | cons cell cells ih =>
    have here : bound ≤ cell.inputStore.length := roomy cell (by simp)
    refine Post.bind (Cell.doStore_post (keeps cell (by simp)) settled reads (by omega)) ?_
    rintro ⟨frame₁, cell₁⟩ ⟨settled₁, reads₁, key₁, -, length₁, keeps₁⟩
    refine Post.bind (ih (fun other member => keeps other (mem_cons_of_mem _ member))
      (fun other member => roomy other (mem_cons_of_mem _ member)) settled₁ reads₁) ?_
    rintro ⟨frame₂, cells₂⟩ ⟨settled₂, reads₂, keys₂, roomy₂, keeps₂⟩
    refine ⟨settled₂, by simpa using reads₂, by simp [key₁, keys₂], ?_, ?_⟩
    · grind
    grind

/-- The buffers hold exactly the unprocessed rows `rows`, and a batch of up to 4096 active rows
fits behind `desirable_` of them. -/
structure Keeps (plan : Plan V) (rows : List (RowVal V)) (ctl : Controller V) : Prop where
  keys : ctl.cells.map Cell.key = plan.udfExprs.zipIdx
  cells : ∀ cell ∈ ctl.cells, cell.Keeps rows
  other : ctl.otherStore.Represents plan.inputExprs (rows.map (fun row col => row (.child col)))
  otherIdx : ctl.otherStore.outputIdx = 0
  stored : ctl.storedInputCnt = rows.length
  drained : ctl.storedOutputCnt = 0
  nonneg : 0 ≤ ctl.desirable
  roomy : ∀ cell ∈ ctl.cells, ctl.desirable + 4096 ≤ cell.inputStore.length
  otherRoomy : ctl.desirable + 4096 ≤ ctl.otherStore.length
  otherLength : 8192 ≤ ctl.otherStore.length

def sources (plan : Plan V) : List (Source V) :=
  plan.udfExprs.flatMap (fun args => args.map Arg.source)

theorem Keeps.sources_eq {plan : Plan V} {rows : List (RowVal V)} {ctl : Controller V} (keeps : Keeps plan rows ctl) :
    ctl.cells.flatMap (fun cell => cell.args.map Arg.source) = sources plan := by
  have args : ctl.cells.map Cell.args = plan.udfExprs := by
    have first := congrArg (map Prod.fst) keeps.keys
    simpa [Cell.key, comp_def, zipIdx_map_fst] using first
  rw [sources, ← args, flatMap_map]

theorem store_post {env : Env V} {brs : BatchRows} {frame : Frame V} {plan : Plan V}
    {rows : List (RowVal V)} {ctl : Controller V} (keeps : Keeps plan rows ctl)
    (notFull : (rows.length : Int) ≤ ctl.desirable) :
    Post (Overflow brs) (fun out : Frame V × Controller V =>
      Frame.Settled env brs frame out.1 ∧ Frame.Reads env brs frame out.1 (sources plan) ∧
      out.2.desirable = ctl.desirable ∧
      Keeps plan (rows ++ brs.active.map (frame.stagedRow env brs)) out.2)
      (store env brs frame ctl) := by
  have nothing : Frame.Reads env brs frame frame [] := by intro id member; simp at member
  refine Post.bind (storeCells_post keeps.cells keeps.roomy (by omega) (Frame.Settled.refl env brs frame) nothing) ?_
  rintro ⟨frame₁, cells₁⟩ ⟨settled, reads, keys, roomy, kept⟩
  have roomy' := keeps.otherRoomy
  have cols : frame₁.cols = frame.cols := settled.cols
  by_cases fits : ((rows.length + brs.active.length : Nat) : Int) ≤ ctl.otherStore.length
  · have saved := ColInputStore.saveVector_ok keeps.other frame₁.cols brs (by simpa using fits)
    simp only [saved]
    refine ⟨settled, by simpa [keeps.sources_eq] using reads, rfl, ?_⟩
    have appended := ColInputStore.copyActive_represents keeps.other frame₁.cols brs
    exact {
      keys := keys.trans keeps.keys
      cells := kept
      other := by simpa [cols, Frame.stagedRow, comp_def] using appended
      otherIdx := keeps.otherIdx
      stored := by simp [keeps.stored, brs.size_sub_accumulateBitCnt]
      drained := keeps.drained
      nonneg := keeps.nonneg
      roomy := roomy
      otherRoomy := roomy'
      otherLength := keeps.otherLength }
  · have full := ColInputStore.saveVector_overflow keeps.other frame₁.cols brs (by simpa using fits)
    simp only [full]
    refine ⟨.inr rfl, ?_⟩
    push_cast at fits
    omega

end Controller

/-- Every UDF is row-wise: a call on `n` rows returns `n` results, result `k` depending on row `k`
only. -/
def Env.RowWise (env : Env V) (g : Nat → List V → V) : Prop :=
  ∀ expr rows, env.pyfun expr rows = some (rows.map (g expr))

def Env.KeepsPositive (env : Env V) : Prop :=
  ∀ tick info count, 0 < info.predictSize → 0 < (env.modify tick info count).predictSize

namespace Cell

variable [Inhabited V]

def result (g : Nat → List V → V) (cell : Cell V) (row : RowVal V) : V :=
  g cell.expr (cell.args.map (fun arg => row arg.source))

omit [Inhabited V] in
theorem result_congr (g : Nat → List V → V) {cell other : Cell V} (same : cell.key = other.key) :
    cell.result g = other.result g := by
  funext row
  obtain ⟨args, expr⟩ : cell.args = other.args ∧ cell.expr = other.expr := by
    simpa [key] using same
  simp only [result, args, expr]

/-- One pass of the chunk loop consumes a non-empty slice of the buffered rows, so the loop ends
with one result per row, whatever sizes the adaptation picks. -/
theorem processLoop_spec {env : Env V} {g : Nat → List V → V} (rowWise : env.RowWise g)
    (adapts : env.KeepsPositive) {rows : List (RowVal V)} (fuel idx : Nat) (rt : Runtime V)
    (cell : Cell V)
    (store : cell.inputStore.Represents (cell.args.map Arg.type) (rows.map (argRow cell.args)))
    (inside : idx ≤ rows.length) (enough : rows.length < fuel + idx) (desirable : 0 < cell.desirable)
    (infos : ∀ expr, 0 < (rt.infos expr).predictSize)
    (results : cell.resultStore.getD [] = (rows.take idx).map (cell.result g))
    (size : cell.resultSize = idx) :
    ∃ rt' cell', processLoop env fuel idx rt cell = .ok (rt', cell') ∧
      (∀ expr, 0 < (rt'.infos expr).predictSize) ∧ cell'.key = cell.key ∧
      cell'.inputStore = cell.inputStore ∧ 0 < cell'.desirable ∧
      cell'.resultStore.getD [] = rows.map (cell.result g) ∧ cell'.resultSize = rows.length := by
  induction fuel generalizing idx rt cell with
  | zero => omega
  | succ fuel ih =>
    have saved : cell.inputStore.savedSize = rows.length := by simpa using store.saved
    by_cases more : idx < rows.length
    · obtain ⟨valid, progress, bound⟩ := evalSize_spec more desirable
      generalize count_eq : (evalSize idx rows.length cell.desirable).toNat = count at progress bound
      have slice : cell.inputStore.argRows idx count =
          ((rows.drop idx).take count).map (fun row => cell.args.map (fun arg => row arg.source)) := by
        rw [argRows_eq store (by simpa using bound)]
        simp only [length_map, ← map_drop, ← map_take, map_map]
        apply map_congr_left
        intro row _
        exact range_map_argRow cell.args row
      simp only [processLoop, saved, if_pos more, if_neg valid, count_eq, rowWise cell.expr]
      refine ih _ _ _ ?_ bound (by omega) ?_ ?_ ?_ ?_
      · exact store
      · exact adapts _ _ _ (infos cell.expr)
      · exact (Function.forall_update_iff rt.infos fun _ info => 0 < info.predictSize).2
          ⟨adapts _ _ _ (infos cell.expr), fun expr _ => infos expr⟩
      · simp only [appendResult, Option.getD_some, results, slice, map_map]
        rw [take_add, map_append]
        rfl
      · simp [appendResult, size]
    · have finished : idx = rows.length := by omega
      subst finished
      simp only [processLoop, saved, lt_irrefl, ↓reduceIte]
      grind

theorem doProcess_spec {env : Env V} {g : Nat → List V → V} (rowWise : env.RowWise g)
    (adapts : env.KeepsPositive) {rows : List (RowVal V)} {rt : Runtime V} {cell : Cell V}
    (keeps : cell.Keeps rows) (infos : ∀ expr, 0 < (rt.infos expr).predictSize) :
    ∃ rt' cell', cell.doProcess env rt = .ok (rt', cell') ∧
      (∀ expr, 0 < (rt'.infos expr).predictSize) ∧ cell'.key = cell.key ∧
      cell'.inputStore = cell.inputStore ∧ 0 < cell'.desirable ∧
      cell'.resultStore.getD [] = rows.map (cell.result g) ∧ cell'.resultSize = rows.length := by
  have saved : cell.inputStore.savedSize = rows.length := by simpa using keeps.store.saved
  exact processLoop_spec rowWise adapts (cell.inputStore.savedSize + 1) 0 rt
    { cell with resultStore := none, resultSize := 0 } keeps.store (Nat.zero_le _) (by omega)
    keeps.desirable infos rfl rfl

structure Ready (g : Nat → List V → V) (rows : List (RowVal V)) (cell : Cell V) : Prop where
  keeps : cell.Keeps []
  results : cell.resultStore.getD [] = rows.map (cell.result g)
  size : cell.resultSize = rows.length

end Cell

namespace Controller

variable [Inhabited V]

theorem processCells_spec {env : Env V} {g : Nat → List V → V} (rowWise : env.RowWise g)
    (adapts : env.KeepsPositive) {rows : List (RowVal V)} {cells : List (Cell V)} {rt : Runtime V}
    (keeps : ∀ cell ∈ cells, cell.Keeps rows) (infos : ∀ expr, 0 < (rt.infos expr).predictSize) :
    ∃ rt' cells', processCells env rows.length cells rt = .ok (rt', cells') ∧
      (∀ expr, 0 < (rt'.infos expr).predictSize) ∧ cells'.map Cell.key = cells.map Cell.key ∧
      ∀ cell ∈ cells', cell.Ready g rows := by
  induction cells generalizing rt with
  | nil => exact ⟨rt, [], rfl, infos, rfl, by simp⟩
  | cons cell cells ih =>
    have here := keeps cell (by simp)
    have saved : cell.inputStore.savedSize = rows.length := by simpa using here.store.saved
    obtain ⟨rt₁, cell₁, ran, infos₁, key₁, store₁, desirable₁, results₁, size₁⟩ :=
      Cell.doProcess_spec rowWise adapts here infos
    have args : cell₁.args = cell.args := congrArg Prod.fst key₁
    have short : (0 : Int) ≤ cell₁.inputStore.length := by
      have := here.length
      rw [store₁]
      omega
    have reset₁ : cell₁.reset 0 = .ok { cell₁ with inputStore := cell₁.inputStore.reuse } := by
      simp only [Cell.reset, PUInputStore.reset, if_pos short]
      rfl
    have ready : Cell.Ready g rows { cell₁ with inputStore := cell₁.inputStore.reuse } := by
      refine ⟨⟨?_, desirable₁, ?_⟩, ?_, size₁⟩
      · simpa [store₁, args] using reuse_spec here.store
      · simpa [reuse, store₁] using here.length
      · rwa [Cell.result_congr g (show Cell.key { cell₁ with inputStore := cell₁.inputStore.reuse } = cell.key from key₁)]
    obtain ⟨rt₂, cells₂, ran₂, infos₂, keys₂, ready₂⟩ :=
      ih (fun other member => keeps other (mem_cons_of_mem _ member)) infos₁
    refine ⟨rt₂, { cell₁ with inputStore := cell₁.inputStore.reuse } :: cells₂, ?_, infos₂, ?_, ?_⟩
    · simp only [processCells, saved, ne_eq, not_true_eq_false, ↓reduceIte, ran, ok_bind, size₁, reset₁, ran₂]
      rfl
    · simp only [map_cons, keys₂, List.cons.injEq, and_true]
      exact key₁
    grind

/-- The controller has processed `done ++ queue` and already emitted `done`. -/
structure Serves (plan : Plan V) (g : Nat → List V → V) (done queue : List (RowVal V))
    (ctl : Controller V) : Prop where
  keys : ctl.cells.map Cell.key = plan.udfExprs.zipIdx
  cells : ∀ cell ∈ ctl.cells, cell.Ready g (done ++ queue)
  other : ctl.otherStore.Represents plan.inputExprs
    ((done ++ queue).map (fun row col => row (.child col)))
  otherIdx : ctl.otherStore.outputIdx = done.length
  otherLength : 8192 ≤ ctl.otherStore.length
  storedOutput : ctl.storedOutputCnt = (done ++ queue).length
  outputIdx : ctl.outputIdx = done.length
  nonneg : 0 ≤ ctl.desirable

theorem process_spec {env : Env V} {g : Nat → List V → V} (rowWise : env.RowWise g)
    (adapts : env.KeepsPositive) {plan : Plan V} {rows : List (RowVal V)} {ctl : Controller V}
    {rt : Runtime V} (keeps : Keeps plan rows ctl) (some_row : rows ≠ [])
    (infos : ∀ expr, 0 < (rt.infos expr).predictSize) :
    ∃ rt' ctl', process env rt ctl = .ok (rt', ctl') ∧
      (∀ expr, 0 < (rt'.infos expr).predictSize) ∧ Serves plan g [] rows ctl' := by
  have occupied : ctl.isEmpty = false := by
    have pos : 0 < rows.length := length_pos_iff.mpr some_row
    simp only [isEmpty, keeps.stored, beq_eq_false_iff_ne]
    omega
  obtain ⟨rt', cells', ran, infos', keys, ready⟩ := processCells_spec rowWise adapts keeps.cells infos
  refine ⟨rt', { ctl with
      cells := cells'
      storedOutputCnt := ctl.storedInputCnt
      storedInputCnt := 0
      outputIdx := 0 }, ?_, infos', ?_⟩
  · simp only [process, occupied, Bool.false_eq_true, ↓reduceIte, keeps.stored, ran]
    rfl
  · exact {
      keys := keys.trans keeps.keys
      cells := by simpa using ready
      other := by simpa using keeps.other
      otherIdx := keeps.otherIdx
      otherLength := keeps.otherLength
      storedOutput := by simpa using keeps.stored
      outputIdx := rfl
      nonneg := keeps.nonneg }

end Controller

end IMBridge.PythonUdf
