import Mathlib.Data.Rat.Defs
import IMBridge.PythonUdf.Store

/-!
The prediction operator `ObPythonUDFOp` with its cells (`ObPythonUDFCell`) and its controller
(`ObPUStoreController`). The Python interpreter, the evaluation of ordinary expressions and the
measured time are parameters (`Env`). Only the path with batch control is reachable in the source
and modelled here.
-/

namespace IMBridge.PythonUdf

open IMBridge.Engine BatchRows
open IMBridge.Lib

variable {V : Type}

/-- Where a UDF argument gets its value. `child` is an expression in the child's output, which
the child has projected before this operator runs. `calcExpr` is an expression in the operator's
own `calc_exprs_`, evaluated by `eval_vector` when the argument is stored. -/
inductive Source (V : Type) where
  | child (col : Nat)
  | const (value : V)
  | calcExpr (id : Nat)

structure Arg (V : Type) where
  source : Source V
  type : ObjType

/-- The numbers of `modify_desirable`: what an `int` keeps of a sum, left open where the sum
overflows, and the operations of `double`. Of these nothing is assumed but that 0 is equal to 0. -/
class Numbers (R : Type) extends Zero R, One R, Add R, Sub R, Mul R, LT R where
  int : Int → Int
  int_eq {z : Int} : -2147483648 ≤ z → z < 2147483648 → int z = z
  ofRat : Rat → R
  isZero : R → Bool
  isZero_zero : isZero 0 = true
  decidableLT : DecidableLT R

attribute [reducible, instance] Numbers.decidableLT

/-- Numbers without bounds and rounding. -/
instance instNumbersRat : Numbers Rat where
  toZero := ⟨0⟩
  toOne := ⟨1⟩
  int z := z
  int_eq _ _ := rfl
  ofRat q := q
  isZero q := decide (q = 0)
  isZero_zero := decide_eq_true rfl
  decidableLT := inferInstance

structure UdfInfo (R : Type := Rat) where
  predictSize : Int
  tpsS : R
  lambda : R
  alpha : R
  round : Int
  roundLimit : Int
  delta : Int

namespace UdfInfo

variable {R : Type} [Numbers R]

open Numbers

def fromRawExpr : UdfInfo R := ⟨256, 0, ofRat (1 / 10), ofRat (1 / 4), 0, 10, 256⟩

def modifyDesirable (info : UdfInfo R) (tps : R) (evalSize : Nat) : UdfInfo R :=
  if isZero info.tpsS then
    { info with tpsS := tps, predictSize := int R (info.predictSize + info.delta) }
  else if info.roundLimit < info.round ∨ (evalSize : Int) ≠ info.predictSize then info
  else if info.tpsS < tps then
    { info with
      round := if tps < (1 + info.lambda) * info.tpsS then int R (info.round + 1) else info.round
      tpsS := tps
      predictSize := int R (info.predictSize + info.delta) }
  else
    let tpsS := (1 - info.alpha) * info.tpsS + info.alpha * tps
    { info with
      tpsS := tpsS
      round := if (1 - info.lambda) * tpsS < tps then int R (info.round + 1) else info.round }

theorem modifyDesirable_delta (info : UdfInfo R) (tps : R) (evalSize : Nat) :
    (info.modifyDesirable tps evalSize).delta = info.delta := by
  unfold modifyDesirable
  split
  · rfl
  split
  · rfl
  · split <;> rfl

theorem modifyDesirable_predictSize (info : UdfInfo R) (tps : R) (evalSize : Nat) :
    (info.modifyDesirable tps evalSize).predictSize = info.predictSize ∨
      (info.modifyDesirable tps evalSize).predictSize = int R (info.predictSize + info.delta) := by
  unfold modifyDesirable
  split
  · exact .inr rfl
  split
  · exact .inl rfl
  split
  · exact .inr rfl
  · exact .inl rfl

end UdfInfo

/-- A physical plan node: the argument lists of its UDF expressions, and the child's output
expressions, which all pass through the operator. -/
structure Plan (V : Type) where
  udfExprs : List (List (Arg V))
  inputExprs : List Nat

/-- The surroundings of the operator: evaluation functions of its own expressions, the Python
function of each UDF expression on a batch of argument rows (`none` is a Python exception), and
the adaptation made after the `tick`-th Python call, whose outcome depends on measured time. -/
structure Env (V : Type) (R : Type := Rat) where
  evalExpr : Nat → (Nat → V) → V
  pyfun : Nat → List (List V) → Option (List V)
  modify : (tick : Nat) → UdfInfo R → (evalSize : Nat) → UdfInfo R

/-- The part of the evaluation context that the operator touches: the vectors of the child's
output, its own computed expressions, and the result vectors of the UDF expressions. -/
structure Frame (V : Type) where
  cols : Nat → Nat → V
  calcExprs : Nat → EvalInfo V
  udf : Nat → Nat → V

namespace Frame

def evalArg (env : Env V) (brs : BatchRows) (frame : Frame V) : Source V → Frame V
  | .calcExpr id =>
      { frame with
        calcExprs := Function.update frame.calcExprs id
          (EvalInfo.evalVector (fun j => env.evalExpr id (frame.cols · j)) brs (frame.calcExprs id)) }
  | .child _ | .const _ => frame

/-- The datum `save_batch` reads for row `j`; a constant is read at index 0. -/
def argDatum (frame : Frame V) : Source V → Nat → V
  | .child col, j => frame.cols col j
  | .const value, _ => value
  | .calcExpr id, j => (frame.calcExprs id).datums j

def clearEvaluatedFlag (frame : Frame V) : Frame V :=
  { frame with calcExprs := fun id => (frame.calcExprs id).clearEvaluatedFlag }

def writeCols (frame : Frame V) : List (Nat × List V) → Frame V
  | [] => frame
  | (col, vals) :: rest =>
      writeCols { frame with cols := Function.update frame.cols col (Buffer.write (frame.cols col) 0 vals) } rest

end Frame

/-- What survives in the plan and in the interpreter: the adaptation state of each UDF
expression, and the Python calls made so far. -/
structure Runtime (V : Type) (R : Type := Rat) where
  infos : Nat → UdfInfo R
  calls : List (Nat × List (List V))

structure Cell (V : Type) where
  expr : Nat
  args : List (Arg V)
  inputStore : PUInputStore V
  desirable : Int
  resultSize : Nat
  resultStore : Option (List V)

namespace Cell

variable [Inhabited V]

def init {R : Type} (infos : Nat → UdfInfo R) (expr : Nat) (args : List (Arg V)) (length : Int) :
    Except Err (Cell V) := do
  let inputStore ← PUInputStore.init (args.map Arg.type) length
  return ⟨expr, args, inputStore, (infos expr).predictSize, 0, none⟩

variable (cell : Cell V)

def free : Cell V :=
  { cell with inputStore := cell.inputStore.free, resultSize := 0, resultStore := none }

def reset (size : Int) : Except Err (Cell V) := do
  let inputStore ← cell.inputStore.reset size
  return { cell with inputStore := inputStore }

def argLoad (frame : Frame V) (i j : Nat) : V :=
  match cell.args[i]? with
  | some arg => frame.argDatum arg.source j
  | none => default

/-- `do_store`: evaluate every argument on the batch, then save the batch. -/
def doStore (env : Env V) (brs : BatchRows) (frame : Frame V) (cell : Cell V) :
    Except Err (Frame V × Cell V) := do
  let frame := cell.args.foldl (fun frame arg => frame.evalArg env brs arg.source) frame
  let inputStore ← cell.inputStore.saveBatch (cell.argLoad frame) brs
  return (frame, { cell with inputStore := inputStore })

def evalSize (idx saved : Nat) (predictSize : Int) : Int :=
  if (idx : Int) + predictSize < saved then predictSize else (saved : Int) - idx

theorem evalSize_spec {idx saved : Nat} {predictSize : Int} (inside : idx < saved) (pos : 0 < predictSize) :
    ¬evalSize idx saved predictSize < 0 ∧ 0 < (evalSize idx saved predictSize).toNat ∧
      idx + (evalSize idx saved predictSize).toNat ≤ saved := by
  unfold evalSize
  split <;> omega

def appendResult (result : List V) (count : Nat) : Cell V :=
  { cell with
    resultStore := some (cell.resultStore.getD [] ++ result)
    resultSize := cell.resultSize + count }

/-- The chunk loop of `do_process`, from row `idx` on. The fuel bounds the number of Python
calls; a loop that makes no progress uses it up. -/
def processLoop {R : Type} (env : Env V R) :
    Nat → Nat → Runtime V R → Cell V → Except Err (Runtime V R × Cell V)
  | 0, _, _, _ => .error .noTermination
  | fuel + 1, idx, rt, cell =>
      if idx < cell.inputStore.savedSize then
        let size := evalSize idx cell.inputStore.savedSize cell.desirable
        if size < 0 then .error .negativeDimension
        else
          let count := size.toNat
          let rows := cell.inputStore.argRows idx count
          match env.pyfun cell.expr rows with
          | none => .error .pythonError
          | some result =>
              let info := env.modify rt.calls.length (rt.infos cell.expr) count
              processLoop env fuel (idx + count)
                { infos := Function.update rt.infos cell.expr info
                  calls := rt.calls ++ [(cell.expr, rows)] }
                { cell.appendResult result count with desirable := info.predictSize }
      else .ok (rt, cell)

/-- `do_process`; one call per saved row is enough fuel for positive batch sizes. -/
def doProcess {R : Type} (env : Env V R) (rt : Runtime V R) (cell : Cell V) :
    Except Err (Runtime V R × Cell V) :=
  processLoop env (cell.inputStore.savedSize + 1) 0 rt
    { cell with resultStore := none, resultSize := 0 }

/-- `do_restore`: rows `outputIdx`, ... of the result go to the UDF's result vector. The check is
against `result_size_`, not against the length of the array that Python returned. -/
def doRestore (frame : Frame V) (outputIdx outputSize : Nat) (cell : Cell V) :
    Except Err (Frame V) :=
  let vals := ((cell.resultStore.getD []).drop outputIdx).take outputSize
  if cell.resultSize < outputIdx + outputSize then .error .resultStoreOverflow
  else if vals.length < outputSize then .error .readPastResult
  else
    .ok { frame with
      udf := Function.update frame.udf cell.expr (Buffer.write (frame.udf cell.expr) 0 vals) }

end Cell

structure Controller (V : Type) where
  cells : List (Cell V)
  otherStore : ColInputStore V
  capacity : Int
  desirable : Int
  storedInputCnt : Nat
  storedOutputCnt : Nat
  outputIdx : Nat

namespace Controller

variable [Inhabited V]

def new : Controller V := ⟨[], .empty, 8192, 0, 0, 0, 0⟩

def bufferMag : Int := 2

variable (ctl : Controller V)

def isFull : Bool := decide (ctl.desirable * (bufferMag - 1) < ctl.storedInputCnt)
def isEmpty : Bool := ctl.storedInputCnt == 0
def canOutput : Bool := decide (ctl.outputIdx < ctl.storedOutputCnt)
def endOutput : Bool := ctl.outputIdx == ctl.storedOutputCnt

/-- The side effect of `get_desirable`: `desirable_` becomes the maximum over the cells. -/
def getDesirable : Controller V :=
  { ctl with desirable := ctl.cells.foldl (fun desirable cell => max desirable cell.desirable) ctl.desirable }

/-- `init` builds one new cell per UDF expression and adds it to the list it finds. -/
def initCells (infos : Nat → UdfInfo) (length : Int) :
    List (List (Arg V) × Nat) → List (Cell V) → Except Err (List (Cell V))
  | [], cells => .ok cells
  | (args, expr) :: rest, cells => do
      let cell ← Cell.init infos expr args length
      initCells infos length rest (cells ++ [cell])

def init (infos : Nat → UdfInfo) (plan : Plan V) :
    Except Err (Controller V) := do
  let cells ← initCells infos ctl.capacity plan.udfExprs.zipIdx ctl.cells
  let otherStore ← ctl.otherStore.init plan.inputExprs ctl.capacity
  return { ctl with
    cells := cells, otherStore := otherStore, storedInputCnt := 0, storedOutputCnt := 0, outputIdx := 0 }

def free : Controller V :=
  { ctl with
    cells := ctl.cells.map Cell.free
    otherStore := ctl.otherStore.free
    storedInputCnt := 0
    storedOutputCnt := 0
    outputIdx := 0 }

def storeCells (env : Env V) (brs : BatchRows) :
    List (Cell V) → Frame V → Except Err (Frame V × List (Cell V))
  | [], frame => .ok (frame, [])
  | cell :: rest, frame => do
      let (frame, cell) ← cell.doStore env brs frame
      let (frame, rest) ← storeCells env brs rest frame
      return (frame, cell :: rest)

/-- `store`: all cells first, then the pass-through columns. -/
def store (env : Env V) (brs : BatchRows) (frame : Frame V) (ctl : Controller V) :
    Except Err (Frame V × Controller V) := do
  let (frame, cells) ← storeCells env brs ctl.cells frame
  let otherStore ← ctl.otherStore.saveVector frame.cols brs
  return (frame, { ctl with
    cells := cells
    otherStore := otherStore
    storedInputCnt := ctl.storedInputCnt + (brs.size - brs.accumulateBitCnt) })

def processCells (env : Env V) (storedInputCnt : Nat) :
    List (Cell V) → Runtime V → Except Err (Runtime V × List (Cell V))
  | [], rt => .ok (rt, [])
  | cell :: rest, rt => do
      if cell.inputStore.savedSize ≠ storedInputCnt then throw .unsavedRows
      let (rt, cell) ← cell.doProcess env rt
      if cell.resultSize ≠ storedInputCnt then throw .unprocessedRows
      let cell ← cell.reset 0
      let (rt, rest) ← processCells env storedInputCnt rest rt
      return (rt, cell :: rest)

def process (env : Env V) (rt : Runtime V) (ctl : Controller V) :
    Except Err (Runtime V × Controller V) :=
  if ctl.isEmpty then .ok (rt, ctl)
  else do
    let (rt, cells) ← processCells env ctl.storedInputCnt ctl.cells rt
    return (rt, { ctl with
      cells := cells, storedOutputCnt := ctl.storedInputCnt, storedInputCnt := 0, outputIdx := 0 })

def restoreCells (outputIdx outputSize : Nat) : List (Cell V) → Frame V → Except Err (Frame V)
  | [], frame => .ok frame
  | cell :: rest, frame => do
      let frame ← cell.doRestore frame outputIdx outputSize
      restoreCells outputIdx outputSize rest frame

/-- The bookkeeping at the end of `restore`: the column store is emptied with the last row. -/
def advanceOutput (otherStore : ColInputStore V) (outputSize : Nat) (ctl : Controller V) :
    Controller V :=
  let ctl := { ctl with otherStore := otherStore, outputIdx := ctl.outputIdx + outputSize }
  if ctl.endOutput then { ctl with otherStore := ctl.otherStore.reuse } else ctl

/-- `restore`: emit at most `maxRowCnt` of the processed rows, all active, with `end_` cleared. -/
def restore (maxRowCnt : Nat) (brs : BatchRows) (frame : Frame V) (ctl : Controller V) :
    Except Err (BatchRows × Frame V × Controller V) :=
  if ctl.storedOutputCnt = 0 ∨ ctl.canOutput = false then .ok (brs, frame, ctl)
  else do
    let outputSize := min maxRowCnt (ctl.storedOutputCnt - ctl.outputIdx)
    let frame ← restoreCells ctl.outputIdx outputSize ctl.cells frame
    let (columns, otherStore) ← ctl.otherStore.loadVector outputSize
    return (dense outputSize false, frame.writeCols columns,
      ctl.advanceOutput otherStore outputSize)

def resetCells (size : Int) : List (Cell V) → Except Err (List (Cell V))
  | [] => .ok []
  | cell :: rest => do
      let cell ← cell.reset size
      let rest ← resetCells size rest
      return cell :: rest

/-- `resize(size)`; the operator ignores its return code. -/
def resize (size : Int) (ctl : Controller V) : Controller V :=
  let ctl := { ctl with storedInputCnt := 0, storedOutputCnt := 0, outputIdx := 0 }
  match resetCells size ctl.cells with
  | .ok cells => { ctl with cells := cells, otherStore := ctl.otherStore.reset size }
  | .error _ => ctl

end Controller

structure Batch (V : Type) where
  size : Nat
  skip : Nat → Bool
  cols : Nat → Nat → V

/-- The batch descriptor of a data batch; only a size-0 batch carries `end_`. -/
def Batch.brs (batch : Batch V) : BatchRows := ⟨batch.size, batch.skip, false⟩

/-- `ObPythonUDFOp` together with the batches its child has still to deliver. -/
structure Op (V : Type) where
  controller : Controller V
  brs : BatchRows
  frame : Frame V
  runtime : Runtime V
  child : List (Batch V)

namespace Op

variable [Inhabited V]

def innerOpen (plan : Plan V) (infos : Nat → UdfInfo) (frame : Frame V) (child : List (Batch V)) :
    Except Err (Op V) := do
  let controller ← Controller.new.init infos plan
  return ⟨controller, dense 0 false, frame, ⟨infos, []⟩, child⟩

def storeBatch (env : Env V) (brs : BatchRows) (op : Op V) : Except Err (Op V) := do
  let (frame, controller) ← op.controller.store env brs op.frame
  return { op with controller := controller, brs := brs, frame := frame }

/-- The loop of `inner_get_next_batch` that fills the buffers from the child: it stops at the
end of the child or once more than `desirable_` rows are buffered. -/
def fill (env : Env V) : List (Batch V) → Op V → Except Err (Op V)
  | [], op =>
      if op.brs.end_ || op.controller.isFull then .ok { op with child := [] }
      else storeBatch env finished { op with child := [] }
  | batch :: rest, op =>
      if op.brs.end_ || op.controller.isFull then .ok { op with child := batch :: rest }
      else do
        let op ← storeBatch env batch.brs { op with frame := { op.frame with cols := batch.cols } }
        fill env rest op

/-- The refill part of `inner_get_next_batch`: the evaluated flags are cleared once, before the
loop. -/
def refill (env : Env V) (op : Op V) : Except Err (Op V) := do
  let controller := op.controller.getDesirable
  let controller := controller.resize (controller.desirable * Controller.bufferMag)
  let op ← fill env op.child { op with controller := controller, frame := op.frame.clearEvaluatedFlag }
  let (runtime, controller) ← op.controller.process env op.runtime
  return { op with controller := controller, runtime := runtime }

def innerGetNextBatch (env : Env V) (maxRowCnt : Nat) (op : Op V) : Except Err (Op V) := do
  let op ← if op.controller.canOutput then .ok op else refill env op
  let (brs, frame, controller) ← op.controller.restore maxRowCnt op.brs op.frame
  return { op with brs := brs, frame := frame, controller := controller }

def innerRescan (plan : Plan V) (child : List (Batch V)) (op : Op V) : Except Err (Op V) := do
  let controller ← op.controller.free.init op.runtime.infos plan
  return { op with
    controller := controller, brs := dense 0 false, child := child }

/-- The rows the operator has just emitted: for every active position the results of all UDF
expressions and the values of all pass-through columns. -/
def emitted (plan : Plan V) (op : Op V) : List (List V × List V) :=
  op.brs.active.map (fun j =>
    ((List.range plan.udfExprs.length).map (fun expr => op.frame.udf expr j),
      plan.inputExprs.map (fun col => op.frame.cols col j)))

def calls (env : Env V) (plan : Plan V) (maxRowCnt : Nat → Nat) :
    Nat → Op V → Except Err (List (List (List V × List V)) × Op V)
  | 0, op => .ok ([], op)
  | count + 1, op => do
      let (batches, op) ← calls env plan maxRowCnt count op
      let op ← innerGetNextBatch env (maxRowCnt count) { op with brs := op.brs.reset }
      return (batches ++ [op.emitted plan], op)

end Op

end IMBridge.PythonUdf
