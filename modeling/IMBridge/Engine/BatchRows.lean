import Mathlib.Data.List.Basic

/-!
Batches of the vectorised engine: the row descriptor `ObBatchRows`, and the evaluation state of an
expression, with `ObExpr::eval_vector` deciding which rows are still to be computed.
-/

namespace IMBridge.Engine

open List
/-- `ObBatchRows`: row count, bitmap of the rows to ignore, and the end-of-iteration flag. -/
structure BatchRows where
  size : Nat
  skip : Nat → Bool
  end_ : Bool

namespace BatchRows

variable (brs : BatchRows)

def accumulateBitCnt : Nat := (range brs.size).countP brs.skip

def active : List Nat := (range brs.size).filter (fun j => !brs.skip j)

theorem mem_active {brs : BatchRows} {j : Nat} : j ∈ brs.active ↔ j < brs.size ∧ brs.skip j = false := by
  simp [active]

/-- The count every store computes, `size_ - accumulate_bit_cnt(size_)`, is the number of
active rows. -/
theorem size_sub_accumulateBitCnt : brs.size - brs.accumulateBitCnt = brs.active.length := by
  have split := length_eq_countP_add_countP brs.skip (l := range brs.size)
  have kept : brs.active.length = (range brs.size).countP (fun j => !brs.skip j) := by
    simp [active, countP_eq_length_filter]
  simp only [length_range] at split
  simp only [accumulateBitCnt, kept]
  grind

def dense (size : Nat) (end_ : Bool) : BatchRows := ⟨size, fun _ => false, end_⟩

@[simp] theorem active_dense (size : Nat) (end_ : Bool) : (dense size end_).active = range size := by
  simp [active, dense]

def finished : BatchRows := dense 0 true

@[simp] theorem active_finished : finished.active = [] := by
  simp [finished]

/-- `ObOperator::reset_batchrows`, run before each call of the operator: `end_` stays. -/
def reset : BatchRows :=
  if 0 < brs.size then dense 0 brs.end_ else brs

@[simp] theorem reset_end : brs.reset.end_ = brs.end_ := by
  unfold reset
  split <;> rfl

end BatchRows

/-- State of an expression that the operator computes itself: `ObEvalInfo::evaluated_`, the
per-row evaluated flags and the result datums. -/
structure EvalInfo (V : Type) where
  evaluated : Bool
  flags : Nat → Bool
  datums : Nat → V

namespace EvalInfo

variable {V : Type}

/-- `ObEvalInfo::clear_evaluated_flag`: the row flags are left as they are. -/
def clearEvaluatedFlag (info : EvalInfo V) : EvalInfo V := { info with evaluated := false }

def wordCount (size : Nat) : Nat := (size + 63) / 64

theorem le_wordCount (size : Nat) : size ≤ wordCount size * 64 := by
  unfold wordCount
  omega

variable (f : Nat → V) (brs : BatchRows) (info : EvalInfo V)

/-- The evaluation function of the expression: it computes the rows that are neither skipped
nor flagged as evaluated, and flags them. -/
def evalRows : EvalInfo V where
  evaluated := true
  flags := fun j => info.flags j || (decide (j < brs.size) && !brs.skip j)
  datums := fun j =>
    if j < brs.size ∧ brs.skip j = false ∧ info.flags j = false then f j else info.datums j

def needEvaluate : Bool := (range brs.size).any (fun j => !(brs.skip j || info.flags j))

/-- `ObExpr::eval_vector` of an expression with an evaluation function. Only an expression
whose `evaluated_` bit is clear has its row flags reset, in whole words; otherwise the flags
left by an earlier batch decide which rows are computed. -/
def evalVector : EvalInfo V :=
  if info.evaluated = false then
    evalRows f brs { info with
        evaluated := true
        flags := fun j => if j < wordCount brs.size * 64 then false else info.flags j }
  else if needEvaluate brs info then evalRows f brs info
  else info

theorem needEvaluate_eq_false {brs : BatchRows} {info : EvalInfo V} :
    needEvaluate brs info = false ↔ ∀ j ∈ brs.active, info.flags j = true := by
  simp only [needEvaluate, any_eq_false, mem_range, BatchRows.mem_active]
  simp

@[simp] theorem evalVector_evaluated : (evalVector f brs info).evaluated = true := by
  unfold evalVector
  split
  · rfl
  split
  · rfl
  · simp_all

theorem evalVector_flags {j : Nat} (member : j ∈ brs.active) : (evalVector f brs info).flags j = true := by
  have inside := BatchRows.mem_active.mp member
  unfold evalVector
  split
  · simp [evalRows, inside]
  split
  · simp [evalRows, inside]
  rename_i idle
  exact needEvaluate_eq_false.mp (by simpa using idle) j member

theorem evalVector_datums_of_clear (clear : info.evaluated = false) {j : Nat}
    (member : j ∈ brs.active) : (evalVector f brs info).datums j = f j := by
  have inside := BatchRows.mem_active.mp member
  have word : j < wordCount brs.size * 64 := Nat.lt_of_lt_of_le inside.1 (le_wordCount brs.size)
  simp only [evalVector, clear, evalRows, inside, word, ↓reduceIte, and_self]

/-- A row whose flag is left over from an earlier batch keeps the earlier batch's value. -/
theorem evalVector_datums_of_flag (evaluated : info.evaluated = true) {j : Nat}
    (flag : info.flags j = true) : (evalVector f brs info).datums j = info.datums j := by
  unfold evalVector
  simp only [evaluated, Bool.true_eq_false, ↓reduceIte]
  split
  · simp [evalRows, flag]
  · rfl

theorem evalVector_idem : evalVector f brs (evalVector f brs info) = evalVector f brs info := by
  have idle : needEvaluate brs (evalVector f brs info) = false :=
    needEvaluate_eq_false.mpr (fun _ member => evalVector_flags f brs info member)
  rw [evalVector.eq_def f brs (evalVector f brs info)]
  simp [idle]

end EvalInfo

end IMBridge.Engine
