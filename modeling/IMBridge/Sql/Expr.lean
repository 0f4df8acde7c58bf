import Mathlib.Data.List.Basic

/-!
Scalar expressions as trees, with their evaluation on a row. Python UDFs and other functions are
interpreted by arbitrary functions of their argument values. `special` stands for the expressions
whose value is not a function of the row.
-/

namespace IMBridge.Sql

inductive Value where
  | null
  | int (n : Int)
  | bytes (content : List UInt8)
deriving DecidableEq

/-- A WHERE conjunct accepts a row if its value is true, neither false nor NULL. -/
def Value.isTrue : Value → Bool
  | .int n => n != 0
  | _ => false

def Value.ofBool (b : Bool) : Value := .int (if b then 1 else 0)

inductive Op where
  | add | minus | ge | le | and
  | function (id : Nat)
deriving DecidableEq

inductive Special where
  | rownum | oraRowscn | stateFunc | subquery
deriving DecidableEq

inductive Expr where
  | const (value : Value)
  | param (index : Nat)
  | column (tableId columnId : Nat)
  | op (op : Op) (args : List Expr)
  | pythonUdf (udf : Nat) (args : List Expr)
  | special (kind : Special) (args : List Expr)

/-- What the symbols of an expression stand for. `param` holds the values of the parameterised
literals of a plan. -/
structure Interp where
  param : Nat → Value
  function : Nat → List Value → Value
  pythonUdf : Nat → List Value → Value

def Op.apply (interp : Interp) : Op → List Value → Value
  | .add, [.int a, .int b] => .int (a + b)
  | .minus, [.int a, .int b] => .int (a - b)
  | .ge, [.int a, .int b] => .ofBool (decide (b ≤ a))
  | .le, [.int a, .int b] => .ofBool (decide (a ≤ b))
  | .and, args => .ofBool (args.all Value.isTrue)
  | .function id, args => interp.function id args
  | _, _ => .null

namespace Expr

mutual

def eval (interp : Interp) (row : Nat → Nat → Value) : Expr → Value
  | .const value => value
  | .param index => interp.param index
  | .column tableId columnId => row tableId columnId
  | .op f args => f.apply interp (evalList interp row args)
  | .pythonUdf udf args => interp.pythonUdf udf (evalList interp row args)
  | .special _ _ => .null

def evalList (interp : Interp) (row : Nat → Nat → Value) : List Expr → List Value
  | [] => []
  | arg :: rest => eval interp row arg :: evalList interp row rest

end

mutual

def replace (rule : Nat → Nat → Option Expr) : Expr → Expr
  | .const value => .const value
  | .param index => .param index
  | .column tableId columnId => (rule tableId columnId).getD (.column tableId columnId)
  | .op f args => .op f (replaceList rule args)
  | .pythonUdf udf args => .pythonUdf udf (replaceList rule args)
  | .special kind args => .special kind (replaceList rule args)

def replaceList (rule : Nat → Nat → Option Expr) : List Expr → List Expr
  | [] => []
  | arg :: rest => replace rule arg :: replaceList rule rest

end

mutual

/-- A replaced expression has the value of the original one on the row that `rule` describes. -/
theorem eval_replace (interp : Interp) (row : Nat → Nat → Value) (rule : Nat → Nat → Option Expr) :
    (e : Expr) → (e.replace rule).eval interp row = e.eval interp (fun tableId columnId =>
        ((rule tableId columnId).getD (.column tableId columnId)).eval interp row)
  | .const _ | .param _ | .special _ _ => rfl
  | .column _ _ => rfl
  | .op f args => by
    rw [replace, eval, eval, evalList_replaceList interp row rule args]
  | .pythonUdf udf args => by
    rw [replace, eval, eval, evalList_replaceList interp row rule args]

theorem evalList_replaceList (interp : Interp) (row : Nat → Nat → Value) (rule : Nat → Nat → Option Expr) :
    (args : List Expr) → evalList interp row (replaceList rule args) = evalList interp (fun tableId columnId =>
        ((rule tableId columnId).getD (.column tableId columnId)).eval interp row) args
  | [] => rfl
  | arg :: rest => by
    rw [replaceList, evalList, evalList, eval_replace interp row rule arg, evalList_replaceList interp row rule rest]

end

mutual

def columns : Expr → List (Nat × Nat)
  | .column tableId columnId => [(tableId, columnId)]
  | .op _ args | .pythonUdf _ args | .special _ args => columnsList args
  | .const _ | .param _ => []

def columnsList : List Expr → List (Nat × Nat)
  | [] => []
  | arg :: rest => columns arg ++ columnsList rest

end

mutual

theorem eval_congr (interp : Interp) {row row' : Nat → Nat → Value} :
    (e : Expr) → (∀ col ∈ e.columns, row col.1 col.2 = row' col.1 col.2) → e.eval interp row = e.eval interp row'
  | .const _, _ | .param _, _ | .special _ _, _ => rfl
  | .column tableId columnId, same => same (tableId, columnId) (List.mem_singleton_self _)
  | .op f args, same => by
    rw [eval, eval, evalList_congr interp args same]
  | .pythonUdf udf args, same => by
    rw [eval, eval, evalList_congr interp args same]

theorem evalList_congr (interp : Interp) {row row' : Nat → Nat → Value} :
    (args : List Expr) → (∀ col ∈ columnsList args, row col.1 col.2 = row' col.1 col.2) →
      evalList interp row args = evalList interp row' args
  | [], _ => rfl
  | arg :: rest, same => by
    have head := eval_congr interp arg fun col member => same col (List.mem_append_left _ member)
    have tail := evalList_congr interp rest fun col member => same col (List.mem_append_right _ member)
    rw [evalList, evalList, head, tail]

end

mutual

def containsSpecial (kind : Special) : Expr → Bool
  | .special other args => decide (other = kind) || containsSpecialList kind args
  | .op _ args | .pythonUdf _ args => containsSpecialList kind args
  | .const _ | .param _ | .column _ _ => false

def containsSpecialList (kind : Special) : List Expr → Bool
  | [] => false
  | arg :: rest => containsSpecial kind arg || containsSpecialList kind rest

end

mutual

/-- `is_const_expr`; a Python UDF is never constant, whatever its arguments. -/
def isConst : Expr → Bool
  | .const _ | .param _ => true
  | .op _ args => isConstList args
  | .column _ _ | .pythonUdf _ _ | .special _ _ => false

def isConstList : List Expr → Bool
  | [] => true
  | arg :: rest => isConst arg && isConstList rest

end

mutual

theorem replace_of_isConst (rule : Nat → Nat → Option Expr) : (e : Expr) → e.isConst = true → e.replace rule = e
  | .const _, _ | .param _, _ => rfl
  | .op f args, constant => by
    rw [replace, replaceList_of_isConst rule args constant]

theorem replaceList_of_isConst (rule : Nat → Nat → Option Expr) :
    (args : List Expr) → isConstList args = true → replaceList rule args = args
  | [], _ => rfl
  | arg :: rest, constant => by
    obtain ⟨head, tail⟩ := Bool.and_eq_true_iff.1 constant
    rw [replaceList, replace_of_isConst rule arg head, replaceList_of_isConst rule rest tail]

end

end Expr

end IMBridge.Sql
