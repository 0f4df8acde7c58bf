import IMBridge.Sql.LimitMerge
import IMBridge.Sql.Stmt

/-!
`ObTransformQueryPushDown`: a query over a single generated table is folded into the view. Views
that are set operations are outside the model; so are subqueries in the select list of a view.
-/

namespace IMBridge.Sql

namespace Clauses

section Predicates

variable {E : Type} (clauses : Clauses E)

def isSetStmt : Bool := clauses.setOp != .none

def hasLimit : Bool :=
  clauses.limitCountExpr.isSome || clauses.limitOffsetExpr.isSome || clauses.limitPercentExpr.isSome

def hasGroupBy : Bool :=
  !clauses.groupExprs.isEmpty || !clauses.rollupExprs.isEmpty || !clauses.aggItems.isEmpty ||
    !clauses.groupingSetsItems.isEmpty || !clauses.rollupItems.isEmpty || !clauses.cubeItems.isEmpty

def isScalaGroupBy : Bool :=
  clauses.groupExprs.isEmpty && clauses.rollupExprs.isEmpty && clauses.groupingSetsItems.isEmpty &&
    clauses.rollupItems.isEmpty && clauses.cubeItems.isEmpty && !clauses.aggItems.isEmpty

def hasRollup : Bool := !clauses.rollupExprs.isEmpty || !clauses.rollupItems.isEmpty

def hasOrderBy : Bool := !clauses.orderItems.isEmpty

def hasSequence : Bool := !clauses.nextvalSequenceIds.isEmpty || !clauses.currvalSequenceIds.isEmpty

def hasWindowFunction : Bool := !clauses.winFuncExprs.isEmpty

def hasPythonUdf : Bool := !clauses.pythonUdfExprs.isEmpty

def isValuesTableQuery : Bool :=
  match clauses.tableItems with
  | [item] => item.isValuesTable
  | _ => false

end Predicates

def hasPseudoColumn (kind : Special) (clauses : Clauses Expr) : Bool :=
  clauses.pseudoColumnLikeExprs.any fun
    | .special other _ => decide (other = kind)
    | _ => false

/-- `is_spj`: select, project and join only. Python UDFs are not asked for. -/
def isSpj (clauses : Clauses Expr) : Bool :=
  !(clauses.isDistinct || clauses.hasGroupBy || clauses.isSetStmt || clauses.hasRollup ||
    clauses.hasOrderBy || clauses.hasLimit || !clauses.aggItems.isEmpty || clauses.fromItems.isEmpty ||
    clauses.isContainsAssignment || clauses.hasWindowFunction || clauses.hasSequence ||
    clauses.isHierarchicalQuery) && !clauses.hasPseudoColumn .rownum

end Clauses

namespace QueryPushDown

structure SelectItemScan where
  isSame : Bool
  isSameExactly : Bool
  columnIds : List Nat
  position : Nat

/-- One round of the loop: a constant, or a column that was not selected before. -/
def SelectItemScan.step (scan : SelectItemScan) (item : Expr) : SelectItemScan :=
  if item.isConst then { scan with isSameExactly := false, position := scan.position + 1 }
  else
    match item with
    | .column _ columnId =>
        let fresh := !scan.columnIds.contains columnId
        { isSame := scan.isSame && fresh
          isSameExactly := scan.isSameExactly && fresh && columnId == scan.position
          columnIds := scan.columnIds ++ [columnId]
          position := scan.position + 1 }
    | _ => { scan with isSame := false, position := scan.position + 1 }

/-- `is_select_item_same`: whether the outer select list is that of the view up to order and
constants, and whether it is exactly that list. -/
def isSelectItemSame (select view : Clauses Expr) : Bool × Bool :=
  if select.selectItems.length < view.selectItems.length then (false, false)
  else
    let scan := select.selectItems.foldl SelectItemScan.step ⟨true, true, [], 0⟩
    let isSame := scan.isSame && (scan.columnIds.length == view.selectItems.length ||
        select.selectItems.all Expr.isConst && view.selectItems.all Expr.isConst)
    (isSame, isSame && scan.isSameExactly)

def checkRownumPushDown (select view : Clauses Expr) : Bool := !select.hasPseudoColumn .rownum &&
    !(view.hasPseudoColumn .rownum &&
      (!select.conditionExprs.isEmpty || select.hasGroupBy || select.hasRollup ||
        select.hasWindowFunction || select.hasPythonUdf || select.isSetStmt || select.hasOrderBy))

/-- `check_expr_valid_for_stmt_merge`: an expression with a column is accepted as it is. -/
def checkExprValidForStmtMerge (selectExprs : List Expr) : Bool :=
  selectExprs.all fun e => e.isConst || !e.columns.isEmpty || !e.containsSpecial .stateFunc

def checkSelectItemPushDown (select view : Clauses Expr) : Bool :=
  let (isSame, isSameExactly) := isSelectItemSame select view
  let canBe :=
    if view.selectItems.any (Expr.containsSpecial .subquery) then false
    else if view.isContainsAssignment || select.isContainsAssignment then false
    else if !checkExprValidForStmtMerge view.selectItems then false
    else if isSame && !view.isRecursiveCte then true
    else !(view.isScalaGroupBy || view.isDistinct || view.hasPythonUdf ||
      (view.isRecursiveCte && (!isSame || !isSameExactly)) || (view.isSetStmt && !view.isRecursiveCte))
  canBe && (!select.hasRollup ||
    view.selectItems.all fun e => !e.isConst && !e.containsSpecial .subquery)

/-- `check_where_condition_push_down`: whether the conditions can be pushed down, and whether
they become HAVING conditions. -/
def checkWhereConditionPushDown (select view : Clauses Expr) : Option Bool :=
  if view.isSetStmt || view.hasLimit || view.hasWindowFunction || view.hasPythonUdf then none
  else if view.isContainsAssignment then none
  else if view.hasGroupBy || view.hasRollup then
    if select.conditionExprs.any (Expr.containsSpecial .subquery) then none else some true
  else some false

def checkWindowFunctionPushDown {E : Type} (view : Clauses E) : Bool :=
  !(view.hasWindowFunction || view.hasPythonUdf || view.isDistinct || view.isSetStmt ||
    view.hasOrderBy || view.hasLimit || view.isContainsAssignment)

def canLimitMerge {E : Type} (upper view : Clauses E) : Bool := !view.hasLimit ||
    (upper.limitPercentExpr.isNone && view.limitPercentExpr.isNone && !upper.isFetchWithTies &&
      !view.isFetchWithTies)

/-- The tests of `check_transform_validity` before the WHERE conditions (1 to 4). -/
def checkStmtKinds (select view : Clauses Expr) : Bool :=
  !(select.isRecursiveCte || view.isHierarchicalQuery || (view.isRecursiveCte && !select.isSpj) ||
      select.isSetStmt || (select.hasSequence && !view.isSpj) || view.hasPseudoColumn .oraRowscn ||
      view.isValuesTableQuery) &&
    checkRownumPushDown select view && checkSelectItemPushDown select view

/-- The tests of `check_transform_validity` after the WHERE conditions (6 to 10). -/
def checkOtherClauses (select view : Clauses Expr) : Bool :=
  !((select.hasGroupBy || select.hasRollup) && !view.isSpj) &&
    !(select.hasWindowFunction && !checkWindowFunctionPushDown view) &&
    !(select.isDistinct && view.hasLimit) &&
    !(select.hasOrderBy && view.hasLimit) &&
    !(select.hasLimit &&
      (select.isCalcFoundRows || view.isContainsAssignment || !canLimitMerge select view))

/-- `check_transform_validity`: `none` if the rewrite is refused, otherwise whether the outer
conditions become HAVING conditions. -/
def checkTransformValidity (select view : Clauses Expr) : Option Bool :=
  if checkStmtKinds select view then
    let conditions :=
      if select.conditionExprs.isEmpty then some false else checkWhereConditionPushDown select view
    conditions.filter fun _ => checkOtherClauses select view
  else none

inductive Err where
  | invalidArrayPos
  | cannotMergeLimit

def convertColumnExprToSelectExpr (selectItems : List Expr) :
    List (ColumnItem Expr) → Except Err (List (Nat × Expr))
  | [] => .ok []
  | item :: rest =>
      match selectItems[item.columnId]? with
      | none => .error .invalidArrayPos
      | some e => do
          let rules ← convertColumnExprToSelectExpr selectItems rest
          return (item.columnId, e) :: rules

def columnRule (viewTableId : Nat) (rules : List (Nat × Expr)) (tableId columnId : Nat) : Option Expr :=
  if tableId = viewTableId then rules.lookup columnId else none

/-- `replace_relation_exprs` on the containers that the push-down reads. Expressions are replaced
in place, so the dictionaries of aggregates, window functions and UDFs see the change. -/
def replaceRelationExprs (f : Expr → Expr) (clauses : Clauses Expr) : Clauses Expr := { clauses with
    conditionExprs := clauses.conditionExprs.map f
    orderItems := clauses.orderItems.map f
    limitCountExpr := clauses.limitCountExpr.map f
    limitOffsetExpr := clauses.limitOffsetExpr.map f
    limitPercentExpr := clauses.limitPercentExpr.map f
    selectItems := clauses.selectItems.map f
    groupExprs := clauses.groupExprs.map f
    rollupExprs := clauses.rollupExprs.map f
    havingExprs := clauses.havingExprs.map f
    aggItems := clauses.aggItems.map f
    winFuncExprs := clauses.winFuncExprs.map f
    pythonUdfExprs := clauses.pythonUdfExprs.map f
    qualifyFilters := clauses.qualifyFilters.map f
    intoItem := clauses.intoItem.map (List.map f) }

def replaceStmtExprs (select view : Clauses Expr) (viewTableId : Nat) :
    Except Err (Clauses Expr) := do
  let columns := select.columnItems.filter (fun item => item.tableId == viewTableId)
  let rules ← convertColumnExprToSelectExpr view.selectItems columns
  return replaceRelationExprs (Expr.replace (columnRule viewTableId rules)) select

variable (interp : Interp)

/-- `do_limit_merge`; `interp` holds the parameter values known at compile time. -/
def doLimitMerge (upper view : Clauses Expr) : Except Err (Clauses Expr) :=
  if !upper.hasLimit then .ok view
  else if !canLimitMerge upper view then .error .cannotMergeLimit
  else if !view.hasLimit then
    .ok { view with
      limitCountExpr := upper.limitCountExpr
      limitOffsetExpr := upper.limitOffsetExpr
      limitPercentExpr := upper.limitPercentExpr
      isFetchWithTies := upper.isFetchWithTies
      hasFetch := upper.hasFetch }
  else
    let merged := mergeLimitOffset interp view.limitCountExpr upper.limitCountExpr
      view.limitOffsetExpr upper.limitOffsetExpr
    .ok { view with limitCountExpr := merged.1, limitOffsetExpr := merged.2.1 }

variable (select view : Clauses Expr)

def appendStmtExprs (transformHaving : Bool) : Clauses Expr :=
  { view with
    conditionExprs := view.conditionExprs ++ if transformHaving then [] else select.conditionExprs
    havingExprs := view.havingExprs ++ (if transformHaving then select.conditionExprs else []) ++
      select.havingExprs
    groupExprs := view.groupExprs ++ select.groupExprs
    rollupExprs := view.rollupExprs ++ select.rollupExprs
    aggItems := view.aggItems ++ select.aggItems
    winFuncExprs := view.winFuncExprs ++ select.winFuncExprs
    qualifyFilters := view.qualifyFilters ++ select.qualifyFilters
    pythonUdfExprs := view.pythonUdfExprs ++ select.pythonUdfExprs
    isFromPivot := view.isFromPivot || select.isFromPivot
    isDistinct := view.isDistinct || select.isDistinct
    intoItem := if select.intoItem.isSome then select.intoItem else view.intoItem
    orderItems := if select.hasOrderBy then select.orderItems else view.orderItems }

def pushDownStmtExprs (transformHaving : Bool) :
    Except Err (Clauses Expr) := do
  let view ← doLimitMerge interp select (appendStmtExprs select view transformHaving)
  return { view with
    nextvalSequenceIds := view.nextvalSequenceIds ++ select.nextvalSequenceIds
    currvalSequenceIds := view.currvalSequenceIds ++ select.currvalSequenceIds
    selectItems := select.selectItems
    subqueryExprs := view.subqueryExprs ++ select.subqueryExprs }

def doTransform (viewTableId : Nat)
    (transformHaving : Bool) : Except Err (Clauses Expr) := do
  let select ← replaceStmtExprs select view viewTableId
  pushDownStmtExprs interp select view transformHaving

end QueryPushDown

end IMBridge.Sql
