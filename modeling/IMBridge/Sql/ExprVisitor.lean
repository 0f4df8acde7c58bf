import IMBridge.Lib.TermGraph
import IMBridge.Sql.Stmt

/-!
Visitors over the expressions of a statement (`iterate_stmt_expr`) and the visitor that replaces
expressions (`ObStmtExprReplacer` with `ObRawExprReplacer`), which overwrites the parameters of
shared expression objects in place.
-/

namespace IMBridge.Sql

open Lib.TermGraph

abbrev ExprPtr := Nat

inductive ExprClass where
  | const | queryRef | columnRef | operator | caseOperator | aggr | sysFunc | window | pseudoColumn
  | aliasRef | udf | var | opPseudoColumn | setOp | execParam | pythonUdf
deriving DecidableEq

abbrev ExprHeap := ExprPtr → Node ExprPtr ExprClass

inductive Scope where
  | basicTable | from | joinedTable | semiInfo | where | groupby | having | select | selectInto
  | orderby | limit | startWith | connectBy | pivot | dictFields | qualifyFilter
deriving DecidableEq

namespace Visitor

inductive Err where
  | exprClassChanged

end Visitor

abbrev VisitM := StateT ExprHeap (Except Visitor.Err)

structure Visitor where
  isRequired : Scope → Bool
  isRecursive : Bool
  doVisit : ExprPtr → VisitM ExprPtr

namespace Visitor

/-- `visit`. A container of a subclass of `ObRawExpr` (`typed`) admits no expression of another
class. -/
def visit (visitor : Visitor) (typed : Bool) (scope : Scope) (expr : ExprPtr) : VisitM ExprPtr :=
  if visitor.isRequired scope then do
    let visited ← visitor.doVisit expr
    let heap ← get
    if typed && (heap expr).cls != (heap visited).cls then throw .exprClassChanged
    return visited
  else return expr

def visitOption (visitor : Visitor) (scope : Scope) : Option ExprPtr → VisitM (Option ExprPtr)
  | none => return none
  | some expr => return some (← visitor.visit false scope expr)

def visitEach {α : Type} (f : α → VisitM α) : List α → VisitM (List α)
  | [] => return []
  | x :: rest => return (← f x) :: (← visitEach f rest)

def visitList (visitor : Visitor) (scope : Scope) : List ExprPtr → VisitM (List ExprPtr) :=
  visitEach (visitor.visit false scope)

/-- The containers of aggregates, window functions and Python UDFs. -/
def visitTypedList (visitor : Visitor) (scope : Scope) : List ExprPtr → VisitM (List ExprPtr) :=
  visitEach (visitor.visit true scope)

def iteratePartExprItem (visitor : Visitor) (item : PartExprItem ExprPtr) :
    VisitM (PartExprItem ExprPtr) :=
  return { partExpr := ← visitor.visitOption .basicTable item.partExpr
           subpartExpr := ← visitor.visitOption .basicTable item.subpartExpr }

def iterateColumnItem (visitor : Visitor) (item : ColumnItem ExprPtr) :
    VisitM (ColumnItem ExprPtr) :=
  return { item with
    expr := ← visitor.visit true .basicTable item.expr
    dependantExpr := ← visitor.visitOption .basicTable item.dependantExpr
    defaultValueExpr := ← visitor.visitOption .basicTable item.defaultValueExpr }

def iterateTableItem (visitor : Visitor) (item : TableItem ExprPtr) : VisitM (TableItem ExprPtr) :=
  return { item with
    functionTableExpr := ← visitor.visitOption .from item.functionTableExpr
    flashbackQueryExpr := ← visitor.visitOption .from item.flashbackQueryExpr
    jsonTableDocExpr := ← visitor.visitOption .from item.jsonTableDocExpr
    tableValues := ← visitor.visitList .from item.tableValues }

def iterateJoinedTableExpr (visitor : Visitor) : JoinedTable ExprPtr → VisitM (JoinedTable ExprPtr)
  | .table tableId => return .table tableId
  | .joined joinConditions leftTable rightTable => do
      let joinConditions ← visitor.visitList .joinedTable joinConditions
      let leftTable ← visitor.iterateJoinedTableExpr leftTable
      let rightTable ← visitor.iterateJoinedTableExpr rightTable
      return .joined joinConditions leftTable rightTable

def iterateGroupItems (visitor : Visitor) : List (List ExprPtr) → VisitM (List (List ExprPtr)) :=
  visitEach (visitor.visitList .groupby)

def iterateRollupItems (visitor : Visitor) :
    List (List (List ExprPtr)) → VisitM (List (List (List ExprPtr))) :=
  visitEach visitor.iterateGroupItems

def iterateGroupingSetsItem (visitor : Visitor) (item : GroupingSetsItem ExprPtr) :
    VisitM (GroupingSetsItem ExprPtr) :=
  return { groupingSetsExprs := ← visitor.iterateGroupItems item.groupingSetsExprs
           rollupItems := ← visitor.iterateRollupItems item.rollupItems
           cubeItems := ← visitor.iterateRollupItems item.cubeItems }

def visitOptionWith {α : Type} (f : α → VisitM α) : Option α → VisitM (Option α)
  | none => return none
  | some x => return some (← f x)

/-- `ObDMLStmt::iterate_stmt_expr` up to the child statements. -/
def iterateDMLExpr (visitor : Visitor) (clauses : Clauses ExprPtr) : VisitM (Clauses ExprPtr) := do
  let partExprItems ← visitEach visitor.iteratePartExprItem clauses.partExprItems
  let checkConstraintItems ← visitEach (visitor.visitList .basicTable) clauses.checkConstraintItems
  let columnItems ← visitEach visitor.iterateColumnItem clauses.columnItems
  let tableItems ← visitEach visitor.iterateTableItem clauses.tableItems
  let joinedTables ← visitEach visitor.iterateJoinedTableExpr clauses.joinedTables
  let semiInfos ← visitEach (visitor.visitList .semiInfo) clauses.semiInfos
  let orderItems ← visitor.visitList .orderby clauses.orderItems
  let conditionExprs ← visitor.visitList .where clauses.conditionExprs
  let limitCountExpr ← visitor.visitOption .limit clauses.limitCountExpr
  let limitOffsetExpr ← visitor.visitOption .limit clauses.limitOffsetExpr
  let limitPercentExpr ← visitor.visitOption .limit clauses.limitPercentExpr
  let transposeItem ← visitOptionWith (visitEach (visitor.visitList .pivot)) clauses.transposeItem
  return { clauses with
    partExprItems := partExprItems
    checkConstraintItems := checkConstraintItems
    columnItems := columnItems
    tableItems := tableItems
    joinedTables := joinedTables
    semiInfos := semiInfos
    orderItems := orderItems
    conditionExprs := conditionExprs
    limitCountExpr := limitCountExpr
    limitOffsetExpr := limitOffsetExpr
    limitPercentExpr := limitPercentExpr
    transposeItem := transposeItem }

def iterateSelectExpr (visitor : Visitor) (clauses : Clauses ExprPtr) : VisitM (Clauses ExprPtr) := do
  let selectItems ← visitor.visitList .select clauses.selectItems
  let groupExprs ← visitor.visitList .groupby clauses.groupExprs
  let rollupExprs ← visitor.visitList .groupby clauses.rollupExprs
  let havingExprs ← visitor.visitList .having clauses.havingExprs
  let aggItems ← visitor.visitTypedList .dictFields clauses.aggItems
  let rollupItems ← visitor.iterateRollupItems clauses.rollupItems
  let cubeItems ← visitor.iterateRollupItems clauses.cubeItems
  let groupingSetsItems ← visitEach visitor.iterateGroupingSetsItem clauses.groupingSetsItems
  let winFuncExprs ← visitor.visitTypedList .dictFields clauses.winFuncExprs
  let pythonUdfExprs ← visitor.visitTypedList .dictFields clauses.pythonUdfExprs
  let cteExprs ← visitor.visitList .dictFields clauses.cteExprs
  let startWithExprs ← visitor.visitList .startWith clauses.startWithExprs
  let connectByExprs ← visitor.visitList .connectBy clauses.connectByExprs
  let connectByPriorExprs ← visitor.visitList .dictFields clauses.connectByPriorExprs
  let searchByItems ← visitor.visitList .dictFields clauses.searchByItems
  let qualifyFilters ← visitor.visitList .qualifyFilter clauses.qualifyFilters
  let intoItem ← visitOptionWith (visitor.visitList .selectInto) clauses.intoItem
  return { clauses with
    selectItems := selectItems
    groupExprs := groupExprs
    rollupExprs := rollupExprs
    havingExprs := havingExprs
    aggItems := aggItems
    rollupItems := rollupItems
    cubeItems := cubeItems
    groupingSetsItems := groupingSetsItems
    winFuncExprs := winFuncExprs
    pythonUdfExprs := pythonUdfExprs
    cteExprs := cteExprs
    startWithExprs := startWithExprs
    connectByExprs := connectByExprs
    connectByPriorExprs := connectByPriorExprs
    searchByItems := searchByItems
    qualifyFilters := qualifyFilters
    intoItem := intoItem }

mutual

def iterateStmtExpr (visitor : Visitor) : SelectStmt ExprPtr → VisitM (SelectStmt ExprPtr)
  | ⟨clauses, childStmts⟩ => do
      let clauses ← visitor.iterateDMLExpr clauses
      let childStmts ←
        (if visitor.isRecursive then visitor.iterateChildStmts childStmts else pure childStmts)
      let clauses ← visitor.iterateSelectExpr clauses
      return ⟨clauses, childStmts⟩

def iterateChildStmts (visitor : Visitor) :
    List (SelectStmt ExprPtr) → VisitM (List (SelectStmt ExprPtr))
  | [] => return []
  | child :: rest => return (← visitor.iterateStmtExpr child) :: (← visitor.iterateChildStmts rest)

end

end Visitor

/-- `ObRawExprReplacer::add_replace_expr`: the first replacement of an expression counts. -/
def addReplaceExpr (map : List (ExprPtr × ExprPtr)) (pair : ExprPtr × ExprPtr) :
    List (ExprPtr × ExprPtr) :=
  if (map.lookup pair.1).isSome then map else map ++ [pair]

def addReplaceExprs (pairs : List (ExprPtr × ExprPtr)) : List (ExprPtr × ExprPtr) :=
  pairs.foldl addReplaceExpr []

def exprReplacement (pairs : List (ExprPtr × ExprPtr)) : Replacement ExprPtr where
  target := fun expr => (addReplaceExprs pairs).lookup expr
  isNew := fun expr => (addReplaceExprs pairs).any fun pair => pair.2 == expr
  isNew_of_target := by
    intro old new found
    obtain ⟨before, behind, same, -⟩ := List.lookup_eq_some_iff.mp found
    rw [List.any_eq_true]
    exact ⟨(old, new), by simp [same], by simp⟩

def stmtExprReplacer (fuel : Nat) (pairs : List (ExprPtr × ExprPtr)) (skipExprs : List ExprPtr)
    (isRequired : Scope → Bool) (isRecursive : Bool) : Visitor where
  isRequired := isRequired
  isRecursive := isRecursive
  doVisit := fun expr => do
    if skipExprs.contains expr then return expr
    let (replaced, heap) := replaceAt (exprReplacement pairs) fuel (← get) expr
    set heap
    return replaced

end IMBridge.Sql
