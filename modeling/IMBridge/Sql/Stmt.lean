import Mathlib.Data.List.Basic

/-!
SELECT statements as the resolver hands them to the rewriter (`ObDMLStmt`, `ObSelectStmt`), generic
in the type `E` of expression references, with the flags that the rewrites read; the child
statements stand beside the clauses in the order of `get_child_stmts`.
-/

namespace IMBridge.Sql

open List
structure PartExprItem (E : Type) where
  partExpr : Option E
  subpartExpr : Option E

structure ColumnItem (E : Type) where
  tableId : Nat
  columnId : Nat
  expr : E
  dependantExpr : Option E
  defaultValueExpr : Option E

structure TableItem (E : Type) where
  tableId : Nat
  isGeneratedTable : Bool
  isValuesTable : Bool
  functionTableExpr : Option E
  flashbackQueryExpr : Option E
  jsonTableDocExpr : Option E
  tableValues : List E

/-- A table of the FROM clause: a plain table item or a `JoinedTable`. -/
inductive JoinedTable (E : Type) where
  | table (tableId : Nat)
  | joined (joinConditions : List E) (leftTable rightTable : JoinedTable E)

structure GroupingSetsItem (E : Type) where
  groupingSetsExprs : List (List E)
  rollupItems : List (List (List E))
  cubeItems : List (List (List E))

structure FromItem where
  tableId : Nat
  isJoined : Bool

inductive SetOperator where
  | none | union | intersect | except | recursive
deriving DecidableEq

/-- The members of `ObDMLStmt`, then those of `ObSelectStmt`. An order item, select item or
search-by item is represented by its expression; a rollup or cube item by its list of GROUP BY
lists; the pivot clause by the expressions of its IN pairs. -/
structure Clauses (E : Type) where
  tableItems : List (TableItem E)
  columnItems : List (ColumnItem E)
  conditionExprs : List E
  pythonUdfFilterExprs : List E
  orderItems : List E
  fromItems : List FromItem
  partExprItems : List (PartExprItem E)
  joinedTables : List (JoinedTable E)
  semiInfos : List (List E)
  subqueryExprs : List E
  pseudoColumnLikeExprs : List E
  userVarExprs : List E
  checkConstraintItems : List (List E)
  nextvalSequenceIds : List Nat
  currvalSequenceIds : List Nat
  limitCountExpr : Option E
  limitOffsetExpr : Option E
  limitPercentExpr : Option E
  hasFetch : Bool
  isFetchWithTies : Bool
  isCalcFoundRows : Bool
  isContainsAssignment : Bool
  transposeItem : Option (List (List E))
  selectItems : List E
  groupExprs : List E
  rollupExprs : List E
  groupingSetsItems : List (GroupingSetsItem E)
  rollupItems : List (List (List E))
  cubeItems : List (List (List E))
  havingExprs : List E
  aggItems : List E
  startWithExprs : List E
  winFuncExprs : List E
  pythonUdfExprs : List E
  qualifyFilters : List E
  connectByExprs : List E
  connectByPriorExprs : List E
  cteExprs : List E
  cycleByItems : List (ColumnItem E)
  searchByItems : List E
  setOp : SetOperator
  isRecursiveCte : Bool
  isDistinct : Bool
  isSetDistinct : Bool
  isFromPivot : Bool
  isHierarchicalQuery : Bool
  intoItem : Option (List E)

def Clauses.new (E : Type) : Clauses E where
  tableItems := []
  columnItems := []
  conditionExprs := []
  pythonUdfFilterExprs := []
  orderItems := []
  fromItems := []
  partExprItems := []
  joinedTables := []
  semiInfos := []
  subqueryExprs := []
  pseudoColumnLikeExprs := []
  userVarExprs := []
  checkConstraintItems := []
  nextvalSequenceIds := []
  currvalSequenceIds := []
  limitCountExpr := none
  limitOffsetExpr := none
  limitPercentExpr := none
  hasFetch := false
  isFetchWithTies := false
  isCalcFoundRows := false
  isContainsAssignment := false
  transposeItem := none
  selectItems := []
  groupExprs := []
  rollupExprs := []
  groupingSetsItems := []
  rollupItems := []
  cubeItems := []
  havingExprs := []
  aggItems := []
  startWithExprs := []
  winFuncExprs := []
  pythonUdfExprs := []
  qualifyFilters := []
  connectByExprs := []
  connectByPriorExprs := []
  cteExprs := []
  cycleByItems := []
  searchByItems := []
  setOp := .none
  isRecursiveCte := false
  isDistinct := false
  isSetDistinct := false
  isFromPivot := false
  isHierarchicalQuery := false
  intoItem := none

structure SelectStmt (E : Type) where
  clauses : Clauses E
  childStmts : List (SelectStmt E)

variable {E : Type}

def Clauses.assignDML (self other : Clauses E) : Clauses E := { self with
    tableItems := other.tableItems
    columnItems := other.columnItems
    conditionExprs := other.conditionExprs
    orderItems := other.orderItems
    fromItems := other.fromItems
    partExprItems := other.partExprItems
    joinedTables := other.joinedTables
    semiInfos := other.semiInfos
    subqueryExprs := other.subqueryExprs
    pseudoColumnLikeExprs := other.pseudoColumnLikeExprs
    nextvalSequenceIds := other.nextvalSequenceIds
    currvalSequenceIds := other.currvalSequenceIds
    userVarExprs := other.userVarExprs
    checkConstraintItems := other.checkConstraintItems
    limitCountExpr := other.limitCountExpr
    limitOffsetExpr := other.limitOffsetExpr
    limitPercentExpr := other.limitPercentExpr
    hasFetch := other.hasFetch
    isFetchWithTies := other.isFetchWithTies
    isCalcFoundRows := other.isCalcFoundRows
    isContainsAssignment := other.isContainsAssignment
    transposeItem := other.transposeItem }

def Clauses.assign (self other : Clauses E) : Clauses E := { self.assignDML other with
    selectItems := other.selectItems
    groupExprs := other.groupExprs
    rollupExprs := other.rollupExprs
    groupingSetsItems := other.groupingSetsItems
    rollupItems := other.rollupItems
    cubeItems := other.cubeItems
    havingExprs := other.havingExprs
    aggItems := other.aggItems
    startWithExprs := other.startWithExprs
    winFuncExprs := other.winFuncExprs
    pythonUdfExprs := other.pythonUdfExprs
    qualifyFilters := other.qualifyFilters
    connectByExprs := other.connectByExprs
    connectByPriorExprs := other.connectByPriorExprs
    cteExprs := other.cteExprs
    cycleByItems := other.cycleByItems
    searchByItems := other.searchByItems
    setOp := other.setOp
    isRecursiveCte := other.isRecursiveCte
    isDistinct := other.isDistinct
    isFromPivot := other.isFromPivot
    isSetDistinct := other.isSetDistinct
    intoItem := other.intoItem
    isHierarchicalQuery := other.isHierarchicalQuery }

/-- `assign` copies references only, so both statements share their child statements. -/
def SelectStmt.assign (self : Clauses E) (other : SelectStmt E) : SelectStmt E :=
  ⟨self.assign other.clauses, other.childStmts⟩

def PartExprItem.map (copy : E → E) (item : PartExprItem E) : PartExprItem E :=
  ⟨item.partExpr.map copy, item.subpartExpr.map copy⟩

def ColumnItem.map (copy : E → E) (item : ColumnItem E) : ColumnItem E :=
  ⟨item.tableId, item.columnId, copy item.expr, item.dependantExpr.map copy,
    item.defaultValueExpr.map copy⟩

def TableItem.map (copy : E → E) (item : TableItem E) : TableItem E :=
  ⟨item.tableId, item.isGeneratedTable, item.isValuesTable, item.functionTableExpr.map copy,
    item.flashbackQueryExpr.map copy, item.jsonTableDocExpr.map copy, item.tableValues.map copy⟩

def JoinedTable.map (copy : E → E) : JoinedTable E → JoinedTable E
  | .table tableId => .table tableId
  | .joined joinConditions leftTable rightTable =>
      .joined (joinConditions.map copy) (leftTable.map copy) (rightTable.map copy)

def GroupingSetsItem.map (copy : E → E) (item : GroupingSetsItem E) : GroupingSetsItem E :=
  ⟨item.groupingSetsExprs.map (List.map copy), item.rollupItems.map (List.map (List.map copy)),
    item.cubeItems.map (List.map (List.map copy))⟩

/-- `ObDMLStmt::deep_copy_stmt_struct`; `copy` is the expression copier. The ORDER BY clause is
left to the subclass. -/
def Clauses.deepCopyDMLStruct (copy : E → E) (self other : Clauses E) : Clauses E := { self with
    tableItems := other.tableItems.map (TableItem.map copy)
    joinedTables := other.joinedTables.map (JoinedTable.map copy)
    semiInfos := other.semiInfos.map (map copy)
    columnItems := other.columnItems.map (ColumnItem.map copy)
    subqueryExprs := other.subqueryExprs.map copy
    pseudoColumnLikeExprs := other.pseudoColumnLikeExprs.map copy
    conditionExprs := other.conditionExprs.map copy
    partExprItems := other.partExprItems.map (PartExprItem.map copy)
    limitCountExpr := other.limitCountExpr.map copy
    limitOffsetExpr := other.limitOffsetExpr.map copy
    limitPercentExpr := other.limitPercentExpr.map copy
    userVarExprs := other.userVarExprs.map copy
    checkConstraintItems := other.checkConstraintItems.map (map copy)
    fromItems := other.fromItems
    nextvalSequenceIds := other.nextvalSequenceIds
    currvalSequenceIds := other.currvalSequenceIds
    isCalcFoundRows := other.isCalcFoundRows
    isContainsAssignment := other.isContainsAssignment
    hasFetch := other.hasFetch
    isFetchWithTies := other.isFetchWithTies
    transposeItem := other.transposeItem.map (map (map copy)) }

/-- `ObSelectStmt::deep_copy_stmt_struct`. The INTO clause keeps its references. -/
def Clauses.deepCopyStmtStruct (copy : E → E) (self other : Clauses E) : Clauses E :=
  { self.deepCopyDMLStruct copy other with
    cycleByItems := other.cycleByItems.map (ColumnItem.map copy)
    groupExprs := other.groupExprs.map copy
    rollupExprs := other.rollupExprs.map copy
    havingExprs := other.havingExprs.map copy
    aggItems := other.aggItems.map copy
    winFuncExprs := other.winFuncExprs.map copy
    pythonUdfExprs := other.pythonUdfExprs.map copy
    qualifyFilters := other.qualifyFilters.map copy
    startWithExprs := other.startWithExprs.map copy
    connectByExprs := other.connectByExprs.map copy
    connectByPriorExprs := other.connectByPriorExprs.map copy
    cteExprs := other.cteExprs.map copy
    searchByItems := other.searchByItems.map copy
    selectItems := other.selectItems.map copy
    orderItems := other.orderItems.map copy
    groupingSetsItems := other.groupingSetsItems.map (GroupingSetsItem.map copy)
    rollupItems := other.rollupItems.map (map (map copy))
    cubeItems := other.cubeItems.map (map (map copy))
    setOp := other.setOp
    isRecursiveCte := other.isRecursiveCte
    isDistinct := other.isDistinct
    isFromPivot := other.isFromPivot
    isSetDistinct := other.isSetDistinct
    isHierarchicalQuery := other.isHierarchicalQuery
    intoItem := other.intoItem }

mutual

/-- `ObDMLStmt::deep_copy` into new statements, with one copier for the whole tree. -/
def SelectStmt.deepCopy (copy : E → E) : SelectStmt E → SelectStmt E
  | ⟨clauses, childStmts⟩ =>
      ⟨(Clauses.new E).deepCopyStmtStruct copy clauses, SelectStmt.deepCopyChildren copy childStmts⟩

def SelectStmt.deepCopyChildren (copy : E → E) : List (SelectStmt E) → List (SelectStmt E)
  | [] => []
  | child :: rest => child.deepCopy copy :: SelectStmt.deepCopyChildren copy rest

end

/-- `generate_python_udf_filters`: from index `i` on, every condition that contains a Python UDF
is moved behind the filters collected so far. -/
def generatePythonUdfFiltersLoop (containsPythonUdf : E → Bool) :
    (fuel i : Nat) → List E → List E → List E × List E
  | 0, _, conditions, filters => (conditions, filters)
  | fuel + 1, i, conditions, filters =>
      match conditions[i]? with
      | none => (conditions, filters)
      | some condition =>
          if containsPythonUdf condition then
            generatePythonUdfFiltersLoop containsPythonUdf fuel i (conditions.eraseIdx i)
              (filters ++ [condition])
          else generatePythonUdfFiltersLoop containsPythonUdf fuel (i + 1) conditions filters

/-- Every round of the loop uses up one condition, so their number is enough fuel. -/
def Clauses.generatePythonUdfFilters (containsPythonUdf : E → Bool) (clauses : Clauses E) :
    Clauses E :=
  let (conditions, filters) := generatePythonUdfFiltersLoop containsPythonUdf
    clauses.conditionExprs.length 0 clauses.conditionExprs clauses.pythonUdfFilterExprs
  { clauses with conditionExprs := conditions, pythonUdfFilterExprs := filters }

end IMBridge.Sql
