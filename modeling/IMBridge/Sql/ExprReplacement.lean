import IMBridge.Sql.ExprVisitor

/-!
What a replacing visitor over all scopes leaves behind. `python_udf_filter_exprs_` is not visited: a
filter changes only through the expression objects that it shares with a visited container.
-/

namespace IMBridge.Sql

open Lib.TermGraph List SelectStmt PartExprItem ColumnItem TableItem JoinedTable GroupingSetsItem

section Exprs

variable {E : Type}

def PartExprItem.exprs (item : PartExprItem E) : List E :=
  item.partExpr.toList ++ item.subpartExpr.toList

def ColumnItem.exprs (item : ColumnItem E) : List E :=
  [item.expr] ++ (item.dependantExpr.toList ++ item.defaultValueExpr.toList)

def TableItem.exprs (item : TableItem E) : List E :=
  item.functionTableExpr.toList ++ (item.flashbackQueryExpr.toList ++
    (item.jsonTableDocExpr.toList ++ item.tableValues))

def JoinedTable.exprs : JoinedTable E → List E
  | .table _ => []
  | .joined joinConditions leftTable rightTable =>
      joinConditions ++ (leftTable.exprs ++ rightTable.exprs)

def GroupingSetsItem.exprs (item : GroupingSetsItem E) : List E :=
  item.groupingSetsExprs.flatten ++ (item.rollupItems.flatten.flatten ++ item.cubeItems.flatten.flatten)

/-- The expressions that `ObDMLStmt::iterate_stmt_expr` visits, in its order. -/
def Clauses.visitedDMLExprs (clauses : Clauses E) : List E :=
  clauses.partExprItems.flatMap PartExprItem.exprs ++ (clauses.checkConstraintItems.flatten ++
    (clauses.columnItems.flatMap ColumnItem.exprs ++ (clauses.tableItems.flatMap TableItem.exprs ++
    (clauses.joinedTables.flatMap JoinedTable.exprs ++ (clauses.semiInfos.flatten ++
    (clauses.orderItems ++ (clauses.conditionExprs ++ (clauses.limitCountExpr.toList ++
    (clauses.limitOffsetExpr.toList ++ (clauses.limitPercentExpr.toList ++
    (clauses.transposeItem.toList.flatMap flatten)))))))))))

def Clauses.visitedSelectExprs (clauses : Clauses E) : List E :=
  clauses.selectItems ++ (clauses.groupExprs ++ (clauses.rollupExprs ++ (clauses.havingExprs ++
    (clauses.aggItems ++ (clauses.rollupItems.flatten.flatten ++ (clauses.cubeItems.flatten.flatten ++
    (clauses.groupingSetsItems.flatMap GroupingSetsItem.exprs ++ (clauses.winFuncExprs ++
    (clauses.pythonUdfExprs ++ (clauses.cteExprs ++ (clauses.startWithExprs ++ (clauses.connectByExprs ++
    (clauses.connectByPriorExprs ++ (clauses.searchByItems ++ (clauses.qualifyFilters ++
    (clauses.intoItem.toList.flatten))))))))))))))))

/-- Everything stored in the statement: what is visited, and the Python UDF filters. -/
def Clauses.storedExprs (clauses : Clauses E) : List E :=
  clauses.visitedDMLExprs ++ clauses.visitedSelectExprs ++ clauses.pythonUdfFilterExprs

mutual

def SelectStmt.visitedExprs (isRecursive : Bool) : SelectStmt E → List E
  | ⟨clauses, childStmts⟩ =>
      clauses.visitedDMLExprs ++ ((if isRecursive then childVisitedExprs isRecursive childStmts
        else []) ++ clauses.visitedSelectExprs)

def SelectStmt.childVisitedExprs (isRecursive : Bool) : List (SelectStmt E) → List E
  | [] => []
  | child :: rest => child.visitedExprs isRecursive ++ childVisitedExprs isRecursive rest

end

variable (f : E → E) (clauses : Clauses E)

def Clauses.mapDMLExprs : Clauses E := { clauses with
    partExprItems := clauses.partExprItems.map (map f)
    checkConstraintItems := clauses.checkConstraintItems.map (map f)
    columnItems := clauses.columnItems.map (map f)
    tableItems := clauses.tableItems.map (map f)
    joinedTables := clauses.joinedTables.map (map f)
    semiInfos := clauses.semiInfos.map (map f)
    orderItems := clauses.orderItems.map f
    conditionExprs := clauses.conditionExprs.map f
    limitCountExpr := clauses.limitCountExpr.map f
    limitOffsetExpr := clauses.limitOffsetExpr.map f
    limitPercentExpr := clauses.limitPercentExpr.map f
    transposeItem := clauses.transposeItem.map (map (map f)) }

def Clauses.mapSelectExprs : Clauses E := { clauses with
    selectItems := clauses.selectItems.map f
    groupExprs := clauses.groupExprs.map f
    rollupExprs := clauses.rollupExprs.map f
    havingExprs := clauses.havingExprs.map f
    aggItems := clauses.aggItems.map f
    rollupItems := clauses.rollupItems.map (map (map f))
    cubeItems := clauses.cubeItems.map (map (map f))
    groupingSetsItems := clauses.groupingSetsItems.map (map f)
    winFuncExprs := clauses.winFuncExprs.map f
    pythonUdfExprs := clauses.pythonUdfExprs.map f
    cteExprs := clauses.cteExprs.map f
    startWithExprs := clauses.startWithExprs.map f
    connectByExprs := clauses.connectByExprs.map f
    connectByPriorExprs := clauses.connectByPriorExprs.map f
    searchByItems := clauses.searchByItems.map f
    qualifyFilters := clauses.qualifyFilters.map f
    intoItem := clauses.intoItem.map (map f) }

mutual

def SelectStmt.mapVisited (isRecursive : Bool) (f : E → E) : SelectStmt E → SelectStmt E
  | ⟨clauses, childStmts⟩ =>
      ⟨(clauses.mapDMLExprs f).mapSelectExprs f,
        if isRecursive then mapChildVisited isRecursive f childStmts else childStmts⟩

def SelectStmt.mapChildVisited (isRecursive : Bool) (f : E → E) : List (SelectStmt E) → List (SelectStmt E)
  | [] => []
  | child :: rest => child.mapVisited isRecursive f :: mapChildVisited isRecursive f rest

end

theorem JoinedTable.exprs_map (table : JoinedTable E) : (table.map f).exprs = table.exprs.map f := by
  induction table with
  | table tableId => rfl
  | joined joinConditions leftTable rightTable left right =>
    simp [map, JoinedTable.exprs, left, right]

theorem PartExprItem.exprs_map (item : PartExprItem E) : (item.map f).exprs = item.exprs.map f := by
  simp [map, PartExprItem.exprs, Option.toList_map]

theorem ColumnItem.exprs_map (item : ColumnItem E) : (item.map f).exprs = item.exprs.map f := by
  simp [map, ColumnItem.exprs, Option.toList_map]

theorem TableItem.exprs_map (item : TableItem E) : (item.map f).exprs = item.exprs.map f := by
  simp [map, TableItem.exprs, Option.toList_map]

theorem GroupingSetsItem.exprs_map (item : GroupingSetsItem E) : (item.map f).exprs = item.exprs.map f := by
  simp [map, GroupingSetsItem.exprs, map_flatten]

theorem Clauses.storedExprs_map : ((clauses.mapDMLExprs f).mapSelectExprs f).storedExprs =
      (clauses.visitedDMLExprs ++ clauses.visitedSelectExprs).map f ++ clauses.pythonUdfFilterExprs := by
  simp [storedExprs, visitedDMLExprs, visitedSelectExprs, mapDMLExprs, mapSelectExprs, Option.toList_map,
    List.map_flatten, List.flatMap_map, List.map_flatMap, PartExprItem.exprs_map, ColumnItem.exprs_map,
    TableItem.exprs_map, JoinedTable.exprs_map, GroupingSetsItem.exprs_map]

end Exprs

section Coverage

variable {r : Replacement ExprPtr} {heap : ExprHeap} {α β : Type}

/-- If `x` succeeds on a marked heap, it returns `a` and leaves also the nodes below `slots`
marked. -/
def Visits (r : Replacement ExprPtr) (heap : ExprHeap) (x : VisitM α) (slots : List ExprPtr) (a : α) :
    Prop :=
  ∀ nodes out, x.run (mark r heap nodes) = .ok out →
    out = (a, mark r heap (nodes ∪ touched r heap slots))

theorem Visits.pure (a : α) : Visits r heap (Pure.pure a) [] a := by
  intro nodes out done
  have same : (a, mark r heap nodes) = out := Except.ok.inj done
  rw [touched_nil, Set.union_empty, same]

theorem Visits.bind {x : VisitM α} {f : α → VisitM β} {slots more : List ExprPtr} {a : α} {b : β}
    (first : Visits r heap x slots a) (second : Visits r heap (f a) more b) :
    Visits r heap (x >>= f) (slots ++ more) b := by
  intro nodes out done
  rw [StateT.run_bind] at done
  cases ran : x.run (mark r heap nodes) with
  | error e =>
    rw [ran] at done
    cases done
  | ok mid =>
    rw [ran] at done
    obtain rfl := first nodes mid ran
    rw [touched_append, ← Set.union_assoc]
    exact second _ out done

theorem Visits.map {x : VisitM α} {slots : List ExprPtr} {a : α} (visits : Visits r heap x slots a)
    (f : α → β) : Visits r heap (do return f (← x)) slots (f a) := by
  have mapped : Visits r heap (x >>= fun a => Pure.pure (f a)) (slots ++ []) (f a) := visits.bind (.pure (f a))
  rwa [append_nil] at mapped

/-- A visitor over all scopes that replaces what it is handed. -/
structure Visitor.Replaces (visitor : Visitor) (r : Replacement ExprPtr) (heap : ExprHeap) : Prop where
  required : ∀ scope, visitor.isRequired scope = true
  doVisit : ∀ expr, Visits r heap (visitor.doVisit expr) [expr] (r.apply expr)

namespace Visitor

variable {visitor : Visitor}

theorem visits_visit (replaces : visitor.Replaces r heap) (typed : Bool) (scope : Scope)
    (expr : ExprPtr) : Visits r heap (visitor.visit typed scope expr) [expr] (r.apply expr) := by
  have checked : Visits r heap (do
      let heap ← get
      if typed && (heap expr).cls != (heap (r.apply expr)).cls then throw Err.exprClassChanged
      return r.apply expr) [] (r.apply expr) := by
    intro nodes out done
    cases changed : typed && (mark r heap nodes expr).cls != (mark r heap nodes (r.apply expr)).cls with
    | true =>
      simp only [StateT.run_bind, StateT.run_get, pure_bind, changed] at done
      cases done
    | false =>
      simp only [StateT.run_bind, StateT.run_get, pure_bind, changed] at done
      exact Visits.pure (r.apply expr) nodes out done
  unfold visit
  rw [if_pos (replaces.required scope)]
  exact (replaces.doVisit expr).bind checked

theorem visits_option (replaces : visitor.Replaces r heap) (scope : Scope) (expr : Option ExprPtr) :
    Visits r heap (visitor.visitOption scope expr) expr.toList (expr.map r.apply) := by
  cases expr with
  | none => exact .pure none
  | some expr => exact (visits_visit replaces false scope expr).map some

theorem visits_each {f : α → VisitM α} {slots : α → List ExprPtr} {g : α → α}
    (each : ∀ x, Visits r heap (f x) (slots x) (g x)) (xs : List α) :
    Visits r heap (visitEach f xs) (xs.flatMap slots) (xs.map g) := by
  induction xs with
  | nil => exact .pure []
  | cons x rest ih => exact (each x).bind (ih.map (g x :: ·))

theorem visits_list (replaces : visitor.Replaces r heap) (scope : Scope) (exprs : List ExprPtr) :
    Visits r heap (visitor.visitList scope exprs) exprs (exprs.map r.apply) := by
  have all := visits_each (visits_visit replaces false scope) exprs
  rwa [flatMap_singleton'] at all

theorem visits_typedList (replaces : visitor.Replaces r heap) (scope : Scope) (exprs : List ExprPtr) :
    Visits r heap (visitor.visitTypedList scope exprs) exprs (exprs.map r.apply) := by
  have all := visits_each (visits_visit replaces true scope) exprs
  rwa [flatMap_singleton'] at all

theorem visits_optionWith {f : α → VisitM α} {slots : α → List ExprPtr} {g : α → α}
    (each : ∀ x, Visits r heap (f x) (slots x) (g x)) (x : Option α) :
    Visits r heap (visitOptionWith f x) (x.toList.flatMap slots) (x.map g) := by
  cases x with
  | none => exact .pure none
  | some x =>
    have one : Visits r heap (visitOptionWith f (some x)) (slots x) (some (g x)) := (each x).map some
    simpa using one

section

variable (replaces : visitor.Replaces r heap)
include replaces

theorem visits_partExprItem (item : PartExprItem ExprPtr) :
    Visits r heap (visitor.iteratePartExprItem item) item.exprs (item.map r.apply) :=
  (visits_option replaces _ _).bind ((visits_option replaces _ _).map _)

theorem visits_columnItem (item : ColumnItem ExprPtr) :
    Visits r heap (visitor.iterateColumnItem item) item.exprs (item.map r.apply) :=
  (visits_visit replaces _ _ _).bind ((visits_option replaces _ _).bind ((visits_option replaces _ _).map _))

theorem visits_tableItem (item : TableItem ExprPtr) :
    Visits r heap (visitor.iterateTableItem item) item.exprs (item.map r.apply) :=
  (visits_option replaces _ _).bind ((visits_option replaces _ _).bind
    ((visits_option replaces _ _).bind ((visits_list replaces _ _).map _)))

theorem visits_joinedTable (table : JoinedTable ExprPtr) :
    Visits r heap (visitor.iterateJoinedTableExpr table) table.exprs (table.map r.apply) := by
  induction table with
  | table tableId => exact .pure _
  | joined joinConditions leftTable rightTable left right =>
    exact (visits_list replaces _ _).bind (left.bind (right.map _))

theorem visits_groupItems (items : List (List ExprPtr)) :
    Visits r heap (visitor.iterateGroupItems items) items.flatten (items.map (map r.apply)) := by
  have all := visits_each (visits_list replaces .groupby) items
  rwa [flatMap_id'] at all

theorem visits_rollupItems (items : List (List (List ExprPtr))) :
    Visits r heap (visitor.iterateRollupItems items) items.flatten.flatten (items.map (map (map r.apply))) := by
  have all := visits_each (visits_groupItems replaces) items
  rwa [flatMap_def, ← flatten_flatten] at all

theorem visits_groupingSetsItem (item : GroupingSetsItem ExprPtr) :
    Visits r heap (visitor.iterateGroupingSetsItem item) item.exprs (item.map r.apply) :=
  (visits_groupItems replaces _).bind ((visits_rollupItems replaces _).bind ((visits_rollupItems replaces _).map _))

theorem visits_lists (scope : Scope) (lists : List (List ExprPtr)) :
    Visits r heap (visitEach (visitor.visitList scope) lists) lists.flatten (lists.map (map r.apply)) := by
  have all := visits_each (visits_list replaces scope) lists
  rwa [flatMap_id'] at all

theorem visits_dml (clauses : Clauses ExprPtr) : Visits r heap (visitor.iterateDMLExpr clauses) clauses.visitedDMLExprs
      (clauses.mapDMLExprs r.apply) :=
  (visits_each (visits_partExprItem replaces) _).bind <|
  (visits_lists replaces _ _).bind <|
  (visits_each (visits_columnItem replaces) _).bind <|
  (visits_each (visits_tableItem replaces) _).bind <|
  (visits_each (visits_joinedTable replaces) _).bind <|
  (visits_lists replaces _ _).bind <|
  (visits_list replaces _ _).bind <|
  (visits_list replaces _ _).bind <|
  (visits_option replaces _ _).bind <|
  (visits_option replaces _ _).bind <|
  (visits_option replaces _ _).bind <|
  (visits_optionWith (visits_lists replaces _) _).map _

theorem visits_select (clauses : Clauses ExprPtr) :
    Visits r heap (visitor.iterateSelectExpr clauses) clauses.visitedSelectExprs (clauses.mapSelectExprs r.apply) := by
  have into := visits_optionWith (visits_list replaces .selectInto) clauses.intoItem
  rw [flatMap_id'] at into
  exact (visits_list replaces _ _).bind <| (visits_list replaces _ _).bind <| (visits_list replaces _ _).bind <|
    (visits_list replaces _ _).bind <|
    (visits_typedList replaces _ _).bind <|
    (visits_rollupItems replaces _).bind <|
    (visits_rollupItems replaces _).bind <|
    (visits_each (visits_groupingSetsItem replaces) _).bind <|
    (visits_typedList replaces _ _).bind <|
    (visits_typedList replaces _ _).bind <|
    (visits_list replaces _ _).bind <|
    (visits_list replaces _ _).bind <|
    (visits_list replaces _ _).bind <|
    (visits_list replaces _ _).bind <|
    (visits_list replaces _ _).bind <|
    (visits_list replaces _ _).bind <|
    into.map _

end

mutual

theorem visits_stmt (replaces : visitor.Replaces r heap) : (stmt : SelectStmt ExprPtr) →
    Visits r heap (visitor.iterateStmtExpr stmt) (stmt.visitedExprs visitor.isRecursive)
      (stmt.mapVisited visitor.isRecursive r.apply)
  | ⟨clauses, childStmts⟩ => by
    have children : Visits r heap
        (if visitor.isRecursive then visitor.iterateChildStmts childStmts else pure childStmts)
        (if visitor.isRecursive then childVisitedExprs visitor.isRecursive childStmts else [])
        (if visitor.isRecursive then mapChildVisited visitor.isRecursive r.apply childStmts
          else childStmts) := by
      split
      · exact visits_childStmts replaces childStmts
      · exact .pure childStmts
    exact (visits_dml replaces clauses).bind (children.bind ((visits_select replaces _).map _))

theorem visits_childStmts (replaces : visitor.Replaces r heap) : (stmts : List (SelectStmt ExprPtr)) →
    Visits r heap (visitor.iterateChildStmts stmts) (childVisitedExprs visitor.isRecursive stmts)
      (mapChildVisited visitor.isRecursive r.apply stmts)
  | [] => .pure []
  | child :: rest => (visits_stmt replaces child).bind ((visits_childStmts replaces rest).map _)

end

end Visitor

/-- What the results below assume of the expression objects: they are acyclic, of a height that
the traversal can manage, and the new expressions contain none of the replaced ones. -/
structure Replaceable (fuel : Nat) (pairs : List (ExprPtr × ExprPtr)) (heap : ExprHeap) where
  rank : ExprPtr → Nat
  ranked : ∀ n, ∀ q ∈ (heap n).params, rank q < rank n
  enough : ∀ n, rank n < fuel
  fresh : Fresh (exprReplacement pairs) heap

variable {fuel : Nat} {pairs : List (ExprPtr × ExprPtr)}

theorem stmtExprReplacer_replaces (input : Replaceable fuel pairs heap) (isRecursive : Bool) :
    (stmtExprReplacer fuel pairs [] (fun _ => true) isRecursive).Replaces (exprReplacement pairs) heap where
  required := fun _ => rfl
  doVisit := by
    intro expr nodes out done
    have replaced := replaceAt_mark input.fresh input.ranked input.enough nodes expr
    have ran : ((exprReplacement pairs).apply expr, mark (exprReplacement pairs) heap
        (nodes ∪ touched (exprReplacement pairs) heap [expr])) = out := by
      rw [← replaced]
      exact Except.ok.inj done
    exact ran.symm

variable {stmt stmt' : SelectStmt ExprPtr} {heap' : ExprHeap} {isRecursive : Bool}

theorem iterateStmtExpr_result (input : Replaceable fuel pairs heap)
    (done : ((stmtExprReplacer fuel pairs [] (fun _ => true) isRecursive).iterateStmtExpr stmt).run heap = .ok (stmt', heap')) :
    stmt' = stmt.mapVisited isRecursive (exprReplacement pairs).apply ∧ heap' = mark (exprReplacement pairs) heap
        (touched (exprReplacement pairs) heap (stmt.visitedExprs isRecursive)) := by
  have visits := Visitor.visits_stmt (stmtExprReplacer_replaces input isRecursive) stmt
  have out := visits ∅ (stmt', heap') (by rw [mark_empty]; exact done)
  rw [Set.empty_union] at out
  exact Prod.mk.inj out

end Coverage

/-- Objects 0 and 1 are columns of a view, 2 and 3 the columns that replace them, 4 is the Python
UDF call `score(v.c0)`, 5 the constant 5, 6 the filter `score(v.c0) > v.c1` and 7 the filter
`score(v.c0) > 5`. -/
def scoreHeap : ExprHeap
  | 0 | 1 | 2 | 3 => ⟨.columnRef, []⟩
  | 4 => ⟨.pythonUdf, [0]⟩
  | 6 => ⟨.operator, [4, 1]⟩
  | 7 => ⟨.operator, [4, 5]⟩
  | _ => ⟨.const, []⟩

def scoreFilterStmt (filter : ExprPtr) : SelectStmt ExprPtr := ⟨{ Clauses.new ExprPtr with
    selectItems := [1]
    pythonUdfExprs := [4]
    pythonUdfFilterExprs := [filter] }, []⟩

def scorePairs : List (ExprPtr × ExprPtr) := [(0, 2), (1, 3)]

def scoreRank (n : ExprPtr) : Nat := if n < 8 then n else 0

theorem scoreHeap_ranked (n : ExprPtr) : ∀ q ∈ (scoreHeap n).params, scoreRank q < scoreRank n := by
  intro q member
  unfold scoreHeap at member
  split at member <;> simp at member
  · subst member
    decide
  · rcases member with rfl | rfl <;> decide
  · rcases member with rfl | rfl <;> decide

theorem scoreHeap_fresh : Fresh (exprReplacement scorePairs) scoreHeap := by
  intro new isNew found
  have columns : new = 2 ∨ new = 3 := by
    have same : 2 = new ∨ 3 = new := by
      simpa [exprReplacement, scorePairs, addReplaceExprs, addReplaceExpr, lookup_cons, lookup_nil] using isNew
    exact same.imp Eq.symm Eq.symm
  cases found with
  | here some_ => rcases columns with rfl | rfl <;> exact some_ rfl
  | param member _ => rcases columns with rfl | rfl <;> exact absurd member not_mem_nil

def scoreReplaceable : Replaceable 8 scorePairs scoreHeap where
  rank := scoreRank
  ranked := scoreHeap_ranked
  enough := by
    intro n
    unfold scoreRank
    split <;> omega
  fresh := scoreHeap_fresh

theorem score_touched : 4 ∈ touched (exprReplacement scorePairs) scoreHeap ((scoreFilterStmt 7).visitedExprs false) :=
  ⟨4, by decide, rfl, .self rfl⟩

theorem scoreFilterStmt_done (filter : ExprPtr) : ∃ stmt' heap',
    ((stmtExprReplacer 8 scorePairs [] (fun _ => true) false).iterateStmtExpr (scoreFilterStmt filter)).run
      scoreHeap = .ok (stmt', heap') := ⟨_, _, rfl⟩

end IMBridge.Sql
