import IMBridge.Sql.LimitWindow
import IMBridge.Sql.QueryPushDown
import IMBridge.Sql.StmtCopy

/-!
What query push-down does to the rows of a query with one relation in FROM, WHERE and Python UDF
conjuncts, a projection, LIMIT and OFFSET. The outer UDF conjuncts are neither checked nor
appended.
-/

namespace IMBridge.Sql

open QueryPushDown Clauses List

/-- A statement of the fragment. Its expressions read listed columns of its relation only; LIMIT
and OFFSET are constant, literals and parameters for example. -/
structure SimpleQuery where
  tableId : Nat
  isGeneratedTable : Bool
  columnIds : List Nat
  conditions : List Expr
  filters : List Expr
  udfExprs : List Expr
  selectItems : List Expr
  limit : Option Expr
  offset : Option Expr
  closed : ∀ e ∈ conditions ++ filters ++ selectItems, ∀ col ∈ e.columns,
    col.1 = tableId ∧ col.2 ∈ columnIds
  plain : ∀ e ∈ conditions ++ filters ++ selectItems, ∀ kind, e.containsSpecial kind = false
  constant : ∀ e ∈ limit.toList ++ offset.toList, e.isConst = true

namespace SimpleQuery

def clauses (query : SimpleQuery) : Clauses Expr := { new Expr with
    tableItems := [⟨query.tableId, query.isGeneratedTable, false, none, none, none, []⟩]
    columnItems := query.columnIds.map fun columnId =>
      ⟨query.tableId, columnId, .column query.tableId columnId, none, none⟩
    fromItems := [⟨query.tableId, false⟩]
    conditionExprs := query.conditions
    pythonUdfFilterExprs := query.filters
    pythonUdfExprs := query.udfExprs
    selectItems := query.selectItems
    limitCountExpr := query.limit
    limitOffsetExpr := query.offset }

theorem replace_limit (query : SimpleQuery) (rule : Nat → Nat → Option Expr) :
    query.limit.map (Expr.replace rule) = query.limit ∧ query.offset.map (Expr.replace rule) = query.offset := by
  have const := query.constant
  constructor
  · cases found : query.limit with
    | none => rfl
    | some e => rw [Option.map_some, e.replace_of_isConst rule (const e (by simp [found]))]
  · cases found : query.offset with
    | none => rfl
    | some e => rw [Option.map_some, e.replace_of_isConst rule (const e (by simp [found]))]

end SimpleQuery

def bindRow (tableId : Nat) (row : Nat → Value) (table column : Nat) : Value :=
  if table = tableId then row column else .null

variable (interp : Interp)

def holdsOn (tableId : Nat) (e : Expr) (row : Nat → Value) : Bool :=
  (e.eval interp (bindRow tableId row)).isTrue

def project (tableId : Nat) (selectItems : List Expr) (row : Nat → Value) :
    List Value :=
  selectItems.map fun e => e.eval interp (bindRow tableId row)

def Clauses.rows (tableId : Nat) (clauses : Clauses Expr)
    (relation : List (Nat → Value)) : List (List Value) :=
  limitRows interp clauses.limitCountExpr clauses.limitOffsetExpr
    ((relation.filter (clauses.accepts (holdsOn interp tableId))).map
      (project interp tableId clauses.selectItems))

def asColumns (row : List Value) (column : Nat) : Value := row.getD column .null

/-- A query over a view that has every column the query lists. -/
structure NestedQuery where
  outer : SimpleQuery
  view : SimpleQuery
  bound : ∀ columnId ∈ outer.columnIds, columnId < view.selectItems.length

namespace NestedQuery

variable (query : NestedQuery)

def rows (relation : List (Nat → Value)) : List (List Value) :=
  query.outer.clauses.rows interp query.outer.tableId
    ((query.view.clauses.rows interp query.view.tableId relation).map asColumns)

def checkTransformValidity : Option Bool :=
  QueryPushDown.checkTransformValidity query.outer.clauses query.view.clauses

def doTransform (transformHaving : Bool) : Except Err (Clauses Expr) :=
  QueryPushDown.doTransform interp query.outer.clauses query.view.clauses query.outer.tableId transformHaving

/-- If the rewrite applies, it succeeds, and the rewritten view returns the rows of the nested
query, for every interpretation and every base relation. -/
def PushDownPreserves : Prop := ∀ transformHaving, query.checkTransformValidity = some transformHaving →
    ∀ (interp : Interp) (relation : List (Nat → Value)), ∃ merged,
      query.doTransform interp transformHaving = .ok merged ∧
        merged.rows interp query.view.tableId relation = query.rows interp relation

/-- The row of the view for a row of the base relation. -/
def viewRow (row : Nat → Value) : Nat → Value :=
  asColumns (project interp query.view.tableId query.view.selectItems row)

def limits : LimitExprs := ⟨query.view.limit, query.outer.limit, query.view.offset, query.outer.offset⟩

def viewAccepts (row : Nat → Value) : Bool :=
  query.view.clauses.accepts (holdsOn interp query.view.tableId) row

/-- The row meets the outer plain conditions. -/
def meets (row : Nat → Value) : Bool :=
  query.outer.conditions.all (holdsOn interp query.outer.tableId · (query.viewRow interp row))

/-- For all parameters whose limits and offsets let a row through, and every row of the base
relation: if the view selects the row and it meets the outer plain conditions, then it meets the
outer Python UDF conjuncts too, and the limits and offsets can be merged. -/
def FiltersImplied : Prop := ∀ (interp : Interp) (ints : LimitInts), query.limits.ReadsInts interp ints →
    ints.LetsThrough → ∀ row, query.viewAccepts interp row = true → query.meets interp row = true →
      (∀ e ∈ query.outer.filters, holdsOn interp query.outer.tableId e (query.viewRow interp row) = true) ∧
        ints.Mergeable

end NestedQuery

namespace QueryPushDown

theorem convertColumnExprToSelectExpr_ok (selectItems : List Expr) (tableId : Nat)
    (columnIds : List Nat) (bound : ∀ columnId ∈ columnIds, columnId < selectItems.length) :
    ∃ rules, convertColumnExprToSelectExpr selectItems
        (columnIds.map fun columnId => ⟨tableId, columnId, .column tableId columnId, none, none⟩) = .ok rules ∧
      ∀ columnId ∈ columnIds, rules.lookup columnId = selectItems[columnId]? := by
  induction columnIds with
  | nil => exact ⟨[], rfl, by simp⟩
  | cons columnId rest ih =>
    obtain ⟨rules, converted, found⟩ := ih fun other member => bound other (mem_cons_of_mem _ member)
    have inside := bound columnId mem_cons_self
    refine ⟨(columnId, selectItems[columnId]) :: rules, ?_, ?_⟩
    · simp only [map_cons, convertColumnExprToSelectExpr, getElem?_eq_getElem inside]
      rw [converted]
      rfl
    grind

theorem checkTransformValidity_where {select view : Clauses Expr} {transformHaving : Bool}
    (valid : checkTransformValidity select view = some transformHaving) :
    select.conditionExprs = [] ∧ transformHaving = false ∨
      checkWhereConditionPushDown select view = some transformHaving := by
  unfold checkTransformValidity at valid
  split at valid
  · have decided := (Option.filter_eq_some_iff.mp valid).1
    split at decided
    · rename_i empty
      grind
    · exact Or.inr decided
  · cases valid

theorem checkWhereConditionPushDown_simple {select : Clauses Expr} {view : SimpleQuery} {transformHaving : Bool}
    (valid : checkWhereConditionPushDown select view.clauses = some transformHaving) :
    transformHaving = false ∧ view.limit = none ∧ view.offset = none := by
  have noGroup : (view.clauses.hasGroupBy || view.clauses.hasRollup) = false := rfl
  rw [checkWhereConditionPushDown, noGroup] at valid
  split at valid
  · cases valid
  rename_i clear
  have limits : view.clauses.hasLimit = false := by simp_all
  split at valid
  · cases valid
  refine ⟨by simpa using valid.symm, ?_⟩
  simpa [hasLimit, SimpleQuery.clauses, new] using limits

/-- On the fragment the outer conditions stay WHERE conditions, and where there are any, the
view has no LIMIT. -/
theorem checkTransformValidity_simple {outer view : SimpleQuery} {transformHaving : Bool}
    (valid : checkTransformValidity outer.clauses view.clauses = some transformHaving) :
    transformHaving = false ∧ (outer.conditions = [] ∨ view.limit = none ∧ view.offset = none) := by
  obtain ⟨empty, kept⟩ | checked := checkTransformValidity_where valid
  · exact ⟨kept, Or.inl empty⟩
  · have simple := checkWhereConditionPushDown_simple checked
    exact ⟨simple.1, Or.inr simple.2⟩

/-- The three ways of `do_limit_merge` select the rows that `merge_limit_offset` selects. -/
theorem doLimitMerge_simple (interp : Interp) (upper view : Clauses Expr)
    (noPercent : upper.limitPercentExpr = none ∧ view.limitPercentExpr = none)
    (noTies : upper.isFetchWithTies = false ∧ view.isFetchWithTies = false) (exprs : LimitExprs)
    (ofExprs : exprs =
      ⟨view.limitCountExpr, upper.limitCountExpr, view.limitOffsetExpr, upper.limitOffsetExpr⟩) :
    ∃ limitCountExpr limitOffsetExpr limitPercentExpr isFetchWithTies hasFetch,
      doLimitMerge interp upper view = .ok { view with
        limitCountExpr := limitCountExpr
        limitOffsetExpr := limitOffsetExpr
        limitPercentExpr := limitPercentExpr
        isFetchWithTies := isFetchWithTies
        hasFetch := hasFetch } ∧
      ∀ rows : List (List Value), limitRows interp limitCountExpr limitOffsetExpr rows =
        limitRows interp (exprs.merge interp).1 (exprs.merge interp).2.1 rows := by
  subst ofExprs
  have can : canLimitMerge upper view = true := by simp [canLimitMerge, noPercent, noTies]
  by_cases upperNone : upper.hasLimit = false
  · refine ⟨view.limitCountExpr, view.limitOffsetExpr, view.limitPercentExpr, view.isFetchWithTies,
      view.hasFetch, by simp [doLimitMerge, upperNone], ?_⟩
    intro rows
    have absent : upper.limitCountExpr = none ∧ upper.limitOffsetExpr = none := by
      simpa [hasLimit, noPercent] using upperNone
    rw [absent.1, absent.2]
    symm
    apply LimitExprs.merge_eq_of_mergeable
    exact fun ints reads _ m mem => absurd mem (reads.upperOffset.not_mem m)
  · by_cases viewNone : view.hasLimit = false
    · refine ⟨upper.limitCountExpr, upper.limitOffsetExpr, upper.limitPercentExpr,
        upper.isFetchWithTies, upper.hasFetch, by simp [doLimitMerge, upperNone, can, viewNone], ?_⟩
      intro rows
      have absent : view.limitCountExpr = none ∧ view.limitOffsetExpr = none := by
        simpa [hasLimit, noPercent] using viewNone
      rw [absent.1, absent.2]
      symm
      apply LimitExprs.merge_eq_of_mergeable
      exact fun ints reads _ m _ => ⟨fun n mem => absurd mem (reads.viewOffset.not_mem n),
        .inr fun n mem => absurd mem (reads.viewLimit.not_mem n)⟩
    · exact ⟨_, _, view.limitPercentExpr, view.isFetchWithTies, view.hasFetch,
        by simp only [doLimitMerge, upperNone, can, viewNone]; rfl, fun _ => rfl⟩

/-- On the fragment `do_transform` succeeds. The result filters by the view's conjuncts and the
replaced outer conditions; the outer UDF conjuncts are gone. -/
theorem doTransform_simple (interp : Interp) (query : NestedQuery) :
    ∃ merged rules, query.doTransform interp false = .ok merged ∧
      (∀ columnId ∈ query.outer.columnIds, rules.lookup columnId = query.view.selectItems[columnId]?) ∧
      merged.conditionExprs = query.view.conditions ++
        query.outer.conditions.map (Expr.replace (columnRule query.outer.tableId rules)) ∧
      merged.pythonUdfFilterExprs = query.view.filters ∧
      merged.selectItems = query.outer.selectItems.map (Expr.replace (columnRule query.outer.tableId rules)) ∧
      ∀ rows : List (List Value), limitRows interp merged.limitCountExpr merged.limitOffsetExpr rows =
        limitRows interp (query.limits.merge interp).1 (query.limits.merge interp).2.1 rows := by
  obtain ⟨outer, view, bound⟩ := query
  obtain ⟨rules, converted, found⟩ :=
    convertColumnExprToSelectExpr_ok view.selectItems outer.tableId outer.columnIds bound
  have ofTable : outer.clauses.columnItems.filter (fun item => item.tableId == outer.tableId) =
      outer.clauses.columnItems := by
    simp [SimpleQuery.clauses, filter_eq_self]
  let replaced := replaceRelationExprs (Expr.replace (columnRule outer.tableId rules)) outer.clauses
  have constant := outer.replace_limit (columnRule outer.tableId rules)
  obtain ⟨count, offset, percent, ties, fetch, limited, slices⟩ :=
    doLimitMerge_simple interp replaced (appendStmtExprs replaced view.clauses false) ⟨rfl, rfl⟩ ⟨rfl, rfl⟩
      ⟨view.limit, outer.limit, view.offset, outer.offset⟩
      (congrArg₂ (fun count offset => LimitExprs.mk view.limit count view.offset offset)
        constant.1.symm constant.2.symm)
  have transformed : doTransform interp outer.clauses view.clauses outer.tableId false =
      pushDownStmtExprs interp replaced view.clauses false := by
    have ofView : convertColumnExprToSelectExpr view.clauses.selectItems outer.clauses.columnItems =
        .ok rules := converted
    rw [doTransform, replaceStmtExprs, ofTable, ofView]
    rfl
  rw [NestedQuery.doTransform, transformed, pushDownStmtExprs, limited]
  exact ⟨_, rules, rfl, found, rfl, rfl, rfl, slices⟩

end QueryPushDown

namespace NestedQuery

variable (query : NestedQuery)

theorem eval_replace_columnRule {rules : List (Nat × Expr)}
    (found : ∀ columnId ∈ query.outer.columnIds, rules.lookup columnId = query.view.selectItems[columnId]?)
    (row : Nat → Value) {e : Expr}
    (member : e ∈ query.outer.conditions ++ query.outer.filters ++ query.outer.selectItems) :
    (e.replace (columnRule query.outer.tableId rules)).eval interp (bindRow query.view.tableId row) =
      e.eval interp (bindRow query.outer.tableId (query.viewRow interp row)) := by
  rw [Expr.eval_replace]
  apply Expr.eval_congr
  intro col read
  obtain ⟨table, listed⟩ := query.outer.closed e member col read
  have inside := query.bound col.2 listed
  simp [columnRule, bindRow, table, found col.2 listed, getElem?_eq_getElem inside, viewRow, asColumns,
    project, getD_eq_getElem?_getD]

def outerAccepts (row : Nat → Value) : Bool :=
  query.outer.clauses.accepts (holdsOn interp query.outer.tableId) (query.viewRow interp row)

def outerRow (row : Nat → Value) : List Value :=
  project interp query.outer.tableId query.outer.selectItems (query.viewRow interp row)

theorem rows_eq (relation : List (Nat → Value)) : query.rows interp relation =
    limitRows interp query.outer.limit query.outer.offset
      (((limitRows interp query.view.limit query.view.offset (relation.filter (query.viewAccepts interp))).filter
        (query.outerAccepts interp)).map (query.outerRow interp)) := by
  have ofView : query.view.clauses.rows interp query.view.tableId relation =
      (limitRows interp query.view.limit query.view.offset (relation.filter (query.viewAccepts interp))).map
        (project interp query.view.tableId query.view.selectItems) := limitRows_map _ _ _ _
  rw [rows, ofView, Clauses.rows, map_map, filter_map, map_map]
  rfl

/-- The rewritten view as one pass over the base relation: the outer UDF conjuncts are missing,
and the outer conditions stand below the view's LIMIT. -/
theorem doTransform_rows : ∃ merged, query.doTransform interp false = .ok merged ∧
    ∀ relation, merged.rows interp query.view.tableId relation =
      limitRows interp (query.limits.merge interp).1 (query.limits.merge interp).2.1
        (((relation.filter (query.viewAccepts interp)).filter (query.meets interp)).map (query.outerRow interp)) := by
  obtain ⟨merged, rules, transformed, found, conditions, filters, selected, slices⟩ :=
    doTransform_simple interp query
  refine ⟨merged, transformed, ?_⟩
  intro relation
  have value := fun row e => query.eval_replace_columnRule interp found row (e := e)
  have projects : project interp query.view.tableId merged.selectItems = query.outerRow interp := by
    funext row
    rw [project, selected, map_map, outerRow, project]
    apply map_congr_left
    intro e member
    exact value row e (mem_append_right _ member)
  have accepts : merged.accepts (holdsOn interp query.view.tableId) = fun row =>
      query.meets interp row && query.viewAccepts interp row := by
    funext row
    have conjuncts : (query.outer.conditions.map (Expr.replace (columnRule query.outer.tableId rules))).all
        (holdsOn interp query.view.tableId · row) = query.meets interp row := by
      rw [all_map, meets, Bool.eq_iff_iff, all_eq_true, all_eq_true]
      apply forall₂_congr
      intro e member
      have same := value row e (mem_append_left _ (mem_append_left _ member))
      simp only [Function.comp_apply, holdsOn, same]
    rw [Clauses.accepts, conditions, filters, all_append, conjuncts, viewAccepts, Clauses.accepts]
    change (query.view.conditions.all _ && _ && query.view.filters.all _) =
      (_ && (query.view.conditions.all _ && query.view.filters.all _))
    rw [Bool.and_comm (query.view.conditions.all _), Bool.and_assoc]
  simp only [Clauses.rows, slices, accepts, projects, filter_filter]

theorem outerAccepts_iff (row : Nat → Value) : query.outerAccepts interp row = true ↔
    query.meets interp row = true ∧
      ∀ e ∈ query.outer.filters, holdsOn interp query.outer.tableId e (query.viewRow interp row) = true := by
  rw [outerAccepts, Clauses.accepts, Bool.and_eq_true_iff, ← all_eq_true]
  rfl

variable {query}

/-- Where some row can pass, the outer conjuncts that were dropped select nothing, and the outer
conditions may stand below the view's LIMIT. -/
theorem rows_of_implied {ints : LimitInts} (implied : query.FiltersImplied) {interp : Interp}
    (reads : query.limits.ReadsInts interp ints) (lets : ints.LetsThrough)
    (apart : query.outer.conditions = [] ∨ query.view.limit = none ∧ query.view.offset = none)
    (relation : List (Nat → Value)) : query.rows interp relation =
      limitRows interp query.outer.limit query.outer.offset (limitRows interp query.view.limit query.view.offset
        (((relation.filter (query.viewAccepts interp)).filter (query.meets interp)).map (query.outerRow interp))) := by
  have accepts : ∀ row ∈ relation.filter (query.viewAccepts interp),
      query.outerAccepts interp row = query.meets interp row := by
    intro row selected
    rw [Bool.eq_iff_iff, outerAccepts_iff, and_iff_left_iff_imp]
    intro meets
    exact (implied interp ints reads lets row (mem_filter.1 selected).2 meets).1
  rw [rows_eq, filter_congr fun row member => accepts row (mem_of_mem_limitRows member), limitRows_map]
  rcases apart with noConditions | ⟨noLimit, noOffset⟩
  · have all : query.meets interp = fun _ => true := by
      funext row
      rw [meets, noConditions, all_nil]
    simp only [all, filter_true, limitRows_map]
  · have whole : ∀ {α : Type} (rows : List α), limitRows interp none none rows = rows := fun _ => rfl
    simp only [noLimit, noOffset, whole, limitRows_map]

theorem pushDownPreserves_of_implied (implied : query.FiltersImplied) : query.PushDownPreserves := by
  intro transformHaving valid interp relation
  obtain ⟨rfl, apart⟩ := checkTransformValidity_simple valid
  obtain ⟨merged, transformed, rows⟩ := query.doTransform_rows interp
  refine ⟨merged, transformed, ?_⟩
  rw [rows]
  by_cases passes : ∃ ints, query.limits.ReadsInts interp ints ∧ ints.LetsThrough
  · obtain ⟨ints, reads, lets⟩ := passes
    rw [rows_of_implied implied reads lets apart]
    cases kept : (relation.filter (query.viewAccepts interp)).filter (query.meets interp) with
    | nil => simp
    | cons row rest =>
      have member : row ∈ (relation.filter (query.viewAccepts interp)).filter (query.meets interp) := by
        rw [kept]
        exact mem_cons_self
      obtain ⟨selected, meets⟩ := mem_filter.1 member
      have mergeable := (implied interp ints reads lets row (mem_filter.1 selected).2 meets).2
      exact reads.merge_eq_nested lets mergeable _
  · have stuck : ∀ ints, query.limits.ReadsInts interp ints → ¬ints.LetsThrough :=
      fun ints reads lets => passes ⟨ints, reads, lets⟩
    rw [LimitExprs.merge_stuck stuck, rows_eq]
    symm
    apply LimitExprs.nested_stuck stuck (relation.filter (query.viewAccepts interp))
    rw [length_map]
    exact length_filter_le _ _

/-- On copies of one row that the view selects and the outer conditions let pass, the rewritten
view returns as many as its LIMIT and OFFSET leave; the nested query none if an outer UDF conjunct
rejects the row. -/
theorem filtersImplied_of_pushDownPreserves {transformHaving : Bool} (preserves : query.PushDownPreserves)
    (valid : query.checkTransformValidity = some transformHaving) : query.FiltersImplied := by
  intro interp ints reads lets row selected meets
  obtain ⟨rfl, -⟩ := checkTransformValidity_simple valid
  have same : ∀ n, limitRows interp (query.limits.merge interp).1 (query.limits.merge interp).2.1
      (replicate n (query.outerRow interp row)) = query.rows interp (replicate n row) := by
    intro n
    obtain ⟨merged, transformed, rows⟩ := preserves false valid interp (replicate n row)
    obtain ⟨merged', transformed', rows'⟩ := query.doTransform_rows interp
    obtain rfl : merged = merged' := Except.ok.inj (transformed.symm.trans transformed')
    rw [← rows, rows', filter_replicate_of_pos selected, filter_replicate_of_pos meets, map_replicate]
  have copies : ∀ n, ∀ other ∈ limitRows interp query.view.limit query.view.offset (replicate n row),
      other = row := fun n other member => eq_of_mem_replicate (mem_of_mem_limitRows member)
  simp only [rows_eq, filter_replicate_of_pos selected] at same
  by_cases accepted : query.outerAccepts interp row = true
  · refine ⟨((query.outerAccepts_iff interp row).1 accepted).2, ?_⟩
    apply reads.mergeable_of_same lets (query.outerRow interp row)
    intro n
    have kept : (limitRows interp query.view.limit query.view.offset (replicate n row)).filter
        (query.outerAccepts interp) = limitRows interp query.view.limit query.view.offset (replicate n row) := by
      rw [filter_eq_self]
      intro other member
      rwa [copies n other member]
    rw [same n, kept, ← limitRows_map, map_replicate]
    rfl
  · obtain ⟨n, some_row⟩ := reads.merge_ne_nil lets (query.outerRow interp row)
    have dropped : (limitRows interp query.view.limit query.view.offset (replicate n row)).filter
        (query.outerAccepts interp) = [] := by
      rw [filter_eq_nil_iff]
      intro other member
      rwa [copies n other member]
    rw [same n, dropped, map_nil, limitRows_nil] at some_row
    exact absurd rfl some_row

end NestedQuery

/-- `SELECT c0 FROM v WHERE score(c0) >= 5` over the view `SELECT c0 FROM t`. -/
def scoreQuery : NestedQuery where
  outer :=
    { tableId := 1
      isGeneratedTable := true
      columnIds := [0]
      conditions := []
      filters := [.op .ge [.pythonUdf 0 [.column 1 0], .int 5]]
      udfExprs := [.pythonUdf 0 [.column 1 0]]
      selectItems := [.column 1 0]
      limit := none
      offset := none
      closed := by decide
      plain := by
        intro e member kind
        cases kind <;> revert e <;> decide
      constant := by decide }
  view :=
    { tableId := 0
      isGeneratedTable := false
      columnIds := [0]
      conditions := []
      filters := []
      udfExprs := []
      selectItems := [.column 0 0]
      limit := none
      offset := none
      closed := by decide
      plain := by
        intro e member kind
        cases kind <;> revert e <;> decide
      constant := by decide }
  bound := by decide

def echoInterp : Interp where
  param := fun _ => .null
  function := fun _ _ => .null
  pythonUdf := fun _ args => args.headD .null

end IMBridge.Sql
