import IMBridge.Sql.Stmt

/-!
A statement filters by the conjunction of `condition_exprs_` and `python_udf_filter_exprs_`. Neither
`assign` nor `deep_copy` carries the second list over.
-/

namespace IMBridge.Sql

open SelectStmt Clauses List
variable {E R : Type}

def Clauses.accepts (interp : E → R → Bool) (clauses : Clauses E) (row : R) : Bool :=
  clauses.conditionExprs.all (interp · row) && clauses.pythonUdfFilterExprs.all (interp · row)

mutual

/-- The two statements accept the same rows, and so do their child statements, pairwise. -/
def SelectStmt.SameMeaning (interp interp' : E → R → Bool) : SelectStmt E → SelectStmt E → Prop
  | ⟨clauses, childStmts⟩, ⟨clauses', childStmts'⟩ =>
      (∀ row, clauses'.accepts interp' row = clauses.accepts interp row) ∧
        SameMeanings interp interp' childStmts childStmts'

def SelectStmt.SameMeanings (interp interp' : E → R → Bool) :
    List (SelectStmt E) → List (SelectStmt E) → Prop
  | [], [] => True
  | child :: rest, child' :: rest' =>
      child.SameMeaning interp interp' child' ∧ SameMeanings interp interp' rest rest'
  | _, _ => False

end

/-- Both copies of `stmt` mean what `stmt` means, whatever the expressions stand for. The
expression copier may rename expressions as long as a copied expression keeps its meaning. -/
def SelectStmt.CopiesKeepMeaning (stmt : SelectStmt E) : Prop :=
  (∀ (R : Type) (interp : E → R → Bool),
    stmt.SameMeaning interp interp (SelectStmt.assign (Clauses.new E) stmt)) ∧
  ∀ (R : Type) (copy : E → E) (interp interp' : E → R → Bool),
    (∀ e, interp' (copy e) = interp e) → stmt.SameMeaning interp interp' (stmt.deepCopy copy)

mutual

/-- In the statement and all its descendants, every Python UDF filter is a plain condition too. -/
def SelectStmt.FiltersCovered : SelectStmt E → Prop
  | ⟨clauses, childStmts⟩ =>
      (∀ e ∈ clauses.pythonUdfFilterExprs, e ∈ clauses.conditionExprs) ∧ ChildrenCovered childStmts

def SelectStmt.ChildrenCovered : List (SelectStmt E) → Prop
  | [] => True
  | child :: rest => child.FiltersCovered ∧ ChildrenCovered rest

end

theorem Clauses.accepts_assign (interp : E → R → Bool) (clauses : Clauses E) (row : R) :
    ((Clauses.new E).assign clauses).accepts interp row = clauses.conditionExprs.all (interp · row) := by
  simp [accepts, assign, assignDML, new]

variable {interp interp' : E → R → Bool} {clauses : Clauses E} {copy : E → E}

theorem Clauses.accepts_deepCopyStmtStruct (renames : ∀ e, interp' (copy e) = interp e) (clauses : Clauses E)
    (row : R) :
    ((Clauses.new E).deepCopyStmtStruct copy clauses).accepts interp' row = clauses.conditionExprs.all (interp · row) := by
  simp [accepts, deepCopyStmtStruct, deepCopyDMLStruct, new, all_map, Function.comp_def, renames]

theorem Clauses.accepts_of_covered (covered : ∀ e ∈ clauses.pythonUdfFilterExprs, e ∈ clauses.conditionExprs)
    (interp : E → R → Bool) (row : R) : clauses.accepts interp row = clauses.conditionExprs.all (interp · row) := by
  unfold accepts
  grind

/-- A filter that is no condition can be given a meaning that rejects a row of its own accord. -/
theorem Clauses.covered_of_accepts
    (same : ∀ (interp : E → Unit → Bool) (row : Unit), clauses.conditionExprs.all (interp · row) = clauses.accepts interp row) :
    ∀ e ∈ clauses.pythonUdfFilterExprs, e ∈ clauses.conditionExprs := by
  classical
  intro e member
  by_contra absent
  have equal := same (fun other _ => decide (other ≠ e)) ()
  have passes : clauses.conditionExprs.all (fun other => decide (other ≠ e)) = true := by
    grind
  have rejects : clauses.pythonUdfFilterExprs.all (fun other => decide (other ≠ e)) = false := by
    rw [all_eq_false]
    exact ⟨e, member, by simp⟩
  rw [accepts, passes, rejects] at equal
  cases equal

mutual

theorem SelectStmt.sameMeaning_refl (interp : E → R → Bool) :
    (stmt : SelectStmt E) → stmt.SameMeaning interp interp stmt
  | ⟨_, childStmts⟩ => ⟨fun _ => rfl, sameMeanings_refl interp childStmts⟩

theorem SelectStmt.sameMeanings_refl (interp : E → R → Bool) :
    (stmts : List (SelectStmt E)) → SameMeanings interp interp stmts stmts
  | [] => trivial
  | child :: rest => ⟨child.sameMeaning_refl interp, sameMeanings_refl interp rest⟩

end

mutual

theorem SelectStmt.sameMeaning_deepCopy (renames : ∀ e, interp' (copy e) = interp e) :
    (stmt : SelectStmt E) → stmt.FiltersCovered → stmt.SameMeaning interp interp' (stmt.deepCopy copy)
  | ⟨clauses, childStmts⟩, ⟨covered, rest⟩ => by
    refine ⟨fun row => ?_, sameMeanings_deepCopy renames childStmts rest⟩
    rw [accepts_deepCopyStmtStruct renames, accepts_of_covered covered]

theorem SelectStmt.sameMeanings_deepCopy (renames : ∀ e, interp' (copy e) = interp e) :
    (stmts : List (SelectStmt E)) → ChildrenCovered stmts →
      SameMeanings interp interp' stmts (deepCopyChildren copy stmts)
  | [], _ => trivial
  | child :: rest, ⟨covered, others⟩ =>
      ⟨child.sameMeaning_deepCopy renames covered, sameMeanings_deepCopy renames rest others⟩

end

mutual

theorem SelectStmt.filtersCovered_of_deepCopy : (stmt : SelectStmt E) →
      (∀ interp : E → Unit → Bool, stmt.SameMeaning interp interp (stmt.deepCopy id)) →
      stmt.FiltersCovered
  | ⟨clauses, childStmts⟩, same => by
    refine ⟨covered_of_accepts fun interp row => ?_,
      childrenCovered_of_deepCopy childStmts fun interp => (same interp).2⟩
    have unrenamed : ∀ e, interp (id e) = interp e := fun _ => rfl
    rw [← (same interp).1 row, accepts_deepCopyStmtStruct unrenamed]

theorem SelectStmt.childrenCovered_of_deepCopy : (stmts : List (SelectStmt E)) →
      (∀ interp : E → Unit → Bool, SameMeanings interp interp stmts (deepCopyChildren id stmts)) →
      ChildrenCovered stmts
  | [], _ => trivial
  | child :: rest, same =>
      ⟨child.filtersCovered_of_deepCopy fun interp => (same interp).1,
        childrenCovered_of_deepCopy rest fun interp => (same interp).2⟩

end

variable {stmt : SelectStmt E}

theorem SelectStmt.FiltersCovered.copiesKeepMeaning (covered : stmt.FiltersCovered) : stmt.CopiesKeepMeaning := by
  refine ⟨fun R interp => ?_, fun R copy interp interp' renames => stmt.sameMeaning_deepCopy renames covered⟩
  obtain ⟨clauses, childStmts⟩ := stmt
  refine ⟨fun row => ?_, sameMeanings_refl interp childStmts⟩
  rw [accepts_assign, accepts_of_covered covered.1]

theorem SelectStmt.CopiesKeepMeaning.filtersCovered (kept : stmt.CopiesKeepMeaning) : stmt.FiltersCovered :=
  stmt.filtersCovered_of_deepCopy fun interp => kept.2 Unit id interp interp fun _ => rfl

/-- A copy keeps the WHERE meaning exactly if no Python UDF filter adds to the conditions. -/
theorem SelectStmt.copiesKeepMeaning_iff_filtersCovered (stmt : SelectStmt E) :
    stmt.CopiesKeepMeaning ↔ stmt.FiltersCovered :=
  ⟨CopiesKeepMeaning.filtersCovered, FiltersCovered.copiesKeepMeaning⟩

/-- `SELECT ... WHERE c1 > 0 AND score(c2) > 5`: expression 0 is `c1 > 0`, expression 1 the UDF
filter. -/
def scoreStmt : SelectStmt Nat :=
  ⟨{ Clauses.new Nat with conditionExprs := [0], pythonUdfFilterExprs := [1] }, []⟩

def scoreInterp : Nat → Nat × Nat → Bool
  | 0, row => decide (0 < row.1)
  | _, row => decide (5 < row.2)

theorem scoreStmt_copies_accept_more : scoreStmt.clauses.accepts scoreInterp (1, 3) = false ∧
    (SelectStmt.assign (Clauses.new Nat) scoreStmt).clauses.accepts scoreInterp (1, 3) = true ∧
    (scoreStmt.deepCopy id).clauses.accepts scoreInterp (1, 3) = true := by
  decide

/-- The loop of `generate_python_udf_filters` has kept the conditions `kept` and still has `rest`
to look at. -/
theorem generatePythonUdfFiltersLoop_eq (containsPythonUdf : E → Bool) {fuel : Nat}
    (kept rest filters : List E) (enough : rest.length ≤ fuel) :
    generatePythonUdfFiltersLoop containsPythonUdf fuel kept.length (kept ++ rest) filters =
      (kept ++ rest.filter (fun e => !containsPythonUdf e), filters ++ rest.filter containsPythonUdf) := by
  induction rest generalizing fuel kept filters with
  | nil => cases fuel <;> simp [generatePythonUdfFiltersLoop]
  | cons condition rest ih =>
    obtain ⟨fuel, rfl⟩ : ∃ less, fuel = less + 1 := ⟨fuel - 1, by simp at enough; omega⟩
    have enough' : rest.length ≤ fuel := by simpa using enough
    cases kind : containsPythonUdf condition with
    | true =>
      have removed : (kept ++ condition :: rest).eraseIdx kept.length = kept ++ rest := by
        simp [eraseIdx_append_of_length_le]
      simp [generatePythonUdfFiltersLoop, kind, removed, ih kept _ enough']
    | false =>
      have next := ih (kept ++ [condition]) filters enough'
      simp only [length_append, length_singleton, append_assoc, singleton_append] at next
      simp [generatePythonUdfFiltersLoop, kind, next]

theorem Clauses.generatePythonUdfFilters_eq (containsPythonUdf : E → Bool) (clauses : Clauses E) :
    clauses.generatePythonUdfFilters containsPythonUdf = { clauses with
      conditionExprs := clauses.conditionExprs.filter fun e => !containsPythonUdf e
      pythonUdfFilterExprs := clauses.pythonUdfFilterExprs ++ clauses.conditionExprs.filter containsPythonUdf } := by
  have split := generatePythonUdfFiltersLoop_eq containsPythonUdf [] clauses.conditionExprs
    clauses.pythonUdfFilterExprs (Nat.le_refl _)
  rw [length_nil, nil_append, nil_append] at split
  rw [generatePythonUdfFilters, split]

/-- The resolver takes the Python UDFs out of the conditions without changing what the statement
accepts. From then on the copies keep the meaning only if there was no Python UDF to take out, and
if the child statements have no filter of their own that the copies lose. -/
theorem Clauses.generatePythonUdfFilters_copies (containsPythonUdf : E → Bool) (clauses : Clauses E)
    (childStmts : List (SelectStmt E)) :
    (∀ (interp : E → R → Bool) row,
      (clauses.generatePythonUdfFilters containsPythonUdf).accepts interp row = clauses.accepts interp row) ∧
    (∀ e ∈ (clauses.generatePythonUdfFilters containsPythonUdf).conditionExprs, containsPythonUdf e = false) ∧
    (CopiesKeepMeaning ⟨clauses.generatePythonUdfFilters containsPythonUdf, childStmts⟩ ↔
      (∀ e ∈ clauses.conditionExprs, containsPythonUdf e = false) ∧
        (∀ e ∈ clauses.pythonUdfFilterExprs, e ∈ clauses.conditionExprs) ∧ ChildrenCovered childStmts) := by
  rw [generatePythonUdfFilters_eq]
  refine ⟨fun interp row => ?_, by simp, ?_⟩
  · rw [Bool.eq_iff_iff]
    simp only [accepts, Bool.and_eq_true, all_append, all_eq_true, mem_filter]
    grind
  · constructor
    · intro kept
      obtain ⟨covered, children⟩ := kept.filtersCovered
      simp only [mem_append, mem_filter] at covered
      grind
    · rintro ⟨plain, covered, children⟩
      apply FiltersCovered.copiesKeepMeaning
      refine ⟨?_, children⟩
      simp only [mem_append, mem_filter]
      grind

end IMBridge.Sql
