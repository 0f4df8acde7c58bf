import Mathlib.Algebra.Order.Group.Int
import IMBridge.Sql.Expr

/-!
LIMIT and OFFSET: the limit operator, and `merge_limit_offset`, which folds those of a view into
those of the query above it. The merge decides on the parameter values at hand and records each
decision as a constraint on the reuse of the plan.
-/

namespace IMBridge.Sql

variable {α : Type}

/-- The value of a LIMIT or OFFSET expression; anything but an integer counts as NULL. -/
def limitValue (interp : Interp) (e : Expr) : Option Int :=
  match e.eval interp (fun _ _ => .null) with
  | .int n => some n
  | _ => none

/-- `ObLimitOp`: a NULL limit or offset gives no row, a negative one counts as 0, and without a
limit all rows behind the offset are returned. -/
def limitRows (interp : Interp) (limit offset : Option Expr) (rows : List α) : List α :=
  match limit.map (limitValue interp), offset.map (limitValue interp) with
  | some none, _ | _, some none => []
  | none, none => rows
  | none, some (some n) => rows.drop n.toNat
  | some (some n), none => rows.take n.toNat
  | some (some n), some (some m) => (rows.drop m.toNat).take n.toNat

section

variable {interp : Interp} {e : Expr}

@[simp] theorem limitRows_nil (interp : Interp) (limit offset : Option Expr) :
    limitRows interp limit offset ([] : List α) = [] := by
  unfold limitRows
  split <;> simp

theorem limitRows_map {β : Type} (limit offset : Option Expr) (f : α → β) (rows : List α) :
    limitRows interp limit offset (rows.map f) = (limitRows interp limit offset rows).map f := by
  unfold limitRows
  split <;> simp [List.map_take, List.map_drop]

theorem mem_of_mem_limitRows {limit offset : Option Expr} {rows : List α} {row : α}
    (member : row ∈ limitRows interp limit offset rows) : row ∈ rows := by
  unfold limitRows at member
  split at member
  · cases member
  · cases member
  · exact member
  · exact List.mem_of_mem_drop member
  · exact List.mem_of_mem_take member
  · exact List.mem_of_mem_drop (List.mem_of_mem_take member)

theorem limitRows_null_limit (null : limitValue interp e = none) (offset : Option Expr) (rows : List α) :
    limitRows interp (some e) offset rows = [] := by
  simp [limitRows, null]

theorem limitRows_null_offset (null : limitValue interp e = none) (limit : Option Expr) (rows : List α) :
    limitRows interp limit (some e) rows = [] := by
  cases found : limit.map (limitValue interp) with
  | none => simp [limitRows, null, found]
  | some bound => cases bound <;> simp [limitRows, null, found]

end

structure PlanConstraint where
  expr : Expr
  expected : Bool

def constTrue (interp : Interp) (e : Expr) : Bool := (e.eval interp (fun _ _ => .null)).isTrue

def Expr.int (n : Int) : Expr := .const (.int n)

/-- Whether a limit is below 1, with the comparison that `merge_limit_as_zero` records for it. -/
def belowOne (interp : Interp) (recorded : Int) : Option Expr → Bool × List Expr
  | none => (false, [])
  | some limit =>
      (!constTrue interp (.op .ge [limit, .int 1]), [.op .ge [limit, .int recorded]])

/-- Whether the upper offset skips all rows of the view; nothing is recorded if it does not. -/
def skipsAll (interp : Interp) : (viewLimit upperOffset : Option Expr) → Bool × List Expr
  | some limit, some offset =>
      if constTrue interp (.op .ge [.op .minus [limit, offset], .int 1]) then (false, [])
      else (true, [.op .ge [.op .minus [limit, offset], .int 1]])
  | _, _ => (false, [])

/-- `merge_limit_as_zero`: whether the merged limit is 0, with the recorded constraint. The
constant in the comparison recorded for the upper limit is 1 only if the view has a limit. -/
def mergeLimitAsZero (interp : Interp) (viewLimit upperLimit upperOffset : Option Expr) :
    Bool × List PlanConstraint :=
  let ofView := belowOne interp 1 viewLimit
  let ofUpper := belowOne interp (if viewLimit.isSome then 1 else 0) upperLimit
  let ofMinus := skipsAll interp viewLimit upperOffset
  let isValid := ofView.1 || ofUpper.1 || ofMinus.1
  let params := ofView.2 ++ ofUpper.2 ++ ofMinus.2
  (isValid, if params.isEmpty then [] else [⟨.op .and params, !isValid⟩])

def mergeOffset : (viewOffset upperOffset : Option Expr) → Option Expr
  | none, upperOffset => upperOffset
  | some offset, none => some offset
  | some offset, some upper => some (.op .add [offset, upper])

def mergeLimit (interp : Interp) (viewLimit upperLimit upperOffset : Option Expr) :
    Option Expr × List PlanConstraint :=
  match viewLimit, upperLimit, upperOffset with
  | none, upperLimit, _ => (upperLimit, [])
  | some limit, none, none => (some limit, [])
  | some limit, none, some offset =>
      let left := Expr.op .minus [limit, offset]
      let reached := Expr.op .ge [left, .int 0]
      if constTrue interp reached then (some left, [⟨reached, true⟩])
      else (some (.int 0), [⟨reached, false⟩])
  | some limit, some upper, offset =>
      let left := match offset with
        | none => limit
        | some offset => .op .minus [limit, offset]
      let smaller := Expr.op .le [upper, left]
      if constTrue interp smaller then (some upper, [⟨smaller, true⟩])
      else (some left, [⟨smaller, false⟩])

/-- `merge_limit_offset`: the merged limit and offset, with the recorded constraints. -/
def mergeLimitOffset (interp : Interp) (viewLimit upperLimit viewOffset upperOffset : Option Expr) :
    Option Expr × Option Expr × List PlanConstraint :=
  let zero := mergeLimitAsZero interp viewLimit upperLimit upperOffset
  if zero.1 then (some (.int 0), none, zero.2)
  else
    let limit := mergeLimit interp viewLimit upperLimit upperOffset
    (limit.1, mergeOffset viewOffset upperOffset, zero.2 ++ limit.2)

/-! ### Comparisons of expressions with known values -/

section Comparisons

variable {interp : Interp} {a b : Expr} {x y : Int}

theorem eval_of_limitValue (value : limitValue interp a = some x) : a.eval interp (fun _ _ => .null) = .int x := by
  unfold limitValue at value
  split at value
  next n eq =>
    grind
  next => cases value

variable (interp) in
theorem limitValue_int (n : Int) : limitValue interp (.int n) = some n := by
  simp [limitValue, Expr.int, Expr.eval]

/-- A NULL limit is below 1 as well. -/
theorem constTrue_ge_one : constTrue interp (.op .ge [a, .int 1]) = true ↔ ∃ n ∈ limitValue interp a, 1 ≤ n := by
  unfold limitValue constTrue
  simp only [Expr.eval, Expr.evalList, Expr.int]
  cases a.eval interp fun _ _ => .null with
  | int n => by_cases ge : 1 ≤ n <;> simp [Op.apply, Value.ofBool, Value.isTrue, ge]
  | null => simp [Op.apply, Value.isTrue]
  | bytes content => simp [Op.apply, Value.isTrue]

section

variable (ha : limitValue interp a = some x)
include ha

variable (hb : limitValue interp b = some y)
include hb

theorem limitValue_op_minus : limitValue interp (.op .minus [a, b]) = some (x - y) := by
  simp [limitValue, Expr.eval, Expr.evalList, eval_of_limitValue ha, eval_of_limitValue hb, Op.apply]

theorem limitValue_op_add : limitValue interp (.op .add [a, b]) = some (x + y) := by
  simp [limitValue, Expr.eval, Expr.evalList, eval_of_limitValue ha, eval_of_limitValue hb, Op.apply]

theorem constTrue_op_ge : constTrue interp (.op .ge [a, b]) = decide (y ≤ x) := by
  simp only [constTrue, Expr.eval, Expr.evalList, eval_of_limitValue ha, eval_of_limitValue hb, Op.apply]
  by_cases ge : y ≤ x <;> simp [Value.ofBool, Value.isTrue, ge]

theorem constTrue_op_le : constTrue interp (.op .le [a, b]) = decide (x ≤ y) := by
  simp only [constTrue, Expr.eval, Expr.evalList, eval_of_limitValue ha, eval_of_limitValue hb, Op.apply]
  by_cases le : x ≤ y <;> simp [Value.ofBool, Value.isTrue, le]

end

end Comparisons

/-! ### The rows between an offset and a limit -/

def sliceRows (limit offset : Option Nat) (rows : List α) : List α :=
  let rest := rows.drop (offset.getD 0)
  match limit with
  | none => rest
  | some n => rest.take n

/-- The limit on the rows behind both offsets. -/
def mergedLimit (viewLimit upperLimit upperOffset : Option Nat) : Option Nat :=
  match viewLimit, upperLimit with
  | none, upperLimit => upperLimit
  | some limit, none => some (limit - upperOffset.getD 0)
  | some limit, some upper => some (min upper (limit - upperOffset.getD 0))

theorem sliceRows_sliceRows (viewLimit upperLimit viewOffset upperOffset : Option Nat) (rows : List α) :
    sliceRows upperLimit upperOffset (sliceRows viewLimit viewOffset rows) =
      sliceRows (mergedLimit viewLimit upperLimit upperOffset)
        (some (viewOffset.getD 0 + upperOffset.getD 0)) rows := by
  cases viewLimit <;> cases upperLimit <;>
    simp [sliceRows, mergedLimit, List.drop_drop, List.drop_take, List.take_take]

theorem length_sliceRows (limit offset : Option Nat) (rows : List α) :
    (sliceRows limit offset rows).length =
      match limit with
      | none => rows.length - offset.getD 0
      | some n => min n (rows.length - offset.getD 0) := by
  cases limit <;> simp [sliceRows]

/-- Slices that let a row through are told apart by lists of one row. -/
theorem sliceRows_replicate_inj {limit limit' offset offset' : Option Nat} (visible : limit ≠ some 0)
    (visible' : limit' ≠ some 0) (x : α)
    (same : ∀ n, sliceRows limit offset (List.replicate n x) = sliceRows limit' offset' (List.replicate n x)) :
    limit = limit' ∧ offset.getD 0 = offset'.getD 0 := by
  have lengths := fun n => congrArg List.length (same n)
  simp only [length_sliceRows, List.length_replicate] at lengths
  have one := lengths (offset.getD 0 + 1)
  have one' := lengths (offset'.getD 0 + 1)
  have many := lengths (max (offset.getD 0) (offset'.getD 0) + max (limit.getD 0) (limit'.getD 0) + 1)
  cases limit <;> cases limit' <;> simp at visible visible' one one' many ⊢ <;> omega

/-! ### The merge on integers -/

/-- The clause is missing, or its expression has the given value. -/
def ReadsInt (interp : Interp) : Option Expr → Option Int → Prop
  | none, none => True
  | some e, some n => limitValue interp e = some n
  | _, _ => False

section

variable {interp : Interp} {e : Option Expr} {n : Option Int}

theorem ReadsInt.cases (reads : ReadsInt interp e n) :
    (e = none ∧ n = none) ∨ ∃ e' n', e = some e' ∧ n = some n' ∧ limitValue interp e' = some n' := by
  cases e <;> cases n <;> simp_all [ReadsInt]

theorem ReadsInt.not_mem (reads : ReadsInt interp none n) (k : Int) : k ∉ n := by
  cases n <;> simp_all [ReadsInt]

variable (interp e) in
theorem readsInt_or_null : (∃ n, ReadsInt interp e n) ∨ ∃ e', e = some e' ∧ limitValue interp e' = none := by
  cases e with
  | none => exact Or.inl ⟨none, trivial⟩
  | some e =>
    cases value : limitValue interp e with
    | none => exact Or.inr ⟨e, rfl, value⟩
    | some n => exact Or.inl ⟨some n, value⟩

theorem limitRows_eq_sliceRows {offset : Option Expr} {m : Option Int} (reads : ReadsInt interp e n)
    (readsOffset : ReadsInt interp offset m) (rows : List α) :
    limitRows interp e offset rows = sliceRows (n.map Int.toNat) (m.map Int.toNat) rows := by
  rcases reads.cases with ⟨rfl, rfl⟩ | ⟨limit, n, rfl, rfl, value⟩
  · rcases readsOffset.cases with ⟨rfl, rfl⟩ | ⟨offset, m, rfl, rfl, value⟩
    · simp [limitRows, sliceRows]
    · simp [limitRows, sliceRows, value]
  · rcases readsOffset.cases with ⟨rfl, rfl⟩ | ⟨offset, m, rfl, rfl, offsetValue⟩
    · simp [limitRows, sliceRows, value]
    · simp [limitRows, sliceRows, value, offsetValue]

end

def addOffsets : (viewOffset upperOffset : Option Int) → Option Int
  | none, upperOffset => upperOffset
  | some offset, none => some offset
  | some offset, some upper => some (offset + upper)

/-- The value of the merged limit. -/
def pushedLimit : (viewLimit upperLimit upperOffset : Option Int) → Option Int
  | none, upperLimit, _ => upperLimit
  | some limit, none, none => some limit
  | some limit, none, some offset => some (limit - offset).toNat
  | some limit, some upper, offset => some (min upper (limit - offset.getD 0))

theorem ReadsInt.mergeOffset {interp : Interp} {viewOffset upperOffset : Option Expr} {v o : Option Int}
    (hv : ReadsInt interp viewOffset v) (ho : ReadsInt interp upperOffset o) :
    ReadsInt interp (mergeOffset viewOffset upperOffset) (addOffsets v o) := by
  rcases hv.cases with ⟨rfl, rfl⟩ | ⟨a, n, rfl, rfl, ha⟩
  · exact ho
  rcases ho.cases with ⟨rfl, rfl⟩ | ⟨b, m, rfl, rfl, hb⟩
  · exact hv
  exact limitValue_op_add ha hb

def PlanConstraint.holds (interp : Interp) (constraint : PlanConstraint) : Prop :=
  constTrue interp constraint.expr = constraint.expected

/-- The limit expression depends on the decision at compile time, its value does not, as long as
the recorded comparison comes out the same. -/
theorem ReadsInt.mergeLimit (interp : Interp) {reuse : Interp} {viewLimit upperLimit upperOffset : Option Expr}
    {l u o : Option Int} (hl : ReadsInt reuse viewLimit l) (hu : ReadsInt reuse upperLimit u)
    (ho : ReadsInt reuse upperOffset o)
    (holds : ∀ c ∈ (mergeLimit interp viewLimit upperLimit upperOffset).2, c.holds reuse) :
    ReadsInt reuse (mergeLimit interp viewLimit upperLimit upperOffset).1 (pushedLimit l u o) := by
  rcases hl.cases with ⟨rfl, rfl⟩ | ⟨limit, n, rfl, rfl, value⟩
  · exact hu
  rcases hu.cases with ⟨rfl, rfl⟩ | ⟨upper, m, rfl, rfl, upperValue⟩
  · rcases ho.cases with ⟨rfl, rfl⟩ | ⟨offset, k, rfl, rfl, offsetValue⟩
    · exact value
    have left := limitValue_op_minus value offsetValue
    have reached := constTrue_op_ge left (limitValue_int reuse 0)
    simp only [Sql.mergeLimit, pushedLimit] at holds ⊢
    split at holds
    next decided =>
      rw [if_pos decided]
      have above : (0 : Int) ≤ n - k := by simpa [PlanConstraint.holds, reached] using holds
      rwa [Int.toNat_of_nonneg above]
    next decided =>
      rw [if_neg decided]
      have below : ¬(0 : Int) ≤ n - k := by simpa [PlanConstraint.holds, reached] using holds
      rw [Int.toNat_of_nonpos (by omega)]
      exact limitValue_int reuse 0
  · -- the rows the view leaves behind the upper offset
    have leftValue : ∃ left, limitValue reuse left = some (n - o.getD 0) ∧
        Sql.mergeLimit interp (some limit) (some upper) upperOffset =
          if constTrue interp (.op .le [upper, left]) then (some upper, [⟨.op .le [upper, left], true⟩])
          else (some left, [⟨.op .le [upper, left], false⟩]) := by
      rcases ho.cases with ⟨rfl, rfl⟩ | ⟨offset, k, rfl, rfl, offsetValue⟩
      · exact ⟨limit, by simpa using value, rfl⟩
      · exact ⟨_, limitValue_op_minus value offsetValue, rfl⟩
    obtain ⟨left, leftValue, merged⟩ := leftValue
    have smaller := constTrue_op_le upperValue leftValue
    rw [merged] at holds ⊢
    simp only [pushedLimit]
    split at holds
    next decided =>
      rw [if_pos decided]
      have le : m ≤ n - o.getD 0 := by simpa [PlanConstraint.holds, smaller] using holds
      rwa [Int.min_eq_left le]
    next decided =>
      rw [if_neg decided]
      have gt : ¬m ≤ n - o.getD 0 := by simpa [PlanConstraint.holds, smaller] using holds
      rwa [Int.min_eq_right (by omega)]

theorem decided_holds (interp : Interp) (e : Expr) (yes no : Option Expr) :
    ∀ c ∈ (if constTrue interp e then (yes, [(⟨e, true⟩ : PlanConstraint)]) else (no, [⟨e, false⟩])).2,
      c.holds interp := by
  split <;> simp_all [PlanConstraint.holds]

theorem mergeLimit_holds (interp : Interp) (viewLimit upperLimit upperOffset : Option Expr) :
    ∀ c ∈ (mergeLimit interp viewLimit upperLimit upperOffset).2, c.holds interp := by
  unfold mergeLimit
  split
  · simp
  · simp
  · exact decided_holds interp _ _ _
  · exact decided_holds interp _ _ _

end IMBridge.Sql
