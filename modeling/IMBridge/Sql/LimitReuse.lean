import IMBridge.Sql.LimitWindow

/-!
Reuse of a plan with merged LIMIT and OFFSET. The merge is decided on the parameter values at
compile time; the plan is reused for all parameter values that satisfy the recorded constraints.
-/

namespace IMBridge.Sql

open List
variable {α : Type}

structure LimitValues where
  viewLimit : Option Nat
  upperLimit : Option Nat
  viewOffset : Option Nat
  upperOffset : Option Nat

def ReadsNat (interp : Interp) : Option Expr → Option Nat → Prop
  | none, none => True
  | some e, some n => limitValue interp e = some (n : Int)
  | _, _ => False

structure LimitExprs.Reads (exprs : LimitExprs) (interp : Interp) (values : LimitValues) : Prop where
  viewLimit : ReadsNat interp exprs.viewLimit values.viewLimit
  upperLimit : ReadsNat interp exprs.upperLimit values.upperLimit
  viewOffset : ReadsNat interp exprs.viewOffset values.viewOffset
  upperOffset : ReadsNat interp exprs.upperOffset values.upperOffset

variable (exprs : LimitExprs)

/-- The constraints recorded at compile time hold for the compile-time values. -/
def LimitExprs.SelfConsistent (interp : Interp) : Prop :=
  ∀ constraint ∈ (exprs.merge interp).2.2, constraint.holds interp

/-- The merged limit and offset select, for the parameters of `reuse`, the rows that the limit
and offset of the view and then the upper ones select. -/
def LimitExprs.SameRows (interp reuse : Interp) (rows : List α) : Prop :=
  limitRows reuse (exprs.merge interp).1 (exprs.merge interp).2.1 rows =
    limitRows reuse exprs.upperLimit exprs.upperOffset
      (limitRows reuse exprs.viewLimit exprs.viewOffset rows)

theorem constTrue_op_and (interp : Interp) (params : List Expr) :
    constTrue interp (.op .and params) = params.all (constTrue interp) := by
  have args : ∀ l : List Expr, (Expr.evalList interp (fun _ _ => .null) l).all Value.isTrue = l.all (constTrue interp) := by
    intro l
    induction l with
    | nil => rfl
    | cons e rest ih => rw [Expr.evalList, all_cons, all_cons, ih, constTrue]
  rw [constTrue, Expr.eval, Op.apply, args]
  cases params.all (constTrue interp) <;> rfl

variable {interp : Interp}

theorem ReadsNat.readsInt {e : Option Expr} {n : Option Nat} (reads : ReadsNat interp e n) :
    ReadsInt interp e (n.map Nat.cast) := by
  cases e <;> cases n <;> exact reads

theorem ReadsNat.cases {e : Option Expr} {n : Option Nat} (reads : ReadsNat interp e n) :
    (e = none ∧ n = none) ∨ ∃ e' n', e = some e' ∧ n = some n' ∧ limitValue interp e' = some (n' : Int) := by
  cases e <;> cases n <;> simp_all [ReadsNat]

theorem map_toNat_cast (n : Option Nat) : (n.map (Nat.cast : Nat → Int)).map Int.toNat = n := by
  cases n <;> rfl

theorem pushedLimit_cast (l u o : Option Nat) :
    (pushedLimit (l.map Nat.cast) (u.map Nat.cast) (o.map Nat.cast)).map Int.toNat = mergedLimit l u o := by
  cases l with
  | none => exact map_toNat_cast u
  | some l =>
    cases u with
    | none => cases o <;> simp [pushedLimit, mergedLimit]
    | some u =>
      cases o <;> simp [pushedLimit, mergedLimit] <;> omega

theorem addOffsets_cast (v o : Option Nat) :
    ((addOffsets (v.map Nat.cast) (o.map Nat.cast)).map Int.toNat).getD 0 = v.getD 0 + o.getD 0 := by
  cases v <;> cases o <;> simp [addOffsets]
  omega

/-! ### The test for an empty result -/

section Zero

variable {interp reuse : Interp} {viewLimit upperLimit upperOffset : Option Expr} {l u o : Option Nat}

theorem belowOne_all {recorded : Int} {limit : Option Expr} {n : Option Nat} (reads : ReadsNat reuse limit n) :
    (belowOne interp recorded limit).2.all (constTrue reuse) = true ↔ ∀ k ∈ n, recorded ≤ (k : Int) := by
  rcases reads.cases with ⟨rfl, rfl⟩ | ⟨e, k, rfl, rfl, value⟩
  · simp [belowOne]
  · simp [belowOne, constTrue_op_ge value (limitValue_int reuse recorded)]

theorem skipsAll_all (hl : ReadsNat reuse viewLimit l) (ho : ReadsNat reuse upperOffset o)
    (left : ∀ n ∈ l, ∀ k ∈ o, k < n) : (skipsAll interp viewLimit upperOffset).2.all (constTrue reuse) = true := by
  rcases hl.cases with ⟨rfl, rfl⟩ | ⟨limit, n, rfl, rfl, value⟩
  · simp [skipsAll]
  rcases ho.cases with ⟨rfl, rfl⟩ | ⟨offset, k, rfl, rfl, offsetValue⟩
  · simp [skipsAll]
  have lt : k < n := left n rfl k rfl
  have ge := constTrue_op_ge (limitValue_op_minus value offsetValue) (limitValue_int reuse 1)
  simp only [skipsAll]
  split
  · rfl
  rw [all_cons, ge]
  simp
  omega

theorem skipsAll_decided (interp : Interp) (viewLimit upperOffset : Option Expr) :
    (skipsAll interp viewLimit upperOffset).2.all (constTrue interp) = !(skipsAll interp viewLimit upperOffset).1 := by
  unfold skipsAll
  split
  · split <;> simp_all
  · rfl

def zeroParams (interp : Interp) (viewLimit upperLimit upperOffset : Option Expr) : List Expr :=
  (belowOne interp 1 viewLimit).2 ++ (belowOne interp (if viewLimit.isSome then 1 else 0) upperLimit).2 ++
    (skipsAll interp viewLimit upperOffset).2

theorem isEmpty_zeroParams (empty : (zeroParams interp viewLimit upperLimit upperOffset).isEmpty = true) :
    (mergeLimitAsZero interp viewLimit upperLimit upperOffset).1 = false := by
  cases viewLimit with
  | none =>
    cases upperLimit with
    | none => rfl
    | some _ => simp [zeroParams, belowOne] at empty
  | some _ => simp [zeroParams, belowOne] at empty

/-- The constraint says for all parameters which of the comparisons hold together. -/
theorem mergeLimitAsZero_holds : (∀ c ∈ (mergeLimitAsZero interp viewLimit upperLimit upperOffset).2, c.holds reuse) ↔
      ((zeroParams interp viewLimit upperLimit upperOffset).isEmpty = true ∨
        (zeroParams interp viewLimit upperLimit upperOffset).all (constTrue reuse) =
          !(mergeLimitAsZero interp viewLimit upperLimit upperOffset).1) := by
  have recorded : (mergeLimitAsZero interp viewLimit upperLimit upperOffset).2 =
      if (zeroParams interp viewLimit upperLimit upperOffset).isEmpty then []
      else [⟨.op .and (zeroParams interp viewLimit upperLimit upperOffset),
        !(mergeLimitAsZero interp viewLimit upperLimit upperOffset).1⟩] := rfl
  rw [recorded]
  split
  next empty => simp [empty]
  next some_param => simp [some_param, PlanConstraint.holds, constTrue_op_and]

theorem mergedLimit_eq_zero (hl : ReadsNat reuse viewLimit l) (hu : ReadsNat reuse upperLimit u)
    (ho : ReadsNat reuse upperOffset o)
    (zero : (mergeLimitAsZero interp viewLimit upperLimit upperOffset).1 = true)
    (holds : ∀ c ∈ (mergeLimitAsZero interp viewLimit upperLimit upperOffset).2, c.holds reuse) :
    mergedLimit l u o = some 0 := by
  by_contra some_row
  have failed : (zeroParams interp viewLimit upperLimit upperOffset).all (constTrue reuse) = false := by
    rcases mergeLimitAsZero_holds.1 holds with empty | all
    · rw [isEmpty_zeroParams empty] at zero
      cases zero
    · rw [all, zero]
      rfl
  have view : ∀ n ∈ l, (1 : Int) ≤ n := by
    rintro n rfl
    cases u <;> simp [mergedLimit] at some_row <;> omega
  have upper : ∀ m ∈ u, (if viewLimit.isSome then 1 else 0 : Int) ≤ m := by
    rintro m rfl
    rcases hl.cases with ⟨rfl, rfl⟩ | ⟨limit, n, rfl, rfl, -⟩
    · simp
    simp [mergedLimit] at some_row ⊢
    omega
  have left : ∀ n ∈ l, ∀ k ∈ o, k < n := by
    rintro n rfl k rfl
    cases u <;> simp [mergedLimit] at some_row <;> omega
  rw [zeroParams, all_append, all_append, (belowOne_all hl).2 view, (belowOne_all hu).2 upper,
    skipsAll_all hl ho left] at failed
  cases failed

/-- The constraint fails for the compile-time values only if the view has no limit and the upper
limit is 0: the recorded comparison with 0 is true then, and is expected to be false. -/
theorem mergeLimitAsZero_holds_iff (upperOffset : Option Expr) (hl : ReadsNat interp viewLimit l)
    (hu : ReadsNat interp upperLimit u) :
    (∀ c ∈ (mergeLimitAsZero interp viewLimit upperLimit upperOffset).2, c.holds interp) ↔
      ¬(l = none ∧ u = some 0) := by
  have decided : (mergeLimitAsZero interp viewLimit upperLimit upperOffset).1 = ((belowOne interp 1 viewLimit).1 ||
        (belowOne interp (if viewLimit.isSome then 1 else 0) upperLimit).1 ||
          (skipsAll interp viewLimit upperOffset).1) := rfl
  rw [mergeLimitAsZero_holds, zeroParams, all_append, all_append, skipsAll_decided, decided]
  rcases hl.cases with ⟨rfl, rfl⟩ | ⟨limit, n, rfl, rfl, value⟩
  · rcases hu.cases with ⟨rfl, rfl⟩ | ⟨upper, m, rfl, rfl, upperValue⟩
    · simp [belowOne, skipsAll]
    have ge := constTrue_op_ge upperValue (limitValue_int interp 0)
    have ge' := constTrue_op_ge upperValue (limitValue_int interp 1)
    simp [belowOne, skipsAll, ge, ge']
    omega
  · have all : (belowOne interp 1 (some limit)).2.all (constTrue interp) =
        !(belowOne interp 1 (some limit)).1 := by simp [belowOne]
    have all' : (belowOne interp (if (some limit).isSome then 1 else 0) upperLimit).2.all (constTrue interp) =
        !(belowOne interp (if (some limit).isSome then 1 else 0) upperLimit).1 := by
      cases upperLimit <;> simp [belowOne]
    rw [all, all']
    simp [Bool.not_or]

end Zero

/-! ### Reuse of the merged plan -/

theorem LimitExprs.sameRows {exprs : LimitExprs} {reuse : Interp} {values : LimitValues}
    (reads : exprs.Reads reuse values) (holds : ∀ c ∈ (exprs.merge interp).2.2, c.holds reuse) (rows : List α) :
    exprs.SameRows interp reuse rows := by
  rw [SameRows, limitRows_eq_sliceRows reads.upperLimit.readsInt reads.upperOffset.readsInt,
    limitRows_eq_sliceRows reads.viewLimit.readsInt reads.viewOffset.readsInt, sliceRows_sliceRows]
  simp only [map_toNat_cast]
  unfold merge mergeLimitOffset at holds ⊢
  dsimp only at holds ⊢
  split at holds
  next zero =>
    have none_left : ReadsInt reuse (some (.int 0)) (some 0) := limitValue_int reuse 0
    have no_offset : ReadsInt reuse none none := trivial
    rw [if_pos zero, mergedLimit_eq_zero reads.viewLimit reads.upperLimit reads.upperOffset zero holds,
      limitRows_eq_sliceRows none_left no_offset]
    simp [sliceRows]
  next notZero =>
    rw [if_neg notZero]
    have limit := reads.viewLimit.readsInt.mergeLimit interp reads.upperLimit.readsInt reads.upperOffset.readsInt
      fun c mem => holds c (mem_append_right _ mem)
    have offset := reads.viewOffset.readsInt.mergeOffset reads.upperOffset.readsInt
    rw [limitRows_eq_sliceRows limit offset, pushedLimit_cast]
    simp only [sliceRows, addOffsets_cast, Option.getD_some]

theorem LimitExprs.selfConsistent_iff {exprs : LimitExprs} {values : LimitValues} (reads : exprs.Reads interp values) :
    exprs.SelfConsistent interp ↔ ¬(values.viewLimit = none ∧ values.upperLimit = some 0) := by
  rw [← mergeLimitAsZero_holds_iff exprs.upperOffset reads.viewLimit reads.upperLimit]
  unfold SelfConsistent merge mergeLimitOffset
  dsimp only
  split
  · rfl
  simp only [mem_append]
  constructor
  · exact fun all c mem => all c (Or.inl mem)
  · rintro all c (ofZero | ofLimit)
    · exact all c ofZero
    · exact mergeLimit_holds interp _ _ _ c ofLimit

/-- Merging is exact for the plan and for all its reuses, unless the view has no limit and the
upper limit is 0 at compile time; the constraint recorded then fails for that very limit. -/
theorem mergeLimitOffset_exact_iff {exprs : LimitExprs} {interp : Interp} {values : LimitValues}
    (reads : exprs.Reads interp values) :
    (exprs.SelfConsistent interp ∧ ∀ reuse reuseValues, exprs.Reads reuse reuseValues →
      (∀ c ∈ (exprs.merge interp).2.2, c.holds reuse) → ∀ rows : List α, exprs.SameRows interp reuse rows) ↔
      ¬(values.viewLimit = none ∧ values.upperLimit = some 0) := by
  constructor
  · exact fun exact => (LimitExprs.selfConsistent_iff reads).1 exact.1
  · intro usual
    exact ⟨(LimitExprs.selfConsistent_iff reads).2 usual, fun reuse reuseValues reads' holds rows =>
      LimitExprs.sameRows reads' holds rows⟩

/-- Four parameters: LIMIT ?0 OFFSET ?1 in the view, LIMIT ?2 OFFSET ?3 above. -/
def paramLimits : LimitExprs := ⟨some (.param 0), some (.param 2), some (.param 1), some (.param 3)⟩

def paramInterp (params : List Int) : Interp :=
  ⟨fun i => .int (params.getD i 0), fun _ _ => .null, fun _ _ => .null⟩

theorem paramLimits_reads : paramLimits.Reads (paramInterp [10, 3, 5, 2]) ⟨some 10, some 5, some 3, some 2⟩ := by
  constructor <;> simp [paramLimits, paramInterp, ReadsNat, limitValue, Expr.eval]

theorem paramLimits_exact :
    paramLimits.SelfConsistent (paramInterp [10, 3, 5, 2]) ∧ ∀ reuse reuseValues, paramLimits.Reads reuse reuseValues →
      (∀ c ∈ (paramLimits.merge (paramInterp [10, 3, 5, 2])).2.2, c.holds reuse) →
        ∀ rows : List Nat, paramLimits.SameRows (paramInterp [10, 3, 5, 2]) reuse rows :=
  (mergeLimitOffset_exact_iff paramLimits_reads).2 (by simp)

/-- A view without limit under LIMIT 0: that the limit is at least 0 is recorded as false. -/
theorem limitZero_not_selfConsistent :
    ¬LimitExprs.SelfConsistent ⟨none, some (.param 0), none, none⟩ (paramInterp [0]) := by
  intro consistent
  have recorded : (⟨.op .and [.op .ge [.param 0, .int 0]], false⟩ : PlanConstraint) ∈
      (LimitExprs.merge ⟨none, some (.param 0), none, none⟩ (paramInterp [0])).2.2 := by
    simp [LimitExprs.merge, mergeLimitOffset, mergeLimitAsZero, belowOne, skipsAll, constTrue, paramInterp,
      Expr.eval, Expr.evalList, Expr.int, Op.apply, Value.ofBool, Value.isTrue]
  have holds := consistent _ recorded
  simp [PlanConstraint.holds, constTrue, paramInterp, Expr.eval, Expr.evalList, Expr.int, Op.apply, Value.ofBool,
    Value.isTrue] at holds

end IMBridge.Sql
