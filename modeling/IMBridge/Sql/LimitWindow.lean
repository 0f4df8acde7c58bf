import IMBridge.Sql.LimitMerge

/-!
The merged LIMIT and OFFSET on the values that decide the merge, NULL and negative ones included.
-/

namespace IMBridge.Sql

open List
variable {α β : Type}

structure LimitExprs where
  viewLimit : Option Expr
  upperLimit : Option Expr
  viewOffset : Option Expr
  upperOffset : Option Expr

def LimitExprs.merge (exprs : LimitExprs) (interp : Interp) : Option Expr × Option Expr × List PlanConstraint :=
  mergeLimitOffset interp exprs.viewLimit exprs.upperLimit exprs.viewOffset exprs.upperOffset

/-- The integers that the clauses stand for, `none` for a clause that is missing. -/
structure LimitInts where
  viewLimit : Option Int
  upperLimit : Option Int
  viewOffset : Option Int
  upperOffset : Option Int

structure LimitExprs.ReadsInts (exprs : LimitExprs) (interp : Interp) (ints : LimitInts) : Prop where
  viewLimit : ReadsInt interp exprs.viewLimit ints.viewLimit
  upperLimit : ReadsInt interp exprs.upperLimit ints.upperLimit
  viewOffset : ReadsInt interp exprs.viewOffset ints.viewOffset
  upperOffset : ReadsInt interp exprs.upperOffset ints.upperOffset

/-- A row can pass: no limit is below 1, and the upper offset does not skip all that the view's
limit leaves. -/
structure LimitInts.LetsThrough (ints : LimitInts) : Prop where
  viewLimit : ∀ n ∈ ints.viewLimit, 1 ≤ n
  upperLimit : ∀ n ∈ ints.upperLimit, 1 ≤ n
  upperOffset : ∀ n ∈ ints.viewLimit, ∀ m ∈ ints.upperOffset, m < n

/-- The limit operator counts a negative offset as 0, the merge computes with it as it is. That
makes no difference to the sum of offsets of one sign; and a negative upper offset makes the
view's limit larger, which does not show below an upper limit that is not above it. -/
def LimitInts.Mergeable (ints : LimitInts) : Prop := ∀ m ∈ ints.upperOffset,
    (∀ n ∈ ints.viewOffset, 0 ≤ n ∧ 0 ≤ m ∨ n ≤ 0 ∧ m ≤ 0) ∧
      (0 ≤ m ∨ ∀ n ∈ ints.viewLimit, ∃ k ∈ ints.upperLimit, k ≤ n)

/-! ### Nothing passes -/

section

variable {interp : Interp}

theorem belowOne_iff {recorded : Int} {limit : Option Expr} :
    (belowOne interp recorded limit).1 = false ↔ ∀ e ∈ limit, ∃ n ∈ limitValue interp e, 1 ≤ n := by
  cases limit with
  | none => simp [belowOne]
  | some e => simp [belowOne, constTrue_ge_one]

variable (interp) in
theorem limitRows_zero (rows : List α) : limitRows interp (some (.int 0)) none rows = [] := by
  simp [limitRows, limitValue_int]

theorem limitValue_op_add_null {a b : Expr} (null : limitValue interp a = none ∨ limitValue interp b = none) :
    limitValue interp (.op .add [a, b]) = none := by
  unfold limitValue at null ⊢
  simp only [Expr.eval, Expr.evalList]
  cases evaluated : a.eval interp fun _ _ => .null with
  | null => rfl
  | bytes content => rfl
  | int n =>
    cases evaluated' : b.eval interp fun _ _ => .null with
    | null => rfl
    | bytes content => rfl
    | int m => simp [evaluated, evaluated'] at null

theorem mergeOffset_null {viewOffset upperOffset : Option Expr} {e : Expr}
    (ofOne : viewOffset = some e ∨ upperOffset = some e) (null : limitValue interp e = none) :
    ∃ merged, mergeOffset viewOffset upperOffset = some merged ∧ limitValue interp merged = none := by
  rcases ofOne with rfl | rfl
  · cases upperOffset with
    | none => exact ⟨e, rfl, null⟩
    | some upper => exact ⟨_, rfl, limitValue_op_add_null (Or.inl null)⟩
  · cases viewOffset with
    | none => exact ⟨e, rfl, null⟩
    | some offset => exact ⟨_, rfl, limitValue_op_add_null (Or.inr null)⟩

end

namespace LimitExprs

variable {exprs : LimitExprs} {interp : Interp} {ints : LimitInts}

theorem ReadsInts.zero_iff (reads : exprs.ReadsInts interp ints) :
    (mergeLimitAsZero interp exprs.viewLimit exprs.upperLimit exprs.upperOffset).1 = false ↔ ints.LetsThrough := by
  have limits : ∀ {limit : Option Expr} {l : Option Int} (recorded : Int), ReadsInt interp limit l →
      ((belowOne interp recorded limit).1 = false ↔ ∀ n ∈ l, 1 ≤ n) := by
    intro limit l recorded known
    rcases known.cases with ⟨rfl, rfl⟩ | ⟨e, n, rfl, rfl, value⟩ <;> simp [belowOne_iff, *]
  have skips : (skipsAll interp exprs.viewLimit exprs.upperOffset).1 = false ↔
      ∀ n ∈ ints.viewLimit, ∀ m ∈ ints.upperOffset, m < n := by
    rcases reads.viewLimit.cases with ⟨expr, int⟩ | ⟨e, n, expr, int, value⟩
    · simp [expr, int, skipsAll]
    rcases reads.upperOffset.cases with ⟨expr', int'⟩ | ⟨e', m, expr', int', value'⟩
    · simp [expr, int', expr', skipsAll]
    have ge := constTrue_op_ge (limitValue_op_minus value value') (limitValue_int interp 1)
    have behind : 1 ≤ n - m ↔ m < n := by omega
    simp only [expr, expr', int, int', skipsAll, ge, Option.mem_some_iff, forall_eq', behind]
    by_cases lt : m < n <;> simp [lt]
  simp only [mergeLimitAsZero, Bool.or_eq_false_iff, limits _ reads.viewLimit, limits _ reads.upperLimit, skips]
  constructor
  · rintro ⟨⟨viewLimit, upperLimit⟩, upperOffset⟩
    exact ⟨viewLimit, upperLimit, upperOffset⟩
  · rintro ⟨viewLimit, upperLimit, upperOffset⟩
    exact ⟨⟨viewLimit, upperLimit⟩, upperOffset⟩

variable (interp) in
theorem readsInt_pair (first second : Option Expr) : (∃ n m, ReadsInt interp first n ∧ ReadsInt interp second m) ∨
    ∃ e, (first = some e ∨ second = some e) ∧ limitValue interp e = none := by
  rcases readsInt_or_null interp first with ⟨n, hn⟩ | ⟨e, expr, null⟩
  · rcases readsInt_or_null interp second with ⟨m, hm⟩ | ⟨e, expr, null⟩
    · exact Or.inl ⟨n, m, hn, hm⟩
    · exact Or.inr ⟨e, Or.inr expr, null⟩
  · exact Or.inr ⟨e, Or.inl expr, null⟩

variable (interp exprs) in
theorem readsInts_or_null : (∃ ints, exprs.ReadsInts interp ints) ∨
    (∃ e, (exprs.viewLimit = some e ∨ exprs.upperLimit = some e) ∧ limitValue interp e = none) ∨
      ∃ e, (exprs.viewOffset = some e ∨ exprs.upperOffset = some e) ∧ limitValue interp e = none := by
  rcases readsInt_pair interp exprs.viewLimit exprs.upperLimit with ⟨l, u, hl, hu⟩ | null
  · rcases readsInt_pair interp exprs.viewOffset exprs.upperOffset with ⟨v, o, hv, ho⟩ | null
    · exact Or.inl ⟨⟨l, u, v, o⟩, hl, hu, hv, ho⟩
    · exact Or.inr (Or.inr null)
  · exact Or.inr (Or.inl null)

variable (stuck : ∀ ints, exprs.ReadsInts interp ints → ¬ints.LetsThrough)
include stuck

theorem merge_stuck (rows : List α) :
    limitRows interp (exprs.merge interp).1 (exprs.merge interp).2.1 rows = [] := by
  unfold merge mergeLimitOffset
  dsimp only
  split
  next zero => exact limitRows_zero interp rows
  next notZero =>
    rw [Bool.not_eq_true] at notZero
    have limits := notZero
    simp only [mergeLimitAsZero, Bool.or_eq_false_iff, belowOne_iff] at limits
    rcases exprs.readsInts_or_null interp with ⟨ints, reads⟩ | ⟨e, expr | expr, null⟩ | ⟨e, expr, null⟩
    · exact absurd (reads.zero_iff.1 notZero) (stuck ints reads)
    · simpa [null] using limits.1.1 e expr
    · simpa [null] using limits.1.2 e expr
    · obtain ⟨merged, offset, null'⟩ := mergeOffset_null expr null
      rw [offset]
      exact limitRows_null_offset null' _ rows

/-- Whatever part of the view's rows is kept, the upper clauses leave none of it. -/
theorem nested_stuck (rows : List α) {kept : List β}
    (fewer : kept.length ≤ (limitRows interp exprs.viewLimit exprs.viewOffset rows).length) :
    limitRows interp exprs.upperLimit exprs.upperOffset kept = [] := by
  have noRow : limitRows interp exprs.viewLimit exprs.viewOffset rows = [] →
      limitRows interp exprs.upperLimit exprs.upperOffset kept = [] := by
    intro empty
    rw [empty, length_nil, Nat.le_zero, length_eq_zero_iff] at fewer
    rw [fewer, limitRows_nil]
  rcases exprs.readsInts_or_null interp with ⟨ints, reads⟩ | ⟨e, expr | expr, null⟩ | ⟨e, expr | expr, null⟩
  · rw [limitRows_eq_sliceRows reads.viewLimit reads.viewOffset, length_sliceRows] at fewer
    rw [limitRows_eq_sliceRows reads.upperLimit reads.upperOffset, ← length_eq_zero_iff, length_sliceRows]
    by_contra some_row
    apply stuck ints reads
    constructor
    · intro n mem
      rw [Option.mem_def] at mem
      cases upper : ints.upperLimit <;> simp [mem, upper] at fewer some_row <;> omega
    · intro n mem
      rw [Option.mem_def] at mem
      simp [mem] at some_row
      omega
    · intro n mem m mem'
      rw [Option.mem_def] at mem mem'
      cases upper : ints.upperLimit <;> simp [mem, mem', upper] at fewer some_row <;> omega
  · apply noRow
    rw [expr, limitRows_null_limit null]
  · rw [expr, limitRows_null_limit null]
  · apply noRow
    rw [expr, limitRows_null_offset null]
  · rw [expr, limitRows_null_offset null]

end LimitExprs

/-! ### The window of the merged clauses -/

namespace LimitInts

variable (ints : LimitInts)

def mergedWindow : Option Nat × Option Nat :=
  ((pushedLimit ints.viewLimit ints.upperLimit ints.upperOffset).map Int.toNat,
    (addOffsets ints.viewOffset ints.upperOffset).map Int.toNat)

def nestedWindow : Option Nat × Option Nat :=
  (mergedLimit (ints.viewLimit.map Int.toNat) (ints.upperLimit.map Int.toNat) (ints.upperOffset.map Int.toNat),
    some ((ints.viewOffset.map Int.toNat).getD 0 + (ints.upperOffset.map Int.toNat).getD 0))

variable {ints} (lets : ints.LetsThrough)
include lets

theorem LetsThrough.mergedWindow_ne : ints.mergedWindow.1 ≠ some 0 := by
  obtain ⟨viewLimit, upperLimit, upperOffset⟩ := lets
  rcases ints with ⟨_ | l, _ | u, v, _ | o⟩ <;> simp_all [mergedWindow, pushedLimit] <;> omega

theorem LetsThrough.nestedWindow_ne : ints.nestedWindow.1 ≠ some 0 := by
  obtain ⟨viewLimit, upperLimit, upperOffset⟩ := lets
  rcases ints with ⟨_ | l, _ | u, v, _ | o⟩ <;> simp_all [nestedWindow, mergedLimit] <;> omega

theorem LetsThrough.mergeable_iff : ints.Mergeable ↔
    ints.mergedWindow.1 = ints.nestedWindow.1 ∧ ints.mergedWindow.2.getD 0 = ints.nestedWindow.2.getD 0 := by
  obtain ⟨viewLimit, upperLimit, upperOffset⟩ := lets
  rcases ints with ⟨_ | l, _ | u, _ | v, _ | o⟩ <;>
    simp_all [Mergeable, mergedWindow, nestedWindow, mergedLimit, pushedLimit, addOffsets] <;> omega

end LimitInts

theorem sliceRows_congr {limit offset offset' : Option Nat} (same : offset.getD 0 = offset'.getD 0) (rows : List α) :
    sliceRows limit offset rows = sliceRows limit offset' rows := by
  simp only [sliceRows, same]

namespace LimitExprs

variable {exprs : LimitExprs} {interp : Interp} {ints : LimitInts}

theorem ReadsInts.nested (reads : exprs.ReadsInts interp ints) (rows : List α) :
    limitRows interp exprs.upperLimit exprs.upperOffset (limitRows interp exprs.viewLimit exprs.viewOffset rows) =
      sliceRows ints.nestedWindow.1 ints.nestedWindow.2 rows := by
  rw [limitRows_eq_sliceRows reads.upperLimit reads.upperOffset,
    limitRows_eq_sliceRows reads.viewLimit reads.viewOffset, sliceRows_sliceRows]
  rfl

variable (reads : exprs.ReadsInts interp ints) (lets : ints.LetsThrough)
include reads lets

theorem ReadsInts.merge (rows : List α) : limitRows interp (exprs.merge interp).1 (exprs.merge interp).2.1 rows =
    sliceRows ints.mergedWindow.1 ints.mergedWindow.2 rows := by
  have notZero := reads.zero_iff.2 lets
  unfold LimitExprs.merge mergeLimitOffset
  simp only [notZero, Bool.false_eq_true, ↓reduceIte]
  have limit := reads.viewLimit.mergeLimit interp reads.upperLimit reads.upperOffset (mergeLimit_holds interp _ _ _)
  exact limitRows_eq_sliceRows limit (reads.viewOffset.mergeOffset reads.upperOffset) rows

theorem ReadsInts.merge_ne_nil (x : α) :
    ∃ n, limitRows interp (exprs.merge interp).1 (exprs.merge interp).2.1 (replicate n x) ≠ [] := by
  refine ⟨ints.mergedWindow.2.getD 0 + 1, ?_⟩
  rw [reads.merge lets, ← length_pos_iff, length_sliceRows, length_replicate]
  have visible := lets.mergedWindow_ne
  cases limit : ints.mergedWindow.1 with
  | none => simp
  | some n =>
    have pos : n ≠ 0 := fun zero => visible (limit.trans (congrArg some zero))
    simp
    omega

theorem ReadsInts.merge_eq_nested (mergeable : ints.Mergeable) (rows : List α) :
    limitRows interp (exprs.merge interp).1 (exprs.merge interp).2.1 rows =
      limitRows interp exprs.upperLimit exprs.upperOffset
        (limitRows interp exprs.viewLimit exprs.viewOffset rows) := by
  obtain ⟨limit, offset⟩ := lets.mergeable_iff.1 mergeable
  rw [reads.merge lets, reads.nested, limit, sliceRows_congr offset]

theorem ReadsInts.mergeable_of_same (x : α)
    (same : ∀ n, limitRows interp (exprs.merge interp).1 (exprs.merge interp).2.1 (replicate n x) =
      limitRows interp exprs.upperLimit exprs.upperOffset
        (limitRows interp exprs.viewLimit exprs.viewOffset (replicate n x))) : ints.Mergeable := by
  apply lets.mergeable_iff.2
  apply sliceRows_replicate_inj lets.mergedWindow_ne lets.nestedWindow_ne x
  intro n
  rw [← reads.merge lets, same, reads.nested]

omit reads lets in
theorem merge_eq_of_mergeable (mergeable : ∀ ints, exprs.ReadsInts interp ints → ints.LetsThrough → ints.Mergeable)
    (rows : List α) : limitRows interp (exprs.merge interp).1 (exprs.merge interp).2.1 rows =
      limitRows interp exprs.upperLimit exprs.upperOffset
        (limitRows interp exprs.viewLimit exprs.viewOffset rows) := by
  by_cases passes : ∃ ints, exprs.ReadsInts interp ints ∧ ints.LetsThrough
  · obtain ⟨ints, reads, lets⟩ := passes
    exact reads.merge_eq_nested lets (mergeable ints reads lets) rows
  · have stuck := fun ints reads lets => passes ⟨ints, reads, lets⟩
    rw [merge_stuck stuck, nested_stuck stuck rows (Nat.le_refl _)]

end LimitExprs

end IMBridge.Sql
