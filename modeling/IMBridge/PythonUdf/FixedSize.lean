import IMBridge.PythonUdf.ChunkSizes

/-!
`PREDICT(n)`. The resolver stores the size and a flag that fixes it in the metadata of the raw
expression; code generation drops both, `from_raw_expr` starts at 256 rows, and `do_process` adapts
the size in any case.
-/

namespace IMBridge.PythonUdf

open UDFMeta
open Numbers (int isZero isZero_zero)

variable {R : Type} [Numbers R]

namespace UdfInfo

variable {info : UdfInfo R} {n : Int} {saved : Nat}

/-- The adaptation is over. -/
def Settled (info : UdfInfo R) : Prop :=
  isZero info.tpsS = false ∧ info.roundLimit < info.round

theorem Settled.modifyDesirable (settled : info.Settled) (tps : R) (evalSize : Nat) :
    info.modifyDesirable tps evalSize = info := by
  rw [UdfInfo.modifyDesirable, if_neg (by rw [settled.1]; decide), if_pos (.inl settled.2)]

/-- Every call but the last one gets `n` rows. -/
def HonoursCalls (V : Type) (n : Int) (info : UdfInfo R) (saved : Nat) : Prop :=
  info.Ends V saved fun sizes _ => ∀ size ∈ sizes.dropLast, (size : Int) = n

/-- Besides, the size in use is `n` from the first call on and remains so. -/
def Honours (V : Type) (n : Int) (info : UdfInfo R) (saved : Nat) : Prop :=
  info.Ends V saved fun sizes last =>
    (∀ size ∈ sizes.dropLast, (size : Int) = n) ∧ info.predictSize = n ∧ last.predictSize = n

/-- What makes all calls but the last one get `n` rows: there is one call only, or the info has
this size and either keeps it or changes it for the last call at most. -/
def CallsFit (n : Int) (info : UdfInfo R) (saved : Nat) : Prop :=
  saved = 0 ∨ saved ≤ info.predictSize ∨ (info.predictSize = n ∧
    (info.Settled ∨ saved ≤ info.predictSize + int R (info.predictSize + info.delta)))

theorem CallsFit.modifyDesirable (large : 0 < n) {count : Nat} (fit : info.CallsFit n saved)
    (whole : (count : Int) = info.predictSize) (many : count < saved) (tps : R) :
    info.predictSize = n ∧ (info.modifyDesirable tps count).CallsFit n (saved - count) := by
  obtain ⟨asked, keeps⟩ : info.predictSize = n ∧
      (info.Settled ∨ saved ≤ info.predictSize + int R (info.predictSize + info.delta)) := by
    rcases fit with none | one | fit
    · omega
    · omega
    · exact fit
  refine ⟨asked, ?_⟩
  rcases keeps with settled | two
  · rw [settled.modifyDesirable]
    exact .inr (.inr ⟨asked, .inl settled⟩)
  rcases info.modifyDesirable_predictSize tps count with same | moved
  · refine .inr (.inr ⟨same.trans asked, .inr ?_⟩)
    rw [info.modifyDesirable_delta, same]
    omega
  · exact .inr (.inl (by omega))

theorem CallsFit.exists_splits (large : 0 < n) (fit : info.CallsFit n saved) (tps : Nat → R) (tick : Nat) :
    ∃ sizes last, Splits tps tick info saved sizes last ∧ ∀ size ∈ sizes.dropLast, (size : Int) = n := by
  induction saved using Nat.strong_induction_on generalizing tick info with
  | _ saved ih =>
    rcases Nat.eq_zero_or_pos saved with rfl | more
    · exact ⟨[], info, .done, by simp⟩
    rcases le_or_gt (saved : Int) info.predictSize with one | many
    · exact ⟨[saved], _, .single tps tick more one, by simp⟩
    have whole : 0 ≤ info.predictSize := by
      rcases fit with none | one | ⟨asked, -⟩ <;> omega
    obtain ⟨count, whole⟩ := Int.eq_ofNat_of_zero_le whole
    obtain ⟨asked, next⟩ := fit.modifyDesirable large whole.symm (by omega) (tps tick)
    obtain ⟨sizes, last, splits, even⟩ := ih (saved - count) (by omega) next (tick + 1)
    refine ⟨count :: sizes, last, .chunk more (by omega) splits, ?_⟩
    cases sizes with
    | nil => simp
    | cons next sizes =>
      grind

/-- Where `CallsFit` holds of the info before a round, the round makes its calls on `n` rows. -/
theorem CallsFit.honoursCalls (V : Type) (large : 0 < n) (fit : info.CallsFit n saved) :
    info.HonoursCalls V n saved := by
  refine ends_iff.mpr fun tps tick => ?_
  obtain ⟨sizes, last, splits, even⟩ := fit.exists_splits large tps tick
  refine ⟨sizes, last, splits, splits.length_le (splits.forall_pos fun size member => ?_), even⟩
  have := even size member
  omega

theorem predictSize_fromRawExpr : (fromRawExpr : UdfInfo R).predictSize = 256 := rfl

/-- The first observation always raises the generated size. -/
theorem modifyDesirable_fromRawExpr (tps : R) (evalSize : Nat) :
    ((fromRawExpr : UdfInfo R).modifyDesirable tps evalSize).predictSize = 512 := by
  have first : isZero (fromRawExpr : UdfInfo R).tpsS = true := isZero_zero
  rw [modifyDesirable, if_pos first]
  exact grown_fromRawExpr.raised (by decide)

/-- From the generated info a first call gets 256 rows and a second one 512. -/
theorem honoursCalls_fromRawExpr (V : Type) (large : 0 < n) (saved : Nat) :
    (fromRawExpr : UdfInfo R).HonoursCalls V n saved ↔ saved ≤ 256 ∨ (n = 256 ∧ saved ≤ 768) := by
  constructor
  · intro honours
    refine or_iff_not_imp_left.mpr fun several => ?_
    obtain ⟨sizes, last, splits, -, even⟩ := ends_iff.mp honours (fun _ => 0) 0
    obtain ⟨count, next, rest, first, rfl, later⟩ := splits.of_lt (by omega) (by
      rw [predictSize_fromRawExpr]
      omega)
    rw [predictSize_fromRawExpr] at first
    have asked := even count (by simp)
    refine ⟨by omega, ?_⟩
    by_contra three
    obtain ⟨second, _, _, moved, same, -⟩ := later.of_lt (by omega) (by
      rw [modifyDesirable_fromRawExpr]
      omega)
    rw [modifyDesirable_fromRawExpr] at moved
    have again := even second (by rw [same]; simp)
    omega
  · intro few
    refine CallsFit.honoursCalls V large ?_
    rcases few with one | ⟨rfl, two⟩
    · refine .inr (.inl ?_)
      rw [predictSize_fromRawExpr]
      omega
    · refine .inr (.inr ⟨rfl, .inr ?_⟩)
      rw [grown_fromRawExpr.raised (by decide), predictSize_fromRawExpr]
      omega

theorem Settled.honours (V : Type) (large : 0 < n) (settled : info.Settled) (asked : info.predictSize = n) :
    info.Honours V n saved := by
  have fit : info.CallsFit n saved := .inr (.inr ⟨asked, .inl settled⟩)
  refine ends_iff.mpr fun tps tick => ?_
  obtain ⟨sizes, last, splits, few, even⟩ := ends_iff.mp (fit.honoursCalls V large) tps tick
  have same : last = info := by
    clear fit few even
    induction splits with
    | done => rfl
    | @chunk tick left count info last sizes more size rest ih =>
      rw [settled.modifyDesirable] at ih
      exact ih settled asked
  exact ⟨sizes, last, splits, few, even, asked, by rw [same, asked]⟩

theorem honours_fromRawExpr (V : Type) (few : saved < 2147483648) :
    (fromRawExpr : UdfInfo R).Honours V n saved ↔ n = 256 ∧ saved = 0 := by
  constructor
  · intro honours
    obtain ⟨sizes, last, splits, -, -, asked, stays⟩ := ends_iff.mp honours (fun _ => 0) 0
    obtain rfl : 256 = n := asked
    refine ⟨rfl, ?_⟩
    cases splits with
    | done => rfl
    | @chunk _ _ count _ _ _ more size rest =>
      rw [predictSize_fromRawExpr] at size
      have raised : (512 : Int) ≤ last.predictSize := by
        rw [← modifyDesirable_fromRawExpr (R := R) 0 count]
        rcases le_or_gt 256 saved with whole | part
        · have grown := grown_fromRawExpr.modifyDesirable (R := R) (by decide)
            (show (count : Int) = 256 by omega) 0
          exact grown.predictSize_le (by omega) rest
        · rw [show saved - count = 0 by omega] at rest
          rw [rest.eq_of_zero]
      omega
  · rintro ⟨rfl, rfl⟩
    exact ends_iff.mpr fun tps tick => ⟨[], _, .done, Nat.le_refl 0, by simp, rfl, rfl⟩

end UdfInfo

namespace PythonUdfInfo

/-- The resolver records `PREDICT(n)`; every info that comes of it has forgotten it. In the first
round the calls get `n` rows, all but the last one, exactly if there are no rows, or the info has
not been copied and its sizes 256 and then 512 happen to fit. In any round, with whatever info the
earlier ones have left, `CallsFit` is enough. -/
theorem fixed_size_honoured_iff (V : Type) (udf : PythonUDF) {n : Int} (lower : 256 ≤ n)
    (upper : n ≤ 8192) (steps : List CopyStep) {saved : Nat} (few : saved < 2147483648) :
    ((setUdfMeta udf n {}).batchSize = n ∧ (setUdfMeta udf n {}).batchSizeConst = true) ∧
    (∀ info : PythonUdfInfo R, Reached (setUdfMeta udf n {}) steps info →
      info.udfMeta.batchSize = 256 ∧ info.udfMeta.batchSizeConst = false) ∧
    ((∀ info : PythonUdfInfo R, Reached (setUdfMeta udf n {}) steps info →
      info.steering.HonoursCalls V n saved) ↔
      saved = 0 ∨ (steps = [] ∧ (saved ≤ 256 ∨ (n = 256 ∧ saved ≤ 768)))) ∧
    ((∀ info : PythonUdfInfo R, Reached (setUdfMeta udf n {}) steps info →
      info.steering.Honours V n saved) ↔ steps = [] ∧ n = 256 ∧ saved = 0) ∧
    (∀ info : UdfInfo R, info.CallsFit n saved → info.HonoursCalls V n saved) ∧
    ∀ info : UdfInfo R, info.Settled → info.predictSize = n → info.Honours V n saved := by
  have large : 0 < n := by omega
  refine ⟨?_, fun info reached => reached.batchSize_lost, ?_, ?_,
    fun info fit => fit.honoursCalls V large, fun info settled asked => settled.honours V large asked⟩
  · rw [setUdfMeta, if_neg (by omega), if_neg (by omega)]
    exact ⟨rfl, rfl⟩
  · constructor
    · intro honours
      rcases eq_or_ne steps [] with rfl | copied
      · exact .inr ⟨rfl, (UdfInfo.honoursCalls_fromRawExpr V large saved).mp (honours _ .generated)⟩
      · obtain ⟨info, reached, unset⟩ := exists_reached _ steps (UdfInfo.zeroed (R := R))
        obtain ⟨sizes, last, splits, -⟩ := UdfInfo.ends_iff.mp (honours info reached) (fun _ => 0) 0
        rw [unset copied] at splits
        exact .inl (splits.eq_zero_of_still rfl rfl)
    · rintro (rfl | ⟨rfl, fits⟩) info reached
      · exact UdfInfo.CallsFit.honoursCalls V large (.inl rfl)
      · rw [reached.eq_fromRawExpr]
        exact (UdfInfo.honoursCalls_fromRawExpr V large saved).mpr fits
  · constructor
    · intro honours
      rcases eq_or_ne steps [] with rfl | copied
      · exact ⟨rfl, (UdfInfo.honours_fromRawExpr V few).mp (honours _ .generated)⟩
      · obtain ⟨info, reached, unset⟩ := exists_reached _ steps (UdfInfo.zeroed (R := R))
        obtain ⟨_, _, _, -, -, asked, -⟩ := UdfInfo.ends_iff.mp (honours info reached) (fun _ => 0) 0
        rw [unset copied] at asked
        have zero : 0 = n := asked
        omega
    · rintro ⟨rfl, fits⟩ info reached
      rw [reached.eq_fromRawExpr]
      exact (UdfInfo.honours_fromRawExpr V few).mpr fits

end PythonUdfInfo

def anyUdf : PythonUDF := ⟨"f", .integer, "", ["x"], [.integer]⟩

/-- `PREDICT(512)` as code generation leaves it: its one call on 200 rows. -/
theorem fixed_size_honoured_512 : 200 < 2147483648 ∧ ∀ (R : Type) [Numbers R] (info : PythonUdfInfo R),
    PythonUdfInfo.Reached (setUdfMeta anyUdf 512 {}) [] info → info.steering.HonoursCalls Nat 512 200 :=
  ⟨by decide, fun _ _ => (PythonUdfInfo.fixed_size_honoured_iff Nat anyUdf (by decide) (by decide) []
    (by decide)).2.2.1.mpr (.inr ⟨rfl, .inl (by decide)⟩)⟩

/-- With 1000 rows, some call before the last one gets another number of rows. -/
theorem fixed_size_lost : ∃ saved, ∀ (R : Type) [Numbers R], ¬ (PythonUdfInfo.fromRawExpr
      (setUdfMeta anyUdf 512 {}) : PythonUdfInfo R).steering.HonoursCalls Nat 512 saved := by
  refine ⟨1000, fun R _ honours => ?_⟩
  have fits := (UdfInfo.honoursCalls_fromRawExpr Nat (by decide) 1000).mp honours
  exact absurd fits (by decide)

end IMBridge.PythonUdf
