import IMBridge.PythonUdf.Operator
import Mathlib.Algebra.Order.Field.Basic
import Mathlib.Tactic.Linarith

/-!
The adaptation of a prediction size: an observation starts it, is ignored, raises the size or lowers
the throughput that the next ones are measured against.
-/

namespace IMBridge.PythonUdf

namespace UdfInfo

def Ignores (info : UdfInfo) (evalSize : Nat) : Prop :=
  info.roundLimit < info.round ∨ (evalSize : Int) ≠ info.predictSize

variable {info : UdfInfo} {evalSize : Nat}

theorem isZero_iff {q : Rat} : Numbers.isZero q = true ↔ q = 0 := decide_eq_true_iff

theorem modifyDesirable_first (first : info.tpsS = 0) (tps : Rat) (evalSize : Nat) :
    info.modifyDesirable tps evalSize = { info with tpsS := tps, predictSize := info.predictSize + info.delta } := by
  rw [modifyDesirable, if_pos (isZero_iff.mpr first)]
  rfl

theorem modifyDesirable_ignored (started : info.tpsS ≠ 0) (ignored : info.Ignores evalSize) (tps : Rat) :
    info.modifyDesirable tps evalSize = info := by
  rw [Ignores] at ignored
  rw [modifyDesirable, if_neg (mt isZero_iff.mp started), if_pos ignored]

theorem modifyDesirable_faster (started : info.tpsS ≠ 0) (taken : ¬ info.Ignores evalSize) {tps : Rat}
    (faster : info.tpsS < tps) :
    info.modifyDesirable tps evalSize = { info with
        round := if tps < (1 + info.lambda) * info.tpsS then info.round + 1 else info.round
        tpsS := tps
        predictSize := info.predictSize + info.delta } := by
  rw [Ignores] at taken
  rw [modifyDesirable, if_neg (mt isZero_iff.mp started), if_neg taken, if_pos faster]
  rfl

theorem modifyDesirable_slower (started : info.tpsS ≠ 0) (taken : ¬ info.Ignores evalSize) {tps : Rat}
    (slower : tps ≤ info.tpsS) :
    info.modifyDesirable tps evalSize = { info with
        tpsS := (1 - info.alpha) * info.tpsS + info.alpha * tps
        round :=
          if (1 - info.lambda) * ((1 - info.alpha) * info.tpsS + info.alpha * tps) < tps then
            info.round + 1
          else info.round } := by
  rw [Ignores] at taken
  rw [modifyDesirable, if_neg (mt isZero_iff.mp started), if_neg taken, if_neg (not_lt.mpr slower)]
  rfl

theorem predictSize_le_modifyDesirable (info : UdfInfo) (tps : Rat) (evalSize : Nat)
    (growing : 0 ≤ info.delta) :
    info.predictSize ≤ (info.modifyDesirable tps evalSize).predictSize := by
  rcases info.modifyDesirable_predictSize tps evalSize with same | moved
  · exact same.ge
  · rw [moved]
    exact Int.le_add_of_nonneg_right growing

structure Growing (info : UdfInfo) : Prop where
  positive : 0 < info.predictSize
  delta : 0 ≤ info.delta

theorem Growing.modifyDesirable (growing : info.Growing) (tps : Rat) (evalSize : Nat) :
    (info.modifyDesirable tps evalSize).Growing where
  positive := Int.lt_of_lt_of_le growing.positive (info.predictSize_le_modifyDesirable tps evalSize growing.delta)
  delta := by
    rw [info.modifyDesirable_delta]
    exact growing.delta

/-- An info as code generation sets it, after any number of observations. The info belongs to the
plan, so observations of earlier executions count. -/
inductive Adapted : UdfInfo → Prop
  | fresh : Adapted .fromRawExpr
  | observe {info : UdfInfo} (adapted : info.Adapted) {tps : Rat} (pos : 0 < tps)
      (evalSize : Nat) : Adapted (info.modifyDesirable tps evalSize)

theorem Adapted.growing (adapted : info.Adapted) : info.Growing := by
  induction adapted with
  | fresh => exact ⟨by decide, by decide⟩
  | observe _ _ evalSize ih => exact ih.modifyDesirable _ evalSize

def doubled : Nat → UdfInfo
  | 0 => .fromRawExpr
  | n + 1 => (doubled n).modifyDesirable (2 ^ (n + 1)) (256 * (n + 1))

theorem doubled_adapted (n : Nat) : (doubled n).Adapted := by
  induction n with
  | zero => exact .fresh
  | succ n ih => exact .observe ih (by positivity) _

/-- Every doubling adds 256 rows and does not use up a round. -/
theorem doubled_eq (n : Nat) : doubled n = ⟨256 * (n + 1), if n = 0 then 0 else 2 ^ n, 1 / 10, 1 / 4, 0, 10, 256⟩ := by
  induction n with
  | zero => rfl
  | succ n ih =>
    rw [doubled, ih, if_neg (Nat.succ_ne_zero n)]
    by_cases first : n = 0
    · subst first
      exact modifyDesirable_first rfl _ _
    have power : (0 : Rat) < 2 ^ n := by positivity
    have grows : (2 : Rat) ^ n < 2 ^ (n + 1) := by
      rw [pow_succ]
      linarith
    have large : ¬ (2 : Rat) ^ (n + 1) < (1 + 1 / 10) * 2 ^ n := by
      rw [pow_succ]
      linarith
    rw [if_neg first, modifyDesirable_faster power.ne' ?_ grows]
    · dsimp only
      rw [if_neg large]
      congr 1
    · rintro (late | other)
      · grind
      · exact other (by push_cast; rfl)

end UdfInfo

/-- The adaptation after every call is that of `modify_desirable` for a positive throughput. -/
def Env.Adapts {V : Type} (env : Env V) (tps : Nat → Rat) : Prop := (∀ tick, 0 < tps tick) ∧
    ∀ tick info evalSize, env.modify tick info evalSize = info.modifyDesirable (tps tick) evalSize

end IMBridge.PythonUdf
