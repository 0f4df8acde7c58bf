import Mathlib.Data.Nat.Log
import Mathlib.Tactic.Linarith

/-!
Products of natural numbers in floating point: a double keeps 53 bits and rounds to the nearest
value, ties to even, so a number changes by at most one part in `2 ^ bits`.
-/

namespace IMBridge.Lib

open Nat
/-- The nearest number with at most `bits` significant bits, the even one of two equally near. -/
def roundToBits (bits n : Nat) : Nat :=
  if n < 2 ^ bits then n
  else
    let unit := 2 ^ (log 2 n + 1 - bits)
    if unit < 2 * (n % unit) ∨ (unit = 2 * (n % unit) ∧ n / unit % 2 = 1) then
      (n / unit + 1) * unit
    else n / unit * unit

theorem roundToBits_near (bits n : Nat) : 2 ^ bits * n ≤ 2 ^ bits * roundToBits bits n + n ∧
      2 ^ bits * roundToBits bits n ≤ 2 ^ bits * n + n := by
  by_cases small : n < 2 ^ bits
  · rw [roundToBits, if_pos small]
    exact ⟨Nat.le_add_right _ _, Nat.le_add_right _ _⟩
  have nonzero : n ≠ 0 := by
    rintro rfl
    exact small (Nat.two_pow_pos bits)
  have long : bits ≤ log 2 n := le_log_of_pow_le (by decide) (not_lt.mp small)
  generalize unit_eq : 2 ^ (log 2 n + 1 - bits) = unit
  -- Half a unit is at most one part in `2 ^ bits` of the number.
  have half : 2 ^ bits * unit ≤ 2 * n := by
    have power : 2 ^ bits * unit = 2 * 2 ^ log 2 n := by
      rw [← unit_eq, ← pow_add, ← pow_succ']
      congr 1
      omega
    rw [power]
    exact Nat.mul_le_mul_left 2 (pow_log_le_self 2 nonzero)
  have parts : n / unit * unit + n % unit = n := div_add_mod' n unit
  have less : n % unit < unit := mod_lt _ (unit_eq ▸ Nat.two_pow_pos _)
  obtain ⟨below, above⟩ : 2 * n ≤ 2 * roundToBits bits n + unit ∧ 2 * roundToBits bits n ≤ 2 * n + unit := by
    rw [roundToBits, if_neg small]
    simp only [unit_eq]
    split
    next up =>
      rw [Nat.add_mul, Nat.one_mul]
      omega
    next down => omega
  have lower := Nat.mul_le_mul_left (2 ^ bits) below
  have upper := Nat.mul_le_mul_left (2 ^ bits) above
  constructor <;> linarith

/-- The product of two doubles that are natural numbers up to a factor `2 ^ shift`, truncated: the
first is a rounded integer, the second has the mantissa `mantissa`. -/
def mulTrunc (mantissa shift n : Nat) : Nat :=
  roundToBits 53 (roundToBits 53 n * mantissa) / 2 ^ shift

theorem mulTrunc_bounds (mantissa shift n : Nat) :
    2 ^ shift * mulTrunc mantissa shift n * 2 ^ 106 ≤ n * mantissa * (2 ^ 53 + 1) ^ 2 ∧
      n * mantissa * (2 ^ 53 - 1) ^ 2 < 2 ^ shift * (mulTrunc mantissa shift n + 1) * 2 ^ 106 := by
  have whole := mul_div_le (roundToBits 53 (roundToBits 53 n * mantissa)) (2 ^ shift)
  have part := lt_mul_div_succ (roundToBits 53 (roundToBits 53 n * mantissa)) (Nat.two_pow_pos shift)
  rw [mulTrunc]
  generalize roundToBits 53 (roundToBits 53 n * mantissa) / 2 ^ shift = trunc at whole part ⊢
  obtain ⟨below₂, above₂⟩ := roundToBits_near 53 (roundToBits 53 n * mantissa)
  generalize roundToBits 53 (roundToBits 53 n * mantissa) = product at *
  obtain ⟨below₁, above₁⟩ := roundToBits_near 53 n
  generalize roundToBits 53 n = factor at *
  have above := Nat.mul_le_mul_right mantissa above₁
  have below := Nat.mul_le_mul_right mantissa below₁
  grind

end IMBridge.Lib
