import Mathlib.Tactic.Ring
import Mathlib.Tactic.Linarith

/-!
The quotient digit of long division in a base `B`. The partial remainder `w` is below `B` times the
divisor `V`, whose leading digit is at least `B / 2`. `estimate` divides the leading digits; `trial`
lowers it by one when it is the base or when the next digits show it to be too large. That is off by
at most one, unless the estimate is `B + 1`.
-/

namespace IMBridge.Lib.LongDivision

def estimate (B n V w : ℕ) : ℕ := w / B ^ (n - 1) / (V / B ^ (n - 1))

def trial (B n V w : ℕ) : ℕ :=
  let e := estimate B n V w
  if e = B ∨ (2 ≤ n ∧ B * (w / B ^ (n - 1) % (V / B ^ (n - 1))) + w / B ^ (n - 2) % B <
      e * (V / B ^ (n - 2) % B)) then e - 1 else e

/-- A divisor of `n` digits whose leading digit is at least half the base. -/
structure Normalised (B n V : ℕ) : Prop where
  base : 2 ≤ B
  digits : 1 ≤ n
  below : V < B ^ n
  lead : B ≤ 2 * (V / B ^ (n - 1))

namespace Normalised

variable {B n V w : ℕ}

theorem lead_pos (norm : Normalised B n V) : 1 ≤ V / B ^ (n - 1) := by
  have base := norm.base
  have lead := norm.lead
  omega

theorem weight_pos (norm : Normalised B n V) (m : ℕ) : 0 < B ^ m := Nat.pow_pos (by have := norm.base; omega)

theorem pos (norm : Normalised B n V) : 0 < V := by
  have lead := norm.lead_pos
  by_contra zero
  rw [show V = 0 by omega, Nat.zero_div] at lead
  omega

theorem estimate_mul_le (B n V w : ℕ) : estimate B n V w * (V / B ^ (n - 1)) ≤ w / B ^ (n - 1) :=
  Nat.div_mul_le_self _ _

section

variable (norm : Normalised B n V)
include norm

theorem quotient_le_estimate : w / V ≤ estimate B n V w := by
  rw [estimate, Nat.le_div_iff_mul_le norm.lead_pos, Nat.le_div_iff_mul_le (norm.weight_pos _)]
  calc
    _ = w / V * (V / B ^ (n - 1) * B ^ (n - 1)) := Nat.mul_assoc _ _ _
    _ ≤ w / V * V := Nat.mul_le_mul_left _ (Nat.div_mul_le_self _ _)
    _ ≤ w := Nat.div_mul_le_self _ _

theorem quotient_lt (bound : w < V * B) : w / V < B := by
  rwa [Nat.div_lt_iff_lt_mul norm.pos, Nat.mul_comm]

/-- Above the weight `B ^ m` both numbers are cut off, which makes the quotient at most `d` still. -/
theorem div_lt_of_quotient_lt (m : ℕ) {d : ℕ} (less : w / V < d) : w / B ^ m < d * (V / B ^ m + 1) := by
  have weight := norm.weight_pos m
  have top : V < (V / B ^ m + 1) * B ^ m := (Nat.div_lt_iff_lt_mul weight).mp (Nat.lt_succ_self _)
  rw [Nat.div_lt_iff_lt_mul weight]
  calc
    w < (w / V + 1) * V := (Nat.div_lt_iff_lt_mul norm.pos).mp (Nat.lt_succ_self _)
    _ ≤ d * V := Nat.mul_le_mul_right _ less
    _ ≤ d * ((V / B ^ m + 1) * B ^ m) := Nat.mul_le_mul_left _ top.le
    _ = _ := (Nat.mul_assoc _ _ _).symm

theorem lead_lt (bound : w < V * B) : w / B ^ (n - 1) < (V / B ^ (n - 1) + 1) * B := by
  rw [Nat.mul_comm]
  exact norm.div_lt_of_quotient_lt (n - 1) (norm.quotient_lt bound)

theorem estimate_le (bound : w < V * B) : estimate B n V w ≤ B + 1 := by
  have lead := norm.lead
  have product := estimate_mul_le B n V w
  have top := norm.lead_lt bound
  by_contra large
  have scaled : (B + 2) * (V / B ^ (n - 1)) ≤ estimate B n V w * (V / B ^ (n - 1)) := Nat.mul_le_mul_right _ (by omega)
  grind

theorem estimate_le_add_two (bound : w < V * B) : estimate B n V w ≤ w / V + 2 := by
  have lead := norm.lead
  have le := norm.estimate_le bound
  have product := estimate_mul_le B n V w
  have nonneg := Nat.zero_le (w / V)
  by_contra large
  obtain ⟨d, sum⟩ : ∃ d, estimate B n V w = d + 2 := ⟨estimate B n V w - 2, by omega⟩
  have small := norm.div_lt_of_quotient_lt (n - 1) (show w / V < d by omega)
  rw [sum, Nat.add_mul] at product
  rw [Nat.mul_add, Nat.mul_one] at small
  omega

end

theorem estimate_one : estimate B 1 V w = w / V := by
  simp [estimate]

/-- The correction compares the estimate with the three leading digits of `w` and the two leading
digits of `V`. -/
theorem correction_iff (digits : 2 ≤ n) : B * (w / B ^ (n - 1) % (V / B ^ (n - 1))) + w / B ^ (n - 2) % B <
        estimate B n V w * (V / B ^ (n - 2) % B) ↔
      w / B ^ (n - 2) < estimate B n V w * (V / B ^ (n - 2)) := by
  have powers : B ^ (n - 1) = B ^ (n - 2) * B := by
    rw [← pow_succ, show n - 2 + 1 = n - 1 by omega]
  have split (x : ℕ) : x / B ^ (n - 2) = B * (x / B ^ (n - 1)) + x / B ^ (n - 2) % B := by
    rw [powers, ← Nat.div_div_eq_div_mul]
    exact (Nat.div_add_mod _ _).symm
  have division : V / B ^ (n - 1) * estimate B n V w + w / B ^ (n - 1) % (V / B ^ (n - 1)) =
      w / B ^ (n - 1) := Nat.div_add_mod _ _
  have splitW := split w
  have splitV := split V
  generalize w / B ^ (n - 1) % (V / B ^ (n - 1)) = rest at division ⊢
  generalize estimate B n V w = e at division ⊢
  generalize w / B ^ (n - 2) % B = next at splitW ⊢
  generalize V / B ^ (n - 2) % B = second at splitV ⊢
  rw [splitW, splitV, ← division]
  grind

variable (norm : Normalised B n V)
include norm

theorem quotient_lt_of_correction (test : w / B ^ (n - 2) < estimate B n V w * (V / B ^ (n - 2))) :
    w / V < estimate B n V w := by
  have weight := norm.weight_pos (n - 2)
  rw [Nat.div_lt_iff_lt_mul norm.pos]
  rw [Nat.div_lt_iff_lt_mul weight] at test
  calc
    w < estimate B n V w * (V / B ^ (n - 2)) * B ^ (n - 2) := test
    _ = estimate B n V w * (V / B ^ (n - 2) * B ^ (n - 2)) := Nat.mul_assoc _ _ _
    _ ≤ estimate B n V w * V := Nat.mul_le_mul_left _ (Nat.div_mul_le_self _ _)

theorem estimate_le_of_not_correction (digits : 2 ≤ n) (bound : w < V * B)
    (test : ¬ w / B ^ (n - 2) < estimate B n V w * (V / B ^ (n - 2))) :
    estimate B n V w ≤ w / V + 1 := by
  have le := norm.estimate_le bound
  have nonneg := Nat.zero_le (w / V)
  by_contra large
  -- two leading digits make at least the base
  have lead : B ≤ V / B ^ (n - 2) := by
    rw [Nat.le_div_iff_mul_le (norm.weight_pos _), ← pow_succ', show n - 2 + 1 = n - 1 by omega]
    exact (Nat.div_pos_iff.mp norm.lead_pos).2
  obtain ⟨d, sum⟩ : ∃ d, estimate B n V w = d + 1 := ⟨estimate B n V w - 1, by omega⟩
  have small := norm.div_lt_of_quotient_lt (n - 2) (show w / V < d by omega)
  rw [sum, Nat.add_mul] at test
  rw [Nat.mul_add, Nat.mul_one] at small
  omega

/-- An estimate that is at most the base becomes the digit or one more. -/
theorem trial_bounds (bound : w < V * B) (fits : estimate B n V w ≤ B) :
    w / V ≤ trial B n V w ∧ trial B n V w ≤ w / V + 1 ∧ trial B n V w < B := by
  have digit := norm.quotient_lt bound
  have lower := norm.quotient_le_estimate (w := w)
  have upper := norm.estimate_le_add_two bound
  have correct (digits : 2 ≤ n) (test : _) :=
    norm.quotient_lt_of_correction ((correction_iff (B := B) (w := w) digits).mp test)
  unfold trial
  dsimp only
  split
  next corrected =>
    grind
  next kept =>
    rw [not_or, not_and] at kept
    obtain ⟨notBase, noTest⟩ := kept
    have near : estimate B n V w ≤ w / V + 1 := by
      rcases Nat.lt_or_ge n 2 with one | digits
      · have single : n = 1 := by have := norm.digits; omega
        subst single
        rw [estimate_one]
        omega
      · apply norm.estimate_le_of_not_correction digits bound
        exact fun test => noTest digits ((correction_iff digits).mpr test)
    generalize w / V = q at *
    omega

/-- An estimate above the base is corrected to the base. -/
theorem trial_overshoot (bound : w < V * B) (large : B < estimate B n V w) : trial B n V w = B := by
  have le := norm.estimate_le bound
  have digit := norm.quotient_lt bound
  have digits : 2 ≤ n := by
    by_contra few
    have single : n = 1 := by have := norm.digits; omega
    subst single
    rw [estimate_one] at large
    omega
  have test : w / B ^ (n - 2) < estimate B n V w * (V / B ^ (n - 2)) := by
    by_contra noTest
    have near := norm.estimate_le_of_not_correction digits bound noTest
    omega
  unfold trial
  dsimp only
  rw [if_pos (Or.inr ⟨digits, (correction_iff digits).mpr test⟩)]
  omega

theorem overshoot_lead (bound : w < V * B) (large : B < estimate B n V w) :
    w / B ^ n = V / B ^ (n - 1) ∧ V / B ^ (n - 1) * B ^ n < w := by
  have digits := norm.digits
  have weight := norm.weight_pos (n - 1)
  have powers : B ^ n = B ^ (n - 1) * B := by rw [← pow_succ, show n - 1 + 1 = n by omega]
  have top := norm.lead_lt bound
  have lead := norm.lead_pos
  have product : (B + 1) * (V / B ^ (n - 1)) ≤ w / B ^ (n - 1) :=
    (Nat.mul_le_mul_right _ large).trans (estimate_mul_le B n V w)
  rw [Nat.add_mul, Nat.one_mul] at product
  have above : V / B ^ (n - 1) * B + 1 ≤ w / B ^ (n - 1) := by
    rw [Nat.mul_comm]
    omega
  constructor
  · rw [powers, ← Nat.div_div_eq_div_mul]
    exact Nat.div_eq_of_lt_le (by omega) top
  · rw [Nat.le_div_iff_mul_le weight] at above
    calc
      V / B ^ (n - 1) * B ^ n = V / B ^ (n - 1) * B * B ^ (n - 1) := by rw [powers]; ring
      _ < (V / B ^ (n - 1) * B + 1) * B ^ (n - 1) := Nat.mul_lt_mul_of_pos_right (by omega) weight
      _ ≤ w := above

theorem estimate_le_one (small : w ≤ V) : estimate B n V w ≤ 1 := by
  have ratio : w / B ^ (n - 1) ≤ V / B ^ (n - 1) := Nat.div_le_div_right small
  calc
    _ ≤ V / B ^ (n - 1) / (V / B ^ (n - 1)) := Nat.div_le_div_right ratio
    _ = 1 := Nat.div_self norm.lead_pos

end Normalised

/-! The whole division: the remainder before the digit of weight `B ^ j` is `U` modulo
`V * B ^ (j + 1)`. -/

section Rounds

variable {B V U : ℕ}

theorem window_eq (B V U j : ℕ) : U % (V * B ^ (j + 1)) / B ^ j = U / B ^ j % (V * B) := by
  rw [show V * B ^ (j + 1) = B ^ j * (V * B) by ring, Nat.mod_mul_right_div_self]

theorem remainder_step (B V U j : ℕ) :
    U % (V * B ^ (j + 1)) - U % (V * B ^ (j + 1)) / B ^ j / V * (V * B ^ j) = U % (V * B ^ j) := by
  have divides : V * B ^ j ∣ V * B ^ (j + 1) := ⟨B, by ring⟩
  rw [Nat.div_div_eq_div_mul, Nat.mul_comm (B ^ j) V, ← Nat.mod_mod_of_dvd U divides]
  have split := Nat.div_add_mod (U % (V * B ^ (j + 1))) (V * B ^ j)
  rw [Nat.mul_comm] at split
  omega

theorem quotient_step (B V U j : ℕ) : U / (V * B ^ (j + 1)) * B ^ (j + 1) + U % (V * B ^ (j + 1)) / B ^ j / V * B ^ j =
      U / (V * B ^ j) * B ^ j := by
  rw [Nat.div_div_eq_div_mul, Nat.mul_comm (B ^ j) V, show V * B ^ (j + 1) = V * B ^ j * B by ring,
    Nat.mod_mul_right_div_self, ← Nat.div_div_eq_div_mul, show B ^ (j + 1) = B * B ^ j by ring,
    ← Nat.mul_assoc, ← Nat.add_mul, Nat.mul_comm _ B, Nat.div_add_mod]

end Rounds

end IMBridge.Lib.LongDivision
