import IMBridge.WideInteger.Divide

/-!
The rounds of the long division. A round whose estimated digit is above the base leaves the
numerator as it is and writes a zero digit, and no later round reaches the item that should have
been cleared.
-/

namespace IMBridge.WideInteger

open Lib.Limbs Lib.LongDivision ObWideInteger Nat

variable {k : ℕ} {s : Signedness}

namespace Impl

theorem pow_base (m : ℕ) : (2 ^ 64) ^ m = 2 ^ (64 * m) := (pow_mul 2 64 m).symm

theorem toNat_item_digit (x : ObWideInteger k s) (i : ℕ) : (x.item i).toNat = x.toNat / (2 ^ 64) ^ i % 2 ^ 64 := by
  rw [toNat_item, pow_base]

theorem toNat_correction {qq rr : DwType} {second next : UInt64} {e r : ℕ} (digit : qq.toNat = e)
    (rest : rr.toNat = r) (small : e ≤ 2 ^ 64 + 1) (below : r < 2 ^ 64) (two : Prop) [Decidable two] :
    (if qq = dwBase ∨ (two ∧ qq * dword second > dwBase * rr + dword next) then qq - 1
      else qq).toNat =
    if e = 2 ^ 64 ∨ (two ∧ 2 ^ 64 * r + next.toNat < e * second.toNat) then e - 1 else e := by
  have base : dwBase.toNat = 2 ^ 64 := rfl
  have product : e * second.toNat ≤ (2 ^ 64 + 1) * (2 ^ 64 - 1) :=
    Nat.mul_le_mul small (by have := word_lt second; omega)
  have nextLt := word_lt next
  have left : (qq * dword second).toNat = e * second.toNat := by
    rw [BitVec.toNat_mul, digit, toNat_dword]
    exact mod_eq_of_lt (by omega)
  have right : (dwBase * rr + dword next).toNat = 2 ^ 64 * r + next.toNat := by
    rw [BitVec.toNat_add, BitVec.toNat_mul, base, rest, toNat_dword]
    omega
  have condition : (qq = dwBase ∨ (two ∧ qq * dword second > dwBase * rr + dword next)) ↔
      (e = 2 ^ 64 ∨ (two ∧ 2 ^ 64 * r + next.toNat < e * second.toNat)) := by
    rw [gt_iff_lt, BitVec.lt_def, left, right, ← BitVec.toNat_inj, digit, base]
  simp only [condition]
  split
  next corrected =>
    grind
  next => exact digit

variable {j n b a W : ℕ} {num den : ObWideInteger k .unsigned}

theorem toNat_item_window (view : num.toNat / 2 ^ (64 * j) = W) (i : ℕ) :
    (num.item (j + i)).toNat = W / (2 ^ 64) ^ i % 2 ^ 64 := by
  rw [toNat_item, ← view, Nat.div_div_eq_div_mul, pow_base, ← pow_add, Nat.mul_add]

/-- The 128-bit arithmetic of the quotient digit does not wrap, so it computes `trial`. -/
theorem trialDigit_eq (norm : Normalised (2 ^ 64) n den.toNat)
    (view : num.toNat / 2 ^ (64 * j) = W) (bound : W < den.toNat * 2 ^ 64) :
    (trialDigit num den n j).toNat = trial (2 ^ 64) n den.toNat W := by
  have digits := norm.digits
  have high := toNat_item_window view n
  have low := toNat_item_window view (n - 1)
  have next := toNat_item_window view (n - 2)
  have lead := toNat_item_digit den (n - 1)
  have second := toNat_item_digit den (n - 2)
  have estimateLe := norm.estimate_le bound
  have leadPos := norm.lead_pos
  have powers : (2 ^ 64) ^ n = (2 ^ 64) ^ (n - 1) * 2 ^ 64 := by
    rw [← pow_succ, show n - 1 + 1 = n by omega]
  have leadLt : den.toNat / (2 ^ 64) ^ (n - 1) < 2 ^ 64 := by
    apply Nat.div_lt_of_lt_mul
    rw [← powers]
    exact norm.below
  have windowLt : W / (2 ^ 64) ^ (n - 1) < 2 ^ 128 := by
    apply Nat.div_lt_of_lt_mul
    calc
      _ < den.toNat * 2 ^ 64 := bound
      _ ≤ (2 ^ 64) ^ n * 2 ^ 64 := Nat.mul_le_mul_right _ norm.below.le
      _ = (2 ^ 64) ^ (n - 1) * 2 ^ 128 := by rw [powers]; ring
  rw [powers, ← Nat.div_div_eq_div_mul] at high
  rw [mod_eq_of_lt leadLt] at lead
  rw [show j + (n - 1) = j + n - 1 by omega] at low
  have value : (dword (num.item (j + n)) * dwBase + dword (num.item (j + n - 1))).toNat = W / (2 ^ 64) ^ (n - 1) := by
    rw [BitVec.toNat_add, BitVec.toNat_mul, toNat_dword, toNat_dword,
      show dwBase.toNat = 2 ^ 64 from rfl, high, low]
    generalize W / (2 ^ 64) ^ (n - 1) = window at windowLt
    omega
  unfold trialDigit trial
  dsimp only
  rw [toNat_correction (by rw [BitVec.toNat_udiv, value, toNat_dword, lead]; rfl)
    (by rw [BitVec.toNat_umod, value, toNat_dword, lead]) estimateLe
    ((mod_lt _ leadPos).trans leadLt), second]
  by_cases two : 2 ≤ n
  · rw [show j + n - 2 = j + (n - 2) by omega, next]
  · simp only [two, false_and]

theorem toNat_multiplyNative_unsigned (pos : 0 < k) (x : ObWideInteger k .unsigned) (digit : UInt64) :
    (multiplyNative false x (⟨digit⟩ : Native .unsigned)).2.toNat = x.toNat * digit.toNat % 2 ^ (64 * k) := by
  have whole : (⟨digit⟩ : Native .unsigned).toInt = digit.toNat := Native.toInt_of_not_isNegative rfl
  by_cases zero : digit = 0
  · rw [multiplyNative, if_pos zero, zero, toNat_zero]
    simp
  by_cases one : digit = 1
  · rw [multiplyNative, if_neg zero, if_pos one, one]
    simp [mod_eq_of_lt x.toNat_lt]
  have minimum : (⟨digit⟩ : Native .unsigned).toInt ≠ -2 ^ 63 := by rw [whole]; omega
  have stored := (multiplyNative_computes pos false x minimum zero one).stored
  rw [whole, toInt_unsigned] at stored
  exact_mod_cast stored

theorem value_overwrite_zero {words : List UInt64} (room : words.length ≤ k) :
    value (overwrite (zero k s).items 0 words) = value words := by
  have none : value (zero k s).items = 0 := toNat_zero
  rw [value_overwrite (by rw [(zero k s).size]; omega), none]
  simp

theorem toNat_windowMinus (room : n + 1 ≤ k) (view : num.toNat / 2 ^ (64 * j) = W)
    (window : W < 2 ^ (64 * (n + 1))) (den : ObWideInteger k .unsigned) (digit : UInt64) :
    ((windowMinus s num den n j digit).toNat : ℤ) = (W - (den.toNat * digit.toNat : ℕ) : ℤ) % 2 ^ (64 * k) := by
  have copied : value (overwrite (zero k s).items 0 ((num.items.drop j).take (n + 1))) = W := by
    rw [value_overwrite_zero ((List.length_take_le _ _).trans room), value_take, value_drop]
    exact (congrArg (· % _) view).trans (mod_eq_of_lt window)
  unfold windowMinus
  dsimp only
  rw [toNat_sub le_rfl, toNat_assign_same, toNat_multiplyNative_unsigned (by omega)]
  change ((value (overwrite _ 0 _) : ℤ) - _) % _ = _
  rw [copied]
  simp

section WriteBack

variable (room : j + n + 1 ≤ k)

include room

theorem value_writeBack (num : ObWideInteger k .unsigned) (window : ObWideInteger k s) :
    value (overwrite num.items j (window.items.take (n + 1))) =
      num.toNat % 2 ^ (64 * j) + 2 ^ (64 * j) * (window.toNat % 2 ^ (64 * (n + 1)) +
        2 ^ (64 * (n + 1)) * (num.toNat / 2 ^ (64 * (j + (n + 1))))) := by
  have length : (window.items.take (n + 1)).length = n + 1 := by
    rw [List.length_take, window.size]
    omega
  rw [value_overwrite (by rw [length, num.size]; omega), length, value_take]
  rfl

theorem longStep_high (den : ObWideInteger k .unsigned) (state : ObWideInteger k .unsigned × ObWideInteger k s) :
    (longStep den n state j).1.toNat / 2 ^ (64 * (j + n + 1)) = state.1.toNat / 2 ^ (64 * (j + n + 1)) := by
  have powers : 2 ^ (64 * (j + n + 1)) = 2 ^ (64 * j) * 2 ^ (64 * (n + 1)) := by
    rw [← pow_add, ← Nat.mul_add, Nat.add_assoc]
  unfold longStep
  dsimp only
  change value (overwrite _ _ _) / _ = _
  rw [value_writeBack room, Nat.add_assoc j n 1]
  generalize state.1.toNat / 2 ^ (64 * (j + (n + 1))) = high
  rw [← Nat.add_assoc, powers, ← Nat.div_div_eq_div_mul, add_mul_div_left _ _ (by positivity),
    div_eq_of_lt (mod_lt _ (by positivity)), Nat.zero_add,
    add_mul_div_left _ _ (by positivity), div_eq_of_lt (mod_lt _ (by positivity)),
    Nat.zero_add]

theorem value_written {window : ObWideInteger k s} {q V : ℕ} (view : num.toNat / 2 ^ (64 * j) = W)
    (below : W < 2 ^ (64 * (n + 1))) (left : window.toNat + V * q = W) :
    value (overwrite num.items j (window.items.take (n + 1))) = num.toNat - q * (V * 2 ^ (64 * j)) := by
  have split := mod_add_div num.toNat (2 ^ (64 * j))
  have none : num.toNat / 2 ^ (64 * (j + (n + 1))) = 0 := by
    rw [Nat.mul_add, pow_add, ← Nat.div_div_eq_div_mul, view]
    exact div_eq_of_lt below
  have inside : window.toNat % 2 ^ (64 * (n + 1)) = window.toNat := mod_eq_of_lt (by omega)
  rw [value_writeBack room, none, inside, Nat.mul_zero, Nat.add_zero]
  rw [view, ← left, Nat.mul_add] at split
  have product : q * (V * 2 ^ (64 * j)) = 2 ^ (64 * j) * (V * q) := by ring
  omega

theorem value_quotient {quotient : ObWideInteger k s} {digit : UInt64}
    (clear : quotient.toNat / 2 ^ (64 * j) % 2 ^ 64 = 0) :
    value (quotient.items.set j digit) = quotient.toNat + digit.toNat * 2 ^ (64 * j) := by
  have inside : j < quotient.items.length := by rw [quotient.size]; omega
  have written := value_set inside digit
  change _ + _ * (quotient.toNat / _ % _) = quotient.toNat + _ at written
  grind

end WriteBack

/-- The window after a round and the digit it writes: the denominator is added back where the
window went below zero. -/
def corrected (num den : ObWideInteger k .unsigned) (n j : ℕ) : ObWideInteger k .signed × DwType :=
  let qq := trialDigit num den n j
  let tmpCf := windowMinus .signed num den n j (lowWord qq)
  if tmpCf.isNegative then (add tmpCf (den.assign k .signed), qq - 1) else (tmpCf, qq)

theorem toNat_longStep (den : ObWideInteger k .unsigned) (state : ObWideInteger k .unsigned × ObWideInteger k .signed) :
    (longStep den n state j).1.toNat = value (overwrite state.1.items j
        ((corrected state.1 den n j).1.items.take (n + 1))) ∧
      (longStep den n state j).2.toNat = value (state.2.items.set j (lowWord (corrected state.1 den n j).2)) :=
  ⟨rfl, rfl⟩

section Round

variable (norm : Normalised (2 ^ 64) n den.toNat) (view : num.toNat / 2 ^ (64 * j) = W)

include norm in
theorem window_lt (bound : W < den.toNat * 2 ^ 64) : W < 2 ^ (64 * (n + 1)) := by
  have below := norm.below
  rw [pow_base] at below
  calc
    _ < den.toNat * 2 ^ 64 := bound
    _ ≤ 2 ^ (64 * n) * 2 ^ 64 := Nat.mul_le_mul_right _ below.le
    _ = _ := by rw [← pow_add, mul_succ]

include view

theorem windowMinus_of_le (den : ObWideInteger k .unsigned) (room : n + 1 ≤ k)
    (top : num.toNat < 2 ^ (64 * (k - 1))) (window : W < 2 ^ (64 * (n + 1)))
    {digit : UInt64} (le : den.toNat * digit.toNat ≤ W) :
    (windowMinus .signed num den n j digit).isNegative = false ∧
      (windowMinus .signed num den n j digit).toNat + den.toNat * digit.toNat = W := by
  have pos : 0 < k := by omega
  have small := Nat.div_le_self num.toNat (2 ^ (64 * j))
  have half := half_eq pos
  have left := toNat_windowMinus (s := .signed) room view window den digit
  generalize windowMinus .signed num den n j digit = tmpCf at left ⊢
  have fits : FitsSigned (64 * k) (W - (den.toNat * digit.toNat : ℕ) : ℤ) := by
    rw [fitsSigned_iff]
    omega
  have whole := toInt_eq_of_emod pos fits left
  have sign : tmpCf.isNegative = false := by
    rw [Bool.eq_false_iff, ne_eq, tmpCf.isNegative_iff_toInt_neg, whole]
    omega
  rw [tmpCf.toInt_of_not_isNegative sign] at whole
  exact ⟨sign, by omega⟩

/-- A window the product exceeds, by no more than the denominator, shows as negative, and adding
the denominator back gives the window less one fewer. -/
theorem windowMinus_of_gt (room : n + 1 ≤ k) (below : den.toNat ≤ 2 ^ (64 * (k - 1)))
    (window : W < 2 ^ (64 * (n + 1))) {digit : UInt64} {q : ℕ}
    (above : digit.toNat = q + 1) (le : den.toNat * q ≤ W) (gt : W < den.toNat * (q + 1)) :
    (windowMinus .signed num den n j digit).isNegative = true ∧
      (add (windowMinus .signed num den n j digit) (den.assign k .signed)).toNat + den.toNat * q = W := by
  have pos : 0 < k := by omega
  have half := half_eq pos
  have halves := two_mul_half pos
  have left := toNat_windowMinus (s := .signed) room view window den digit
  generalize windowMinus .signed num den n j digit = tmpCf at left ⊢
  rw [above] at left
  rw [mul_succ] at gt left
  have fits : FitsSigned (64 * k) (W - (den.toNat * q + den.toNat : ℕ) : ℤ) := by
    rw [fitsSigned_iff]
    omega
  have whole := toInt_eq_of_emod pos fits left
  have added := toNat_add le_rfl tmpCf (den.assign k .signed)
  have wraps : (2 ^ (64 * k) : ℤ) = ((2 ^ (64 * k) : ℕ) : ℤ) := by push_cast; rfl
  rw [toNat_assign_same, ← tmpCf.toInt_emod, Int.emod_add_emod, whole, wraps,
    Int.emod_eq_of_lt (by omega) (by omega)] at added
  constructor
  · rw [tmpCf.isNegative_iff_toInt_neg, whole]
    omega
  · omega

variable (room : j + n + 1 ≤ k) (top : num.toNat < 2 ^ (64 * (k - 1))) (bound : W < den.toNat * 2 ^ 64)

include room norm top bound

theorem corrected_exact (fits : estimate (2 ^ 64) n den.toNat W ≤ 2 ^ 64) :
    (corrected num den n j).1.toNat + den.toNat * (W / den.toNat) = W ∧
      (lowWord (corrected num den n j).2).toNat = W / den.toNat := by
  have window := window_lt norm bound
  have division := mul_div_le W den.toNat
  have remainder := lt_mul_div_succ W norm.pos
  obtain ⟨lower, upper, digitLt⟩ := norm.trial_bounds bound fits
  have digit := trialDigit_eq norm view bound
  have word : (lowWord (trialDigit num den n j)).toNat = trial (2 ^ 64) n den.toNat W := by
    rw [toNat_lowWord, digit, mod_eq_of_lt digitLt]
  unfold corrected
  dsimp only
  rcases (by omega : trial (2 ^ 64) n den.toNat W = W / den.toNat ∨
    trial (2 ^ 64) n den.toNat W = W / den.toNat + 1) with same | above
  · -- the digit is right and nothing is added back
    rw [same] at word
    obtain ⟨sign, left⟩ := windowMinus_of_le view den (by omega) top window (by rw [word]; exact division)
    grind
  · -- the digit is one too large, which the sign shows
    rw [above] at word digit digitLt
    have small : den.toNat ≤ 2 ^ (64 * (k - 1)) := by
      have below := norm.below
      rw [pow_base] at below
      exact below.le.trans (Nat.pow_le_pow_right (by decide) (by omega))
    obtain ⟨sign, left⟩ := windowMinus_of_gt view (by omega) small window word division remainder
    rw [sign, if_pos rfl]
    refine ⟨left, ?_⟩
    rw [toNat_lowWord, BitVec.toNat_sub, digit, show ((1 : DwType)).toNat = 1 from rfl]
    generalize W / den.toNat = q at digitLt
    omega

/-- A round whose estimate is above the base changes nothing: its digit is written as zero. -/
theorem longStep_overshoot (quotient : ObWideInteger k .signed) (large : 2 ^ 64 < estimate (2 ^ 64) n den.toNat W) :
    (longStep den n (num, quotient) j).1.toNat = num.toNat := by
  have window := window_lt norm bound
  have word : (lowWord (trialDigit num den n j)).toNat = 0 := by
    rw [toNat_lowWord, trialDigit_eq norm view bound, norm.trial_overshoot bound large, mod_self]
  obtain ⟨sign, left⟩ := windowMinus_of_le view den (by omega) top window
    (by rw [word, Nat.mul_zero]; exact Nat.zero_le _)
  rw [(toNat_longStep _ _).1, corrected]
  dsimp only
  rw [sign, if_neg Bool.false_ne_true]
  rw [word] at left
  rw [value_written room view window left, Nat.zero_mul, Nat.sub_zero]

end Round

section Rounds

variable {U J e : ℕ} {state : ObWideInteger k .unsigned × ObWideInteger k .signed}

def roundEstimate (n V U j : ℕ) : ℕ := estimate (2 ^ 64) n V (U / (2 ^ 64) ^ j % (V * 2 ^ 64))

/-- What exact rounds from `J` on have made of the numerator `U` and a zero quotient. -/
structure DownTo (V U J : ℕ) (state : ObWideInteger k .unsigned × ObWideInteger k .signed) : Prop where
  left : state.1.toNat = U % (V * (2 ^ 64) ^ J)
  found : state.2.toNat = U / (V * (2 ^ 64) ^ J) * (2 ^ 64) ^ J

theorem DownTo.window (down : DownTo den.toNat U (j + 1) state) :
    state.1.toNat / 2 ^ (64 * j) = U / (2 ^ 64) ^ j % (den.toNat * 2 ^ 64) := by
  rw [down.left, ← pow_base, window_eq]

theorem DownTo.lt {V : ℕ} (down : DownTo V U J state) (top : U < 2 ^ (64 * (k - 1))) :
    state.1.toNat < 2 ^ (64 * (k - 1)) := by
  rw [down.left]
  exact (mod_le _ _).trans_lt top

variable (norm : Normalised (2 ^ 64) n den.toNat)

include norm

theorem window_bound (j : ℕ) : U / (2 ^ 64) ^ j % (den.toNat * 2 ^ 64) < den.toNat * 2 ^ 64 :=
  mod_lt _ (Nat.mul_pos norm.pos (by decide))

theorem DownTo.step (room : j + n + 1 ≤ k) (top : U < 2 ^ (64 * (k - 1)))
    (down : DownTo den.toNat U (j + 1) state) (fits : roundEstimate n den.toNat U j ≤ 2 ^ 64) :
    DownTo den.toNat U j (longStep den n state j) := by
  have bound := window_bound (U := U) norm j
  have clear : state.2.toNat / 2 ^ (64 * j) % 2 ^ 64 = 0 := by
    rw [down.found, ← pow_base, pow_succ', ← Nat.mul_assoc, Nat.mul_div_cancel _ (by positivity), mul_mod_left]
  obtain ⟨left, digit⟩ := corrected_exact norm down.window room (down.lt top) bound fits
  obtain ⟨first, second⟩ := toNat_longStep (n := n) (j := j) den state
  constructor
  · rw [first, value_written room down.window (window_lt norm bound) left, ← down.window,
      ← pow_base, down.left, remainder_step]
  · rw [second, value_quotient room clear, digit, ← down.window, ← pow_base, down.found, down.left, quotient_step]

omit norm in
theorem longLoop_high (den : ObWideInteger k .unsigned) (room : J + n ≤ k)
    (state : ObWideInteger k .unsigned × ObWideInteger k s) :
    (longLoop den n J state).1.toNat / 2 ^ (64 * (J + n)) = state.1.toNat / 2 ^ (64 * (J + n)) := by
  induction J generalizing state with
  | zero => rfl
  | succ j ih =>
    have powers : 2 ^ (64 * (j + 1 + n)) = 2 ^ (64 * (j + n)) * 2 ^ 64 := by
      rw [← pow_add, ← mul_succ, Nat.add_right_comm]
    have step := longStep_high (j := j) (n := n) (by omega) den state
    rw [Nat.add_right_comm] at step
    calc
      _ = (longLoop den n j (longStep den n state j)).1.toNat /
          2 ^ (64 * (j + n)) / 2 ^ 64 := by rw [powers, ← Nat.div_div_eq_div_mul]; rfl
      _ = (longStep den n state j).1.toNat / 2 ^ (64 * (j + n)) / 2 ^ 64 := by
        rw [ih (by omega)]
      _ = (longStep den n state j).1.toNat / 2 ^ (64 * (j + 1 + n)) := by
        rw [powers, Nat.div_div_eq_div_mul]
      _ = _ := step

theorem longLoop_exact (top : U < 2 ^ (64 * (k - 1))) (room : J + n ≤ k)
    (fits : ∀ j < J, roundEstimate n den.toNat U j ≤ 2 ^ 64) (down : DownTo den.toNat U J state) :
    (longLoop den n J state).1.toNat = U % den.toNat ∧ (longLoop den n J state).2.toNat = U / den.toNat := by
  induction J generalizing state with
  | zero =>
    obtain ⟨left, found⟩ := down
    rw [pow_zero, Nat.mul_one] at left found
    rw [Nat.mul_one] at found
    exact ⟨left, found⟩
  | succ j ih =>
    exact ih (by omega) (fun i below => fits i (by omega)) (down.step norm (by omega) top (fits j (by omega)))

omit norm in
theorem succ_mul_pow_le {c d : ℕ} (pos : 0 < c) (below : c * 2 ^ d < 2 ^ e) : (c + 1) * 2 ^ d ≤ 2 ^ e := by
  have smaller : d ≤ e := by
    by_contra more
    have grows : 2 ^ e ≤ 2 ^ d := Nat.pow_le_pow_right (by decide) (by omega)
    have multiple := Nat.le_mul_of_pos_left (2 ^ d) pos
    omega
  have powers : 2 ^ e = 2 ^ (e - d) * 2 ^ d := by rw [← pow_add, Nat.sub_add_cancel smaller]
  rw [powers] at below ⊢
  exact Nat.mul_le_mul_right _ (Nat.lt_of_mul_lt_mul_right below)

theorem overshoot_stays {N : ℕ} (size : U ≤ 2 ^ e) (large : 2 ^ 64 < roundEstimate n den.toNat U j)
    (high : N / 2 ^ (64 * (j + n)) = U % (den.toNat * (2 ^ 64) ^ (j + 1)) / 2 ^ (64 * (j + n))) :
    den.toNat ≤ N ∧ N < 2 ^ e := by
  have lead := norm.lead_pos
  have below := norm.below
  have powers : 2 ^ (64 * (j + n)) = (2 ^ 64) ^ j * (2 ^ 64) ^ n := by
    rw [← pow_add, ← pow_mul]
  obtain ⟨top, behind⟩ := norm.overshoot_lead (window_bound norm j) large
  rw [powers, ← Nat.div_div_eq_div_mul (U % _), window_eq, top, ← powers] at high
  have size' : den.toNat / (2 ^ 64) ^ (n - 1) * 2 ^ (64 * (j + n)) < 2 ^ e := by
    calc
      _ = den.toNat / (2 ^ 64) ^ (n - 1) * (2 ^ 64) ^ n * (2 ^ 64) ^ j := by
        rw [powers]; ring
      _ < U / (2 ^ 64) ^ j % (den.toNat * 2 ^ 64) * (2 ^ 64) ^ j := Nat.mul_lt_mul_of_pos_right behind (by positivity)
      _ ≤ U / (2 ^ 64) ^ j * (2 ^ 64) ^ j := Nat.mul_le_mul_right _ (mod_le _ _)
      _ ≤ U := div_mul_le_self _ _
      _ ≤ 2 ^ e := size
  have split := div_add_mod N (2 ^ (64 * (j + n)))
  rw [high, Nat.mul_comm] at split
  constructor
  · calc
      den.toNat ≤ (2 ^ 64) ^ n := below.le
      _ ≤ 2 ^ (64 * (j + n)) := by rw [powers]; exact Nat.le_mul_of_pos_left _ (by positivity)
      _ ≤ den.toNat / (2 ^ 64) ^ (n - 1) * 2 ^ (64 * (j + n)) := Nat.le_mul_of_pos_left _ lead
      _ ≤ N := by omega
  · have rounded := succ_mul_pow_le lead size'
    rw [Nat.add_mul, Nat.one_mul] at rounded
    omega

/-- When some estimate is above the base, the first such round is never made good: the numerator
ends with the leading item it had there, so it is at least the denominator. It is also below any
power of two that the dividend does not exceed. -/
theorem longLoop_overshoot (top : U < 2 ^ (64 * (k - 1))) (room : J + n ≤ k) (size : U ≤ 2 ^ e)
    (large : ∃ j < J, 2 ^ 64 < roundEstimate n den.toNat U j) (down : DownTo den.toNat U J state) :
    den.toNat ≤ (longLoop den n J state).1.toNat ∧ (longLoop den n J state).1.toNat < 2 ^ e := by
  induction J generalizing state with
  | zero => exact absurd large (by simp)
  | succ j ih =>
    rcases Nat.lt_or_ge (2 ^ 64) (roundEstimate n den.toNat U j) with above | fits
    · have same := longStep_overshoot norm down.window (by omega) (down.lt top) (window_bound norm j) state.2 above
      apply overshoot_stays norm size above
      rw [← down.left, ← same]
      exact longLoop_high den (J := j) (by omega) _
    · apply ih (by omega) _ (down.step norm (by omega) top fits)
      grind

end Rounds

/-- The bits by which a denominator of value `b` is shifted to bring its leading bit to the top of
an item. -/
def normalShift (b : ℕ) : ℕ := 63 - b.log2 % 64

def digitCount (b : ℕ) : ℕ := b.log2 / 64 + 1

/-- No estimate of the long division of `a` by `b` is above the base. -/
def TrialDigitsFit (a b : ℕ) : Prop :=
  ∀ j ≤ a.log2 / 64 + 1, estimate (2 ^ 64) (digitCount b) (b * 2 ^ normalShift b)
    (a * 2 ^ normalShift b / (2 ^ 64) ^ j % (b * 2 ^ normalShift b * 2 ^ 64)) ≤ 2 ^ 64

instance (a b : ℕ) : Decidable (TrialDigitsFit a b) :=
  inferInstanceAs (Decidable (∀ j ≤ a.log2 / 64 + 1, estimate _ _ _ _ ≤ 2 ^ 64))

theorem log2_shifted {x : ℕ} (nonzero : x ≠ 0) (c : ℕ) : (x * 2 ^ c).log2 = x.log2 + c := by
  have top := log2_top (show 0 < 2 ^ c by positivity) nonzero
  rwa [Nat.zero_add, Nat.mul_comm, Nat.add_comm] at top

theorem normalShift_log2 (nonzero : b ≠ 0) : (b * 2 ^ normalShift b).log2 = 64 * digitCount b - 1 := by
  rw [log2_shifted nonzero, normalShift, digitCount]
  omega

theorem normalShift_nonzero (nonzero : b ≠ 0) : b * 2 ^ normalShift b ≠ 0 := Nat.mul_ne_zero nonzero (by positivity)

theorem lt_of_log2_lt {x e : ℕ} (small : x.log2 < e) : x < 2 ^ e := by
  calc
    x < 2 ^ (x.log2 + 1) := lt_log2_self
    _ ≤ 2 ^ e := Nat.pow_le_pow_right (by decide) small

theorem le_normalShift (nonzero : b ≠ 0) : 2 ^ 63 * (2 ^ 64) ^ (digitCount b - 1) ≤ b * 2 ^ normalShift b := by
  have lower := log2_self_le (normalShift_nonzero nonzero)
  rw [normalShift_log2 nonzero] at lower
  calc
    _ = 2 ^ (64 * digitCount b - 1) := by
      rw [pow_base, ← pow_add, digitCount]
      congr 1
      omega
    _ ≤ _ := lower

theorem normalised (nonzero : b ≠ 0) : Normalised (2 ^ 64) (digitCount b) (b * 2 ^ normalShift b) where
  base := by decide
  digits := Nat.le_add_left 1 _
  below := by
    rw [pow_base]
    apply lt_of_log2_lt
    rw [normalShift_log2 nonzero, digitCount]
    omega
  lead := by
    have half : 2 ^ 63 ≤ b * 2 ^ normalShift b / (2 ^ 64) ^ (digitCount b - 1) := by
      rw [Nat.le_div_iff_mul_le (by positivity)]
      exact le_normalShift nonzero
    omega

theorem trialDigitsFit_of_lt (less : a < b) : TrialDigitsFit a b := by
  intro j _
  have small : a * 2 ^ normalShift b / (2 ^ 64) ^ j ≤ b * 2 ^ normalShift b :=
    (Nat.div_le_self _ _).trans (Nat.mul_le_mul_right _ less.le)
  exact ((normalised (by omega)).estimate_le_one ((mod_le _ _).trans small)).trans (by decide)

theorem trialDigitsFit_of_small (nonzero : b ≠ 0) (small : b < 2 ^ 64) : TrialDigitsFit a b := by
  intro j _
  have single : digitCount b = 1 := by
    have log := (log2_lt nonzero).mpr small
    rw [digitCount]
    omega
  have pos := (normalised nonzero).pos
  rw [single, Normalised.estimate_one]
  exact Nat.div_le_of_le_mul (mod_lt _ (Nat.mul_pos pos (by decide))).le

/-- Rounds above the items of the dividend have nothing to divide. -/
theorem estimate_of_rounds {J : ℕ} (nonzero : b ≠ 0)
    (top : a * 2 ^ normalShift b < b * 2 ^ normalShift b * (2 ^ 64) ^ J) (above : J ≤ j) :
    roundEstimate (digitCount b) (b * 2 ^ normalShift b) (a * 2 ^ normalShift b) j ≤ 2 ^ 64 := by
  have small : a * 2 ^ normalShift b / (2 ^ 64) ^ j ≤ b * 2 ^ normalShift b := by
    calc
      _ ≤ a * 2 ^ normalShift b / (2 ^ 64) ^ J :=
        div_le_div_left (Nat.pow_le_pow_right (by decide) above) (by positivity)
      _ ≤ _ := (Nat.div_lt_of_lt_mul (by rw [Nat.mul_comm ((2 ^ 64) ^ J)]; exact top)).le
  exact ((normalised nonzero).estimate_le_one ((mod_le _ _).trans small)).trans (by decide)

structure Prepared (num den : ObWideInteger k .unsigned) : Prop where
  nonzero : den.toNat ≠ 0
  le : den.toNat ≤ num.toNat
  free : nlz den % 64 + 64 ≤ nlz num

namespace Prepared

def rounds (num den : ObWideInteger k .unsigned) : ℕ :=
  itemSize (shiftLeft num (nlz den % 64)) - digitCount den.toNat + 1

variable (ready : Prepared num den)

include ready

theorem shift_eq : nlz den % 64 = normalShift den.toNat := by
  have zeros := nlz_eq ready.nonzero
  rw [normalShift]
  omega

theorem numerator_nonzero : num.toNat ≠ 0 := by
  have nonzero := ready.nonzero
  have le := ready.le
  omega

theorem top : num.toNat * 2 ^ normalShift den.toNat < 2 ^ (64 * (k - 1)) := by
  have zeros := nlz_eq ready.numerator_nonzero
  have free := ready.free
  rw [ready.shift_eq] at free
  apply lt_of_log2_lt
  rw [log2_shifted ready.numerator_nonzero]
  omega

theorem toNat_shifted {x : ObWideInteger k .unsigned} (le : x.toNat ≤ num.toNat) :
    (shiftLeft x (nlz den % 64)).toNat = x.toNat * 2 ^ normalShift den.toNat := by
  rw [toNat_shiftLeft, ready.shift_eq]
  apply mod_eq_of_lt
  calc
    _ ≤ num.toNat * 2 ^ normalShift den.toNat := Nat.mul_le_mul_right _ le
    _ < _ := ready.top.trans_le (Nat.pow_le_pow_right (by decide) (by omega))

theorem itemSize_den : itemSize (shiftLeft den (nlz den % 64)) = digitCount den.toNat := by
  have nonzero := normalShift_nonzero ready.nonzero
  rw [itemSize_eq (by rwa [ready.toNat_shifted ready.le]), ready.toNat_shifted ready.le,
    normalShift_log2 ready.nonzero, digitCount]
  omega

theorem rounds_eq : rounds num den + digitCount den.toNat = (num.toNat.log2 + normalShift den.toNat) / 64 + 2 ∧
      1 ≤ digitCount den.toNat ∧
      rounds num den + digitCount den.toNat ≤ k := by
  have nonzero := ready.nonzero
  have shifted := log2_shifted ready.numerator_nonzero (normalShift den.toNat)
  have product : num.toNat * 2 ^ normalShift den.toNat ≠ 0 := Nat.mul_ne_zero ready.numerator_nonzero (by positivity)
  have less := (log2_lt product).mpr ready.top
  have fewer : (den.toNat * 2 ^ normalShift den.toNat).log2 ≤ (num.toNat * 2 ^ normalShift den.toNat).log2 := by
    rw [le_log2 product]
    exact (log2_self_le (normalShift_nonzero nonzero)).trans (Nat.mul_le_mul_right _ ready.le)
  rw [normalShift_log2 nonzero] at fewer
  rw [rounds, itemSize_eq (by rwa [ready.toNat_shifted le_rfl]), ready.toNat_shifted le_rfl]
  rw [shifted] at fewer less ⊢
  have digits : 1 ≤ digitCount den.toNat := Nat.le_add_left 1 _
  omega

theorem rounds_le : rounds num den ≤ num.toNat.log2 / 64 + 2 := by
  have small : normalShift den.toNat ≤ 63 := sub_le _ _
  have rounds := ready.rounds_eq
  omega

theorem rounds_cover : num.toNat * 2 ^ normalShift den.toNat <
      den.toNat * 2 ^ normalShift den.toNat * (2 ^ 64) ^ rounds num den := by
  obtain ⟨count, digits, -⟩ := ready.rounds_eq
  calc
    _ < 2 ^ (num.toNat.log2 + normalShift den.toNat + 1) := by
      rw [← log2_shifted ready.numerator_nonzero]
      exact lt_log2_self
    _ ≤ 2 ^ (63 + 64 * (digitCount den.toNat - 1) + 64 * rounds num den) := Nat.pow_le_pow_right (by decide) (by omega)
    _ = 2 ^ 63 * (2 ^ 64) ^ (digitCount den.toNat - 1) * (2 ^ 64) ^ rounds num den := by
      rw [pow_base, pow_base, ← pow_add, ← pow_add]
    _ ≤ _ := Nat.mul_le_mul_right _ (le_normalShift ready.nonzero)

theorem trialDigitsFit_iff : TrialDigitsFit num.toNat den.toNat ↔
      ∀ j < rounds num den, roundEstimate (digitCount den.toNat) (den.toNat * 2 ^ normalShift den.toNat)
        (num.toNat * 2 ^ normalShift den.toNat) j ≤ 2 ^ 64 := by
  have few := ready.rounds_le
  constructor
  · intro fits j below
    exact fits j (by omega)
  · intro fits j _
    rcases Nat.lt_or_ge j (rounds num den) with below | above
    · exact fits j below
    · exact estimate_of_rounds ready.nonzero ready.rounds_cover above

end Prepared

section Whole

variable (ready : Prepared num den)

def preparedLoop (num den : ObWideInteger k .unsigned) :
    ObWideInteger k .unsigned × ObWideInteger k .signed :=
  longLoop (shiftLeft den (nlz den % 64)) (digitCount den.toNat) (Prepared.rounds num den)
    (shiftLeft num (nlz den % 64), .zero k .signed)

include ready

theorem longDivide_of_loop : (longDivide num den (nlz den % 64) (.zero k .signed)).1.toNat =
        (preparedLoop num den).2.toNat ∧
      (longDivide num den (nlz den % 64) (.zero k .signed)).2.toNat =
        (preparedLoop num den).1.toNat / 2 ^ normalShift den.toNat := by
  rw [← ready.shift_eq]
  unfold longDivide preparedLoop Prepared.rounds
  dsimp only
  rw [ready.itemSize_den, toNat_assign_same, toNat_shiftRight]
  exact ⟨rfl, rfl⟩

theorem downTo_start : DownTo (den.toNat * 2 ^ normalShift den.toNat)
    (num.toNat * 2 ^ normalShift den.toNat) (Prepared.rounds num den)
    (shiftLeft num (nlz den % 64), .zero k .signed) where
  left := by rw [ready.toNat_shifted le_rfl, mod_eq_of_lt ready.rounds_cover]
  found := by rw [div_eq_of_lt ready.rounds_cover, Nat.zero_mul, toNat_zero]

theorem longDivide_exact (fits : TrialDigitsFit num.toNat den.toNat) :
    (longDivide num den (nlz den % 64) (.zero k .signed)).1.toNat = num.toNat / den.toNat ∧
      (longDivide num den (nlz den % 64) (.zero k .signed)).2.toNat = num.toNat % den.toNat := by
  have norm := normalised ready.nonzero
  have down := downTo_start ready
  have scale : 0 < 2 ^ normalShift den.toNat := by positivity
  obtain ⟨-, -, room⟩ := ready.rounds_eq
  rw [ready.trialDigitsFit_iff] at fits
  rw [← ready.toNat_shifted ready.le] at norm down fits
  obtain ⟨left, found⟩ := longLoop_exact norm ready.top room fits down
  rw [ready.toNat_shifted ready.le] at left found
  obtain ⟨first, second⟩ := longDivide_of_loop ready
  constructor
  · rw [first, preparedLoop, found, Nat.mul_div_mul_right _ _ scale]
  · rw [second, preparedLoop, left, mul_mod_mul_right, Nat.mul_div_cancel _ scale]

/-- A division with an estimate above the base leaves more than a remainder, though not more than
the width of the dividend. -/
theorem longDivide_overshoot (large : ¬ TrialDigitsFit num.toNat den.toNat) {e : ℕ} (size : num.toNat ≤ 2 ^ e) :
    den.toNat ≤ (longDivide num den (nlz den % 64) (.zero k .signed)).2.toNat ∧
      (longDivide num den (nlz den % 64) (.zero k .signed)).2.toNat < 2 ^ e := by
  have norm := normalised ready.nonzero
  have down := downTo_start ready
  have scale : 0 < 2 ^ normalShift den.toNat := by positivity
  have size' : num.toNat * 2 ^ normalShift den.toNat ≤ 2 ^ (e + normalShift den.toNat) := by
    rw [pow_add]
    exact Nat.mul_le_mul_right _ size
  obtain ⟨-, -, room⟩ := ready.rounds_eq
  rw [ready.trialDigitsFit_iff] at large
  push Not at large
  rw [← ready.toNat_shifted ready.le] at norm down large
  obtain ⟨lower, upper⟩ := longLoop_overshoot norm ready.top room size' large down
  rw [ready.toNat_shifted ready.le] at lower
  rw [pow_add] at upper
  rw [(longDivide_of_loop ready).2, Nat.le_div_iff_mul_le scale, Nat.div_lt_iff_lt_mul scale]
  exact ⟨lower, upper⟩

end Whole

end Impl

end IMBridge.WideInteger
