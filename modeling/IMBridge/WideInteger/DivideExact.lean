import Mathlib.Data.UInt
import IMBridge.WideInteger.Exact
import IMBridge.WideInteger.LongDivide

/-!
Division by a wide integer is exact unless an estimated digit of the long division is above the
base, or the divisor is the minimum of its type, whose magnitude is sign-extended and so makes every
quotient zero.
-/

namespace IMBridge.WideInteger

open Lib.Limbs ObWideInteger Nat

variable {k k2 : ℕ} {s s2 : Signedness}

structure ExactDivision (x y q r : ℤ) : Prop where
  sum : x = q * y + r
  small : r.natAbs < y.natAbs
  sign : r = 0 ∨ r.sign = x.sign

/-- What is known of a division of `x` by `y`: it is exact where `fits` holds, and otherwise the
remainder is too large, yet representable in `bits`. -/
structure Divided (bits : ℕ) (fits : Prop) (x y : ℤ)
    (out : RetCode × ObWideInteger k .signed × ObWideInteger k .signed) : Prop where
  code : out.1 = .success
  exact : fits → out.2.1.toInt = x.tdiv y ∧ out.2.2.toInt = x.tmod y
  excess : ¬ fits → y.natAbs ≤ out.2.2.toInt.natAbs ∧ FitsSigned bits out.2.2.toInt

namespace Impl

section Signs

variable {x y : ℤ} {lNeg rNeg : Bool}

theorem tdiv_of_magnitudes (left : lNeg = true ↔ x < 0) (right : rNeg = true ↔ y < 0) :
    x.tdiv y = if (lNeg != rNeg) = true then -((x.natAbs / y.natAbs : ℕ) : ℤ)
      else ((x.natAbs / y.natAbs : ℕ) : ℤ) := by
  have dividend := eq_of_magnitude left
  have divisor := eq_of_magnitude right
  generalize x.natAbs = a at dividend ⊢
  generalize y.natAbs = b at divisor ⊢
  rw [dividend, divisor]
  cases lNeg <;> cases rNeg <;> simp

theorem tmod_of_magnitudes (left : lNeg = true ↔ x < 0) (y : ℤ) :
    x.tmod y = if lNeg then -((x.natAbs % y.natAbs : ℕ) : ℤ)
      else ((x.natAbs % y.natAbs : ℕ) : ℤ) := by
  have dividend := eq_of_magnitude left
  generalize x.natAbs = a at dividend ⊢
  rw [dividend]
  rcases Int.natAbs_eq y with same | opposite
  · generalize y.natAbs = b at same ⊢
    rw [same]
    cases lNeg <;> simp <;> rfl
  · generalize y.natAbs = b at opposite ⊢
    rw [opposite]
    cases lNeg <;> simp <;> rfl

theorem tmod_fits {bits : ℕ} (inside : FitsSigned bits x) (y : ℤ) : FitsSigned bits (x.tmod y) := by
  have less := mod_le x.natAbs y.natAbs
  rw [FitsSigned] at inside ⊢
  rw [tmod_of_magnitudes (decide_eq_true_iff (p := x < 0)) y]
  split
  next neg => rw [decide_eq_true_eq] at neg; omega
  next nonneg => rw [decide_eq_true_eq] at nonneg; omega

theorem tdiv_tmod_of_lt (less : x.natAbs < y.natAbs) : x.tdiv y = 0 ∧ x.tmod y = x := by
  have sum := Int.mul_tdiv_add_tmod x y
  have zero : x.tdiv y = 0 := by
    rw [← Int.natAbs_eq_zero, Int.natAbs_tdiv]
    exact div_eq_of_lt less
  rw [zero, Int.mul_zero, Int.zero_add] at sum
  exact ⟨zero, sum⟩

theorem toInt_negateIf (pos : 0 < k) {neg : Bool} {w : ObWideInteger k .signed} {p : ℕ}
    (stored : w.toNat = p) (fits : FitsSigned (64 * k) (if neg then -(p : ℤ) else p)) :
    (if neg then (unaryMinus false w).2 else w).toInt = if neg then -(p : ℤ) else p := by
  apply toInt_eq_of_emod pos fits
  cases neg with
  | false =>
    rw [if_neg Bool.false_ne_true, if_neg Bool.false_ne_true, ← stored]
    exact (Int.emod_eq_of_lt (by omega) (by exact_mod_cast w.toNat_lt)).symm
  | true => rw [if_pos rfl, if_pos rfl, toNat_unaryMinus pos, stored]

theorem signQuotient_exact (pos : 0 < k) (left : lNeg = true ↔ x < 0) (right : rNeg = true ↔ y < 0)
    {q r : ObWideInteger k .signed} (found : q.toNat = x.natAbs / y.natAbs)
    (rest : r.toNat = x.natAbs % y.natAbs) (quotient : FitsSigned (64 * k) (x.tdiv y))
    (inside : FitsSigned (64 * k) x) :
    (signQuotient lNeg rNeg (q, r)).1.toInt = x.tdiv y ∧ (signQuotient lNeg rNeg (q, r)).2.toInt = x.tmod y := by
  have remainder := tmod_fits inside y
  rw [tdiv_of_magnitudes left right] at quotient ⊢
  rw [tmod_of_magnitudes left y] at remainder ⊢
  exact ⟨toInt_negateIf pos found quotient, toInt_negateIf pos rest remainder⟩

end Signs

theorem toInt_zero (pos : 0 < k) : (zero k .signed).toInt = 0 := by
  apply toInt_eq_of_emod pos
  · rw [FitsSigned]
    exact ⟨Int.neg_nonpos_of_nonneg (by positivity), by positivity⟩
  · rw [toNat_zero]
    simp

variable {bits : ℕ} {y : ℤ} {lhs : ObWideInteger k .signed} {den : DwType}

theorem divided_zero (pos : 0 < k) {fits : Prop} (smaller : fits ↔ lhs.toInt.natAbs < y.natAbs)
    (inside : FitsSigned bits lhs.toInt) :
    Divided bits fits lhs.toInt y (.success, .zero k .signed, lhs) where
  code := rfl
  exact holds := by
    obtain ⟨quotient, remainder⟩ := tdiv_tmod_of_lt (smaller.mp holds)
    rw [quotient, remainder]
    exact ⟨toInt_zero pos, rfl⟩
  excess fails := ⟨Nat.le_of_not_lt fun less => fails (smaller.mpr less), inside⟩

theorem divided_assign (pos : 0 < k) (wider : k ≤ k2) {bits : ℕ} {fits : Prop} {y : ℤ}
    {lhs : ObWideInteger k .signed} {out : RetCode × ObWideInteger k2 .signed × ObWideInteger k2 .signed}
    (divided : Divided bits fits (lhs.assign k2 .signed).toInt y out) (room : bits ≤ 64 * k)
    (quotient : FitsSigned (64 * k) (lhs.toInt.tdiv y)) :
    Divided bits fits lhs.toInt y (out.1, out.2.1.assign k .signed, out.2.2.assign k .signed) := by
  have kept {x : ObWideInteger k2 .signed} {z : ℤ} (fits : FitsSigned (64 * k) z) (same : x.toInt = z) :
      (x.assign k .signed).toInt = z := by
    apply toInt_eq_of_emod pos fits
    rw [← same]
    exact toNat_assign_emod _
  rw [toInt_assign_signed pos wider] at divided
  refine ⟨divided.code, fun holds => ?_, fun fails => ?_⟩
  · obtain ⟨found, rest⟩ := divided.exact holds
    exact ⟨kept quotient found, kept (tmod_fits (toInt_fits pos lhs) y) rest⟩
  · obtain ⟨large, narrow⟩ := divided.excess fails
    rw [kept (narrow.mono room) rfl]
    exact ⟨large, narrow⟩

/-! Division by a native integer. -/

theorem shortStep_eq {num : DwType} (small : den.toNat < 2 ^ 64) (less : num.toNat < den.toNat) (item : UInt64) :
    (shortStep den num item).1.toNat = (num.toNat * 2 ^ 64 + item.toNat) / den.toNat ∧
      (shortStep den num item).2.toNat = (num.toNat * 2 ^ 64 + item.toNat) % den.toNat := by
  have bound := word_lt item
  have shifted : ((num <<< 64) + dword item).toNat = num.toNat * 2 ^ 64 + item.toNat := by
    rw [BitVec.toNat_add, BitVec.toNat_shiftLeft, toNat_dword, shiftLeft_eq]
    omega
  have digit : (num.toNat * 2 ^ 64 + item.toNat) / den.toNat < 2 ^ 64 := by
    apply Nat.div_lt_of_lt_mul
    calc
      _ < (num.toNat + 1) * 2 ^ 64 := by omega
      _ ≤ den.toNat * 2 ^ 64 := Nat.mul_le_mul_right _ less
  unfold shortStep
  dsimp only
  split
  next below =>
    rw [BitVec.lt_def, shifted] at below
    rw [div_eq_of_lt below, mod_eq_of_lt below]
    exact ⟨rfl, shifted⟩
  next =>
    rw [toNat_lowWord, BitVec.toNat_udiv, BitVec.toNat_umod, shifted, mod_eq_of_lt digit]
    exact ⟨rfl, rfl⟩

theorem shortLoop_eq (small : den.toNat < 2 ^ 64) (num : DwType) (less : num.toNat < den.toNat) (words : List UInt64) :
    value (chain (shortStep den) num words).1.reverse * den.toNat + (chain (shortStep den) num words).2.toNat =
        num.toNat * 2 ^ (64 * words.length) + value words.reverse ∧
      (chain (shortStep den) num words).2.toNat < den.toNat := by
  induction words generalizing num with
  | nil => simpa [chain] using less
  | cons item words ih =>
    obtain ⟨digit, rest⟩ := shortStep_eq small less item
    have left : (shortStep den num item).2.toNat < den.toNat := by
      rw [rest]
      exact mod_lt _ (by omega)
    obtain ⟨balance, final⟩ := ih (shortStep den num item).2 left
    have division := div_add_mod (num.toNat * 2 ^ 64 + item.toNat) den.toNat
    rw [← digit, ← rest] at division
    refine ⟨?_, final⟩
    simp only [chain]
    have powers : 2 ^ (64 * (item :: words).length) = 2 ^ (64 * words.length) * 2 ^ 64 := by
      rw [← pow_add, ← mul_succ]
      rfl
    rw [value_reverse_cons, value_reverse_cons, length_chain, powers]
    generalize 2 ^ (64 * words.length) = weight at balance ⊢
    calc
      _ = weight * (den.toNat * (shortStep den num item).1.toNat) +
          (value (chain (shortStep den) (shortStep den num item).2 words).1.reverse * den.toNat +
            (chain (shortStep den) (shortStep den num item).2 words).2.toNat) := by ring
      _ = weight * (den.toNat * (shortStep den num item).1.toNat +
          (shortStep den num item).2.toNat) + value words.reverse := by rw [balance]; ring
      _ = _ := by rw [division]; ring

theorem toNat_ofDouble (wide : 1 < k) {d : DwType} (small : d.toNat < 2 ^ 64) : (ofDouble k s d).toNat = d.toNat := by
  have low : (lowWord d).toNat = d.toNat := by rw [toNat_lowWord, mod_eq_of_lt small]
  have high : (lowWord (d >>> 64)).toNat = 0 := by
    rw [toNat_lowWord, BitVec.toNat_ushiftRight, shiftRight_eq_div_pow, div_eq_of_lt small]
    rfl
  have bound : d.toNat < 2 ^ (64 * k) := small.trans_le (Nat.pow_le_pow_right (by decide) (by omega))
  change value (List.take k _) = _
  rw [value_take, value_append, value_replicate_zero, Nat.mul_zero, Nat.add_zero]
  have words : value (if 2 < k then [lowWord d] else [lowWord d, lowWord (d >>> 64)]) = d.toNat := by
    split <;> simp [low, high]
  rw [words, mod_eq_of_lt bound]

theorem divideDouble_exact (wide : 1 < k) (numerator : ObWideInteger k .unsigned) (small : den.toNat < 2 ^ 64)
    (nonzero : den.toNat ≠ 0) :
    (divideDouble (s := s) numerator den).1.toNat = numerator.toNat / den.toNat ∧
      (divideDouble (s := s) numerator den).2.toNat = numerator.toNat % den.toNat := by
  unfold divideDouble
  split
  next two =>
    subst two
    constructor
    · exact (toNat_ofDw _).trans (by rw [BitVec.toNat_udiv, toNat_dw])
    · exact (toNat_ofDw _).trans (by rw [BitVec.toNat_umod, toNat_dw])
  next =>
    obtain ⟨balance, less⟩ := shortLoop_eq small 0 (Nat.pos_of_ne_zero nonzero) numerator.items.reverse
    rw [List.reverse_reverse, show ((0 : DwType)).toNat = 0 from rfl, Nat.zero_mul, Nat.zero_add] at balance
    change _ = numerator.toNat at balance
    rw [Nat.mul_comm, Nat.add_comm] at balance
    have unique := (Nat.div_mod_unique (Nat.pos_of_ne_zero nonzero)).mpr ⟨balance, less⟩
    refine ⟨unique.1.symm, ?_⟩
    rw [unique.2]
    refine (value_overwrite_zero (by simp; omega)).trans ?_
    rw [value_cons, value_nil, toNat_lowWord, mod_eq_of_lt (less.trans small), Nat.mul_zero, Nat.add_zero]

theorem toInt_native_zero : (⟨0⟩ : Native .signed).toInt = 0 := by decide

theorem cmpNative_one_iff (wide : 1 < k) (x : ObWideInteger k .unsigned) :
    cmpNative x (⟨1⟩ : Native .signed) = 0 ↔ x.toNat = 1 := by
  rw [cmpNative_eq_sign wide, show (⟨1⟩ : Native .signed).toInt = 1 by decide, toInt_unsigned,
    Int.sign_eq_zero_iff_zero]
  omega

theorem cmpNative_zero_iff (wide : 1 < k) (x : ObWideInteger k s) :
    cmpNative x (⟨0⟩ : Native .signed) = 0 ↔ x.toInt = 0 := by
  rw [cmpNative_eq_sign wide, toInt_native_zero, Int.sub_zero, Int.sign_eq_zero_iff_zero]

theorem not_divisor_zero (wide : 1 < k) (check : Bool) {rhs : ObWideInteger k s}
    (nonzero : rhs.toInt ≠ 0) : ¬ (check && cmpNative rhs (⟨0⟩ : Native .signed) == 0) = true := by
  simp [cmpNative_zero_iff wide, nonzero]

theorem cmp_lt_zero_iff (pos : 0 < k) (x y : ObWideInteger k .unsigned) : cmp x y < 0 ↔ x.toNat < y.toNat := by
  rw [cmp_eq_sign pos pos, Int.sign_neg_iff, toInt_unsigned, toInt_unsigned]
  omega

abbrev absAs (k : ℕ) (x : ObWideInteger k2 .signed) : ObWideInteger k .unsigned :=
  (makePositive x).assign k .unsigned

theorem toNat_numerator (pos : 0 < k) (lhs : ObWideInteger k .signed) : (absAs k lhs).toNat = lhs.toInt.natAbs := by
  rw [toNat_assign_same, toNat_makePositive pos]

theorem no_overflow (pos : 0 < k) {rNeg : Bool} (right : rNeg = true ↔ y < 0) (one : y.natAbs = 1)
    (fits : FitsSigned (64 * k) (lhs.toInt.tdiv y)) :
    (lhs.isNegative && lhs.isNegative == rNeg && overflowPositiveRange ((absAs k lhs).assign k .signed)) = false := by
  rw [overflowPositiveRange_eq pos, toNat_assign_same, toNat_numerator pos]
  rw [tdiv_of_magnitudes lhs.isNegative_iff_toInt_neg right, one, Nat.div_one, fitsSigned_iff] at fits
  cases sign : lhs.isNegative with
  | false => rfl
  | true =>
    cases rNeg with
    | false => rfl
    | true =>
      rw [sign, if_neg (by decide)] at fits
      simp only [beq_self_eq_true, Bool.and_self, Bool.true_and, decide_eq_false_iff_not]
      omega

theorem divideNative_divided (wide : 1 < k) (check : Bool) (lhs : ObWideInteger k .signed)
    {rhs : Native .signed} (nonzero : rhs.toInt ≠ 0) (minimum : rhs.toInt ≠ -2 ^ 63)
    (fits : FitsSigned (64 * k) (lhs.toInt.tdiv rhs.toInt))
    (quotient remain : ObWideInteger k .signed) :
    Divided (64 * k) True lhs.toInt rhs.toInt (divideNative check lhs rhs quotient remain) := by
  have pos : 0 < k := by omega
  have inside := toInt_fits pos lhs
  have word : rhs.word ≠ 0 := by
    intro zero
    cases rhs
    cases zero
    exact nonzero toInt_native_zero
  have magnitude : (if rhs.isNegative then rhs.neg.toDw else rhs.toDw) = rhs.makePositive.toDw := by
    rw [Native.makePositive]
    split <;> rfl
  have den := Native.toNat_makePositive_toDw minimum
  have small : rhs.makePositive.toDw.toNat < 2 ^ 64 := by
    rw [den, ← Native.toNat_makePositive_word]
    exact word_lt _
  have num := toNat_numerator pos lhs
  have left := lhs.isNegative_iff_toInt_neg
  have right := rhs.isNegative_iff_toInt_neg
  unfold divideNative
  rw [if_neg (by simp [word])]
  dsimp only
  rw [magnitude]
  by_cases empty : cmpNative lhs (⟨0⟩ : Native .signed) = 0
  · rw [if_pos empty]
    rw [cmpNative_zero_iff wide] at empty
    exact divided_zero pos (iff_of_true trivial (by omega)) inside
  rw [if_neg empty]
  by_cases less : cmp (absAs k lhs) (ofDouble k .unsigned rhs.makePositive.toDw) < 0
  · rw [if_pos less]
    rw [cmp_lt_zero_iff pos, num, toNat_ofDouble wide small, den] at less
    exact divided_zero pos (iff_of_true trivial less) inside
  rw [if_neg less]
  by_cases one : rhs.makePositive.toDw = 1
  · have unit : rhs.toInt.natAbs = 1 := by rw [← den, one]; rfl
    rw [if_pos one, no_overflow pos right unit fits]
    refine ⟨by cases check <;> rfl, fun _ => ?_, fun fails => absurd trivial fails⟩
    apply signQuotient_exact pos left right _ _ fits inside
    · rw [toNat_assign_same, num, unit, Nat.div_one]
    · rw [toNat_zero, unit, mod_one]
  · obtain ⟨found, rest⟩ := divideDouble_exact (s := .signed) wide (absAs k lhs) small (by rw [den]; omega)
    rw [num, den] at found rest
    rw [if_neg one]
    exact ⟨rfl, fun _ => signQuotient_exact pos left right found rest fits inside, fun fails => absurd trivial fails⟩

/-! Division by a wide integer. -/

theorem toNat_denominator (positive2 : 0 < k2) (narrower : k2 ≤ k) {rhs : ObWideInteger k2 .signed}
    (minimum : rhs.toInt ≠ -2 ^ (64 * k2 - 1)) : (absAs k rhs).toNat = rhs.toInt.natAbs := by
  have magnitude := toNat_makePositive positive2 rhs
  have inside := toInt_fits positive2 rhs
  rw [FitsSigned] at inside
  have size : (rhs.toInt.natAbs : ℤ) < 2 ^ (64 * k2 - 1) := by omega
  have sign : (makePositive rhs).isNegative = false := by
    rw [isNegative_eq positive2, decide_eq_false_iff_not, magnitude, not_le]
    exact_mod_cast size
  have stored : ((absAs k rhs).toNat : ℤ) = (makePositive rhs).toInt := by
    rw [toNat_assign_of_ge narrower, sign, if_neg Bool.false_ne_true]
  rw [toInt_of_not_isNegative sign, magnitude] at stored
  exact_mod_cast stored

/-- The magnitude of the minimum is extended as the negative number its bits are. -/
theorem toNat_denominator_minimum (positive2 : 0 < k2) (narrower : k2 ≤ k)
    {rhs : ObWideInteger k2 .signed} (minimum : rhs.toInt = -2 ^ (64 * k2 - 1)) :
    (absAs k rhs).toNat + 2 ^ (64 * k2 - 1) = 2 ^ (64 * k) := by
  have magnitude := toNat_makePositive positive2 rhs
  have halves := two_mul_half positive2
  have cast : (2 ^ (64 * k2 - 1) : ℤ) = ((2 ^ (64 * k2 - 1) : ℕ) : ℤ) := by push_cast; rfl
  have cast' : (2 ^ (64 * k2) : ℤ) = ((2 ^ (64 * k2) : ℕ) : ℤ) := by push_cast; rfl
  have wide : (2 ^ (64 * k) : ℤ) = ((2 ^ (64 * k) : ℕ) : ℤ) := by push_cast; rfl
  rw [minimum, cast, Int.natAbs_neg, Int.natAbs_natCast] at magnitude
  have sign : (makePositive rhs).isNegative = true := by
    rw [isNegative_eq positive2, decide_eq_true_eq, magnitude]
  have stored : ((absAs k rhs).toNat : ℤ) = (makePositive rhs).toInt + 2 ^ (64 * k) := by
    rw [toNat_assign_of_ge narrower, sign, if_pos rfl]
  rw [toInt_of_isNegative sign, magnitude, cast', wide] at stored
  omega

theorem signQuotient_divided (pos : 0 < k) {rNeg : Bool} (right : rNeg = true ↔ y < 0)
    {denom : ObWideInteger k .unsigned} (den : denom.toNat = y.natAbs)
    (ready : Prepared (absAs k lhs) denom) (room : bits ≤ 64 * k)
    (inside : FitsSigned bits lhs.toInt) (fits : FitsSigned (64 * k) (lhs.toInt.tdiv y)) :
    Divided bits (TrialDigitsFit lhs.toInt.natAbs y.natAbs) lhs.toInt y (.success, signQuotient lhs.isNegative rNeg
        (longDivide (absAs k lhs) denom (nlz denom % 64) (.zero k .signed))) := by
  have num := toNat_numerator pos lhs
  have whole := toInt_fits pos lhs
  have left := lhs.isNegative_iff_toInt_neg
  refine ⟨rfl, fun holds => ?_, fun fails => ?_⟩
  · obtain ⟨found, rest⟩ := longDivide_exact ready (by rw [num, den]; exact holds)
    rw [num, den] at found rest
    exact signQuotient_exact pos left right found rest fits whole
  · obtain ⟨lower, upper⟩ := longDivide_overshoot ready (by rw [num, den]; exact fails)
      (show _ ≤ 2 ^ (bits - 1) by rw [num]; exact inside.natAbs_le)
    rw [den] at lower
    rw [signQuotient]
    dsimp only
    rw [toInt_negateIf pos rfl (FitsSigned.mono (by rw [fitsSigned_iff]; split <;> omega) room), fitsSigned_iff]
    split <;> omega

theorem width_bounds (width : k ∈ [2, 4, 8]) : 2 ≤ k ∧ k ≤ 8 ∧ promoted k = 2 * k := by
  simp only [List.mem_cons, List.not_mem_nil, or_false] at width
  rcases width with rfl | rfl | rfl <;> decide

/-- `divide`, into zeroed objects, has a result, which is exact where `holds` is true. -/
def Ends (fuel : ℕ) (check : Bool) (lhs : ObWideInteger k .signed) (rhs : ObWideInteger k2 .signed)
    (bits : ℕ) (holds : Prop) : Prop :=
  ∃ out, divide fuel check lhs rhs (.zero k .signed) (.zero k .signed) = some out ∧
    Divided bits holds lhs.toInt rhs.toInt out

section Wide

variable {lhs : ObWideInteger k .signed} {rhs : ObWideInteger k2 .signed} {fuel bits : ℕ}
variable {holds : Prop} (check : Bool) (wide2 : 1 < k2) (nonzero : rhs.toInt ≠ 0)

include wide2 nonzero

theorem ends_below (wide : 1 < k) (narrower : k2 ≤ k) (inside : FitsSigned bits lhs.toInt)
    (smaller : holds ↔ lhs.toInt.natAbs < rhs.toInt.natAbs)
    (below : lhs.toInt.natAbs < (absAs k rhs).toNat) : Ends (fuel + 1) check lhs rhs bits holds := by
  have pos : 0 < k := by omega
  refine ⟨(.success, .zero k .signed, lhs), ?_, divided_zero pos smaller inside⟩
  unfold divide
  rw [if_neg (not_divisor_zero wide2 check nonzero), if_pos narrower]
  dsimp only
  rw [if_pos (c := cmp _ _ < 0) (by rwa [cmp_lt_zero_iff pos, toNat_numerator pos]), ite_self]

theorem ends_promoted (wide : 1 < k) (grows : k ≤ promoted k) (narrower : k2 ≤ k) (room : bits ≤ 64 * k)
    (fits : FitsSigned (64 * k) (lhs.toInt.tdiv rhs.toInt)) (nonempty : lhs.toInt ≠ 0)
    (least : (absAs k rhs).toNat ≤ lhs.toInt.natAbs) (unit : (absAs k rhs).toNat ≠ 1)
    (tight : nlz (absAs k lhs) < nlz (absAs k rhs) % 64 + 64)
    (inner : Ends fuel check (lhs.assign (promoted k) .signed) rhs bits holds) :
    Ends (fuel + 1) check lhs rhs bits holds := by
  have pos : 0 < k := by omega
  obtain ⟨out, run, divided⟩ := inner
  unfold Ends divide
  rw [if_neg (not_divisor_zero wide2 check nonzero), if_neg (by rwa [cmpNative_zero_iff wide]), if_pos narrower]
  dsimp only
  rw [if_neg (by rwa [cmp_lt_zero_iff pos, toNat_numerator pos, not_lt]),
    if_neg (by rwa [cmpNative_one_iff wide]), if_pos tight, run]
  exact ⟨_, rfl, divided_assign pos grows divided room fits⟩

/-- `divide` where the divisor is not wider. What it does at twice the width is assumed. -/
theorem divide_narrower (wide : 1 < k) (grows : k ≤ promoted k) (narrower : k2 ≤ k)
    (minimum : rhs.toInt ≠ -2 ^ (64 * k2 - 1)) (room : bits ≤ 64 * k)
    (inside : FitsSigned bits lhs.toInt) (fits : FitsSigned (64 * k) (lhs.toInt.tdiv rhs.toInt))
    (promotion : lhs.toInt ≠ 0 → nlz (absAs k lhs) < nlz (absAs k rhs) % 64 + 64 →
      Ends fuel check (lhs.assign (promoted k) .signed) rhs bits (TrialDigitsFit lhs.toInt.natAbs rhs.toInt.natAbs)) :
    Ends (fuel + 1) check lhs rhs bits (TrialDigitsFit lhs.toInt.natAbs rhs.toInt.natAbs) := by
  have pos : 0 < k := by omega
  have num := toNat_numerator pos lhs
  have den := toNat_denominator (by omega) narrower minimum
  have left := lhs.isNegative_iff_toInt_neg
  have right := rhs.isNegative_iff_toInt_neg
  by_cases less : lhs.toInt.natAbs < rhs.toInt.natAbs
  · exact ends_below check wide2 nonzero wide narrower inside
      (iff_of_true (trialDigitsFit_of_lt less) less) (by rwa [den])
  have nonempty : lhs.toInt ≠ 0 := by omega
  by_cases tight : rhs.toInt.natAbs ≠ 1 ∧ nlz (absAs k lhs) < nlz (absAs k rhs) % 64 + 64
  · exact ends_promoted check wide2 nonzero wide grows narrower room fits nonempty
      (by rw [den]; omega) (by rw [den]; exact tight.1) tight.2 (promotion nonempty tight.2)
  unfold Ends divide
  rw [if_neg (not_divisor_zero wide2 check nonzero), if_neg (by rwa [cmpNative_zero_iff wide]), if_pos narrower]
  dsimp only
  rw [if_neg (by rwa [cmp_lt_zero_iff pos, num, den])]
  by_cases unit : rhs.toInt.natAbs = 1
  · rw [if_pos (by rwa [cmpNative_one_iff wide, den]), no_overflow pos right unit fits]
    refine ⟨_, rfl, by cases check <;> rfl, fun _ => ?_, fun fails => absurd ?_ fails⟩
    · have whole : ((absAs k lhs).assign k .signed).toNat = lhs.toInt.natAbs / rhs.toInt.natAbs := by
        rw [toNat_assign_same, num, unit, Nat.div_one]
      rw [toInt_zero pos, tmod_of_magnitudes left, unit, mod_one]
      rw [tdiv_of_magnitudes left right] at fits ⊢
      exact ⟨toInt_negateIf pos whole fits, by simp⟩
    · exact trialDigitsFit_of_small (by omega) (by rw [unit]; decide)
  · rw [if_neg (by rwa [cmpNative_one_iff wide, den]), if_neg fun enough => tight ⟨unit, enough⟩]
    refine ⟨_, rfl, signQuotient_divided pos right den ⟨?_, ?_, ?_⟩ room inside fits⟩
    · rw [den]
      omega
    · rw [num, den]
      omega
    · exact Nat.le_of_not_lt fun enough => tight ⟨unit, enough⟩

theorem divide_twice (width : k ∈ [2, 4, 8]) (narrower : k2 ≤ k)
    (minimum : rhs.toInt ≠ -2 ^ (64 * k2 - 1)) (room : bits ≤ 64 * k) (inside : FitsSigned bits lhs.toInt)
    (fits : FitsSigned (64 * k) (lhs.toInt.tdiv rhs.toInt)) :
    Ends (fuel + 2) check lhs rhs bits (TrialDigitsFit lhs.toInt.natAbs rhs.toInt.natAbs) := by
  obtain ⟨wide, small, doubled⟩ := width_bounds width
  apply divide_narrower check wide2 nonzero wide (by omega) narrower minimum room inside fits
  intro _ _
  have same := toInt_assign_signed (by omega) (show k ≤ promoted k by omega) lhs
  rw [← same] at inside fits ⊢
  have grows : promoted k ≤ promoted (promoted k) := by
    rw [doubled, promoted]
    split <;> omega
  apply divide_narrower check wide2 nonzero (by omega) grows (by omega) minimum (by omega) inside (fits.mono (by omega))
  -- at twice the width that `bits` needs there is a free item, so the width is not doubled again
  intro nonzero' tight
  exfalso
  have num := toNat_numerator (by omega) (lhs.assign (promoted k) .signed)
  have zeros := nlz_eq (x := absAs _ (lhs.assign (promoted k) .signed)) (by rw [num]; omega)
  rw [num] at zeros
  have size : (lhs.assign (promoted k) .signed).toInt.natAbs.log2 < bits - 1 + 1 := by
    have le := inside.natAbs_le
    rw [log2_lt (by omega), pow_succ]
    omega
  omega

theorem divide_wider (wide : 1 < k) (wider : k < k2) (empty : lhs.toInt = 0 → holds)
    (fits : FitsSigned (64 * k) (lhs.toInt.tdiv rhs.toInt))
    (inner : Ends fuel check (lhs.assign k2 .signed) rhs (64 * k) holds) :
    Ends (fuel + 1) check lhs rhs (64 * k) holds := by
  have pos : 0 < k := by omega
  unfold Ends divide
  rw [if_neg (not_divisor_zero wide2 check nonzero)]
  by_cases zero : cmpNative lhs (⟨0⟩ : Native .signed) = 0
  · rw [if_pos zero]
    rw [cmpNative_zero_iff wide] at zero
    exact ⟨_, rfl, divided_zero pos (iff_of_true (empty zero) (by omega)) (toInt_fits pos lhs)⟩
  · obtain ⟨out, run, divided⟩ := inner
    rw [if_neg zero, if_neg (by omega), run]
    exact ⟨_, rfl, divided_assign pos wider.le divided le_rfl fits⟩

variable (width : k ∈ [2, 4, 8])
include width

omit wide2 in
theorem divide_divided (width2 : k2 ∈ [2, 4, 8])
    (minimum : rhs.toInt ≠ -2 ^ (64 * k2 - 1)) (fits : FitsSigned (64 * k) (lhs.toInt.tdiv rhs.toInt)) :
    Ends 3 check lhs rhs (64 * k) (TrialDigitsFit lhs.toInt.natAbs rhs.toInt.natAbs) := by
  obtain ⟨wide, -, -⟩ := width_bounds width
  obtain ⟨wide2, -, -⟩ := width_bounds width2
  have inside := toInt_fits (by omega) lhs
  rcases Nat.lt_or_ge k k2 with wider | narrower
  · apply divide_wider check wide2 nonzero (by omega) wider _ fits
    · rw [← toInt_assign_signed (by omega) wider.le lhs] at inside fits ⊢
      exact divide_twice check wide2 nonzero width2 le_rfl minimum (by omega) inside (fits.mono (by omega))
    · intro zero
      exact trialDigitsFit_of_lt (by omega)
  · exact divide_twice check wide2 nonzero width narrower minimum le_rfl inside fits

/-- A dividend that is the minimum has no free item; at twice the width the denominator is far
above it. -/
theorem divide_tight (narrower : k2 ≤ k) (minimum : rhs.toInt = -2 ^ (64 * k2 - 1))
    (fits : FitsSigned (64 * k) (lhs.toInt.tdiv rhs.toInt))
    (whole : lhs.toInt.natAbs = 2 ^ (64 * k - 1)) (least : (absAs k rhs).toNat ≤ lhs.toInt.natAbs) :
    Ends 3 check lhs rhs (64 * k) (lhs.toInt.natAbs < rhs.toInt.natAbs) := by
  obtain ⟨wide, -, doubled⟩ := width_bounds width
  have pos : 0 < k := by omega
  have num := toNat_numerator pos lhs
  have halves2 := two_mul_half (show 0 < k2 by omega)
  have denom := toNat_denominator_minimum (by omega) narrower minimum
  have many : 2 ^ (64 * k2) ≤ 2 ^ (64 * k) := Nat.pow_le_pow_right (by decide) (by omega)
  have large : 2 ^ 2 ≤ 2 ^ (64 * k2 - 1) := Nat.pow_le_pow_right (by decide) (by omega)
  have tight : nlz (absAs k lhs) < nlz (absAs k rhs) % 64 + 64 := by
    have zeros := nlz_eq (x := absAs k lhs) (by rw [num, whole]; omega)
    rw [num, whole, log2_two_pow] at zeros
    omega
  have same := toInt_assign_signed pos (show k ≤ promoted k by omega) lhs
  have wider := toNat_denominator_minimum (by omega) (show k2 ≤ promoted k by omega) minimum
  have grows : 2 ^ (64 * k + 1) ≤ 2 ^ (64 * promoted k) := Nat.pow_le_pow_right (by decide) (by omega)
  have halves := two_mul_half pos
  rw [pow_succ] at grows
  apply ends_promoted check wide2 nonzero wide (by omega) narrower le_rfl fits (by omega) least (by omega) tight
  exact ends_below check wide2 nonzero (by omega) (by omega) (by rw [same]; exact toInt_fits pos lhs)
    (by rw [same]) (by rw [same]; omega)

omit wide2 nonzero in
/-- The minimum as a divisor: every quotient is zero, which is right for smaller dividends only. -/
theorem divide_minimum (width2 : k2 ∈ [2, 4, 8])
    (minimum : rhs.toInt = -2 ^ (64 * k2 - 1)) (fits : FitsSigned (64 * k) (lhs.toInt.tdiv rhs.toInt)) :
    Ends 3 check lhs rhs (64 * k) (lhs.toInt.natAbs < rhs.toInt.natAbs) := by
  obtain ⟨wide, -, doubled⟩ := width_bounds width
  obtain ⟨wide2, -, -⟩ := width_bounds width2
  have inside := toInt_fits (by omega) lhs
  have size := inside.natAbs_le
  have nonzero : rhs.toInt ≠ 0 := by
    have power : (0 : ℤ) < 2 ^ (64 * k2 - 1) := by positivity
    omega
  have halves := two_mul_half (show 0 < k by omega)
  have halves2 := two_mul_half (show 0 < k2 by omega)
  rcases Nat.lt_or_ge k k2 with wider | narrower
  · have magnitude : rhs.toInt.natAbs = 2 ^ (64 * k2 - 1) := by
      rw [minimum, Int.natAbs_neg, Int.natAbs_pow]
      rfl
    apply divide_wider check wide2 nonzero (by omega) wider (fun zero => by omega) fits
    have denom := toNat_denominator_minimum (by omega) (le_refl k2) minimum
    have grows : 2 ^ (64 * k) ≤ 2 ^ (64 * k2 - 1) := Nat.pow_le_pow_right (by decide) (by omega)
    rw [← toInt_assign_signed (by omega) wider.le lhs] at size inside ⊢
    exact ends_below check wide2 nonzero (by omega) le_rfl inside Iff.rfl (by omega)
  · have denom := toNat_denominator_minimum (by omega) narrower minimum
    by_cases below : lhs.toInt.natAbs < (absAs k rhs).toNat
    · exact ends_below check wide2 nonzero (by omega) narrower inside Iff.rfl below
    -- both are the minimum of one width, and the width is doubled
    have same : k2 = k := by
      by_contra differ
      have smaller : 2 ^ (64 * k2 - 1) < 2 ^ (64 * k - 1) := Nat.pow_lt_pow_right (by decide) (by omega)
      omega
    have half : 2 ^ (64 * k2 - 1) = 2 ^ (64 * k - 1) := by rw [same]
    have whole : lhs.toInt.natAbs = 2 ^ (64 * k - 1) := by omega
    exact divide_tight check wide2 nonzero width narrower minimum fits whole (by omega)

end Wide

end Impl

def ObWideInteger.divideBy (check : Bool) (lhs : ObWideInteger k .signed) :
    Operand → Option (RetCode × ObWideInteger k .signed × ObWideInteger k .signed)
  | .wide _ rhs => Impl.divide 3 check lhs rhs (.zero k .signed) (.zero k .signed)
  | .native rhs => some (Impl.divideNative check lhs rhs (.zero k .signed) (.zero k .signed))

/-- The divisors in question: of the three widths, or any `int64_t` but its minimum. -/
def Operand.IsDivisor : Operand → Prop
  | .wide k _ => k ∈ [2, 4, 8]
  | .native x => x.toInt ≠ -2 ^ 63

instance (rhs : Operand) : Decidable rhs.IsDivisor :=
  match rhs with
  | .wide k _ => inferInstanceAs (Decidable (k ∈ [2, 4, 8]))
  | .native x => inferInstanceAs (Decidable (x.toInt ≠ -2 ^ 63))

/-- When a division comes out right: always for a native divisor, for smaller dividends where the
divisor is the minimum of its type, and otherwise when no estimated digit is above the base. -/
def Operand.Divides (x : ℤ) : Operand → Prop
  | .wide k rhs =>
    if rhs.toInt = -2 ^ (64 * k - 1) then x.natAbs < rhs.toInt.natAbs
    else Impl.TrialDigitsFit x.natAbs rhs.toInt.natAbs
  | .native _ => True

theorem divideBy_divided (width : k ∈ [2, 4, 8]) (check : Bool) (lhs : ObWideInteger k .signed)
    (rhs : Operand) (divisor : rhs.IsDivisor) (nonzero : rhs.toInt ≠ 0)
    (fits : FitsSigned (64 * k) (lhs.toInt.tdiv rhs.toInt)) :
    ∃ out, lhs.divideBy check rhs = some out ∧ Divided (64 * k) (rhs.Divides lhs.toInt) lhs.toInt rhs.toInt out := by
  obtain ⟨wide, -, -⟩ := Impl.width_bounds width
  cases rhs with
  | native rhs =>
    exact ⟨_, rfl, Impl.divideNative_divided (by omega) check lhs nonzero divisor fits _ _⟩
  | wide k2 rhs =>
    simp only [Operand.Divides]
    split
    next minimum => exact Impl.divide_minimum check width divisor minimum fits
    next other => exact Impl.divide_divided check nonzero width divisor other fits

theorem tdiv_fits {bits : ℕ} {x y : ℤ} (inside : FitsSigned bits x)
    (overflow : ¬ (x = -2 ^ (bits - 1) ∧ y = -1)) : FitsSigned bits (x.tdiv y) := by
  rw [FitsSigned] at inside ⊢
  rw [Impl.tdiv_of_magnitudes (decide_eq_true_iff (p := x < 0)) (decide_eq_true_iff (p := y < 0))]
  rcases Nat.lt_or_ge 1 y.natAbs with large | unit
  · have half : x.natAbs / y.natAbs ≤ x.natAbs / 2 := div_le_div_left large (by decide)
    generalize x.natAbs / y.natAbs = q at half
    split <;> omega
  rcases (by omega : y.natAbs = 0 ∨ y.natAbs = 1) with zero | one
  · rw [zero, Nat.div_zero]
    split <;> omega
  rw [one, Nat.div_one]
  split
  next => omega
  next same =>
    have equal : decide (x < 0) = decide (y < 0) := by simpa using same
    rw [decide_eq_decide] at equal
    omega

theorem exactDivision_tdiv {x y : ℤ} (nonzero : y ≠ 0) : ExactDivision x y (x.tdiv y) (x.tmod y) := by
  constructor
  · rw [Int.mul_comm]
    exact (Int.mul_tdiv_add_tmod x y).symm
  · rw [Int.natAbs_tmod]
    exact mod_lt x.natAbs (by omega)
  · rw [Int.sign_tmod]
    split
    next divides => exact Or.inl (Int.tmod_eq_zero_of_dvd divides)
    next => exact Or.inr rfl

theorem divide_exact_iff (width : k ∈ [2, 4, 8]) (check : Bool) (lhs : ObWideInteger k .signed)
    (rhs : Operand) (divisor : rhs.IsDivisor) (nonzero : rhs.toInt ≠ 0)
    (overflow : ¬ (lhs.toInt = -2 ^ (64 * k - 1) ∧ rhs.toInt = -1)) :
    (∃ quotient remain, lhs.divideBy check rhs = some (.success, quotient, remain) ∧
      ExactDivision lhs.toInt rhs.toInt quotient.toInt remain.toInt) ↔ rhs.Divides lhs.toInt := by
  have pos := width_pos width
  have inside := toInt_fits pos lhs
  obtain ⟨out, run, divided⟩ := divideBy_divided width check lhs rhs divisor nonzero
    (tdiv_fits inside overflow)
  constructor
  · rintro ⟨quotient, remain, found, exact⟩
    by_contra fails
    rw [run, Option.some.injEq] at found
    rw [found] at divided
    exact absurd exact.small (Nat.not_lt.mpr (divided.excess fails).1)
  · intro holds
    obtain ⟨code, quotient, remain⟩ := out
    obtain ⟨found, rest⟩ := divided.exact holds
    refine ⟨quotient, remain, ?_, ?_⟩
    · rw [run, show code = .success from divided.code]
    · rw [found, rest]
      exact exactDivision_tdiv nonzero

def dividend256 : ObWideInteger 4 .signed := ⟨[0, 2 ^ 63, 2 ^ 63, 0], rfl⟩

/-- `2 ^ 127 + 2 ^ 64 - 1`: the leading digit of the dividend repeats its leading digit. -/
def divisor256 : ObWideInteger 4 .signed := ⟨[-1, 2 ^ 63, 0, 0], rfl⟩

theorem dividend256_by_two_items :
    ∃ quotient remain, dividend256.divideBy true (.wide 4 ⟨[1, 1, 0, 0], rfl⟩) =
        some (.success, quotient, remain) ∧
      ExactDivision dividend256.toInt (2 ^ 64 + 1) quotient.toInt remain.toInt := by
  have divides := divide_exact_iff (by decide) true dividend256 (.wide 4 ⟨[1, 1, 0, 0], rfl⟩)
    (by decide) (by decide) (by decide +kernel)
  exact divides.mpr (by rw [Operand.Divides, if_neg (by decide +kernel)]; decide +kernel)

/-- Both ways to go wrong: an estimate above the base, and the minimum divided by itself. In
each case the quotient is zero and the remainder is the dividend. -/
theorem zero_quotients_not_exact :
    (¬ ∃ quotient remain, dividend256.divideBy true (.wide 4 divisor256) =
        some (.success, quotient, remain) ∧
      ExactDivision dividend256.toInt divisor256.toInt quotient.toInt remain.toInt) ∧
    ¬ ∃ quotient remain, minimum128.divideBy true (.wide 2 minimum128) =
        some (.success, quotient, remain) ∧
      ExactDivision minimum128.toInt minimum128.toInt quotient.toInt remain.toInt := by
  have first : dividend256.divideBy true (.wide 4 divisor256) =
      some (.success, .zero 4 .signed, dividend256) := by decide +kernel
  have second : minimum128.divideBy true (.wide 2 minimum128) =
      some (.success, .zero 2 .signed, minimum128) := by decide +kernel
  constructor
  · rintro ⟨quotient, remain, run, exact⟩
    rw [first] at run
    cases run
    exact absurd exact.small (by decide +kernel)
  · rintro ⟨quotient, remain, run, exact⟩
    rw [second] at run
    cases run
    exact absurd exact.small (by decide +kernel)

end IMBridge.WideInteger
