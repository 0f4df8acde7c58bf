import IMBridge.WideInteger.Multiply

/-!
`add`, `sub` and `multiply` of a signed wide integer store the mathematical result modulo `2 ^ Bits`
and report overflow exactly when that result does not fit.
-/

namespace IMBridge.WideInteger

open Lib.Limbs ObWideInteger

variable {k k2 : ℕ}

inductive Operand where
  | wide (k : ℕ) (x : ObWideInteger k .signed)
  | native (x : Native .signed)

def Operand.toInt : Operand → ℤ
  | .wide _ x => x.toInt
  | .native x => x.toInt

def Operand.isNegative : Operand → Bool
  | .wide _ x => x.isNegative
  | .native x => x.isNegative

namespace ObWideInteger

variable (check : Bool) (self : ObWideInteger k .signed)

/-- What the member `add` leaves in its result: the magnitude of a negative operand is subtracted. -/
def addStored : Operand → ObWideInteger k .signed
  | .wide _ rhs =>
    if rhs.isNegative then (Impl.sub check self (Impl.neg rhs)).2 else Impl.add self rhs
  | .native rhs =>
    if rhs.isNegative then (Impl.subNative check self rhs.neg).2 else Impl.addNative self rhs

def add (rhs : Operand) : RetCode × ObWideInteger k .signed :=
  let res := addStored check self rhs
  (Impl.retCode check (Impl.addOverflow self.isNegative rhs.isNegative res.isNegative), res)

def subStored : Operand → ObWideInteger k .signed
  | .wide _ rhs =>
    if rhs.isNegative then Impl.add self (Impl.neg rhs) else (Impl.sub check self rhs).2
  | .native rhs =>
    if rhs.isNegative then Impl.addNative self rhs.neg else (Impl.subNative check self rhs).2

def sub (rhs : Operand) : RetCode × ObWideInteger k .signed :=
  let res := subStored check self rhs
  (Impl.retCode check (Impl.subOverflow self.isNegative rhs.isNegative res.isNegative), res)

def multiply : Operand → RetCode × ObWideInteger k .signed
  | .wide _ rhs => Impl.multiply check self rhs
  | .native rhs => Impl.multiplyNative check self rhs

end ObWideInteger

theorem width_pos (width : k ∈ [2, 4, 8]) : 0 < k := by
  grind

/-- A right operand the width `k` takes: not wider, and not the minimum of `int64_t`. -/
def Operand.Allowed (k : ℕ) : Operand → Prop
  | .wide k2 _ => k2 ∈ [2, 4, 8] ∧ k2 ≤ k
  | .native x => x.toInt ≠ -2 ^ 63

instance (k : ℕ) (rhs : Operand) : Decidable (rhs.Allowed k) := by
  cases rhs <;> unfold Operand.Allowed <;> infer_instance

namespace Operand

theorem isNegative_iff_toInt_neg (rhs : Operand) : rhs.isNegative = true ↔ rhs.toInt < 0 := by
  cases rhs with
  | wide _ x => exact x.isNegative_iff_toInt_neg
  | native x => exact x.isNegative_iff_toInt_neg

theorem Allowed.fits {rhs : Operand} (pos : 0 < k) (allowed : rhs.Allowed k) : FitsSigned (64 * k) rhs.toInt := by
  cases rhs with
  | wide k2 x =>
    exact (x.toInt_fits (width_pos allowed.1)).mono (Nat.mul_le_mul_left 64 allowed.2)
  | native x => exact (x.toWide.toInt_fits (by decide)).mono (Nat.mul_le_mul_left 64 pos)

end Operand

theorem toNat_add_emod (x : ObWideInteger k .signed) (z : ℤ) :
    ((x.toNat : ℤ) + z) % 2 ^ (64 * k) = (x.toInt + z) % 2 ^ (64 * k) := by
  rw [← x.toInt_emod, Int.emod_add_emod]

theorem toNat_sub_emod (x : ObWideInteger k .signed) (z : ℤ) :
    ((x.toNat : ℤ) - z) % 2 ^ (64 * k) = (x.toInt - z) % 2 ^ (64 * k) := by
  rw [Int.sub_eq_add_neg, toNat_add_emod, Int.sub_eq_add_neg]

variable {rhs : Operand} {res : ObWideInteger k .signed}

theorem stored_emod (pos : 0 < k) (check : Bool) (self : ObWideInteger k .signed) (allowed : rhs.Allowed k) :
    ((self.addStored check rhs).toNat : ℤ) = (self.toInt + rhs.toInt) % 2 ^ (64 * k) ∧
      ((self.subStored check rhs).toNat : ℤ) = (self.toInt - rhs.toInt) % 2 ^ (64 * k) := by
  cases rhs with
  | wide k2 rhs =>
    obtain ⟨width, narrower⟩ := allowed
    rw [addStored, subStored, Operand.toInt]
    cases sign : rhs.isNegative with
    | true =>
      rw [if_pos rfl, if_pos rfl, Impl.toNat_sub narrower, Impl.toNat_add narrower,
        Impl.toNat_neg_of_isNegative (width_pos width) sign, toNat_sub_emod, toNat_add_emod,
        sub_neg_eq_add, ← Int.sub_eq_add_neg]
      exact ⟨rfl, rfl⟩
    | false =>
      rw [if_neg Bool.false_ne_true, if_neg Bool.false_ne_true, Impl.toNat_sub narrower,
        Impl.toNat_add narrower, toNat_sub_emod, toNat_add_emod, rhs.toInt_of_not_isNegative sign]
      exact ⟨rfl, rfl⟩
  | native rhs =>
    rw [addStored, subStored, Operand.toInt]
    cases sign : rhs.isNegative with
    | true =>
      rw [if_pos rfl, if_pos rfl, Impl.toNat_subNative pos, Impl.toNat_addNative pos,
        Native.toNat_neg_word sign, toNat_sub_emod, toNat_add_emod, sub_neg_eq_add,
        ← Int.sub_eq_add_neg]
      exact ⟨rfl, rfl⟩
    | false =>
      rw [if_neg Bool.false_ne_true, if_neg Bool.false_ne_true, Impl.toNat_subNative pos,
        Impl.toNat_addNative pos, toNat_sub_emod, toNat_add_emod,
        Native.toInt_of_not_isNegative sign]
      exact ⟨rfl, rfl⟩

theorem isNegative_of_stored (pos : 0 < k) {z : ℤ} (low : -2 ^ (64 * k) ≤ z) (high : z < 2 ^ (64 * k))
    (stored : (res.toNat : ℤ) = z % 2 ^ (64 * k)) :
    res.isNegative = true ↔ (0 ≤ z ∧ 2 ^ (64 * k - 1) ≤ z) ∨ (z < 0 ∧ -2 ^ (64 * k - 1) ≤ z) := by
  have halves : (2 * 2 ^ (64 * k - 1) : ℤ) = 2 ^ (64 * k) := by exact_mod_cast two_mul_half pos
  have cast : (2 ^ (64 * k - 1) : ℤ) = ((2 ^ (64 * k - 1) : ℕ) : ℤ) := by push_cast; rfl
  rw [isNegative_eq pos, decide_eq_true_eq]
  by_cases nonneg : 0 ≤ z
  · rw [Int.emod_eq_of_lt nonneg high] at stored
    omega
  · rw [← Int.add_emod_right, Int.emod_eq_of_lt (by omega) (by omega)] at stored
    omega

/-- The verdict on a sum; `r` may be the opposite of a minimum, and a zero may count as negative. -/
theorem addOverflow_eq (pos : 0 < k) {l r : ℤ} {lNeg rNeg : Bool} (left : lNeg = true ↔ l < 0)
    (right : if rNeg then r ≤ 0 else 0 ≤ r) (hl : FitsSigned (64 * k) l)
    (hr : -2 ^ (64 * k - 1) ≤ r ∧ r ≤ 2 ^ (64 * k - 1)) (stored : (res.toNat : ℤ) = (l + r) % 2 ^ (64 * k)) :
    Impl.addOverflow lNeg rNeg res.isNegative = decide ¬ FitsSigned (64 * k) (l + r) := by
  have halves : (2 * 2 ^ (64 * k - 1) : ℤ) = 2 ^ (64 * k) := by exact_mod_cast two_mul_half pos
  rw [FitsSigned] at hl
  have sign := isNegative_of_stored pos (by omega) (by omega) stored
  rw [Bool.eq_iff_iff, decide_eq_true_eq, FitsSigned]
  generalize res.isNegative = resNeg at sign ⊢
  cases lNeg <;> cases rNeg <;> cases resNeg <;>
    simp only [Impl.addOverflow, Bool.and_true, Bool.and_false, Bool.not_true, Bool.not_false,
      Bool.false_eq_true, if_true, if_false, true_iff, false_iff] at left right sign ⊢ <;> omega

theorem subOverflow_eq (lNeg rNeg resNeg : Bool) :
    Impl.subOverflow lNeg rNeg resNeg = Impl.addOverflow lNeg (!rNeg) resNeg := by
  cases lNeg <;> cases rNeg <;> rfl

theorem add_computes (pos : 0 < k) (check : Bool) (self : ObWideInteger k .signed) (allowed : rhs.Allowed k) :
    Computes check (self.toInt + rhs.toInt) (self.add check rhs) where
  stored := (stored_emod pos check self allowed).1
  verdict := by
    have sign := rhs.isNegative_iff_toInt_neg
    have bounds := allowed.fits pos
    rw [FitsSigned] at bounds
    refine congrArg (Impl.retCode check) (addOverflow_eq pos self.isNegative_iff_toInt_neg ?_
      (self.toInt_fits pos) (by omega) (stored_emod pos check self allowed).1)
    generalize rhs.isNegative = neg at sign ⊢
    cases neg <;> simp at sign ⊢ <;> omega

theorem sub_computes (pos : 0 < k) (check : Bool) (self : ObWideInteger k .signed) (allowed : rhs.Allowed k) :
    Computes check (self.toInt - rhs.toInt) (self.sub check rhs) where
  stored := (stored_emod pos check self allowed).2
  verdict := by
    have sign := rhs.isNegative_iff_toInt_neg
    have bounds := allowed.fits pos
    have stored := (stored_emod pos check self allowed).2
    rw [FitsSigned] at bounds
    rw [Int.sub_eq_add_neg] at stored ⊢
    refine congrArg (Impl.retCode check) ((subOverflow_eq _ _ _).trans (addOverflow_eq pos
      self.isNegative_iff_toInt_neg ?_ (self.toInt_fits pos) (by omega) stored))
    generalize rhs.isNegative = neg at sign ⊢
    cases neg <;> simp at sign ⊢ <;> omega

/-- Results below `2 ^ 126` in magnitude need no second multiplication. -/
theorem fits_of_small {x y : ℤ} (hx : x.natAbs ≤ 2 ^ 63) (hy : y.natAbs ≤ 2 ^ 63) : FitsSigned (64 * 2) (x * y) := by
  have bound : (x * y).natAbs ≤ 2 ^ 63 * 2 ^ 63 := by
    rw [Int.natAbs_mul]
    exact Nat.mul_le_mul hx hy
  rw [FitsSigned]
  omega

theorem natAbs_of_high_zero {x : ObWideInteger 2 .signed} (high : ((Impl.makePositive x).assign 2 .unsigned).item 1 = 0)
    (low : ((Impl.makePositive x).assign 2 .unsigned).item 0 ≤ (1 : UInt64) <<< 63) :
    x.toInt.natAbs ≤ 2 ^ 63 := by
  have bound := ((Impl.makePositive x).assign 2 .unsigned).toNat_lt
  have first := ((Impl.makePositive x).assign 2 .unsigned).toNat_item 0
  have second := ((Impl.makePositive x).assign 2 .unsigned).toNat_item 1
  rw [UInt64.le_iff_toNat_le, first, show ((1 : UInt64) <<< 63).toNat = 2 ^ 63 from rfl] at low
  rw [high] at second
  rw [toNat_assign_same, Impl.toNat_makePositive (by decide)] at bound low second
  simp only [UInt64.toNat_zero] at second
  omega

theorem multiplyNarrower_computes_two (check : Bool) (lhs rhs : ObWideInteger 2 .signed) :
    Computes check (lhs.toInt * rhs.toInt) (Impl.multiplyNarrower check lhs rhs) := by
  constructor
  · have stored : (Impl.multiplyNarrower check lhs rhs).2.toNat = (lhs.dw * rhs.dw).toNat := by
      rw [← toNat_ofDw (s := .signed)]
      rfl
    rw [stored, BitVec.toNat_mul, toNat_dw, toNat_dw]
    push_cast
    rw [← lhs.toInt_emod, ← rhs.toInt_emod]
    exact (Int.mul_emod lhs.toInt rhs.toInt _).symm
  · have wide := Impl.multiplyItems_computes (by decide) (by decide) (by decide) false
      (lhs.assign (Impl.promoted 2) .signed) rhs
    rw [lhs.toInt_assign_signed (by decide) (by decide)] at wide
    have fits : FitsSigned (64 * Impl.promoted 2) (lhs.toInt * rhs.toInt) := by
      have left := lhs.toInt_fits (by decide)
      have right := rhs.toInt_fits (by decide)
      have bound : (lhs.toInt * rhs.toInt).natAbs ≤ 2 ^ 127 * 2 ^ 127 := by
        rw [Int.natAbs_mul]
        simp only [FitsSigned] at left right
        exact Nat.mul_le_mul (by omega) (by omega)
      rw [FitsSigned, show Impl.promoted 2 = 4 from rfl]
      omega
    have product := toInt_eq_of_emod (by decide) fits wide.stored
    rw [Impl.multiplyNarrower, dif_pos rfl]
    dsimp only
    rw [Impl.withinLimits_eq (by decide) (by decide), product, ← decide_not]
    congr 1
    generalize fast : ((((Impl.makePositive lhs).assign 2 .unsigned).item 1 == 0 &&
      ((Impl.makePositive rhs).assign 2 .unsigned).item 1 == 0 &&
      decide (((Impl.makePositive lhs).assign 2 .unsigned).item 0 ≤ (1 : UInt64) <<< 63)) &&
      decide (((Impl.makePositive rhs).assign 2 .unsigned).item 0 ≤ (1 : UInt64) <<< 63)) = small
    cases small with
    | false => simp
    | true =>
      simp only [Bool.and_eq_true, beq_iff_eq, decide_eq_true_eq] at fast
      obtain ⟨⟨⟨highL, highR⟩, lowL⟩, lowR⟩ := fast
      have small := fits_of_small (natAbs_of_high_zero highL lowL) (natAbs_of_high_zero highR lowR)
      simp [small]

theorem multiply_computes (width : k ∈ [2, 4, 8]) (check : Bool) (self : ObWideInteger k .signed)
    (allowed : rhs.Allowed k) : Computes check (self.toInt * rhs.toInt) (self.multiply check rhs) := by
  have pos := width_pos width
  cases rhs with
  | wide k2 rhs =>
    obtain ⟨width2, narrower⟩ := allowed
    have positive2 := width_pos width2
    rw [multiply, Impl.multiply, if_pos narrower, Operand.toInt]
    by_cases two : k = 2
    · subst two
      have same : k2 = 2 := by
        grind
      subst same
      exact multiplyNarrower_computes_two check self rhs
    · rw [Impl.multiplyNarrower, dif_neg two]
      exact Impl.multiplyItems_computes pos positive2 narrower check self rhs
  | native rhs =>
    rw [multiply, Operand.toInt]
    -- the products by 0 and 1 are not computed
    by_cases zero : rhs.word = 0
    · have none : rhs.toInt = 0 := by
        have : rhs = ⟨0⟩ := by cases rhs; rw [← zero]
        rw [this]
        decide
      rw [Impl.multiplyNative, if_pos zero, none, Int.mul_zero]
      constructor
      · simp
      · have fits : FitsSigned (64 * k) 0 := by
          have half : (0 : ℤ) < 2 ^ (64 * k - 1) := by positivity
          rw [FitsSigned]
          omega
        simp [fits, Impl.retCode]
    · by_cases one : rhs.word = 1
      · have unit : rhs.toInt = 1 := by
          have : rhs = ⟨1⟩ := by cases rhs; rw [← one]
          rw [this]
          decide
        rw [Impl.multiplyNative, if_neg zero, if_pos one, unit, Int.mul_one]
        constructor
        · exact self.toInt_emod.symm
        · simp [self.toInt_fits pos, Impl.retCode]
      · exact Impl.multiplyNative_computes pos check self allowed zero one

inductive Op where
  | add
  | sub
  | multiply

def Op.run (op : Op) (check : Bool) (self : ObWideInteger k .signed) (rhs : Operand) :
    RetCode × ObWideInteger k .signed :=
  match op with
  | .add => self.add check rhs
  | .sub => self.sub check rhs
  | .multiply => self.multiply check rhs

def Op.exact (op : Op) (x y : ℤ) : ℤ :=
  match op with
  | .add => x + y
  | .sub => x - y
  | .multiply => x * y

theorem Op.run_computes (width : k ∈ [2, 4, 8]) (op : Op) (check : Bool) (self : ObWideInteger k .signed)
    (allowed : rhs.Allowed k) : Computes check (op.exact self.toInt rhs.toInt) (op.run check self rhs) := by
  have pos := width_pos width
  cases op with
  | add => exact add_computes pos check self allowed
  | sub => exact sub_computes pos check self allowed
  | multiply => exact multiply_computes width check self allowed

theorem arithmetic_exact (width : k ∈ [2, 4, 8]) (op : Op) (self : ObWideInteger k .signed)
    (rhs : Operand) (allowed : rhs.Allowed k) :
    ((op.run true self rhs).1 = .operateOverflow ↔
        ¬ FitsSigned (64 * k) (op.exact self.toInt rhs.toInt)) ∧
      (FitsSigned (64 * k) (op.exact self.toInt rhs.toInt) → (op.run true self rhs).1 = .success ∧
          (op.run true self rhs).2.toInt = op.exact self.toInt rhs.toInt) ∧
      ((op.run false self rhs).2.toNat : ℤ) = op.exact self.toInt rhs.toInt % 2 ^ (64 * k) := by
  have pos := width_pos width
  have checked := op.run_computes width true self allowed
  have ignored := op.run_computes width false self allowed
  have verdict := checked.verdict
  simp only [Impl.retCode, Bool.true_and, decide_eq_true_eq] at verdict
  refine ⟨?_, fun fits => ⟨?_, ?_⟩, ignored.stored⟩
  · rw [verdict]
    split
    next outside => exact iff_of_true rfl outside
    next inside => exact iff_of_false (by decide) inside
  · rw [verdict, if_neg (not_not.mpr fits)]
  · exact toInt_eq_of_emod pos fits checked.stored

def minimum128 : ObWideInteger 2 .signed := Impl.limitsMin 2 .signed

theorem minusOne_times_minimum128 :
    (Op.multiply.run true (⟨[-1, -1, -1, -1], rfl⟩ : ObWideInteger 4 .signed)
      (.wide 2 minimum128)).2.toInt = 2 ^ 127 := by
  have exact := arithmetic_exact (by decide) .multiply
    (⟨[-1, -1, -1, -1], rfl⟩ : ObWideInteger 4 .signed) (.wide 2 minimum128) (by decide)
  exact (exact.2.1 (by decide +kernel)).2.trans (by decide +kernel)

end IMBridge.WideInteger
