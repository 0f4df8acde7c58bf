import IMBridge.WideInteger.Items

/-!
Additions, subtractions and negations of `ObWideInteger::_impl`, word by word. A right operand that
is narrower counts with its words as they are: the stored number is the sum or difference of the
unsigned readings modulo `2 ^ Bits`.
-/

namespace IMBridge.WideInteger

open Lib.Limbs ObWideInteger Bool

variable {k k2 : ℕ} {s s2 : Signedness}

/-! The rounds of the loops. -/

variable (overflow : Bool)

/-- Second pass of the wide addition: the overflow of the item below, then its own. -/
def overflowStep (sum : UInt64 × Bool) : UInt64 × Bool :=
  if overflow then (sum.1 + 1, sum.2 || sum.1 + 1 == 0) else sum

def addStep (p : UInt64 × UInt64) : UInt64 × Bool :=
  let item := if overflow then p.1 + 1 else p.1
  let carried := overflow && item == 0
  (item + p.2, carried || item + p.2 < p.2)

def carryStep (item : UInt64) : UInt64 × Bool :=
  if overflow then (item + 1, item + 1 == 0) else (item, false)

variable (borrow : Bool) (p : UInt64 × UInt64)

def subStep : UInt64 × Bool :=
  let item := if borrow then p.1 - 1 else p.1
  let borrowed := borrow && item == baseMax
  (item - p.2, borrowed || item < p.2)

def borrowStep (item : UInt64) : UInt64 × Bool :=
  if borrow then (item - 1, item - 1 == baseMax) else (item, false)

theorem toNat_beq_zero (w : UInt64) : (w == 0) = decide (w.toNat = 0) := by
  rw [beq_eq_decide]
  exact decide_eq_decide.mpr UInt64.toNat_inj.symm

theorem toNat_beq_baseMax (w : UInt64) : (w == baseMax) = decide (w.toNat = 2 ^ 64 - 1) := by
  rw [beq_eq_decide]
  exact decide_eq_decide.mpr UInt64.toNat_inj.symm

theorem decide_lt_words (a b : UInt64) : decide (a < b) = decide (a.toNat < b.toNat) :=
  decide_eq_decide.mpr UInt64.lt_iff_toNat_lt

theorem toNat_decide (p : Prop) [Decidable p] : (decide p).toNat = if p then 1 else 0 := by
  by_cases h : p <;> simp [h]

/-- A round adds the right word `r` times, and so counts the carry. -/
def Counts (r : ℤ) (step : Bool → UInt64 × UInt64 → UInt64 × Bool) : Prop := ∀ carry p,
  ((step carry p).1.toNat : ℤ) + 2 ^ 64 * (r * (step carry p).2.toNat) = p.1.toNat + r * p.2.toNat + r * carry.toNat

theorem counts_addStep : Counts 1 addStep := by
  intro overflow p
  have left := word_lt p.1
  have right := word_lt p.2
  cases overflow with
  | false =>
    simp only [addStep, false_eq_true, if_false, Bool.false_and, Bool.false_or,
      decide_lt_words, UInt64.toNat_add, toNat_false, toNat_decide]
    split <;> omega
  | true =>
    simp only [addStep, if_true, Bool.true_and, toNat_beq_zero, decide_lt_words,
      UInt64.toNat_add, UInt64.toNat_one, toNat_true, ← decide_or, toNat_decide]
    split <;> omega

theorem counts_overflowStep :
    Counts 1 fun overflow p => overflowStep overflow (p.1 + p.2, decide (p.2 > p.1 + p.2)) := by
  intro overflow p
  have left := word_lt p.1
  have right := word_lt p.2
  cases overflow with
  | false =>
    simp only [overflowStep, false_eq_true, if_false, gt_iff_lt, decide_lt_words,
      UInt64.toNat_add, toNat_false, toNat_decide]
    split <;> omega
  | true =>
    simp only [overflowStep, if_true, gt_iff_lt, toNat_beq_zero, decide_lt_words,
      UInt64.toNat_add, UInt64.toNat_one, toNat_true, ← decide_or, toNat_decide]
    split <;> omega

theorem counts_subStep : Counts (-1) subStep := by
  intro borrow p
  have left := word_lt p.1
  have right := word_lt p.2
  cases borrow with
  | false =>
    simp only [subStep, false_eq_true, if_false, Bool.false_and, Bool.false_or,
      decide_lt_words, UInt64.toNat_sub, toNat_false, toNat_decide]
    split <;> omega
  | true =>
    simp only [subStep, if_true, Bool.true_and, toNat_beq_baseMax, decide_lt_words,
      UInt64.toNat_sub, UInt64.toNat_one, toNat_true, ← decide_or, toNat_decide]
    split <;> omega

theorem carryStep_eq (item : UInt64) : carryStep overflow item = addStep overflow (item, 0) := by
  cases overflow with
  | false => simp [carryStep, addStep]
  | true => simp [carryStep, addStep]

theorem borrowStep_eq (item : UInt64) : borrowStep borrow item = subStep borrow (item, 0) := by
  cases borrow with
  | false => simp [borrowStep, subStep]
  | true => simp [borrowStep, subStep]

/-! The loops. -/

def addItems (ls rs : List UInt64) : List UInt64 :=
  let sums := List.zipWith (fun l r => (l + r, decide (r > l + r))) ls rs ++
    (ls.drop rs.length).map (·, false)
  (chain overflowStep false sums).1

variable (step : Bool → UInt64 × UInt64 → UInt64 × Bool) (rest : Bool → UInt64 → UInt64 × Bool)

section

variable (ls rs : List UInt64)

def twoLoops : List UInt64 :=
  let low := chain step false (ls.zip rs)
  low.1 ++ (chain rest low.2 (ls.drop rs.length)).1

@[simp] theorem length_addItems : (addItems ls rs).length = ls.length := by
  simp only [addItems, length_chain, List.length_append, List.length_zipWith, List.length_map, List.length_drop]
  omega

@[simp] theorem length_twoLoops : (twoLoops step rest ls rs).length = ls.length := by
  simp only [twoLoops, List.length_append, length_chain, List.length_zip, List.length_drop]
  omega

theorem addItems_eq : addItems ls rs = (chain (fun overflow p =>
      overflowStep overflow (p.1 + p.2, decide (p.2 > p.1 + p.2))) false (pairs ls rs)).1 := by
  rw [← chain_map overflowStep, pairs_eq, List.map_append, List.map_map, addItems, List.map_zip_eq_zipWith]
  have copied : (fun p : UInt64 × UInt64 => (p.1 + p.2, decide (p.2 > p.1 + p.2))) ∘ (·, 0) = (·, false) := by
    funext l
    simp
  rw [copied]
  rfl

end

variable {step : Bool → UInt64 × UInt64 → UInt64 × Bool}

theorem twoLoops_eq {rest : Bool → UInt64 → UInt64 × Bool} (same : ∀ c l, rest c l = step c (l, 0))
    (ls rs : List UInt64) : twoLoops step rest ls rs = (chain step false (pairs ls rs)).1 := by
  have rest_eq : rest = fun c l => step c (l, 0) := by
    funext c l
    exact same c l
  rw [pairs_eq, chain_append, chain_map, twoLoops, rest_eq]

theorem eq_emod_of_balance {x z modulus c : ℤ} (nonneg : 0 ≤ x) (below : x < modulus)
    (balance : x + modulus * c = z) : x = z % modulus := by
  rw [← balance, Int.add_mul_emod_self_left, Int.emod_eq_of_lt nonneg below]

theorem value_emod_of_balance {words : List UInt64} {n : ℕ} {z c : ℤ} (length : words.length = n)
    (balance : (value words : ℤ) + (2 ^ 64) ^ n * c = z) : (value words : ℤ) = z % 2 ^ (64 * n) := by
  have below : (value words : ℤ) < 2 ^ (64 * n) := by
    have bound := value_lt words
    rw [length] at bound
    exact_mod_cast bound
  rw [← pow_mul] at balance
  exact eq_emod_of_balance (by omega) below balance

theorem Counts.value_chain {r : ℤ} (counts : Counts r step) {ls rs : List UInt64} (fits : rs.length ≤ ls.length) :
    (value (chain step false (pairs ls rs)).1 : ℤ) = (value ls + r * value rs : ℤ) % 2 ^ (64 * ls.length) := by
  obtain ⟨-, balance⟩ := chain_balance (2 ^ 64) step (fun w : UInt64 => (w.toNat : ℤ))
    (fun p : UInt64 × UInt64 => (p.1.toNat : ℤ) + r * p.2.toNat) (fun c => r * c.toNat) (fun _ => True)
    (fun c _ p => ⟨trivial, counts c p⟩) false trivial (pairs ls rs)
  rw [weighted_value, weighted_pairs r ls rs fits, length_pairs] at balance
  apply value_emod_of_balance (by rw [length_chain, length_pairs])
  rw [balance]
  simp

/-! `_impl::add`, `_impl::sub` and `_impl::unary_minus`. -/

namespace Impl

/-- The branch of `add` for a right operand that is not wider; 128 bits are added at once. -/
def addNarrower (lhs : ObWideInteger k s) (rhs : ObWideInteger k2 s2) : ObWideInteger k s where
  items := if k = 2 then (ofDw (lhs.dw + rhs.dw) : ObWideInteger 2 s).items
    else addItems lhs.items rhs.items
  size := by
    split
    next two => exact (size _).trans two.symm
    next => rw [length_addItems, lhs.size]

/-- `add`; its return code is always success. A wider right operand is added in its own type. -/
def add (lhs : ObWideInteger k s) (rhs : ObWideInteger k2 s2) : ObWideInteger k s :=
  if k2 ≤ k then addNarrower lhs rhs
  else (addNarrower (lhs.assign k2 s2) rhs).assign k s

def addNative (self : ObWideInteger k s) (rhs : Native s2) : ObWideInteger k s where
  items := twoLoops addStep carryStep self.items [rhs.word]
  size := by rw [length_twoLoops, self.size]

/-- Differences of different signs overflow when the result has the sign of the subtrahend. -/
def subOverflow (lNeg rNeg resNeg : Bool) : Bool :=
  if !lNeg && rNeg then resNeg else if lNeg && !rNeg then !resNeg else false

def addOverflow (lNeg rNeg resNeg : Bool) : Bool :=
  if lNeg && rNeg then !resNeg else if !lNeg && !rNeg then resNeg else false

def retCode (check overflow : Bool) : RetCode :=
  if check && overflow then .operateOverflow else .success

variable (check : Bool)

def subNarrower (lhs : ObWideInteger k s) (rhs : ObWideInteger k2 s2) :
    RetCode × ObWideInteger k s :=
  let res : ObWideInteger k s := ⟨twoLoops subStep borrowStep lhs.items rhs.items,
    by rw [length_twoLoops, lhs.size]⟩
  (retCode check (subOverflow lhs.isNegative rhs.isNegative res.isNegative), res)

def sub (lhs : ObWideInteger k s) (rhs : ObWideInteger k2 s2) : RetCode × ObWideInteger k s :=
  if k2 ≤ k then subNarrower check lhs rhs
  else
    let xres := subNarrower check (lhs.assign k2 s2) rhs
    (xres.1, xres.2.assign k s)

def subNative (self : ObWideInteger k s) (rhs : Native s2) : RetCode × ObWideInteger k s :=
  let res : ObWideInteger k s := ⟨twoLoops subStep borrowStep self.items [rhs.word],
    by rw [length_twoLoops, self.size]⟩
  (retCode check (subOverflow self.isNegative rhs.isNegative res.isNegative), res)

def unaryMinus (self : ObWideInteger k s) : RetCode × ObWideInteger k s :=
  let res := addNative (⟨self.items.map (~~~·), by rw [List.length_map, self.size]⟩ :
    ObWideInteger k s) (⟨1⟩ : Native .signed)
  (retCode check (self.isNegative && res.isNegative), res)

def neg (x : ObWideInteger k s) : ObWideInteger k s := (unaryMinus false x).2

def makePositive (x : ObWideInteger k s) : ObWideInteger k s :=
  if x.isNegative then (unaryMinus false x).2 else x

theorem toNat_twoLoops {step : Bool → UInt64 × UInt64 → UInt64 × Bool} {rest : Bool → UInt64 → UInt64 × Bool} {r : ℤ}
    (counts : Counts r step) (same : ∀ c l, rest c l = step c (l, 0)) (self : ObWideInteger k s) {rs : List UInt64}
    (fits : rs.length ≤ k) :
    (value (twoLoops step rest self.items rs) : ℤ) = (self.toNat + r * value rs : ℤ) % 2 ^ (64 * k) := by
  rw [twoLoops_eq same, counts.value_chain (by rwa [self.size]), self.size]
  rfl

theorem toNat_dw_of_le (narrow : k ≤ 2) (x : ObWideInteger k s) : x.dw.toNat = x.toNat := by
  have bound : x.toNat < 2 ^ (64 * 2) := x.toNat_lt.trans_le (Nat.pow_le_pow_right (by decide) (by omega))
  rw [dw, List.take_of_length_le (by rw [x.size]; exact narrow), BitVec.toNat_ofNat]
  exact Nat.mod_eq_of_lt bound

theorem toNat_addNarrower (narrower : k2 ≤ k) (lhs : ObWideInteger k s) (rhs : ObWideInteger k2 s2) :
    ((addNarrower lhs rhs).toNat : ℤ) = (lhs.toNat + rhs.toNat : ℤ) % 2 ^ (64 * k) := by
  by_cases two : k = 2
  · subst two
    have stored : (addNarrower lhs rhs).toNat = (lhs.dw + rhs.dw).toNat := by
      rw [← toNat_ofDw (s := s)]
      rfl
    rw [stored, BitVec.toNat_add, toNat_dw_of_le le_rfl, toNat_dw_of_le narrower]
    push_cast
    rfl
  · have stored : (addNarrower lhs rhs).toNat = value (addItems lhs.items rhs.items) := by
      simp only [ObWideInteger.toNat, addNarrower, if_neg two]
    rw [stored, addItems_eq, counts_overflowStep.value_chain (by rw [lhs.size, rhs.size]; exact narrower), lhs.size,
      one_mul]
    rfl

theorem toNat_add (narrower : k2 ≤ k) (lhs : ObWideInteger k s) (rhs : ObWideInteger k2 s2) :
    ((add lhs rhs).toNat : ℤ) = (lhs.toNat + rhs.toNat : ℤ) % 2 ^ (64 * k) := by
  rw [add, if_pos narrower, toNat_addNarrower narrower]

theorem toNat_addNative (pos : 0 < k) (self : ObWideInteger k s) (rhs : Native s2) :
    ((addNative self rhs).toNat : ℤ) = (self.toNat + rhs.word.toNat : ℤ) % 2 ^ (64 * k) := by
  have sum : ((addNative self rhs).toNat : ℤ) = _ := toNat_twoLoops counts_addStep carryStep_eq self pos
  simpa using sum

theorem toNat_sub (narrower : k2 ≤ k) (check : Bool) (lhs : ObWideInteger k s) (rhs : ObWideInteger k2 s2) :
    ((sub check lhs rhs).2.toNat : ℤ) = (lhs.toNat - rhs.toNat : ℤ) % 2 ^ (64 * k) := by
  have difference := toNat_twoLoops counts_subStep borrowStep_eq lhs (rhs.size.trans_le narrower)
  rw [neg_one_mul, ← sub_eq_add_neg] at difference
  rwa [sub, if_pos narrower]

theorem toNat_subNative (pos : 0 < k) (check : Bool) (self : ObWideInteger k s) (rhs : Native s2) :
    ((subNative check self rhs).2.toNat : ℤ) = (self.toNat - rhs.word.toNat : ℤ) % 2 ^ (64 * k) := by
  have difference : ((subNative check self rhs).2.toNat : ℤ) = _ :=
    toNat_twoLoops counts_subStep borrowStep_eq self pos
  simpa [← sub_eq_add_neg] using difference

theorem toNat_unaryMinus (pos : 0 < k) (check : Bool) (self : ObWideInteger k s) :
    ((unaryMinus check self).2.toNat : ℤ) = -(self.toNat : ℤ) % 2 ^ (64 * k) := by
  have flipped : (value (self.items.map (~~~·)) : ℤ) + self.toNat + 1 = 2 ^ (64 * k) := by
    have complement := value_complement self.items
    rw [self.size] at complement
    exact_mod_cast complement
  have one : ((1 : UInt64).toNat : ℤ) = 1 := rfl
  rw [unaryMinus, toNat_addNative pos]
  change ((value (self.items.map (~~~·)) : ℤ) + (1 : UInt64).toNat) % 2 ^ (64 * k) = _
  rw [one, ← Int.add_emod_right (-(self.toNat : ℤ))]
  congr 1
  omega

/-- The magnitude, as an unsigned reading; at the minimum it is `2 ^ (Bits - 1)`. -/
theorem toNat_makePositive (pos : 0 < k) (x : ObWideInteger k s) : (makePositive x).toNat = x.toInt.natAbs := by
  cases sign : x.isNegative with
  | false =>
    rw [makePositive, sign, x.toInt_of_not_isNegative sign]
    rfl
  | true =>
    have negative := x.isNegative_iff_toInt_neg.mp sign
    have fits := x.toInt_of_isNegative sign
    have nonzero : x.toNat ≠ 0 := by
      intro zero
      cases s with
      | unsigned => cases sign
      | signed =>
        rw [isNegative_eq pos, zero, decide_eq_true_eq] at sign
        grind
    have stored := toNat_unaryMinus pos false x
    have reduced : -(x.toNat : ℤ) % 2 ^ (64 * k) = 2 ^ (64 * k) - x.toNat := by
      rw [← Int.add_emod_right, Int.emod_eq_of_lt (by omega) (by omega)]
      ring
    rw [makePositive, sign]
    simp only [if_true]
    omega

theorem toNat_neg_of_isNegative (pos : 0 < k) {x : ObWideInteger k s}
    (sign : x.isNegative = true) : ((neg x).toNat : ℤ) = -x.toInt := by
  have magnitude := toNat_makePositive pos x
  have negative := x.isNegative_iff_toInt_neg.mp sign
  have same : makePositive x = neg x := by rw [makePositive, sign]; rfl
  rw [same] at magnitude
  omega

end Impl

end IMBridge.WideInteger
