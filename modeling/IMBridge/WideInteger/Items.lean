import IMBridge.Lib.Limbs
import Mathlib.Data.Int.Bitwise
import Mathlib.Tactic.Positivity

/-!
`ObWideInteger<Bits, Signed>`: `ITEM_COUNT` words of 64 bits, read as a natural number (`toNat`, the
words as they are) and as the integer the type gives it (`toInt`).
-/

namespace IMBridge.WideInteger

open Lib.Limbs Int UInt64

abbrev DwType := BitVec 128

inductive Signedness where
  | signed
  | unsigned
deriving DecidableEq

inductive RetCode where
  | success
  | operateOverflow
deriving DecidableEq

def signBitMask : UInt64 := 0x8000000000000000

def baseMax : UInt64 := 0xFFFFFFFFFFFFFFFF

/-- `ObWideInteger<Bits, Signed>` with `ITEM_COUNT = k`, so `Bits = 64 * k`. -/
structure ObWideInteger (k : ℕ) (s : Signedness) where
  items : List UInt64
  size : items.length = k
deriving DecidableEq

structure Native (s : Signedness) where
  word : UInt64
deriving DecidableEq

def dword (word : UInt64) : DwType := word.toBitVec.setWidth 128

def lowWord (d : DwType) : UInt64 := ofBitVec (d.setWidth 64)

@[simp] theorem toNat_dword (word : UInt64) : (dword word).toNat = word.toNat := by
  have bound := word_lt word
  simp only [dword, BitVec.toNat_setWidth, toNat_toBitVec]
  omega

@[simp] theorem toNat_lowWord (d : DwType) : (lowWord d).toNat = d.toNat % 2 ^ 64 := by
  simp [lowWord]

theorem and_signBitMask (word : UInt64) : ((word &&& signBitMask) != 0) = decide (2 ^ 63 ≤ word.toNat) := by
  have bound := word_lt word
  have masked : (word &&& signBitMask).toNat = (word.toNat.testBit 63).toNat * 2 ^ 63 := by
    rw [UInt64.toNat_and, show signBitMask.toNat = 2 ^ 63 from rfl, Nat.and_two_pow]
  have top : word.toNat.testBit 63 = decide (2 ^ 63 ≤ word.toNat) := by
    grind
  have zero : word &&& signBitMask = 0 ↔ ¬ 2 ^ 63 ≤ word.toNat := by
    rw [← UInt64.toNat_inj, masked, top]
    simp
  grind

namespace ObWideInteger

variable {k k2 : ℕ} {s s2 : Signedness} (x : ObWideInteger k s)

def item (i : ℕ) : UInt64 := x.items.getD i 0

def isNegative : Bool := s == .signed && (x.item (k - 1) &&& signBitMask) != 0

def toNat : ℕ := value x.items

def toInt : ℤ :=
  if x.isNegative then (x.toNat : ℤ) - 2 ^ (64 * k) else x.toNat

theorem toNat_lt : x.toNat < 2 ^ (64 * k) := by
  have bound := value_lt x.items
  rwa [x.size] at bound

theorem toNat_item (i : ℕ) : (x.item i).toNat = x.toNat / 2 ^ (64 * i) % 2 ^ 64 := getD_toNat x.items i

theorem ext_toNat {x y : ObWideInteger k s} (same : x.toNat = y.toNat) : x = y := by
  have items : x.items = y.items := value_injective (x.size.trans y.size.symm) same
  cases x
  cases y
  cases items
  rfl

theorem two_mul_half (pos : 0 < k) : 2 * 2 ^ (64 * k - 1) = 2 ^ (64 * k) := by
  rw [← pow_succ', show 64 * k - 1 + 1 = 64 * k by omega]

theorem isNegative_unsigned (x : ObWideInteger k .unsigned) : x.isNegative = false := rfl

theorem half_eq (pos : 0 < k) : 2 ^ (64 * k - 1) = 2 ^ (64 * (k - 1)) * 2 ^ 63 := by
  rw [← pow_add, show 64 * (k - 1) + 63 = 64 * k - 1 by omega]

theorem toNat_top (pos : 0 < k) : (x.item (k - 1)).toNat = x.toNat / 2 ^ (64 * (k - 1)) := by
  rw [toNat_item]
  apply Nat.mod_eq_of_lt
  apply Nat.div_lt_of_lt_mul
  rw [← pow_add, show 64 * (k - 1) + 64 = 64 * k by omega]
  exact x.toNat_lt

theorem half_le_top_iff (pos : 0 < k) : 2 ^ 63 ≤ (x.item (k - 1)).toNat ↔ 2 ^ (64 * k - 1) ≤ x.toNat := by
  rw [x.toNat_top pos, half_eq pos, Nat.le_div_iff_mul_le (by positivity), Nat.mul_comm]

theorem isNegative_eq (pos : 0 < k) (x : ObWideInteger k .signed) :
    x.isNegative = decide (2 ^ (64 * k - 1) ≤ x.toNat) := by
  simp only [isNegative, beq_self_eq_true, Bool.true_and, and_signBitMask]
  exact decide_eq_decide.mpr (x.half_le_top_iff pos)

theorem toInt_unsigned (x : ObWideInteger k .unsigned) : x.toInt = x.toNat := rfl

theorem toInt_of_not_isNegative {x : ObWideInteger k s} (sign : x.isNegative = false) : x.toInt = x.toNat := by
  simp only [toInt, sign, Bool.false_eq_true, if_false]

theorem toInt_of_isNegative {x : ObWideInteger k s} (sign : x.isNegative = true) :
    x.toInt = (x.toNat : ℤ) - 2 ^ (64 * k) := by
  simp only [toInt, sign, if_true]

theorem isNegative_iff_toInt_neg : x.isNegative = true ↔ x.toInt < 0 := by
  have bound := x.toNat_lt
  have bound' : (x.toNat : ℤ) < 2 ^ (64 * k) := by exact_mod_cast bound
  cases sign : x.isNegative with
  | false => simp only [toInt_of_not_isNegative sign, Bool.false_eq_true, false_iff]; omega
  | true => simp only [toInt_of_isNegative sign, true_iff]; omega

theorem toInt_emod : x.toInt % 2 ^ (64 * k) = x.toNat := by
  have bound : (x.toNat : ℤ) < 2 ^ (64 * k) := by exact_mod_cast x.toNat_lt
  have inside : (x.toNat : ℤ) % 2 ^ (64 * k) = x.toNat := emod_eq_of_lt (by omega) bound
  cases sign : x.isNegative with
  | false => rw [toInt_of_not_isNegative sign, inside]
  | true => rw [toInt_of_isNegative sign, sub_emod_right, inside]

def FitsSigned (bits : ℕ) (z : ℤ) : Prop := -2 ^ (bits - 1) ≤ z ∧ z < 2 ^ (bits - 1)

instance (bits : ℕ) (z : ℤ) : Decidable (FitsSigned bits z) := by
  unfold FitsSigned
  infer_instance

theorem fitsSigned_iff {bits : ℕ} {z : ℤ} :
    FitsSigned bits z ↔ -((2 ^ (bits - 1) : ℕ) : ℤ) ≤ z ∧ z < ((2 ^ (bits - 1) : ℕ) : ℤ) := by
  rw [FitsSigned]
  push_cast
  rfl

theorem FitsSigned.mono {bits bits' : ℕ} {z : ℤ} (inside : FitsSigned bits z) (le : bits ≤ bits') :
    FitsSigned bits' z := by
  have grows : (2 ^ (bits - 1) : ℤ) ≤ 2 ^ (bits' - 1) := pow_le_pow_right₀ (by decide) (by omega)
  rw [FitsSigned] at inside ⊢
  omega

theorem FitsSigned.natAbs_le {bits : ℕ} {z : ℤ} (inside : FitsSigned bits z) : z.natAbs ≤ 2 ^ (bits - 1) := by
  rw [fitsSigned_iff] at inside
  omega

theorem toInt_fits (pos : 0 < k) (x : ObWideInteger k .signed) : FitsSigned (64 * k) x.toInt := by
  have halves : (2 * 2 ^ (64 * k - 1) : ℤ) = 2 ^ (64 * k) := by exact_mod_cast two_mul_half pos
  have bound : (x.toNat : ℤ) < 2 ^ (64 * k) := by exact_mod_cast x.toNat_lt
  have decided := isNegative_eq pos x
  cases sign : x.isNegative with
  | false =>
    rw [sign, eq_comm, decide_eq_false_iff_not, not_le] at decided
    have below : (x.toNat : ℤ) < 2 ^ (64 * k - 1) := by exact_mod_cast decided
    rw [FitsSigned, toInt_of_not_isNegative sign]
    omega
  | true =>
    rw [sign, eq_comm, decide_eq_true_eq] at decided
    have above : 2 ^ (64 * k - 1) ≤ (x.toNat : ℤ) := by exact_mod_cast decided
    rw [FitsSigned, toInt_of_isNegative sign]
    omega

theorem eq_of_emod_eq (pos : 0 < k) {y z : ℤ} (hy : FitsSigned (64 * k) y)
    (hz : FitsSigned (64 * k) z) (same : y % 2 ^ (64 * k) = z % 2 ^ (64 * k)) : y = z := by
  have halves : (2 * 2 ^ (64 * k - 1) : ℤ) = 2 ^ (64 * k) := by exact_mod_cast two_mul_half pos
  obtain ⟨low, high⟩ := hy
  obtain ⟨low', high'⟩ := hz
  have divides : (2 ^ (64 * k) : ℤ) ∣ y - z := ModEq.dvd same.symm
  apply Int.sub_eq_zero.mp
  apply eq_zero_of_abs_lt_dvd divides
  rw [abs_lt]
  constructor <;> omega

theorem toInt_eq_of_emod (pos : 0 < k) {x : ObWideInteger k .signed} {z : ℤ}
    (fits : FitsSigned (64 * k) z) (stored : (x.toNat : ℤ) = z % 2 ^ (64 * k)) : x.toInt = z := by
  apply eq_of_emod_eq pos (toInt_fits pos x) fits
  rw [toInt_emod, stored]

/-- `operator=` between wide integers: the common words, then the sign of the source. -/
def assign (k2 : ℕ) (s2 : Signedness) (x : ObWideInteger k s) : ObWideInteger k2 s2 where
  items := x.items.take k2 ++ List.replicate (k2 - k) (if x.isNegative then baseMax else 0)
  size := by
    simp only [List.length_append, List.length_take, List.length_replicate, x.size]
    omega

theorem toNat_assign_of_le (narrower : k2 ≤ k) (x : ObWideInteger k s) :
    (x.assign k2 s2).toNat = x.toNat % 2 ^ (64 * k2) := by
  simp only [toNat, assign, Nat.sub_eq_zero_of_le narrower, List.replicate_zero, List.append_nil, value_take]

@[simp] theorem toNat_assign_same : (x.assign k s2).toNat = x.toNat := by
  rw [toNat_assign_of_le le_rfl, Nat.mod_eq_of_lt x.toNat_lt]

@[simp] theorem assign_self : x.assign k s = x := ext_toNat (toNat_assign_same x)

theorem toNat_assign_of_ge (wider : k ≤ k2) (x : ObWideInteger k s) :
    ((x.assign k2 s2).toNat : ℤ) = if x.isNegative then x.toInt + 2 ^ (64 * k2) else x.toInt := by
  have whole : x.items.take k2 = x.items := List.take_of_length_le (by rw [x.size]; exact wider)
  have joined : (x.assign k2 s2).toNat = x.toNat + 2 ^ (64 * k) *
      value (List.replicate (k2 - k) (if x.isNegative then baseMax else 0)) := by
    simp only [toNat, assign, whole, value_append, x.size]
  cases sign : x.isNegative with
  | false =>
    rw [joined, sign, toInt_of_not_isNegative sign]
    simp
  | true =>
    have filled : (value (List.replicate (k2 - k) baseMax) : ℤ) + 1 = 2 ^ (64 * (k2 - k)) := by
      exact_mod_cast value_replicate_max (k2 - k)
    have powers : (2 ^ (64 * k2) : ℤ) = 2 ^ (64 * k) * 2 ^ (64 * (k2 - k)) := by
      rw [← pow_add, ← Nat.mul_add, Nat.add_sub_cancel' wider]
    rw [joined, sign, toInt_of_isNegative sign, powers, ← filled]
    simp only [if_true]
    push_cast
    ring

/-- An assignment stores the source's integer modulo the width of the target. -/
theorem toNat_assign_emod : ((x.assign k2 s2).toNat : ℤ) = x.toInt % 2 ^ (64 * k2) := by
  rcases Nat.le_total k2 k with narrower | wider
  · have divides : (2 ^ (64 * k2) : ℤ) ∣ 2 ^ (64 * k) := pow_dvd_pow 2 (by omega)
    rw [toNat_assign_of_le narrower, natCast_emod, ← toInt_emod]
    push_cast
    exact emod_emod_of_dvd _ divides
  have bound : ((x.assign k2 s2).toNat : ℤ) < 2 ^ (64 * k2) := by
    exact_mod_cast (x.assign k2 s2).toNat_lt
  have inside := emod_eq_of_lt (by omega) bound
  rw [← inside, toNat_assign_of_ge wider]
  split
  · exact add_emod_right _ _
  · rfl

theorem toInt_assign_signed (pos : 0 < k) (wider : k ≤ k2) (x : ObWideInteger k .signed) :
    (x.assign k2 .signed).toInt = x.toInt := by
  apply toInt_eq_of_emod (by omega) _ (toNat_assign_emod x)
  exact (toInt_fits pos x).mono (by omega)

def dw : DwType := BitVec.ofNat 128 (value (x.items.take 2))

theorem toNat_dw (x : ObWideInteger 2 s) : x.dw.toNat = x.toNat := by
  have bound := x.toNat_lt
  rw [dw, List.take_of_length_le x.size.le, BitVec.toNat_ofNat]
  exact Nat.mod_eq_of_lt bound

def ofDw (d : DwType) : ObWideInteger 2 s := ⟨[lowWord d, lowWord (d >>> 64)], rfl⟩

@[simp] theorem toNat_ofDw (d : DwType) : (ofDw d : ObWideInteger 2 s).toNat = d.toNat := by
  simp only [ofDw, toNat, value_cons, value_nil, toNat_lowWord, BitVec.toNat_ushiftRight, Nat.shiftRight_eq_div_pow]
  omega

end ObWideInteger

namespace Native

variable {s : Signedness}

section

variable (x : Native s)

def toWide : ObWideInteger 1 s := ⟨[x.word], rfl⟩

def isNegative : Bool := x.toWide.isNegative

def toInt : ℤ := x.toWide.toInt

/-- `-x` of the language (at the minimum of a signed type the bits stay as they are). -/
def neg : Native s := ⟨-x.word⟩

def makePositive : Native s := if x.isNegative then x.neg else x

def toDw : DwType :=
  if x.isNegative then x.word.toBitVec.signExtend 128 else dword x.word

theorem toWide_toNat : x.toWide.toNat = x.word.toNat := by
  simp [toWide, ObWideInteger.toNat]

end

variable {x : Native s}

theorem toInt_of_not_isNegative (sign : x.isNegative = false) : x.toInt = x.word.toNat := by
  rw [toInt, ObWideInteger.toInt_of_not_isNegative sign, toWide_toNat]

theorem toInt_of_isNegative (sign : x.isNegative = true) : x.toInt = (x.word.toNat : ℤ) - 2 ^ 64 := by
  rw [toInt, ObWideInteger.toInt_of_isNegative sign, toWide_toNat]

theorem isNegative_iff_toInt_neg (x : Native s) : x.isNegative = true ↔ x.toInt < 0 := x.toWide.isNegative_iff_toInt_neg

theorem word_ne_zero_of_isNegative (sign : x.isNegative = true) : x.word.toNat ≠ 0 := by
  cases s with
  | unsigned => cases sign
  | signed =>
    rw [isNegative, ObWideInteger.isNegative_eq (by decide), decide_eq_true_eq, toWide_toNat] at sign
    omega

theorem toNat_neg_word (sign : x.isNegative = true) : (x.neg.word.toNat : ℤ) = -x.toInt := by
  have bound := word_lt x.word
  have nonzero := word_ne_zero_of_isNegative sign
  rw [toInt_of_isNegative sign, neg, toNat_neg, show UInt64.size = 2 ^ 64 from rfl]
  omega

theorem toNat_makePositive_word (x : Native s) : x.makePositive.word.toNat = x.toInt.natAbs := by
  cases sign : x.isNegative with
  | false =>
    rw [makePositive, sign, toInt_of_not_isNegative sign]
    rfl
  | true =>
    have magnitude := toNat_neg_word sign
    rw [makePositive, sign]
    simp only [if_true]
    omega

theorem isNegative_makePositive (minimum : x.toInt ≠ -2 ^ 63) : x.makePositive.isNegative = false := by
  cases s with
  | unsigned => rfl
  | signed =>
    have bounds := ObWideInteger.toInt_fits (by decide) x.toWide
    have magnitude := toNat_makePositive_word x
    rw [isNegative, ObWideInteger.isNegative_eq (by decide), decide_eq_false_iff_not, toWide_toNat]
    simp only [ObWideInteger.FitsSigned] at bounds
    change -2 ^ 63 ≤ x.toInt ∧ x.toInt < 2 ^ 63 at bounds
    omega

theorem toNat_makePositive_toDw (minimum : x.toInt ≠ -2 ^ 63) : x.makePositive.toDw.toNat = x.toInt.natAbs := by
  rw [toDw, isNegative_makePositive minimum, if_neg Bool.false_ne_true, toNat_dword, toNat_makePositive_word]

end Native

section Compare

variable {k k2 : ℕ} {s s2 : Signedness}

def cmpItems : List UInt64 → List UInt64 → ℤ
  | a :: as, b :: bs => if a > b then 1 else if a < b then -1 else cmpItems as bs
  | _, _ => 0

theorem cmpItems_eq_sign (as bs : List UInt64) (length : as.length = bs.length) :
    cmpItems as bs = Int.sign ((value as.reverse : ℤ) - value bs.reverse) := by
  induction as generalizing bs with
  | nil =>
    cases bs with
    | nil => rfl
    | cons b bs => exact absurd length (by simp)
  | cons a as ih =>
    cases bs with
    | nil => exact absurd length (by simp)
    | cons b bs =>
      have same : as.length = bs.length := by simpa using length
      have low : (value as.reverse : ℤ) < 2 ^ (64 * as.length) := by
        simpa using (ofNat_lt.mpr (value_lt as.reverse))
      have low' : (value bs.reverse : ℤ) < 2 ^ (64 * as.length) := by
        simpa [same] using (ofNat_lt.mpr (value_lt bs.reverse))
      rw [value_reverse_cons, value_reverse_cons, ← same]
      push_cast
      generalize (2 ^ (64 * as.length) : ℤ) = weight at low low' ⊢
      rw [cmpItems]
      split
      next greater =>
        have more : (b.toNat : ℤ) + 1 ≤ a.toNat := by
          exact_mod_cast lt_iff_toNat_lt.mp greater
        rw [eq_comm, sign_eq_one_iff_pos]
        nlinarith
      next notGreater =>
        split
        next less =>
          have more : (a.toNat : ℤ) + 1 ≤ b.toNat := by
            exact_mod_cast lt_iff_toNat_lt.mp less
          rw [eq_comm, sign_eq_neg_one_iff_neg]
          nlinarith
        next notLess =>
          grind

variable (lhs : ObWideInteger k s)

def cmpSame (rhs : ObWideInteger k s2) : ℤ :=
  if lhs.isNegative != rhs.isNegative then
    if lhs.isNegative then -1 else 1
  else cmpItems lhs.items.reverse rhs.items.reverse

/-- `_impl::cmp`; different widths meet in the wider type (`CommonType`). -/
def cmp (rhs : ObWideInteger k2 s2) : ℤ :=
  if lhs.isNegative != rhs.isNegative then
    if lhs.isNegative then -1 else 1
  else if k = k2 then cmpItems lhs.items.reverse rhs.items.reverse
  else if k < k2 then cmpSame (lhs.assign k2 s2) (rhs.assign k2 s2)
  else cmpSame (lhs.assign k s) (rhs.assign k s)

def cmpNative (rhs : Native s2) : ℤ :=
  if lhs.isNegative != rhs.isNegative then
    if lhs.isNegative then -1 else 1
  else cmp lhs (rhs.toWide.assign k s)

theorem sign_sub_of_isNegative_ne {lhs : ObWideInteger k s} {rhs : ObWideInteger k2 s2}
    (differ : lhs.isNegative ≠ rhs.isNegative) :
    Int.sign (lhs.toInt - rhs.toInt) = if lhs.isNegative then -1 else 1 := by
  have left := lhs.isNegative_iff_toInt_neg
  have right := rhs.isNegative_iff_toInt_neg
  cases sign : lhs.isNegative with
  | false =>
    grind
  | true =>
    grind

theorem cmpItems_toInt {lhs : ObWideInteger k s} {rhs : ObWideInteger k s2} (agree : lhs.isNegative = rhs.isNegative) :
    cmpItems lhs.items.reverse rhs.items.reverse = Int.sign (lhs.toInt - rhs.toInt) := by
  rw [cmpItems_eq_sign _ _ (by simp [lhs.size, rhs.size]), List.reverse_reverse, List.reverse_reverse]
  change Int.sign ((lhs.toNat : ℤ) - rhs.toNat) = _
  cases sign : lhs.isNegative with
  | false =>
    rw [ObWideInteger.toInt_of_not_isNegative sign, ObWideInteger.toInt_of_not_isNegative (agree ▸ sign)]
  | true =>
    rw [ObWideInteger.toInt_of_isNegative sign, ObWideInteger.toInt_of_isNegative (agree ▸ sign)]
    congr 1
    ring

theorem cmpSame_eq_sign (rhs : ObWideInteger k s2) : cmpSame lhs rhs = Int.sign (lhs.toInt - rhs.toInt) := by
  unfold cmpSame
  by_cases agree : lhs.isNegative = rhs.isNegative
  · rw [if_neg (by simpa using agree), cmpItems_toInt agree]
  · rw [if_pos (by simpa using agree), sign_sub_of_isNegative_ne agree]

theorem toInt_assign_wider (pos : 0 < k) (wider : k < k2) (x : ObWideInteger k s)
    (representable : x.isNegative = true → s2 = .signed) : (x.assign k2 s2).toInt = x.toInt := by
  have stored : ((x.assign k2 s2).toNat : ℤ) =
      if x.isNegative then x.toInt + 2 ^ (64 * k2) else x.toInt :=
    ObWideInteger.toNat_assign_of_ge wider.le x
  have bound : (x.toNat : ℤ) < 2 ^ (64 * k) := by exact_mod_cast x.toNat_lt
  have grows : (2 ^ (64 * k) : ℤ) ≤ 2 ^ (64 * k2 - 1) := pow_le_pow_right₀ (by decide) (by omega)
  cases s2 with
  | unsigned =>
    have sign : x.isNegative = false := by
      grind
    rw [ObWideInteger.toInt_unsigned, stored, sign]
    rfl
  | signed =>
    apply ObWideInteger.toInt_eq_of_emod (by omega) _ (ObWideInteger.toNat_assign_emod x)
    rw [ObWideInteger.FitsSigned, ObWideInteger.toInt]
    split <;> omega

theorem signed_of_isNegative {x : ObWideInteger k s} (negative : x.isNegative = true) : s = .signed := by
  cases s with
  | signed => rfl
  | unsigned => exact absurd negative (by simp [ObWideInteger.isNegative_unsigned])

theorem cmp_eq_sign (pos : 0 < k) (positive2 : 0 < k2) (lhs : ObWideInteger k s)
    (rhs : ObWideInteger k2 s2) : cmp lhs rhs = Int.sign (lhs.toInt - rhs.toInt) := by
  unfold cmp
  by_cases agree : lhs.isNegative = rhs.isNegative
  · rw [if_neg (by simpa using agree)]
    by_cases same : k = k2
    · subst same
      rw [if_pos rfl, cmpItems_toInt agree]
    rw [if_neg same]
    by_cases less : k < k2
    · rw [if_pos less, cmpSame_eq_sign, toInt_assign_wider pos less lhs
        (fun negative => signed_of_isNegative (x := rhs) (agree ▸ negative)), ObWideInteger.assign_self]
    · rw [if_neg less, cmpSame_eq_sign, toInt_assign_wider positive2 (by omega) rhs
        (fun negative => signed_of_isNegative (x := lhs) (agree.symm ▸ negative)), ObWideInteger.assign_self]
  · rw [if_pos (by simpa using agree), sign_sub_of_isNegative_ne agree]

theorem cmpNative_eq_sign (wide : 1 < k) (lhs : ObWideInteger k s) (rhs : Native s2) :
    cmpNative lhs rhs = Int.sign (lhs.toInt - rhs.toInt) := by
  unfold cmpNative
  by_cases agree : lhs.isNegative = rhs.isNegative
  · have kept : (rhs.toWide.assign k s).toInt = rhs.toInt := by
      apply toInt_assign_wider (by decide) wide
      exact fun negative => signed_of_isNegative (x := lhs) (agree.trans negative)
    rw [if_neg (by simpa using agree), cmp_eq_sign (by omega) (by omega), kept]
  · rw [if_pos (by simpa using agree)]
    exact (sign_sub_of_isNegative_ne agree).symm

end Compare

end IMBridge.WideInteger
