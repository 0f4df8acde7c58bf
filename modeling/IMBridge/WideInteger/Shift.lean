import IMBridge.WideInteger.Multiply

/-!
The shifts and the leading-zero count of `ObWideInteger::_impl`, which normalise the operands of a
long division.
-/

namespace IMBridge.WideInteger

open Lib.Limbs ObWideInteger UInt64 List Nat

variable {k : ℕ} {s : Signedness}

namespace Impl

def clzll (x : UInt64) : ℕ := 63 - x.toNat.log2

def nlzFrom : List UInt64 → ℕ
  | [] => 0
  | x :: xs => if x ≠ 0 then clzll x else 64 + nlzFrom xs

def nlz (x : ObWideInteger k s) : ℕ := nlzFrom x.items.reverse

def shlWords (bits : ℕ) : List UInt64 → List UInt64
  | [] => []
  | [x] => [x <<< ofNat bits]
  | x :: y :: rest =>
    (x <<< ofNat bits ||| y >>> ofNat (64 - bits)) :: shlWords bits (y :: rest)

def shrWords (bits : ℕ) : List UInt64 → List UInt64
  | [] => []
  | [x] => [x >>> ofNat bits]
  | x :: y :: rest =>
    (x >>> ofNat bits ||| y <<< ofNat (64 - bits)) :: shrWords bits (y :: rest)

theorem length_shlWords (bits : ℕ) (words : List UInt64) : (shlWords bits words).length = words.length := by
  fun_induction shlWords bits words with
  | case1 => rfl
  | case2 x => rfl
  | case3 x y rest ih => simpa using ih

theorem length_shrWords (bits : ℕ) (words : List UInt64) : (shrWords bits words).length = words.length := by
  fun_induction shrWords bits words with
  | case1 => rfl
  | case2 x => rfl
  | case3 x y rest ih => simpa using ih

def shiftLeft (self : ObWideInteger k s) (n : ℕ) : ObWideInteger k s :=
  if out : 64 * k ≤ n then .zero k s
  else
    let itemShift := n / 64
    let bitsShift := n % 64
    let kept := self.items.reverse.drop itemShift
    ⟨((if bitsShift ≠ 0 then shlWords bitsShift kept else kept) ++
        replicate itemShift 0).reverse, by
      have length : (if bitsShift ≠ 0 then shlWords bitsShift kept else kept).length =
          kept.length := by
        split
        next => exact length_shlWords _ _
        next => rfl
      rw [length_reverse, length_append, length, length_replicate, length_drop,
        length_reverse, self.size]
      simp only [itemShift]
      omega⟩

/-- The items above the shifted ones are the sign; a negative integer also gets the bits above its
highest kept item. -/
def shiftRight (self : ObWideInteger k s) (n : ℕ) : ObWideInteger k s :=
  if out : 64 * k ≤ n then
    ⟨replicate k (if self.isNegative then baseMax else 0), length_replicate⟩
  else
    let itemShift := n / 64
    let bitsShift := n % 64
    let kept := self.items.drop itemShift
    let shifted := if bitsShift ≠ 0 then shrWords bitsShift kept else kept
    let signed := if self.isNegative && bitsShift ≠ 0 then
      shifted.modify (k - 1 - itemShift) (· ||| baseMax <<< ofNat (64 - bitsShift))
      else shifted
    ⟨signed ++ replicate itemShift (if self.isNegative then baseMax else 0), by
      have length : signed.length = kept.length := by
        simp only [signed, shifted]
        split <;> split <;> simp [length_shrWords]
      rw [length_append, length, length_replicate, length_drop, self.size]
      simp only [itemShift]
      omega⟩

/-! Leading zeros. -/

theorem log2_top {low x weight : ℕ} (below : low < 2 ^ weight) (nonzero : x ≠ 0) :
    (low + 2 ^ weight * x).log2 = weight + x.log2 := by
  have lower := log2_self_le nonzero
  have upper : x + 1 ≤ 2 ^ (x.log2 + 1) := lt_log2_self
  have pos : 0 < 2 ^ weight := by positivity
  rw [log2_eq_iff (by have := Nat.mul_pos pos (Nat.pos_of_ne_zero nonzero); omega)]
  constructor
  · calc
      2 ^ (weight + x.log2) = 2 ^ weight * 2 ^ x.log2 := pow_add _ _ _
      _ ≤ 2 ^ weight * x := Nat.mul_le_mul_left _ lower
      _ ≤ _ := by omega
  · calc
      low + 2 ^ weight * x < 2 ^ weight * (x + 1) := by rw [Nat.mul_add]; omega
      _ ≤ 2 ^ weight * 2 ^ (x.log2 + 1) := Nat.mul_le_mul_left _ upper
      _ = 2 ^ (weight + x.log2 + 1) := by rw [← pow_add, Nat.add_assoc]

theorem nlzFrom_eq (words : List UInt64) (nonzero : value words.reverse ≠ 0) :
    nlzFrom words + (value words.reverse).log2 + 1 = 64 * words.length := by
  induction words with
  | nil => exact absurd rfl nonzero
  | cons x xs ih =>
    have low : value xs.reverse < 2 ^ (64 * xs.length) := by simpa using value_lt xs.reverse
    rw [nlzFrom]
    split
    next some =>
      have top : x.toNat ≠ 0 := fun zero => some (UInt64.toNat_inj.mp zero)
      have small : x.toNat.log2 < 64 := (log2_lt top).mpr (word_lt x)
      rw [value_reverse_cons, log2_top low top, clzll, length_cons]
      omega
    next none =>
      have zero : x = 0 := not_not.mp none
      have same : value (x :: xs).reverse = value xs.reverse := by
        rw [value_reverse_cons, zero, UInt64.toNat_zero, Nat.mul_zero, Nat.add_zero]
      grind

theorem nlz_eq {x : ObWideInteger k s} (nonzero : x.toNat ≠ 0) : nlz x + x.toNat.log2 + 1 = 64 * k := by
  have zeros := nlzFrom_eq x.items.reverse (by rwa [reverse_reverse])
  rwa [reverse_reverse, length_reverse, x.size] at zeros

theorem itemSize_eq {x : ObWideInteger k s} (nonzero : x.toNat ≠ 0) : itemSize x = x.toNat.log2 / 64 + 1 := by
  have below := toNat_lt_itemSize x
  have pos : 0 < itemSize x := by
    grind
  have above := itemSize_top pos
  have upper := (log2_lt nonzero).mpr below
  have lower := (le_log2 nonzero).mpr above
  omega

/-! The shifts as arithmetic. -/

theorem or_eq_add {high low c : ℕ} (below : low < 2 ^ c) : 2 ^ c * high ||| low = 2 ^ c * high + low :=
  (two_pow_add_eq_or_of_lt below high).symm

theorem toNat_shiftLeft_word (x : UInt64) {c : ℕ} (small : c < 64) :
    (x <<< ofNat c).toNat = 2 ^ c * (x.toNat % 2 ^ (64 - c)) := by
  have whole : 2 ^ 64 = 2 ^ c * 2 ^ (64 - c) := by rw [← pow_add, Nat.add_sub_cancel' small.le]
  have amount : c % 2 ^ 64 % 64 = c := by omega
  rw [UInt64.toNat_shiftLeft, toNat_ofNat', amount, shiftLeft_eq, Nat.mul_comm, whole, mul_mod_mul_left]

theorem toNat_shiftRight_word (x : UInt64) {c : ℕ} (small : c < 64) : (x >>> ofNat c).toNat = x.toNat / 2 ^ c := by
  have amount : c % 2 ^ 64 % 64 = c := by omega
  rw [UInt64.toNat_shiftRight, toNat_ofNat', amount, shiftRight_eq_div_pow]

theorem value_shlWords {c : ℕ} (pos : 0 < c) (small : c < 64) (words : List UInt64) :
    value (shlWords c words).reverse = value words.reverse * 2 ^ c % 2 ^ (64 * words.length) := by
  have whole : 2 ^ 64 = 2 ^ c * 2 ^ (64 - c) := by rw [← pow_add, Nat.add_sub_cancel' small.le]
  fun_induction shlWords c words with
  | case1 => simp
  | case2 x =>
    simp only [reverse_singleton, value_cons, value_nil, Nat.mul_zero, Nat.add_zero,
      length_singleton, Nat.mul_one, toNat_shiftLeft_word x small]
    rw [whole, Nat.mul_comm x.toNat, mul_mod_mul_left]
  | case3 x y rest ih =>
    have low : value rest.reverse < 2 ^ (64 * rest.length) := by
      simpa using value_lt rest.reverse
    have word : (x <<< ofNat c ||| y >>> ofNat (64 - c)).toNat =
        2 ^ c * (x.toNat % 2 ^ (64 - c)) + y.toNat / 2 ^ (64 - c) := by
      rw [UInt64.toNat_or, toNat_shiftLeft_word x small, toNat_shiftRight_word y (by omega)]
      apply or_eq_add
      apply Nat.div_lt_of_lt_mul
      rw [Nat.mul_comm, ← whole]
      exact word_lt y
    -- the bits pushed out of the lower items are the top bits of `y`
    have carry : value (y :: rest).reverse * 2 ^ c / 2 ^ (64 * (y :: rest).length) = y.toNat / 2 ^ (64 - c) := by
      have width : 2 ^ (64 * (y :: rest).length) = 2 ^ (64 * rest.length) * 2 ^ (64 - c) * 2 ^ c := by
        rw [length_cons, ← pow_add, ← pow_add]
        congr 1
        omega
      rw [width, Nat.mul_div_mul_right _ _ (by positivity), ← Nat.div_div_eq_div_mul,
        value_reverse_cons, add_mul_div_left _ _ (by positivity), div_eq_of_lt low,
        Nat.zero_add]
    have powers : 2 ^ (64 * (x :: y :: rest).length) = 2 ^ (64 * (y :: rest).length) * 2 ^ 64 := by
      rw [← pow_add, ← mul_succ]
      rfl
    have split := mod_add_div (value (y :: rest).reverse * 2 ^ c) (2 ^ (64 * (y :: rest).length))
    have reduce (d : ℕ) (bound : d < 2 ^ c) :
        (d + x.toNat * 2 ^ c) % 2 ^ 64 = 2 ^ c * (x.toNat % 2 ^ (64 - c)) + d := by
      rw [whole, Nat.mul_comm x.toNat, low_add_mul_mod bound, Nat.add_comm]
    have pushed : y.toNat / 2 ^ (64 - c) < 2 ^ c := by
      apply Nat.div_lt_of_lt_mul
      rw [Nat.mul_comm, ← whole]
      exact word_lt y
    have length := length_shlWords c (y :: rest)
    rw [value_reverse_cons, value_reverse_cons x, ih, word, length, powers, Nat.add_mul]
    rw [carry] at split
    have total : value (y :: rest).reverse * 2 ^ c + 2 ^ (64 * (y :: rest).length) * x.toNat * 2 ^ c =
        value (y :: rest).reverse * 2 ^ c % 2 ^ (64 * (y :: rest).length) +
          2 ^ (64 * (y :: rest).length) * (y.toNat / 2 ^ (64 - c) + x.toNat * 2 ^ c) := by
      rw [Nat.mul_add, ← Nat.add_assoc, split]
      ring
    rw [total, low_add_mul_mod (mod_lt _ (by positivity)), reduce _ pushed]

theorem value_shrWords {c : ℕ} (pos : 0 < c) (small : c < 64) (words : List UInt64) :
    value (shrWords c words) = value words / 2 ^ c := by
  have whole : 2 ^ 64 = 2 ^ c * 2 ^ (64 - c) := by rw [← pow_add, Nat.add_sub_cancel' small.le]
  fun_induction shrWords c words with
  | case1 => simp
  | case2 x => simp [toNat_shiftRight_word x small]
  | case3 x y rest ih =>
    have kept : x.toNat / 2 ^ c < 2 ^ (64 - c) := by
      apply Nat.div_lt_of_lt_mul
      rw [← whole]
      exact word_lt x
    have word : (x >>> ofNat c ||| y <<< ofNat (64 - c)).toNat =
        2 ^ (64 - c) * (y.toNat % 2 ^ c) + x.toNat / 2 ^ c := by
      rw [UInt64.toNat_or, Nat.or_comm, toNat_shiftLeft_word y (by omega),
        toNat_shiftRight_word x small, show 64 - (64 - c) = c by omega]
      exact or_eq_add kept
    -- the bits that enter from above are the low bits of the number above
    have entering : value (y :: rest) % 2 ^ c = y.toNat % 2 ^ c := by
      rw [value_cons, whole, Nat.mul_assoc, add_mul_mod_self_left]
    have split := mod_add_div (value (y :: rest)) (2 ^ c)
    rw [value_cons, ih, word, ← entering, value_cons x]
    calc
      _ = x.toNat / 2 ^ c + 2 ^ (64 - c) * (value (y :: rest) % 2 ^ c + 2 ^ c * (value (y :: rest) / 2 ^ c)) := by
        rw [whole]
        ring
      _ = (x.toNat + 2 ^ c * (2 ^ (64 - c) * value (y :: rest))) / 2 ^ c := by
        rw [split, add_mul_div_left _ _ (by positivity)]
      _ = _ := by rw [whole, Nat.mul_assoc]

theorem toNat_shiftLeft (x : ObWideInteger k s) (n : ℕ) : (shiftLeft x n).toNat = x.toNat * 2 ^ n % 2 ^ (64 * k) := by
  by_cases out : 64 * k ≤ n
  · have multiple : x.toNat * 2 ^ n = 2 ^ (64 * k) * (x.toNat * 2 ^ (n - 64 * k)) := by
      rw [Nat.mul_left_comm, ← pow_add, Nat.add_sub_cancel' out]
    rw [shiftLeft, dif_pos out, toNat_zero, multiple, mul_mod_right]
  have items : n / 64 ≤ k := by omega
  have length : (x.items.reverse.drop (n / 64)).length = k - n / 64 := by
    rw [length_drop, length_reverse, x.size]
  have kept : value (x.items.reverse.drop (n / 64)).reverse = x.toNat % 2 ^ (64 * (k - n / 64)) := by
    rw [reverse_drop, length_reverse, reverse_reverse, x.size, value_take]
    rfl
  have shifted : value (if n % 64 ≠ 0 then shlWords (n % 64) (x.items.reverse.drop (n / 64))
      else x.items.reverse.drop (n / 64)).reverse =
      x.toNat * 2 ^ (n % 64) % 2 ^ (64 * (k - n / 64)) := by
    split
    next some =>
      rw [value_shlWords (Nat.pos_of_ne_zero some) (mod_lt _ (by decide)), length, kept, mod_mul_mod]
    next none => rw [kept, not_not.mp none, pow_zero, Nat.mul_one]
  have powers : 2 ^ (64 * k) = 2 ^ (64 * (n / 64)) * 2 ^ (64 * (k - n / 64)) := by
    rw [← pow_add, ← Nat.mul_add, Nat.add_sub_cancel' items]
  have amount : 2 ^ n = 2 ^ (64 * (n / 64)) * 2 ^ (n % 64) := by
    rw [← pow_add, div_add_mod]
  rw [shiftLeft, dif_neg out, ObWideInteger.toNat]
  dsimp only
  rw [reverse_append, reverse_replicate, value_append, value_replicate_zero,
    length_replicate, shifted, Nat.zero_add, powers, amount, Nat.mul_left_comm,
    mul_mod_mul_left]

theorem toNat_shiftRight (x : ObWideInteger k .unsigned) (n : ℕ) : (shiftRight x n).toNat = x.toNat / 2 ^ n := by
  by_cases out : 64 * k ≤ n
  · have small : x.toNat < 2 ^ n := x.toNat_lt.trans_le (Nat.pow_le_pow_right (by decide) out)
    rw [shiftRight, dif_pos out, div_eq_of_lt small]
    exact value_replicate_zero k
  have amount : 2 ^ n = 2 ^ (64 * (n / 64)) * 2 ^ (n % 64) := by
    rw [← pow_add, div_add_mod]
  have shifted : value (if n % 64 ≠ 0 then shrWords (n % 64) (x.items.drop (n / 64))
      else x.items.drop (n / 64)) = x.toNat / 2 ^ n := by
    have kept : value (x.items.drop (n / 64)) = x.toNat / 2 ^ (64 * (n / 64)) := value_drop _ _
    split
    next some =>
      rw [value_shrWords (Nat.pos_of_ne_zero some) (mod_lt _ (by decide)), kept, Nat.div_div_eq_div_mul, ← amount]
    next none =>
      grind
  rw [shiftRight, dif_neg out, ObWideInteger.toNat]
  simp only [isNegative_unsigned, Bool.false_and, Bool.false_eq_true, if_false]
  rw [value_append, value_replicate_zero, Nat.mul_zero, Nat.add_zero, shifted]

end Impl

end IMBridge.WideInteger
