import IMBridge.SortKey.Encoder
import Mathlib.Tactic.Positivity

/-!
Sort keys of scalars. Each type's key decides the comparison of two columns as the type's own
comparison does, except for timestamps with a nanosecond tail: the tail is lost.
-/

namespace IMBridge.SortKey

open Lib.ByteOrder BitVec Ordering

/-! The comparisons of the types. -/

def compareSigned {w : ℕ} (a b : BitVec w) : Ordering := compare a.toInt b.toInt

def compareUnsigned {w : ℕ} (a b : BitVec w) : Ordering := compare a.toNat b.toNat

/-- `uint32cmp_v2` on the common digits, then the shorter number first. -/
def compareDigits : List (BitVec 32) → List (BitVec 32) → Ordering
  | [], [] => .eq
  | [], _ :: _ => .lt
  | _ :: _, [] => .gt
  | a :: as, b :: bs => (compareUnsigned a b).then (compareDigits as bs)

def ObNumber.isNegative (x : ObNumber) : Bool := !x.se.msb

def ObNumber.compare (a b : ObNumber) : Ordering :=
  if a.se = b.se then
    if a.isNegative then (compareDigits a.digits b.digits).swap else compareDigits a.digits b.digits
  else compareUnsigned a.se b.se

def ObOTimestampData.compare (a b : ObOTimestampData) : Ordering :=
  (compareSigned a.timeUs b.timeUs).then (compareUnsigned a.tailNsec b.tailNsec)

def ObIntervalDSValue.compare (a b : ObIntervalDSValue) : Ordering :=
  (compareSigned a.nsecond b.nsecond).then (compareSigned a.fractionalSecond b.fractionalSecond)

/-! Words. -/

theorem xor_half {v p : ℕ} (power : ∃ m, p = 2 ^ m) (below : v < 2 * p) : v ^^^ p = if v < p then v + p else v - p := by
  obtain ⟨m, rfl⟩ := power
  have pos : 0 < 2 ^ m := by positivity
  have high : (v ^^^ 2 ^ m) / 2 ^ m = v / 2 ^ m ^^^ 1 := by
    rw [Nat.xor_div_two_pow, Nat.div_self pos]
  have low : (v ^^^ 2 ^ m) % 2 ^ m = v % 2 ^ m := by
    rw [Nat.xor_mod_two_pow, Nat.mod_self, Nat.xor_zero]
  have whole := Nat.div_add_mod (v ^^^ 2 ^ m) (2 ^ m)
  rw [high, low] at whole
  split
  next small =>
    rw [Nat.div_eq_of_lt small, Nat.mod_eq_of_lt small] at whole
    grind
  next large =>
    have one : v / 2 ^ m = 1 := Nat.div_eq_of_lt_le (by omega) (by omega)
    have rest := Nat.div_add_mod v (2 ^ m)
    grind

variable {w : ℕ} {a b : ObNumber} {digits as bs : List (BitVec 32)}

theorem toNat_flipSign (pos : 0 < w) (v : BitVec w) : ((v ^^^ intMin w).toNat : ℤ) = v.toInt + 2 ^ (w - 1) := by
  have halves : 2 * 2 ^ (w - 1) = 2 ^ w := by
    rw [← pow_succ', Nat.sub_add_cancel pos]
  have cast : (2 ^ (w - 1) : ℤ) = ((2 ^ (w - 1) : ℕ) : ℤ) := by push_cast; rfl
  rw [toNat_xor, toNat_intMin_of_pos pos, xor_half ⟨_, rfl⟩ (by omega), toInt_eq_toNat_cond, cast]
  split <;> split <;> omega

theorem compare_add_right_int (a b c : ℤ) : compare (a + c) (b + c) = compare a b := by
  simp only [compare, compareOfLessAndEq, Int.add_lt_add_iff_right, Int.add_left_inj]

theorem compare_natCast (a b : ℕ) : compare (a : ℤ) (b : ℤ) = compare a b := by
  simp only [compare, compareOfLessAndEq, Int.ofNat_lt, Int.ofNat_inj]

theorem pow_bytes (n : ℕ) : 256 ^ n = 2 ^ (8 * n) := by
  rw [pow_mul]
  rfl

theorem decides_copySwapped {n : ℕ} (a b : BitVec (8 * n)) :
    Decides (copySwapped n a) (copySwapped n b) (compareUnsigned a b) := by
  rw [copySwapped, copySwapped, littleEndian_swapBytes, littleEndian_swapBytes]
  apply decides_bigEndian
  · rw [pow_bytes]
    exact a.isLt
  · rw [pow_bytes]
    exact b.isLt

theorem compareUnsigned_flipSign (pos : 0 < w) (a b : BitVec w) :
    compareUnsigned (a ^^^ intMin w) (b ^^^ intMin w) = compareSigned a b := by
  rw [compareUnsigned, ← compare_natCast, toNat_flipSign pos, toNat_flipSign pos, compare_add_right_int]
  rfl

theorem decides_encodeSigned {n : ℕ} (pos : 0 < n) (a b : BitVec (8 * n)) :
    Decides (encodeSigned n a) (encodeSigned n b) (compareSigned a b) := by
  have decides := decides_copySwapped (a ^^^ intMin (8 * n)) (b ^^^ intMin (8 * n))
  rwa [compareUnsigned_flipSign (by omega)] at decides

theorem decides_byte_of_bits (a b : BitVec 8) :
    Decides [UInt8.ofBitVec a] [UInt8.ofBitVec b] (compareUnsigned a b) := by
  have decides := Decides.byte (UInt8.ofBitVec a) (UInt8.ofBitVec b)
  rwa [compare_byte] at decides

theorem decides_encodeFromInt8 (a b : BitVec 8) :
    Decides (encodeFromInt8 a) (encodeFromInt8 b) (compareSigned a b) := by
  have decides := decides_byte_of_bits (a ^^^ intMin 8) (b ^^^ intMin 8)
  rwa [compareUnsigned_flipSign (by decide)] at decides

/-! Numbers. -/

variable (neg : Bool)

def directed (o : Ordering) : Ordering := if neg then o.swap else o

theorem directed_then (o o' : Ordering) : directed neg (o.then o') = (directed neg o).then (directed neg o') := by
  cases neg with
  | false => rfl
  | true => exact swap_then o o'

def maskOf : BitVec 32 := if neg then allOnes 32 else 0#32

variable (x : ObNumber)

theorem digitsMask_eq : digitsMask x.se = maskOf x.isNegative := by
  rw [ObNumber.isNegative]
  generalize x.se = se
  revert se
  decide +kernel

theorem compareUnsigned_masked (a b : BitVec w) :
    compareUnsigned (a ^^^ allOnes w) (b ^^^ allOnes w) = (compareUnsigned a b).swap := by
  rw [xor_allOnes, xor_allOnes, compareUnsigned, compareUnsigned, toNat_not, toNat_not, Nat.compare_swap]
  rcases Nat.lt_trichotomy a.toNat b.toNat with less | same | greater
  · rw [Nat.compare_eq_gt.mpr (by omega), Nat.compare_eq_gt.mpr (by omega)]
  · grind
  · rw [Nat.compare_eq_lt.mpr (by omega), Nat.compare_eq_lt.mpr (by omega)]

theorem compareUnsigned_mask (a b : BitVec 32) :
    compareUnsigned (a ^^^ maskOf neg) (b ^^^ maskOf neg) = directed neg (compareUnsigned a b) := by
  cases neg with
  | false => rw [maskOf, if_neg Bool.false_ne_true, xor_zero, xor_zero]; rfl
  | true => exact compareUnsigned_masked a b

def digitsKey (digits : List (BitVec 32)) : Bytes :=
  (digits.flatMap fun digit => copySwapped 4 ((digit + 1) ^^^ maskOf neg)) ++
    copySwapped 4 (0#32 ^^^ maskOf neg)

theorem digitsKey_cons (digit : BitVec 32) (digits : List (BitVec 32)) : digitsKey neg (digit :: digits) =
      copySwapped 4 ((digit + 1) ^^^ maskOf neg) ++ digitsKey neg digits := by
  rw [digitsKey, List.flatMap_cons, List.append_assoc]
  rfl

theorem terminator_eq : littleEndian 4 (maskOf neg).toNat = copySwapped 4 (0#32 ^^^ maskOf neg) := by
  cases neg <;> decide +kernel

def base : ℕ := 1000000000

theorem toNat_digit_add_one {digit : BitVec 32} (valid : digit.toNat < base) : (digit + 1).toNat = digit.toNat + 1 := by
  rw [base] at valid
  grind

theorem compareUnsigned_add_one {a b : BitVec 32} (left : a.toNat < base) (right : b.toNat < base) :
    compareUnsigned (a + 1) (b + 1) = compareUnsigned a b := by
  rw [compareUnsigned, toNat_digit_add_one left, toNat_digit_add_one right, Nat.add_comm _ 1,
    Nat.add_comm _ 1, compare_add_left]
  rfl

theorem decides_digitsKey (left : ∀ digit ∈ as, digit.toNat < base) (right : ∀ digit ∈ bs, digit.toNat < base) :
    Decides (digitsKey neg as) (digitsKey neg bs) (directed neg (compareDigits as bs)) := by
  -- a terminator against a digit: zero against a number that is not
  have ends {b : BitVec 32} (valid : b.toNat < base) (x : Bytes) :
      Decides (digitsKey neg []) (copySwapped 4 ((b + 1) ^^^ maskOf neg) ++ x) (directed neg .lt) := by
    have first := decides_copySwapped (n := 4) (0#32 ^^^ maskOf neg) ((b + 1) ^^^ maskOf neg)
    have less : compareUnsigned 0#32 (b + 1) = .lt := by
      rw [compareUnsigned, toNat_digit_add_one valid, toNat_ofNat]
      exact Nat.compare_eq_lt.mpr (Nat.succ_pos _)
    rw [compareUnsigned_mask, less] at first
    have extended := first.extend (by cases neg <;> decide) [] x
    rwa [List.append_nil] at extended
  induction as generalizing bs with
  | nil =>
    cases bs with
    | nil =>
      cases neg
      · exact Decides.refl _
      · exact Decides.refl _
    | cons b bs =>
      rw [digitsKey_cons]
      exact ends (right b (by simp)) _
  | cons a as ih =>
    cases bs with
    | nil =>
      rw [digitsKey_cons]
      have swapped := (ends (left a (by simp)) (digitsKey neg as)).swap
      cases neg
      · exact swapped
      · exact swapped
    | cons b bs =>
      have first := decides_copySwapped (n := 4) ((a + 1) ^^^ maskOf neg) ((b + 1) ^^^ maskOf neg)
      rw [compareUnsigned_mask, compareUnsigned_add_one (left a (by simp)) (right b (by simp))] at first
      rw [digitsKey_cons, digitsKey_cons, compareDigits, directed_then]
      exact first.append (ih (fun digit mem => left digit (by simp [mem]))
        (fun digit mem => right digit (by simp [mem])))

theorem encodeFromNumber_eq {x : ObNumber} {maxBufLen toLen : ℕ} {key : Bytes}
    (written : encodeFromNumber x maxBufLen toLen = .ok key) :
    key = UInt8.ofBitVec x.se :: digitsKey x.isNegative x.digits := by
  unfold encodeFromNumber at written
  split at written
  · cases written
  cases written
  rw [digitsMask_eq, terminator_eq]
  rfl

theorem decides_encodeFromNumber {maxBufLen maxBufLen' toLen toLen' : ℕ} {ka kb : Bytes}
    (left : ∀ digit ∈ a.digits, digit.toNat < base) (right : ∀ digit ∈ b.digits, digit.toNat < base)
    (first : encodeFromNumber a maxBufLen toLen = .ok ka) (second : encodeFromNumber b maxBufLen' toLen' = .ok kb) :
    Decides ka kb (a.compare b) := by
  rw [encodeFromNumber_eq first, encodeFromNumber_eq second, ObNumber.compare]
  by_cases same : a.se = b.se
  · have sign : a.isNegative = b.isNegative := by rw [ObNumber.isNegative, same]; rfl
    rw [if_pos same, same, sign]
    exact (decides_digitsKey b.isNegative left right).cons _
  rw [if_neg same]
  have differ : compareUnsigned a.se b.se ≠ .eq := by
    rw [compareUnsigned, ne_eq, Nat.compare_eq_eq]
    exact fun equal => same (eq_of_toNat_eq equal)
  exact (decides_byte_of_bits a.se b.se).extend differ _ _

/-! Decimal integers. -/

theorem copySwapped_eq (n : ℕ) (v : BitVec (8 * n)) : copySwapped n v = bigEndian n v.toNat :=
  littleEndian_swapBytes n v.toNat

variable (decint : ObDecimalInt)

/-- The items of a wide integer from the top down are its bytes from the top down. -/
theorem items_eq (m : ℕ) : ((List.range m).reverse.flatMap fun i => copySwapped 8 (decint.item i)) =
      bigEndian (8 * m) decint.value.toNat := by
  induction m with
  | zero => rfl
  | succ m ih =>
    have item : copySwapped 8 (decint.item m) = bigEndian 8 (decint.value.toNat / 256 ^ (8 * m)) := by
      rw [copySwapped_eq, ObDecimalInt.item, extractLsb'_toNat, Nat.shiftRight_eq_div_pow,
        show 2 ^ 64 = 256 ^ 8 from rfl, bigEndian_mod, pow_bytes, ← Nat.mul_assoc]
    rw [List.range_succ, List.reverse_append, List.reverse_singleton, List.singleton_append,
      List.flatMap_cons, ih, item, ← bigEndian_add, Nat.mul_succ, Nat.add_comm 8]

theorem toNat_flipSign_split {m : ℕ} (width : decint.intBytes = 8 * (m + 1)) :
    (decint.value ^^^ intMin _).toNat / 256 ^ (8 * m) = (decint.item m ^^^ intMin 64).toNat ∧
      (decint.value ^^^ intMin _).toNat % 256 ^ (8 * m) = decint.value.toNat % 256 ^ (8 * m) := by
  have bits : 8 * decint.intBytes = 64 * m + 64 := by omega
  have below := decint.value.isLt
  have weight : 256 ^ (8 * m) = 2 ^ (64 * m) := by rw [pow_bytes, ← Nat.mul_assoc]
  have top : 2 ^ (8 * decint.intBytes - 1) = 2 ^ 63 * 2 ^ (64 * m) := by
    rw [← pow_add, bits]
    congr 1
    omega
  have item : (decint.item m).toNat = decint.value.toNat / 2 ^ (64 * m) := by
    rw [ObDecimalInt.item, extractLsb'_toNat, Nat.shiftRight_eq_div_pow]
    apply Nat.mod_eq_of_lt
    apply Nat.div_lt_of_lt_mul
    rwa [← pow_add, ← bits]
  rw [weight, toNat_xor, toNat_xor, toNat_intMin_of_pos (by omega),
    toNat_intMin_of_pos (by decide), item, Nat.xor_div_two_pow, Nat.xor_mod_two_pow, top]
  simp

theorem encodeFromWide_eq {m : ℕ} (width : decint.intBytes = 8 * (m + 1)) :
    encodeFromWide decint (m + 1) = encodeSigned decint.intBytes decint.value := by
  obtain ⟨high, low⟩ := toNat_flipSign_split decint width
  rw [encodeFromWide, Nat.add_sub_cancel, items_eq, encodeSigned, encodeSigned, copySwapped_eq, copySwapped_eq]
  generalize (decint.value ^^^ intMin _).toNat = flipped at high low ⊢
  calc
    _ = bigEndian 8 (flipped / 256 ^ (8 * m)) ++ bigEndian (8 * m) flipped := by
      rw [high, ← bigEndian_mod (8 * m), ← low, bigEndian_mod]
    _ = _ := by rw [← bigEndian_add, width, Nat.mul_succ, Nat.add_comm 8]

theorem encodeFromDecint_eq {decint : ObDecimalInt} {key : Bytes} (written : encodeFromDecint decint = .ok key) :
    key = encodeSigned decint.intBytes decint.value ∧ 0 < decint.intBytes := by
  obtain ⟨intBytes, value⟩ := decint
  unfold encodeFromDecint at written
  dsimp only at written
  split_ifs at written with four eight
  · subst four
    cases written
    exact ⟨by rw [encodeFromInt32, setWidth_eq], Nat.succ_pos _⟩
  · subst eight
    cases written
    exact ⟨by rw [encodeFromInt, setWidth_eq], Nat.succ_pos _⟩
  all_goals
    rename_i width
    cases written
    exact ⟨encodeFromWide_eq _ width, show 0 < intBytes by omega⟩

theorem decides_encodeFromDecint {a b : ObDecimalInt} (same : a.intBytes = b.intBytes)
    {ka kb : Bytes} (first : encodeFromDecint a = .ok ka) (second : encodeFromDecint b = .ok kb) :
    Decides ka kb (compare a.value.toInt b.value.toInt) := by
  obtain ⟨left, pos⟩ := encodeFromDecint_eq first
  obtain ⟨right, -⟩ := encodeFromDecint_eq second
  obtain ⟨bytes, value⟩ := a
  obtain ⟨bytes', value'⟩ := b
  cases same
  rw [left, right]
  exact decides_encodeSigned pos value value'

/-! Timestamps and intervals. -/

/-- The ten bits of the tail lie in the half that the assignment drops. -/
theorem tail_lost (tail : BitVec 10) : littleEndian 2 (swapBytes 4 tail.toNat % 2 ^ 16) = [0, 0] := by
  revert tail
  decide +kernel

theorem decides_encodeFromTimestamp (a b : ObOTimestampData) :
    Decides (encodeFromTimestamp a) (encodeFromTimestamp b) (compareSigned a.timeUs b.timeUs) := by
  have first := decides_encodeSigned (n := 8) (by decide) a.timeUs b.timeUs
  have both := first.append (Decides.refl [0, 0])
  rw [then_eq] at both
  rwa [encodeFromTimestamp, encodeFromTimestamp, tail_lost, tail_lost]

theorem decides_encodeFromIntervalDs (a b : ObIntervalDSValue) :
    Decides (encodeFromIntervalDs a) (encodeFromIntervalDs b) (a.compare b) :=
  (decides_encodeSigned (n := 8) (by decide) a.nsecond b.nsecond).append
    (decides_encodeSigned (n := 4) (by decide) a.fractionalSecond b.fractionalSecond)

/-! The values that are compared. -/

/-- `normalize_`: digits below the base, none of them zero at either end, and one zero only. -/
structure ObNumber.Normalised (x : ObNumber) : Prop where
  valid : ∀ digit ∈ x.digits, digit.toNat < base
  zero : x.digits = [] → x.se = 0x80
  first : ∀ digit ∈ x.digits.head?, digit.toNat ≠ 0
  last : ∀ digit ∈ x.digits.getLast?, digit.toNat ≠ 0

/-- `validate`: less than a second beside the whole seconds, and not of the other sign. -/
structure ObIntervalDSValue.Valid (x : ObIntervalDSValue) : Prop where
  fraction : x.fractionalSecond.toInt.natAbs < base
  signs : (0 ≤ x.nsecond.toInt ∧ 0 ≤ x.fractionalSecond.toInt) ∨
    (x.nsecond.toInt ≤ 0 ∧ x.fractionalSecond.toInt ≤ 0)

end IMBridge.SortKey
