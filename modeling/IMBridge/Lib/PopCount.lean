import Mathlib.Data.List.Basic
import Mathlib.Data.Nat.Bitwise

/-!
Counting the ones of a word by adding up neighbouring fields: pairs of bits, then nibbles, then
bytes, and the bytes by one multiplication.
-/

namespace IMBridge.Lib.PopCount

open List Nat
def ones (k v : Nat) : Nat := (range k).countP v.testBit

def repeated (byte : Nat) : Nat → Nat
  | 0 => 0
  | n + 1 => byte + 256 * repeated byte n

def pairs (n v : Nat) : Nat := v - ((v >>> 1) &&& repeated 0x55 n)

def nibbles (n v : Nat) : Nat := (v &&& repeated 0x33 n) + ((v >>> 2) &&& repeated 0x33 n)

def bytes (n v : Nat) : Nat := (v + (v >>> 4)) &&& repeated 0x0F n

def byteOnes : Nat → Nat → Nat
  | 0, _ => 0
  | n + 1, v => ones 8 (v % 256) + 256 * byteOnes n (v / 256)

theorem testBit_cons {byte : Nat} (small : byte < 256) (rest i : Nat) :
    (byte + 256 * rest).testBit i = if i < 8 then byte.testBit i else rest.testBit (i - 8) := by
  rw [Nat.add_comm]
  exact testBit_two_pow_mul_add rest (show byte < 2 ^ 8 from small) i

theorem and_cons {first second : Nat} (firstSmall : first < 256) (secondSmall : second < 256) (rest others : Nat) :
    (first + 256 * rest) &&& (second + 256 * others) = (first &&& second) + 256 * (rest &&& others) := by
  have small : first &&& second < 256 := Nat.lt_of_le_of_lt and_le_left firstSmall
  refine eq_of_testBit_eq fun i => ?_
  rw [testBit_and, testBit_cons firstSmall, testBit_cons secondSmall, testBit_cons small]
  split
  · rw [testBit_and]
  · rw [testBit_and]

section Rounds

variable {byte : Nat} (small : byte < 256) (n rest : Nat)

include small

theorem pairs_cons : pairs (n + 1) (byte + 256 * rest) = pairs 1 byte + 256 * pairs n rest := by
  have shifted : (byte + 256 * rest) >>> 1 = (byte / 2 + 128 * (rest % 2)) + 256 * (rest >>> 1) := by
    simp only [shiftRight_eq_div_pow]
    omega
  -- The bit that comes in from the next byte is masked out.
  have masked : ∀ byte < 256, ∀ bit < 2, (byte / 2 + 128 * bit) &&& 0x55 = (byte >>> 1) &&& 0x55 := by
    decide +kernel
  have low := masked byte small (rest % 2) (mod_lt _ (by decide))
  have less : (rest >>> 1) &&& repeated 0x55 n ≤ rest := by
    refine Nat.le_trans and_le_left ?_
    rw [shiftRight_eq_div_pow]
    exact Nat.div_le_self ..
  have fits : (byte >>> 1) &&& 0x55 ≤ byte := by
    refine Nat.le_trans and_le_left ?_
    rw [shiftRight_eq_div_pow]
    exact Nat.div_le_self ..
  have one : pairs 1 byte = byte - ((byte >>> 1) &&& 0x55) := rfl
  rw [one, pairs, pairs, repeated, shifted, and_cons (by omega) (by decide), low]
  omega

theorem nibbles_cons : nibbles (n + 1) (byte + 256 * rest) = nibbles 1 byte + 256 * nibbles n rest := by
  have shifted : (byte + 256 * rest) >>> 2 = (byte / 4 + 64 * (rest % 4)) + 256 * (rest >>> 2) := by
    simp only [shiftRight_eq_div_pow]
    omega
  have masked : ∀ byte < 256, ∀ bits < 4, (byte / 4 + 64 * bits) &&& 0x33 = (byte >>> 2) &&& 0x33 := by
    decide +kernel
  have low := masked byte small (rest % 4) (mod_lt _ (by decide))
  have one : nibbles 1 byte = (byte &&& 0x33) + ((byte >>> 2) &&& 0x33) := rfl
  rw [one, nibbles, nibbles, repeated, shifted, and_cons small (by decide), and_cons (by omega) (by decide), low]
  omega

omit small in
/-- Nibbles that are at most 4 can be added without a carry. -/
theorem bytes_cons (high : byte / 16 ≤ 4) (low : byte % 16 ≤ 4) (next : rest % 16 ≤ 4) :
    bytes (n + 1) (byte + 256 * rest) = (byte % 16 + byte / 16) + 256 * bytes n rest := by
  have sum : (byte + 256 * rest) + (byte + 256 * rest) >>> 4 =
      (byte + byte / 16 + 16 * (rest % 16)) + 256 * (rest + rest >>> 4) := by
    simp only [shiftRight_eq_div_pow]
    omega
  have masked : (byte + byte / 16 + 16 * (rest % 16)) &&& 0x0F = byte % 16 + byte / 16 := by
    rw [show 0x0F = 2 ^ 4 - 1 from rfl, and_two_pow_sub_one_eq_mod]
    omega
  rw [bytes, bytes, repeated, sum, and_cons (by omega) (by decide), masked]

end Rounds

theorem round_byte : ∀ byte < 256, nibbles 1 (pairs 1 byte) / 16 ≤ 4 ∧
    nibbles 1 (pairs 1 byte) % 16 ≤ 4 ∧ pairs 1 byte < 256 ∧
    nibbles 1 (pairs 1 byte) % 16 + nibbles 1 (pairs 1 byte) / 16 = ones 8 byte := by
  decide +kernel

theorem rounds_cons {byte : Nat} (small : byte < 256) (n rest : Nat) :
    nibbles (n + 1) (pairs (n + 1) (byte + 256 * rest)) =
      nibbles 1 (pairs 1 byte) + 256 * nibbles n (pairs n rest) := by
  rw [pairs_cons small, nibbles_cons (round_byte byte small).2.2.1]

theorem rounds_mod_le (n v : Nat) : nibbles n (pairs n v) % 16 ≤ 4 := by
  cases n with
  | zero => simp [nibbles, repeated]
  | succ n =>
    have small : v % 256 < 256 := mod_lt v (by decide)
    have eq := rounds_cons small n (v / 256)
    have low := (round_byte _ small).2.1
    rw [mod_add_div] at eq
    rw [eq]
    omega

theorem bytes_rounds (n v : Nat) : bytes n (nibbles n (pairs n v)) = byteOnes n v := by
  induction n generalizing v with
  | zero => simp [bytes, repeated, byteOnes]
  | succ n ih =>
    have small : v % 256 < 256 := mod_lt v (by decide)
    obtain ⟨high, low, -, count⟩ := round_byte _ small
    have eq := rounds_cons small n (v / 256)
    rw [mod_add_div] at eq
    rw [eq, bytes_cons _ _ high low (rounds_mod_le n _), ih, count, byteOnes]

theorem ones_le (k v : Nat) : ones k v ≤ k := by
  have counted := countP_le_length (p := v.testBit) (l := range k)
  rwa [length_range] at counted

theorem ones_cons (k v : Nat) : ones (8 + k) v = ones 8 (v % 256) + ones k (v / 256) := by
  have small : v % 256 < 256 := mod_lt v (by decide)
  have bit := testBit_cons small (v / 256)
  rw [mod_add_div] at bit
  rw [ones, ones, ones, range_add, countP_append, countP_map]
  congr 1
  · refine countP_congr fun i member => ?_
    rw [bit, if_pos (mem_range.mp member)]
  · refine countP_congr fun i _ => ?_
    rw [Function.comp_apply, bit, if_neg (by omega), Nat.add_sub_cancel_left]

/-- The top byte of the product of eight small bytes with ones everywhere is their sum. -/
theorem top_byte {a b c d e f g h : Nat} (ha : a ≤ 8) (hb : b ≤ 8) (hc : c ≤ 8) (hd : d ≤ 8)
    (he : e ≤ 8) (hf : f ≤ 8) (hg : g ≤ 8) (hh : h ≤ 8) :
    (a + 256 * (b + 256 * (c + 256 * (d + 256 * (e + 256 * (f + 256 * (g + 256 * h))))))) *
      repeated 1 8 % 2 ^ 64 / 2 ^ 56 = a + b + c + d + e + f + g + h := by
  obtain ⟨low, lowEq⟩ : ∃ low, low = a + 256 * (a + b) + 256 ^ 2 * (a + b + c) +
      256 ^ 3 * (a + b + c + d) + 256 ^ 4 * (a + b + c + d + e) +
      256 ^ 5 * (a + b + c + d + e + f) + 256 ^ 6 * (a + b + c + d + e + f + g) := ⟨_, rfl⟩
  obtain ⟨high, highEq⟩ : ∃ high, high = (b + c + d + e + f + g + h) +
      256 * (c + d + e + f + g + h) + 256 ^ 2 * (d + e + f + g + h) + 256 ^ 3 * (e + f + g + h) +
      256 ^ 4 * (f + g + h) + 256 ^ 5 * (g + h) + 256 ^ 6 * h := ⟨_, rfl⟩
  have product : (a + 256 * (b + 256 * (c + 256 * (d + 256 * (e + 256 * (f + 256 * (g + 256 * h))))))) *
        repeated 1 8 = low + 2 ^ 56 * (a + b + c + d + e + f + g + h) + 2 ^ 64 * high := by
    rw [show repeated 1 8 = 72340172838076673 from rfl, lowEq, highEq]
    omega
  have small : low < 2 ^ 56 := by omega
  have few : a + b + c + d + e + f + g + h < 256 := by omega
  rw [product]
  clear lowEq highEq product
  generalize a + b + c + d + e + f + g + h = sum at few ⊢
  omega

theorem sum_bytes (v : Nat) : byteOnes 8 v * repeated 1 8 % 2 ^ 64 / 2 ^ 56 = ones 64 v := by
  have none (u : Nat) : ones 0 u = 0 := rfl
  have split : ones 64 v = ones (8 + (8 + (8 + (8 + (8 + (8 + (8 + (8 + 0)))))))) v := rfl
  have top := top_byte (ones_le 8 (v % 256)) (ones_le 8 (v / 256 % 256))
    (ones_le 8 (v / 256 / 256 % 256)) (ones_le 8 (v / 256 / 256 / 256 % 256))
    (ones_le 8 (v / 256 / 256 / 256 / 256 % 256))
    (ones_le 8 (v / 256 / 256 / 256 / 256 / 256 % 256))
    (ones_le 8 (v / 256 / 256 / 256 / 256 / 256 / 256 % 256))
    (ones_le 8 (v / 256 / 256 / 256 / 256 / 256 / 256 / 256 % 256))
  rw [split, ones_cons, ones_cons, ones_cons, ones_cons, ones_cons, ones_cons, ones_cons, ones_cons, none]
  simp only [byteOnes, Nat.mul_zero, Nat.add_zero]
  rw [top]
  omega

end IMBridge.Lib.PopCount
