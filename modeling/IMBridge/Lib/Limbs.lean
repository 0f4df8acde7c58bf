import Mathlib.Data.Nat.Digits.Lemmas

/-!
Numbers as lists of 64-bit words, least significant word first. `chain` is a loop over words that
hands on a carry, and `chain_balance` turns what one round conserves into what the loop conserves.
-/

namespace IMBridge.Lib.Limbs

open Nat List
variable (words : List UInt64)

def value : ℕ := ofDigits (2 ^ 64) (words.map UInt64.toNat)

@[simp] theorem value_nil : value [] = 0 := rfl

@[simp] theorem value_cons (word : UInt64) (words : List UInt64) :
    value (word :: words) = word.toNat + 2 ^ 64 * value words := by
  simp only [value, map_cons, ofDigits_cons]

theorem word_lt (word : UInt64) : word.toNat < 2 ^ 64 := UInt64.toNat_lt word

theorem digits_lt : ∀ d ∈ words.map UInt64.toNat, d < 2 ^ 64 := by
  intro d hd
  obtain ⟨word, -, rfl⟩ := mem_map.mp hd
  exact word_lt word

theorem value_append (low high : List UInt64) :
    value (low ++ high) = value low + 2 ^ (64 * low.length) * value high := by
  simp only [value, map_append, ofDigits_append, length_map, pow_mul]

theorem value_lt : value words < 2 ^ (64 * words.length) := by
  have bound := ofDigits_lt_base_pow_length (by decide) (digits_lt words)
  simpa only [value, length_map, pow_mul] using bound

theorem value_take (n : ℕ) : value (words.take n) = value words % 2 ^ (64 * n) := by
  simp only [value, map_take, pow_mul]
  exact (ofDigits_mod_pow_eq_ofDigits_take n (by decide) _ (digits_lt words)).symm

theorem value_drop (n : ℕ) : value (words.drop n) = value words / 2 ^ (64 * n) := by
  simp only [value, map_drop, pow_mul]
  exact (ofDigits_div_pow_eq_ofDigits_drop n (by decide) _ (digits_lt words)).symm

@[simp] theorem value_replicate_zero (n : ℕ) : value (replicate n 0) = 0 := by
  simp [value, ofDigits_replicate_zero]

theorem getD_toNat (i : ℕ) : (words.getD i 0).toNat = value words / 2 ^ (64 * i) % 2 ^ 64 := by
  rw [← value_drop, getD_eq_getElem?_getD, ← head?_drop]
  cases words.drop i with
  | nil => simp
  | cons word rest =>
    simp

theorem value_injective {xs ys : List UInt64} (length : xs.length = ys.length)
    (same : value xs = value ys) : xs = ys := by
  have digits := ofDigits_inj_of_len_eq (by decide : 1 < 2 ^ 64)
    (by simpa only [length_map] using length) (digits_lt xs) (digits_lt ys) same
  exact (map_injective_iff.mpr fun _ _ => UInt64.toNat_inj.mp) digits

theorem value_replicate_max (n : ℕ) : value (replicate n (-1)) + 1 = 2 ^ (64 * n) := by
  induction n with
  | zero => rfl
  | succ n ih =>
    rw [replicate_succ, value_cons, mul_succ, pow_add, ← ih]
    have top : (-1 : UInt64).toNat = 2 ^ 64 - 1 := by decide
    rw [top]
    omega

theorem value_complement : value (words.map (~~~·)) + value words + 1 = 2 ^ (64 * words.length) := by
  induction words with
  | nil => rfl
  | cons word words ih =>
    have flipped : (~~~word).toNat + word.toNat + 1 = 2 ^ 64 := by
      have bound := word_lt word
      rw [UInt64.toNat_not, show UInt64.size = 2 ^ 64 from rfl]
      omega
    rw [map_cons, value_cons, value_cons, length_cons, mul_succ, pow_add, ← ih]
    omega

theorem value_reverse_cons (word : UInt64) (words : List UInt64) :
    value (word :: words).reverse = value words.reverse + 2 ^ (64 * words.length) * word.toNat := by
  simp only [reverse_cons, value_append, length_reverse, value_cons, value_nil, Nat.mul_zero, Nat.add_zero]

theorem low_add_mul_mod {a b word tail : ℕ} (low : word < a) : (word + a * tail) % (a * b) = word + a * (tail % b) := by
  rw [mod_mul, add_mul_mod_self_left, mod_eq_of_lt low, add_mul_div_left _ _ (by omega), div_eq_of_lt low, Nat.zero_add]

/-- `dst` with the words from `j` on replaced by `src`, as far as `dst` reaches. -/
def overwrite (dst : List UInt64) (j : ℕ) (src : List UInt64) : List UInt64 :=
  dst.take j ++ src.take (dst.length - j) ++ dst.drop (j + src.length)

@[simp] theorem length_overwrite (dst : List UInt64) (j : ℕ) (src : List UInt64) :
    (overwrite dst j src).length = dst.length := by
  simp only [overwrite, length_append, length_take, length_drop]
  omega

theorem value_overwrite {dst src : List UInt64} {j : ℕ} (fits : j + src.length ≤ dst.length) :
    value (overwrite dst j src) = value dst % 2 ^ (64 * j) + 2 ^ (64 * j) * (value src +
      2 ^ (64 * src.length) * (value dst / 2 ^ (64 * (j + src.length)))) := by
  have whole : src.take (dst.length - j) = src := take_of_length_le (by omega)
  have start : (dst.take j).length = j := by rw [length_take]; omega
  rw [overwrite, whole, append_assoc, value_append, value_append, start, value_take, value_drop]

theorem value_set {words : List UInt64} {j : ℕ} (inside : j < words.length) (word : UInt64) :
    value (words.set j word) + 2 ^ (64 * j) * (value words / 2 ^ (64 * j) % 2 ^ 64) =
      value words + 2 ^ (64 * j) * word.toNat := by
  have start : (words.take j).length = j := by rw [length_take]; omega
  have low := mod_add_div (value words) (2 ^ (64 * j))
  have high := mod_add_div (value words / 2 ^ (64 * j)) (2 ^ 64)
  have next : value (words.drop (j + 1)) = value words / 2 ^ (64 * j) / 2 ^ 64 := by
    rw [value_drop, Nat.div_div_eq_div_mul, ← pow_add]
    rfl
  rw [set_eq_take_append_cons_drop, if_pos inside, value_append, value_cons, start, value_take,
    next]
  calc
    _ = value words % 2 ^ (64 * j) + 2 ^ (64 * j) * (value words / 2 ^ (64 * j) % 2 ^ 64 +
          2 ^ 64 * (value words / 2 ^ (64 * j) / 2 ^ 64)) + 2 ^ (64 * j) * word.toNat := by ring
    _ = _ := by rw [high, low]

/-- The words of `ls`, each with the word of `rs` at its place, zero where `rs` has ended. -/
def pairs : List UInt64 → List UInt64 → List (UInt64 × UInt64)
  | [], _ => []
  | l :: ls, [] => (l, 0) :: pairs ls []
  | l :: ls, r :: rs => (l, r) :: pairs ls rs

theorem pairs_eq (ls rs : List UInt64) : pairs ls rs = ls.zip rs ++ (ls.drop rs.length).map (·, 0) := by
  fun_induction pairs ls rs with
  | case1 rs => simp
  | case2 l ls ih => simpa using ih
  | case3 l ls r rs ih => simpa using ih

theorem length_pairs (ls rs : List UInt64) : (pairs ls rs).length = ls.length := by
  fun_induction pairs ls rs with
  | case1 rs => rfl
  | case2 l ls ih => simpa using ih
  | case3 l ls r rs ih => simpa using ih

section Chain

variable {α β σ : Type*}

def chain (step : σ → α → β × σ) : σ → List α → List β × σ
  | carry, [] => ([], carry)
  | carry, a :: as =>
    let next := step carry a
    let rest := chain step next.2 as
    (next.1 :: rest.1, rest.2)

variable (step : σ → α → β × σ) (carry : σ)

@[simp] theorem chain_nil : chain step carry [] = ([], carry) :=
  rfl

@[simp] theorem chain_cons (a : α) (as : List α) : chain step carry (a :: as) =
      ((step carry a).1 :: (chain step (step carry a).2 as).1, (chain step (step carry a).2 as).2) := rfl

@[simp] theorem length_chain (as : List α) : (chain step carry as).1.length = as.length := by
  induction as generalizing carry with
  | nil => rfl
  | cons a as ih => simp only [chain_cons, length_cons, ih]

theorem chain_append (as bs : List α) : chain step carry (as ++ bs) =
      ((chain step carry as).1 ++ (chain step (chain step carry as).2 bs).1,
        (chain step (chain step carry as).2 bs).2) := by
  induction as generalizing carry with
  | nil => rfl
  | cons a as ih => simp only [cons_append, chain_cons, ih]

theorem chain_map {γ : Type*} (f : γ → α) (carry : σ) (cs : List γ) :
    chain step carry (cs.map f) = chain (fun c x => step c (f x)) carry cs := by
  induction cs generalizing carry with
  | nil => rfl
  | cons c cs ih => simp only [map_cons, chain_cons, ih]

/-- The sum of `f` over a list with weights `1, B, B², …`. -/
def weighted (B : ℤ) (f : α → ℤ) : List α → ℤ
  | [] => 0
  | a :: as => f a + B * weighted B f as

theorem weighted_value (words : List UInt64) :
    weighted (2 ^ 64) (fun word => (word.toNat : ℤ)) words = value words := by
  induction words with
  | nil => rfl
  | cons word words ih =>
    rw [weighted, ih, value_cons]
    push_cast
    ring

theorem weighted_pairs (r : ℤ) (ls rs : List UInt64) (fits : rs.length ≤ ls.length) :
    weighted (2 ^ 64) (fun p => (p.1.toNat : ℤ) + r * p.2.toNat) (pairs ls rs) = value ls + r * value rs := by
  fun_induction pairs ls rs with
  | case1 rs =>
    have empty : rs = [] := eq_nil_of_length_eq_zero (by simpa using fits)
    simp [weighted, empty]
  | case2 l ls ih =>
    rw [weighted, ih (by simp)]
    simp
  | case3 l ls a rs ih =>
    rw [weighted, ih (by simpa using fits)]
    push_cast [value_cons]
    ring

theorem weighted_mul (B r : ℤ) (f : α → ℤ) (as : List α) : weighted B (fun a => r * f a) as = r * weighted B f as := by
  induction as with
  | nil => simp only [weighted, mul_zero]
  | cons a as ih =>
    simp only [weighted, ih]
    ring

/-- What every round conserves, with the carry in the weight of the next word, the loop
conserves with the final carry in the weight behind its last word. -/
theorem chain_balance (B : ℤ) (step : σ → α → β × σ) (digit : β → ℤ) (input : α → ℤ) (weight : σ → ℤ) (good : σ → Prop)
    (round : ∀ c, good c → ∀ a, good (step c a).2 ∧ digit (step c a).1 + B * weight (step c a).2 = input a + weight c)
    (carry : σ) (start : good carry) (as : List α) :
    good (chain step carry as).2 ∧
      weighted B digit (chain step carry as).1 + B ^ as.length * weight (chain step carry as).2 =
        weighted B input as + weight carry := by
  induction as generalizing carry with
  | nil => exact ⟨start, by simp [weighted]⟩
  | cons a as ih =>
    obtain ⟨kept, balance⟩ := round carry start a
    obtain ⟨final, rest⟩ := ih (step carry a).2 kept
    refine ⟨final, ?_⟩
    simp only [chain_cons, weighted, length_cons]
    calc
      _ = digit (step carry a).1 + B * (weighted B digit (chain step (step carry a).2 as).1 +
            B ^ as.length * weight (chain step (step carry a).2 as).2) := by ring
      _ = digit (step carry a).1 + B * weight (step carry a).2 + B * weighted B input as := by
        rw [rest]
        ring
      _ = input a + B * weighted B input as + weight carry := by
        rw [balance]
        ring

end Chain

end IMBridge.Lib.Limbs
