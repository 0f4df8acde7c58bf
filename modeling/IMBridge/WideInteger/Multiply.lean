import IMBridge.WideInteger.Arithmetic

/-!
The multiplications of `ObWideInteger::_impl`: magnitudes, one word of the right operand at a time
with a 128-bit carrier, and the sign at the end.
-/

namespace IMBridge.WideInteger

open Lib.Limbs ObWideInteger

variable {k k2 : ℕ} {s s2 : Signedness}

/-- `out` stores `z` modulo `2 ^ Bits`, and its return code says whether `z` fits. -/
structure Computes (check : Bool) (z : ℤ) (out : RetCode × ObWideInteger k s) : Prop where
  stored : (out.2.toNat : ℤ) = z % 2 ^ (64 * k)
  verdict : out.1 = Impl.retCode check (decide ¬ FitsSigned (64 * k) z)

namespace ObWideInteger

def zero (k : ℕ) (s : Signedness) : ObWideInteger k s := ⟨List.replicate k 0, List.length_replicate⟩

@[simp] theorem toNat_zero : (zero k s).toNat = 0 := value_replicate_zero k

end ObWideInteger

namespace Impl

variable (x : ObWideInteger k s)

def overflowNegativeRange : Bool :=
  let big0 := x.item (k - 1)
  if big0 > signBitMask then true
  else if big0 == signBitMask then (x.items.take (k - 1)).any (· != 0)
  else false

def overflowPositiveRange : Bool := x.item (k - 1) ≥ signBitMask

/-- How both multiplications end: the verdict on the magnitude, then its sign. -/
def signProduct (check overflow lNeg rNeg : Bool) (res : ObWideInteger k s) :
    RetCode × ObWideInteger k s :=
  (retCode check (overflow || (lNeg != rNeg && overflowNegativeRange res) ||
      (lNeg == rNeg && overflowPositiveRange res)),
    if lNeg != rNeg then (unaryMinus false res).2 else res)

theorem any_ne_zero (words : List UInt64) : words.any (· != 0) = decide (value words ≠ 0) := by
  induction words with
  | nil => rfl
  | cons word words ih =>
    rw [List.any_cons, ih, value_cons, bne, toNat_beq_zero, ← decide_not, ← Bool.decide_or]
    apply decide_eq_decide.mpr
    omega

theorem overflowNegativeRange_eq (pos : 0 < k) (x : ObWideInteger k s) :
    overflowNegativeRange x = decide (2 ^ (64 * k - 1) < x.toNat) := by
  have split : x.toNat = 2 ^ (64 * (k - 1)) * (x.item (k - 1)).toNat + value (x.items.take (k - 1)) := by
    rw [x.toNat_top pos, value_take]
    exact (Nat.div_add_mod _ _).symm
  have low : value (x.items.take (k - 1)) < 2 ^ (64 * (k - 1)) := by
    rw [value_take]
    exact Nat.mod_lt _ (by positivity)
  have mask : signBitMask.toNat = 2 ^ 63 := rfl
  unfold overflowNegativeRange
  rw [half_eq pos, split, any_ne_zero]
  generalize value (x.items.take (k - 1)) = rest at low ⊢
  generalize 2 ^ (64 * (k - 1)) = weight at low ⊢
  simp only [gt_iff_lt, UInt64.lt_iff_toNat_lt, mask, beq_iff_eq, ← UInt64.toNat_inj]
  generalize (x.item (k - 1)).toNat = top
  rcases Nat.lt_trichotomy top (2 ^ 63) with less | equal | greater
  · have scaled : weight * (top + 1) ≤ weight * 2 ^ 63 := Nat.mul_le_mul_left _ less
    grind
  · grind
  · have scaled : weight * (2 ^ 63 + 1) ≤ weight * top := Nat.mul_le_mul_left _ greater
    grind

theorem overflowPositiveRange_eq (pos : 0 < k) (x : ObWideInteger k s) :
    overflowPositiveRange x = decide (2 ^ (64 * k - 1) ≤ x.toNat) := by
  unfold overflowPositiveRange
  apply decide_eq_decide.mpr
  rw [ge_iff_le, UInt64.le_iff_toNat_le, show signBitMask.toNat = 2 ^ 63 from rfl]
  exact x.half_le_top_iff pos

theorem eq_of_magnitude {x : ℤ} {neg : Bool} (sign : neg = true ↔ x < 0) :
    x = if neg then -(x.natAbs : ℤ) else x.natAbs := by
  cases neg with
  | false =>
    grind
  | true =>
    grind

theorem product_of_magnitudes (x y : ℤ) (lNeg rNeg : Bool) (hl : lNeg = true ↔ x < 0) (hr : rNeg = true ↔ y < 0) :
    x * y = if (lNeg != rNeg) = true then -((x.natAbs * y.natAbs : ℕ) : ℤ)
      else ((x.natAbs * y.natAbs : ℕ) : ℤ) := by
  grind

/-- When the loop left the magnitude `p` in the items, up to the words it pushed out, the ending
computes `p` with its sign. -/
theorem signProduct_computes (pos : 0 < k) {check overflow lNeg rNeg : Bool} {p : ℕ}
    {res : ObWideInteger k s} (kept : res.toNat = p % 2 ^ (64 * k))
    (pushed : overflow = decide (2 ^ (64 * k) ≤ p)) :
    Computes check (if (lNeg != rNeg) = true then -(p : ℤ) else p) (signProduct check overflow lNeg rNeg res) := by
  have halves := two_mul_half pos
  have cast : (2 ^ (64 * k - 1) : ℤ) = ((2 ^ (64 * k - 1) : ℕ) : ℤ) := by push_cast; rfl
  have reduced : (res.toNat : ℤ) = (p : ℤ) % 2 ^ (64 * k) := by rw [kept]; push_cast; rfl
  have opposite : (lNeg == rNeg) = !(lNeg != rNeg) := by cases lNeg <;> cases rNeg <;> rfl
  rw [signProduct, overflowNegativeRange_eq pos, overflowPositiveRange_eq pos, opposite]
  generalize (lNeg != rNeg) = differ
  constructor
  · cases differ with
    | false => simpa only [Bool.false_eq_true, if_false] using reduced
    | true =>
      simp only [if_true]
      rw [toNat_unaryMinus pos, reduced]
      exact (Int.mod_modEq _ _).neg
  · dsimp only
    congr 1
    rw [pushed, kept]
    by_cases large : 2 ^ (64 * k) ≤ p
    · rw [decide_eq_true large, Bool.true_or, Bool.true_or, eq_comm, decide_eq_true_eq, FitsSigned, cast]
      split <;> omega
    rw [Nat.mod_eq_of_lt (by omega), decide_eq_false large, Bool.false_or]
    cases differ with
    | false =>
      simp only [Bool.false_and, Bool.false_or, Bool.not_false, Bool.true_and, Bool.false_eq_true, if_false]
      apply decide_eq_decide.mpr
      rw [FitsSigned, cast]
      omega
    | true =>
      simp only [Bool.true_and, Bool.not_true, Bool.false_and, Bool.or_false, if_true]
      apply decide_eq_decide.mpr
      rw [FitsSigned, cast]
      omega

/-! Multiplication by a native integer. -/

def mulStep (rval carrier : DwType) (item : UInt64) : UInt64 × DwType :=
  let carrier := carrier + dword item * rval
  (lowWord carrier, carrier >>> 64)

variable (check : Bool) (lhs : ObWideInteger k s)

def multiplyNative (rhs : Native s2) : RetCode × ObWideInteger k s :=
  if rhs.word = 0 then (.success, .zero k s)
  else if rhs.word = 1 then (.success, lhs)
  else
    let loop := chain (mulStep rhs.makePositive.toDw) 0 (makePositive lhs).items
    signProduct check (loop.2 != 0) lhs.isNegative rhs.isNegative
      ⟨loop.1, by rw [length_chain, (makePositive lhs).size]⟩

theorem product_lt (a b c d : ℕ) (ha : a < 2 ^ 64) (hb : b < 2 ^ 64) (hc : c < 2 ^ 64)
    (hd : d < 2 ^ 64) : c + (d + a * b) < 2 ^ 128 := by
  have bound : a * b ≤ (2 ^ 64 - 1) * (2 ^ 64 - 1) := Nat.mul_le_mul (by omega) (by omega)
  omega

theorem mulStep_balance {rval : DwType} (small : rval.toNat < 2 ^ 64) (carrier : DwType)
    (carry : carrier.toNat < 2 ^ 64) (item : UInt64) :
    (mulStep rval carrier item).2.toNat < 2 ^ 64 ∧
      ((mulStep rval carrier item).1.toNat : ℤ) + 2 ^ 64 * (mulStep rval carrier item).2.toNat =
        item.toNat * rval.toNat + carrier.toNat := by
  have bound := product_lt item.toNat rval.toNat carrier.toNat 0 (word_lt item) small carry (by decide)
  have exact : (carrier + dword item * rval).toNat = carrier.toNat + item.toNat * rval.toNat := by
    rw [BitVec.toNat_add, BitVec.toNat_mul, toNat_dword, Nat.add_mod_mod]
    exact Nat.mod_eq_of_lt (by omega)
  simp only [mulStep, toNat_lowWord, BitVec.toNat_ushiftRight, Nat.shiftRight_eq_div_pow, exact]
  omega

theorem mulLoop_splits {rval : DwType} (small : rval.toNat < 2 ^ 64) (words : List UInt64) :
    value (chain (mulStep rval) 0 words).1 + 2 ^ (64 * words.length) *
      (chain (mulStep rval) 0 words).2.toNat = value words * rval.toNat := by
  obtain ⟨-, balance⟩ := chain_balance (2 ^ 64) (mulStep rval) (fun w : UInt64 => (w.toNat : ℤ))
    (fun w : UInt64 => (rval.toNat : ℤ) * (w.toNat : ℤ))
    (fun c : DwType => (c.toNat : ℤ)) (fun c => c.toNat < 2 ^ 64)
    (fun c carry a => by
      obtain ⟨kept, round⟩ := mulStep_balance small c carry a
      exact ⟨kept, by rw [round]; ring⟩) 0 (by decide) words
  rw [weighted_value, weighted_mul, weighted_value, ← pow_mul] at balance
  have start : ((0 : DwType).toNat : ℤ) = 0 := rfl
  rw [start, add_zero] at balance
  rw [Nat.mul_comm (value words)]
  exact_mod_cast balance

theorem splits_mod_div {low modulus carry p : ℕ} (below : low < modulus)
    (split : low + modulus * carry = p) : low = p % modulus ∧ (carry ≠ 0 ↔ modulus ≤ p) := by
  subst split
  refine ⟨by rw [Nat.add_mul_mod_self_left, Nat.mod_eq_of_lt below], ?_⟩
  constructor
  · intro nonzero
    have scaled : modulus * 1 ≤ modulus * carry := Nat.mul_le_mul_left _ (by omega)
    omega
  · rintro large rfl
    omega

theorem multiplyNative_computes (pos : 0 < k) (check : Bool) (lhs : ObWideInteger k s)
    {rhs : Native s2} (minimum : rhs.toInt ≠ -2 ^ 63) (zero : rhs.word ≠ 0) (one : rhs.word ≠ 1) :
    Computes check (lhs.toInt * rhs.toInt) (multiplyNative check lhs rhs) := by
  have rval := Native.toNat_makePositive_toDw minimum
  have small : rhs.makePositive.toDw.toNat < 2 ^ 64 := by
    rw [rval, ← Native.toNat_makePositive_word]
    exact word_lt _
  have splits := mulLoop_splits small (makePositive lhs).items
  have below := value_lt (chain (mulStep rhs.makePositive.toDw) 0 (makePositive lhs).items).1
  rw [length_chain, (makePositive lhs).size] at below
  rw [(makePositive lhs).size] at splits
  obtain ⟨kept, pushed⟩ := splits_mod_div below splits
  have magnitude : value (makePositive lhs).items * rhs.makePositive.toDw.toNat =
      lhs.toInt.natAbs * rhs.toInt.natAbs := by
    rw [rval, ← toNat_makePositive pos]
    rfl
  rw [magnitude] at kept pushed
  rw [multiplyNative, if_neg zero, if_neg one,
    product_of_magnitudes _ _ _ _ lhs.isNegative_iff_toInt_neg rhs.isNegative_iff_toInt_neg]
  apply signProduct_computes pos
  · exact kept
  · rw [bne, beq_eq_decide, ← decide_not]
    apply decide_eq_decide.mpr
    rw [← pushed, not_iff_not, ← BitVec.toNat_inj]
    rfl

/-! Multiplication of wide integers. -/

/-- One row of the long multiplication, at the items from `j` on. `carrier` ends in the item
behind the row; a row that runs out of items, or whose carrier does, overflows. The word read
past the items before the loop breaks reaches only `carrier`, which is dropped. -/
def mulRow (r : UInt64) : List UInt64 → List UInt64 → DwType → List UInt64 × Bool
  | [], window, carrier =>
    if carrier = 0 then (window, false)
    else match window with
      | [] => ([], true)
      | _ :: rest => (lowWord carrier :: rest, false)
  | _ :: _, [], _ => ([], true)
  | l :: ls, w :: ws, carrier =>
    let carrier := carrier + (dword w + dword l * dword r)
    let rest := mulRow r ls ws (carrier >>> 64)
    (lowWord carrier :: rest.1, rest.2)

/-- The rows for `j = 0, 1, …`; the item a row starts at is final after it. -/
def mulRows (ls : List UInt64) : List UInt64 → List UInt64 → List UInt64 × Bool
  | [], res => (res, false)
  | r :: rs, res =>
    let row := mulRow r ls res 0
    match row.1 with
    | [] => ([], row.2)
    | x :: window =>
      let rest := mulRows ls rs window
      (x :: rest.1, row.2 || rest.2)

/-- `item_size` on the items, most significant first: how many there are below the zeros. -/
def itemSizeFrom : List UInt64 → ℕ
  | [] => 0
  | x :: xs => if x ≠ 0 then xs.length + 1 else itemSizeFrom xs

def itemSize : ℕ := itemSizeFrom x.items.reverse

theorem itemSizeFrom_spec (words : List UInt64) :
    itemSizeFrom words ≤ words.length ∧ value words.reverse < 2 ^ (64 * itemSizeFrom words) ∧
      (0 < itemSizeFrom words → 2 ^ (64 * (itemSizeFrom words - 1)) ≤ value words.reverse) := by
  induction words with
  | nil => simp [itemSizeFrom]
  | cons x xs ih =>
    obtain ⟨short, below, above⟩ := ih
    have whole : value (x :: xs).reverse < 2 ^ (64 * (xs.length + 1)) := by
      simpa using value_lt (x :: xs).reverse
    rw [itemSizeFrom]
    split
    next nonzero =>
      refine ⟨by simp, whole, fun _ => ?_⟩
      have top : 1 ≤ x.toNat := by
        by_contra small
        exact nonzero (UInt64.toNat_inj.mp (by simp; omega))
      rw [value_reverse_cons, Nat.add_sub_cancel]
      have scaled : 2 ^ (64 * xs.length) * 1 ≤ 2 ^ (64 * xs.length) * x.toNat := Nat.mul_le_mul_left _ top
      omega
    next zero =>
      have zero : x = 0 := not_not.mp zero
      rw [value_reverse_cons, zero]
      grind

theorem itemSize_le : itemSize x ≤ k := by
  have short := (itemSizeFrom_spec x.items.reverse).1
  rwa [List.length_reverse, x.size] at short

theorem toNat_lt_itemSize : x.toNat < 2 ^ (64 * itemSize x) := by
  have below := (itemSizeFrom_spec x.items.reverse).2.1
  rwa [List.reverse_reverse] at below

theorem itemSize_top {x : ObWideInteger k s} (nonempty : 0 < itemSize x) : 2 ^ (64 * (itemSize x - 1)) ≤ x.toNat := by
  have above := (itemSizeFrom_spec x.items.reverse).2.2 nonempty
  rwa [List.reverse_reverse] at above

/-- Items without leading zeros, as the loops of `multiply` run over them. -/
structure Significant (words : List UInt64) (n : ℕ) : Prop where
  number : value words = n
  top : words ≠ [] → 2 ^ (64 * (words.length - 1)) ≤ n

theorem significant_items : Significant (x.items.take (itemSize x)) x.toNat := by
  have length : (x.items.take (itemSize x)).length = itemSize x := by
    rw [List.length_take, x.size, Nat.min_eq_left (itemSize_le x)]
  constructor
  · rw [value_take]
    exact Nat.mod_eq_of_lt (toNat_lt_itemSize x)
  · intro nonempty
    rw [length]
    apply itemSize_top
    grind

/-- What a row does to the items from its start on, which hold zeros behind the row. -/
structure RowResult (ls window : List UInt64) (total : ℕ) (out : List UInt64 × Bool) : Prop where
  length : out.1.length = window.length
  zeros : value (out.1.drop (ls.length + 1)) = 0
  kept : value out.1 = total % 2 ^ (64 * window.length)
  pushed : out.2 = true → window.length < ls.length ∨ 2 ^ (64 * window.length) ≤ total
  exact : out.2 = false → total < 2 ^ (64 * window.length)

/-- A carry that is left behind the last item of the row goes to the item there, if there is one. -/
theorem RowResult.last {carrier : DwType} (carry : carrier.toNat < 2 ^ 64) {w : UInt64} {rest : List UInt64}
    (zeros : value (w :: rest) = 0) :
    RowResult [] (w :: rest) (value (w :: rest) + carrier.toNat) (lowWord carrier :: rest, false) := by
  have all := zeros
  rw [value_cons] at all
  have zero : value rest = 0 := by omega
  have stored : value (lowWord carrier :: rest) = carrier.toNat := by
    rw [value_cons, zero, toNat_lowWord, Nat.mod_eq_of_lt carry]
    omega
  have below := value_lt (lowWord carrier :: rest)
  rw [stored] at below
  rw [zeros, Nat.zero_add]
  constructor
  · rfl
  · simp [zero]
  · rw [stored]
    exact (Nat.mod_eq_of_lt below).symm
  · simp
  · exact fun _ => below

/-- One item of a row: its product and the carry that came to it leave a word and a carry. -/
theorem carry_step {r l w : UInt64} (ls ws : List UInt64) {carrier next : DwType}
    (carry : carrier.toNat < 2 ^ 64) (next_eq : next = carrier + (dword w + dword l * dword r)) :
    (next >>> 64).toNat < 2 ^ 64 ∧ value (w :: ws) + value (l :: ls) * r.toNat + carrier.toNat =
      (lowWord next).toNat + 2 ^ 64 * (value ws + value ls * r.toNat + (next >>> 64).toNat) := by
  have bound := product_lt l.toNat r.toNat carrier.toNat w.toNat (word_lt l) (word_lt r) carry (word_lt w)
  have sum : next.toNat = carrier.toNat + (w.toNat + l.toNat * r.toNat) := by
    simp only [next_eq, BitVec.toNat_add, BitVec.toNat_mul, toNat_dword, Nat.add_mod_mod]
    exact Nat.mod_eq_of_lt bound
  have shifted : (next >>> 64).toNat = next.toNat / 2 ^ 64 := by
    rw [BitVec.toNat_ushiftRight, Nat.shiftRight_eq_div_pow]
  refine ⟨by omega, ?_⟩
  calc
    _ = next.toNat + 2 ^ 64 * (value ws + value ls * r.toNat) := by
      rw [sum, value_cons, value_cons]
      ring
    _ = _ := by
      rw [Nat.mul_add _ _ (next >>> 64).toNat, toNat_lowWord, shifted]
      omega

/-- A word before the items of a row. -/
theorem RowResult.cons {ls ws : List UInt64} {tail : ℕ} {out : List UInt64 × Bool} (row : RowResult ls ws tail out)
    (l w word : UInt64) :
    RowResult (l :: ls) (w :: ws) (word.toNat + 2 ^ 64 * tail) (word :: out.1, out.2) := by
  have low := word_lt word
  have powers : 2 ^ (64 * (w :: ws).length) = 2 ^ 64 * 2 ^ (64 * ws.length) := by
    rw [List.length_cons, Nat.mul_succ, Nat.add_comm, pow_add]
  constructor
  · simp only [List.length_cons, row.length]
  · simpa using row.zeros
  · rw [value_cons, row.kept, powers, low_add_mul_mod low]
  · intro overflow
    rcases row.pushed overflow with short | large
    · left
      simpa using short
    right
    rw [powers]
    omega
  · intro fine
    have tailBelow := row.exact fine
    rw [powers]
    omega

theorem mulRow_result (r : UInt64) (ls window : List UInt64) (carrier : DwType)
    (carry : carrier.toNat < 2 ^ 64) (zeros : value (window.drop ls.length) = 0) :
    RowResult ls window (value window + value ls * r.toNat + carrier.toNat) (mulRow r ls window carrier) := by
  fun_induction mulRow r ls window carrier with
  | case1 window =>
    have all : value window = 0 := by simpa using zeros
    constructor
    · rfl
    · rw [value_drop, all, Nat.zero_div]
    · simp [all]
    · simp
    · simp [all]
  | case2 carrier some =>
    have nonzero : carrier.toNat ≠ 0 := fun zero => some (BitVec.toNat_inj.mp zero)
    constructor
    · rfl
    · rfl
    · simp [Nat.mod_one]
    · intro _
      right
      simp
      omega
    · simp
  | case3 carrier some w rest => simpa using RowResult.last carry zeros
  | case4 l ls carrier =>
    constructor
    · rfl
    · rfl
    · simp [Nat.mod_one]
    · intro _
      left
      simp
    · simp
  | case5 l ls w ws carrier next rest ih =>
    obtain ⟨shifted, total⟩ := carry_step ls ws carry (show next = _ from rfl)
    rw [total]
    exact (ih shifted (by simpa using zeros)).cons l w (lowWord next)

theorem Significant.tail {r : UInt64} {rs : List UInt64}
    (whole : Significant (r :: rs) (value (r :: rs))) : Significant rs (value rs) := by
  refine ⟨rfl, fun nonempty => ?_⟩
  have top := whole.top (List.cons_ne_nil r rs)
  have word := word_lt r
  have length : 0 < rs.length := List.length_pos_of_ne_nil nonempty
  rw [value_cons, List.length_cons, Nat.add_sub_cancel,
    show 64 * rs.length = 64 + 64 * (rs.length - 1) by omega, pow_add] at top
  omega

theorem Significant.pos {words : List UInt64} {n : ℕ} (digits : Significant words n) (nonempty : words ≠ []) : 1 ≤ n :=
  le_trans Nat.one_le_two_pow (digits.top nonempty)

/-- The rows together: the product is kept up to the width, and overflow is reported exactly when
it is not below it. -/
theorem mulRows_result {ls : List UInt64} {nl : ℕ} (left : Significant ls nl)
    (rs res : List UInt64) (right : Significant rs (value rs)) (fits : rs.length ≤ res.length)
    (zeros : value (res.drop ls.length) = 0) :
    (mulRows ls rs res).1.length = res.length ∧
      value (mulRows ls rs res).1 = (value res + nl * value rs) % 2 ^ (64 * res.length) ∧
      ((mulRows ls rs res).2 = true ↔ 2 ^ (64 * res.length) ≤ value res + nl * value rs) := by
  induction rs generalizing res with
  | nil =>
    have below := value_lt res
    refine ⟨rfl, ?_, ?_⟩
    · simp only [mulRows, value_nil, Nat.mul_zero, Nat.add_zero]
      exact (Nat.mod_eq_of_lt below).symm
    · simp only [mulRows, Bool.false_eq_true, value_nil, Nat.mul_zero, Nat.add_zero, false_iff]
      omega
  | cons r rs ih =>
    have row := mulRow_result r ls res 0 (by decide) zeros
    rw [left.number, show (0 : DwType).toNat = 0 from rfl, Nat.add_zero] at row
    unfold mulRows
    obtain ⟨length, rowZeros, kept, pushed, exact⟩ := row
    generalize mulRow r ls res 0 = row at length rowZeros kept pushed exact ⊢
    obtain ⟨out, overflow⟩ := row
    cases out with
    | nil =>
      grind
    | cons x window =>
      simp only [List.length_cons] at length kept pushed exact fits rowZeros ⊢
      obtain ⟨restLength, restKept, restPushed⟩ := ih window right.tail (by omega) (by simpa using rowZeros)
      have powers : 2 ^ (64 * res.length) = 2 ^ 64 * 2 ^ (64 * window.length) := by
        rw [← length, Nat.mul_succ, Nat.add_comm, pow_add]
      have word := word_lt x
      -- the total of all rows is this row's, and `2 ^ 64` times what the others add
      have total : value res + nl * value (r :: rs) = value res + nl * r.toNat + 2 ^ 64 * (nl * value rs) := by
        rw [value_cons]
        ring
      have short (narrow : res.length < ls.length) : 2 ^ (64 * res.length) ≤ value res + nl * value (r :: rs) := by
        have top := left.top (List.ne_nil_of_length_pos (by omega))
        have grows : 2 ^ (64 * res.length) ≤ 2 ^ (64 * (ls.length - 1)) := Nat.pow_le_pow_right (by decide) (by omega)
        have one : nl * 1 ≤ nl * value (r :: rs) := Nat.mul_le_mul_left _ (right.pos (List.cons_ne_nil r rs))
        omega
      rw [total] at short ⊢
      rw [value_cons, powers] at kept
      rw [powers] at pushed exact short ⊢
      have atLeast := Nat.mod_le (value res + nl * r.toNat) (2 ^ 64 * 2 ^ (64 * window.length))
      rw [← kept] at atLeast
      refine ⟨by omega, ?_, ?_⟩
      · rw [value_cons, restKept, ← low_add_mul_mod word, Nat.mul_add, ← Nat.add_assoc, kept, Nat.mod_add_mod]
      · rw [Bool.or_eq_true, restPushed]
        constructor
        · rintro (early | late)
          · grind
          · omega
        · intro large
          by_contra neither
          rw [not_or, Bool.not_eq_true] at neither
          have below := exact neither.1
          rw [Nat.mod_eq_of_lt below] at kept
          omega

theorem length_mulRow (r : UInt64) (ls window : List UInt64) (carrier : DwType) :
    (mulRow r ls window carrier).1.length = window.length := by
  fun_induction mulRow r ls window carrier with
  | case1 window => rfl
  | case2 carrier some => rfl
  | case3 carrier some w rest => rfl
  | case4 l ls carrier => rfl
  | case5 l ls w ws carrier next rest ih => simpa using ih

theorem length_mulRows (ls rs res : List UInt64) : (mulRows ls rs res).1.length = res.length := by
  induction rs generalizing res with
  | nil => rfl
  | cons r rs ih =>
    have length := length_mulRow r ls res 0
    unfold mulRows
    grind

variable (rhs : ObWideInteger k2 s2)

def multiplyItems : RetCode × ObWideInteger k s :=
  let lval := (makePositive lhs).assign k .unsigned
  let rval := (makePositive rhs).assign k2 .unsigned
  let rows := mulRows (lval.items.take (itemSize lval)) (rval.items.take (itemSize rval))
    (zero k s).items
  signProduct check rows.2 lhs.isNegative rhs.isNegative
    ⟨rows.1, by rw [length_mulRows, (zero k s).size]⟩

theorem multiplyItems_computes (pos : 0 < k) (positive2 : 0 < k2) (narrower : k2 ≤ k)
    (check : Bool) (lhs : ObWideInteger k s) (rhs : ObWideInteger k2 s2) :
    Computes check (lhs.toInt * rhs.toInt) (multiplyItems check lhs rhs) := by
  have left := significant_items ((makePositive lhs).assign k .unsigned)
  have right := significant_items ((makePositive rhs).assign k2 .unsigned)
  have zeros (n : ℕ) : value ((zero k s).items.drop n) = 0 := by
    rw [value_drop]
    exact (congrArg (· / _) toNat_zero).trans (Nat.zero_div _)
  obtain ⟨-, kept, pushed⟩ := mulRows_result left _ (zero k s).items (right.number.symm ▸ right) (by
      rw [List.length_take, (zero k s).size]
      exact (Nat.min_le_left _ _).trans ((itemSize_le _).trans narrower)) (zeros _)
  have magnitude : value (zero k s).items + ((makePositive lhs).assign k
      .unsigned).toNat * value (((makePositive rhs).assign k2 .unsigned).items.take
        (itemSize ((makePositive rhs).assign k2 .unsigned))) =
      lhs.toInt.natAbs * rhs.toInt.natAbs := by
    rw [right.number, toNat_assign_same, toNat_assign_same, toNat_makePositive pos, toNat_makePositive positive2]
    exact (congrArg (· + _) toNat_zero).trans (Nat.zero_add _)
  rw [magnitude, (zero k s).size] at kept pushed
  rw [multiplyItems, product_of_magnitudes _ _ _ _ lhs.isNegative_iff_toInt_neg rhs.isNegative_iff_toInt_neg]
  apply signProduct_computes pos
  · exact kept
  · rw [Bool.eq_iff_iff, pushed, decide_eq_true_eq]

/-! The dispatch on widths, and the range check of a wider result. -/

def limitsMax (k : ℕ) (s : Signedness) : ObWideInteger k s where
  items := match s with
    | .signed => (List.replicate (k - 1) baseMax ++ [0x7FFFFFFFFFFFFFFF]).take k
    | .unsigned => List.replicate k baseMax
  size := by
    cases s with
    | signed =>
      simp only [List.length_take, List.length_append, List.length_replicate, List.length_cons,
        List.length_nil]
      omega
    | unsigned => exact List.length_replicate

def limitsMin (k : ℕ) (s : Signedness) : ObWideInteger k s where
  items := match s with
    | .signed => (List.replicate (k - 1) 0 ++ [signBitMask]).take k
    | .unsigned => List.replicate k 0
  size := by
    cases s with
    | signed =>
      simp only [List.length_take, List.length_append, List.length_replicate, List.length_cons,
        List.length_nil]
      omega
    | unsigned => exact List.length_replicate

def withinLimits (k : ℕ) (s : Signedness) (x : ObWideInteger k2 s2) : Bool :=
  cmp x (limitsMax k s) ≤ 0 && cmp x (limitsMin k s) ≥ 0

/-- `PromotedInteger`: twice the width, at most 1024 bits. -/
def promoted (k : ℕ) : ℕ := if k < 8 then 2 * k else 16

/-- The branch of `multiply` for a right operand that is not wider. Two 128-bit integers are
multiplied at once; their overflow check multiplies again at twice the width. -/
def multiplyNarrower : RetCode × ObWideInteger k s :=
  if two : k = 2 then
    let res : ObWideInteger k s := ⟨(ofDw (lhs.dw * rhs.dw) : ObWideInteger 2 s).items,
      (size _).trans two.symm⟩
    let tmpl := (makePositive lhs).assign k .unsigned
    let tmpr := (makePositive rhs).assign k .unsigned
    let small := tmpl.item 1 == 0 && tmpr.item 1 == 0 && tmpl.item 0 ≤ (1 : UInt64) <<< 63 &&
      tmpr.item 0 ≤ (1 : UInt64) <<< 63
    let xres := (multiplyItems false (lhs.assign (promoted k) s) rhs).2
    (retCode check (!small && !withinLimits k s xres), res)
  else multiplyItems check lhs rhs

def multiply : RetCode × ObWideInteger k s :=
  if k2 ≤ k then multiplyNarrower check lhs rhs
  else
    let xres := multiplyNarrower check (lhs.assign k2 .signed) rhs
    (if check && xres.1 == .success && !withinLimits k s xres.2 then .operateOverflow else xres.1,
      xres.2.assign k s)

theorem value_limits (pos : 0 < k) (fill top : UInt64) : value ((List.replicate (k - 1) fill ++ [top]).take k) =
      value (List.replicate (k - 1) fill) + 2 ^ (64 * (k - 1)) * top.toNat := by
  rw [List.take_of_length_le (by simp; omega), value_append, List.length_replicate, value_cons,
    value_nil, Nat.mul_zero, Nat.add_zero]

theorem toNat_limitsMax (pos : 0 < k) : (limitsMax k .signed).toNat + 1 = 2 ^ (64 * k - 1) := by
  have filled := value_replicate_max (k - 1)
  have top : (0x7FFFFFFFFFFFFFFF : UInt64).toNat = 2 ^ 63 - 1 := rfl
  refine (congrArg (· + 1) (value_limits pos ..)).trans ?_
  rw [half_eq pos, top]
  change value (List.replicate (k - 1) (-1)) + _ + 1 = _
  omega

theorem toNat_limitsMin (pos : 0 < k) : (limitsMin k .signed).toNat = 2 ^ (64 * k - 1) := by
  refine (value_limits pos ..).trans ?_
  rw [value_replicate_zero, half_eq pos, Nat.zero_add]
  rfl

theorem withinLimits_eq (pos : 0 < k) (positive2 : 0 < k2) (x : ObWideInteger k2 s2) :
    withinLimits k .signed x = decide (FitsSigned (64 * k) x.toInt) := by
  have halves := two_mul_half pos
  have cast : (2 ^ (64 * k - 1) : ℤ) = ((2 ^ (64 * k - 1) : ℕ) : ℤ) := by push_cast; rfl
  have cast' : (2 ^ (64 * k) : ℤ) = ((2 ^ (64 * k) : ℕ) : ℤ) := by push_cast; rfl
  have max := toNat_limitsMax pos
  have min := toNat_limitsMin pos
  have maxInt : (limitsMax k .signed).toInt = 2 ^ (64 * k - 1) - 1 := by
    rw [toInt_of_not_isNegative, cast]
    · omega
    · rw [isNegative_eq pos, decide_eq_false_iff_not]
      omega
  have minInt : (limitsMin k .signed).toInt = -2 ^ (64 * k - 1) := by
    rw [toInt_of_isNegative, cast, cast']
    · omega
    · rw [isNegative_eq pos, decide_eq_true_eq]
      omega
  rw [withinLimits, cmp_eq_sign positive2 pos, cmp_eq_sign positive2 pos, maxInt, minInt, ← Bool.decide_and]
  apply decide_eq_decide.mpr
  rw [ge_iff_le, Int.sign_nonpos_iff, Int.sign_nonneg_iff, FitsSigned]
  omega

end Impl

end IMBridge.WideInteger
