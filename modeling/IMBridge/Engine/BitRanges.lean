import IMBridge.Engine.BitVector

/-!
The operations on a range of bits, bit by bit: a position of the range lies in the first word at or
above the start, in a word between, or in the last word below the end.
-/

namespace IMBridge.Engine.ObBitVectorImpl

open IMBridge.Lib.Scan IMBridge.Lib.PopCount List Nat StartEndMask

variable {w : Nat} {vector : ObBitVectorImpl w} {start stop : Nat}

/-! ### Positions and masks -/

section Positions

theorem le_iff_div_mod (w a b : Nat) : a ≤ b ↔ a / w < b / w ∨ a / w = b / w ∧ a % w ≤ b % w := by
  have splitA := div_add_mod a w
  have splitB := div_add_mod b w
  constructor
  · intro le
    rcases Nat.lt_or_eq_of_le (Nat.div_le_div_right (c := w) le) with less | same
    · exact .inl less
    grind
  · rintro (less | ⟨same, le⟩)
    · exact Nat.le_of_lt (lt_of_div_lt_div less)
    · rw [same] at splitA
      omega

theorem lt_iff_div_mod (w a b : Nat) : a < b ↔ a / w < b / w ∨ a / w = b / w ∧ a % w < b % w := by
  have le := le_iff_div_mod w b a
  omega

theorem forall_range_iff (pos : 0 < w) {holds : Nat → Nat → Prop} :
    (∀ idx, start ≤ idx → idx < stop → holds (idx / w) (idx % w)) ↔
      ∀ i j, j < w → (start / w < i ∨ start / w = i ∧ start % w ≤ j) →
        (i < stop / w ∨ i = stop / w ∧ j < stop % w) → holds i j := by
  constructor
  · intro all i j inWord above below
    have quotient : (w * i + j) / w = i := by
      rw [mul_add_div pos, div_eq_of_lt inWord, Nat.add_zero]
    have remainder : (w * i + j) % w = j := by rw [mul_add_mod, mod_eq_of_lt inWord]
    have here := all (w * i + j)
    rw [le_iff_div_mod w start, lt_iff_div_mod w _ stop, quotient, remainder] at here
    exact here above below
  · intro all idx above below
    rw [le_iff_div_mod w start idx] at above
    rw [lt_iff_div_mod w idx stop] at below
    exact all _ _ (mod_lt idx pos) above below

theorem bitAt_eq (narrow : w ≤ 64) (pos : 0 < w) (vector : ObBitVectorImpl w) (idx : Nat) :
    vector.bitAt idx = (vector (idx / w)).getLsbD (idx % w) := by
  have inWord : idx % w < w := mod_lt idx pos
  have shift : 1#64 <<< (idx % w) = BitVec.twoPow 64 (idx % w) := rfl
  have some : BitVec.twoPow 64 (idx % w) ≠ 0 := by
    intro zero
    have bit := congrArg (fun v => v.getLsbD (idx % w)) zero
    simp [show idx % w < 64 by omega] at bit
  rw [bitAt, shift, BitVec.and_twoPow, BitVec.getLsbD_setWidth]
  grind

theorem bitAt_word (narrow : w ≤ 64) (vector : ObBitVectorImpl w) (i : Nat) {j : Nat} (inWord : j < w) :
    vector.bitAt (w * i + j) = (vector i).getLsbD j := by
  have pos : 0 < w := zero_lt_of_lt inWord
  rw [bitAt_eq narrow pos, mul_add_div pos, mul_add_mod, div_eq_of_lt inWord, mod_eq_of_lt inWord, Nat.add_zero]

theorem getLsbD_startMask {a b j : Nat} (inWord : j < w) :
    (getStartEndMask w a b).startMask.getLsbD j = decide (a % w ≤ j) := by
  simp only [getStartEndMask, BitVec.getLsbD_shiftLeft, BitVec.getLsbD_allOnes]
  grind

theorem getLsbD_lowMask {k j : Nat} (small : k < 64) : ((1#64 <<< k) - 1).getLsbD j = decide (j < k) := by
  have pow : 2 ^ k < 2 ^ 64 := Nat.pow_lt_pow_right (by decide) small
  have positive : 0 < 2 ^ k := Nat.two_pow_pos k
  have value : ((1#64 <<< k) - 1).toNat = 2 ^ k - 1 := by
    rw [BitVec.toNat_sub]
    simp only [BitVec.toNat_shiftLeft, BitVec.ofNat_eq_ofNat, BitVec.toNat_ofNat, shiftLeft_eq]
    omega
  rw [← BitVec.testBit_toNat, value, testBit_two_pow_sub_one]

theorem getLsbD_endMask (narrow : w ≤ 64) {a b j : Nat} (inWord : j < w) :
    (getStartEndMask w a b).endMask.getLsbD j = decide (j < b % w) := by
  have small : b % w < w := mod_lt b (zero_lt_of_lt inWord)
  rw [getStartEndMask, BitVec.getLsbD_setWidth, getLsbD_lowMask (by omega)]
  simp [inWord]

end Positions

/-! ### Writing -/

section Update

variable {masked : BitVec w → Nat → BitVec w → BitVec w} {whole : Nat → BitVec w → BitVec w}

theorem foldl_setWord (whole : Nat → BitVec w → BitVec w) (lo n : Nat) (vector : ObBitVectorImpl w) (i : Nat) :
    (range' lo n).foldl (fun vector i => vector.setWord i (whole i (vector i))) vector i =
      if lo ≤ i ∧ i < lo + n then whole i (vector i) else vector i := by
  induction n generalizing lo vector with
  | zero => simp [show ¬ (lo ≤ i ∧ i < lo) by omega]
  | succ n ih =>
    rw [range'_succ, foldl_cons, ih]
    grind [setWord]

def Masks (masked : BitVec w → Nat → BitVec w → BitVec w) (whole : Nat → BitVec w → BitVec w) : Prop :=
  ∀ mask i word j, j < w → (masked mask i word).getLsbD j =
    if mask.getLsbD j then (whole i word).getLsbD j else word.getLsbD j

theorem updateRange_word (masked : BitVec w → Nat → BitVec w → BitVec w)
    (whole : Nat → BitVec w → BitVec w) (vector : ObBitVectorImpl w) {mask : StartEndMask w}
    (le : mask.startCnt ≤ mask.endCnt) (i : Nat) :
    updateRange masked whole vector mask i =
      if i = mask.startCnt then
        masked (if mask.startCnt = mask.endCnt then mask.startMask &&& mask.endMask
          else mask.startMask) i (vector i)
      else if i = mask.endCnt then
        if mask.endMask ≠ 0 then masked mask.endMask i (vector i) else vector i
      else if mask.startCnt < i ∧ i < mask.endCnt then whole i (vector i)
      else vector i := by
  have middle := foldl_setWord whole (mask.startCnt + 1) (mask.endCnt - mask.startCnt - 1)
    (vector.setWord mask.startCnt (masked mask.startMask mask.startCnt (vector mask.startCnt)))
  simp only [updateRange, wordsBetween]
  grind [setWord]

/-- Every bit of the range has its new value, every other one its old value. -/
theorem getLsbD_updateRange (narrow : w ≤ 64) (pos : 0 < w) (masks : Masks masked whole)
    (le : start ≤ stop) (vector : ObBitVectorImpl w) (idx : Nat) :
    (updateRange masked whole vector (getStartEndMask w start stop) (idx / w)).getLsbD (idx % w) =
      if start ≤ idx ∧ idx < stop then (whole (idx / w) (vector (idx / w))).getLsbD (idx % w)
      else (vector (idx / w)).getLsbD (idx % w) := by
  have inWord : idx % w < w := mod_lt idx pos
  have startMask := getLsbD_startMask (w := w) (a := start) (b := stop) inWord
  have endMask := getLsbD_endMask (w := w) (a := start) (b := stop) narrow inWord
  have ordered := (le_iff_div_mod w start stop).mp le
  have above := le_iff_div_mod w start idx
  have below := lt_iff_div_mod w idx stop
  have startCnt : (getStartEndMask w start stop).startCnt = start / w := rfl
  have endCnt : (getStartEndMask w start stop).endCnt = stop / w := rfl
  rw [updateRange_word masked whole vector (by rw [startCnt, endCnt]; omega), startCnt, endCnt]
  by_cases first : idx / w = start / w
  · rw [if_pos first, masks _ _ _ _ inWord]
    grind
  by_cases last : idx / w = stop / w
  · rw [if_neg first, if_pos last]
    split
    · rw [masks _ _ _ _ inWord]
      grind
    next none =>
      grind
  · grind

theorem bitAt_updateRange (narrow : w ≤ 64) (pos : 0 < w) (masks : Masks masked whole)
    (le : start ≤ stop) (vector : ObBitVectorImpl w) (idx : Nat) :
    (updateRange masked whole vector (getStartEndMask w start stop)).bitAt idx =
      if start ≤ idx ∧ idx < stop then (whole (idx / w) (vector (idx / w))).getLsbD (idx % w)
      else vector.bitAt idx := by
  rw [bitAt_eq narrow pos, bitAt_eq narrow pos, getLsbD_updateRange narrow pos masks le]

end Update

/-! ### Testing -/

section Test

variable {masked : BitVec w → Nat → Bool} {whole : Nat → Bool} {holds : Nat → Nat → Prop}

/-- The test under a mask is one of the bits of the mask, the other one of all bits. -/
structure Tests (masked : BitVec w → Nat → Bool) (whole : Nat → Bool) (holds : Nat → Nat → Prop) :
    Prop where
  masked : ∀ mask i, masked mask i = true ↔ ∀ j < w, mask.getLsbD j = true → holds i j
  whole : ∀ i, whole i = true ↔ ∀ j < w, holds i j

theorem testRange_iff (narrow : w ≤ 64) (pos : 0 < w) (tests : Tests masked whole holds) (le : start ≤ stop) :
    testRange masked whole (getStartEndMask w start stop) = true ↔
      ∀ idx, start ≤ idx → idx < stop → holds (idx / w) (idx % w) := by
  have ordered := (le_iff_div_mod w start stop).mp le
  have startCnt : (getStartEndMask w start stop).startCnt = start / w := rfl
  have endCnt : (getStartEndMask w start stop).endCnt = stop / w := rfl
  have startMask (j : Nat) (inWord : j < w) := getLsbD_startMask (a := start) (b := stop) inWord
  have endMask (j : Nat) (inWord : j < w) := getLsbD_endMask (a := start) (b := stop) narrow inWord
  rw [forall_range_iff pos, testRange, startCnt, endCnt]
  by_cases same : start / w = stop / w
  · rw [if_pos same, tests.masked]
    grind
  · have between : (getStartEndMask w start stop).wordsBetween.all whole = true ↔
        ∀ i, start / w < i → i < stop / w → ∀ j < w, holds i j := by
      simp only [wordsBetween, all_eq_true, mem_range'_1, tests.whole, startCnt, endCnt]
      grind
    have first := tests.masked (getStartEndMask w start stop).startMask (start / w)
    have last := tests.masked (getStartEndMask w start stop).endMask (stop / w)
    rw [if_neg same]
    split
    · grind
    next none =>
      grind

end Test

/-! ### Counting -/

section Count

theorem toNat_pairs (v : BitVec 64) : (v - (v >>> 1 &&& 0x5555555555555555#64)).toNat = pairs 8 v.toNat := by
  have halves : (v >>> 1 &&& 0x5555555555555555#64).toNat = v.toNat >>> 1 &&& repeated 0x55 8 := rfl
  have less : v.toNat >>> 1 &&& repeated 0x55 8 ≤ v.toNat := by
    refine Nat.le_trans and_le_left ?_
    omega
  rw [BitVec.toNat_sub, halves, pairs]
  omega

theorem nibbles_le (v : Nat) : nibbles 8 v ≤ 0x6666666666666666 := by
  have few (x : Nat) : x &&& repeated 0x33 8 ≤ 0x3333333333333333 := and_le_right
  have low := few v
  have high := few (v >>> 2)
  rw [nibbles]
  omega

theorem toNat_nibbles (v : BitVec 64) : ((v &&& 0x3333333333333333#64) + (v >>> 2 &&& 0x3333333333333333#64)).toNat =
      nibbles 8 v.toNat := by
  have small := nibbles_le v.toNat
  rw [BitVec.toNat_add]
  exact mod_eq_of_lt (Nat.lt_of_le_of_lt small (by decide))

theorem toNat_bytes {v : BitVec 64} (small : v.toNat ≤ 0x6666666666666666) :
    (v + v >>> 4 &&& 0xF0F0F0F0F0F0F0F#64).toNat = bytes 8 v.toNat := by
  have shifted : (v >>> 4).toNat = v.toNat / 16 := by
    rw [BitVec.toNat_ushiftRight, shiftRight_eq_div_pow]
  have sum : (v + v >>> 4).toNat = v.toNat + v.toNat >>> 4 := by
    grind
  rw [BitVec.toNat_and, sum]
  rfl

theorem popcount64_eq (popcnt : Bool) (v : BitVec 64) : popcount64 popcnt v = (range 64).countP v.getLsbD := by
  cases popcnt with
  | true => rfl
  | false =>
    rw [popcount64, if_neg (by simp)]
    split
    · have counted := toNat_nibbles (v - (v >>> 1 &&& 0x5555555555555555#64))
      rw [toNat_pairs] at counted
      have small := nibbles_le (pairs 8 v.toNat)
      rw [← counted] at small
      have summed := toNat_bytes small
      rw [counted, bytes_rounds] at summed
      rw [BitVec.toNat_ushiftRight, BitVec.toNat_mul, summed, shiftRight_eq_div_pow]
      exact sum_bytes v.toNat
    · rename_i zero
      rw [not_not.mp zero]
      decide

theorem popcount64_word (narrow : w ≤ 64) (popcnt : Bool) (vector : ObBitVectorImpl w) {i n : Nat}
    (le : n ≤ w) {v : BitVec 64}
    (bits : ∀ j, v.getLsbD j = (decide (j < n) && (vector i).getLsbD j)) :
    popcount64 popcnt v = (positions vector.bitAt (w * i) (w * i + n)).length := by
  have split : range 64 = range n ++ range' n (64 - n) := by
    rw [range_eq_range', range_eq_range']
    have joined := @List.range'_append_1 0 n (64 - n)
    grind
  have behind : (range' n (64 - n)).countP v.getLsbD = 0 := by
    grind
  rw [popcount64_eq, split, countP_append, behind, positions, Nat.add_sub_cancel_left,
    range'_eq_map_range, ← countP_eq_length_filter, countP_map]
  refine countP_congr fun j member => ?_
  have below : j < n := mem_range.mp member
  rw [Function.comp_apply, bitAt_word narrow vector i (by omega), bits]
  simp [below]

theorem foldl_popcount64 (narrow : w ≤ 64) (popcnt : Bool) (vector : ObBitVectorImpl w) (first n : Nat) (count : Int) :
    (range' first n).foldl (fun (bitCnt : Int) i => bitCnt + popcount64 popcnt ((vector i).setWidth 64)) count =
      count + (positions vector.bitAt (w * first) (w * (first + n))).length := by
  induction n generalizing first count with
  | zero => simp
  | succ n ih =>
    have word := popcount64_word narrow popcnt vector (i := first) (Nat.le_refl w)
      (v := (vector first).setWidth 64) (fun j => by rw [BitVec.getLsbD_setWidth]; grind)
    have next : w * first + w = w * (first + 1) := rfl
    have far : w * (first + 1) ≤ w * (first + (n + 1)) := Nat.mul_le_mul_left w (by omega)
    have near : w * first ≤ w * (first + 1) := Nat.mul_le_mul_left w (by omega)
    rw [range'_succ, foldl_cons, ih, word, next, positions_append vector.bitAt near far,
      length_append, show first + 1 + n = first + (n + 1) by omega]
    omega

theorem accumulateBitCnt_eq (narrow : w ≤ 64) (pos : 0 < w) (popcnt : Bool)
    (vector : ObBitVectorImpl w) (le : start ≤ stop) :
    vector.accumulateBitCnt popcnt start stop = (positions vector.bitAt start stop).length := by
  have lowBits (i : Nat) {n : Nat} (small : n < w) :
      (popcount64 popcnt ((vector i).setWidth 64 &&& ((1#64 <<< n) - 1)) : Int) =
        (positions vector.bitAt (w * i) (w * i + n)).length := by
    rw [popcount64_word narrow popcnt vector (Nat.le_of_lt small)]
    intro j
    rw [BitVec.getLsbD_and, getLsbD_lowMask (by omega), BitVec.getLsbD_setWidth]
    grind
  have words := foldl_popcount64 narrow popcnt vector (start / w) (stop / w - start / w) 0
  have ordered : start / w ≤ stop / w := Nat.div_le_div_right le
  have startSplit : w * (start / w) + start % w = start := div_add_mod start w
  have stopSplit : w * (stop / w) + stop % w = stop := div_add_mod stop w
  have front := lowBits (start / w) (mod_lt start pos)
  have back := lowBits (stop / w) (mod_lt stop pos)
  rw [startSplit] at front
  rw [stopSplit] at back
  have byRange := congrArg length (positions_append vector.bitAt (show w * (start / w) ≤ start by omega) le)
  have byWord := congrArg length (positions_append vector.bitAt (Nat.mul_le_mul_left w ordered)
    (show w * (stop / w) ≤ stop by omega))
  rw [length_append] at byRange byWord
  rw [show start / w + (stop / w - start / w) = stop / w by omega] at words
  simp only [accumulateBitCnt, words, front, back]
  grind

end Count

end IMBridge.Engine.ObBitVectorImpl
