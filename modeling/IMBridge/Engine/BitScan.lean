import IMBridge.Engine.BitRanges

/-!
`foreach` and `flip_foreach` scan the ones of a range, chunk by chunk of 16 bits in a word and word
by word in the range.
-/

namespace IMBridge.Engine.ObBitVectorImpl

open IMBridge.Lib.Scan List BitVec Nat

variable {w : Nat} {S : Type} {op : Nat → S → Int × S}

/-! ### A chunk -/

section Chunk

theorem ctz_spec {value : BitVec 16} (some : value ≠ 0) :
    ctz value < 16 ∧ value.getLsbD (ctz value) = true ∧ ∀ j < ctz value, value.getLsbD j = false := by
  cases found : (range 16).find? value.getLsbD with
  | none =>
    rw [find?_eq_none] at found
    refine absurd (eq_of_getLsbD_eq fun i inRange => ?_) some
    grind
  | some first =>
    have eq : ctz value = first := by simp [ctz, found]
    rw [find?_range_eq_some] at found
    grind

theorem getLsbD_and_sub_one {value : BitVec 16} (some : value ≠ 0) (j : Nat) :
    (value &&& (value - 1)).getLsbD j = (decide (ctz value < j) && value.getLsbD j) := by
  obtain ⟨-, lowest, before⟩ := ctz_spec some
  have positive : 0 < value.toNat := Nat.pos_of_ne_zero fun zero => some (eq_of_toNat_eq (by simpa using zero))
  have pred : (value - 1).toNat = value.toNat - 1 := by
    have bound := value.isLt
    grind
  rw [← testBit_toNat, toNat_and, pred, ← testBit_toNat]
  exact testBit_and_sub_one lowest before

def wordPositions (word : BitVec w) (step n : Nat) : List Nat :=
  positions (fun k => word.getLsbD (k - step)) step (step + n)

theorem wordPositions_zero (step n : Nat) : wordPositions (0 : BitVec w) step n = [] :=
  positions_eq_nil fun _ _ _ => by simp

theorem wordPositions_chunk {value : BitVec 16} (some : value ≠ 0) (step : Nat) : wordPositions value step 16 =
      (ctz value + step) :: wordPositions (value &&& (value - 1)) step 16 := by
  obtain ⟨inChunk, lowest, before⟩ := ctz_spec some
  have rest : wordPositions (value &&& (value - 1)) step 16 =
      positions (fun k => value.getLsbD (k - step)) (ctz value + step + 1) (step + 16) := by
    refine positions_narrow (by omega) (by omega) (Nat.le_refl _) fun k ge lt => ?_
    rw [getLsbD_and_sub_one some, decide_eq_true lt, Bool.and_true]
    congr 1
    rw [decide_eq_decide]
    omega
  rw [rest]
  refine positions_cons (by omega) (by omega) ?_ fun j ge less => before (j - step) (by omega)
  rwa [Nat.add_sub_cancel]

theorem chunkLoop_eq {value : BitVec 16} (some : value ≠ 0) (step : Nat) (state : S) :
    chunkLoop op value step state = runUntil op (wordPositions value step 16) state := by
  induction value, state using chunkLoop.induct op step with
  | case1 value state called rest more ih =>
    rw [chunkLoop, if_pos more, wordPositions_chunk some, runUntil, if_pos more.2]
    exact ih more.1
  | case2 value state called rest stops =>
    rw [chunkLoop, if_neg stops, wordPositions_chunk some]
    grind [runUntil, wordPositions_zero]

end Chunk

/-! ### A word -/

section Word

variable (word : BitVec w)

theorem chunk_eq (step : Nat) (state : S) :
    (if word.setWidth 16 = 0xFFFF#16 then runUntil op (range' step stepSize) state
      else if word.setWidth 16 ≠ 0 then chunkLoop op (word.setWidth 16) step state
      else (0, state)) = runUntil op (wordPositions word step 16) state := by
  have low : wordPositions word step 16 = wordPositions (word.setWidth 16) step 16 := by
    refine positions_congr fun k ge lt => ?_
    grind
  rw [low]
  split
  · rename_i full
    rw [full, wordPositions, positions_eq_range', Nat.add_sub_cancel_left]
    · rfl
    · intro k ge lt
      have ones : ∀ j < 16, (0xFFFF#16).getLsbD j = true := by decide
      exact ones (k - step) (by omega)
  · split
    · rename_i some
      exact chunkLoop_eq some step state
    rename_i none
    rw [not_not.mp none, wordPositions_zero]
    rfl

theorem getLsbD_shiftRight (j : Nat) : (word >>> stepSize).getLsbD j = word.getLsbD (16 + j) :=
  getLsbD_ushiftRight word stepSize j

/-- The lowest chunk comes first, if the word has no ones from bit `n` on. -/
theorem wordPositions_split {n : Nat} {word : BitVec w} (bound : ∀ j, n ≤ j → word.getLsbD j = false) (step : Nat) :
    wordPositions word step n = wordPositions word step 16 ++ wordPositions (word >>> stepSize) (step + 16) n := by
  have longer : wordPositions word step (16 + n) = wordPositions word step n :=
    positions_narrow (Nat.le_refl _) (by omega) (by omega) (by grind)
  have upper : wordPositions (word >>> stepSize) (step + 16) n =
      positions (fun k => word.getLsbD (k - step)) (step + 16) (step + (16 + n)) := by
    rw [wordPositions, Nat.add_assoc]
    refine positions_congr fun k ge lt => ?_
    rw [getLsbD_shiftRight, show 16 + (k - (step + 16)) = k - step by omega]
  rw [← longer, upper]
  exact positions_append _ (by omega) (by omega)

theorem wordLoop_eq {n : Nat} (bound : ∀ j, n ≤ j → word.getLsbD j = false) (step : Nat) (state : S) :
    wordLoop op word step state = runUntil op (wordPositions word step n) state := by
  induction size : word.toNat using Nat.strongRecOn generalizing word step state with
  | ind size' ih =>
    rw [wordLoop, wordPositions_split bound, runUntil_append]
    simp only [chunk_eq]
    by_cases last : word >>> stepSize = 0
    · rw [last, wordPositions_zero]
      grind [runUntil]
    · have rest := ih _ (size ▸ toNat_shiftRight_lt last) _
        (fun j ge => by rw [getLsbD_shiftRight]; exact bound _ (by omega)) (step + 16)
        (runUntil op (wordPositions word step 16) state).2 rfl
      grind [stepSize]

/-- The result of scanning the positions of a list; if it succeeds, the next word is at `step`. -/
structure Scans (op : Nat → S → Int × S) (list : List Nat) (state : S) (step : Nat)
    (result : Foreach S) : Prop where
  ret : result.ret = (runUntil op list state).1
  state : result.state = (runUntil op list state).2
  step : result.ret = 0 → result.step = step

theorem innerForeachOneWord_scans (op : Nat → S → Int × S) (word : BitVec w) (step : Nat) (state : S) :
    Scans op (wordPositions word step w) state (step + w) (innerForeachOneWord op word step state) := by
  have scanned : (if word ≠ 0 then wordLoop op word step state else (0, state)) =
      runUntil op (wordPositions word step w) state := by
    split
    · exact wordLoop_eq word (fun j ge => getLsbD_of_ge word j ge) step state
    rename_i none
    rw [not_not.mp none, wordPositions_zero]
    rfl
  exact ⟨congrArg Prod.fst scanned, congrArg Prod.snd scanned, fun _ => rfl⟩

theorem Scans.append {first second : List Nat} {state : S} {step next : Nat} {result : Foreach S}
    {more : Foreach S} (scans : Scans op first state step result)
    (continues : result.ret = 0 → Scans op second result.state next more) :
    Scans op (first ++ second) state next (if result.ret = 0 then more else result) := by
  have append := runUntil_append op first second state
  rw [← scans.ret, ← scans.state] at append
  split
  · rename_i succeeded
    have rest := continues succeeded
    rw [if_pos succeeded] at append
    exact ⟨append ▸ rest.ret, append ▸ rest.state, rest.step⟩
  · rename_i failed
    rw [if_neg failed] at append
    exact ⟨append ▸ scans.ret, append ▸ scans.state, fun succeeded => absurd succeeded failed⟩

end Word

/-! ### A range -/

section Range

variable (words : Nat → BitVec w)

def bitOf (k : Nat) : Bool := (words (k / w)).getLsbD (k % w)

variable {words}

theorem bitOf_word (words : Nat → BitVec w) (i : Nat) {k : Nat} (ge : w * i ≤ k) (lt : k < w * i + w) :
    bitOf words k = (words i).getLsbD (k - w * i) := by
  have inWord : k - w * i < w := by omega
  have pos : 0 < w := zero_lt_of_lt inWord
  have eq : k = w * i + (k - w * i) := by omega
  rw [bitOf, eq, mul_add_div pos, mul_add_mod, div_eq_of_lt inWord,
    mod_eq_of_lt inWord, Nat.add_zero, Nat.add_sub_cancel_left]

theorem wordPositions_masked (words : Nat → BitVec w) {i lo hi : Nat} {mask : BitVec w}
    (below : w * i ≤ lo) (ordered : lo ≤ hi) (above : hi ≤ w * i + w)
    (bits : ∀ j < w, mask.getLsbD j = (decide (lo ≤ w * i + j) && decide (w * i + j < hi))) :
    wordPositions (words i &&& mask) (w * i) w = positions (bitOf words) lo hi := by
  refine positions_narrow below ordered above fun k ge lt => ?_
  rw [getLsbD_and, bits _ (by omega), bitOf_word words i ge lt,
    show w * i + (k - w * i) = k by omega, Bool.and_comm]

theorem wordPositions_whole (words : Nat → BitVec w) (i : Nat) :
    wordPositions (words i) (w * i) w = positions (bitOf words) (w * i) (w * i + w) :=
  positions_congr fun _ ge lt => (bitOf_word words i ge lt).symm

theorem wholeWords_scans (op : Nat → S → Int × S) (words : Nat → BitVec w) (first n : Nat) (state : S) :
    Scans op (positions (bitOf words) (w * first) (w * (first + n))) state (w * (first + n))
      (wholeWords op words (range' first n) (w * first) state) := by
  induction n generalizing first state with
  | zero =>
    rw [Nat.add_zero, positions_self]
    exact ⟨rfl, rfl, fun _ => rfl⟩
  | succ n ih =>
    have near : w * first ≤ w * (first + 1) := Nat.mul_le_mul_left w (by omega)
    have far : w * (first + 1) ≤ w * (first + (n + 1)) := Nat.mul_le_mul_left w (by omega)
    have word := innerForeachOneWord_scans op (words first) (w * first) state
    rw [wordPositions_whole] at word
    rw [range'_succ, positions_append (bitOf words) near far]
    refine word.append fun _ => ?_
    rw [show first + (n + 1) = first + 1 + n by omega]
    exact ih (first + 1) _

def scannedWord (isFlip : Bool) (skip : ObBitVectorImpl w) (i : Nat) : BitVec w :=
  if isFlip then ~~~(skip i) else skip i

theorem startMask_ne_zero (pos : 0 < w) (start stop : Nat) : (getStartEndMask w start stop).startMask ≠ 0 := by
  intro zero
  have small : start % w < w := mod_lt start pos
  have bit := getLsbD_startMask (a := start) (b := stop) (show start % w < w from small)
  rw [zero] at bit
  simp at bit

theorem endWord_scans (narrow : w ≤ 64) (pos : 0 < w) {words : Nat → BitVec w} {start stop : Nat}
    {before : List Nat} {state : S} {result : Foreach S}
    (scans : Scans op before state (w * (stop / w)) result) :
    ∃ step, Scans op (before ++ positions (bitOf words) (w * (stop / w)) stop) state step
      (if result.ret = 0 ∧ (getStartEndMask w start stop).endMask ≠ 0 then
        innerForeachOneWord op (words (stop / w) &&& (getStartEndMask w start stop).endMask) result.step result.state
      else result) := by
  have split : w * (stop / w) + stop % w = stop := div_add_mod stop w
  have small : stop % w < w := mod_lt stop pos
  by_cases some : (getStartEndMask w start stop).endMask ≠ 0
  · have lastWord : wordPositions (words (stop / w) &&& (getStartEndMask w start stop).endMask)
        (w * (stop / w)) w = positions (bitOf words) (w * (stop / w)) stop := by
      refine wordPositions_masked _ (Nat.le_refl _) (by omega) (by omega) fun j inWord => ?_
      rw [getLsbD_endMask narrow inWord]
      grind
    simp only [some, ne_eq, not_false_eq_true, and_true]
    refine ⟨w * (stop / w) + w, scans.append fun succeeded => ?_⟩
    rw [scans.step succeeded, ← lastWord]
    exact innerForeachOneWord_scans op ..
  · have aligned : stop % w = 0 := by
      have bit := getLsbD_endMask narrow (a := start) (b := stop) pos
      rw [not_not.mp some] at bit
      simpa using bit
    have whole : positions (bitOf words) (w * (stop / w)) stop = [] := by
      rw [show w * (stop / w) = stop by omega, positions_self]
    grind

/-- The loops over the words scan the ones of the range. -/
theorem innerForeach_scans (op : Nat → S → Int × S) (narrow : w ≤ 64) (pos : 0 < w) (isFlip : Bool) (skip : ObBitVectorImpl w)
    {start stop : Nat} (le : start ≤ stop) (state : S) :
    ∃ step, Scans op (positions (bitOf (scannedWord isFlip skip)) start stop) state step
      (innerForeach op isFlip skip start stop state) := by
  have startSplit : w * (start / w) + start % w = start := div_add_mod start w
  have stopSplit : w * (stop / w) + stop % w = stop := div_add_mod stop w
  have startSmall : start % w < w := mod_lt start pos
  have stopSmall : stop % w < w := mod_lt stop pos
  have ordered : start / w ≤ stop / w := Nat.div_le_div_right le
  have startCnt : (getStartEndMask w start stop).startCnt = start / w := rfl
  have endCnt : (getStartEndMask w start stop).endCnt = stop / w := rfl
  have wordAt (i : Nat) : (if isFlip = true then ~~~(skip i) else skip i) = scannedWord isFlip skip i :=
    rfl
  simp only [innerForeach, startCnt, endCnt, wordAt, if_pos (startMask_ne_zero pos start stop)]
  by_cases same : start / w = stop / w
  · have masked : wordPositions (scannedWord isFlip skip (start / w) &&&
        ((getStartEndMask w start stop).startMask &&& (getStartEndMask w start stop).endMask))
        (w * (start / w)) w = positions (bitOf (scannedWord isFlip skip)) start stop := by
      refine wordPositions_masked _ (by omega) le (by rw [same]; omega) fun j inWord => ?_
      rw [getLsbD_and, getLsbD_startMask inWord, getLsbD_endMask narrow inWord]
      grind
    rw [if_pos same, ← masked]
    exact ⟨_, innerForeachOneWord_scans op ..⟩
  · have next : w * (start / w) + w ≤ w * (stop / w) := Nat.mul_le_mul_left w (show start / w + 1 ≤ stop / w by omega)
    have firstWord : wordPositions (scannedWord isFlip skip (start / w) &&&
        (getStartEndMask w start stop).startMask) (w * (start / w)) w =
        positions (bitOf (scannedWord isFlip skip)) start (w * (start / w) + w) := by
      refine wordPositions_masked _ (by omega) (by omega) (Nat.le_refl _) fun j inWord => ?_
      rw [getLsbD_startMask inWord]
      grind
    have first := innerForeachOneWord_scans op (scannedWord isFlip skip (start / w) &&&
      (getStartEndMask w start stop).startMask) (w * (start / w)) state
    rw [firstWord] at first
    have middle := first.append fun _ => wholeWords_scans op (scannedWord isFlip skip)
      (start / w + 1) (stop / w - start / w - 1) _
    rw [show start / w + 1 + (stop / w - start / w - 1) = stop / w by omega,
      show w * (start / w + 1) = w * (start / w) + w from rfl,
      ← positions_append _ (by omega) next] at middle
    rw [if_neg same, positions_append _ (show start ≤ w * (stop / w) by omega) (by omega)]
    exact endWord_scans narrow pos middle

theorem bitOf_scannedWord (narrow : w ≤ 64) (pos : 0 < w) (isFlip : Bool) (skip : ObBitVectorImpl w)
    (k : Nat) : bitOf (scannedWord isFlip skip) k = (isFlip ^^ skip.bitAt k) := by
  have inWord : k % w < w := mod_lt k pos
  rw [bitOf, bitAt_eq narrow pos]
  cases isFlip with
  | false => simp [scannedWord]
  | true => simp [scannedWord, inWord]

theorem foreach_eq (narrow : w ≤ 64) (pos : 0 < w) (isFlip : Bool) (skip : ObBitVectorImpl w)
    {start stop : Nat} (le : start ≤ stop) (state : S) :
    ((innerForeach op isFlip skip start stop state).ret, (innerForeach op isFlip skip start stop state).state) =
        runUntil op (positions (fun k => isFlip ^^ skip.bitAt k) start stop) state := by
  obtain ⟨_, scans⟩ := innerForeach_scans op narrow pos isFlip skip le state
  have same : positions (fun k => isFlip ^^ skip.bitAt k) start stop =
      positions (bitOf (scannedWord isFlip skip)) start stop :=
    positions_congr fun k _ _ => (bitOf_scannedWord narrow pos isFlip skip k).symm
  rw [same]
  exact Prod.ext scans.ret scans.state

end Range

/-! ### All operations -/

section Exact

def Bitwise (op : BitVec w → BitVec w → BitVec w) (bit : Bool → Bool → Bool) : Prop :=
  ∀ l r j, j < w → (op l r).getLsbD j = bit (l.getLsbD j) (r.getLsbD j)

structure RangeOpsExact (w start stop : Nat) : Prop where
  setAll : ∀ (vector : ObBitVectorImpl w) idx, (vector.setAll start stop).bitAt idx =
    if start ≤ idx ∧ idx < stop then true else vector.bitAt idx
  unsetAll : ∀ (vector : ObBitVectorImpl w) idx, (vector.unsetAll start stop).bitAt idx =
    if start ≤ idx ∧ idx < stop then false else vector.bitAt idx
  deepCopy : ∀ (vector src : ObBitVectorImpl w) idx, (vector.deepCopy src start stop).bitAt idx =
    if start ≤ idx ∧ idx < stop then src.bitAt idx else vector.bitAt idx
  bitOr : ∀ (vector src : ObBitVectorImpl w) idx, (vector.bitOr src start stop).bitAt idx =
    if start ≤ idx ∧ idx < stop then vector.bitAt idx || src.bitAt idx else vector.bitAt idx
  bitNot : ∀ (vector other : ObBitVectorImpl w) idx, (vector.bitNot other start stop).bitAt idx =
    if start ≤ idx ∧ idx < stop then !other.bitAt idx else vector.bitAt idx
  bitCalculate : ∀ (vector l r : ObBitVectorImpl w) op bit, Bitwise op bit → ∀ idx,
    (vector.bitCalculate l r start stop op).bitAt idx =
      if start ≤ idx ∧ idx < stop then bit (l.bitAt idx) (r.bitAt idx) else vector.bitAt idx
  isAllTrue : ∀ vector : ObBitVectorImpl w, vector.isAllTrue start stop = true ↔
    ∀ idx, start ≤ idx → idx < stop → vector.bitAt idx = true
  bitOpZero : ∀ (l r : ObBitVectorImpl w) op bit, Bitwise op bit →
    (bitOpZero l r start stop op = true ↔
      ∀ idx, start ≤ idx → idx < stop → bit (l.bitAt idx) (r.bitAt idx) = false)
  accumulateBitCnt : ∀ popcnt (vector : ObBitVectorImpl w),
    vector.accumulateBitCnt popcnt start stop = (positions vector.bitAt start stop).length
  foreach : ∀ (S : Type) (op : Nat → S → Int × S) (skip : ObBitVectorImpl w) state,
    foreach op skip start stop state = runUntil op (positions skip.bitAt start stop) state
  flipForeach : ∀ (S : Type) (op : Nat → S → Int × S) (skip : ObBitVectorImpl w) state,
    flipForeach op skip start stop state =
      runUntil op (positions (fun k => !skip.bitAt k) start stop) state

/-- An update that writes the bits of `value` under the mask. -/
theorem masks_blend (value : Nat → BitVec w) :
    Masks (fun mask i word => (word &&& ~~~mask) ||| (value i &&& mask)) (fun i _ => value i) := by
  intro mask i word j inWord
  grind

theorem eq_iff_getLsbD {first second : BitVec w} : first = second ↔ ∀ j < w, first.getLsbD j = second.getLsbD j := by
  grind

/-- Every range operation does its pointwise work, for both types of words. -/
theorem rangeOps_exact (word : WordType) {start stop : Nat} (le : start ≤ stop) :
    RangeOpsExact word.bits start stop := by
  have narrow := word.bits_le
  have pos := word.bits_pos
  generalize word.bits = w at narrow pos
  have inWord (idx : Nat) : idx % w < w := mod_lt idx pos
  constructor
  case setAll =>
    intro vector idx
    have masks : Masks (fun mask _ word => word ||| mask) (fun _ _ => allOnes w) := by
      intro mask i word j small
      rw [getLsbD_or, getLsbD_allOnes, decide_eq_true small]
      cases mask.getLsbD j <;> simp
    rw [ObBitVectorImpl.setAll, bitAt_updateRange narrow pos masks le]
    simp [inWord]
  case unsetAll =>
    intro vector idx
    have masks : Masks (fun mask _ word => word &&& ~~~mask) (fun _ _ => (0 : BitVec w)) := by
      intro mask i word j small
      rw [getLsbD_and, getLsbD_not, decide_eq_true small]
      cases mask.getLsbD j <;> simp
    rw [ObBitVectorImpl.unsetAll, bitAt_updateRange narrow pos masks le]
    simp
  case deepCopy =>
    intro vector src idx
    rw [ObBitVectorImpl.deepCopy, bitAt_updateRange narrow pos (masks_blend src) le,
      bitAt_eq narrow pos src]
  case bitOr =>
    intro vector src idx
    have masks : Masks (fun mask i word => word ||| (src i &&& mask)) (fun i word => word ||| src i) := by
      intro mask i word j small
      rw [getLsbD_or, getLsbD_and, getLsbD_or]
      cases mask.getLsbD j <;> simp
    rw [ObBitVectorImpl.bitOr, bitAt_updateRange narrow pos masks le, bitAt_eq narrow pos vector,
      bitAt_eq narrow pos src, getLsbD_or]
  case bitNot =>
    intro vector other idx
    rw [ObBitVectorImpl.bitNot, bitAt_updateRange narrow pos (masks_blend fun i => ~~~(other i)) le,
      bitAt_eq narrow pos other, getLsbD_not, decide_eq_true (inWord idx), Bool.true_and]
  case bitCalculate =>
    intro vector l r op bit bitwise idx
    rw [ObBitVectorImpl.bitCalculate,
      bitAt_updateRange narrow pos (masks_blend fun i => op (l i) (r i)) le,
      bitwise _ _ _ (inWord idx), bitAt_eq narrow pos l, bitAt_eq narrow pos r]
  case isAllTrue =>
    intro vector
    have tests : Tests (fun mask i => vector i &&& mask == mask)
        (fun i => allOnes w == vector i) (fun i j => (vector i).getLsbD j = true) := by
      refine ⟨fun mask i => ?_, fun i => ?_⟩
      · rw [beq_iff_eq, eq_iff_getLsbD]
        refine forall₂_congr fun j small => ?_
        rw [getLsbD_and]
        cases mask.getLsbD j <;> simp
      · rw [beq_iff_eq, eq_iff_getLsbD]
        refine forall₂_congr fun j small => ?_
        rw [getLsbD_allOnes, decide_eq_true small]
        exact eq_comm
    rw [ObBitVectorImpl.isAllTrue, testRange_iff narrow pos tests le]
    simp only [bitAt_eq narrow pos]
  case bitOpZero =>
    intro l r op bit bitwise
    have tests : Tests (fun mask i => op (l i) (r i) &&& mask == 0)
        (fun i => op (l i) (r i) == 0) (fun i j => (op (l i) (r i)).getLsbD j = false) := by
      refine ⟨fun mask i => ?_, fun i => ?_⟩
      · rw [beq_iff_eq, eq_iff_getLsbD]
        refine forall₂_congr fun j small => ?_
        rw [getLsbD_and]
        cases mask.getLsbD j <;> simp
      · rw [beq_iff_eq, eq_iff_getLsbD]
        refine forall₂_congr fun j small => ?_
        simp
    rw [ObBitVectorImpl.bitOpZero, testRange_iff narrow pos tests le]
    simp only [bitAt_eq narrow pos, bitwise _ _ _ (inWord _)]
  case accumulateBitCnt => exact fun popcnt vector => accumulateBitCnt_eq narrow pos popcnt vector le
  case foreach =>
    intro S op skip state
    exact (foreach_eq narrow pos false skip le state).trans (by simp)
  case flipForeach =>
    intro S op skip state
    exact (foreach_eq narrow pos true skip le state).trans (by simp)

/-- A range that starts and ends inside of words. -/
theorem rangeOps_exact_tiny : RangeOpsExact WordType.uint8.bits 5 28 ∧
    (ObBitVectorImpl.setAll (fun _ => 0) 5 28 : ObBitVectorImpl 8) 3 = 0x0F#8 :=
  ⟨rangeOps_exact .uint8 (by decide), by decide⟩

end Exact

end IMBridge.Engine.ObBitVectorImpl
