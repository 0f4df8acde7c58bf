import IMBridge.Lib.PopCount
import IMBridge.Lib.Scan

/-!
`ObBitVectorImpl`: the bits of an array of words of 8 or 64 bits. The first and the last word of a
range are treated under masks and the words between as a whole.
-/

namespace IMBridge.Engine

open IMBridge.Lib.Scan IMBridge.Lib.PopCount BitVec

inductive WordType where
  | uint8
  | uint64
deriving DecidableEq, Repr

def WordType.bits : WordType → Nat
  | uint8 => 8
  | uint64 => 64

theorem WordType.bits_pos (word : WordType) : 0 < word.bits := by
  cases word <;> decide

theorem WordType.bits_le (word : WordType) : word.bits ≤ 64 := by
  cases word <;> decide

/-- The words `data_`; the memory behind the vector counts as words of it. -/
abbrev ObBitVectorImpl (w : Nat) := Nat → BitVec w

namespace ObBitVectorImpl

variable {w : Nat} (vector : ObBitVectorImpl w)

/-- `at`; the mask `1LU << ..` has 64 bits. -/
def bitAt (idx : Nat) : Bool :=
  (vector (idx / w)).setWidth 64 &&& (1#64 <<< (idx % w)) != 0

structure StartEndMask (w : Nat) where
  startMask : BitVec w
  endMask : BitVec w
  startCnt : Nat
  endCnt : Nat

/-- `get_start_end_mask`; `(1LU << end_remain) - 1` is cut off to the word. -/
def getStartEndMask (w start stop : Nat) : StartEndMask w where
  startMask := allOnes w <<< (start % w)
  endMask := ((1#64 <<< (stop % w)) - 1).setWidth w
  startCnt := start / w
  endCnt := stop / w

def StartEndMask.wordsBetween (mask : StartEndMask w) : List Nat :=
  List.range' (mask.startCnt + 1) (mask.endCnt - mask.startCnt - 1)

/-! ### Operations that write -/

def setWord (i : Nat) (word : BitVec w) : ObBitVectorImpl w :=
  fun j => if j = i then word else vector j

/-- The common shape of the operations that write: `masked mask i word` is the word `i` after an
update under a mask, `whole i word` after one of all its bits. -/
def updateRange (masked : BitVec w → Nat → BitVec w → BitVec w) (whole : Nat → BitVec w → BitVec w)
    (vector : ObBitVectorImpl w) (mask : StartEndMask w) : ObBitVectorImpl w :=
  let apply (mask : BitVec w) (i : Nat) (vector : ObBitVectorImpl w) : ObBitVectorImpl w :=
    vector.setWord i (masked mask i (vector i))
  if mask.startCnt = mask.endCnt then apply (mask.startMask &&& mask.endMask) mask.startCnt vector
  else
    let first := apply mask.startMask mask.startCnt vector
    let middle := mask.wordsBetween.foldl
      (fun vector i => vector.setWord i (whole i (vector i))) first
    if mask.endMask ≠ 0 then apply mask.endMask mask.endCnt middle else middle

def setAll (start stop : Nat) : ObBitVectorImpl w :=
  updateRange (fun mask _ word => word ||| mask) (fun _ _ => allOnes w)
    vector (getStartEndMask w start stop)

def unsetAll (start stop : Nat) : ObBitVectorImpl w :=
  updateRange (fun mask _ word => word &&& ~~~mask) (fun _ _ => 0)
    vector (getStartEndMask w start stop)

def deepCopy (vector src : ObBitVectorImpl w) (start stop : Nat) : ObBitVectorImpl w :=
  updateRange (fun mask i word => (word &&& ~~~mask) ||| (src i &&& mask)) (fun i _ => src i)
    vector (getStartEndMask w start stop)

def bitOr (vector src : ObBitVectorImpl w) (start stop : Nat) : ObBitVectorImpl w :=
  updateRange (fun mask i word => word ||| (src i &&& mask)) (fun i word => word ||| src i)
    vector (getStartEndMask w start stop)

def bitNot (vector other : ObBitVectorImpl w) (start stop : Nat) : ObBitVectorImpl w :=
  updateRange (fun mask i word => (word &&& ~~~mask) ||| (~~~(other i) &&& mask))
    (fun i _ => ~~~(other i)) vector (getStartEndMask w start stop)

def bitCalculate (vector l r : ObBitVectorImpl w) (start stop : Nat)
    (op : BitVec w → BitVec w → BitVec w) : ObBitVectorImpl w :=
  updateRange (fun mask i word => (word &&& ~~~mask) ||| (op (l i) (r i) &&& mask))
    (fun i _ => op (l i) (r i)) vector (getStartEndMask w start stop)

/-! ### Operations that test -/

def testRange (masked : BitVec w → Nat → Bool) (whole : Nat → Bool) (mask : StartEndMask w) : Bool :=
  if mask.startCnt = mask.endCnt then masked (mask.startMask &&& mask.endMask) mask.startCnt
  else
    let passed := masked mask.startMask mask.startCnt && mask.wordsBetween.all whole
    if mask.endMask ≠ 0 then passed && masked mask.endMask mask.endCnt else passed

def isAllTrue (start stop : Nat) : Bool :=
  testRange (fun mask i => vector i &&& mask == mask) (fun i => allOnes w == vector i)
    (getStartEndMask w start stop)

/-- `bit_op_zero(l, r, bound, op)`, for an operator whose result has the type of the words. -/
def bitOpZero (l r : ObBitVectorImpl w) (start stop : Nat) (op : BitVec w → BitVec w → BitVec w) :
    Bool :=
  testRange (fun mask i => op (l i) (r i) &&& mask == 0) (fun i => op (l i) (r i) == 0)
    (getStartEndMask w start stop)

/-! ### Counting -/

def popcount64 (popcnt : Bool) (v : BitVec 64) : Nat :=
  if popcnt then (List.range 64).countP v.getLsbD
  else if v ≠ 0 then
    let v := v - ((v >>> 1) &&& 0x5555555555555555#64)
    let v := (v &&& 0x3333333333333333#64) + ((v >>> 2) &&& 0x3333333333333333#64)
    ((((v + (v >>> 4)) &&& 0xF0F0F0F0F0F0F0F#64) * 0x101010101010101#64) >>> 56).toNat
  else 0

def accumulateBitCnt (popcnt : Bool) (vector : ObBitVectorImpl w) (start stop : Nat) : Int :=
  let first := start / w
  let last := stop / w
  let bitCnt := (List.range' first (last - first)).foldl
    (fun (bitCnt : Int) i => bitCnt + popcount64 popcnt ((vector i).setWidth 64)) 0
  let front := start % w
  let bitCnt := if front > 0 then
      bitCnt - popcount64 popcnt ((vector first).setWidth 64 &&& ((1#64 <<< front) - 1))
    else bitCnt
  let back := stop % w
  if back > 0 then
    bitCnt + popcount64 popcnt ((vector last).setWidth 64 &&& ((1#64 <<< back) - 1))
  else bitCnt

/-! ### Scanning -/

section Foreach

variable {S : Type} (op : Nat → S → Int × S)

def stepSize : Nat := 16

def ctz (value : BitVec 16) : Nat := ((List.range 16).find? value.getLsbD).getD 16

theorem toNat_and_sub_one_lt {value : BitVec 16} (some : value &&& (value - 1) ≠ 0) :
    (value &&& (value - 1)).toNat < value.toNat := by
  have pos : value ≠ 0 := by
    rintro rfl
    exact some (by decide)
  have positive : 1 ≤ value.toNat := Nat.pos_of_ne_zero (fun zero => pos (eq_of_toNat_eq zero))
  have less : (value - 1).toNat = value.toNat - 1 := by
    have bound := value.isLt
    grind
  rw [toNat_and, less]
  exact Nat.lt_of_le_of_lt Nat.and_le_right (by omega)

def chunkLoop (stepVal : BitVec 16) (tmpStep : Nat) (state : S) : Int × S :=
  let called := op (ctz stepVal + tmpStep) state
  let rest := stepVal &&& (stepVal - 1)
  if rest ≠ 0 ∧ called.1 = 0 then chunkLoop rest tmpStep called.2 else called
termination_by stepVal.toNat
decreasing_by
  rename_i more
  exact toNat_and_sub_one_lt more.1

theorem toNat_shiftRight_lt {word : BitVec w} (some : word >>> stepSize ≠ 0) :
    (word >>> stepSize).toNat < word.toNat := by
  have positive : 0 < (word >>> stepSize).toNat :=
    Nat.pos_of_ne_zero (fun zero => some (eq_of_toNat_eq (by simpa using zero)))
  rw [toNat_ushiftRight, Nat.shiftRight_eq_div_pow,
    show 2 ^ stepSize = 65536 from rfl] at positive ⊢
  omega

def wordLoop (word : BitVec w) (tmpStep : Nat) (state : S) : Int × S :=
  let stepVal := word.setWidth 16
  let scanned :=
    if stepVal = 0xFFFF#16 then runUntil op (List.range' tmpStep stepSize) state
    else if stepVal ≠ 0 then chunkLoop op stepVal tmpStep state
    else (0, state)
  let rest := word >>> stepSize
  if rest ≠ 0 ∧ scanned.1 = 0 then wordLoop rest (tmpStep + stepSize) scanned.2 else scanned
termination_by word.toNat
decreasing_by
  rename_i more
  exact toNat_shiftRight_lt more.1

/-- The result of a call, the advanced `step` and the state of the operation. -/
structure Foreach (S : Type) where
  ret : Int
  step : Nat
  state : S

def innerForeachOneWord (word : BitVec w) (step : Nat) (state : S) : Foreach S :=
  let scanned := if word ≠ 0 then wordLoop op word step state else (0, state)
  ⟨scanned.1, step + w, scanned.2⟩

def wholeWords (words : Nat → BitVec w) : List Nat → Nat → S → Foreach S
  | [], step, state => ⟨0, step, state⟩
  | i :: rest, step, state =>
    let scanned := innerForeachOneWord op (words i) step state
    if scanned.ret = 0 then wholeWords words rest scanned.step scanned.state else scanned

def innerForeach (isFlip : Bool) (skip : ObBitVectorImpl w) (start stop : Nat) (state : S) : Foreach S :=
  let mask := getStartEndMask w start stop
  let word (i : Nat) : BitVec w := if isFlip then ~~~(skip i) else skip i
  let step := w * mask.startCnt
  if mask.startCnt = mask.endCnt then
    innerForeachOneWord op (word mask.startCnt &&& (mask.startMask &&& mask.endMask)) step state
  else
    let firstWord :=
      if mask.startMask ≠ 0 then word mask.startCnt &&& mask.startMask else word mask.startCnt
    let first := innerForeachOneWord op firstWord step state
    let middle :=
      if first.ret = 0 then wholeWords op word mask.wordsBetween first.step first.state else first
    if middle.ret = 0 ∧ mask.endMask ≠ 0 then
      innerForeachOneWord op (word mask.endCnt &&& mask.endMask) middle.step middle.state
    else middle

def foreach (skip : ObBitVectorImpl w) (start stop : Nat) (state : S) : Int × S :=
  let done := innerForeach op false skip start stop state
  (done.ret, done.state)

def flipForeach (skip : ObBitVectorImpl w) (start stop : Nat) (state : S) : Int × S :=
  let done := innerForeach op true skip start stop state
  (done.ret, done.state)

end Foreach

end ObBitVectorImpl

end IMBridge.Engine
