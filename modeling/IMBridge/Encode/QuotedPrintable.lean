import Mathlib.Algebra.Order.Ring.Nat
import IMBridge.Lib.Buffer

/-!
The quoted-printable codec of `ob_quoted_printable_encode.cpp`. Inputs are memories: the decoders
test the byte behind a hex digit, or behind an escape, without asking whether it is still part of
the input. What a call writes is the list of bytes that go to `output` from `pos` on, kept only when
the call succeeds.
-/

namespace IMBridge.Encode.QuotedPrintable

open IMBridge.Lib

abbrev Byte := BitVec 8

def qpEscapeChar : Byte := 61
def qpTab : Byte := 9
def qpSpace : Byte := 32
def qpCr : Byte := 13
def qpLf : Byte := 10
def qpQuestionmark : Byte := 63
def qpUnderline : Byte := 95
def bytePerLine : Nat := 76
def printableStart : Byte := 33
def printableEnd : Byte := 126

def hex : List Byte :=
  [48, 49, 50, 51, 52, 53, 54, 55, 56, 57, 65, 66, 67, 68, 69, 70]

def hexChar (digit : Byte) : Byte :=
  hex.getD digit.toNat 0

def charConvertToHex (input : Byte) : Option Byte :=
  if 48 ≤ input ∧ input ≤ 57 then some (input - 48)
  else if 65 ≤ input ∧ input ≤ 70 then some (input - 65 + 10)
  else none

def isHex (input : Byte) : Bool :=
  decide (48 ≤ input ∧ input ≤ 57 ∨ 65 ≤ input ∧ input ≤ 70)

def isPrintable (input : Byte) (isMimeMode : Bool) : Bool :=
  if isMimeMode = true ∧ (input = qpSpace ∨ input = qpQuestionmark ∨ input = qpUnderline) then false
  else decide
    (printableStart ≤ input ∧ input ≤ printableEnd ∧ input ≠ qpEscapeChar ∨ input = qpSpace)

inductive Failure where
  | bufNotEnough
  | invalidArgument
  /-- The `int` that runs through the input of a decoder overflows. -/
  | overflow
  deriving DecidableEq, Repr

/-! ### The encoder -/

def escaped (char : Byte) : List Byte :=
  [qpEscapeChar, hexChar (char >>> 4), hexChar (char &&& 0xF)]

def softBreak : List Byte :=
  [qpEscapeChar, qpCr, qpLf]

def encodeLoop (lineCount : Nat) : List Byte → List Byte
  | [] => []
  | char :: rest =>
    if char = qpCr ∧ rest.head? = some qpLf then
      qpCr :: qpLf :: encodeLoop lineCount rest.tail
    else if isPrintable char false then
      if bytePerLine - 1 < lineCount + 1 then softBreak ++ char :: encodeLoop 1 rest
      else char :: encodeLoop (lineCount + 1) rest
    else
      if bytePerLine - 1 < lineCount + 3 then softBreak ++ (escaped char ++ encodeLoop 3 rest)
      else escaped char ++ encodeLoop (lineCount + 3) rest
termination_by input => input.length

/-- `encode`, with `room` for `output_len - pos` -/
def encode (input : List Byte) (room : Int) : Except Failure (List Byte) :=
  if room < input.length * 3 + input.length * 3 / 73 * 3 then .error .bufNotEnough
  else .ok (encodeLoop 0 input)

/-! ### The decoders -/

def intMax : Nat := 2 ^ 31 - 1

/-- The loop of `decode` in front of the CR of a soft break. -/
def skipBlanks (input : Nat → Byte) (inputLen i : Nat) : Option Nat :=
  if input i ≠ qpCr then
    if input i ≠ qpTab ∨ input i ≠ qpSpace then none
    else if i + 2 ≤ inputLen then skipBlanks input inputLen (i + 1)
    else none
  else some i
termination_by inputLen - i

def skipBlanksText (input : Nat → Byte) (inputLen i : Nat) : Option Nat :=
  if input i ≠ qpCr ∨ input i ≠ qpLf then
    if input i ≠ qpTab ∨ input i ≠ qpSpace then none
    else if i + 1 ≤ inputLen then skipBlanksText input inputLen (i + 1)
    else none
  else some i
termination_by inputLen - i

inductive Decoder where
  | plain
  | text
  deriving DecidableEq, Repr

def Decoder.skipBreak (input : Nat → Byte) (inputLen i : Nat) : Decoder → Option Nat
  | .plain => do
    let i ← skipBlanks input inputLen i
    if input (i + 1) ≠ qpLf then none else some (i + 2)
  | .text => do
    let i ← skipBlanksText input inputLen i
    let i := if input i = qpCr then i + 1 else i
    if input i ≠ qpLf then none else some (i + 1)

/-- A character that is neither printable nor an escape with something behind it. -/
def Decoder.lone (input : Nat → Byte) (inputLen i : Nat) : Decoder → Option Nat
  | .plain => none
  | .text =>
    if input i = qpEscapeChar ∧ i + 1 = inputLen ∧ input (i + 1) = qpLf then some (i + 2) else none

/-- One iteration of a decoder at `i`: where the next one starts, and what was written. -/
def Decoder.step (decoder : Decoder) (input : Nat → Byte) (inputLen i : Nat) :
    Option (Nat × List Byte) :=
  if isPrintable (input i) false then some (i + 1, [input i])
  else if input i = qpEscapeChar ∧ i + 2 ≤ inputLen then
    if isHex (input (i + 1)) then
      if isHex (input (i + 2)) then do
        let high ← charConvertToHex (input (i + 1))
        let low ← charConvertToHex (input (i + 2))
        some (i + 3, [high <<< 4 ||| low])
      else none
    else (decoder.skipBreak input inputLen (i + 1)).map (·, [])
  else (decoder.lone input inputLen i).map (·, [])

section

variable (input : Nat → Byte) (inputLen i : Nat)

theorem ne_or_ne {a b : Byte} (differ : a ≠ b) (char : Byte) : char ≠ a ∨ char ≠ b := by
  by_contra both
  push Not at both
  exact differ (both.1.symm.trans both.2)

/-- No byte is both a tab and a space, so the loop ends where it starts. -/
theorem skipBlanks_eq : skipBlanks input inputLen i = if input i = qpCr then some i else none := by
  rw [skipBlanks, if_pos (ne_or_ne (by decide) _)]
  split_ifs <;> simp_all

/-- No byte is both a CR and a LF either, so no soft break ever passes. -/
theorem skipBlanksText_eq : skipBlanksText input inputLen i = none := by
  rw [skipBlanksText, if_pos (ne_or_ne (by decide) _), if_pos (ne_or_ne (by decide) _)]

@[simp] theorem skipBreak_plain : Decoder.skipBreak input inputLen i .plain =
      if input i = qpCr ∧ input (i + 1) = qpLf then some (i + 2) else none := by
  rw [Decoder.skipBreak, skipBlanks_eq]
  grind

@[simp] theorem skipBreak_text : Decoder.skipBreak input inputLen i .text = none := by
  rw [Decoder.skipBreak, skipBlanksText_eq]
  rfl

end

variable {input : Nat → Byte} {inputLen i next : Nat} {decoder : Decoder}

theorem skipBreak_advances (skipped : decoder.skipBreak input inputLen i = some next) : i < next := by
  cases decoder with
  | plain =>
    rw [skipBreak_plain] at skipped
    split_ifs at skipped
    cases skipped
    omega
  | text =>
    rw [skipBreak_text] at skipped
    cases skipped

theorem lone_advances (skipped : decoder.lone input inputLen i = some next) : i < next := by
  cases decoder with
  | plain => cases skipped
  | text =>
    rw [Decoder.lone] at skipped
    split_ifs at skipped
    cases skipped
    omega

theorem step_advances {written : List Byte} (stepped : decoder.step input inputLen i = some (next, written)) :
    i < next := by
  unfold Decoder.step at stepped
  split_ifs at stepped with printable escape first second
  · cases stepped
    omega
  · simp only [Option.bind_eq_bind, Option.bind_eq_some_iff, Option.some.injEq, Prod.mk.injEq] at stepped
    obtain ⟨-, -, -, -, same, -⟩ := stepped
    omega
  · obtain ⟨behind, skipped, same⟩ := Option.map_eq_some_iff.mp stepped
    have moved := skipBreak_advances skipped
    cases same
    omega
  · obtain ⟨behind, skipped, same⟩ := Option.map_eq_some_iff.mp stepped
    cases same
    exact lone_advances skipped

/-- The loop of a decoder from `i` on. An iteration that takes the `int` over its largest value
leaves the result undefined, whatever it goes on to do. -/
def Decoder.loop (decoder : Decoder) (input : Nat → Byte) (inputLen i : Nat) :
    Except Failure (List Byte) :=
  if intMax < i then .error .overflow
  else if i < inputLen then
    match _ : decoder.step input inputLen i with
    | none => .error .invalidArgument
    | some (next, written) => (decoder.loop input inputLen next).map (written ++ ·)
  else .ok []
termination_by inputLen - i
decreasing_by
  rename_i stepped
  have moved := step_advances stepped
  omega

def Decoder.run (decoder : Decoder) (input : Nat → Byte) (inputLen : Nat) (room : Int) :
    Except Failure (List Byte) :=
  if room < inputLen then .error .bufNotEnough
  else decoder.loop input inputLen 0

def decode (input : Nat → Byte) (inputLen : Nat) (room : Int) : Except Failure (List Byte) :=
  Decoder.plain.run input inputLen room

def decodeForText (input : Nat → Byte) (inputLen : Nat) (room : Int) :
    Except Failure (List Byte) :=
  Decoder.text.run input inputLen room

end IMBridge.Encode.QuotedPrintable
