import Mathlib.Logic.Function.Basic

/-!
The Base64 codec of `ob_base64_encode.cpp`. A `Call` is what is left of a call: `ret`, the bytes it
put to `output` behind the position it started at, and `pos`. Nothing stops a call from writing
behind the end of the buffer except its own tests.
-/

namespace IMBridge.Encode.Base64

abbrev Byte := BitVec 8

def padding : Byte := 61
def newLine : Byte := 10

/-- `A` to `Z`, `a` to `z`, `0` to `9`, `+` and `/` -/
def base64Chars : List Byte := (List.range 26).map (fun k => BitVec.ofNat 8 (65 + k)) ++
    (List.range 26).map (fun k => BitVec.ofNat 8 (97 + k)) ++
    (List.range 10).map (fun k => BitVec.ofNat 8 (48 + k)) ++ [43, 47]

def base64Char (idx : Byte) : Byte := base64Chars.getD idx.toNat 0

/-- `BASE64_VALUES`, filled in by `InitBase64Values`; what is no character of the code keeps the
zero of a static array. -/
def base64Values : Byte → Byte := (List.range 64).foldl
    (fun values n => Function.update values (base64Chars.getD n 0) (BitVec.ofNat 8 n)) (fun _ => 0)

def fromBase64Table : List Int := [-1, -1, -1, -1, -1, -1, -1, -1, -1, -2, -2, -2, -2, -2, -1, -1,
   -1, -1, -1, -1, -1, -1, -1, -1, -1, -1, -1, -1, -1, -1, -1, -1,
   -2, -1, -1, -1, -1, -1, -1, -1, -1, -1, -1, 62, -1, -1, -1, 63,
   52, 53, 54, 55, 56, 57, 58, 59, 60, 61, -1, -1, -1, -1, -1, -1,
   -1, 0, 1, 2, 3, 4, 5, 6, 7, 8, 9, 10, 11, 12, 13, 14,
   15, 16, 17, 18, 19, 20, 21, 22, 23, 24, 25, -1, -1, -1, -1, -1,
   -1, 26, 27, 28, 29, 30, 31, 32, 33, 34, 35, 36, 37, 38, 39, 40,
   41, 42, 43, 44, 45, 46, 47, 48, 49, 50, 51, -1, -1, -1, -1, -1] ++
    List.replicate 32 (-1) ++ -2 :: List.replicate 95 (-1)

def myBase64DecoderSkipSpaces (char : Byte) : Bool :=
  decide (fromBase64Table.getD char.toNat 0 = -2)

/-- `std::isalnum` is that of the C locale. -/
def isBase64Char (char : Byte) : Bool :=
  decide (48 ≤ char ∧ char ≤ 57 ∨ 65 ≤ char ∧ char ≤ 90 ∨ 97 ≤ char ∧ char ≤ 122 ∨
    char = 43 ∨ char = 47)

inductive Failure where
  | bufNotEnough
  | invalidArgument
  /-- A `wrap` from one to three makes the encoder divide by zero. -/
  | divisionByZero
  deriving DecidableEq, Repr

structure Call where
  ret : Option Failure
  written : List Byte
  pos : Nat
  deriving DecidableEq, Repr

def Call.start (pos : Nat) : Call := ⟨none, [], pos⟩

def Call.puts (call : Call) (chars : List Byte) : Call :=
  { call with written := call.written ++ chars, pos := call.pos + chars.length }

def Call.fail (call : Call) (failure : Failure) : Call := { call with ret := some failure }

/-! ### The encoder -/

def outputIdxes (a b c : Byte) : List Byte :=
  [(a &&& 0xfc) >>> 2, ((a &&& 0x03) <<< 4) + ((b &&& 0xf0) >>> 4),
    ((b &&& 0x0f) <<< 2) + ((c &&& 0xc0) >>> 6), c &&& 0x3f]

/-- The rounds of `encode`, with the input from `iter_input` on: what is left of the input is what
no round took. -/
def encodeLoop (inputLen : Nat) (wrap : Int) (i : Nat) : List Byte → Call → Call × List Byte
  | a :: b :: c :: rest, call =>
    let call := call.puts ((outputIdxes a b c).map base64Char)
    if 0 < wrap then
      if wrap / 4 = 0 then (call.fail .divisionByZero, [])
      else if ((i + 1 : Nat) : Int) % (wrap / 4) = 0 ∧ (i + 1) * 3 ≠ inputLen then
        encodeLoop inputLen wrap (i + 1) rest (call.puts [newLine])
      else encodeLoop inputLen wrap (i + 1) rest call
    else encodeLoop inputLen wrap (i + 1) rest call
  | rest, call => (call, rest)

def encodeTail (outputLen : Nat) (call : Call) : List Byte → Call
  | [] => call
  | [a] =>
    if outputLen ≤ call.pos + 3 then call.fail .bufNotEnough
    else call.puts [base64Char ((a &&& 0xfc) >>> 2), base64Char ((a &&& 0x03) <<< 4),
      padding, padding]
  | a :: b :: _ =>
    if outputLen ≤ call.pos + 3 then call.fail .bufNotEnough
    else call.puts [base64Char ((a &&& 0xfc) >>> 2),
      base64Char (((a &&& 0x03) <<< 4) + ((b &&& 0xf0) >>> 4)),
      base64Char ((b &&& 0x0f) <<< 2), padding]

def encode (input : List Byte) (outputLen pos : Nat) (wrap : Int) : Call :=
  -- the last group is looked for also behind a failed test, when no round was made
  if outputLen < pos + input.length / 3 * 4 then
    encodeTail outputLen ((Call.start pos).fail .bufNotEnough) input
  else
    let (call, rest) := encodeLoop input.length wrap 0 input (Call.start pos)
    encodeTail outputLen call rest

/-! ### The decoder -/

/-- `uint8_array_3`, from the characters in `uint8_array_4`. What the array holds behind them only
reaches bytes that are not written. -/
def uint8Array3 (group : List Byte) : List Byte :=
  let value (k : Nat) := base64Values (group.getD k 0)
  [(value 0 <<< 2) + ((value 1 &&& 0x30) >>> 4),
    ((value 1 &&& 0x0f) <<< 4) + ((value 2 &&& 0x3c) >>> 2),
    ((value 2 &&& 0x03) <<< 6) + value 3]

/-- The variables of the first loop of `decode`; `group` are the first `i` characters in
`uint8_array_4`. -/
structure Scan where
  group : List Byte
  skippedSpaces : Nat
  call : Call

def Scan.take (scan : Scan) (char : Byte) : Scan :=
  if scan.group.length + 1 = 4 then
    { scan with group := [], call := scan.call.puts (uint8Array3 (scan.group ++ [char])) }
  else { scan with group := scan.group ++ [char] }

def decodeLoop (skipSpaces : Bool) : List Byte → Scan → Scan × List Byte
  | [], scan => (scan, [])
  | char :: rest, scan =>
    if char = padding then (scan, char :: rest)
    else if isBase64Char char = false then
      if skipSpaces && myBase64DecoderSkipSpaces char then
        decodeLoop skipSpaces rest { scan with skippedSpaces := scan.skippedSpaces + 1 }
      else ({ scan with call := scan.call.fail .invalidArgument }, rest)
    else decodeLoop skipSpaces rest (scan.take char)

/-- The second loop: the number of spaces skipped so far, or nothing when there is a character
other than `=`. -/
def paddingLoop (skipSpaces : Bool) : List Byte → Nat → Option Nat
  | [], skippedSpaces => some skippedSpaces
  | char :: rest, skippedSpaces =>
    if skipSpaces && myBase64DecoderSkipSpaces char then
      paddingLoop skipSpaces rest (skippedSpaces + 1)
    else if char ≠ padding then none
    else paddingLoop skipSpaces rest skippedSpaces

def decodeTail (outputLen : Nat) (skipSpaces : Bool) (group : List Byte) (call : Call) : Call :=
  if 0 < group.length then
    if outputLen ≤ call.pos + group.length - 1 then
      call.fail (if skipSpaces then .invalidArgument else .bufNotEnough)
    else call.puts ((uint8Array3 group).take (group.length - 1))
  else call

def decodeRest (inputLen outputLen : Nat) (skipSpaces : Bool) (scan : Scan) (rest : List Byte) :
    Call :=
  if scan.call.ret ≠ none then scan.call
  else
    match paddingLoop skipSpaces rest scan.skippedSpaces with
    | none => scan.call.fail .invalidArgument
    | some skippedSpaces =>
      let curIdx := inputLen - rest.length
      let curValidLen := curIdx - scan.skippedSpaces
      let validLen := inputLen - skippedSpaces
      if skipSpaces = false ∧ curIdx + 3 ≤ inputLen ∨
          skipSpaces = true ∧ (validLen % 4 ≠ 0 ∨ curValidLen + 3 ≤ validLen) then
        scan.call.fail .invalidArgument
      else decodeTail outputLen skipSpaces scan.group scan.call

def decode (input : List Byte) (outputLen pos : Nat) (skipSpaces : Bool) : Call :=
  if skipSpaces && input.all myBase64DecoderSkipSpaces then Call.start 0
  -- `OB_UNLIKELY(rounds * 3)` is one or zero, and the position is added to that
  else if outputLen < (if input.length / 4 * 3 ≠ 0 then 1 else 0) + pos then
    (Call.start pos).fail .bufNotEnough
  else
    let (scan, rest) := decodeLoop skipSpaces input ⟨[], 0, Call.start pos⟩
    decodeRest input.length outputLen skipSpaces scan rest

end IMBridge.Encode.Base64
