import IMBridge.Lib.ByteOrder
import Mathlib.Data.List.DropRight

/-!
`ObOrderPerservingEncoder`: values of column types written as byte strings whose `memcmp` order is
meant to be the order of the values. Machine words are bit vectors; what `MEMCPY` copies from a
word is its bytes, least significant first.
-/

namespace IMBridge.SortKey

open Lib.ByteOrder

inductive RetCode where
  | bufNotEnough
  | notSupported
  | errUnexpected
deriving DecidableEq

/-- The collations whose keys are made of the bytes of a string, and `invalid` for one that is not
supported. Those with weights, whose keys `sortkey_var_len` writes, are outside the model. -/
inductive ObCollationType where
  | collationFree
  | binary
  | utf8mb4Bin
  | gbkBin
  | gb18030Bin
  | gb180302022Bin
  | invalid
deriving DecidableEq

inductive ObObjType where
  | null | tinyInt | smallInt | mediumInt | int32 | int
  | uTinyInt | uSmallInt | uMediumInt | uInt32 | uInt64
  | float | double | uFloat | uDouble
  | number | uNumber | numberFloat
  | dateTime | timestamp | date | time | year
  | timestampTZ | timestampLTZ | timestampNano
  | intervalYM | intervalDS
  | varchar | char | raw | nVarchar2 | nChar
  | decimalInt
  | other
deriving DecidableEq

/-- `ObNumber`: the byte with the sign in its top bit and the exponent below, and `len_` digits. -/
structure ObNumber where
  se : BitVec 8
  digits : List (BitVec 32)
deriving DecidableEq

/-- `ObOTimestampData`: the microseconds, and of the context the ten bits of `tail_nsec_`. -/
structure ObOTimestampData where
  timeUs : BitVec 64
  tailNsec : BitVec 10
deriving DecidableEq

structure ObIntervalDSValue where
  nsecond : BitVec 64
  fractionalSecond : BitVec 32
deriving DecidableEq

structure ObDecimalInt where
  intBytes : ℕ
  value : BitVec (8 * intBytes)
deriving DecidableEq

def ObObjType.Datum : ObObjType → Type
  | .tinyInt => BitVec 8
  | .smallInt => BitVec 16
  | .date | .mediumInt | .int32 => BitVec 32
  | .intervalYM | .time | .dateTime | .timestamp | .int => BitVec 64
  | .year | .uTinyInt => BitVec 8
  | .uSmallInt => BitVec 16
  | .uMediumInt | .uInt32 => BitVec 32
  | .uInt64 => BitVec 64
  | .float | .uFloat => BitVec 32
  | .double | .uDouble => BitVec 64
  | .number | .uNumber | .numberFloat => ObNumber
  | .timestampTZ | .timestampLTZ | .timestampNano => ObOTimestampData
  | .intervalDS => ObIntervalDSValue
  | .varchar | .char | .raw | .nVarchar2 | .nChar => Bytes
  | .decimalInt => ObDecimalInt
  | .null | .other => Unit

structure ObEncParam where
  csType : ObCollationType
  isAsc : Bool
  isNullable : Bool
  isNullFirst : Bool
  isMemcmp : Bool

/-! Integers. -/

def copySwapped (n : ℕ) (val : BitVec (8 * n)) : Bytes := littleEndian n (swapBytes n val.toNat)

def encodeSigned (n : ℕ) (val : BitVec (8 * n)) : Bytes :=
  copySwapped n (val ^^^ BitVec.intMin (8 * n))

def encodeFromInt8 (val : BitVec 8) : Bytes := [UInt8.ofBitVec (val ^^^ 0x80)]

def encodeFromInt16 (val : BitVec 16) : Bytes := encodeSigned 2 val

variable (val : BitVec 32)

def encodeFromInt32 : Bytes := encodeSigned 4 val

def encodeFromInt (val : BitVec 64) : Bytes := encodeSigned 8 val

def encodeFromUint8 (val : BitVec 8) : Bytes := [UInt8.ofBitVec val]

def encodeFromUint16 (val : BitVec 16) : Bytes := copySwapped 2 val

def encodeFromUint32 : Bytes := copySwapped 4 val

def encodeFromUint (val : BitVec 64) : Bytes := copySwapped 8 val

/-! Floating point, as bits: either zero compares equal to `0.0`. -/

def encodeFromDouble (val : BitVec 64) : Bytes :=
  let valInt := if val.setWidth 63 = 0 then 0 else val
  copySwapped 8 ((valInt ^^^ valInt.sshiftRight 63) ||| (~~~ valInt &&& 0x8000000000000000))

def encodeFromFloat : Bytes :=
  let valInt := if val.setWidth 31 = 0 then 0 else val
  copySwapped 4 ((valInt ^^^ valInt.sshiftRight 31) ||| (~~~ valInt &&& 0x80000000))

/-! Numbers, timestamps, intervals. -/

/-- `static_cast<int32_t>((int64_t)((~se) ^ 0x80) >> 8)`, where `se` is promoted to `int` first. -/
def digitsMask (se : BitVec 8) : BitVec 32 :=
  ((((~~~ (se.signExtend 32)) ^^^ 0x80).signExtend 64).sshiftRight 8).setWidth 32

def encodeFromNumber (val : ObNumber) (maxBufLen toLen : ℕ) : Except RetCode Bytes :=
  if toLen + 1 + val.digits.length * 4 + 2 * 4 > maxBufLen then .error .bufNotEnough
  else
    let mask := digitsMask val.se
    .ok (UInt8.ofBitVec val.se ::
      (val.digits.flatMap fun digit => copySwapped 4 ((digit + 1) ^^^ mask)) ++
        littleEndian 4 mask.toNat)

/-- The tail is a `uint16_t` but goes through `bswap_32`; the assignment keeps the low half. -/
def encodeFromTimestamp (val : ObOTimestampData) : Bytes := encodeSigned 8 val.timeUs ++
    littleEndian 2 (swapBytes 4 val.tailNsec.toNat % 2 ^ 16)

def encodeFromIntervalDs (val : ObIntervalDSValue) : Bytes :=
  encodeSigned 8 val.nsecond ++ encodeSigned 4 val.fractionalSecond

variable (decint : ObDecimalInt)

def ObDecimalInt.item (i : ℕ) : BitVec 64 := decint.value.extractLsb' (64 * i) 64

/-- `encode_from_decint` for a wide type of so many items. -/
def encodeFromWide (itemCount : ℕ) : Bytes := encodeSigned 8 (decint.item (itemCount - 1)) ++
    (List.range (itemCount - 1)).reverse.flatMap fun i => copySwapped 8 (decint.item i)

def encodeFromDecint : Except RetCode Bytes :=
  if decint.intBytes = 4 then .ok (encodeFromInt32 (decint.value.setWidth 32))
  else if decint.intBytes = 8 then .ok (encodeFromInt (decint.value.setWidth 64))
  else if decint.intBytes = 16 then .ok (encodeFromWide decint 2)
  else if decint.intBytes = 32 then .ok (encodeFromWide decint 4)
  else if decint.intBytes = 64 then .ok (encodeFromWide decint 8)
  else .error .errUnexpected

/-! Strings. -/

/-- For `memcmp` comparison: a zero byte is followed by `0x01`, and two zero bytes end the key. -/
def convertUtf8mb4Bin : Bytes → Bytes
  | [] => [0x00, 0x00]
  | byte :: rest =>
    if byte = 0x00 then byte :: 0x01 :: convertUtf8mb4Bin rest else byte :: convertUtf8mb4Bin rest

/-- What stands for a run of `spCnt` spaces before the byte `next`: a mark that says whether the
next byte is above or below a space, and the count, growing or falling to match. -/
def spaceRun (spCnt : BitVec 16) (next : UInt8) : Bytes :=
  let tmp := next.toBitVec.setWidth 16 - 0x20
  if tmp.toInt > 0 then 0x20 :: 0x21 :: copySwapped 2 ((spCnt ^^^ 0xFFFF) ^^^ 0x8000)
  else 0x20 :: 0x19 :: copySwapped 2 ((spCnt ^^^ 0) ^^^ 0x8000)

/-- The loop of `convert_ob_charset_utf8mb4_bin_sp`; inside a run of spaces `run` is `sp_cnt`. The
data do not end in a space, so a run is always followed by another byte. -/
def spaceLoop (run : Option (BitVec 16)) : Bytes → Bytes
  | [] => [0x20, 0x20]
  | byte :: rest =>
    if byte = 0x20 then spaceLoop (some (run.getD 0 + 1)) rest
    else
      (match run with
        | none => []
        | some spCnt => spaceRun spCnt byte) ++ byte :: spaceLoop none rest

def stripSpaces (data : Bytes) : Bytes := data.rdropWhile (· = 0x20)

def convertUtf8mb4BinSp (data : Bytes) : Bytes := spaceLoop none (stripSpaces data)

def ObCollationType.isBin : ObCollationType → Bool
  | .utf8mb4Bin | .gbkBin | .gb18030Bin | .gb180302022Bin => true
  | _ => false

def ObCollationType.isBinary (cs : ObCollationType) : Bool := cs == .collationFree || cs == .binary

def encodeTails (maxBufLen toLen : ℕ) (isMem : Bool) (cs : ObCollationType) (withEmptyStr : Bool) :
    Except RetCode Bytes :=
  if toLen + 8 > maxBufLen then .error .bufNotEnough
  else if cs.isBinary then .ok ((if withEmptyStr then [0x00] else []) ++ [0x00, 0x00])
  else if cs.isBin then
    .ok ((if withEmptyStr then [0x00] else []) ++ if isMem then [0x00, 0x00] else [0x20, 0x20])
  else .error .notSupported

def encodeFromStringVarlen (str : Bytes) (maxBufLen toLen : ℕ) (cs : ObCollationType)
    (isMemcmp : Bool) : Except RetCode Bytes :=
  if toLen + 7 * str.length + 20 > maxBufLen then .error .bufNotEnough
  else if str = [] ∨ str = [0x00] then encodeTails maxBufLen toLen isMemcmp cs (str == [0x00])
  else if cs.isBinary then .ok (convertUtf8mb4Bin str)
  else if cs.isBin then
    .ok (if isMemcmp then convertUtf8mb4Bin str else convertUtf8mb4BinSp str)
  else .error .notSupported

def withRoom (size maxBufLen toLen : ℕ) (bytes : Bytes) : Except RetCode Bytes :=
  if toLen + size > maxBufLen then .error .bufNotEnough else .ok bytes

/-- `make_order_perserving_encode_from_object`: the bytes written behind the first `toLen`. -/
def makeOrderPerservingEncodeFromObject (type : ObObjType) (data : type.Datum)
    (maxBufLen toLen : ℕ) (param : ObEncParam) : Except RetCode Bytes :=
  match type, data with
  | .tinyInt, val => withRoom 1 maxBufLen toLen (encodeFromInt8 val)
  | .smallInt, val => withRoom 2 maxBufLen toLen (encodeFromInt16 val)
  | .date, val | .mediumInt, val | .int32, val =>
    withRoom 4 maxBufLen toLen (encodeFromInt32 val)
  | .intervalYM, val | .time, val | .dateTime, val | .timestamp, val | .int, val =>
    withRoom 8 maxBufLen toLen (encodeFromInt val)
  | .year, val | .uTinyInt, val => withRoom 1 maxBufLen toLen (encodeFromUint8 val)
  | .uSmallInt, val => withRoom 2 maxBufLen toLen (encodeFromUint16 val)
  | .uMediumInt, val | .uInt32, val => withRoom 4 maxBufLen toLen (encodeFromUint32 val)
  | .uInt64, val => withRoom 8 maxBufLen toLen (encodeFromUint val)
  | .float, val | .uFloat, val => withRoom 4 maxBufLen toLen (encodeFromFloat val)
  | .double, val | .uDouble, val => withRoom 8 maxBufLen toLen (encodeFromDouble val)
  | .number, val | .uNumber, val | .numberFloat, val => encodeFromNumber val maxBufLen toLen
  | .timestampTZ, val | .timestampLTZ, val | .timestampNano, val =>
    withRoom (8 + 2) maxBufLen toLen (encodeFromTimestamp val)
  | .intervalDS, val => withRoom (8 + 4) maxBufLen toLen (encodeFromIntervalDs val)
  | .raw, val | .varchar, val | .nVarchar2, val | .nChar, val | .char, val =>
    encodeFromStringVarlen val maxBufLen toLen param.csType param.isMemcmp
  | .decimalInt, val =>
    if toLen + val.intBytes > maxBufLen then .error .bufNotEnough else encodeFromDecint val
  | .null, _ | .other, _ => .error .notSupported

end IMBridge.SortKey
