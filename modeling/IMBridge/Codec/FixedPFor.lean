import IMBridge.Codec.BitPacking
import IMBridge.Lib.PopCount

/-!
`ObSIMDFixedPFor`: a block of 128 elements is packed at `b` bits, and the upper `bx` bits of the
exceptions, which are marked in a bitmap, are packed apart.
-/

namespace IMBridge.Codec

open IMBridge.Lib
open IMBridge.Lib.BitStream

def pad8 (x : Nat) : Nat := (x + 8 - 1) / 8

namespace ObSIMDFixedPFor

def blockSize : Nat := 128

section Encode

variable {t : UIntT} (values : List (BitVec t.bits))

def bitCount (i : Nat) : Nat := values.countP fun value => gccbits value.toNat = i

/-- The loop of `find_most_fit_bx` below `i`: `x` elements have at least `i` bits, and `ml` is the
least length so far, at width `b`. -/
def mostFitLoop (cnt : Nat → Nat) (n bx : Nat) : Nat → Nat → Nat → Nat → Nat
  | 0, _, _, b => b
  | i + 1, x, ml, b =>
    let l := 2 + pad8 n + pad8 (x * (bx - i)) + pad8 (n * i)
    if l < ml then mostFitLoop cnt n bx i (x + cnt i) l i
    else mostFitLoop cnt n bx i (x + cnt i) ml b

/-- `find_most_fit_bx`: the width `b` and the width `bx` of the exceptions. -/
def findMostFitBx : Nat × Nat :=
  let n := values.length
  let bx := maxbits2 values
  let b := mostFitLoop (bitCount values) n bx bx (bitCount values bx) (pad8 (n * bx) + 1) bx
  (b, bx - b)

def mask (t : UIntT) (b : Nat) : BitVec t.bits := BitVec.ofNat t.bits (2 ^ b - 1)

def misses (b : Nat) : List Nat :=
  (List.range values.length).filter fun i => mask t b < values.getD i 0

def xmap (miss : List Nat) : Nat → Nat := miss.foldl (fun words c => Function.update words (c >>> 6)
    (words (c >>> 6) ||| 1 <<< (c &&& 0x3f))) fun _ => 0

variable (packers : Packers)

def innerBitPacking (values : List (BitVec t.bits)) (bit : Nat) : List UInt8 :=
  if (t = .uint32 ∨ t = .uint16) ∧ packers.avx2 = true then
    packers.uSIMDFastpackwithoutmask128 t bit values
  else scalarBitPacking packers t values bit

def innerDoEncode (values : List (BitVec t.bits)) (b bx : Nat) : List UInt8 :=
  if bx = 0 then innerBitPacking packers values b
  else
    let miss := misses values b
    let inx := miss.map fun c => values.getD c 0 >>> b
    let words := (List.range ((values.length + 63) / 64)).flatMap fun i => leBytes 8 (xmap miss i)
    words.take (pad8 values.length) ++ scalarBitPacking packers t inx bx ++
      innerBitPacking packers (values.map (· &&& mask t b)) b

def storeBxAndB (t : UIntT) (b bx : Nat) : Except Failure (List UInt8) :=
  if bx = 0 then .ok [UInt8.ofNat b]
  else if bx ≤ t.bits then .ok [UInt8.ofNat (0x80 ||| b), UInt8.ofNat bx]
  else .error .errUnexpected

def encodeArray (values : List (BitVec t.bits)) (outLen : Nat)
    (out : List UInt8) : Except Failure (List UInt8) :=
  if remaining outLen out.length < 2 + values.length * t.size + 8 then .error .bufNotEnough
  else
    let fit := findMostFitBx values
    match storeBxAndB t fit.1 fit.2 with
    | .error failure => .error failure
    | .ok header => .ok (out ++ header ++ innerDoEncode packers values fit.1 fit.2)

end Encode

section Decode

variable (packers : Packers) (t : UIntT)

def innerBitUnpacking (bit : Nat) : Reading (List (BitVec t.bits)) :=
  if (t = .uint32 ∨ t = .uint16) ∧ packers.avx2 = true then do
    let text ← takeBytes (blockSize * bit / 8)
    pure (packers.uSIMDFastunpack128 t bit text)
  else scalarBitUnpacking packers t blockSize bit

def popcnt64 (x : Nat) : Nat := PopCount.ones 64 x

variable {t} in
/-- One of the two loops that patch the exceptions: the elements from number `i` of the word on, and
the exceptions that are left. -/
def patch (xbitmap b : Nat) : Nat → List (BitVec t.bits) → List (BitVec t.bits) →
    List (BitVec t.bits) × List (BitVec t.bits)
  | _, [], ex => ([], ex)
  | i, value :: values, ex =>
    if xbitmap.testBit i then
      let later := patch xbitmap b (i + 1) values ex.tail
      ((value ||| ex.headD 0 <<< b) :: later.1, later.2)
    else
      let later := patch xbitmap b (i + 1) values ex
      (value :: later.1, later.2)

def innerDoDecode : Reading (List (BitVec t.bits)) := do
  let head ← takeByte
  if charBits head &&& 0x80 = 0 then innerBitUnpacking packers t (charBits head)
  else do
    let b := charBits head &&& (0x80 - 1)
    let bx ← takeByte
    let word1 ← takeBytes 8
    let word2 ← takeBytes 8
    let xbitmap1 := leNat word1
    let xbitmap2 := leNat word2
    let ex ← scalarBitUnpacking packers t (popcnt64 xbitmap1 + popcnt64 xbitmap2) (charBits bx)
    let values ← innerBitUnpacking packers t b
    let first := patch xbitmap1 b 0 (values.take 64) ex
    let second := patch xbitmap2 b 0 (values.drop 64) first.2
    pure (first.1 ++ second.1)

def decodeBlocks : Nat → Reading (List (BitVec t.bits))
  | 0 => pure []
  | blocks + 1 => do
    let first ← innerDoDecode packers t
    let later ← decodeBlocks blocks
    pure (first ++ later)

end Decode

end ObSIMDFixedPFor

end IMBridge.Codec
