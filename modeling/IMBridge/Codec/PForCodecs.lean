import IMBridge.Codec.FixedPFor
import IMBridge.Lib.Outcome

/-!
The codecs built on the blocks of `ObSIMDFixedPFor`: with simple bit packing for the rest, and three
that first take differences, as delta, double delta or exclusive or.
-/

namespace IMBridge.Codec

open IMBridge.Lib
open IMBridge.Lib.BitStream

/-- What a decoder leaves behind: the elements that it put into the output and the two positions. -/
structure Decoded (t : UIntT) where
  values : List (BitVec t.bits)
  inPos : Nat
  outPos : Nat

/-- `ObCodec`, with the functions that its subclasses define. An encoder is given the first `out_pos`
bytes of its buffer and returns them with what it appended. -/
structure ObCodec (t : UIntT) where
  blockSize : Nat
  doEncode : List (BitVec t.bits) → (outLen : Nat) → List UInt8 → Except Failure (List UInt8)
  doDecode : List UInt8 → (inLen inPos uintCount outLen outPos : Nat) → Except Failure (Decoded t)

namespace ObCodec

variable {t : UIntT} (codec : ObCodec t)

def encode (values : List (BitVec t.bits)) (outLen : Nat) (out : List UInt8) :
    Except Failure (List UInt8) :=
  if values.length * t.size = 0 ∨ outLen = 0 then .error .invalidArgument
  else do
    let encoded ← codec.doEncode values outLen out
    if outLen < encoded.length then .error .errUnexpected else .ok encoded

def decode (bytes : List UInt8) (inLen inPos uintCount outLen outPos : Nat) :
    Except Failure (Decoded t) :=
  if inLen = 0 ∨ outLen = 0 ∨ uintCount = 0 ∨ inLen < inPos ∨ outLen < outPos ∨
      outLen - outPos < uintCount * t.size ∨ uintCount % codec.blockSize ≠ 0 then
    .error .invalidArgument
  else do
    let decoded ← codec.doDecode bytes inLen inPos uintCount outLen outPos
    if inLen < decoded.inPos ∨ outLen < decoded.outPos ∨
        uintCount * t.size ≠ decoded.outPos - outPos then .error .errUnexpected
    else .ok decoded

def encodeSome (values : List (BitVec t.bits)) (outLen : Nat) (out : List UInt8) :
    Except Failure (List UInt8) :=
  if 0 < values.length then codec.encode values outLen out else .ok out

def decodeSome (bytes : List UInt8) (inLen inPos uintCount outLen outPos : Nat) :
    Except Failure (Decoded t) :=
  if 0 < uintCount then codec.decode bytes inLen inPos uintCount outLen outPos
  else .ok ⟨[], inPos, outPos⟩

end ObCodec

def readFrom {t : UIntT} (reading : Reading (List (BitVec t.bits))) (bytes : List UInt8)
    (inPos outPos : Nat) : Decoded t :=
  let read := reading (bytes.drop inPos)
  ⟨read.1, bytes.length - read.2.length, outPos + read.1.length * t.size⟩

variable (packers : Packers) (t : UIntT)

def ObSIMDFixedPFor.encodeBlocks {t : UIntT} (outLen : Nat) :
    Nat → List (BitVec t.bits) → List UInt8 → Except Failure (List UInt8)
  | 0, _, out => .ok out
  | blocks + 1, values, out => do
    let out ← encodeArray packers (values.take blockSize) outLen out
    encodeBlocks outLen blocks (values.drop blockSize) out

def obSIMDFixedPFor : ObCodec t where
  blockSize := ObSIMDFixedPFor.blockSize
  doEncode values outLen out :=
    ObSIMDFixedPFor.encodeBlocks packers outLen ((values.length + 127) / 128) values out
  doDecode bytes _ inPos uintCount _ outPos :=
    .ok (readFrom (ObSIMDFixedPFor.decodeBlocks packers t ((uintCount + 127) / 128)) bytes inPos outPos)

def obSimpleBitPacking : ObCodec t where
  blockSize := 1
  doEncode values outLen out := ObSimpleBitPacking.encodeArray packers t values outLen 0 out
  doDecode bytes _ inPos uintCount _ outPos :=
    .ok (readFrom (ObSimpleBitPacking.decodeArray packers t uintCount 0) bytes inPos outPos)

/-- `ObCompositeCodec`: the second codec takes what does not fill the blocks of the first. -/
def obCompositeCodec {t : UIntT} (codec1 codec2 : ObCodec t) : ObCodec t where
  blockSize := 1
  doEncode values outLen out := do
    let rounded := values.length / codec1.blockSize * codec1.blockSize
    let out ← codec1.encodeSome (values.take rounded) outLen out
    if rounded < values.length ∧ outLen < out.length then .error .errUnexpected
    else codec2.encodeSome (values.drop rounded) outLen out
  doDecode bytes inLen inPos uintCount outLen outPos := do
    let rounded := uintCount / codec1.blockSize * codec1.blockSize
    let first ← codec1.decodeSome bytes inLen inPos rounded outLen outPos
    let second ← codec2.decodeSome bytes inLen first.inPos (uintCount - rounded) outLen first.outPos
    .ok ⟨first.values ++ second.values, second.inPos, second.outPos⟩

/-- What a codec does to the elements before they are packed, a block or the last part at a time. -/
structure BlockTransform (t : UIntT) where
  State : Type
  init : State
  countBits : Nat
  hasHeader : Bool
  forward : State → List (BitVec t.bits) → UInt8 × List (BitVec t.bits) × State
  backward : State → UInt8 → List (BitVec t.bits) → List (BitVec t.bits) × State

namespace BlockTransform

variable {t} (transform : BlockTransform t)

def encodePart (store : List (BitVec t.bits) → List UInt8 → Except Failure (List UInt8))
    (outLen : Nat) (state : transform.State) (values : List (BitVec t.bits)) (out : List UInt8) :
    Except Failure (List UInt8 × transform.State) := do
  let done := transform.forward state values
  if transform.hasHeader then
    if remaining outLen out.length < 1 then .error .bufNotEnough
    else do
      let out ← store done.2.1 (out ++ [done.1])
      .ok (out, done.2.2)
  else do
    let out ← store done.2.1 out
    .ok (out, done.2.2)

def encodeBlocks (outLen : Nat) : Nat → transform.State → List (BitVec t.bits) → List UInt8 →
    Except Failure (List UInt8 × transform.State)
  | 0, state, _, out => .ok (out, state)
  | blocks + 1, state, values, out => do
    let first ← transform.encodePart (fun part => ObSIMDFixedPFor.encodeArray packers part outLen)
      outLen state (values.take 128) out
    encodeBlocks outLen blocks first.2 (values.drop 128) first.1

def blocks (count : Nat) : Nat := count % 2 ^ transform.countBits / 128

def encode (values : List (BitVec t.bits)) (outLen : Nat) (out : List UInt8) :
    Except Failure (List UInt8) := do
  let blocks := transform.blocks values.length
  let done ← transform.encodeBlocks packers outLen blocks transform.init values out
  let remain := values.length % 128
  if 0 < remain then do
    let last ← transform.encodePart
      (fun part => ObSimpleBitPacking.encodeArray packers t part outLen 0)
      outLen done.2 ((values.drop (128 * blocks)).take remain) done.1
    .ok last.1
  else .ok done.1

def takeHeader : Reading UInt8 :=
  if transform.hasHeader then takeByte else pure 0

def decodeBlocks : Nat → transform.State → Reading (List (BitVec t.bits) × transform.State)
  | 0, state => pure ([], state)
  | blocks + 1, state => do
    let header ← transform.takeHeader
    let part ← ObSIMDFixedPFor.innerDoDecode packers t
    let first := transform.backward state header part
    let later ← decodeBlocks blocks first.2
    pure (first.1 ++ later.1, later.2)

def decode (uintCount : Nat) : Reading (List (BitVec t.bits)) := do
  let done ← transform.decodeBlocks packers (transform.blocks uintCount) transform.init
  let remain := uintCount % 128
  if 0 < remain then do
    let header ← transform.takeHeader
    let part ← ObSimpleBitPacking.decodeArray packers t remain 0
    pure (done.1 ++ (transform.backward done.2 header part).1)
  else pure done.1

def codec : ObCodec t where
  blockSize := 1
  doEncode := transform.encode packers
  doDecode bytes _ inPos uintCount _ outPos :=
    .ok (readFrom (transform.decode packers uintCount) bytes inPos outPos)

end BlockTransform

def mapState {w : Nat} {State : Type} (step : State → BitVec w → BitVec w × State) :
    State → List (BitVec w) → List (BitVec w) × State
  | state, [] => ([], state)
  | state, value :: values =>
    let first := step state value
    let later := mapState step first.2 values
    (first.1 :: later.1, later.2)

namespace ObDeltaZigzagFixedPfor

def encodeOne {w : Nat} (start u : BitVec w) : BitVec w × BitVec w :=
  let delta := u - start
  (ZigZag.encode delta, u)

def decodeOne {w : Nat} (start p : BitVec w) : BitVec w × BitVec w :=
  let u := ZigZag.decode p + start
  (u, u)

end ObDeltaZigzagFixedPfor

namespace ObDoubleDeltaZigzagFixedPfor

def encodeOne {w : Nat} (state : BitVec w × BitVec w) (u : BitVec w) :
    BitVec w × BitVec w × BitVec w :=
  let start := u - state.1
  let dd := start - state.2
  (ZigZag.encode dd, u, start)

def decodeOne {w : Nat} (state : BitVec w × BitVec w) (p : BitVec w) :
    BitVec w × BitVec w × BitVec w :=
  let u := ZigZag.decode p + state.1 + state.2
  (u, u, u - state.1)

end ObDoubleDeltaZigzagFixedPfor

namespace ObXorFixedPforInner

def encodeOne {w : Nat} (start cur : BitVec w) : BitVec w × BitVec w := (cur ^^^ start, cur)

/-- `do_decode_one_batch`, for elements that were shifted by `b`. -/
def decodeOne {w : Nat} (b : Nat) (start value : BitVec w) : BitVec w × BitVec w :=
  let cur := value.reverse >>> b ^^^ start
  (cur, cur)

variable {t} in
/-- The exclusive ors of a part are shifted up as far as all of them allow, and their bits
reversed. -/
def encodePart (start : BitVec t.bits) (values : List (BitVec t.bits)) :
    UInt8 × List (BitVec t.bits) × BitVec t.bits :=
  let xors := mapState encodeOne start values
  let b := t.bits - maxbits2 xors.1
  (UInt8.ofNat b, xors.1.map (fun value : BitVec t.bits => (value <<< b).reverse), xors.2)

end ObXorFixedPforInner

/-- Differences; `BSIZE` and so the mask is a `uint32_t`. -/
def deltaZigzag : BlockTransform t where
  State := BitVec t.bits
  init := 0
  countBits := 32
  hasHeader := false
  forward start values := (0, mapState ObDeltaZigzagFixedPfor.encodeOne start values)
  backward start _ values := mapState ObDeltaZigzagFixedPfor.decodeOne start values

def doubleDeltaZigzag : BlockTransform t where
  State := BitVec t.bits × BitVec t.bits
  init := (0, 0)
  countBits := 32
  hasHeader := false
  forward state values := (0, mapState ObDoubleDeltaZigzagFixedPfor.encodeOne state values)
  backward state _ values := mapState ObDoubleDeltaZigzagFixedPfor.decodeOne state values

def xorShift : BlockTransform t where
  State := BitVec t.bits
  init := 0
  countBits := 64
  hasHeader := true
  forward := ObXorFixedPforInner.encodePart
  backward start b values := mapState (ObXorFixedPforInner.decodeOne b.toNat) start values

def obFixedPForBitPacking : ObCodec t :=
  obCompositeCodec (obSIMDFixedPFor packers t) (obSimpleBitPacking packers t)

def obDeltaZigzagPFor : ObCodec t := (deltaZigzag t).codec packers

def obDoubleDeltaZigzagPFor : ObCodec t := (doubleDeltaZigzag t).codec packers

def obXorFixedPfor : ObCodec t := (xorShift t).codec packers

end IMBridge.Codec
