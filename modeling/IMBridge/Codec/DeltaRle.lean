import IMBridge.Codec.BitUtils

/-!
`ObDeltaZigzagRle` and `ObDoubleDeltaZigzagRle` write, for each value that was not expected, the
number of expected values before it and the zigzag code of the difference; they differ in what they
expect. Unrolled and vectorised loops are modelled one element at a time.
-/

namespace IMBridge.Codec

open IMBridge.Lib
open IMBridge.Lib.BitStream

/-- How the differences are made and undone, with what is kept between the elements. -/
structure Transform (w : Nat) where
  State : Type
  init : State
  delta : State → BitVec w → BitVec w × State
  undelta : State → BitVec w → BitVec w × State
  repeatOne : State → BitVec w × State

def Transform.single (w : Nat) : Transform w where
  State := BitVec w
  init := 0
  delta start value := (value - start, value)
  undelta start delta := (start + delta, start + delta)
  repeatOne start := (start, start)

def Transform.double (w : Nat) : Transform w where
  State := BitVec w × BitVec w
  init := (0, 0)
  delta := fun (start, pd) value => (value - start - pd, (value, value - start))
  undelta := fun (start, pd) delta => (start + (pd + delta), (start + (pd + delta), pd + delta))
  repeatOne := fun (start, pd) => (start + pd, (start + pd, pd))

namespace DeltaRle

def baseRepeatCnt : Nat := 18

def putRepeats : Nat → Writer → Writer
  | 0, s => s
  | r + 1, s => putRepeats r (s.put32 1 1).eSlide

def putRepeatCnt (s : Writer) (r : Nat) : Writer :=
  if baseRepeatCnt < r then
    let r := r - baseRepeatCnt
    let b := byteCount r
    ((s.put32 (4 + 3 + 3) ((b - 1) <<< (4 + 3))).put64 (b <<< 3) r).eSlide
  else putRepeats r s

/-- The zigzag code `delta`. Zero is only met at the end and is not written. -/
def putDelta (t : UIntT) (s : Writer) (delta : Nat) : Writer := (if delta = 0 then s
  else if delta < 1 <<< (t.N2 - 1) then s.put32 (t.N2 + 2) (delta <<< 2 ||| 2)
  else if delta < 1 <<< (t.N3 - 1) then s.put32 (t.N3 + 3) (delta <<< 3 ||| 4)
  else if delta < 1 <<< (t.N4 - 1) then s.put32 (t.N4 + 4) (delta <<< 4 ||| 8)
  else
    let b := byteCount delta
    (s.put32 (4 + 3) ((b - 1) <<< 4)).put t (b <<< 3) delta).eSlide

def maxEncodedSize (t : UIntT) : Nat := 8 + 2 + t.size + 1 + 8

/-- `encode_delta_and_repeat_cnt` for `r = ip - pp`, which leaves the zigzag code in `delta`. -/
def encodeDeltaAndRepeatCnt (t : UIntT) (outLen : Nat) (s : Writer) (r : Nat)
    (delta : BitVec t.bits) : Except Err (Writer × BitVec t.bits) :=
  if remaining outLen s.op < maxEncodedSize t then .error .bufNotEnough
  else
    let delta := ZigZag.encode delta
    .ok (putDelta t (putRepeatCnt s r) delta.toNat, delta)

variable {t : UIntT} (tr : Transform t.bits)

/-- What the encoder keeps from one element to the next, with the number `r` of elements since the
last difference. -/
structure EncodeState where
  state : tr.State
  r : Nat
  delta : BitVec t.bits
  s : Writer

def encodeOne (outLen : Nat) (st : EncodeState tr) (value : BitVec t.bits) :
    Except Err (EncodeState tr) :=
  let next := tr.delta st.state value
  if next.1 = 0 then .ok ⟨next.2, st.r + 1, next.1, st.s⟩
  else
    match encodeDeltaAndRepeatCnt t outLen st.s st.r next.1 with
    | .error err => .error err
    | .ok written => .ok ⟨next.2, 0, written.2, written.1⟩

def encode (values : List (BitVec t.bits)) (out : Nat → UInt8) (outLen outPos : Nat) :
    Except Err ((Nat → UInt8) × Nat) :=
  match values.foldlM (encodeOne tr outLen) ⟨tr.init, 0, 0, ⟨0, 0, outPos, out⟩⟩ with
  | .error err => .error err
  | .ok st =>
    if 0 < st.r then
      match encodeDeltaAndRepeatCnt t outLen st.s st.r st.delta with
      | .error err => .error err
      | .ok written => written.1.flush outLen
    else st.s.flush outLen

inductive Token where
  | delta (value : Nat)
  | repeatCnt (r : Nat)

def decodeToken (t : UIntT) (bytes : List UInt8) (s : Reader) : Except Err (Token × Reader) :=
  let delta := s.rsBw % 2 ^ t.deltaBits
  if 0 < delta &&& 1 then .ok (.delta 0, s.rMv (0 + 1))
  else if 0 < delta &&& 2 then
    .ok (.delta (bzhi32 (delta >>> 2 % 2 ^ 32) t.N2), s.rMv (t.N2 + 2))
  else if 0 < delta &&& 4 then
    .ok (.delta (bzhi32 (delta >>> 3 % 2 ^ 32) t.N3), s.rMv (t.N3 + 3))
  else if 0 < delta &&& 8 then
    .ok (.delta (bzhi32 (delta >>> 4 % 2 ^ 32) t.N4), s.rMv (t.N4 + 4))
  else
    let head := s.get32 (4 + 3)
    let b := head.1 >>> 4
    if b ≤ 1 then
      if b = 1 then .error .errUnexpected
      else
        let count := head.2.get32 3
        let run := Reader.get .uint32 bytes count.2 ((count.1 + 1) <<< 3)
        .ok (.repeatCnt run.1, run.2.dSlide bytes)
    else
      let long := Reader.get t bytes head.2 ((b + 1) <<< 3)
      .ok (.delta (long.1 % 2 ^ t.deltaBits), long.2)

def repeated : Nat → tr.State → List (BitVec t.bits) × tr.State
  | 0, state => ([], state)
  | r + 1, state =>
    let next := tr.repeatOne state
    let later := repeated r next.2
    (next.1 :: later.1, later.2)

theorem length_repeated (r : Nat) (state : tr.State) : (repeated tr r state).1.length = r := by
  induction r generalizing state with
  | zero => rfl
  | succ r ih => simp [repeated, ih]

def decodeLoop (bytes : List UInt8) (uintCount : Nat) (out : List (BitVec t.bits))
    (state : tr.State) (s : Reader) : Except Err (List (BitVec t.bits) × Reader) :=
  if out.length < uintCount then
    match decodeToken t bytes s with
    | .error err => .error err
    | .ok (.delta delta, s) =>
      let next := tr.undelta state (ZigZag.decode (BitVec.ofNat t.bits delta))
      decodeLoop bytes uintCount (out ++ [next.1]) next.2 (s.dSlide bytes)
    | .ok (.repeatCnt r, s) =>
      let run := repeated tr (r + baseRepeatCnt) state
      decodeLoop bytes uintCount (out ++ run.1) run.2 s
  else .ok (out, s)
termination_by uintCount - out.length
decreasing_by
  · simp only [List.length_append, List.length_singleton]
    omega
  · rw [List.length_append, length_repeated, baseRepeatCnt]
    omega

def decode (bytes : List UInt8) (pos uintCount : Nat) : Except Err (List (BitVec t.bits) × Nat) :=
  match decodeLoop tr bytes uintCount [] tr.init ((⟨0, 0, pos⟩ : Reader).dSlide bytes) with
  | .error err => .error err
  | .ok (out, s) => .ok (out, s.align)

end DeltaRle

def ObDeltaZigzagRle.encode (t : UIntT) := DeltaRle.encode (Transform.single t.bits)

def ObDeltaZigzagRle.decode (t : UIntT) := DeltaRle.decode (Transform.single t.bits)

def ObDoubleDeltaZigzagRle.encode (t : UIntT) := DeltaRle.encode (Transform.double t.bits)

def ObDoubleDeltaZigzagRle.decode (t : UIntT) := DeltaRle.decode (Transform.double t.bits)

end IMBridge.Codec
