import IMBridge.Codec.FixedPForBlocks
import IMBridge.Codec.PForCodecs

/-!
The codecs over `ObSIMDFixedPFor` give back what they encoded and end where the encoding ends.
-/

namespace IMBridge.Codec

open IMBridge.Lib ObCodec List Nat BitVec ObSIMDFixedPFor
open IMBridge.Lib.BitStream
open IMBridge.Lib.Outcome

variable {t : UIntT}

/-! ### Codecs in general -/

/-- What an encoder appends, `text`, is decoded to the elements, wherever it stands in the input. -/
def Decodes (decode : List UInt8 → (inLen inPos uintCount outLen outPos : Nat) →
    Except Failure (Decoded t)) (text : List UInt8) (values : List (BitVec t.bits)) : Prop :=
  ∀ (before rest : List UInt8) (inLen outLen outPos : Nat), before.length + text.length ≤ inLen →
    outPos + values.length * t.size ≤ outLen →
    decode (before ++ (text ++ rest)) inLen before.length values.length outLen outPos =
      .ok ⟨values, before.length + text.length, outPos + values.length * t.size⟩

def ObCodec.Lossless (codec : ObCodec t) : Prop :=
  ∀ (values : List (BitVec t.bits)), 0 < values.length → values.length < 2 ^ 32 →
    values.length % codec.blockSize = 0 → ∀ (outLen : Nat) (out encoded : List UInt8),
    codec.doEncode values outLen out = .ok encoded →
    ∃ text, encoded = out ++ text ∧ text ≠ [] ∧ Decodes codec.doDecode text values

variable {values : List (BitVec t.bits)} {outLen w : Nat} {out encoded : List UInt8}

/-- The checks of `encode` and `decode` do not get in the way. -/
theorem ObCodec.Lossless.decodes {codec : ObCodec t} (lossless : codec.Lossless) (some : 0 < values.length)
    (few : values.length < 2 ^ 32) (whole : values.length % codec.blockSize = 0)
    (success : codec.encode values outLen out = .ok encoded) :
    ∃ text, encoded = out ++ text ∧ text ≠ [] ∧ Decodes codec.decode text values := by
  rw [ObCodec.encode] at success
  split at success
  next => cases success
  next =>
    obtain ⟨done, encodes, checked⟩ := bind_eq_ok.mp success
    split at checked
    next => cases checked
    next =>
      cases checked
      obtain ⟨text, appended, filled, decodes⟩ := lossless values some few whole outLen out _ encodes
      refine ⟨text, appended, filled, ?_⟩
      intro before rest inLen outLen outPos enough room
      have pos := length_pos_iff.mpr filled
      rw [ObCodec.decode, if_neg (by omega), decodes before rest inLen outLen outPos enough room, ok_bind]
      dsimp only
      rw [if_neg (by omega)]

theorem readFrom_restores {reading : Reading (List (BitVec t.bits))} {text : List UInt8}
    (restores : Restores reading text values) (before rest : List UInt8) (outPos : Nat) :
    readFrom reading (before ++ (text ++ rest)) before.length outPos =
      ⟨values, before.length + text.length, outPos + values.length * t.size⟩ := by
  rw [readFrom, drop_left, restores rest]
  grind

variable (packers : Packers)

theorem obSimpleBitPacking_lossless : (obSimpleBitPacking packers t).Lossless := by
  intro values some few whole outLen out encoded success
  obtain ⟨text, appended, filled, restores⟩ := ObSimpleBitPacking.restores_encodeArray packers few success
  refine ⟨text, appended, filled, fun before rest inLen outLen outPos _ _ => ?_⟩
  exact congrArg Except.ok (readFrom_restores restores before rest outPos)

theorem ObSIMDFixedPFor.restores_encodeBlocks {blocks : Nat} (length : values.length = 128 * blocks)
    (success : encodeBlocks packers outLen blocks values out = .ok encoded) :
    ∃ text, encoded = out ++ text ∧ blocks ≤ text.length ∧ Restores (decodeBlocks packers t blocks) text values := by
  induction blocks generalizing values out with
  | zero =>
    obtain rfl : values = [] := length_eq_zero_iff.mp (by omega)
    cases success
    exact ⟨[], by simp, Nat.le_refl _, restores_pure []⟩
  | succ blocks ih =>
    obtain ⟨next, first, later⟩ := bind_eq_ok.mp success
    have size : blockSize = 128 := rfl
    obtain ⟨text, rfl, filled, restores, -⟩ := encodeArray_spec packers (by rw [length_take]; omega) first
    obtain ⟨more, rfl, enough, rest⟩ := ih (by rw [length_drop]; omega) later
    have pos := length_pos_iff.mpr filled
    refine ⟨text ++ more, by rw [List.append_assoc], by rw [List.length_append]; omega, ?_⟩
    refine restores.bind (rest.last ?_)
    rw [take_append_drop]
    exact restores_pure values

theorem obSIMDFixedPFor_lossless : (obSIMDFixedPFor packers t).Lossless := by
  intro values some few whole outLen out encoded success
  have whole : values.length % 128 = 0 := whole
  obtain ⟨text, appended, enough, restores⟩ := ObSIMDFixedPFor.restores_encodeBlocks packers (by omega) success
  refine ⟨text, appended, length_pos_iff.mp (by omega), ?_⟩
  intro before rest inLen outLen outPos _ _
  exact congrArg Except.ok (readFrom_restores restores before rest outPos)

theorem ObCodec.Lossless.decodesSome {codec : ObCodec t} (lossless : codec.Lossless) (few : values.length < 2 ^ 32)
    (whole : values.length % codec.blockSize = 0) (success : codec.encodeSome values outLen out = .ok encoded) :
    ∃ text, encoded = out ++ text ∧ (0 < values.length → text ≠ []) ∧ Decodes codec.decodeSome text values := by
  rw [encodeSome] at success
  split at success
  next some =>
    obtain ⟨text, appended, filled, decodes⟩ := lossless.decodes some few whole success
    refine ⟨text, appended, fun _ => filled, ?_⟩
    intro before rest inLen outLen outPos enough room
    rw [decodeSome, if_pos some]
    exact decodes before rest inLen outLen outPos enough room
  next none =>
    obtain rfl : values = [] := length_eq_zero_iff.mp (by omega)
    cases success
    refine ⟨[], by simp, fun some => absurd some none, ?_⟩
    intro before rest inLen outLen outPos enough room
    simp [decodeSome]

theorem obCompositeCodec_lossless {codec1 codec2 : ObCodec t} (first : codec1.Lossless)
    (second : codec2.Lossless) (one : codec2.blockSize = 1) :
    (obCompositeCodec codec1 codec2).Lossless := by
  intro values some few whole outLen out encoded success
  obtain ⟨middle, encodes1, encodes2⟩ := bind_eq_ok.mp success
  generalize roundedEq : values.length / codec1.blockSize * codec1.blockSize = rounded at encodes1 encodes2
  have rounding : rounded ≤ values.length := roundedEq ▸ div_mul_le_self _ _
  have taken : (values.take rounded).length = rounded := by rw [length_take]; omega
  have dropped : (values.drop rounded).length = values.length - rounded := length_drop
  have divides : (values.take rounded).length % codec1.blockSize = 0 := by
    rw [taken, ← roundedEq, mul_mod_left]
  split at encodes2
  next => cases encodes2
  next =>
    obtain ⟨text1, rfl, filled1, decodes1⟩ := first.decodesSome (by omega) divides encodes1
    obtain ⟨text2, rfl, filled2, decodes2⟩ := second.decodesSome (by omega) (by rw [one, mod_one]) encodes2
    refine ⟨text1 ++ text2, by rw [List.append_assoc], ?_, ?_⟩
    · intro empty
      obtain ⟨empty1, empty2⟩ := append_eq_nil_iff.mp empty
      grind
    · intro before rest inLen outLen outPos enough room
      rw [length_append] at enough
      have bytes : values.length * t.size = rounded * t.size + (values.length - rounded) * t.size := by
        rw [← Nat.add_mul, Nat.add_sub_cancel' rounding]
      have step1 := decodes1 before (text2 ++ rest) inLen outLen outPos (by omega) (by rw [taken]; omega)
      have step2 := decodes2 (before ++ text1) rest inLen outLen (outPos + rounded * t.size)
        (by rw [length_append]; omega) (by rw [dropped]; omega)
      simp only [taken, dropped, List.length_append, List.append_assoc] at step1 step2 ⊢
      dsimp only [obCompositeCodec]
      rw [roundedEq, step1, ok_bind, step2, ok_bind, List.take_append_drop, Nat.add_assoc outPos,
        ← bytes, Nat.add_assoc]

/-! ### Transforms -/

/-- A transform can be undone, part by part, and keeps the number of elements. -/
structure BlockTransform.Lawful (transform : BlockTransform t) : Prop where
  wide : 32 ≤ transform.countBits
  length_forward : ∀ state values, (transform.forward state values).2.1.length = values.length
  backward_forward : ∀ state values, transform.backward state
      (if transform.hasHeader then (transform.forward state values).1 else 0)
      (transform.forward state values).2.1 = (values, (transform.forward state values).2.2)

namespace BlockTransform

variable {transform : BlockTransform t}

theorem encodePart_spec {store : List (BitVec t.bits) → List UInt8 → Except Failure (List UInt8)}
    {reading : Reading (List (BitVec t.bits))} {outLen : Nat} {state next : transform.State}
    {values : List (BitVec t.bits)} {out encoded : List UInt8}
    (stores : ∀ out encoded, store (transform.forward state values).2.1 out = .ok encoded →
      ∃ text, encoded = out ++ text ∧ text ≠ [] ∧ Restores reading text (transform.forward state values).2.1)
    (success : transform.encodePart store outLen state values out = .ok (encoded, next)) :
    next = (transform.forward state values).2.2 ∧
      ∃ head text, encoded = out ++ (head ++ text) ∧ text ≠ [] ∧ Restores transform.takeHeader head
          (if transform.hasHeader then (transform.forward state values).1 else 0) ∧
        Restores reading text (transform.forward state values).2.1 := by
  rw [encodePart] at success
  by_cases header : transform.hasHeader = true
  · rw [if_pos header] at success
    split at success
    next => cases success
    next =>
      obtain ⟨done, stored, same⟩ := bind_eq_ok.mp success
      cases same
      obtain ⟨text, rfl, filled, restores⟩ := stores _ _ stored
      refine ⟨rfl, [(transform.forward state values).1], text, by simp, filled, ?_, restores⟩
      rw [takeHeader, if_pos header, if_pos header]
      exact restores_takeByte _
  · rw [if_neg header] at success
    obtain ⟨done, stored, same⟩ := bind_eq_ok.mp success
    cases same
    obtain ⟨text, rfl, filled, restores⟩ := stores _ _ stored
    refine ⟨rfl, [], text, rfl, filled, ?_, restores⟩
    rw [takeHeader, if_neg header, if_neg header]
    exact restores_pure 0

theorem restores_encodeBlocks (lawful : transform.Lawful) {outLen blocks : Nat}
    {state next : transform.State} {values : List (BitVec t.bits)} {out encoded : List UInt8}
    (enough : 128 * blocks ≤ values.length)
    (success : transform.encodeBlocks packers outLen blocks state values out = .ok (encoded, next)) :
    ∃ text, encoded = out ++ text ∧ blocks ≤ text.length ∧ Restores (transform.decodeBlocks packers blocks state) text
        (values.take (128 * blocks), next) := by
  induction blocks generalizing state values out with
  | zero =>
    cases success
    exact ⟨[], by simp, Nat.le_refl _, restores_pure _⟩
  | succ blocks ih =>
    obtain ⟨⟨middle, between⟩, first, later⟩ := bind_eq_ok.mp success
    have length : (transform.forward state (values.take 128)).2.1.length = ObSIMDFixedPFor.blockSize := by
      rw [lawful.length_forward, length_take]
      exact Nat.min_eq_left (by omega)
    obtain ⟨rfl, head, text, rfl, filled, header, restores⟩ := encodePart_spec (fun out encoded stored => by
        obtain ⟨text, appended, filled, restores, -⟩ := ObSIMDFixedPFor.encodeArray_spec packers length stored
        exact ⟨text, appended, filled, restores⟩) first
    obtain ⟨more, rfl, longer, rest⟩ := ih (by rw [length_drop]; omega) later
    have pos := length_pos_iff.mpr filled
    refine ⟨head ++ (text ++ more), by simp only [List.append_assoc],
      by simp only [List.length_append]; omega, ?_⟩
    refine header.bind (restores.bind ?_)
    have undone := lawful.backward_forward state (values.take 128)
    dsimp only
    rw [undone]
    refine rest.last ?_
    rw [Nat.mul_succ, Nat.add_comm, List.take_add]
    exact restores_pure _

/-- The codec around a transform that can be undone gives back what it encoded. -/
theorem Lawful.lossless (lawful : transform.Lawful) : (transform.codec packers).Lossless := by
  intro values some few whole outLen out encoded success
  have count : transform.blocks values.length = values.length / 128 := by
    have wide := Nat.pow_le_pow_right (show 0 < 2 by decide) lawful.wide
    rw [blocks, mod_eq_of_lt (by omega)]
  obtain ⟨⟨middle, between⟩, first, later⟩ := bind_eq_ok.mp success
  rw [count] at first
  obtain ⟨text, rfl, enough, restores⟩ := restores_encodeBlocks packers lawful (by omega) first
  -- what is left of the elements behind the blocks
  have remain : ((values.drop (128 * (values.length / 128))).take (values.length % 128)) =
      values.drop (128 * (values.length / 128)) :=
    take_of_length_le (by rw [length_drop]; omega)
  have rest : (values.drop (128 * (values.length / 128))).length = values.length % 128 := by
    rw [length_drop]
    omega
  suffices ∃ more, encoded = out ++ text ++ more ∧ text ++ more ≠ [] ∧
      Restores (transform.decode packers values.length) (text ++ more) values by
    obtain ⟨more, appended, filled, whole⟩ := this
    refine ⟨text ++ more, by rw [appended, List.append_assoc], filled, ?_⟩
    intro before rest inLen outLen outPos _ _
    exact congrArg Except.ok (readFrom_restores whole before rest outPos)
  unfold decode
  rw [count] at later ⊢
  dsimp only at later
  split at later
  next more =>
    obtain ⟨⟨last, final⟩, stored, same⟩ := bind_eq_ok.mp later
    cases same
    rw [remain] at stored
    have length := lawful.length_forward between (values.drop (128 * (values.length / 128)))
    rw [rest] at length
    obtain ⟨rfl, head, tail, rfl, filled, header, part⟩ := encodePart_spec
      (fun out encoded stored => ObSimpleBitPacking.restores_encodeArray packers (by rw [length]; omega) stored) stored
    rw [length] at part
    refine ⟨head ++ tail, rfl, by simp [filled], restores.bind ?_⟩
    rw [if_pos more]
    refine header.bind (part.last ?_)
    rw [lawful.backward_forward, take_append_drop]
    exact restores_pure values
  next none =>
    cases later
    have all : values.take (128 * (values.length / 128)) = values := take_of_length_le (by omega)
    refine ⟨[], by rw [append_nil], ?_, ?_⟩
    · grind
    · rw [append_nil]
      refine restores.last ?_
      rw [if_neg none, all]
      exact restores_pure values

end BlockTransform

section MapState

variable {w : Nat} {State : Type}

theorem length_mapState (step : State → BitVec w → BitVec w × State) (state : State)
    (values : List (BitVec w)) : (mapState step state values).1.length = values.length := by
  induction values generalizing state with
  | nil => rfl
  | cons value values ih => simp [mapState, ih]

theorem mapState_undo {step undo : State → BitVec w → BitVec w × State}
    (undoes : ∀ state value, undo state (step state value).1 = (value, (step state value).2))
    (state : State) (values : List (BitVec w)) :
    mapState undo state (mapState step state values).1 = (values, (mapState step state values).2) := by
  induction values generalizing state with
  | nil => rfl
  | cons value values ih => simp only [mapState, undoes, ih]

end MapState

theorem ObDeltaZigzagFixedPfor.decodeOne_encodeOne (start u : BitVec w) :
    decodeOne start (encodeOne start u).1 = (u, (encodeOne start u).2) := by
  simp only [encodeOne, decodeOne, ZigZag.decode_encode, BitVec.sub_add_cancel]

theorem deltaZigzag_lawful : (deltaZigzag t).Lawful where
  wide := Nat.le_refl _
  length_forward := length_mapState _
  backward_forward := mapState_undo ObDeltaZigzagFixedPfor.decodeOne_encodeOne

theorem ObDoubleDeltaZigzagFixedPfor.decodeOne_encodeOne (state : BitVec w × BitVec w) (u : BitVec w) :
    decodeOne state (encodeOne state u).1 = (u, (encodeOne state u).2) := by
  have sum : u - state.1 - state.2 + state.1 + state.2 = u := by
    grind
  simp only [encodeOne, decodeOne, ZigZag.decode_encode, sum]

theorem doubleDeltaZigzag_lawful : (doubleDeltaZigzag t).Lawful where
  wide := Nat.le_refl _
  length_forward := length_mapState _
  backward_forward := mapState_undo ObDoubleDeltaZigzagFixedPfor.decodeOne_encodeOne

theorem shiftLeft_shiftRight {b : Nat} {value : BitVec w} (small : value.toNat < 2 ^ (w - b)) (within : b ≤ w) :
    value <<< b >>> b = value := by
  have kept : value.toNat * 2 ^ b < 2 ^ w := by
    have power : 2 ^ w = 2 ^ (w - b) * 2 ^ b := by rw [← Nat.pow_add, Nat.sub_add_cancel within]
    rw [power]
    exact Nat.mul_lt_mul_of_pos_right small (Nat.two_pow_pos b)
  apply eq_of_toNat_eq
  rw [BitVec.toNat_ushiftRight, BitVec.toNat_shiftLeft, Nat.shiftLeft_eq, Nat.mod_eq_of_lt kept,
    Nat.shiftRight_eq_div_pow, Nat.mul_div_cancel _ (Nat.two_pow_pos b)]

namespace ObXorFixedPforInner

theorem mapState_decodeOne {b : Nat} (within : b ≤ t.bits) (start : BitVec t.bits)
    (values : List (BitVec t.bits)) (fits : FitBits (t.bits - b) (mapState encodeOne start values).1) :
    mapState (decodeOne b) start
        ((mapState encodeOne start values).1.map (fun value : BitVec t.bits => (value <<< b).reverse)) =
      (values, (mapState encodeOne start values).2) := by
  induction values generalizing start with
  | nil => rfl
  | cons cur values ih =>
    obtain ⟨first, later⟩ := forall_mem_cons.mp fits
    have first : (cur ^^^ start).toNat < 2 ^ (t.bits - b) := first
    have back : decodeOne b start ((cur ^^^ start) <<< b).reverse = (cur, cur) := by
      rw [decodeOne, reverse_reverse_eq, shiftLeft_shiftRight first within, xor_assoc, BitVec.xor_self, BitVec.xor_zero]
    have rest := ih cur later
    simp only [mapState, encodeOne, map_cons, back] at rest ⊢
    rw [rest]

theorem length_encodePart (start : BitVec t.bits) (values : List (BitVec t.bits)) :
    (encodePart start values).2.1.length = values.length := by
  rw [encodePart, length_map, length_mapState]

theorem decode_encodePart (start : BitVec t.bits) (values : List (BitVec t.bits)) :
    mapState (decodeOne (encodePart start values).1.toNat) start (encodePart start values).2.1 =
      (values, (encodePart start values).2.2) := by
  have width := t.bits_le
  have widest := maxbits2_le (mapState encodeOne start values).1
  have byte : (encodePart start values).1.toNat = t.bits - maxbits2 (mapState encodeOne start values).1 := by
    rw [encodePart, UInt8.toNat_ofNat', mod_eq_of_lt (by omega)]
  have fits := fitBits_maxbits2 (mapState encodeOne start values).1
  rw [byte]
  refine mapState_decodeOne (sub_le _ _) start values ?_
  rwa [Nat.sub_sub_self widest]

end ObXorFixedPforInner

theorem xorShift_lawful : (xorShift t).Lawful where
  wide := show 32 ≤ 64 by decide
  length_forward := ObXorFixedPforInner.length_encodePart
  backward_forward := ObXorFixedPforInner.decode_encodePart

def pforCodecs (t : UIntT) : List (ObCodec t) :=
  [obFixedPForBitPacking packers t, obDeltaZigzagPFor packers t, obDoubleDeltaZigzagPFor packers t,
    obXorFixedPfor packers t]

theorem pforCodecs_lossless : ∀ codec ∈ pforCodecs packers t, codec.blockSize = 1 ∧ codec.Lossless := by
  have composite : (obFixedPForBitPacking packers t).Lossless :=
    obCompositeCodec_lossless (obSIMDFixedPFor_lossless packers) (obSimpleBitPacking_lossless packers)
      rfl
  simpa [pforCodecs] using ⟨⟨rfl, composite⟩, ⟨rfl, deltaZigzag_lawful.lossless packers⟩,
    ⟨rfl, doubleDeltaZigzag_lawful.lossless packers⟩, ⟨rfl, xorShift_lawful.lossless packers⟩⟩

/-- Whatever one of the four codecs encodes, for each element type and with or without the functions
for 128 elements, is decoded to the same elements, and the decoder ends where the encoding ends.
A block is read back at every width that may be chosen for it, and at the one that is chosen it is no
longer than the block packed as it is and one byte. -/
theorem pfor_codecs_lossless (t : UIntT) (codec : ObCodec t) (member : codec ∈ pforCodecs packers t)
    (values : List (BitVec t.bits)) (some : 1 ≤ values.length) (few : values.length < 2 ^ 32)
    (outLen : Nat) (out encoded : List UInt8)
    (success : codec.encode values outLen out = .ok encoded) :
    (∀ (rest : List UInt8) (inLen backLen outPos : Nat), encoded.length ≤ inLen →
      outPos + values.length * t.size ≤ backLen →
      codec.decode (encoded ++ rest) inLen out.length values.length backLen outPos =
        .ok ⟨values, encoded.length, outPos + values.length * t.size⟩) ∧
    ∀ block : List (BitVec t.bits), block.length = 128 → (∀ b ≤ maxbits2 block, ∃ header,
        storeBxAndB t b (maxbits2 block - b) = .ok header ∧
        Restores (innerDoDecode packers t)
          (header ++ innerDoEncode packers block b (maxbits2 block - b)) block) ∧
      ∀ (outLen : Nat) (out encoded : List UInt8),
        encodeArray packers block outLen out = .ok encoded →
        encoded.length ≤ out.length + 1 +
          (innerBitPacking packers block (maxbits2 block)).length := by
  obtain ⟨one, lossless⟩ := pforCodecs_lossless packers codec member
  obtain ⟨text, rfl, -, decodes⟩ := lossless.decodes some few (by rw [one, mod_one]) success
  refine ⟨fun rest inLen backLen outPos enough room => ?_, fun block length => ⟨?_, ?_⟩⟩
  · rw [length_append] at enough ⊢
    rw [List.append_assoc]
    exact decodes out rest inLen backLen outPos enough room
  · intro b within
    obtain ⟨header, stored, restores, -⟩ := restores_split packers length within
    exact ⟨header, stored, restores⟩
  · intro outLen out encoded stored
    obtain ⟨text, rfl, -, -, short⟩ := ObSIMDFixedPFor.encodeArray_spec packers length stored
    obtain ⟨-, plain⟩ := restores_innerBitPacking packers (maxbits2_le block) length
      (fitBits_maxbits2 block)
    rw [plain, length_append, ObSIMDFixedPFor.blockSize, ← length]
    omega

/-- A block of 128 elements that need three bits each, but for one that needs eight, and a shorter
rest: the block is packed at three bits with one exception. -/
def outlierBlock : List (BitVec UIntT.uint8.bits) := List.replicate 100 5 ++ [200] ++ List.replicate 30 3

theorem pfor_codecs_lossless_outlier :
    ∃ encoded, (obFixedPForBitPacking (Packers.plain true) .uint8).encode outlierBlock 400 [1] = .ok encoded ∧
      encoded.length = 70 ∧
      (obFixedPForBitPacking (Packers.plain true) .uint8).decode (encoded ++ [7, 8]) encoded.length 1 131 131 0 =
        .ok ⟨outlierBlock, encoded.length, 131⟩ := by
  have length : ((obFixedPForBitPacking (Packers.plain true) .uint8).encode outlierBlock 400 [1]).toOption.map
      List.length = some 70 := by
    decide +kernel
  cases success : (obFixedPForBitPacking (Packers.plain true) .uint8).encode outlierBlock 400 [1] with
  | error failure =>
    rw [success] at length
    cases length
  | ok encoded =>
    rw [success] at length
    have count : outlierBlock.length = 131 := by simp [outlierBlock]
    have decoded := (pfor_codecs_lossless (Packers.plain true) .uint8
      (obFixedPForBitPacking (Packers.plain true) .uint8) (by simp [pforCodecs]) outlierBlock
      (by omega) (by omega) 400 [1] encoded success).1 [7, 8] _ 131 0 (Nat.le_refl _) (by rw [count]; decide)
    rw [count] at decoded
    exact ⟨encoded, rfl, Option.some.inj length, decoded⟩


end IMBridge.Codec
