import IMBridge.Codec.BitUtils
import IMBridge.Lib.Reading

/-!
Bit packing of `ob_bp_helpers.h` and `ObSimpleBitPacking`. The generated functions for a fixed
number of elements are given: those for 32 elements put the fields one behind the other, those for
128 in some order, and each unpacking function undoes its packing function.
-/

namespace IMBridge.Codec

open IMBridge.Lib List Nat
open IMBridge.Lib.BitStream

def packedFields {t : UIntT} (b : Nat) (values : List (BitVec t.bits)) : List Field :=
  values.map fun value => ⟨value.toNat, b⟩

abbrev FitBits {t : UIntT} (b : Nat) (values : List (BitVec t.bits)) : Prop :=
  ∀ value ∈ values, value.toNat < 2 ^ b

/-- The generated functions, with what is assumed of them. -/
structure Packers where
  avx2 : Bool
  scalarFastpackwithoutmask : (t : UIntT) → Nat → List (BitVec t.bits) → List UInt8
  scalarFastunpack : (t : UIntT) → Nat → List UInt8 → List (BitVec t.bits)
  uSIMDFastpackwithoutmask128 : (t : UIntT) → Nat → List (BitVec t.bits) → List UInt8
  uSIMDFastunpack128 : (t : UIntT) → Nat → List UInt8 → List (BitVec t.bits)
  contiguous : ∀ {t : UIntT} {b : Nat} {values : List (BitVec t.bits)}, b ≤ t.bits →
    values.length = 32 → FitBits b values →
    scalarFastpackwithoutmask t b values = leBytes (4 * b) (pack (packedFields b values))
  unpack_pack : ∀ {t : UIntT} {b : Nat} {values : List (BitVec t.bits)}, b ≤ t.bits →
    values.length = 32 → FitBits b values →
    scalarFastunpack t b (scalarFastpackwithoutmask t b values) = values
  length_pack128 : ∀ {t : UIntT} {b : Nat} {values : List (BitVec t.bits)}, b ≤ t.bits →
    values.length = 128 → FitBits b values →
    (uSIMDFastpackwithoutmask128 t b values).length = 16 * b
  unpack_pack128 : ∀ {t : UIntT} {b : Nat} {values : List (BitVec t.bits)}, b ≤ t.bits →
    values.length = 128 → FitBits b values →
    uSIMDFastunpack128 t b (uSIMDFastpackwithoutmask128 t b values) = values

def unpackFields (b : Nat) : Nat → Nat → List Nat
  | 0, _ => []
  | n + 1, number => number % 2 ^ b :: unpackFields b n (number / 2 ^ b)

theorem unpackFields_pack {t : UIntT} {b : Nat} {values : List (BitVec t.bits)} (fits : FitBits b values) :
    (unpackFields b values.length (pack (packedFields b values))).map (BitVec.ofNat t.bits) =
      values := by
  induction values with
  | nil => rfl
  | cons value values ih =>
    obtain ⟨first, later⟩ := forall_mem_cons.mp fits
    rw [packedFields, map_cons, length_cons, unpackFields, pack,
      add_mul_mod_self_left, mod_eq_of_lt first, add_mul_div_left _ _ (Nat.two_pow_pos b),
      div_eq_of_lt first, Nat.zero_add, map_cons, BitVec.ofNat_toNat, BitVec.setWidth_eq]
    exact congrArg _ (ih later)

variable (packers : Packers) (t : UIntT)

def copyLen (remain b : Nat) : Nat := (remain * b + 7) / 8

def packRuns (b : Nat) : Nat → List (BitVec t.bits) → List UInt8
  | 0, _ => []
  | run + 1, values =>
    packers.scalarFastpackwithoutmask t b (values.take 32) ++ packRuns b run (values.drop 32)

def scalarBitPacking (values : List (BitVec t.bits)) (b : Nat) : List UInt8 :=
  let remain := values.length % 32
  packRuns packers t b (values.length / 32) values ++
    if 0 < remain then
      let tail := values.drop (32 * (values.length / 32)) ++ replicate (32 - remain) 0
      (packers.scalarFastpackwithoutmask t b tail).take (copyLen remain b)
    else []

def unpackRuns (b : Nat) : Nat → Reading (List (BitVec t.bits))
  | 0 => pure []
  | run + 1 => do
    let text ← takeBytes (32 * b / 8)
    let later ← unpackRuns b run
    pure (packers.scalarFastunpack t b text ++ later)

/-- An incomplete run: its bytes are copied to a buffer of zeros first. -/
def unpackTail (b remain : Nat) : Reading (List (BitVec t.bits)) :=
  if 0 < remain then do
    let text ← takeBytes (copyLen remain b)
    let tail := text ++ replicate (32 * t.size - text.length) 0
    pure ((packers.scalarFastunpack t b (tail.take (32 * b / 8))).take remain)
  else pure []

def scalarBitUnpacking (uintCount b : Nat) : Reading (List (BitVec t.bits)) := do
  let runs ← unpackRuns packers t b (uintCount / 32)
  let tail ← unpackTail packers t b (uintCount % 32)
  pure (runs ++ tail)

def maxbits2 {t : UIntT} (values : List (BitVec t.bits)) : Nat :=
  gccbits (values.foldl (fun accumulator value => accumulator ||| value) 0).toNat

inductive Failure where
  | invalidArgument | bufNotEnough | errUnexpected
deriving DecidableEq

def charBits (byte : UInt8) : Nat := (byte.toBitVec.signExtend 32).toNat

namespace ObSimpleBitPacking

/-- `_encode_array`. The first `out_pos` bytes of the buffer are `out`. -/
def encodeArray (values : List (BitVec t.bits)) (outLen uintPackingBits : Nat)
    (out : List UInt8) : Except Failure (List UInt8) :=
  if remaining outLen out.length < 1 + values.length * t.size + 8 then .error .bufNotEnough
  else if uintPackingBits ≠ 0 then
    .ok (out ++ scalarBitPacking packers t values uintPackingBits)
  else
    let b := maxbits2 values
    .ok (out ++ [UInt8.ofNat b] ++ scalarBitPacking packers t values b)

def decodeArray (uintCount uintPackingBits : Nat) : Reading (List (BitVec t.bits)) :=
  if uintPackingBits ≠ 0 then
    scalarBitUnpacking packers t (uintCount % 2 ^ 32) uintPackingBits
  else do
    let b ← takeByte
    scalarBitUnpacking packers t (uintCount % 2 ^ 32) (charBits b)

end ObSimpleBitPacking

/-! ### Unpacking what was packed -/

section RoundTrip

variable {t : UIntT} {b : Nat}

@[simp] theorem packedFields_nil : packedFields b ([] : List (BitVec t.bits)) = [] := rfl

@[simp] theorem packedFields_cons (value : BitVec t.bits) (values : List (BitVec t.bits)) :
    packedFields b (value :: values) = ⟨value.toNat, b⟩ :: packedFields b values := rfl

theorem packedFields_append (values later : List (BitVec t.bits)) :
    packedFields b (values ++ later) = packedFields b values ++ packedFields b later :=
  map_append

@[simp] theorem width_packedFields (values : List (BitVec t.bits)) :
    width (packedFields b values) = values.length * b := by
  induction values with
  | nil => simp
  | cons value values ih =>
    rw [packedFields_cons, width_cons, ih, length_cons, succ_mul, Nat.add_comm]

variable {values : List (BitVec t.bits)}

theorem pack_packedFields_lt (fits : FitBits b values) : pack (packedFields b values) < 2 ^ (values.length * b) := by
  rw [← width_packedFields]
  apply pack_lt
  intro field member
  obtain ⟨value, inside, rfl⟩ := mem_map.mp member
  exact fits value inside

theorem pack_zeros (values : List (BitVec t.bits)) (count : Nat) :
    pack (packedFields b (values ++ replicate count 0)) = pack (packedFields b values) := by
  have zeros : pack (packedFields b (replicate count (0 : BitVec t.bits))) = 0 := by
    induction count with
    | zero => rfl
    | succ count ih => rw [replicate_succ, packedFields_cons, pack, ih]; simp
  rw [packedFields_append, pack_append, zeros, Nat.mul_zero, Nat.add_zero]

theorem FitBits.append_zeros (fits : FitBits b values) (count : Nat) : FitBits b (values ++ replicate count 0) := by
  grind

theorem length_scalarFastpack (narrow : b ≤ t.bits) (length : values.length = 32) (fits : FitBits b values) :
    (packers.scalarFastpackwithoutmask t b values).length = 32 * b / 8 := by
  rw [packers.contiguous narrow length fits, length_leBytes]
  omega

theorem FitBits.take (fits : FitBits b values) (count : Nat) : FitBits b (values.take count) :=
  fun value member => fits value (mem_of_mem_take member)

theorem FitBits.drop (fits : FitBits b values) (count : Nat) : FitBits b (values.drop count) :=
  fun value member => fits value (mem_of_mem_drop member)

section

variable (narrow : b ≤ t.bits)
include narrow

theorem restores_runs (run : Nat) (enough : 32 * run ≤ values.length) (fits : FitBits b values) :
    Restores (unpackRuns packers t b run) (packRuns packers t b run values) (values.take (32 * run)) ∧
      (packRuns packers t b run values).length = 4 * b * run := by
  induction run generalizing values with
  | zero => exact ⟨restores_pure [], rfl⟩
  | succ run ih =>
    have taken : (values.take 32).length = 32 := by rw [length_take]; omega
    have dropped : 32 * run ≤ (values.drop 32).length := by rw [length_drop]; omega
    have packed := length_scalarFastpack packers narrow taken (fits.take 32)
    obtain ⟨later, length⟩ := ih dropped (fits.drop 32)
    constructor
    · refine (restores_takeBytes packed).bind (later.last ?_)
      rw [packers.unpack_pack narrow taken (fits.take 32), ← take_add, mul_succ, Nat.add_comm]
      exact restores_pure _
    · rw [packRuns, length_append, packed, length, mul_succ]
      omega

theorem tail_bytes (few : values.length ≤ 32) (fits : FitBits b values) :
    let packed := packers.scalarFastpackwithoutmask t b (values ++ replicate (32 - values.length) 0)
    copyLen values.length b ≤ 4 * b ∧ packed.length = 4 * b ∧ packed = packed.take (copyLen values.length b) ++
        replicate (4 * b - copyLen values.length b) 0 := by
  have length : (values ++ replicate (32 - values.length) (0 : BitVec t.bits)).length = 32 := by
    rw [length_append, length_replicate]
    omega
  have bound : copyLen values.length b ≤ 4 * b := by
    have product : values.length * b ≤ 32 * b := Nat.mul_le_mul_right b few
    rw [copyLen]
    omega
  have small : pack (packedFields b values) < 2 ^ (8 * copyLen values.length b) := by
    refine (pack_packedFields_lt fits).trans_le (Nat.pow_le_pow_right (by decide) ?_)
    rw [copyLen]
    omega
  have bytes := packers.contiguous narrow length (fits.append_zeros _)
  have split := leBytes_add (4 * b - copyLen values.length b) small
  rw [Nat.add_sub_cancel' bound] at split
  rw [pack_zeros] at bytes
  refine ⟨bound, by rw [bytes, length_leBytes], ?_⟩
  rw [bytes, split, take_left' (length_leBytes _ _)]

theorem restores_tail (few : values.length < 32) (fits : FitBits b values) :
    Restores (unpackTail packers t b values.length) (if 0 < values.length then
        (packers.scalarFastpackwithoutmask t b
          (values ++ replicate (32 - values.length) 0)).take (copyLen values.length b)
      else []) values := by
  obtain ⟨bound, length, split⟩ := tail_bytes packers narrow few.le fits
  rw [unpackTail]
  split
  next some =>
    generalize textEq : (packers.scalarFastpackwithoutmask t b
      (values ++ replicate (32 - values.length) 0)).take (copyLen values.length b) = text
    rw [textEq] at split
    have textLength : text.length = copyLen values.length b := by
      grind
    refine (restores_takeBytes textLength).last ?_
    have refilled : (text ++ replicate (32 * t.size - text.length) 0).take (32 * b / 8) =
        packers.scalarFastpackwithoutmask t b (values ++ replicate (32 - values.length) 0) := by
      have room : t.bits = t.size * 8 := rfl
      rw [split, take_append, take_of_length_le (by omega), take_replicate, textLength]
      congr 2
      omega
    have full : (values ++ replicate (32 - values.length) (0 : BitVec t.bits)).length = 32 := by
      rw [length_append, length_replicate]
      omega
    dsimp only
    rw [refilled, packers.unpack_pack narrow full (fits.append_zeros _), take_left]
    exact restores_pure values
  next none =>
    obtain rfl : values = [] := length_eq_zero_iff.mp (by omega)
    exact restores_pure []

/-- Whatever follows, the packed elements are unpacked again. -/
theorem restores_scalarBitPacking (fits : FitBits b values) :
    Restores (scalarBitUnpacking packers t values.length b) (scalarBitPacking packers t values b) values := by
  have remain : (values.drop (32 * (values.length / 32))).length = values.length % 32 := by
    rw [length_drop]
    omega
  obtain ⟨runs, -⟩ := restores_runs packers narrow (values.length / 32) (by omega) fits
  have tail := restores_tail packers narrow (by rw [remain]; omega) (fits.drop (32 * (values.length / 32)))
  rw [remain] at tail
  refine runs.bind (tail.last ?_)
  rw [take_append_drop]
  exact restores_pure values

theorem length_scalarBitPacking (fits : FitBits b values) :
    (scalarBitPacking packers t values b).length = (values.length * b + 7) / 8 := by
  have remain : (values.drop (32 * (values.length / 32))).length = values.length % 32 := by
    rw [length_drop]
    omega
  obtain ⟨-, runs⟩ := restores_runs packers narrow (values.length / 32) (by omega) fits
  obtain ⟨bound, length, -⟩ := tail_bytes packers narrow (by rw [remain]; omega) (fits.drop (32 * (values.length / 32)))
  rw [remain] at bound length
  have bits : values.length * b = 8 * (4 * b * (values.length / 32)) + values.length % 32 * b := by
    have split := div_add_mod values.length 32
    calc values.length * b = (32 * (values.length / 32) + values.length % 32) * b := by rw [split]
      _ = _ := by ring
  rw [scalarBitPacking, length_append, runs, bits]
  split
  next some =>
    rw [length_take, length, Nat.min_eq_left bound, copyLen]
    omega
  next none =>
    grind

end

theorem toNat_foldl_or_lt (start : BitVec t.bits) {n : Nat} :
    (values.foldl (fun accumulator value => accumulator ||| value) start).toNat < 2 ^ n ↔
      start.toNat < 2 ^ n ∧ FitBits n values := by
  induction values generalizing start with
  | nil => simp [FitBits]
  | cons value values ih =>
    rw [foldl_cons, ih, BitVec.toNat_or, FitBits, FitBits, forall_mem_cons, ← and_assoc]
    refine and_congr_left fun _ => ⟨fun both => ?_, fun both => or_lt_two_pow both.1 both.2⟩
    exact ⟨left_le_or.trans_lt both, right_le_or.trans_lt both⟩

theorem maxbits2_le_iff {n : Nat} : maxbits2 values ≤ n ↔ FitBits n values := by
  rw [maxbits2, gccbits_le_iff, toNat_foldl_or_lt]
  exact and_iff_right (by simp)

theorem fitBits_maxbits2 (values : List (BitVec t.bits)) : FitBits (maxbits2 values) values :=
  maxbits2_le_iff.mp (Nat.le_refl _)

theorem maxbits2_le (values : List (BitVec t.bits)) : maxbits2 values ≤ t.bits :=
  maxbits2_le_iff.mpr fun value _ => value.isLt

theorem charBits_ofNat {b : Nat} (small : b < 128) : charBits (UInt8.ofNat b) = b := by
  revert b
  decide +kernel

def Packers.plain (avx2 : Bool) : Packers where
  avx2 := avx2
  scalarFastpackwithoutmask _ b values := leBytes (4 * b) (pack (packedFields b values))
  scalarFastunpack t b bytes := (unpackFields b 32 (leNat bytes)).map (BitVec.ofNat t.bits)
  uSIMDFastpackwithoutmask128 _ b values := leBytes (16 * b) (pack (packedFields b values))
  uSIMDFastunpack128 t b bytes := (unpackFields b 128 (leNat bytes)).map (BitVec.ofNat t.bits)
  contiguous _ _ _ := rfl
  unpack_pack _ length fits := by
    have small := pack_packedFields_lt fits
    have back := unpackFields_pack fits
    rw [length] at small back
    rw [leNat_leBytes, show ∀ b, 8 * (4 * b) = 32 * b by omega, mod_eq_of_lt small, back]
  length_pack128 _ _ _ := length_leBytes _ _
  unpack_pack128 _ length fits := by
    have small := pack_packedFields_lt fits
    have back := unpackFields_pack fits
    rw [length] at small back
    rw [leNat_leBytes, show ∀ b, 8 * (16 * b) = 128 * b by omega, mod_eq_of_lt small, back]

namespace ObSimpleBitPacking

theorem restores_encodeArray {values : List (BitVec t.bits)} {outLen : Nat} {out encoded : List UInt8}
    (few : values.length < 2 ^ 32)
    (success : encodeArray packers t values outLen 0 out = .ok encoded) :
    ∃ text, encoded = out ++ text ∧ text ≠ [] ∧ Restores (decodeArray packers t values.length 0) text values := by
  rw [encodeArray] at success
  split at success
  next => cases success
  next =>
    have narrow := maxbits2_le values
    have small : maxbits2 values < 128 := by
      have := t.bits_le
      omega
    rw [if_neg (by decide)] at success
    cases success
    refine ⟨UInt8.ofNat (maxbits2 values) :: scalarBitPacking packers t values (maxbits2 values),
      by simp, by simp, ?_⟩
    rw [decodeArray, if_neg (by decide)]
    refine (restores_takeByte _).bind ?_
    rw [charBits_ofNat small, mod_eq_of_lt few]
    exact restores_scalarBitPacking packers narrow (fitBits_maxbits2 values)

end ObSimpleBitPacking

end RoundTrip

end IMBridge.Codec
