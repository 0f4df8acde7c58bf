import IMBridge.Lib.BitStream
import IMBridge.Lib.Buffer

/-!
The helpers of `ob_bp_util.h`: zigzag, and the 64-bit windows `bw` of `ObBitUtils` through which
bits are written and read, with `br` bits of the window already used.
-/

namespace IMBridge.Codec

open IMBridge.Lib Nat BitVec Buffer
open IMBridge.Lib.BitStream

inductive UIntT where
  | uint8 | uint16 | uint32 | uint64
deriving DecidableEq

namespace UIntT

def size : UIntT → Nat
  | uint8 => 1
  | uint16 => 2
  | uint32 => 4
  | uint64 => 8

abbrev bits (t : UIntT) : Nat := t.size * 8

def deltaBits : UIntT → Nat
  | uint64 => 64
  | _ => 32

def N2 : UIntT → Nat
  | uint8 => 3
  | uint16 => 6
  | uint32 => 6
  | uint64 => 6

def N3 : UIntT → Nat
  | uint8 => 5
  | uint16 => 12
  | uint32 => 10
  | uint64 => 12

def N4 : UIntT → Nat
  | uint8 => 9
  | uint16 => 17
  | uint32 => 17
  | uint64 => 20

theorem bits_le (t : UIntT) : t.bits ≤ 64 := by cases t <;> decide

end UIntT

def gccbits (v : Nat) : Nat := if v = 0 then 0 else v.log2 + 1

theorem gccbits_le_iff {v n : Nat} : gccbits v ≤ n ↔ v < 2 ^ n := by
  rw [gccbits]
  split
  next zero => simp [zero]
  next pos => rw [add_one_le_iff, log2_lt pos]

def byteCount (v : Nat) : Nat := (gccbits v + 7) >>> 3

theorem byteCount_le_iff {v n : Nat} : byteCount v ≤ n ↔ v < 2 ^ (8 * n) := by
  rw [← gccbits_le_iff, byteCount, shiftRight_eq_div_pow]
  omega

theorem lt_two_pow_byteCount (v : Nat) : v < 2 ^ (8 * byteCount v) := byteCount_le_iff.mp (Nat.le_refl _)

namespace ZigZag

variable {w : Nat} (value : BitVec w)

def encode : BitVec w := value <<< 1 ^^^ value.sshiftRight (w - 1)

def decode : BitVec w := value >>> 1 ^^^ -(value &&& 1#w)

theorem sshiftRight_last : value.sshiftRight (w - 1) = if value.msb then allOnes w else 0#w := by
  ext i inside
  rw [getElem_sshiftRight]
  split
  next small =>
    grind
  next => cases value.msb <;> simp

theorem neg_and_one : -(value &&& 1#w) = if value.getLsbD 0 then allOnes w else 0#w := by
  rw [and_one_eq_setWidth_ofBool_getLsbD]
  cases value.getLsbD 0 with
  | false => simp
  | true =>
    have one : setWidth w (ofBool true) = 1#w := by
      apply eq_of_toNat_eq
      simp
    rw [one, neg_one_eq_allOnes]
    rfl

theorem decode_encode : decode (encode value) = value := by
  rw [decode, neg_and_one]
  ext i inside
  have pos : 0 < w := by omega
  have low : (encode value).getLsbD 0 = value.msb := by
    rw [encode, sshiftRight_last, getLsbD_xor, getLsbD_shiftLeft]
    cases value.msb <;> simp [pos]
  rw [low, getElem_xor, getElem_ushiftRight, encode, sshiftRight_last, getLsbD_xor, getLsbD_shiftLeft]
  rcases Nat.lt_or_ge (1 + i) w with less | more
  · grind
  -- The sign bit itself is not among the shifted ones.
  grind

theorem encode_zero : encode (0#w) = 0#w := by
  simp [encode]

theorem encode_eq_zero_iff {value : BitVec w} : encode value = 0#w ↔ value = 0#w := by
  constructor
  · intro zero
    rw [← decode_encode value, ← decode_encode (0#w), encode_zero, zero]
  · rintro rfl
    exact encode_zero

end ZigZag

inductive Err where
  | bufNotEnough | errUnexpected | notSupported
deriving DecidableEq

def remaining (outLen outPos : Nat) : Nat := (outLen + 2 ^ 64 - outPos) % 2 ^ 64

/-- A window being written: `op` is where it goes in the buffer `out`. -/
structure Writer where
  bw : Nat
  br : Nat
  op : Nat
  out : Nat → UInt8

namespace Writer

variable (s : Writer)

def eSlide : Writer where
  out := write s.out s.op (leBytes 8 s.bw)
  op := s.op + s.br >>> 3
  bw := s.bw >>> (8 * (s.br >>> 3))
  br := s.br % 8

def put32 (width value : Nat) : Writer :=
  { s with bw := (s.bw + value <<< s.br) % 2 ^ 64, br := s.br + width }

/-- `put<uint64_t>`, which writes a wide value in two parts. -/
def put64 (width value : Nat) : Writer :=
  if 45 < width then ((s.put32 (width - 32) (value >>> 32)).eSlide).put32 32 (value % 2 ^ 32)
  else s.put32 width value

def put (t : UIntT) (s : Writer) (width value : Nat) : Writer :=
  match t with
  | .uint64 => s.put64 width value
  | _ => s.put32 width value

def flush (outLen : Nat) : Except Err ((Nat → UInt8) × Nat) :=
  if remaining outLen s.op < 8 then .error .bufNotEnough
  else .ok (write s.out s.op (leBytes 8 s.bw), s.op + (s.br + 7) >>> 3)

def putFields (t : UIntT) (width value : Nat) : List Field :=
  if t = .uint64 ∧ 45 < width then [⟨value >>> 32, width - 32⟩, ⟨value % 2 ^ 32, 32⟩]
  else [⟨value, width⟩]

theorem putFields_fits {t : UIntT} {width value : Nat} (fits : value < 2 ^ width) :
    ∀ field ∈ putFields t width value, field.Fits := by
  rw [putFields]
  split
  next wide =>
    have upper : value >>> 32 < 2 ^ (width - 32) := by
      rwa [shiftRight_eq_div_pow, Nat.div_lt_iff_lt_mul (Nat.two_pow_pos _), ← pow_add, Nat.sub_add_cancel (by omega)]
    simpa [Field.Fits] using ⟨upper, mod_lt value (Nat.two_pow_pos 32)⟩
  next => simpa using fits

/-- From `start` on, the buffer and then the window hold these fields. -/
structure Emitted (start : Nat) (fields : List Field) (s : Writer) : Prop where
  small : s.bw < 2 ^ s.br
  inside : s.br ≤ 64
  placed : start ≤ s.op
  spelled : leNat (read s.out start (s.op - start)) + 2 ^ (8 * (s.op - start)) * s.bw =
    pack fields
  covered : 8 * (s.op - start) + s.br = width fields

namespace Emitted

variable {start : Nat} {fields : List Field} {s : Writer}

variable (emitted : Emitted start fields s)
include emitted

theorem put32 {width value : Nat} (fits : value < 2 ^ width) (room : s.br + width ≤ 64) :
    Emitted start (fields ++ [⟨value, width⟩]) (s.put32 width value) := by
  have grown : s.bw + value * 2 ^ s.br < 2 ^ (s.br + width) := by
    have value_le : (value + 1) * 2 ^ s.br ≤ 2 ^ width * 2 ^ s.br := Nat.mul_le_mul_right _ fits
    have bw_lt := emitted.small
    grind
  have whole : (s.put32 width value).bw = s.bw + value * 2 ^ s.br := by
    rw [Writer.put32, Nat.shiftLeft_eq]
    exact Nat.mod_eq_of_lt (grown.trans_le (Nat.pow_le_pow_right (by decide) room))
  refine ⟨whole ▸ grown, room, emitted.placed, ?_, ?_⟩
  · have spelled := emitted.spelled
    rw [whole, pack_append, ← spelled, ← emitted.covered]
    simp only [Writer.put32, pack, pow_add]
    ring
  · rw [width_append, width_cons, width_nil, ← emitted.covered]
    simp only [Writer.put32]
    omega

theorem read_store {count : Nat} (few : count ≤ 8) :
    leNat (read (write s.out s.op (leBytes 8 s.bw)) start (s.op + count - start)) =
      leNat (read s.out start (s.op - start)) + 2 ^ (8 * (s.op - start)) * (s.bw % 2 ^ (8 * count)) := by
  obtain ⟨p, op⟩ := Nat.exists_eq_add_of_le emitted.placed
  have length : s.op + count - start = p + count := by omega
  have before : s.op - start = p := by omega
  have bw_lt : s.bw < 2 ^ (8 * 8) := emitted.small.trans_le (Nat.pow_le_pow_right (by decide) emitted.inside)
  have kept : read (write s.out s.op (leBytes 8 s.bw)) start p = read s.out start p :=
    read_write_apart _ _ (.inl (by omega))
  rw [length, before, read_add, leNat_append, kept, ← op, read_length,
    read_write_take _ _ _ (by simpa using few), leNat_take, leNat_leBytes,
    mod_eq_of_lt bw_lt]

theorem eSlide : Emitted start fields s.eSlide ∧ s.eSlide.br < 8 := by
  have few : s.br >>> 3 ≤ 8 := by
    have := emitted.inside
    rw [shiftRight_eq_div_pow]
    omega
  have bits : 8 * (s.br >>> 3) + s.br % 8 = s.br := by
    rw [shiftRight_eq_div_pow]
    omega
  have moved : s.op + s.br >>> 3 - start = s.op - start + s.br >>> 3 := by
    have := emitted.placed
    omega
  refine ⟨⟨?_, ?_, ?_, ?_, ?_⟩, mod_lt _ (by decide)⟩
  · rw [Writer.eSlide, shiftRight_eq_div_pow, Nat.div_lt_iff_lt_mul (Nat.two_pow_pos _), ← pow_add, Nat.add_comm, bits]
    exact emitted.small
  · exact (mod_lt s.br (by decide)).le.trans (by decide)
  · exact emitted.placed.trans (Nat.le_add_right _ _)
  · have split := mod_add_div s.bw (2 ^ (8 * (s.br >>> 3)))
    rw [← emitted.spelled]
    simp only [Writer.eSlide]
    rw [emitted.read_store few, moved, Nat.mul_add, pow_add, shiftRight_eq_div_pow s.bw,
      Nat.mul_assoc, Nat.add_assoc, ← Nat.mul_add, split]
  · rw [← emitted.covered]
    simp only [Writer.eSlide]
    omega

theorem put64 {width value : Nat} (fits : value < 2 ^ width) (low : s.br ≤ 17) (narrow : width ≤ 64) :
    Emitted start (fields ++ putFields .uint64 width value) (s.put64 width value) := by
  have each := putFields_fits (t := .uint64) fits
  rw [Writer.put64]
  split
  next wide =>
    rw [putFields, if_pos ⟨rfl, wide⟩] at each ⊢
    have upper : value >>> 32 < 2 ^ (width - 32) := each ⟨value >>> 32, width - 32⟩ (by simp)
    obtain ⟨slid, br⟩ := (emitted.put32 upper (by omega)).eSlide
    have lower := slid.put32 (mod_lt value (Nat.two_pow_pos 32)) (by omega)
    rwa [List.append_assoc] at lower
  next thin =>
    rw [putFields, if_neg fun wide => thin wide.2]
    exact emitted.put32 fits (by omega)

theorem put (t : UIntT) {width value : Nat} (fits : value < 2 ^ width) (low : s.br ≤ 17) (narrow : width ≤ t.bits) :
    Emitted start (fields ++ putFields t width value) (s.put t width value) := by
  by_cases wide : t = .uint64
  · obtain rfl := wide
    exact emitted.put64 fits low narrow
  have small : width ≤ 32 := narrow.trans (by cases t <;> simp_all <;> decide)
  have plain : s.put t width value = s.put32 width value := by cases t <;> simp_all [Writer.put]
  rw [plain, putFields, if_neg fun both => wide both.1]
  exact emitted.put32 fits (by omega)

theorem flush {outLen outPos : Nat} {out : Nat → UInt8} (flushed : s.flush outLen = .ok (out, outPos)) :
    start ≤ outPos ∧ leNat (read out start (outPos - start)) = pack fields ∧
      outPos - start = (width fields + 7) / 8 := by
  rw [Writer.flush] at flushed
  split at flushed
  next => cases flushed
  next =>
    obtain ⟨rfl, rfl⟩ := Prod.mk.inj (Except.ok.inj flushed)
    have placed := emitted.placed
    have inside := emitted.inside
    have covered := emitted.covered
    rw [shiftRight_eq_div_pow]
    refine ⟨by omega, ?_, by omega⟩
    have whole : s.bw < 2 ^ (8 * ((s.br + 7) / 2 ^ 3)) :=
      emitted.small.trans_le (Nat.pow_le_pow_right (by decide) (by omega))
    rw [emitted.read_store (by omega), mod_eq_of_lt whole, emitted.spelled]

end Emitted

end Writer

def bzhi32 (u b : Nat) : Nat := if b = 32 then 2 ^ 32 - 1 else u &&& (2 ^ b - 1)

def bzhi64 (u b : Nat) : Nat := if b = 64 then 2 ^ 64 - 1 else u &&& (2 ^ b - 1)

def bzhi (u b : Nat) : Nat := u &&& (2 ^ b - 1)

structure Reader where
  bw : Nat
  br : Nat
  ip : Nat

namespace Reader

/-- `d_slide`. Bytes behind the end are read as zero. -/
def dSlide (bytes : List UInt8) (s : Reader) : Reader where
  ip := s.ip + s.br >>> 3
  bw := leNat ((bytes.drop (s.ip + s.br >>> 3)).take 8)
  br := s.br % 8

section

variable (s : Reader)

def align : Nat := s.ip + (s.br + 7) >>> 3

def rsBw : Nat := s.bw >>> s.br

def rMv (step : Nat) : Reader := { s with br := s.br + step }

def get32 (b : Nat) : Nat × Reader := (bzhi32 (s.rsBw % 2 ^ 32) b, s.rMv b)

def get64 (b : Nat) : Nat × Reader := (bzhi64 s.rsBw b, s.rMv b)

def get57 (b : Nat) : Nat × Reader := (bzhi s.rsBw b, s.rMv b)

def get31 (b : Nat) : Nat × Reader := (bzhi (s.rsBw % 2 ^ 32) b, s.rMv b)

end

def get (t : UIntT) (bytes : List UInt8) (s : Reader) (b : Nat) : Nat × Reader :=
  match t with
  | .uint8 => s.get31 b
  | .uint16 => s.get31 b
  | .uint32 => s.get57 b
  | .uint64 =>
    if 45 < b then
      let upper := s.get57 (b - 32)
      let lower := (upper.2.dSlide bytes).get64 32
      (upper.1 <<< 32 % 2 ^ 64 ||| lower.1, lower.2)
    else s.get57 b

/-- The window stands at bit `bit` of the bytes. -/
structure ReadsAt (bytes : List UInt8) (bit : Nat) (s : Reader) : Prop where
  loaded : s.bw = leNat (bytes.drop s.ip) % 2 ^ 64
  placed : 8 * s.ip + s.br = bit

namespace ReadsAt

variable {bytes : List UInt8} {bit : Nat} {s : Reader}

variable (reads : ReadsAt bytes bit s)
include reads

theorem rMv (step : Nat) : ReadsAt bytes (bit + step) (s.rMv step) :=
  ⟨reads.loaded, by rw [← reads.placed, Nat.add_assoc]; rfl⟩

theorem dSlide : ReadsAt bytes bit (s.dSlide bytes) ∧ (s.dSlide bytes).br < 8 := by
  refine ⟨⟨leNat_take _ _, ?_⟩, mod_lt _ (by decide)⟩
  rw [← reads.placed]
  simp only [Reader.dSlide, shiftRight_eq_div_pow]
  omega

theorem rsBw_mod {count : Nat} (inside : s.br + count ≤ 64) :
    s.rsBw % 2 ^ count = leNat bytes / 2 ^ bit % 2 ^ count := by
  have window : 2 ^ 64 = 2 ^ s.br * 2 ^ (64 - s.br) := by
    rw [← pow_add, Nat.add_sub_cancel' (by omega)]
  rw [rsBw, shiftRight_eq_div_pow, reads.loaded, window, mod_mul_right_div_self,
    mod_mod_of_dvd _ (Nat.pow_dvd_pow 2 (by omega)), leNat_drop, Nat.div_div_eq_div_mul,
    ← pow_add, reads.placed]

theorem bzhi_eq {count : Nat} (inside : s.br + count ≤ 64) : bzhi s.rsBw count = leNat bytes / 2 ^ bit % 2 ^ count := by
  rw [bzhi, and_two_pow_sub_one_eq_mod, reads.rsBw_mod inside]

theorem bzhi_low {count : Nat} (inside : s.br ≤ 32)
    (small : count ≤ 16) : bzhi (s.rsBw % 2 ^ 32) count = leNat bytes / 2 ^ bit % 2 ^ count := by
  rw [bzhi, and_two_pow_sub_one_eq_mod, mod_mod_of_dvd _ (Nat.pow_dvd_pow 2 (by omega)), reads.rsBw_mod (by omega)]

theorem get32_eq {count : Nat} (small : count < 32)
    (inside : s.br ≤ 32) : (s.get32 count).1 = leNat bytes / 2 ^ bit % 2 ^ count := by
  rw [get32, bzhi32, if_neg (by omega), and_two_pow_sub_one_eq_mod,
    mod_mod_of_dvd _ (Nat.pow_dvd_pow 2 (by omega)), reads.rsBw_mod (by omega)]

theorem get {t : UIntT} {width value : Nat} {later : List Field}
    (fits : value < 2 ^ width) (low : s.br ≤ 17) (narrow : width ≤ t.bits)
    (follows : Follows bytes bit (Writer.putFields t width value ++ later)) :
    ∃ s', Reader.get t bytes s width = (value, s') ∧ ReadsAt bytes (bit + width) s' ∧
      Follows bytes (bit + width) later := by
  by_cases wide : t = .uint64 ∧ 45 < width
  · obtain ⟨rfl, wide⟩ := wide
    rw [Writer.putFields, if_pos ⟨rfl, wide⟩] at follows
    have upper : value >>> 32 < 2 ^ (width - 32) := Writer.putFields_fits (t := .uint64) fits ⟨value >>> 32, width - 32⟩
        (by rw [Writer.putFields, if_pos ⟨rfl, wide⟩]; exact List.mem_cons_self ..)
    have narrow : width ≤ 64 := narrow
    obtain ⟨first, follows⟩ := follows.cons upper
    obtain ⟨second, follows⟩ := follows.cons (mod_lt value (Nat.two_pow_pos 32))
    obtain ⟨slid, br⟩ := (reads.rMv (width - 32)).dSlide
    have bits : bit + (width - 32) + 32 = bit + width := by omega
    refine ⟨_, ?_, bits ▸ slid.rMv 32, bits ▸ follows⟩
    rw [Reader.get, if_pos wide]
    refine Prod.ext ?_ rfl
    have high : (s.get57 (width - 32)).1 = value >>> 32 := (reads.bzhi_eq (by omega)).trans first
    have low : (((s.get57 (width - 32)).2.dSlide bytes).get64 32).1 = value % 2 ^ 32 := by
      rw [get64, bzhi64, if_neg (by decide), and_two_pow_sub_one_eq_mod]
      exact (slid.rsBw_mod (by omega)).trans second
    have above : value >>> 32 <<< 32 < 2 ^ 64 := by
      rw [Nat.shiftRight_eq_div_pow, Nat.shiftLeft_eq]
      have : value < 2 ^ 64 := fits.trans_le (Nat.pow_le_pow_right (by decide) narrow)
      omega
    change (s.get57 (width - 32)).1 <<< 32 % 2 ^ 64 ||| (((s.get57 (width - 32)).2.dSlide bytes).get64 32).1 = value
    rw [high, low, mod_eq_of_lt above, ← shiftLeft_add_eq_or_of_lt (mod_lt value (Nat.two_pow_pos 32)),
      Nat.shiftRight_eq_div_pow, Nat.shiftLeft_eq, Nat.div_add_mod']
  · rw [Writer.putFields, if_neg wide] at follows
    obtain ⟨first, follows⟩ := follows.cons fits
    refine ⟨s.rMv width, ?_, reads.rMv width, follows⟩
    cases t with
    | uint8 => exact Prod.ext ((reads.bzhi_low (by omega) (narrow.trans (by decide))).trans first) rfl
    | uint16 => exact Prod.ext ((reads.bzhi_low (by omega) narrow).trans first) rfl
    | uint32 =>
      have narrow : width ≤ 32 := narrow
      exact Prod.ext ((reads.bzhi_eq (by omega)).trans first) rfl
    | uint64 =>
      have thin : ¬ 45 < width := fun more => wide ⟨rfl, more⟩
      rw [Reader.get, if_neg thin]
      exact Prod.ext ((reads.bzhi_eq (by omega)).trans first) rfl

end ReadsAt

end Reader

end IMBridge.Codec
