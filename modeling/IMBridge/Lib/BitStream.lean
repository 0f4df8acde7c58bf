import Mathlib.Data.Nat.Digits.Lemmas

/-!
Bit streams, low bit first. A stream is a list of fields, each a value and its width, and `pack` is
the number that the bits spell. `Follows` says that from some bit on bytes spell given fields.
-/

namespace IMBridge.Lib.BitStream

open List Nat
structure Field where
  value : Nat
  width : Nat

abbrev Field.Fits (field : Field) : Prop := field.value < 2 ^ field.width

def pack : List Field → Nat
  | [] => 0
  | field :: fields => field.value + 2 ^ field.width * pack fields

def width (fields : List Field) : Nat := (fields.map Field.width).sum

@[simp] theorem width_nil : width [] = 0 := rfl

@[simp] theorem width_cons (field : Field) (fields : List Field) :
    width (field :: fields) = field.width + width fields := by
  simp [width]

@[simp] theorem width_append (fields later : List Field) : width (fields ++ later) = width fields + width later := by
  simp [width]

theorem pack_append (fields later : List Field) :
    pack (fields ++ later) = pack fields + 2 ^ width fields * pack later := by
  induction fields with
  | nil => simp [pack]
  | cons field fields ih =>
    rw [cons_append, pack, ih, pack, width_cons, pow_add]
    ring

theorem pack_lt {fields : List Field} (fits : ∀ field ∈ fields, field.Fits) : pack fields < 2 ^ width fields := by
  induction fields with
  | nil => simp [pack]
  | cons field fields ih =>
    obtain ⟨first, later⟩ := forall_mem_cons.mp fits
    have bound : pack fields + 1 ≤ 2 ^ width fields := ih later
    calc pack (field :: fields)
        < 2 ^ field.width + 2 ^ field.width * pack fields := Nat.add_lt_add_right first _
      _ = 2 ^ field.width * (pack fields + 1) := by ring
      _ ≤ 2 ^ field.width * 2 ^ width fields := Nat.mul_le_mul_left _ bound
      _ = 2 ^ width (field :: fields) := by rw [width_cons, pow_add]

variable (bytes : List UInt8)

/-- The number that bytes spell, the lowest byte first. -/
def leNat : Nat := ofDigits 256 (bytes.map UInt8.toNat)

theorem byte_digits : ∀ digit ∈ bytes.map UInt8.toNat, digit < 256 := by
  intro digit member
  obtain ⟨byte, -, rfl⟩ := mem_map.mp member
  exact byte.toNat_lt

theorem two_pow_eight_mul (n : Nat) : 2 ^ (8 * n) = 256 ^ n := by rw [pow_mul]; rfl

@[simp] theorem leNat_nil : leNat [] = 0 := rfl

@[simp] theorem leNat_cons (byte : UInt8) (bytes : List UInt8) :
    leNat (byte :: bytes) = byte.toNat + 256 * leNat bytes := by
  simp only [leNat, map_cons, ofDigits_cons]

theorem leNat_append (bytes later : List UInt8) :
    leNat (bytes ++ later) = leNat bytes + 2 ^ (8 * bytes.length) * leNat later := by
  simp only [leNat, map_append, ofDigits_append, length_map, two_pow_eight_mul]

theorem leNat_take (n : Nat) : leNat (bytes.take n) = leNat bytes % 2 ^ (8 * n) := by
  simp only [leNat, map_take, two_pow_eight_mul]
  exact (ofDigits_mod_pow_eq_ofDigits_take n (by decide) _ (byte_digits bytes)).symm

theorem leNat_drop (n : Nat) : leNat (bytes.drop n) = leNat bytes / 2 ^ (8 * n) := by
  simp only [leNat, map_drop, two_pow_eight_mul]
  exact (ofDigits_div_pow_eq_ofDigits_drop n (by decide) _ (byte_digits bytes)).symm

def leBytes : Nat → Nat → List UInt8
  | 0, _ => []
  | n + 1, value => UInt8.ofNat value :: leBytes n (value / 256)

@[simp] theorem length_leBytes (n value : Nat) : (leBytes n value).length = n := by
  induction n generalizing value with
  | zero => rfl
  | succ n ih => rw [leBytes, length_cons, ih]

theorem leNat_leBytes (n value : Nat) : leNat (leBytes n value) = value % 2 ^ (8 * n) := by
  induction n generalizing value with
  | zero => simp [leBytes, mod_one]
  | succ n ih =>
    have bits : 2 ^ (8 * (n + 1)) = 256 * 2 ^ (8 * n) := by
      grind
    rw [leBytes, leNat_cons, ih, UInt8.toNat_ofNat', bits, mod_mul]

theorem leBytes_add {count value : Nat} (more : Nat) (small : value < 2 ^ (8 * count)) :
    leBytes (count + more) value = leBytes count value ++ replicate more 0 := by
  induction count generalizing value with
  | zero =>
    obtain rfl : value = 0 := by simpa using small
    induction more with
    | zero => rfl
    | succ more ih =>
      rw [replicate_succ, ← nil_append (replicate more 0), ← leBytes, ← ih, Nat.zero_add, Nat.zero_add]
      rfl
  | succ count ih =>
    have rest : value / 256 < 2 ^ (8 * count) := by
      grind
    rw [Nat.add_right_comm, leBytes, ih rest, leBytes, cons_append]

def Follows (bit : Nat) (fields : List Field) : Prop :=
  leNat bytes / 2 ^ bit % 2 ^ width fields = pack fields

namespace Follows

variable {bytes : List UInt8} {bit : Nat}

theorem append {fields later : List Field} (fits : ∀ field ∈ fields, field.Fits)
    (follows : Follows bytes bit (fields ++ later)) :
    Follows bytes bit fields ∧ Follows bytes (bit + width fields) later := by
  have small := pack_lt fits
  rw [Follows, width_append, pack_append, pow_add] at follows
  constructor
  · have low := congrArg (· % 2 ^ width fields) follows
    simpa only [Follows, mod_mul_right_mod, add_mul_mod_self_left, mod_eq_of_lt small] using low
  · have high := congrArg (· / 2 ^ width fields) follows
    rw [Follows, pow_add, ← Nat.div_div_eq_div_mul]
    simpa only [mod_mul_right_div_self, add_mul_div_left _ _ (Nat.two_pow_pos _),
      div_eq_of_lt small, Nat.zero_add] using high

theorem cons {field : Field} {fields : List Field} (fits : field.Fits) (follows : Follows bytes bit (field :: fields)) :
    leNat bytes / 2 ^ bit % 2 ^ field.width = field.value ∧ Follows bytes (bit + field.width) fields := by
  have split : Follows bytes bit ([field] ++ fields) := follows
  simpa [Follows, pack] using split.append (by simpa using fits)

theorem of_bytes (before after : List UInt8) {text : List UInt8} {fields : List Field}
    (fits : ∀ field ∈ fields, field.Fits) (spelled : leNat text = pack fields)
    (covered : width fields ≤ 8 * text.length) :
    Follows (before ++ text ++ after) (8 * before.length) fields := by
  have rest : leNat (before ++ text ++ after) / 2 ^ (8 * before.length) = leNat (text ++ after) := by
    rw [← leNat_drop, append_assoc, drop_left]
  obtain ⟨more, length⟩ := Nat.exists_eq_add_of_le covered
  rw [Follows, rest, leNat_append, length, pow_add, mul_assoc, add_mul_mod_self_left, spelled,
    mod_eq_of_lt (pack_lt fits)]

end Follows

end IMBridge.Lib.BitStream
