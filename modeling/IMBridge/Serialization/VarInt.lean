import Mathlib.Algebra.Order.Ring.Nat
import IMBridge.Lib.Buffer

/-!
The variable-length integers of `serialization.h`: groups of seven bits, lowest group first, in
bytes whose top bit says that another byte follows. The 64-bit and the 32-bit functions are the same
text at two widths, and so is the model. A shift by the full width or more has no defined result in
the source: `wild` gives the result of the one made at each position.
-/

namespace IMBridge.Serialization

open IMBridge.Lib Buffer BitVec

abbrev Memory := Nat → BitVec 8

/-- The constants `OB_MAX_V1B`, `OB_MAX_V2B`, …: the largest value of so many groups. -/
def obMaxV (groups : Nat) : Nat :=
  2 ^ (7 * groups) - 1

structure Written where
  /-- `OB_SUCCESS`; otherwise `OB_SIZE_OVERFLOW`. -/
  success : Bool
  buf : Memory
  pos : Nat

/-- What a decoder leaves behind: the value it stored, if it succeeded, and the position. -/
structure Decoded (α : Type) where
  val : Option α
  pos : Nat
  deriving DecidableEq, Repr

section Width

variable {w : Nat}

/-- The chain of comparisons with `OB_MAX_VkB`, with `most` for the last `else`. -/
def encodedLength (most : Nat) (v : BitVec w) : Nat :=
  ((List.range' 1 (most - 1)).find? (fun groups => decide (v.toNat ≤ obMaxV groups))).getD most

def encodeLoop (buf : Memory) (pos : Nat) (v : BitVec w) : Memory × Nat × BitVec w :=
  if obMaxV 1 < v.toNat then
    encodeLoop (write buf pos [(v ||| 0x80#w).setWidth 8]) (pos + 1) (v >>> 7)
  else (buf, pos, v)
termination_by v.toNat
decreasing_by
  rename_i larger
  simp only [obMaxV] at larger
  simp only [toNat_ushiftRight, Nat.shiftRight_eq_div_pow]
  omega

/-- The encoders, whose first step is to ask for the encoded length of the value. -/
def encodeVi (needed : Nat) (buf : Memory) (bufLen : Int) (pos : Nat) (v : BitVec w) : Written :=
  if needed ≤ bufLen - pos then
    let looped := encodeLoop buf pos v
    ⟨true, write looped.1 looped.2.1 [(looped.2.2 &&& 0x7f#w).setWidth 8], looped.2.1 + 1⟩
  else ⟨false, buf, pos⟩

def continues (byte : BitVec 8) : Bool :=
  byte &&& 0x80 ≠ 0

variable (wild : Nat → BitVec w)

def group (buf : Memory) (pos shift : Nat) : BitVec w :=
  if shift < w then ((buf pos).signExtend w &&& 0x7f#w) <<< shift else wild pos

/-- The `while` loop of the decoders; `none` is `OB_DESERIALIZE_ERROR`. The shift is a
`uint32_t`. -/
def decodeLoop (wild : Nat → BitVec w) (buf : Memory) (dataLen tmpPos : Nat) (v : BitVec w)
    (shift : Nat) : Option (Nat × BitVec w × Nat) :=
  if continues (buf tmpPos) then
    -- the bound is looked at only after the byte
    if dataLen ≤ tmpPos then none
    else decodeLoop wild buf dataLen (tmpPos + 1) (v ||| group wild buf tmpPos shift)
      ((shift + 7) % 2 ^ 32)
  else some (tmpPos, v, shift)
termination_by dataLen - tmpPos

def decodeLast (buf : Memory) (dataLen pos : Nat) :
    Option (Nat × BitVec w × Nat) → Decoded (BitVec w)
  | none => ⟨none, pos⟩
  | some (tmpPos, v, shift) =>
    if dataLen ≤ tmpPos then ⟨none, pos⟩
    else ⟨some (v ||| group wild buf tmpPos shift), tmpPos + 1⟩

def decodeVi (buf : Memory) (dataLen pos : Nat) : Decoded (BitVec w) :=
  decodeLast wild buf dataLen pos (decodeLoop wild buf dataLen pos 0 0)

end Width

def encodedLengthVi64 (val : BitVec 64) : Nat := encodedLength 10 val

def encodedLengthVi32 (val : BitVec 32) : Nat := encodedLength 5 val

def encodeVi64 (buf : Memory) (bufLen : Int) (pos : Nat) (val : BitVec 64) : Written :=
  encodeVi (encodedLengthVi64 val) buf bufLen pos val

def encodeVi32 (buf : Memory) (bufLen : Int) (pos : Nat) (val : BitVec 32) : Written :=
  encodeVi (encodedLengthVi32 val) buf bufLen pos val

def decodeVi64 (wild : Nat → BitVec 64) (buf : Memory) (dataLen pos : Nat) :
    Decoded (BitVec 64) :=
  decodeVi wild buf dataLen pos

def decodeVi32 (wild : Nat → BitVec 32) (buf : Memory) (dataLen pos : Nat) :
    Decoded (BitVec 32) :=
  decodeVi wild buf dataLen pos

/-! ### What the decoders read -/

/-- At `pos` stand `more` bytes that announce another one, and then one that does not. -/
structure Groups (buf : Memory) (pos more : Nat) : Prop where
  running : ∀ k < more, continues (buf (pos + k)) = true
  last : continues (buf (pos + more)) = false

theorem Groups.zero {buf : Memory} {pos : Nat} (last : continues (buf pos) = false) :
    Groups buf pos 0 :=
  ⟨fun k inside => absurd inside (Nat.not_lt_zero k), last⟩

theorem Groups.succ {buf : Memory} {pos more : Nat} (first : continues (buf pos) = true)
    (rest : Groups buf (pos + 1) more) : Groups buf pos (more + 1) := by
  refine ⟨fun k inside => ?_, ?_⟩
  · cases k with
    | zero => exact first
    | succ k =>
      rw [Nat.add_comm k 1, ← Nat.add_assoc]
      exact rest.running k (by omega)
  · rw [Nat.add_comm more 1, ← Nat.add_assoc]
    exact rest.last

section Width

variable {w : Nat} {wild : Nat → BitVec w} {buf : Memory} {dataLen pos : Nat}

/-- The number that `more + 1` bytes spell, the first of them at a given shift. -/
def groupsValue (wild : Nat → BitVec w) (buf : Memory) (pos shift : Nat) : Nat → BitVec w
  | 0 => group wild buf pos shift
  | more + 1 => group wild buf pos shift |||
      groupsValue wild buf (pos + 1) ((shift + 7) % 2 ^ 32) more

theorem decodeLast_of_groups (tmpPos : Nat) (v : BitVec w) (shift more : Nat)
    (groups : Groups buf tmpPos more) (inside : tmpPos + more < dataLen) :
    decodeLast wild buf dataLen pos (decodeLoop wild buf dataLen tmpPos v shift) =
      ⟨some (v ||| groupsValue wild buf tmpPos shift more), tmpPos + more + 1⟩ := by
  induction more generalizing tmpPos v shift with
  | zero =>
    have last : continues (buf tmpPos) = false := groups.last
    have behind : ¬dataLen ≤ tmpPos := by omega
    simp [decodeLoop, last, decodeLast, behind, groupsValue]
  | succ more ih =>
    have first : continues (buf tmpPos) = true := groups.running 0 (by omega)
    have behind : ¬dataLen ≤ tmpPos := by omega
    have rest : Groups buf (tmpPos + 1) more := by
      refine ⟨fun k within => ?_, ?_⟩
      · rw [Nat.add_assoc, Nat.add_comm 1 k]
        exact groups.running (k + 1) (by omega)
      · rw [Nat.add_assoc, Nat.add_comm 1 more]
        exact groups.last
    rw [decodeLoop, if_pos first, if_neg behind, ih _ _ _ rest (by omega), groupsValue, BitVec.or_assoc]
    congr 1
    omega

/-- The loop either runs out of the message or ends behind a number inside it. -/
theorem decodeLast_cases (tmpPos : Nat) (v : BitVec w) (shift : Nat) :
    decodeLast wild buf dataLen pos (decodeLoop wild buf dataLen tmpPos v shift) = ⟨none, pos⟩ ∨
      ∃ more, Groups buf tmpPos more ∧ tmpPos + more < dataLen := by
  fun_induction decodeLoop wild buf dataLen tmpPos v shift with
  | case1 tmpPos v shift announced outside => exact .inl rfl
  | case2 tmpPos v shift announced inside ih =>
    rcases ih with failed | ⟨more, rest, within⟩
    · exact .inl failed
    · exact .inr ⟨more + 1, rest.succ announced, by omega⟩
  | case3 tmpPos v shift last =>
    by_cases outside : dataLen ≤ tmpPos
    · exact .inl (if_pos outside)
    · exact .inr ⟨0, .zero (Bool.eq_false_iff.mpr last), by omega⟩

theorem decodeVi_of_groups {more : Nat} (groups : Groups buf pos more) (inside : pos + more < dataLen) :
    decodeVi wild buf dataLen pos = ⟨some (groupsValue wild buf pos 0 more), pos + more + 1⟩ := by
  rw [decodeVi, decodeLast_of_groups pos 0 0 more groups inside]
  congr 2
  exact zero_or

/-- A decoder reads a whole number inside the message, or it fails where it stood. -/
theorem decodeVi_cases (wild : Nat → BitVec w) (buf : Memory) (dataLen pos : Nat) :
    decodeVi wild buf dataLen pos = ⟨none, pos⟩ ∨ ∃ more, Groups buf pos more ∧ pos + more < dataLen ∧
        decodeVi wild buf dataLen pos = ⟨some (groupsValue wild buf pos 0 more), pos + more + 1⟩ := by
  rcases decodeLast_cases pos 0 0 with failed | ⟨more, groups, inside⟩
  · exact .inl failed
  · exact .inr ⟨more, groups, inside, decodeVi_of_groups groups inside⟩

end Width

/-! ### What the encoders write -/

section Width

variable {w : Nat} {wild : Nat → BitVec w}

def encodedBytes (v : BitVec w) : List (BitVec 8) :=
  if obMaxV 1 < v.toNat then (v ||| 0x80#w).setWidth 8 :: encodedBytes (v >>> 7)
  else [(v &&& 0x7f#w).setWidth 8]
termination_by v.toNat
decreasing_by
  rename_i larger
  simp only [obMaxV] at larger
  simp only [toNat_ushiftRight, Nat.shiftRight_eq_div_pow]
  omega

theorem encodeLoop_writes (buf : Memory) (pos : Nat) (v : BitVec w) :
    write (encodeLoop buf pos v).1 (encodeLoop buf pos v).2.1
        [((encodeLoop buf pos v).2.2 &&& 0x7f#w).setWidth 8] = write buf pos (encodedBytes v) ∧
      (encodeLoop buf pos v).2.1 + 1 = pos + (encodedBytes v).length := by
  fun_induction encodeLoop buf pos v with
  | case1 buf pos v larger ih =>
    rw [encodedBytes, if_pos larger, ih.1, ih.2]
    refine ⟨write_append buf pos [_] _, ?_⟩
    simp only [List.length_cons]
    omega
  | case2 buf pos v small =>
    rw [encodedBytes, if_neg small]
    exact ⟨rfl, rfl⟩

variable {pos : Nat} {v : BitVec w}

theorem encodeVi_writes {needed : Nat} {buf : Memory} {bufLen : Int}
    (success : (encodeVi needed buf bufLen pos v).success = true) :
    encodeVi needed buf bufLen pos v = ⟨true, write buf pos (encodedBytes v), pos + (encodedBytes v).length⟩ := by
  unfold encodeVi at success ⊢
  split at success
  · rename_i fits
    obtain ⟨memory, stop⟩ := encodeLoop_writes buf pos v
    rw [if_pos fits]
    simp only [memory, stop]
  · cases success

theorem getLsbD_groupMask (wide : 8 ≤ w) (k : Nat) : (0x7f#w).getLsbD k = decide (k < 7) := by
  rw [getLsbD_ofNat, show 0x7f = 2 ^ 7 - 1 from rfl, Nat.testBit_two_pow_sub_one, ← Bool.decide_and]
  exact decide_eq_decide.mpr (by omega)

theorem group_or_rest (wide : 8 ≤ w) (v : BitVec w) (shift : Nat) :
    (v &&& 0x7f#w) <<< shift ||| (v >>> 7) <<< (shift + 7) = v <<< shift := by
  apply eq_of_getLsbD_eq
  intro k inside
  simp only [getLsbD_or, getLsbD_shiftLeft, getLsbD_and, getLsbD_ushiftRight, getLsbD_groupMask wide]
  by_cases low : k < shift
  · grind
  grind

theorem signExtend_group (wide : 8 ≤ w) {byte : BitVec 8} (low : ∀ k < 7, byte.getLsbD k = v.getLsbD k) :
    byte.signExtend w &&& 0x7f#w = v &&& 0x7f#w := by
  apply eq_of_getLsbD_eq
  intro k inside
  simp only [getLsbD_and, getLsbD_groupMask wide, getLsbD_signExtend]
  grind

theorem continues_eq (byte : BitVec 8) : continues byte = byte.getLsbD 7 := by
  revert byte
  decide +kernel

theorem runningByte_spec (wide : 8 ≤ w) (v : BitVec w) : continues ((v ||| 0x80#w).setWidth 8) = true ∧
      ((v ||| 0x80#w).setWidth 8).signExtend w &&& 0x7f#w = v &&& 0x7f#w := by
  have flag : ∀ k, (0x80#w).getLsbD k = decide (k = 7) := by
    intro k
    rw [getLsbD_ofNat, show 0x80 = 2 ^ 7 from rfl, Nat.testBit_two_pow, ← Bool.decide_and]
    exact decide_eq_decide.mpr (by omega)
  refine ⟨?_, signExtend_group wide fun k low => ?_⟩
  · rw [continues_eq]
    simp [flag]
  grind

theorem lastByte_spec (wide : 8 ≤ w) (v : BitVec w) : continues ((v &&& 0x7f#w).setWidth 8) = false ∧
      ((v &&& 0x7f#w).setWidth 8).signExtend w &&& 0x7f#w = v &&& 0x7f#w := by
  refine ⟨?_, signExtend_group wide fun k low => ?_⟩
  · rw [continues_eq]
    simp [getLsbD_groupMask wide]
  · have inByte : k < 8 := by omega
    simp [getLsbD_groupMask wide, low, inByte]

/-- Wherever the bytes of a value stand, they are read as that value. The shift stays below the
width as long as there are bits left to place, so no byte meets the undefined shift. -/
theorem groups_of_holds (wild : Nat → BitVec w) (wide : 8 ≤ w) (narrow : w ≤ 64) {message : Memory} (shift : Nat)
    (holds : Holds (fun k => message (pos + k)) (encodedBytes v)) (inside : shift < w)
    (fits : v.toNat < 2 ^ (w - shift)) :
    ∃ more, more + 1 = (encodedBytes v).length ∧ Groups message pos more ∧
      groupsValue wild message pos shift more = v <<< shift := by
  fun_induction encodedBytes v generalizing pos shift with
  | case1 v larger ih =>
    have first : message pos = (v ||| 0x80#w).setWidth 8 := (holds_cons.mp holds).1
    have rest : Holds (fun k => message (pos + 1 + k)) (encodedBytes (v >>> 7)) :=
      Holds.behind (List.singleton_append ▸ holds)
    obtain ⟨announced, low⟩ := runningByte_spec wide v
    have longer : 7 < w - shift := by
      by_contra short
      have power : 2 ^ (w - shift) ≤ 2 ^ 7 := Nat.pow_le_pow_right (by omega) (by omega)
      simp only [obMaxV] at larger
      omega
    have wrapped : (shift + 7) % 2 ^ 32 = shift + 7 := Nat.mod_eq_of_lt (by omega)
    have smaller : (v >>> 7).toNat < 2 ^ (w - (shift + 7)) := by
      rw [toNat_ushiftRight, Nat.shiftRight_eq_div_pow]
      apply Nat.div_lt_of_lt_mul
      rwa [← Nat.pow_add, show 7 + (w - (shift + 7)) = w - shift by omega]
    obtain ⟨more, length, groups, value⟩ := ih (shift + 7) rest (by omega) smaller
    refine ⟨more + 1, by rw [List.length_cons, length], groups.succ (by rw [first, announced]), ?_⟩
    rw [groupsValue, wrapped, value, group, if_pos inside, first, low, group_or_rest wide]
  | case2 v small =>
    have first : message pos = (v &&& 0x7f#w).setWidth 8 := (holds_cons.mp holds).1
    obtain ⟨last, low⟩ := lastByte_spec wide v
    refine ⟨0, rfl, .zero (by rw [first, last]), ?_⟩
    have rest : v >>> 7 = 0#w := by
      apply eq_of_toNat_eq
      rw [toNat_ushiftRight, Nat.shiftRight_eq_div_pow]
      simp only [obMaxV] at small
      simp only [toNat_ofNat, Nat.zero_mod]
      omega
    rw [groupsValue, group, if_pos inside, first, low, ← group_or_rest wide v shift, rest]
    simp

/-- The decoder of a width returns what the encoder of that width wrote, whatever stands
before and behind it, and stops where the encoder stopped. -/
theorem decodeVi_encodedBytes (wide : 8 ≤ w) (narrow : w ≤ 64) {message : Memory} {dataLen : Nat}
    (holds : Holds (fun k => message (pos + k)) (encodedBytes v))
    (inside : pos + (encodedBytes v).length ≤ dataLen) :
    decodeVi wild message dataLen pos = ⟨some v, pos + (encodedBytes v).length⟩ := by
  obtain ⟨more, length, groups, value⟩ := groups_of_holds wild wide narrow 0 holds (by omega) v.isLt
  rw [decodeVi_of_groups groups (by omega), value, ← length, shiftLeft_zero, Nat.add_assoc]

end Width

end IMBridge.Serialization
