import IMBridge.Serialization.VarInt

/-!
The strings of `serialization.h`: a length, so many bytes, and a zero byte behind them. Both
decoders compare the length with what is left of the message and then step over the zero byte as
well. Pointers are not null, and lengths and positions are not negative.
-/

namespace IMBridge.Serialization

open IMBridge.Lib Buffer

def encodedLengthVstr (len : BitVec 64) : Int :=
  encodedLengthVi64 len + len.toInt + 1

def encodeVstr (buf : Memory) (bufLen : Int) (pos : Nat) (vbuf : Option Memory)
    (len : BitVec 64) : Written :=
  -- the room needed is cut to an `int32_t` before the comparison
  if 0 ≤ len.toInt ∧ (BitVec.ofInt 32 (encodedLengthVstr len)).toInt ≤ bufLen - pos then
    let prefixed := encodeVi64 buf bufLen pos len
    let copied : Written :=
      match vbuf with
      | some bytes =>
        if prefixed.success = true ∧ 0 < len.toInt then
          ⟨true, write prefixed.buf prefixed.pos (Buffer.read bytes 0 len.toNat),
            prefixed.pos + len.toNat⟩
        else prefixed
      | none => prefixed
    ⟨prefixed.success, write copied.buf copied.pos [0], copied.pos + 1⟩
  else ⟨false, buf, pos⟩

structure DecodedString where
  /-- The offset of the returned pointer from `buf`; `none` is the null pointer. -/
  str : Option Nat
  lenp : Int
  pos : Nat
  deriving DecidableEq, Repr

/-- `decode_vstr`, the overload that returns a pointer into the message -/
def decodeVstr (wild : Nat → BitVec 64) (buf : Memory) (dataLen pos : Nat) (lenp : Int) :
    DecodedString :=
  match decodeVi64 wild buf dataLen pos with
  | ⟨none, _⟩ => ⟨none, -1, pos⟩
  | ⟨some tmpLen, tmpPos⟩ =>
    if 0 ≤ tmpLen.toInt then
      if tmpLen.toInt ≤ (dataLen : Int) - tmpPos then
        ⟨some tmpPos, tmpLen.toInt, tmpPos + (tmpLen.toNat + 1)⟩
      else ⟨none, -1, pos⟩
    else ⟨none, lenp, pos⟩

/-- `decode_vstr`, the overload that copies the string to `dest` -/
def decodeVstrInto (wild : Nat → BitVec 64) (buf : Memory) (dataLen pos : Nat) (dest : Memory)
    (bufLen : Int) (lenp : Int) : DecodedString × Memory :=
  if bufLen < 0 then (⟨none, lenp, pos⟩, dest)
  else
    match decodeVi64 wild buf dataLen pos with
    | ⟨none, _⟩ => (⟨none, -1, pos⟩, dest)
    | ⟨some tmpLen, tmpPos⟩ =>
      if bufLen < tmpLen.toInt then (⟨none, -1, pos⟩, dest)
      else if 0 ≤ tmpLen.toInt then
        if tmpLen.toInt ≤ (dataLen : Int) - tmpPos then
          (⟨some tmpPos, tmpLen.toInt, tmpPos + (tmpLen.toNat + 1)⟩,
            write dest 0 (Buffer.read buf tmpPos tmpLen.toNat))
        else (⟨none, -1, pos⟩, dest)
      else (⟨none, lenp, pos⟩, dest)

/-! ### Staying inside the message -/

/-- A decoder failed where it stood, or succeeded without leaving the message. -/
def Inside (dataLen pos : Nat) (failed : Prop) (stop : Nat) : Prop :=
  failed ∧ stop = pos ∨ ¬failed ∧ stop ≤ dataLen

structure StayInside (wild64 : Nat → BitVec 64) (wild32 : Nat → BitVec 32) (buf : Memory)
    (dataLen pos : Nat) : Prop where
  vi64 : Inside dataLen pos ((decodeVi64 wild64 buf dataLen pos).val = none)
    (decodeVi64 wild64 buf dataLen pos).pos
  vi32 : Inside dataLen pos ((decodeVi32 wild32 buf dataLen pos).val = none)
    (decodeVi32 wild32 buf dataLen pos).pos
  vstr : ∀ lenp, Inside dataLen pos ((decodeVstr wild64 buf dataLen pos lenp).str = none)
    (decodeVstr wild64 buf dataLen pos lenp).pos
  vstrInto : ∀ dest bufLen lenp,
    Inside dataLen pos ((decodeVstrInto wild64 buf dataLen pos dest bufLen lenp).1.str = none)
      (decodeVstrInto wild64 buf dataLen pos dest bufLen lenp).1.pos

/-- At `pos` stands a length, and behind it the message has exactly so many bytes: the string
is there, its terminator is not. -/
def LacksTerminator (wild : Nat → BitVec 64) (buf : Memory) (dataLen pos : Nat) : Prop :=
  ∃ more, Groups buf pos more ∧ 0 ≤ (groupsValue wild buf pos 0 more).toInt ∧
    ((pos + more + 1 : Nat) : Int) + (groupsValue wild buf pos 0 more).toInt = dataLen

section Inside

variable {wild : Nat → BitVec 64} {buf : Memory} {dataLen pos : Nat}

theorem decodeVi_inside {w : Nat} (wild : Nat → BitVec w) (buf : Memory) (dataLen pos : Nat) :
    Inside dataLen pos ((decodeVi wild buf dataLen pos).val = none) (decodeVi wild buf dataLen pos).pos := by
  rcases decodeVi_cases wild buf dataLen pos with failed | ⟨more, groups, inside, read⟩
  · rw [failed]
    exact .inl ⟨rfl, rfl⟩
  · rw [read]
    exact .inr ⟨by simp, inside⟩

theorem toInt_eq_toNat {len : BitVec 64} (positive : 0 ≤ len.toInt) : len.toInt = (len.toNat : Int) := by
  rw [BitVec.toInt_eq_toNat_cond] at positive ⊢
  omega

section

variable (complete : ¬LacksTerminator wild buf dataLen pos)
include complete

theorem terminator_inside {more : Nat}
    (groups : Groups buf pos more) (positive : 0 ≤ (groupsValue wild buf pos 0 more).toInt)
    (room : (groupsValue wild buf pos 0 more).toInt ≤ (dataLen : Int) - (pos + more + 1 : Nat)) :
    pos + more + 1 + ((groupsValue wild buf pos 0 more).toNat + 1) ≤ dataLen := by
  have apart : ((pos + more + 1 : Nat) : Int) + (groupsValue wild buf pos 0 more).toInt ≠ dataLen :=
    fun same => complete ⟨more, groups, positive, same⟩
  rw [toInt_eq_toNat positive] at apart room
  omega

theorem decodeVstr_inside (lenp : Int) : Inside dataLen pos ((decodeVstr wild buf dataLen pos lenp).str = none)
      (decodeVstr wild buf dataLen pos lenp).pos := by
  unfold decodeVstr decodeVi64
  rcases decodeVi_cases wild buf dataLen pos with failed | ⟨more, groups, inside, read⟩
  · rw [failed]
    exact .inl ⟨rfl, rfl⟩
  rw [read]
  dsimp only
  split_ifs with positive room
  · exact .inr ⟨by simp, terminator_inside complete groups positive room⟩
  · exact .inl ⟨rfl, rfl⟩
  · exact .inl ⟨rfl, rfl⟩

theorem decodeVstrInto_inside (dest : Memory) (bufLen lenp : Int) :
    Inside dataLen pos ((decodeVstrInto wild buf dataLen pos dest bufLen lenp).1.str = none)
      (decodeVstrInto wild buf dataLen pos dest bufLen lenp).1.pos := by
  unfold decodeVstrInto decodeVi64
  split_ifs with noBuffer
  · exact .inl ⟨rfl, rfl⟩
  rcases decodeVi_cases wild buf dataLen pos with failed | ⟨more, groups, inside, read⟩
  · rw [failed]
    exact .inl ⟨rfl, rfl⟩
  rw [read]
  dsimp only
  split_ifs with long positive room
  · exact .inl ⟨rfl, rfl⟩
  · exact .inr ⟨by simp, terminator_inside complete groups positive room⟩
  · exact .inl ⟨rfl, rfl⟩
  · exact .inl ⟨rfl, rfl⟩

end

/-- Without its terminator a string is still accepted, and the position steps over the end. -/
theorem decodeVstr_of_lacksTerminator (lacking : LacksTerminator wild buf dataLen pos) (lenp : Int) :
    (decodeVstr wild buf dataLen pos lenp).str ≠ none ∧ (decodeVstr wild buf dataLen pos lenp).pos = dataLen + 1 := by
  obtain ⟨more, groups, positive, ends⟩ := lacking
  have inside : pos + more < dataLen := by omega
  unfold decodeVstr decodeVi64
  rw [decodeVi_of_groups groups inside]
  dsimp only
  rw [if_pos positive, if_pos (by omega)]
  rw [toInt_eq_toNat positive] at ends
  refine ⟨by simp, ?_⟩
  dsimp only
  omega

theorem stayInside_iff (wild32 : Nat → BitVec 32) :
    StayInside wild wild32 buf dataLen pos ↔ ¬LacksTerminator wild buf dataLen pos := by
  constructor
  · intro inside lacking
    obtain ⟨accepted, beyond⟩ := decodeVstr_of_lacksTerminator lacking 0
    rcases inside.vstr 0 with ⟨failed, -⟩ | ⟨-, within⟩
    · exact accepted failed
    · omega
  · intro complete
    exact
      { vi64 := decodeVi_inside wild buf dataLen pos
        vi32 := decodeVi_inside wild32 buf dataLen pos
        vstr := decodeVstr_inside complete
        vstrInto := decodeVstrInto_inside complete }

end Inside

/-! ### Reading back what was written -/

/-- A message that has, from `pos` on, the bytes an encoder wrote; all others are arbitrary. -/
def Carries (message : Memory) (pos : Nat) (written : Written) : Prop :=
  ∀ k, pos ≤ k → k < written.pos → message k = written.buf k

structure RoundTrips (wild64 : Nat → BitVec 64) (wild32 : Nat → BitVec 32) : Prop where
  vi64 : ∀ buf bufLen pos val, (encodeVi64 buf bufLen pos val).success = true →
    ∀ message dataLen, Carries message pos (encodeVi64 buf bufLen pos val) →
      (encodeVi64 buf bufLen pos val).pos ≤ dataLen →
      decodeVi64 wild64 message dataLen pos = ⟨some val, (encodeVi64 buf bufLen pos val).pos⟩
  vi32 : ∀ buf bufLen pos val, (encodeVi32 buf bufLen pos val).success = true →
    ∀ message dataLen, Carries message pos (encodeVi32 buf bufLen pos val) →
      (encodeVi32 buf bufLen pos val).pos ≤ dataLen →
      decodeVi32 wild32 message dataLen pos = ⟨some val, (encodeVi32 buf bufLen pos val).pos⟩
  vstr : ∀ buf bufLen pos bytes len, (encodeVstr buf bufLen pos (some bytes) len).success = true →
    ∀ message dataLen, Carries message pos (encodeVstr buf bufLen pos (some bytes) len) →
      (encodeVstr buf bufLen pos (some bytes) len).pos ≤ dataLen →
      ∀ lenp, ∃ start,
        decodeVstr wild64 message dataLen pos lenp =
          ⟨some start, len.toInt, (encodeVstr buf bufLen pos (some bytes) len).pos⟩ ∧
        ∀ k < len.toNat, message (start + k) = bytes k
  vstrInto : ∀ buf bufLen pos bytes len,
    (encodeVstr buf bufLen pos (some bytes) len).success = true →
    ∀ message dataLen, Carries message pos (encodeVstr buf bufLen pos (some bytes) len) →
      (encodeVstr buf bufLen pos (some bytes) len).pos ≤ dataLen →
      ∀ dest destLen lenp, len.toInt ≤ destLen → ∃ start,
        (decodeVstrInto wild64 message dataLen pos dest destLen lenp).1 =
          ⟨some start, len.toInt, (encodeVstr buf bufLen pos (some bytes) len).pos⟩ ∧
        ∀ k < len.toNat,
          (decodeVstrInto wild64 message dataLen pos dest destLen lenp).2 k = bytes k

variable {message buf bytes : Memory} {pos dataLen : Nat} {bufLen : Int} {len : BitVec 64}

theorem Carries.holds {bytes : List (BitVec 8)}
    (carries : Carries message pos ⟨true, write buf pos bytes, pos + bytes.length⟩) :
    Holds (fun k => message (pos + k)) bytes := by
  intro k bound
  change message (pos + k) = _
  rw [carries (pos + k) (by omega) (Nat.add_lt_add_left bound pos)]
  exact write_inside buf pos bytes bound

theorem decodeVi_encodeVi {w needed : Nat} {val : BitVec w} (wild : Nat → BitVec w) (wide : 8 ≤ w) (narrow : w ≤ 64)
    (success : (encodeVi needed buf bufLen pos val).success = true)
    (carries : Carries message pos (encodeVi needed buf bufLen pos val))
    (inside : (encodeVi needed buf bufLen pos val).pos ≤ dataLen) :
    decodeVi wild message dataLen pos = ⟨some val, (encodeVi needed buf bufLen pos val).pos⟩ := by
  rw [encodeVi_writes success] at carries inside ⊢
  exact decodeVi_encodedBytes wide narrow carries.holds inside

def stringBytes (bytes : Memory) (len : BitVec 64) : List (BitVec 8) :=
  encodedBytes len ++ (Buffer.read bytes 0 len.toNat ++ [0])

theorem encodeVstr_writes (success : (encodeVstr buf bufLen pos (some bytes) len).success = true) :
    0 ≤ len.toInt ∧ encodeVstr buf bufLen pos (some bytes) len = ⟨true, write buf pos (stringBytes bytes len),
        pos + (stringBytes bytes len).length⟩ := by
  unfold encodeVstr at success ⊢
  split at success
  case isFalse => cases success
  rename_i fits
  rw [if_pos fits]
  have prefixed : encodeVi (encodedLengthVi64 len) buf bufLen pos len = _ := encodeVi_writes success
  refine ⟨fits.1, ?_⟩
  have length := toInt_eq_toNat fits.1
  simp only [encodeVi64, prefixed, true_and, stringBytes, List.length_append, read_length, List.length_singleton]
  by_cases filled : 0 < len.toInt
  · have terminated := write_append (write buf pos (encodedBytes len))
      (pos + (encodedBytes len).length) (Buffer.read bytes 0 len.toNat) [0]
    rw [read_length] at terminated
    simp only [if_pos filled]
    rw [terminated, write_append]
    simp only [Nat.add_assoc]
  · have empty : len.toNat = 0 := by omega
    rw [if_neg filled, write_append, empty]
    simp [Buffer.read, Nat.add_assoc]

section String

variable (wild : Nat → BitVec 64) {out : Written}
  (encoded : encodeVstr buf bufLen pos (some bytes) len = out) (success : out.success = true)
  (carries : Carries message pos out) (inside : out.pos ≤ dataLen)

include encoded success carries inside

/-- The three parts of a string in a message: its length, its bytes, and the zero byte that
makes the position behind it one that is still inside. -/
theorem string_parts : 0 ≤ len.toInt ∧ ∃ start, decodeVi64 wild message dataLen pos = ⟨some len, start⟩ ∧
      (∀ k < len.toNat, message (start + k) = bytes k) ∧ out.pos = start + (len.toNat + 1) := by
  obtain ⟨positive, written⟩ := encodeVstr_writes (encoded ▸ success)
  obtain rfl := encoded.symm.trans written
  have size : (stringBytes bytes len).length = (encodedBytes len).length + (len.toNat + 1) := by
    simp [stringBytes]
  dsimp only at inside
  refine ⟨positive, pos + (encodedBytes len).length, ?_, ?_, by dsimp only; omega⟩
  · exact decodeVi_encodedBytes (by omega) (by omega) carries.holds.left_of_append (by omega)
  · intro k bound
    have within : k < (Buffer.read bytes 0 len.toNat).length := by
      rwa [read_length]
    have cell := carries.holds.behind.left_of_append k within
    simp only [Buffer.read, List.get_eq_getElem, List.getElem_map, List.getElem_range, Nat.zero_add] at cell
    exact cell

theorem decodeVstr_encodeVstr (lenp : Int) :
    ∃ start, decodeVstr wild message dataLen pos lenp = ⟨some start, len.toInt, out.pos⟩ ∧
      ∀ k < len.toNat, message (start + k) = bytes k := by
  obtain ⟨positive, start, prefixed, same, stop⟩ := string_parts wild encoded success carries inside
  refine ⟨start, ?_, same⟩
  rw [decodeVstr, prefixed]
  grind

theorem decodeVstrInto_encodeVstr (dest : Memory) (destLen lenp : Int) (room : len.toInt ≤ destLen) :
    ∃ start, (decodeVstrInto wild message dataLen pos dest destLen lenp).1 = ⟨some start, len.toInt, out.pos⟩ ∧
      ∀ k < len.toNat, (decodeVstrInto wild message dataLen pos dest destLen lenp).2 k = bytes k := by
  obtain ⟨positive, start, prefixed, same, stop⟩ := string_parts wild encoded success carries inside
  have length := toInt_eq_toNat positive
  refine ⟨start, ?_⟩
  rw [decodeVstrInto, if_neg (by omega), prefixed]
  dsimp only
  rw [if_neg (by omega), if_pos positive, if_pos (by omega), stop]
  refine ⟨rfl, fun k bound => ?_⟩
  have within : k < (Buffer.read message start len.toNat).length := by
    rwa [read_length]
  change write dest 0 (Buffer.read message _ len.toNat) k = bytes k
  rw [holds_write_zero dest _ k within, ← same k bound]
  simp [Buffer.read]

end String

theorem roundTrips (wild64 : Nat → BitVec 64) (wild32 : Nat → BitVec 32) : RoundTrips wild64 wild32 where
  vi64 _ _ _ _ success _ _ carries inside := decodeVi_encodeVi wild64 (by omega) (by omega) success carries inside
  vi32 _ _ _ _ success _ _ carries inside := decodeVi_encodeVi wild32 (by omega) (by omega) success carries inside
  vstr _ _ _ _ _ success _ _ carries inside := decodeVstr_encodeVstr wild64 rfl success carries inside
  vstrInto _ _ _ _ _ success _ _ carries inside := decodeVstrInto_encodeVstr wild64 rfl success carries inside

/-- Every message is decoded inside its bounds, and what was encoded is read back, unless the
message ends with a string whose terminator is missing. -/
theorem decoding_exact_iff (wild64 : Nat → BitVec 64) (wild32 : Nat → BitVec 32) (buf : Memory)
    (dataLen pos : Nat) :
    StayInside wild64 wild32 buf dataLen pos ∧ RoundTrips wild64 wild32 ↔
      ¬LacksTerminator wild64 buf dataLen pos := by
  rw [stayInside_iff]
  exact and_iff_left (roundTrips wild64 wild32)

/-- Two bytes, the length one and a letter: the decoder accepts the string and leaves the
position at three. -/
theorem unterminated_string_oversteps :
    (decodeVstr (fun _ => 0) (fun k => if k = 0 then 1 else 0x61) 2 0 0).pos = 3 ∧
      ¬StayInside (fun _ => 0) (fun _ => 0) (fun k => if k = 0 then 1 else 0x61) 2 0 := by
  have read : decodeVi64 (fun _ => 0) (fun k => if k = 0 then 1 else 0x61) 2 0 = ⟨some 1, 1⟩ := by
    rw [decodeVi64, decodeVi, decodeLoop]
    decide
  have stop : (decodeVstr (fun _ => 0) (fun k => if k = 0 then 1 else 0x61) 2 0 0).pos = 3 ∧
      (decodeVstr (fun _ => 0) (fun k => if k = 0 then 1 else 0x61) 2 0 0).str ≠ none := by
    rw [decodeVstr, read]
    decide
  refine ⟨stop.1, fun inside => ?_⟩
  rcases inside.vstr 0 with ⟨failed, -⟩ | ⟨-, within⟩
  · exact stop.2 failed
  · omega

end IMBridge.Serialization
