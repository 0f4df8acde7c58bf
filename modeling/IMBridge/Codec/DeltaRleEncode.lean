import IMBridge.Codec.DeltaRle

/-!
What the encoder writes, as a list of fields. A code that begins with seven zero bits is a repeat
count.
-/

namespace IMBridge.Codec

open IMBridge.Lib List
open IMBridge.Lib.BitStream

theorem Writer.Emitted.put_two {start : Nat} {fields : List Field} {s : Writer}
    (emitted : Emitted start fields s) {low high width width' both value : Nat}
    (low_fits : low < 2 ^ width) (high_fits : high < 2 ^ width') (widths : both = width + width')
    (split : value = low + 2 ^ width * high) (room : s.br + both ≤ 64) :
    Emitted start (fields ++ [⟨low, width⟩, ⟨high, width'⟩]) (s.put32 both value) := by
  have fits : value < 2 ^ both := by
    have each : ∀ field ∈ [(⟨low, width⟩ : Field), ⟨high, width'⟩], field.Fits := by
      simp [*, Field.Fits]
    simpa [pack, widths, split] using pack_lt each
  have written := emitted.put32 fits room
  refine ⟨written.small, written.inside, written.placed, ?_, ?_⟩
  · rw [written.spelled, pack_append, pack_append]
    simp [pack, split]
  · rw [written.covered]
    simp [widths]

namespace DeltaRle

def repeatFields (r : Nat) : List Field :=
  if baseRepeatCnt < r then
    [⟨0, 7⟩, ⟨byteCount (r - baseRepeatCnt) - 1, 3⟩] ++
      Writer.putFields .uint64 (8 * byteCount (r - baseRepeatCnt)) (r - baseRepeatCnt)
  else replicate r ⟨1, 1⟩

def deltaFields (t : UIntT) (delta : Nat) : List Field :=
  if delta = 0 then []
  else if delta < 2 ^ (t.N2 - 1) then [⟨2, 2⟩, ⟨delta, t.N2⟩]
  else if delta < 2 ^ (t.N3 - 1) then [⟨4, 3⟩, ⟨delta, t.N3⟩]
  else if delta < 2 ^ (t.N4 - 1) then [⟨8, 4⟩, ⟨delta, t.N4⟩]
  else [⟨0, 4⟩, ⟨byteCount delta - 1, 3⟩] ++ Writer.putFields t (8 * byteCount delta) delta

def streamFields (t : UIntT) : List (BitVec t.bits) → Nat → List Field
  | [], r => repeatFields r
  | delta :: deltas, r =>
    if delta = 0 then streamFields t deltas (r + 1)
    else repeatFields r ++ (deltaFields t (ZigZag.encode delta).toNat ++ streamFields t deltas 0)

theorem shiftLeft_three (n : Nat) : n <<< 3 = 8 * n := by
  rw [Nat.shiftLeft_eq]
  omega

theorem byteCount_pos {v : Nat} (pos : 0 < v) : 0 < byteCount v := by
  by_contra none
  have small : v < 2 ^ (8 * 0) := byteCount_le_iff.mp (by omega)
  simp at small
  omega

theorem byteCount_le {v n : Nat} (small : v < 2 ^ (8 * n)) : byteCount v ≤ n := byteCount_le_iff.mpr small

theorem byteCount_le_size {t : UIntT} {v : Nat} (bounded : v < 2 ^ t.bits) : byteCount v ≤ t.size ∧ t.size ≤ 8 :=
  ⟨byteCount_le (Nat.mul_comm 8 t.size ▸ bounded), by cases t <;> decide⟩

theorem lt_two_pow_of_pred {v n : Nat} (less : v < 2 ^ (n - 1)) : v < 2 ^ n :=
  less.trans_le (Nat.pow_le_pow_right (by decide) (Nat.sub_le _ 1))

variable {start : Nat} {fields : List Field} {s : Writer}

theorem putRepeats_emitted (emitted : Writer.Emitted start fields s) (low : s.br < 8) (r : Nat) :
    Writer.Emitted start (fields ++ replicate r ⟨1, 1⟩) (putRepeats r s) ∧ (putRepeats r s).br < 8 := by
  induction r generalizing fields s with
  | zero => simpa [putRepeats] using ⟨emitted, low⟩
  | succ r ih =>
    have one : 1 < 2 ^ 1 := by decide
    obtain ⟨slid, low'⟩ := (emitted.put32 one (by omega)).eSlide
    obtain ⟨done, last⟩ := ih slid low'
    rw [append_assoc] at done
    exact ⟨done, last⟩

theorem putRepeatCnt_emitted (emitted : Writer.Emitted start fields s) (low : s.br < 8) {r : Nat}
    (bounded : r < 2 ^ 64) :
    Writer.Emitted start (fields ++ repeatFields r) (putRepeatCnt s r) ∧ (putRepeatCnt s r).br < 8 := by
  rw [putRepeatCnt, repeatFields]
  split
  next long =>
    have few : byteCount (r - baseRepeatCnt) ≤ 8 := byteCount_le (by omega)
    have count : byteCount (r - baseRepeatCnt) - 1 < 2 ^ 3 := by omega
    have zero : 0 < 2 ^ 7 := by decide
    have value : (byteCount (r - baseRepeatCnt) - 1) <<< (4 + 3) = 0 + 2 ^ 7 * (byteCount (r - baseRepeatCnt) - 1) := by
      rw [Nat.shiftLeft_eq, Nat.zero_add, Nat.mul_comm]
    have head := emitted.put_two zero count (show 4 + 3 + 3 = 7 + 3 from rfl) value (by omega)
    rw [← append_assoc, ← shiftLeft_three]
    exact (head.put64 (shiftLeft_three _ ▸ lt_two_pow_byteCount _) (show s.br + 10 ≤ 17 by omega)
      (by rw [shiftLeft_three]; omega)).eSlide
  next => exact putRepeats_emitted emitted low r

theorem short_form (delta k : Nat) : delta <<< (k + 1) ||| 2 ^ k = 2 ^ k + 2 ^ (k + 1) * delta := by
  have low : 2 ^ k < 2 ^ (k + 1) := Nat.pow_lt_pow_right (by decide) (Nat.lt_succ_self k)
  rw [← Nat.shiftLeft_add_eq_or_of_lt low, Nat.shiftLeft_eq, Nat.add_comm, Nat.mul_comm]

theorem putDelta_emitted (emitted : Writer.Emitted start fields s) (low : s.br < 8) {t : UIntT}
    {delta : Nat} (bounded : delta < 2 ^ t.bits) :
    Writer.Emitted start (fields ++ deltaFields t delta) (putDelta t s delta) ∧ (putDelta t s delta).br < 8 := by
  have widths : t.N2 + 2 ≤ 24 ∧ t.N3 + 3 ≤ 24 ∧ t.N4 + 4 ≤ 24 := by cases t <;> decide
  rw [putDelta, deltaFields]
  simp only [Nat.one_shiftLeft]
  split_ifs with zero two three four
  · simpa using emitted.eSlide
  · exact (emitted.put_two (by decide) (lt_two_pow_of_pred two) (Nat.add_comm _ _) (short_form delta 1)
      (by omega)).eSlide
  · exact (emitted.put_two (by decide) (lt_two_pow_of_pred three) (Nat.add_comm _ _) (short_form delta 2)
      (by omega)).eSlide
  · exact (emitted.put_two (by decide) (lt_two_pow_of_pred four) (Nat.add_comm _ _) (short_form delta 3)
      (by omega)).eSlide
  · obtain ⟨few, size⟩ := byteCount_le_size bounded
    have count : byteCount delta - 1 < 2 ^ 3 := by omega
    have zero : 0 < 2 ^ 4 := by decide
    have value : (byteCount delta - 1) <<< 4 = 0 + 2 ^ 4 * (byteCount delta - 1) := by
      rw [Nat.shiftLeft_eq, Nat.zero_add, Nat.mul_comm]
    have head := emitted.put_two zero count (show 4 + 3 = 4 + 3 from rfl) value (by omega)
    rw [← append_assoc, ← shiftLeft_three]
    refine (head.put t (shiftLeft_three _ ▸ lt_two_pow_byteCount _) (show s.br + 7 ≤ 17 by omega) ?_).eSlide
    rw [shiftLeft_three, UIntT.bits]
    omega

theorem encodeDeltaAndRepeatCnt_emitted (emitted : Writer.Emitted start fields s) (low : s.br < 8)
    {t : UIntT} {outLen r : Nat} {delta delta' : BitVec t.bits} {s' : Writer} (bounded : r < 2 ^ 64)
    (encoded : encodeDeltaAndRepeatCnt t outLen s r delta = .ok (s', delta')) :
    Writer.Emitted start (fields ++ (repeatFields r ++ deltaFields t (ZigZag.encode delta).toNat)) s' ∧ s'.br < 8 := by
  rw [encodeDeltaAndRepeatCnt] at encoded
  split at encoded
  next => cases encoded
  next =>
    obtain ⟨rfl, -⟩ := Prod.mk.inj (Except.ok.inj encoded)
    obtain ⟨counted, low⟩ := putRepeatCnt_emitted emitted low bounded
    rw [← append_assoc]
    exact putDelta_emitted counted low (BitVec.isLt _)

variable {t : UIntT} (tr : Transform t.bits)

def deltas : tr.State → List (BitVec t.bits) → List (BitVec t.bits)
  | _, [] => []
  | state, value :: values => (tr.delta state value).1 :: deltas (tr.delta state value).2 values

structure Pending (start : Nat) (fields : List Field) (st : EncodeState tr) : Prop where
  emitted : Writer.Emitted start fields st.s
  low : st.s.br < 8
  zero : 0 < st.r → st.delta = 0

variable {tr}

theorem encodeOne_pending {st st' : EncodeState tr} {outLen : Nat} {value : BitVec t.bits}
    (pending : Pending tr start fields st) (bounded : st.r < 2 ^ 64)
    (encoded : encodeOne tr outLen st value = .ok st') (later : List (BitVec t.bits)) :
    ∃ more, Pending tr start (fields ++ more) st' ∧ st'.r ≤ st.r + 1 ∧ st'.state = (tr.delta st.state value).2 ∧
      streamFields t ((tr.delta st.state value).1 :: later) st.r = more ++ streamFields t later st'.r := by
  rw [encodeOne] at encoded
  rw [streamFields]
  split at encoded
  next same =>
    obtain rfl := Except.ok.inj encoded
    refine ⟨[], ⟨?_, pending.low, fun _ => same⟩, Nat.le_refl _, rfl, ?_⟩
    · rw [append_nil]
      exact pending.emitted
    · rw [if_pos same]
      rfl
  next differs =>
    split at encoded
    next => cases encoded
    next written ran =>
      obtain rfl := Except.ok.inj encoded
      obtain ⟨emitted, low⟩ := encodeDeltaAndRepeatCnt_emitted pending.emitted pending.low bounded ran
      refine ⟨_, ⟨emitted, low, fun pos => absurd pos (Nat.lt_irrefl 0)⟩, Nat.zero_le _, rfl, ?_⟩
      rw [if_neg differs, append_assoc]

theorem encodeAll_pending {values : List (BitVec t.bits)} {st st' : EncodeState tr} {outLen : Nat}
    (pending : Pending tr start fields st) (bounded : st.r + values.length < 2 ^ 64)
    (encoded : values.foldlM (encodeOne tr outLen) st = .ok st') :
    ∃ more, Pending tr start (fields ++ more) st' ∧ st'.r < 2 ^ 64 ∧
      streamFields t (deltas tr st.state values) st.r = more ++ repeatFields st'.r := by
  induction values generalizing st fields with
  | nil =>
    obtain rfl := Except.ok.inj encoded
    rw [length_nil, Nat.add_zero] at bounded
    refine ⟨[], ?_, bounded, rfl⟩
    rwa [append_nil]
  | cons value values ih =>
    rw [length_cons] at bounded
    rw [foldlM_cons] at encoded
    cases ran : encodeOne tr outLen st value with
    | error err =>
      rw [ran] at encoded
      cases encoded
    | ok next =>
      rw [ran] at encoded
      obtain ⟨first, pending, short, state, fields⟩ :=
        encodeOne_pending pending (by omega) ran (deltas tr next.state values)
      obtain ⟨more, pending, few, stream⟩ := ih pending (by omega) encoded
      refine ⟨first ++ more, ?_, few, ?_⟩
      · rwa [← append_assoc]
      · rw [deltas, ← state, fields, stream, append_assoc]

/-- The encoded text spells the fields of the differences. -/
theorem encode_spec {values : List (BitVec t.bits)} {out out' : Nat → UInt8}
    {outLen outPos outPos' : Nat} (bounded : values.length < 2 ^ 64)
    (encoded : encode tr values out outLen outPos = .ok (out', outPos')) :
    outPos ≤ outPos' ∧ leNat (Buffer.read out' outPos (outPos' - outPos)) =
        pack (streamFields t (deltas tr tr.init values) 0) ∧
      outPos' - outPos = (width (streamFields t (deltas tr tr.init values) 0) + 7) / 8 := by
  have empty : Pending tr outPos [] ⟨tr.init, 0, 0, ⟨0, 0, outPos, out⟩⟩ := by
    refine ⟨⟨by simp, by simp, Nat.le_refl _, ?_, ?_⟩, by simp, fun _ => rfl⟩
    · simp [pack, Buffer.read]
    · simp
  rw [encode] at encoded
  split at encoded
  next => cases encoded
  next st looped =>
    obtain ⟨more, pending, few, stream⟩ := encodeAll_pending empty (by simpa using bounded) looped
    rw [stream]
    split at encoded
    next pos =>
      split at encoded
      next => cases encoded
      next written ran =>
        obtain ⟨emitted, -⟩ := encodeDeltaAndRepeatCnt_emitted pending.emitted pending.low few ran
        have last : deltaFields t (ZigZag.encode st.delta).toNat = [] := by
          rw [pending.zero pos]
          simp [deltaFields, ZigZag.encode]
        rw [last, append_nil, nil_append] at emitted
        exact emitted.flush encoded
    next none =>
      have last : more ++ repeatFields st.r = more := by
        have zero : st.r = 0 := by omega
        simp [repeatFields, zero]
      rw [last]
      exact pending.emitted.flush encoded

end DeltaRle

end IMBridge.Codec
