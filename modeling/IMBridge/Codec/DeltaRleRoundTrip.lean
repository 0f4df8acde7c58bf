import IMBridge.Codec.DeltaRleEncode
import Mathlib.Data.Nat.Bitwise

/-!
Decoding what was encoded. One round of the loop reads one code; a run that has no code of its own
is read one element at a time.
-/

namespace IMBridge.Codec

open IMBridge.Lib List Writer Nat Transform
open IMBridge.Lib.BitStream

namespace DeltaRle

variable {r delta n : Nat} {later : List Field}

theorem repeatFields_fits (bounded : r < 2 ^ 64) : ∀ field ∈ repeatFields r, field.Fits := by
  rw [repeatFields]
  split
  next long =>
    have few : byteCount (r - baseRepeatCnt) ≤ 8 := byteCount_le (by omega)
    have count : byteCount (r - baseRepeatCnt) - 1 < 2 ^ 3 := by omega
    rw [forall_mem_append]
    refine ⟨?_, putFields_fits (lt_two_pow_byteCount _)⟩
    simpa [Field.Fits] using count
  next =>
    simp

theorem deltaFields_fits {t : UIntT} (bounded : delta < 2 ^ t.bits) : ∀ field ∈ deltaFields t delta, field.Fits := by
  rw [deltaFields]
  split_ifs with zero two three four
  · simp
  · simpa [Field.Fits] using lt_two_pow_of_pred two
  · simpa [Field.Fits] using lt_two_pow_of_pred three
  · simpa [Field.Fits] using lt_two_pow_of_pred four
  · obtain ⟨few, size⟩ := byteCount_le_size bounded
    have count : byteCount delta - 1 < 2 ^ 3 := by omega
    rw [forall_mem_append]
    refine ⟨?_, putFields_fits (lt_two_pow_byteCount _)⟩
    simpa [Field.Fits] using count

theorem streamFields_fits {t : UIntT} {deltas : List (BitVec t.bits)} (bounded : r + deltas.length < 2 ^ 64) :
    ∀ field ∈ streamFields t deltas r, field.Fits := by
  induction deltas generalizing r with
  | nil => exact repeatFields_fits (by simpa using bounded)
  | cons delta deltas ih =>
    rw [length_cons] at bounded
    rw [streamFields]
    split
    next => exact ih (by omega)
    next =>
      rw [forall_mem_append, forall_mem_append]
      exact ⟨repeatFields_fits (by omega), deltaFields_fits (BitVec.isLt _), ih (by omega)⟩

variable {t : UIntT} {bytes : List UInt8} {bit : Nat} {s : Reader}

theorem deltaBits_ge (t : UIntT) : 32 ≤ t.deltaBits := by cases t <;> decide

section

variable (reads : s.ReadsAt bytes bit)
include reads

variable (low : s.br < 8)
include low

theorem window_mod (small : n ≤ 32) : s.rsBw % 2 ^ t.deltaBits % 2 ^ n = leNat bytes / 2 ^ bit % 2 ^ n := by
  have wide := deltaBits_ge t
  rw [mod_mod_of_dvd _ (Nat.pow_dvd_pow 2 (by omega)), reads.rsBw_mod (by omega)]

theorem window_bit {i : Nat} (small : i < 32) :
    0 < s.rsBw % 2 ^ t.deltaBits &&& 2 ^ i ↔ leNat bytes / 2 ^ bit / 2 ^ i % 2 = 1 := by
  have both : s.rsBw % 2 ^ t.deltaBits / 2 ^ i % 2 = leNat bytes / 2 ^ bit / 2 ^ i % 2 := by
    have same := congrArg (· / 2 ^ i) (window_mod (t := t) reads low (show i + 1 ≤ 32 by omega))
    simpa only [pow_succ, mod_mul_right_div_self] using same
  rw [and_two_pow, ← both, testBit_eq_decide_div_mod_eq]
  grind

theorem window_payload {k : Nat} (few : k ≤ 4) (small : n ≤ 20) :
    bzhi32 ((s.rsBw % 2 ^ t.deltaBits) >>> k % 2 ^ 32) n = leNat bytes / 2 ^ (bit + k) % 2 ^ n := by
  have same := congrArg (· / 2 ^ k) (window_mod (t := t) reads low (show k + n ≤ 32 by omega))
  simp only [pow_add, mod_mul_right_div_self] at same
  rw [bzhi32, if_neg (by omega), and_two_pow_sub_one_eq_mod,
    mod_mod_of_dvd _ (Nat.pow_dvd_pow 2 (by omega)), shiftRight_eq_div_pow, same,
    Nat.div_div_eq_div_mul, ← pow_add]

/-- What `decodeToken` does, in terms of the bits at the reading position. -/
theorem decodeToken_eq : decodeToken t bytes s =
      if leNat bytes / 2 ^ bit / 2 ^ 0 % 2 = 1 then .ok (.delta 0, s.rMv (0 + 1))
      else if leNat bytes / 2 ^ bit / 2 ^ 1 % 2 = 1 then
        .ok (.delta (leNat bytes / 2 ^ (bit + 2) % 2 ^ t.N2), s.rMv (t.N2 + 2))
      else if leNat bytes / 2 ^ bit / 2 ^ 2 % 2 = 1 then
        .ok (.delta (leNat bytes / 2 ^ (bit + 3) % 2 ^ t.N3), s.rMv (t.N3 + 3))
      else if leNat bytes / 2 ^ bit / 2 ^ 3 % 2 = 1 then
        .ok (.delta (leNat bytes / 2 ^ (bit + 4) % 2 ^ t.N4), s.rMv (t.N4 + 4))
      else if (leNat bytes / 2 ^ bit % 2 ^ 7) >>> 4 ≤ 1 then
        if (leNat bytes / 2 ^ bit % 2 ^ 7) >>> 4 = 1 then .error .errUnexpected
        else
          let count := leNat bytes / 2 ^ (bit + 7) % 2 ^ 3
          let run := Reader.get .uint32 bytes ((s.rMv 7).rMv 3) ((count + 1) <<< 3)
          .ok (.repeatCnt run.1, run.2.dSlide bytes)
      else
        let long := Reader.get t bytes (s.rMv 7) (((leNat bytes / 2 ^ bit % 2 ^ 7) >>> 4 + 1) <<< 3)
        .ok (.delta (long.1 % 2 ^ t.deltaBits), long.2) := by
  have widths : t.N2 ≤ 20 ∧ t.N3 ≤ 20 ∧ t.N4 ≤ 20 := by cases t <;> decide
  have one : 0 < s.rsBw % 2 ^ t.deltaBits &&& 1 ↔ _ := window_bit reads low (show 0 < 32 by decide)
  have two : 0 < s.rsBw % 2 ^ t.deltaBits &&& 2 ↔ _ := window_bit reads low (show 1 < 32 by decide)
  have four : 0 < s.rsBw % 2 ^ t.deltaBits &&& 4 ↔ _ := window_bit reads low (show 2 < 32 by decide)
  have eight : 0 < s.rsBw % 2 ^ t.deltaBits &&& 8 ↔ _ := window_bit reads low (show 3 < 32 by decide)
  have head : (s.get32 (4 + 3)).1 = leNat bytes / 2 ^ bit % 2 ^ 7 := reads.get32_eq (by decide) (by omega)
  have count : ((s.get32 (4 + 3)).2.get32 3).1 = leNat bytes / 2 ^ (bit + 7) % 2 ^ 3 :=
    (reads.rMv 7).get32_eq (by decide) (show s.br + 7 ≤ 32 by omega)
  simp only [decodeToken, one, two, four, eight, window_payload reads low (show 2 ≤ 4 by decide) widths.1,
    window_payload reads low (show 3 ≤ 4 by decide) widths.2.1,
    window_payload reads low (show 4 ≤ 4 by decide) widths.2.2, head, count]
  rfl

end

def bitOf (s : Reader) : Nat := 8 * s.ip + s.br

theorem bitOf_rMv (s : Reader) (step : Nat) : bitOf (s.rMv step) = bitOf s + step := (Nat.add_assoc _ _ _).symm

/-- The window stands before these fields, which end at bit `stop`. -/
structure Stands (bytes : List UInt8) (stop : Nat) (fields : List Field) (s : Reader) : Prop where
  reads : s.ReadsAt bytes (bitOf s)
  follows : Follows bytes (bitOf s) fields
  fits : ∀ field ∈ fields, field.Fits
  ends : bitOf s + width fields = stop

namespace Stands

variable {stop : Nat} {fields : List Field}

theorem cons {field : Field} (stands : Stands bytes stop (field :: later) s) :
    leNat bytes / 2 ^ bitOf s % 2 ^ field.width = field.value ∧ Stands bytes stop later (s.rMv field.width) := by
  obtain ⟨first, fits⟩ := forall_mem_cons.mp stands.fits
  obtain ⟨value, follows⟩ := stands.follows.cons first
  have moved := bitOf_rMv s field.width
  refine ⟨value, moved ▸ stands.reads.rMv _, moved ▸ follows, fits, ?_⟩
  rw [moved, ← stands.ends, width_cons, Nat.add_assoc]

theorem dSlide (stands : Stands bytes stop fields s) :
    Stands bytes stop fields (s.dSlide bytes) ∧ (s.dSlide bytes).br < 8 := by
  obtain ⟨reads, low⟩ := stands.reads.dSlide
  have same : bitOf (s.dSlide bytes) = bitOf s := reads.placed
  exact ⟨⟨same ▸ reads, same ▸ stands.follows, stands.fits, same ▸ stands.ends⟩, low⟩

theorem get {value : Nat} (stands : Stands bytes stop (putFields t n value ++ later) s)
    (fits : value < 2 ^ n) (low : s.br ≤ 17) (narrow : n ≤ t.bits) :
    ∃ s', Reader.get t bytes s n = (value, s') ∧ Stands bytes stop later s' := by
  have payload : width (putFields t n value) = n := by
    rw [putFields]
    split
    next wide =>
      simp
      omega
    next => simp
  obtain ⟨s', read, reads, follows⟩ := stands.reads.get fits low narrow stands.follows
  have moved : bitOf s' = bitOf s + n := reads.placed
  refine ⟨s', read, moved ▸ reads, moved ▸ follows, (forall_mem_append.mp stands.fits).2, ?_⟩
  rw [moved, ← stands.ends, width_append, payload, Nat.add_assoc]

end Stands

variable {stop : Nat}

theorem decodeToken_one (low : s.br < 8) (stands : Stands bytes stop (⟨1, 1⟩ :: later) s) :
    decodeToken t bytes s = .ok (.delta 0, s.rMv 1) ∧ Stands bytes stop later (s.rMv 1) := by
  obtain ⟨flag, after⟩ := stands.cons
  refine ⟨?_, after⟩
  rw [decodeToken_eq stands.reads low, if_pos]
  simpa using flag

theorem decodeToken_repeat (low : s.br < 8) (long : baseRepeatCnt < r) (bounded : r < 2 ^ 40)
    (stands : Stands bytes stop (repeatFields r ++ later) s) :
    ∃ s', decodeToken t bytes s = .ok (.repeatCnt (r - baseRepeatCnt), s') ∧ Stands bytes stop later s' ∧ s'.br < 8 := by
  have few : byteCount (r - baseRepeatCnt) ≤ 5 := byteCount_le (by omega)
  have some : 0 < byteCount (r - baseRepeatCnt) := byteCount_pos (by omega)
  rw [repeatFields, if_pos long, putFields, if_neg (fun wide => by omega)] at stands
  generalize r - baseRepeatCnt = more at few some stands ⊢
  obtain ⟨flag, counting⟩ := stands.cons
  obtain ⟨count, reading⟩ := counting.cons
  obtain ⟨value, after⟩ := reading.cons
  obtain ⟨slid, low'⟩ := after.dSlide
  refine ⟨_, ?_, slid, low'⟩
  have advanced : (byteCount more - 1 + 1) <<< 3 = 8 * byteCount more := by
    rw [shiftLeft_three, Nat.sub_add_cancel some]
  have read : Reader.get .uint32 bytes ((s.rMv 7).rMv 3) (8 * byteCount more) =
      (more, ((s.rMv 7).rMv 3).rMv (8 * byteCount more)) :=
    Prod.ext ((reading.reads.bzhi_eq (show s.br + 7 + 3 + 8 * byteCount more ≤ 64 by omega)).trans value) rfl
  have flag : leNat bytes / 2 ^ bitOf s % 2 ^ 7 = 0 := flag
  have bits : ∀ i < 4, ¬ leNat bytes / 2 ^ bitOf s / 2 ^ i % 2 = 1 := by
    intro i small
    interval_cases i <;> omega
  rw [decodeToken_eq stands.reads low, if_neg (bits 0 (by decide)), if_neg (bits 1 (by decide)),
    if_neg (bits 2 (by decide)), if_neg (bits 3 (by decide)), flag, if_pos (by decide),
    if_neg (by decide)]
  simp only [show leNat bytes / 2 ^ (bitOf s + 7) % 2 ^ 3 = byteCount more - 1 from count, advanced, read]

theorem decodeToken_short {k : Nat} (stands : Stands bytes stop (⟨2 ^ k, k + 1⟩ :: ⟨delta, n⟩ :: later) s)
    (chosen : leNat bytes / 2 ^ bitOf s % 2 ^ (k + 1) = 2 ^ k →
      decodeToken t bytes s = .ok (.delta (leNat bytes / 2 ^ (bitOf s + (k + 1)) % 2 ^ n), s.rMv (n + (k + 1)))) :
    ∃ s', decodeToken t bytes s = .ok (.delta delta, s') ∧ Stands bytes stop later s' := by
  obtain ⟨flag, reading⟩ := stands.cons
  obtain ⟨value, after⟩ := reading.cons
  have moved : (s.rMv (k + 1)).rMv n = s.rMv (n + (k + 1)) := by
    simp only [Reader.rMv, Nat.add_comm n, Nat.add_assoc]
  rw [bitOf_rMv] at value
  grind

theorem decodeToken_delta (low : s.br < 8) (pos : delta ≠ 0) (bounded : delta < 2 ^ t.bits)
    (stands : Stands bytes stop (deltaFields t delta ++ later) s) :
    ∃ s', decodeToken t bytes s = .ok (.delta delta, s') ∧ Stands bytes stop later s' := by
  have token := decodeToken_eq (t := t) stands.reads low
  rw [deltaFields, if_neg pos] at stands
  by_cases two : delta < 2 ^ (t.N2 - 1)
  · rw [if_pos two] at stands
    refine decodeToken_short (k := 1) stands fun flag => ?_
    rw [token, if_neg (by omega), if_pos (by omega)]
  rw [if_neg two] at stands
  by_cases three : delta < 2 ^ (t.N3 - 1)
  · rw [if_pos three] at stands
    refine decodeToken_short (k := 2) stands fun flag => ?_
    grind
  rw [if_neg three] at stands
  by_cases four : delta < 2 ^ (t.N4 - 1)
  · rw [if_pos four] at stands
    refine decodeToken_short (k := 3) stands fun flag => ?_
    grind
  rw [if_neg four] at stands
  -- Only 32 and 64 bit types have such differences, and these take three bytes or more.
  have big : 2 ^ 16 ≤ delta := by
    cases t <;> simp only [UIntT.N4, UIntT.bits, UIntT.size] at four bounded <;> omega
  have many : 2 < byteCount delta := by
    by_contra few
    have small : delta < 2 ^ (8 * 2) := byteCount_le_iff.mp (by omega)
    omega
  obtain ⟨few, size⟩ := byteCount_le_size bounded
  obtain ⟨flag, counting⟩ := stands.cons
  obtain ⟨count, reading⟩ := counting.cons
  obtain ⟨s', read, after⟩ := reading.get (lt_two_pow_byteCount delta)
    (show s.br + 4 + 3 ≤ 17 by omega) (show 8 * byteCount delta ≤ t.bits by rw [UIntT.bits]; omega)
  refine ⟨s', ?_, after⟩
  have selector : (leNat bytes / 2 ^ bitOf s % 2 ^ 7) >>> 4 = byteCount delta - 1 := by
    change leNat bytes / 2 ^ (bitOf s + 4) % 2 ^ 3 = byteCount delta - 1 at count
    rw [pow_add, ← Nat.div_div_eq_div_mul] at count
    rw [shiftRight_eq_div_pow]
    omega
  have advanced : (byteCount delta - 1 + 1) <<< 3 = 8 * byteCount delta := by
    rw [shiftLeft_three]
    omega
  have read : Reader.get t bytes (s.rMv 7) (8 * byteCount delta) = (delta, s') := read
  have narrow : delta % 2 ^ t.deltaBits = delta :=
    mod_eq_of_lt (bounded.trans_le (Nat.pow_le_pow_right (by decide) (by cases t <;> decide)))
  grind

end DeltaRle

/-- The decoder undoes what the encoder does, and a run is made of zero differences. -/
structure Transform.Lawful {w : Nat} (tr : Transform w) : Prop where
  undelta_delta : ∀ state value,
    tr.undelta state (tr.delta state value).1 = (value, (tr.delta state value).2)
  repeatOne_eq : ∀ state, tr.repeatOne state = tr.undelta state 0

theorem Transform.single_lawful (w : Nat) : (Transform.single w).Lawful where
  undelta_delta (start value : BitVec w) := by
    have back : start + (value - start) = value := by rw [BitVec.add_comm, BitVec.sub_add_cancel]
    simp only [single, back]
  repeatOne_eq (start : BitVec w) := by
    have same : start + 0 = start := BitVec.add_zero start
    simp only [single, same]

theorem Transform.double_lawful (w : Nat) : (Transform.double w).Lawful where
  undelta_delta := by
    rintro ⟨start, pd⟩ value
    have first : pd + (value - start - pd) = value - start := by
      rw [BitVec.add_comm, BitVec.sub_add_cancel]
    have second : start + (value - start) = value := by rw [BitVec.add_comm, BitVec.sub_add_cancel]
    simp only [double, first, second]
  repeatOne_eq := by
    rintro ⟨start, pd⟩
    simp [double]

namespace DeltaRle

variable {t : UIntT} {tr : Transform t.bits} {bytes : List UInt8} {bit : Nat} {s : Reader}

def undo (tr : Transform t.bits) : tr.State → List (BitVec t.bits) → List (BitVec t.bits) × tr.State
  | state, [] => ([], state)
  | state, delta :: deltas =>
    let next := tr.undelta state delta
    let later := undo tr next.2 deltas
    (next.1 :: later.1, later.2)

variable (state : tr.State)

theorem undo_append (first second : List (BitVec t.bits)) : undo tr state (first ++ second) =
      ((undo tr state first).1 ++ (undo tr (undo tr state first).2 second).1,
        (undo tr (undo tr state first).2 second).2) := by
  induction first generalizing state with
  | nil => rfl
  | cons delta first ih =>
    rw [cons_append, undo, ih]
    rfl

theorem undo_deltas (lawful : tr.Lawful) (state : tr.State) (values : List (BitVec t.bits)) :
    (undo tr state (deltas tr state values)).1 = values := by
  induction values generalizing state with
  | nil => rfl
  | cons value values ih => rw [deltas, undo, lawful.undelta_delta, ih]

theorem repeated_eq (lawful : tr.Lawful) (r : Nat) (state : tr.State) :
    repeated tr r state = undo tr state (replicate r 0) := by
  induction r generalizing state with
  | zero => rfl
  | succ r ih => rw [repeated, replicate_succ, undo, lawful.repeatOne_eq, ih]

theorem length_undo (ds : List (BitVec t.bits)) : (undo tr state ds).1.length = ds.length := by
  induction ds generalizing state with
  | nil => rfl
  | cons delta ds ih => rw [undo, length_cons, length_cons, ih]

theorem length_deltas (values : List (BitVec t.bits)) : (deltas tr state values).length = values.length := by
  induction values generalizing state with
  | nil => rfl
  | cons value values ih => rw [deltas, length_cons, length_cons, ih]

def resume (tr : Transform t.bits) (made : List (BitVec t.bits) × tr.State) (ds : List (BitVec t.bits)) :
    List (BitVec t.bits) × tr.State :=
  (made.1 ++ (undo tr made.2 ds).1, (undo tr made.2 ds).2)

theorem resume_resume (made : List (BitVec t.bits) × tr.State) (first second : List (BitVec t.bits)) :
    resume tr (resume tr made first) second = resume tr made (first ++ second) := by
  simp only [resume, undo_append, append_assoc]

theorem length_resume (made : List (BitVec t.bits) × tr.State) (ds : List (BitVec t.bits)) :
    (resume tr made ds).1.length = made.1.length + ds.length := by
  rw [resume, length_append, length_undo]

variable {uintCount : Nat} {s' : Reader} {stop : Nat} {later : List Field}

theorem decodeLoop_delta (made : List (BitVec t.bits) × tr.State) {code : Nat} {delta : BitVec t.bits}
    (short : made.1.length < uintCount) (token : decodeToken t bytes s = .ok (.delta code, s'))
    (decoded : ZigZag.decode (BitVec.ofNat t.bits code) = delta) :
    decodeLoop tr bytes uintCount made.1 made.2 s =
      decodeLoop tr bytes uintCount (resume tr made [delta]).1 (resume tr made [delta]).2 (s'.dSlide bytes) := by
  rw [decodeLoop, if_pos short, token, ← decoded]
  rfl

theorem decodeLoop_repeat (lawful : tr.Lawful) {r : Nat} (made : List (BitVec t.bits) × tr.State)
    (low : s.br < 8) (bounded : r < 2 ^ 40) (short : made.1.length + r ≤ uintCount)
    (stands : Stands bytes stop (repeatFields r ++ later) s) :
    ∃ s', decodeLoop tr bytes uintCount made.1 made.2 s =
        decodeLoop tr bytes uintCount (resume tr made (replicate r 0)).1 (resume tr made (replicate r 0)).2 s' ∧
      Stands bytes stop later s' ∧ s'.br < 8 := by
  by_cases long : baseRepeatCnt < r
  · obtain ⟨s', token, after⟩ := decodeToken_repeat (t := t) low long bounded stands
    refine ⟨s', ?_, after⟩
    have some : made.1.length < uintCount := by omega
    have whole : r - baseRepeatCnt + baseRepeatCnt = r := Nat.sub_add_cancel long.le
    rw [decodeLoop, if_pos some, token]
    simp only [whole, repeated_eq lawful]
    rfl
  · rw [repeatFields, if_neg long] at stands
    clear long
    induction r generalizing made s with
    | zero =>
      refine ⟨s, ?_, stands, low⟩
      rw [replicate_zero, resume, undo, append_nil]
    | succ r ih =>
      obtain ⟨token, after⟩ := decodeToken_one (t := t) low stands
      obtain ⟨slid, low'⟩ := after.dSlide
      have zero : ZigZag.decode (BitVec.ofNat t.bits 0) = 0 := by simp [ZigZag.decode]
      have head := decodeLoop_delta made (show made.1.length < uintCount by omega) token zero
      have grown : (resume tr made [0]).1.length + r ≤ uintCount := by
        rw [length_resume, length_singleton]
        omega
      obtain ⟨s', looped, after⟩ := ih (resume tr made [0]) low' (by omega) grown slid
      refine ⟨s', ?_, after⟩
      rw [head, looped, resume_resume]
      rfl

theorem decodeLoop_stream (lawful : tr.Lawful) (r : Nat) {ds : List (BitVec t.bits)}
    (made : List (BitVec t.bits) × tr.State) (low : s.br < 8) (bounded : r + ds.length < 2 ^ 40)
    (total : made.1.length + (r + ds.length) = uintCount) (stands : Stands bytes stop (streamFields t ds r) s) :
    ∃ s', decodeLoop tr bytes uintCount made.1 made.2 s = .ok ((resume tr made (replicate r 0 ++ ds)).1, s') ∧
      Stands bytes stop [] s' := by
  induction ds generalizing r made s with
  | nil =>
    rw [length_nil, Nat.add_zero] at bounded total
    rw [streamFields, ← append_nil (repeatFields r)] at stands
    obtain ⟨s', looped, after, -⟩ := decodeLoop_repeat lawful made low bounded total.le stands
    refine ⟨s', ?_, after⟩
    have filled : ¬ (resume tr made (replicate r 0)).1.length < uintCount := by
      rw [length_resume, length_replicate]
      omega
    rw [looped, decodeLoop, if_neg filled, append_nil]
  | cons delta ds ih =>
    rw [length_cons] at bounded total
    rw [streamFields] at stands
    split at stands
    next zero =>
      obtain ⟨s', looped, after⟩ := ih (r + 1) made low (by omega) (by omega) stands
      refine ⟨s', ?_, after⟩
      rw [looped, zero, replicate_succ', append_assoc]
      rfl
    next differs =>
      have code : (ZigZag.encode delta).toNat ≠ 0 := fun zero =>
        differs (ZigZag.encode_eq_zero_iff.mp (BitVec.eq_of_toNat_eq zero))
      have back : ZigZag.decode (BitVec.ofNat t.bits (ZigZag.encode delta).toNat) = delta := by
        rw [BitVec.ofNat_toNat, BitVec.setWidth_eq, ZigZag.decode_encode]
      obtain ⟨s₁, looped, counted, low₁⟩ := decodeLoop_repeat lawful made low (by omega)
        (show made.1.length + r ≤ uintCount by omega) stands
      obtain ⟨s₂, token, after⟩ := decodeToken_delta low₁ code (BitVec.isLt _) counted
      obtain ⟨slid, low₂⟩ := after.dSlide
      have run : (resume tr made (replicate r 0)).1.length = made.1.length + r := by
        rw [length_resume, length_replicate]
      have room : (resume tr made (replicate r 0)).1.length < uintCount := by omega
      have head := decodeLoop_delta _ room token back
      have grown : (resume tr (resume tr made (replicate r 0)) [delta]).1.length + (0 + ds.length) =
          uintCount := by
        rw [length_resume, run, length_singleton]
        omega
      obtain ⟨s', rest, ended⟩ := ih 0 _ low₂ (by omega) grown slid
      refine ⟨s', ?_, ended⟩
      rw [looped, head, rest, replicate_zero, nil_append, resume_resume, resume_resume]
      rfl

theorem decode_encode (lawful : tr.Lawful) {values : List (BitVec t.bits)} {out out' : Nat → UInt8}
    {outLen outPos outPos' : Nat} (bounded : values.length < 2 ^ 40)
    (encoded : encode tr values out outLen outPos = .ok (out', outPos')) (before after : List UInt8) :
    decode tr (before ++ Buffer.read out' outPos (outPos' - outPos) ++ after) before.length values.length =
      .ok (values, before.length + (outPos' - outPos)) := by
  obtain ⟨-, spelled, length⟩ := encode_spec (by omega) encoded
  have fits : ∀ field ∈ streamFields t (deltas tr tr.init values) 0, field.Fits :=
    streamFields_fits (by rw [length_deltas]; omega)
  have covered : width (streamFields t (deltas tr tr.init values) 0) ≤
      8 * (Buffer.read out' outPos (outPos' - outPos)).length := by
    rw [Buffer.read_length]
    omega
  have follows := Follows.of_bytes before after fits spelled covered
  generalize before ++ Buffer.read out' outPos (outPos' - outPos) ++ after = bytes at follows
  have first : Stands bytes (8 * before.length + width (streamFields t (deltas tr tr.init values) 0))
      (streamFields t (deltas tr tr.init values) 0)
      ⟨leNat (bytes.drop before.length) % 2 ^ 64, 0, before.length⟩ := ⟨⟨rfl, rfl⟩, follows, fits, rfl⟩
  obtain ⟨stands, low⟩ := first.dSlide
  have count : ([] : List (BitVec t.bits)).length + (0 + (deltas tr tr.init values).length) = values.length := by
    rw [length_deltas, length_nil, Nat.zero_add, Nat.zero_add]
  obtain ⟨s', looped, stopped⟩ := decodeLoop_stream lawful 0 ([], tr.init) low
    (by rw [length_deltas]; omega) count stands
  rw [replicate_zero, nil_append, resume, undo_deltas lawful, nil_append] at looped
  have slid : (⟨0, 0, before.length⟩ : Reader).dSlide bytes =
      (⟨leNat (bytes.drop before.length) % 2 ^ 64, 0, before.length⟩ : Reader).dSlide bytes := rfl
  have ended : s'.align = before.length + (outPos' - outPos) := by
    have placed : 8 * s'.ip + s'.br = _ := stopped.ends
    rw [Reader.align, shiftRight_eq_div_pow]
    omega
  rw [decode, slid, looped, ← ended]

end DeltaRle

/-- The delta and the double delta codec, for each element type and any text around the encoded one:
what was encoded is decoded to the same values, and the decoder stops where the text ends. -/
theorem delta_rle_round_trip (t : UIntT) (values : List (BitVec t.bits))
    (bounded : values.length < 2 ^ 40) (out out' : Nat → UInt8) (outLen outPos outPos' : Nat)
    (before after : List UInt8) :
    (ObDeltaZigzagRle.encode t values out outLen outPos = .ok (out', outPos') →
      ObDeltaZigzagRle.decode t
          (before ++ Buffer.read out' outPos (outPos' - outPos) ++ after) before.length
          values.length =
        .ok (values, before.length + (outPos' - outPos))) ∧
    (ObDoubleDeltaZigzagRle.encode t values out outLen outPos = .ok (out', outPos') →
      ObDoubleDeltaZigzagRle.decode t
          (before ++ Buffer.read out' outPos (outPos' - outPos) ++ after) before.length
          values.length =
        .ok (values, before.length + (outPos' - outPos))) :=
  ⟨fun encoded => DeltaRle.decode_encode (single_lawful _) bounded encoded before after,
    fun encoded => DeltaRle.decode_encode (double_lawful _) bounded encoded before after⟩

/-- Three bytes, with a repeated one, between two other bytes. -/
theorem delta_rle_round_trip_three :
    ∃ out' outPos', ObDeltaZigzagRle.encode .uint8 [5, 5, 3] (fun _ => 0) 100 0 = .ok (out', outPos') ∧
      ObDeltaZigzagRle.decode .uint8 ([1] ++ Buffer.read out' 0 (outPos' - 0) ++ [2]) 1 3 =
        .ok ([5, 5, 3], 1 + (outPos' - 0)) :=
  ⟨_, _, rfl, (delta_rle_round_trip .uint8 [5, 5, 3] (by decide) (fun _ => 0) _ 100 0 _ [1] [2]).1 rfl⟩

end IMBridge.Codec
