import IMBridge.SortKey.PadSpace

/-!
Keys of byte strings inside keys of several columns. Under `memcmp` semantics the key of the empty
string begins that of a zero byte; under `PAD SPACE` semantics the length of an inner run of spaces
is an `int16_t`.
-/

namespace IMBridge.SortKey

open Lib.ByteOrder Decides

def ObCollationType.order : ObCollationType → (isMemcmp : Bool) → Bytes → Bytes → Option Ordering
  | .binary, _, a, b => some (compare a b)
  | .utf8mb4Bin, true, a, b => some (compare a b)
  | .utf8mb4Bin, false, a, b => some (padCompare a b)
  | _, _, _, _ => none

def ObCollationType.KeepsOrder : ObCollationType → (isMemcmp : Bool) → Bytes → Bytes → Prop
  | .utf8mb4Bin, false, a, b =>
    runOrder wrapped (runs a) (runs b) = runOrder (fun n => n) (runs a) (runs b)
  | _, _, a, b => ¬ (a = [] ∧ b = [0x00]) ∧ ¬ (a = [0x00] ∧ b = [])

theorem zero_lt_byte {b : UInt8} (nonzero : b ≠ 0) : (0 : UInt8) < b := by
  grind

theorem decides_terminator (b : UInt8) (bs : Bytes) :
    Decides (convertUtf8mb4Bin []) (convertUtf8mb4Bin (b :: bs)) .lt := by
  rw [convertUtf8mb4Bin, convertUtf8mb4Bin]
  split
  next zero =>
    rw [zero]
    exact (lt_of_byte (by decide) _ _).cons 0x00
  next nonzero => exact lt_of_byte (zero_lt_byte nonzero) _ _

theorem convertUtf8mb4Bin_cons (b : UInt8) (bs : Bytes) :
    ∃ mark, convertUtf8mb4Bin (b :: bs) = b :: (mark ++ convertUtf8mb4Bin bs) ∧
      mark = if b = 0x00 then [0x01] else [] := by
  rw [convertUtf8mb4Bin]
  grind

theorem decides_convertUtf8mb4Bin (a b : Bytes) :
    Decides (convertUtf8mb4Bin a) (convertUtf8mb4Bin b) (compare a b) := by
  induction a generalizing b with
  | nil =>
    cases b with
    | nil => exact Decides.refl _
    | cons second bs => exact decides_terminator second bs
  | cons first as ih =>
    cases b with
    | nil => exact (decides_terminator first as).swap
    | cons second bs =>
      obtain ⟨mark, left, escape⟩ := convertUtf8mb4Bin_cons first as
      obtain ⟨mark', right, escape'⟩ := convertUtf8mb4Bin_cons second bs
      rw [left, right]
      by_cases same : first = second
      · rw [escape, escape', same, List.compare_cons_cons, compare_byte_self]
        have rest := (Decides.refl (if second = 0x00 then [0x01] else [])).append (ih bs)
        exact rest.cons second
      · rw [(of_ne same as bs).compare_eq]
        exact of_ne same _ _

/-- What `memcmp` semantics write: a string of one zero byte takes the path of the empty string. -/
def memcmpKey (str : Bytes) : Bytes :=
  if str = [0x00] then [0x00, 0x00, 0x00] else convertUtf8mb4Bin str

section

variable {str : Bytes} {maxBufLen toLen : ℕ}

variable {cs : ObCollationType} {isMemcmp : Bool}

variable (room : toLen + 7 * str.length + 20 ≤ maxBufLen)
include room

theorem encodeFromStringVarlen_short (short : str = [] ∨ str = [0x00]) :
    encodeFromStringVarlen str maxBufLen toLen cs isMemcmp = encodeTails maxBufLen toLen isMemcmp cs (str == [0x00]) := by
  rw [encodeFromStringVarlen, if_neg (by omega), if_pos short]

theorem encodeFromStringVarlen_long (long : ¬ (str = [] ∨ str = [0x00])) :
    encodeFromStringVarlen str maxBufLen toLen cs isMemcmp =
      if cs.isBinary then .ok (convertUtf8mb4Bin str)
      else if cs.isBin then
        .ok (if isMemcmp then convertUtf8mb4Bin str else convertUtf8mb4BinSp str)
      else .error .notSupported := by
  rw [encodeFromStringVarlen, if_neg (by omega), if_neg long]

theorem encode_memcmp (memcmp : cs = .binary ∨ cs = .utf8mb4Bin ∧ isMemcmp = true) :
    encodeFromStringVarlen str maxBufLen toLen cs isMemcmp = .ok (memcmpKey str) := by
  by_cases short : str = [] ∨ str = [0x00]
  · rw [encodeFromStringVarlen_short room short, encodeTails, if_neg (by omega)]
    rcases short with rfl | rfl
    · rcases memcmp with rfl | ⟨rfl, rfl⟩ <;> rfl
    · rcases memcmp with rfl | ⟨rfl, rfl⟩ <;> rfl
  · rw [encodeFromStringVarlen_long room short, memcmpKey, if_neg (fun single => short (.inr single))]
    rcases memcmp with rfl | ⟨rfl, rfl⟩ <;> rfl

theorem encode_padSpace :
    encodeFromStringVarlen str maxBufLen toLen .utf8mb4Bin false = .ok (convertUtf8mb4BinSp str) := by
  by_cases short : str = [] ∨ str = [0x00]
  · rw [encodeFromStringVarlen_short room short, encodeTails, if_neg (by omega)]
    rcases short with rfl | rfl <;> rfl
  · rw [encodeFromStringVarlen_long room short]
    rfl

end

/-- Two zero bytes after a zero byte are below every other escaped zero byte. -/
theorem decides_single {b : Bytes} (other : b ≠ [] ∧ b ≠ [0x00]) :
    Decides [0x00, 0x00, 0x00] (convertUtf8mb4Bin b) (compare [0x00] b) := by
  cases b with
  | nil => exact absurd rfl other.1
  | cons second bs =>
    rw [convertUtf8mb4Bin]
    split
    next zero =>
      subst zero
      cases bs with
      | nil => exact absurd rfl other.2
      | cons third bs => exact (lt_of_byte (by decide) _ _).cons 0x00
    next nonzero =>
      have less := zero_lt_byte nonzero
      rw [List.compare_cons_cons, show compare (0x00 : UInt8) second = .lt from
        Std.compare_eq_lt.mpr less]
      exact lt_of_byte less _ _

theorem decides_memcmpKey_iff (a b : Bytes) : Decides (memcmpKey a) (memcmpKey b) (compare a b) ↔
      ¬ (a = [] ∧ b = [0x00]) ∧ ¬ (a = [0x00] ∧ b = []) := by
  constructor
  · intro decides
    constructor
    · rintro ⟨rfl, rfl⟩
      exact absurd (decides.eq_of_prefix (by decide)) (by decide)
    · rintro ⟨rfl, rfl⟩
      exact absurd (decides.eq_of_prefix' (by decide)) (by decide)
  · rintro ⟨left, right⟩
    by_cases single : a = [0x00]
    · by_cases single' : b = [0x00]
      · rw [single, single']
        exact Decides.refl _
      · rw [memcmpKey, memcmpKey, if_pos single, if_neg single', single]
        exact decides_single ⟨fun empty => right ⟨single, empty⟩, single'⟩
    · by_cases single' : b = [0x00]
      · rw [memcmpKey, memcmpKey, if_neg single, if_pos single', single', compare_bytes_swap]
        exact (decides_single ⟨fun empty => left ⟨empty, single'⟩, single⟩).swap
      · rw [memcmpKey, memcmpKey, if_neg single, if_neg single']
        exact decides_convertUtf8mb4Bin a b

theorem decides_padSpace_iff (a b : Bytes) : Decides (convertUtf8mb4BinSp a) (convertUtf8mb4BinSp b) (padCompare a b) ↔
      runOrder wrapped (runs a) (runs b) = runOrder (fun n => n) (runs a) (runs b) := by
  have decides := decides_convertUtf8mb4BinSp a b
  rw [padCompare_eq_runOrder]
  constructor
  · intro right
    exact decides.compare_eq.symm.trans right.compare_eq
  · intro same
    rwa [same] at decides

theorem encode_decides_iff {cs : ObCollationType} {isMemcmp : Bool} {a b : Bytes} {o : Ordering}
    (order : cs.order isMemcmp a b = some o) {maxA toA maxB toB : ℕ} (roomA : toA + 7 * a.length + 20 ≤ maxA)
    (roomB : toB + 7 * b.length + 20 ≤ maxB) :
    ∃ ka kb, encodeFromStringVarlen a maxA toA cs isMemcmp = .ok ka ∧
      encodeFromStringVarlen b maxB toB cs isMemcmp = .ok kb ∧ (Decides ka kb o ↔ cs.KeepsOrder isMemcmp a b) := by
  match cs, isMemcmp, order with
  | .binary, isMemcmp, rfl =>
    exact ⟨_, _, encode_memcmp roomA (.inl rfl), encode_memcmp roomB (.inl rfl), decides_memcmpKey_iff a b⟩
  | .utf8mb4Bin, true, rfl =>
    exact ⟨_, _, encode_memcmp roomA (.inr ⟨rfl, rfl⟩), encode_memcmp roomB (.inr ⟨rfl, rfl⟩), decides_memcmpKey_iff a b⟩
  | .utf8mb4Bin, false, rfl => exact ⟨_, _, encode_padSpace roomA, encode_padSpace roomB, decides_padSpace_iff a b⟩

/-- With room in the buffers both strings are written. Whatever follows them, their keys are
ordered as the strings are, and equal for equal strings, exactly when the strings are not the
empty one and a single zero byte (`memcmp`), or when the order of the strings does not change as
the lengths of their inner runs of spaces are wrapped to sixteen bits (`PAD SPACE`). -/
theorem string_keys_ordered_iff {cs : ObCollationType} {isMemcmp : Bool} {a b : Bytes}
    {o : Ordering} (order : cs.order isMemcmp a b = some o) {maxA toA maxB toB : ℕ}
    (roomA : toA + 7 * a.length + 20 ≤ maxA) (roomB : toB + 7 * b.length + 20 ≤ maxB) :
    ∃ ka kb, encodeFromStringVarlen a maxA toA cs isMemcmp = .ok ka ∧
      encodeFromStringVarlen b maxB toB cs isMemcmp = .ok kb ∧
      (((o = .lt → ∀ x y, compare (ka ++ x) (kb ++ y) = .lt) ∧
        (o = .gt → ∀ x y, compare (ka ++ x) (kb ++ y) = .gt) ∧ (o = .eq → ka = kb)) ↔
        cs.KeepsOrder isMemcmp a b) := by
  simp only [← decides_iff_continued]
  exact encode_decides_iff order roomA roomB

theorem string_keys_ordered_letters :
    ∃ ka kb, encodeFromStringVarlen [0x41] 100 0 .utf8mb4Bin false = .ok ka ∧
      encodeFromStringVarlen [0x41, 0x20, 0x42] 100 0 .utf8mb4Bin false = .ok kb ∧
      (((Ordering.lt = .lt → ∀ x y, compare (ka ++ x) (kb ++ y) = .lt) ∧
        (Ordering.lt = .gt → ∀ x y, compare (ka ++ x) (kb ++ y) = .gt) ∧
        (Ordering.lt = .eq → ka = kb)) ↔
        ObCollationType.utf8mb4Bin.KeepsOrder false [0x41] [0x41, 0x20, 0x42]) :=
  string_keys_ordered_iff (by decide) (by decide) (by decide)

/-- The empty string sorts before a zero byte, but not in front of a column whose key starts with
`0x01`; a letter behind one space sorts after the letter behind forty thousand, but its key does
not. -/
theorem short_and_spaced_keys_not_ordered :
    (∃ ka kb x y, encodeFromStringVarlen [] 100 0 .binary true = .ok ka ∧
      encodeFromStringVarlen [0x00] 100 0 .binary true = .ok kb ∧
      compare ([] : Bytes) [0x00] = .lt ∧ compare (ka ++ x) (kb ++ y) ≠ .lt) ∧
    (∃ a b ka kb, encodeFromStringVarlen a 400000 0 .utf8mb4Bin false = .ok ka ∧
      encodeFromStringVarlen b 400000 0 .utf8mb4Bin false = .ok kb ∧
      padCompare a b = .gt ∧ compare ka kb = .lt) := by
  constructor
  · exact ⟨[0x00, 0x00], [0x00, 0x00, 0x00], [0x01], [], rfl, rfl, rfl, by decide⟩
  · have size (run : Run) : (ofRuns [run]).length = run.spaces + 1 := by
      rw [ofRuns, List.flatMap_singleton, Run.bytes, List.length_append, List.length_replicate]
      rfl
    refine ⟨ofRuns [⟨1, 0x42, by decide⟩], ofRuns [⟨40000, 0x42, by decide⟩], _, _,
      encode_padSpace (by rw [size]; decide), encode_padSpace (by rw [size]; decide), ?_, ?_⟩
    · rw [padCompare_eq, padOrder_ofRuns]
      decide
    · rw [convertUtf8mb4BinSp, convertUtf8mb4BinSp, stripSpaces_ofRuns, stripSpaces_ofRuns,
        spaceLoop_ofRuns, spaceLoop_ofRuns, (decides_runsKey _ _).compare_eq]
      decide

end IMBridge.SortKey
