import IMBridge.SortKey.ScalarOrder

/-!
`make_order_perserving_encode_from_object` on the types that are not strings: the keys are ordered
as the values are unless two timestamps differ in their nanosecond tails alone.
-/

namespace IMBridge.SortKey

open Lib.ByteOrder ObObjType ObDecimalInt ObOTimestampData

/-- How two values of a scalar type compare; decimal integers of different widths do not. -/
def ObObjType.scalarOrder : (type : ObObjType) → type.Datum → type.Datum → Option Ordering
  | .tinyInt, a, b => some (compareSigned (w := 8) a b)
  | .smallInt, a, b => some (compareSigned (w := 16) a b)
  | .date, a, b | .mediumInt, a, b | .int32, a, b => some (compareSigned (w := 32) a b)
  | .intervalYM, a, b | .time, a, b | .dateTime, a, b | .timestamp, a, b | .int, a, b =>
    some (compareSigned (w := 64) a b)
  | .year, a, b | .uTinyInt, a, b => some (compareUnsigned (w := 8) a b)
  | .uSmallInt, a, b => some (compareUnsigned (w := 16) a b)
  | .uMediumInt, a, b | .uInt32, a, b => some (compareUnsigned (w := 32) a b)
  | .uInt64, a, b => some (compareUnsigned (w := 64) a b)
  | .number, a, b | .uNumber, a, b | .numberFloat, a, b => some (ObNumber.compare a b)
  | .timestampTZ, a, b | .timestampLTZ, a, b | .timestampNano, a, b =>
    some (ObOTimestampData.compare a b)
  | .intervalDS, a, b => some (ObIntervalDSValue.compare a b)
  | .decimalInt, a, b =>
    if intBytes a = intBytes b then
      some (compare (value a).toInt (value b).toInt)
    else none
  | _, _, _ => none

def ObObjType.InDomain : (type : ObObjType) → type.Datum → Prop
  | .number, x | .uNumber, x | .numberFloat, x => ObNumber.Normalised x
  | .timestampTZ, x | .timestampLTZ, x | .timestampNano, x =>
    (tailNsec x).toNat ≤ 999
  | .intervalDS, x => ObIntervalDSValue.Valid x
  | .decimalInt, x => intBytes x ∈ [4, 8, 16, 32, 64]
  | _, _ => True

def ObObjType.keyRoom : (type : ObObjType) → type.Datum → ℕ
  | .tinyInt, _ | .year, _ | .uTinyInt, _ => 1
  | .smallInt, _ | .uSmallInt, _ => 2
  | .number, x | .uNumber, x | .numberFloat, x => 1 + (ObNumber.digits x).length * 4 + 2 * 4
  | .date, _ | .mediumInt, _ | .int32, _ | .uMediumInt, _ | .uInt32, _ => 4
  | .timestampTZ, _ | .timestampLTZ, _ | .timestampNano, _ => 8 + 2
  | .intervalDS, _ => 8 + 4
  | .decimalInt, x => intBytes x
  | _, _ => 8

/-- Two timestamps of one microsecond with different nanoseconds in it. -/
def ObObjType.TailsDiffer : (type : ObObjType) → type.Datum → type.Datum → Prop
  | .timestampTZ, a, b | .timestampLTZ, a, b | .timestampNano, a, b =>
    timeUs a = timeUs b ∧ tailNsec a ≠ tailNsec b
  | _, _, _ => False

structure Slot where
  maxBufLen : ℕ
  toLen : ℕ
  param : ObEncParam

def Slot.encode (slot : Slot) (type : ObObjType) (x : type.Datum) : Except RetCode Bytes :=
  makeOrderPerservingEncodeFromObject type x slot.maxBufLen slot.toLen slot.param

def Slot.HasRoom (slot : Slot) (type : ObObjType) (x : type.Datum) : Prop :=
  slot.toLen + type.keyRoom x ≤ slot.maxBufLen

variable {size maxBufLen toLen : ℕ}

theorem withRoom_eq (room : toLen + size ≤ maxBufLen) (bytes : Bytes) :
    withRoom size maxBufLen toLen bytes = .ok bytes :=
  if_neg (Nat.not_lt.mpr room)

theorem encodeFromNumber_room {x : ObNumber} (room : toLen + (1 + x.digits.length * 4 + 2 * 4) ≤ maxBufLen) :
    ∃ key, encodeFromNumber x maxBufLen toLen = .ok key := by
  rw [encodeFromNumber, if_neg (by omega)]
  exact ⟨_, rfl⟩

theorem encodeFromDecint_width {x : ObDecimalInt} (width : x.intBytes ∈ [4, 8, 16, 32, 64]) :
    ∃ key, encodeFromDecint x = .ok key := by
  unfold encodeFromDecint
  simp only [List.mem_cons, List.not_mem_nil, or_false] at width
  rcases width with width | width | width | width | width <;> simp [width]

theorem Slot.encode_room {slot : Slot} {type : ObObjType} {x : type.Datum}
    (scalar : (type.scalarOrder x x).isSome) (domain : type.InDomain x) (room : slot.HasRoom type x) :
    ∃ key, slot.encode type x = .ok key := by
  unfold HasRoom at room
  cases type
  case number | uNumber | numberFloat => exact encodeFromNumber_room room
  case decimalInt =>
    obtain ⟨key, written⟩ := encodeFromDecint_width domain
    exact ⟨key, (if_neg (Nat.not_lt.mpr room)).trans written⟩
  all_goals first
    | exact ⟨_, withRoom_eq room _⟩
    | cases scalar

theorem withRoom_ok {bytes key : Bytes} (written : withRoom size maxBufLen toLen bytes = .ok key) : key = bytes := by
  unfold withRoom at written
  grind

theorem decides_withRoom {size' maxBufLen' toLen' : ℕ} {bytes bytes' ka kb : Bytes} {o : Ordering}
    (decides : Decides bytes bytes' o) (first : withRoom size maxBufLen toLen bytes = .ok ka)
    (second : withRoom size' maxBufLen' toLen' bytes' = .ok kb) : Decides ka kb o := by
  rwa [withRoom_ok first, withRoom_ok second]

theorem encodeFromDecint_of_room {slot : Slot} {x : ObDecimalInt} {key : Bytes}
    (written : slot.encode .decimalInt x = .ok key) : encodeFromDecint x = .ok key := by
  change (if slot.toLen + x.intBytes > slot.maxBufLen then _ else encodeFromDecint x) = _ at written
  split at written
  · cases written
  · exact written

theorem ObOTimestampData.compare_of_tails {a b : ObOTimestampData}
    (tails : ¬ (a.timeUs = b.timeUs ∧ a.tailNsec ≠ b.tailNsec)) :
    compareSigned a.timeUs b.timeUs = a.compare b := by
  rw [ObOTimestampData.compare]
  by_cases same : a.timeUs = b.timeUs
  · have tail : a.tailNsec = b.tailNsec := by
      grind
    rw [tail, compareUnsigned, Nat.compare_eq_eq.mpr rfl, Ordering.then_eq]
  have differ : compareSigned a.timeUs b.timeUs ≠ .eq := by
    rw [compareSigned, ne_eq, compare_eq_iff_eq]
    exact fun equal => same (BitVec.eq_of_toInt_eq equal)
  cases order : compareSigned a.timeUs b.timeUs with
  | lt => rfl
  | eq => exact absurd order differ
  | gt => rfl

theorem ObOTimestampData.compare_ne_eq {a b : ObOTimestampData} (differ : a.tailNsec ≠ b.tailNsec) :
    a.compare b ≠ .eq := by
  rw [ObOTimestampData.compare, ne_eq, Ordering.then_eq_eq, compareUnsigned, Nat.compare_eq_eq]
  exact fun equal => differ (BitVec.eq_of_toNat_eq equal.2)

theorem scalarOrder_self {type : ObObjType} {a b : type.Datum} {o : Ordering}
    (order : type.scalarOrder a b = some o) (x : type.Datum) : (type.scalarOrder x x).isSome := by
  cases type
  case decimalInt => rw [scalarOrder, if_pos rfl, Option.isSome_some]
  all_goals first
    | rfl
    | cases order

section

variable {sa sb : Slot} {type : ObObjType} {a b : type.Datum} {o : Ordering} {ka kb : Bytes}

theorem Slot.decides (order : type.scalarOrder a b = some o) (left : type.InDomain a)
    (right : type.InDomain b) (tails : ¬ type.TailsDiffer a b) (first : sa.encode type a = .ok ka)
    (second : sb.encode type b = .ok kb) : Decides ka kb o := by
  cases type
  case number | uNumber | numberFloat =>
    cases order
    exact decides_encodeFromNumber left.valid right.valid first second
  case timestampTZ | timestampLTZ | timestampNano =>
    cases order
    rw [← compare_of_tails tails]
    exact decides_withRoom (decides_encodeFromTimestamp a b) first second
  case intervalDS =>
    cases order
    exact decides_withRoom (decides_encodeFromIntervalDs a b) first second
  case decimalInt =>
    rw [scalarOrder] at order
    split at order
    next same =>
      cases order
      exact decides_encodeFromDecint same (encodeFromDecint_of_room first) (encodeFromDecint_of_room second)
    next => cases order
  case tinyInt =>
    cases order
    exact decides_withRoom (decides_encodeFromInt8 a b) first second
  case smallInt =>
    cases order
    exact decides_withRoom (decides_encodeSigned (n := 2) (by decide) a b) first second
  case date | mediumInt | int32 =>
    cases order
    exact decides_withRoom (decides_encodeSigned (n := 4) (by decide) a b) first second
  case intervalYM | time | dateTime | timestamp | int =>
    cases order
    exact decides_withRoom (decides_encodeSigned (n := 8) (by decide) a b) first second
  case year | uTinyInt =>
    cases order
    exact decides_withRoom (decides_byte_of_bits a b) first second
  case uSmallInt =>
    cases order
    exact decides_withRoom (decides_copySwapped (n := 2) a b) first second
  case uMediumInt | uInt32 =>
    cases order
    exact decides_withRoom (decides_copySwapped (n := 4) a b) first second
  case uInt64 =>
    cases order
    exact decides_withRoom (decides_copySwapped (n := 8) a b) first second
  all_goals cases order

/-- The tails are lost, so timestamps that differ in nothing else share one key. -/
theorem Slot.encode_tails (differ : type.TailsDiffer a b) (order : type.scalarOrder a b = some o)
    (first : sa.encode type a = .ok ka) (second : sb.encode type b = .ok kb) : ka = kb ∧ o ≠ .eq := by
  cases type
  case timestampTZ | timestampLTZ | timestampNano =>
    cases order
    have decides := decides_withRoom (decides_encodeFromTimestamp a b) first second
    rw [differ.1, compareSigned, compare_eq_iff_eq.mpr rfl] at decides
    exact ⟨Decides.eq_iff.mp decides, compare_ne_eq differ.2⟩
  all_goals cases differ

end

/-- With room in the buffers both values are written, and their keys order as the values do, with
neither a proper beginning of the other, exactly when the values are not two timestamps that differ
in their nanosecond tails alone. -/
theorem scalar_keys_ordered_iff {sa sb : Slot} {type : ObObjType} {a b : type.Datum} {o : Ordering}
    (order : type.scalarOrder a b = some o) (left : type.InDomain a) (right : type.InDomain b)
    (roomA : sa.HasRoom type a) (roomB : sb.HasRoom type b) :
    ∃ ka kb, sa.encode type a = .ok ka ∧ sb.encode type b = .ok kb ∧
      ((compare ka kb = o ∧ (ka <+: kb → ka = kb) ∧ (kb <+: ka → kb = ka)) ↔
        ¬ type.TailsDiffer a b) := by
  obtain ⟨ka, first⟩ := sa.encode_room (scalarOrder_self order a) left roomA
  obtain ⟨kb, second⟩ := sb.encode_room (scalarOrder_self order b) right roomB
  refine ⟨ka, kb, first, second, ?_⟩
  rw [← decides_iff]
  constructor
  · intro decides differ
    obtain ⟨same, strict⟩ := Slot.encode_tails differ order first second
    rw [same] at decides
    exact strict (decides.compare_eq.symm.trans (compare_bytes_self kb))
  · intro tails
    exact Slot.decides order left right tails first second

theorem scalar_keys_ordered_numbers : ∃ ka kb : Bytes,
      (Slot.mk 100 0 ⟨.binary, true, false, false, true⟩).encode .number ⟨0x40, [1]⟩ = .ok ka ∧
      (Slot.mk 100 0 ⟨.binary, true, false, false, true⟩).encode .number
        ⟨0xC0, [12, 500000000]⟩ = .ok kb ∧
      ((compare ka kb = .lt ∧ (ka <+: kb → ka = kb) ∧ (kb <+: ka → kb = ka)) ↔
        ¬ ObObjType.number.TailsDiffer ⟨0x40, [1]⟩ ⟨0xC0, [12, 500000000]⟩) :=
  scalar_keys_ordered_iff (by decide)
    ⟨by simp [base], by simp, by simp, by simp⟩ ⟨by simp [base], by simp, by simp, by simp⟩
    (show _ ≤ _ by decide) (show _ ≤ _ by decide)

/-- Seven and eight nanoseconds after one microsecond have the same key. -/
theorem timestamp_tails_not_ordered : ∃ a b : ObOTimestampData, ∃ slot : Slot, ∃ ka kb : Bytes,
      a.tailNsec.toNat ≤ 999 ∧ b.tailNsec.toNat ≤ 999 ∧
      slot.encode .timestampNano a = .ok ka ∧ slot.encode .timestampNano b = .ok kb ∧
      ObObjType.timestampNano.scalarOrder a b = some .lt ∧ compare ka kb ≠ .lt :=
  ⟨⟨5, 7⟩, ⟨5, 8⟩, ⟨10, 0, ⟨.binary, true, false, false, true⟩⟩,
    encodeFromTimestamp ⟨5, 7⟩, encodeFromTimestamp ⟨5, 8⟩,
    by decide, by decide, rfl, rfl, by decide, by decide +kernel⟩

end IMBridge.SortKey
