import IMBridge.Lib.Buffer

/-!
Result vectors of expressions: the formats of `share/vector` with their payload getters and setters.
A vector is seen together with the memory that its pointers lead to. Addresses count from the
reserved buffer of the expression, which gives each row `res_buf_len_` bytes; these need not be
enough for a string, and behind the buffer the data of the next expression begins.
-/

namespace IMBridge.Engine

open IMBridge.Lib Buffer Function List

abbrev Bytes := List UInt8

inductive VectorFormat where
  | fixed | discrete | uniform | uniformConst
deriving DecidableEq, Repr

/-- For `fixed`, `resBufLen` is the size of the value type and the data starts at address 0. The
other formats reach a row through a pointer and a length, and `uniformConst` has one datum. -/
structure ExprVector where
  format : VectorFormat
  resBufLen : Nat
  mem : Nat → UInt8
  ptrs : Nat → Nat
  lens : Nat → Nat
  nulls : Nat → Bool

namespace ExprVector

def slot (vector : ExprVector) (idx : Nat) : Nat :=
  match vector.format with
  | .uniformConst => 0
  | _ => idx

def ptr (vector : ExprVector) (idx : Nat) : Nat :=
  match vector.format with
  | .fixed => idx * vector.resBufLen
  | _ => vector.ptrs (vector.slot idx)

def length (vector : ExprVector) (idx : Nat) : Nat :=
  match vector.format with
  | .fixed => vector.resBufLen
  | _ => vector.lens (vector.slot idx)

def isNull (vector : ExprVector) (idx : Nat) : Bool := vector.nulls (vector.slot idx)

/-- `get_payload(idx, payload, length)`, the getter that does not ask for NULL. -/
def getPayload (vector : ExprVector) (idx : Nat) : Bytes :=
  read vector.mem (vector.ptr idx) (vector.length idx)

def value (vector : ExprVector) (idx : Nat) : Option Bytes :=
  if vector.isNull idx then none else some (vector.getPayload idx)

/-- `set_payload`. The fixed-length format asserts that the length is that of its type; `none`
is the abort of a failed assertion. -/
def setPayload (vector : ExprVector) (idx : Nat) (payload : Bytes) : Option ExprVector :=
  if vector.format = .fixed ∧ payload.length ≠ vector.resBufLen then none
  else some { vector with
    mem := write vector.mem (vector.ptr idx) payload
    lens := update vector.lens (vector.slot idx) payload.length
    nulls := update vector.nulls (vector.slot idx) false }

/-- `init_vector` with `use_reserve_buf`: the bitmap of NULLs is cleared where there is one, and
the pointers go to the reserved buffer. -/
def initVector (vector : ExprVector) (format : VectorFormat) (size : Nat) : ExprVector :=
  match format with
  | .fixed => { vector with
      format := .fixed
      nulls := fun i => if i < size then false else vector.nulls i }
  | .discrete => { vector with
      format := .discrete
      nulls := fun i => if i < size then false else vector.nulls i
      ptrs := fun i => if i < size then i * vector.resBufLen else vector.ptrs i }
  | .uniform => { vector with
      format := .uniform
      ptrs := fun i => if i < size then i * vector.resBufLen else vector.ptrs i }
  | .uniformConst => { vector with
      format := .uniformConst
      ptrs := fun i => if i < 1 then i * vector.resBufLen else vector.ptrs i }

def setPayloads (vector : ExprVector) : Nat → List Bytes → Option ExprVector
  | _, [] => some vector
  | idx, payload :: rest => do
      let vector ← vector.setPayload idx payload
      vector.setPayloads (idx + 1) rest

variable {vector vector' : ExprVector} {idx : Nat} {payload : Bytes}

section

variable (set : vector.setPayload idx payload = some vector')
include set

theorem setPayload_eq_some : (vector.format = .fixed → payload.length = vector.resBufLen) ∧ vector' = { vector with
        mem := write vector.mem (vector.ptr idx) payload
        lens := update vector.lens (vector.slot idx) payload.length
        nulls := update vector.nulls (vector.slot idx) false } := by
  unfold setPayload at set
  split at set
  · cases set
  rename_i sized
  grind

theorem value_setPayload : vector'.value idx = some payload := by
  obtain ⟨sized, rfl⟩ := setPayload_eq_some set
  have here := read_write_self vector.mem (vector.ptr idx) payload
  cases format : vector.format <;>
    simp_all [value, isNull, getPayload, ptr, length, slot]

theorem mem_setPayload {address : Nat} (behind : vector.ptr idx + payload.length ≤ address) :
    vector'.mem address = vector.mem address := by
  obtain ⟨-, rfl⟩ := setPayload_eq_some set
  exact write_behind _ _ behind

theorem setPayload_frame :
    vector'.format = vector.format ∧ vector'.resBufLen = vector.resBufLen ∧ ∀ i, vector'.ptr i = vector.ptr i := by
  obtain ⟨-, rfl⟩ := setPayload_eq_some set
  exact ⟨rfl, rfl, fun _ => rfl⟩

theorem value_setPayload_other {i : Nat} (batch : vector.format ≠ .uniformConst) (other : i ≠ idx)
    (apart : vector.ptr i + vector.length i ≤ vector.ptr idx ∨ vector.ptr idx + payload.length ≤ vector.ptr i) :
    vector'.value i = vector.value i ∧ vector'.length i = vector.length i := by
  obtain ⟨-, rfl⟩ := setPayload_eq_some set
  have there := read_write_apart vector.mem payload apart
  cases format : vector.format <;>
    simp_all [value, isNull, getPayload, ptr, length, slot, update_of_ne]

theorem length_setPayload : vector'.length idx = payload.length := by
  obtain ⟨sized, rfl⟩ := setPayload_eq_some set
  cases format : vector.format <;> simp_all [length, slot]

end

/-- Payloads that fit the distance between two rows do not disturb each other. -/
theorem setPayloads_apart (stride size : Nat) (payloads : List Bytes) (vector : ExprVector) (idx : Nat)
    (batch : vector.format ≠ .uniformConst) (ptrs : ∀ i < size, vector.ptr i = i * stride)
    (room : idx + payloads.length ≤ size)
    (short : ∀ x ∈ payloads, x.length ≤ stride)
    (sized : vector.format = .fixed → ∀ x ∈ payloads, x.length = vector.resBufLen)
    (earlier : ∀ i < idx, vector.length i ≤ stride) :
    ∃ result, vector.setPayloads idx payloads = some result ∧ (∀ i < idx, result.value i = vector.value i) ∧
      (∀ address, (idx + payloads.length) * stride ≤ address → result.mem address = vector.mem address) ∧
      ∀ k (inside : k < payloads.length), result.value (idx + k) = some (payloads.get ⟨k, inside⟩) := by
  induction payloads generalizing vector idx with
  | nil =>
    exact ⟨vector, rfl, fun _ _ => rfl, fun _ _ => rfl, fun k inside => absurd inside (Nat.not_lt_zero k)⟩
  | cons payload rest ih =>
    simp only [length_cons] at room
    have fits : ¬(vector.format = .fixed ∧ payload.length ≠ vector.resBufLen) := fun wrong =>
      wrong.2 (sized wrong.1 payload mem_cons_self)
    obtain ⟨next, set⟩ : ∃ next, vector.setPayload idx payload = some next := ⟨_, if_neg fits⟩
    obtain ⟨format, resBufLen, samePtrs⟩ := setPayload_frame set
    have shortHead := short payload mem_cons_self
    have kept : ∀ i < idx, next.value i = vector.value i ∧ next.length i = vector.length i := by
      intro i before
      have apart : vector.ptr i + vector.length i ≤ vector.ptr idx := by
        have step : (i + 1) * stride ≤ idx * stride := Nat.mul_le_mul_right stride before
        grind
      exact value_setPayload_other set batch (by omega) (Or.inl apart)
    have here := value_setPayload set
    have lengths : ∀ i < idx + 1, next.length i ≤ stride := by
      intro i before
      rcases Nat.lt_succ_iff_lt_or_eq.mp before with old | rfl
      · rw [(kept i old).2]
        exact earlier i old
      · rwa [length_setPayload set]
    obtain ⟨result, done, old, behind, new⟩ := ih next (idx + 1) (format ▸ batch)
      (fun i inside => (samePtrs i).trans (ptrs i inside)) (by omega)
      (fun x member => short x (mem_cons_of_mem _ member))
      (fun fixed x member => resBufLen ▸ sized (format ▸ fixed) x (mem_cons_of_mem _ member))
      lengths
    refine ⟨result, by simp [setPayloads, set, done], ?_, ?_, ?_⟩
    · grind
    · intro address beyond
      have whole : idx + 1 + rest.length = idx + (rest.length + 1) := by omega
      have own : (idx + 1) * stride ≤ address :=
        Nat.le_trans (Nat.mul_le_mul_right stride (by rw [length_cons]; omega)) beyond
      rw [behind address (by rwa [whole]), mem_setPayload set]
      rw [ptrs idx (by omega)]
      grind
    · intro k inside
      cases k with
      | zero => exact (old idx (by omega)).trans here
      | succ k =>
        grind

theorem getPayload_of_value (present : vector.value idx = some payload) : vector.getPayload idx = payload := by
  unfold value at present
  grind

theorem setPayloads_const (payloads : List Bytes) (vector : ExprVector) (idx : Nat) (payload : Bytes)
    (format : vector.format = .uniformConst) (same : ∀ x ∈ payloads, x = payload) :
    ∃ result, vector.setPayloads idx payloads = some result ∧ result.format = .uniformConst ∧
      (∀ address, vector.ptr 0 + payload.length ≤ address → result.mem address = vector.mem address) ∧
      (payloads ≠ [] ∨ vector.value 0 = some payload → result.value 0 = some payload) := by
  induction payloads generalizing vector idx with
  | nil =>
    exact ⟨vector, rfl, format, fun _ _ => rfl, fun either => either.resolve_left (fun wrong => wrong rfl)⟩
  | cons head rest ih =>
    obtain rfl : head = payload := same head mem_cons_self
    obtain ⟨next, set⟩ : ∃ next, vector.setPayload idx head = some next := ⟨_, if_neg (by simp [format])⟩
    have nextFormat : next.format = .uniformConst := (setPayload_frame set).1.trans format
    have atIdx := value_setPayload set
    have atZero : next.value 0 = some head := by
      simpa [value, isNull, getPayload, ptr, length, slot, nextFormat] using atIdx
    obtain ⟨result, done, kept, behind, shows⟩ := ih next (idx + 1) nextFormat
      (fun x member => same x (mem_cons_of_mem _ member))
    have samePtr (i : Nat) : vector.ptr i = vector.ptr 0 := by simp [ptr, slot, format]
    refine ⟨result, by simp [setPayloads, set, done], kept, fun address beyond => ?_, fun _ => shows (Or.inr atZero)⟩
    rw [behind address (by rwa [(setPayload_frame set).2.2]), mem_setPayload set (by rwa [samePtr])]

theorem value_const (format : vector.format = .uniformConst) (idx : Nat) : vector.value idx = vector.value 0 := by
  simp [value, isNull, getPayload, ptr, length, slot, format]

/-- `cast_to_uniform`: the datums of the expression get pointer, length and NULL flag of each row. A
datum of a NULL row has length 0, and its pointer still leads to what the vector holds there. -/
def castToUniform (vector : ExprVector) (size : Nat) : ExprVector :=
  match vector.format with
  | .fixed | .discrete => { vector with
      format := .uniform
      ptrs := fun i => if i < size then vector.ptr i else vector.ptrs i
      lens := fun i =>
        if i < size then if vector.nulls i then 0 else vector.length i else vector.lens i }
  | .uniform | .uniformConst => vector

def datumBytes (vector : ExprVector) (idx : Nat) : Bytes :=
  read vector.mem (vector.ptrs idx) (vector.lens idx)

def datumWord (vector : ExprVector) (idx : Nat) : Bytes := read vector.mem (vector.ptrs idx) 8

theorem datumBytes_castToUniform {size : Nat} (inside : idx < size) (batch : vector.format ≠ .uniformConst)
    {bytes : Bytes} (present : vector.value idx = some bytes) : (vector.castToUniform size).datumBytes idx = bytes := by
  have shown : vector.isNull idx = false := by
    cases isNull : vector.isNull idx with
    | false => rfl
    | true => simp [value, isNull] at present
  have payload : vector.getPayload idx = bytes := by simpa [value, shown] using present
  cases format : vector.format <;>
    simp_all [castToUniform, datumBytes, getPayload, ptr, length, slot, isNull]

theorem datumBytes_castToUniform_null {size : Nat} (inside : idx < size) (batch : vector.format ≠ .uniformConst)
    (isNull : vector.isNull idx = true) (empty : vector.format = .uniform → vector.length idx = 0) :
    (vector.castToUniform size).datumBytes idx = [] := by
  cases format : vector.format <;>
    simp_all [castToUniform, datumBytes, Buffer.read, length, slot, ExprVector.isNull]

theorem datumWord_eq {bytes : Bytes} (shown : vector.datumBytes idx = bytes) (width : bytes.length = 8) :
    vector.datumWord idx = bytes := by
  have length : vector.lens idx = 8 := by
    rw [← width, ← shown, datumBytes, read_length]
  rwa [datumWord, ← length]

@[simp] theorem castToUniform_const (size : Nat) (format : vector.format = .uniformConst) :
    vector.castToUniform size = vector := by
  simp [castToUniform, format]

theorem datumBytes_const (format : vector.format = .uniformConst) (idx : Nat) :
    vector.datumBytes 0 = vector.getPayload idx := by
  simp [datumBytes, getPayload, ptr, length, slot, format]

end ExprVector

end IMBridge.Engine
