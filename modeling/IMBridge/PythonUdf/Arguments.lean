import Mathlib.Algebra.Order.Ring.Nat
import IMBridge.Engine.ExprVector
import IMBridge.PythonUdf.Operator

/-!
Values of UDF arguments on their way to Python: `do_store` casts the vector of each argument to
datums, `save_batch` copies those of the active rows, and `wrap_input_numpy` hands a slice of every
buffer over. The integer buffers are arrays of C `int`, and no buffer has a place for NULL.
-/

namespace IMBridge.PythonUdf

open IMBridge.Engine Cell PUInputStore List ExprVector
open IMBridge.Lib

def wordOf (bytes : Bytes) : BitVec 64 :=
  BitVec.ofNat 64 (bytes.foldr (fun byte rest => byte.toNat + 256 * rest) 0)

inductive SqlValue where
  | null
  | int (value : Int)
  | double (bits : BitVec 64)
  | string (bytes : Bytes)
  /-- the text of a LOB, and the bytes it is stored as -/
  | lob (locator content : Bytes)

/-- `read_real_string_data` of a LOB. A value in the row stands behind the header `ObLobCommon` and,
if `is_init_` is set, behind the `ObLobData` that has its size; `readLob` follows any other locator. -/
def realString (readLob : Bytes → Bytes) (locator : Bytes) : Bytes :=
  match locator with
  | _ :: flags :: more :: _ :: buffer =>
    let isInit := flags.toNat.testBit 0
    let inRow := flags.toNat.testBit 2
    let isMemLoc := more.toNat.testBit 0
    if !isMemLoc && inRow then
      if isInit then (buffer.drop 24).take (wordOf ((buffer.drop 16).take 8)).toNat else buffer
    else readLob locator
  | _ => readLob locator

def Slot.sqlValue : Slot → Option Bytes → SqlValue
  | _, none => .null
  | .datum, some bytes => .string bytes
  | .int, some bytes => .int (wordOf bytes).toInt
  | .double, some bytes => .double (wordOf bytes)

/-- An element of an argument buffer: a copied `ObDatum`, a C `int` or a C `double`. -/
inductive Stored where
  | datum (bytes : Bytes)
  | int (value : BitVec 32)
  | double (bits : BitVec 64)
deriving DecidableEq

instance : Inhabited Stored := ⟨.datum []⟩

/-- An element of a numpy array; `null` is the null pointer in an array of objects. -/
inductive PyElem where
  | int32 (value : BitVec 32)
  | float64 (bits : BitVec 64)
  | str (text : String)
  | null
deriving DecidableEq

def Slot.load (slot : Slot) (datums : ExprVector) (idx : Nat) : Stored :=
  match slot with
  | .datum => .datum (datums.datumBytes idx)
  -- the assignment to a C `int` keeps the low 32 bits of `get_int()`
  | .int => .int ((wordOf (datums.datumWord idx)).setWidth 32)
  | .double => .double (wordOf (datums.datumWord idx))

/-- One element as `wrap_input_numpy` passes it on. `PyUnicode_FromStringAndSize` returns a null
pointer for bytes that are not UTF-8. -/
def Stored.wrap : Stored → PyElem
  | .datum bytes =>
      match String.fromUTF8? bytes.toByteArray with
      | some text => .str text
      | none => .null
  | .int value => .int32 value
  | .double bits => .float64 bits

/-- `wrap_input_numpy(pArgs, idx, predict_size, eval_size)`: one array per argument. -/
def PUInputStore.wrapInputNumpy (s : PUInputStore Stored) (idx : Nat) (predictSize : Int) :
    Except Err (List (List PyElem)) :=
  let size := evalSize idx s.savedSize predictSize
  if size < 0 then .error .negativeDimension
  else if s.types.any (fun type => type.slot.isNone) then .error .notSupported
  else .ok (s.dataPtrs.map (fun mem => (Buffer.read mem idx size.toNat).map Stored.wrap))

theorem PUInputStore.wrapInputNumpy_spec {s : PUInputStore Stored} {types : List ObjType}
    {saved : List (Nat → Stored)} (rep : s.Represents types saved) {idx : Nat} {predictSize : Int}
    (inside : idx < saved.length) (pos : 0 < predictSize) :
    ∃ arrays, s.wrapInputNumpy idx predictSize = .ok arrays ∧ arrays.length = types.length ∧
      ∀ i (bound : i < arrays.length), arrays.get ⟨i, bound⟩ =
        ((saved.drop idx).take (evalSize idx s.savedSize predictSize).toNat).map (fun row => (row i).wrap) := by
  obtain ⟨valid, -, room⟩ := evalSize_spec inside pos
  rw [← rep.saved] at valid room
  refine ⟨_, by
    simp only [wrapInputNumpy, if_neg valid, rep.same, rep.supported, Bool.false_eq_true, ↓reduceIte]
    rfl, by simp [rep.count], ?_⟩
  intro i bound
  have inBuffers : i < s.dataPtrs.length := by simpa using bound
  have covered : idx + (evalSize idx s.savedSize predictSize).toNat ≤
      (saved.map (· i)).length := by simpa [← rep.saved] using room
  have slice := (rep.buffers i inBuffers).read_eq covered
  simp only [get_eq_getElem, getElem_map] at slice ⊢
  rw [slice, map_take, map_drop]
  simp [Function.comp_def, map_take, map_drop]

def PyElem.Denotes : PyElem → SqlValue → Prop
  | .int32 value, .int expected => value.toInt = expected
  | .float64 bits, .double expected => bits = expected
  | .str text, .string expected => text.toUTF8 = expected.toByteArray
  | .str text, .lob _ expected => text.toUTF8 = expected.toByteArray
  | .null, .null => True
  | _, _ => False

/-- A value that the buffers and numpy arrays can carry. -/
def SqlValue.Deliverable : SqlValue → Prop
  | .null => False
  | .int value => -2 ^ 31 ≤ value ∧ value < 2 ^ 31
  | .double _ => True
  | .string bytes => bytes.toByteArray.IsValidUTF8
  | .lob locator content => content = locator ∧ locator.toByteArray.IsValidUTF8

theorem toInt_setWidth_eq_iff (word : BitVec 64) :
    (word.setWidth 32).toInt = word.toInt ↔ -2 ^ 31 ≤ word.toInt ∧ word.toInt < 2 ^ 31 := by
  constructor
  · grind
  grind

theorem wrap_datum_denotes_iff (bytes : Bytes) :
    (Stored.datum bytes).wrap.Denotes (.string bytes) ↔ bytes.toByteArray.IsValidUTF8 := by
  unfold Stored.wrap String.fromUTF8?
  by_cases valid : bytes.toByteArray.IsValidUTF8
  · simp only [valid, ↓reduceDIte, iff_true]
    rfl
  · simp [valid, PyElem.Denotes]

theorem wrap_datum_denotes_lob_iff (locator content : Bytes) :
    (Stored.datum locator).wrap.Denotes (.lob locator content) ↔
      content = locator ∧ locator.toByteArray.IsValidUTF8 := by
  unfold Stored.wrap String.fromUTF8?
  by_cases valid : locator.toByteArray.IsValidUTF8
  · simp only [valid, ↓reduceDIte, and_true]
    constructor
    · intro same
      exact (List.toByteArray_inj.mp same).symm
    · rintro rfl
      rfl
  · simp [valid, PyElem.Denotes]

structure ArgExpr where
  type : ObjType
  isConst : Bool
  slot : Slot
  admitted : type.slot = some slot

namespace ArgExpr

theorem slot_of_lob (arg : ArgExpr) (lob : arg.type.isLobStorage = true) : arg.slot = .datum := by
  have admitted := arg.admitted
  cases type : arg.type <;> simp_all [ObjType.isLobStorage, ObjType.slot]

/-- The vector of the argument after `eval_vector` on the batch. Numbers take eight bytes, and a
NULL datum has length 0; where a NULL datum points to is not known. -/
structure Evaluated (arg : ArgExpr) (vector : ExprVector) (brs : BatchRows) : Prop where
  const : arg.isConst = true ↔ vector.format = .uniformConst
  width : arg.slot ≠ .datum → ∀ j ∈ brs.active, ∀ bytes, vector.value j = some bytes → bytes.length = 8
  empty : vector.format = .uniform ∨ vector.format = .uniformConst →
    ∀ j ∈ brs.active, vector.isNull j = true → vector.length j = 0

/-- What `save_batch` stores for row `j`, after `cast_to_uniform`. A constant is read at index 0. -/
def load (arg : ArgExpr) (vector : ExprVector) (brs : BatchRows) (j : Nat) : Stored :=
  arg.slot.load (vector.castToUniform brs.size) (if arg.isConst then 0 else j)

def sqlValue (readLob : Bytes → Bytes) (arg : ArgExpr) (vector : ExprVector) (j : Nat) : SqlValue :=
  match arg.type.isLobStorage, vector.value j with
  | true, some locator => .lob locator (realString readLob locator)
  | _, value => arg.slot.sqlValue value

variable {readLob : Bytes → Bytes} {arg : ArgExpr} {vector : ExprVector} {brs : BatchRows} {j : Nat}

variable (evaluated : arg.Evaluated vector brs)
include evaluated

variable (member : j ∈ brs.active)
include member

/-- The datum that is read for a row holds the value of the row, or nothing for NULL. -/
theorem Evaluated.datumBytes_eq :
    (vector.castToUniform brs.size).datumBytes (if arg.isConst then 0 else j) = (vector.value j).getD [] := by
  have inside := (BatchRows.mem_active.mp member).1
  cases const : arg.isConst with
  | true =>
    have format := evaluated.const.mp const
    rw [castToUniform_const _ format, if_pos rfl, datumBytes_const format j]
    cases isNull : vector.isNull j with
    | false => simp [ExprVector.value, isNull]
    | true =>
      have empty := evaluated.empty (Or.inr format) j member isNull
      simp [ExprVector.value, isNull, getPayload, empty, Buffer.read]
  | false =>
    have batch : vector.format ≠ .uniformConst := by
      intro format
      have wrong := evaluated.const.mpr format
      simp [const] at wrong
    simp only [Bool.false_eq_true, ↓reduceIte]
    cases present : vector.value j with
    | some bytes => exact datumBytes_castToUniform inside batch present
    | none =>
      have isNull : vector.isNull j = true := by
        by_contra shown
        simp [ExprVector.value, shown] at present
      exact datumBytes_castToUniform_null inside batch isNull
        (fun uniform => evaluated.empty (Or.inl uniform) j member isNull)

theorem Evaluated.wrap_null (isNull : vector.value j = none) : ¬(arg.load vector brs j).wrap.Denotes .null := by
  have shown := evaluated.datumBytes_eq member
  rw [isNull] at shown
  unfold load
  cases arg.slot with
  | int => exact id
  | double => exact id
  | datum =>
    simp only [Slot.load, shown, Option.getD_none]
    exact id

/-- The element of a row stands for its value exactly when the value is deliverable. -/
theorem Evaluated.wrap_denotes_iff :
    (arg.load vector brs j).wrap.Denotes (arg.sqlValue readLob vector j) ↔
      (arg.sqlValue readLob vector j).Deliverable := by
  cases present : vector.value j with
  | none =>
    have lost := evaluated.wrap_null member present
    have value : arg.sqlValue readLob vector j = .null := by simp [sqlValue, present, Slot.sqlValue]
    rw [value]
    exact iff_of_false lost id
  | some bytes =>
    have shown := evaluated.datumBytes_eq member
    rw [present, Option.getD_some] at shown
    unfold load sqlValue
    rw [present]
    cases lob : arg.type.isLobStorage with
    | true =>
      rw [arg.slot_of_lob lob]
      simp only [Slot.load, shown]
      exact wrap_datum_denotes_lob_iff bytes _
    | false =>
    cases slot : arg.slot with
    | datum =>
      simp only [Slot.load, shown, Slot.sqlValue]
      exact wrap_datum_denotes_iff bytes
    | int =>
      have width := evaluated.width (by simp [slot]) j member bytes present
      simp only [Slot.load, datumWord_eq shown width, Slot.sqlValue]
      exact toInt_setWidth_eq_iff (wordOf bytes)
    | double =>
      have width := evaluated.width (by simp [slot]) j member bytes present
      simp only [Slot.load, datumWord_eq shown width, Slot.sqlValue]
      exact iff_of_true rfl trivial

end ArgExpr

structure ArgBatch (args : List ArgExpr) where
  brs : BatchRows
  vectors : Nat → ExprVector
  evaluated : ∀ i (bound : i < args.length), (args.get ⟨i, bound⟩).Evaluated (vectors i) brs

namespace ArgBatch

variable {args : List ArgExpr}

def load (batch : ArgBatch args) (i j : Nat) : Stored :=
  match args[i]? with
  | some arg => arg.load (batch.vectors i) batch.brs j
  | none => default

def sqlValue (readLob : Bytes → Bytes) (batch : ArgBatch args) (j i : Nat) : SqlValue :=
  match args[i]? with
  | some arg => arg.sqlValue readLob (batch.vectors i) j
  | none => .null

def rows (readLob : Bytes → Bytes) (batches : List (ArgBatch args)) :
    List ((Nat → Stored) × (Nat → SqlValue)) :=
  batches.flatMap (fun batch =>
    batch.brs.active.map (fun j => (fun i => batch.load i j, batch.sqlValue readLob j)))

def saveAll (s : PUInputStore Stored) : List (ArgBatch args) → Except Err (PUInputStore Stored)
  | [] => .ok s
  | batch :: rest => do
      let s ← s.saveBatch batch.load batch.brs
      saveAll s rest

variable {readLob : Bytes → Bytes}

theorem rows_cons (batch : ArgBatch args) (rest : List (ArgBatch args)) : rows readLob (batch :: rest) =
      batch.brs.active.map (fun j => (fun i => batch.load i j, batch.sqlValue readLob j)) ++ rows readLob rest := by
  simp [rows]

theorem saveAll_spec (batches : List (ArgBatch args)) {s : PUInputStore Stored}
    {types : List ObjType} {saved : List (Nat → Stored)} (rep : s.Represents types saved)
    (fits : (saved.length + (rows readLob batches).length : Nat) ≤ s.length) :
    ∃ s', saveAll s batches = .ok s' ∧ s'.Represents types (saved ++ (rows readLob batches).map Prod.fst) := by
  induction batches generalizing s saved with
  | nil => exact ⟨s, rfl, by simpa [rows] using rep⟩
  | cons batch rest ih =>
    simp only [rows_cons, length_append, length_map] at fits
    have first := saveBatch_ok rep batch.load batch.brs (by omega)
    have appended := copyActive_represents rep batch.load batch.brs
    have room : ((saved ++ batch.brs.active.map (fun j i => batch.load i j)).length +
        (rows readLob rest).length : Nat) ≤ (s.copyActive batch.load batch.brs).length := by
      simp only [length_append, length_map, copyActive]
      omega
    obtain ⟨s', done, rep'⟩ := ih appended room
    refine ⟨s', by simp only [saveAll, first]; exact done, ?_⟩
    simpa [rows_cons, Function.comp_def] using rep'

theorem wrap_denotes_iff {batches : List (ArgBatch args)}
    {row : (Nat → Stored) × (Nat → SqlValue)} (member : row ∈ rows readLob batches) {i : Nat}
    (bound : i < args.length) : (row.1 i).wrap.Denotes (row.2 i) ↔ (row.2 i).Deliverable := by
  obtain ⟨batch, -, inBatch⟩ := mem_flatMap.mp member
  obtain ⟨j, active, rfl⟩ := mem_map.mp inBatch
  have found : args[i]? = some (args.get ⟨i, bound⟩) := getElem?_eq_getElem bound
  simp only [load, sqlValue, found]
  exact (batch.evaluated i bound).wrap_denotes_iff active

end ArgBatch

/-- The argument batches that one cell buffers between two rounds of Python calls. -/
structure ArgRun where
  readLob : Bytes → Bytes
  args : List ArgExpr
  batches : List (ArgBatch args)
  length : Int
  nonempty : args ≠ []
  positive : 0 < length
  fits : ((ArgBatch.rows readLob batches).length : Int) ≤ length

namespace ArgRun

variable (run : ArgRun)

def types : List ObjType := run.args.map ArgExpr.type

def store : Except Err (PUInputStore Stored) := do
  let s ← init run.types run.length
  ArgBatch.saveAll s run.batches

/-- Every slice that is handed to Python has, for each argument and each of its rows, an element
that stands for the SQL value of the row. -/
def Faithful : Prop := ∃ s, run.store = .ok s ∧ s.savedSize = (ArgBatch.rows run.readLob run.batches).length ∧
    ∀ (idx : Nat) (predictSize : Int), idx < s.savedSize → 0 < predictSize →
      ∃ arrays, s.wrapInputNumpy idx predictSize = .ok arrays ∧ arrays.length = run.args.length ∧
        ∀ i (bound : i < arrays.length),
          Forall₂ (fun elem row => elem.Denotes (row.2 i)) (arrays.get ⟨i, bound⟩)
            (((ArgBatch.rows run.readLob run.batches).drop idx).take
              (evalSize idx s.savedSize predictSize).toNat)

theorem store_spec : ∃ s, run.store = .ok s ∧ s.Represents run.types ((ArgBatch.rows run.readLob run.batches).map Prod.fst) := by
  have nonempty : run.types ≠ [] := by simpa [types] using run.nonempty
  have supported : run.types.any (fun type => type.slot.isNone) = false := by
    rw [any_eq_false]
    intro type member
    obtain ⟨arg, -, rfl⟩ := mem_map.mp member
    simp [arg.admitted]
  obtain ⟨s, allocated, length, empty⟩ := init_spec (E := Stored) nonempty supported run.positive
  have room : (([] : List (Nat → Stored)).length + (ArgBatch.rows run.readLob run.batches).length : Nat) ≤ s.length := by
    have fits := run.fits
    simp only [length_nil, Nat.zero_add, length]
    exact fits
  obtain ⟨s', done, rep⟩ := ArgBatch.saveAll_spec run.batches empty room
  refine ⟨s', by simp only [store, allocated]; exact done, ?_⟩
  simpa using rep

theorem forall₂_map_denotes_iff {i : Nat} (rows : List ((Nat → Stored) × (Nat → SqlValue))) :
    Forall₂ (fun elem row => PyElem.Denotes elem (row.2 i)) (rows.map (fun row => (row.1 i).wrap)) rows ↔
      ∀ row ∈ rows, (row.1 i).wrap.Denotes (row.2 i) := by
  rw [forall₂_map_left_iff, forall₂_same]

def bigintArg : ArgExpr := ⟨.int, false, .int, rfl⟩

def bigVector : ExprVector :=
  ⟨.fixed, 8, fun k => if k % 8 = 3 then 0x80 else 0, fun _ => 0, fun _ => 0, fun _ => false⟩

theorem bigintArg_evaluated : bigintArg.Evaluated bigVector (.dense 1 false) where
  const := by decide
  width := by
    intro _ j _ bytes present
    obtain rfl := Option.some.inj present
    exact Buffer.read_length _ _ _
  empty := by decide

def bigBatch : ArgBatch [bigintArg] where
  brs := .dense 1 false
  vectors := fun _ => bigVector
  evaluated := by
    intro i bound
    obtain rfl : i = 0 := by simpa using bound
    exact bigintArg_evaluated

def bigRun : ArgRun where
  readLob := id
  args := [bigintArg]
  batches := [bigBatch]
  length := 1
  nonempty := by decide
  positive := by decide
  fits := by decide

end ArgRun

end IMBridge.PythonUdf
