import Mathlib.Data.List.Forall2
import IMBridge.Lib.Buffer
import IMBridge.Engine.BatchRows

/-!
The two buffers of the prediction operator (`ob_python_udf_op.cpp`): `ObColInputStore` for the
columns that only pass through, `ObPUInputStore` for the arguments of one UDF. Memory that was never
written holds an arbitrary (`default`) value; allocation never fails here.
-/

namespace IMBridge.PythonUdf

open IMBridge.Engine List
open IMBridge.Lib

/-- First cause of a failure. The callers up to the operator map every one of them to
`OB_ERR_UNEXPECTED` or `OB_INIT_FAIL`. -/
inductive Err where
  | initTwice
  | notInit
  | notSupported
  | sizeOverflow
  | inputStoreOverflow
  | otherStoreOverflow
  | notEnoughData
  | resultStoreOverflow
  | unsavedRows
  | unprocessedRows
  | pythonError
  | negativeDimension
  | readPastResult
  | noTermination
deriving DecidableEq, Repr

def Err.IsOverflow (err : Err) : Prop := err = .inputStoreOverflow ∨ err = .otherStoreOverflow

/-- SQL types of UDF arguments; `other` stands for every type the engine rejects. -/
inductive ObjType where
  | char | varchar | tinyText | text | mediumText | longText
  | tinyInt | smallInt | mediumInt | int32 | int
  | double
  | other
deriving DecidableEq, Repr

/-- `is_lob_storage`, as far as the types occur here. -/
def ObjType.isLobStorage : ObjType → Bool
  | .text | .mediumText | .longText => true
  | _ => false

/-- What one buffered argument occupies: an `ObDatum`, a C `int` or a C `double`. -/
inductive Slot where
  | datum | int | double
deriving DecidableEq, Repr

/-- The switch shared by `alloc_data_ptrs`, `save_batch` and `wrap_input_numpy`. -/
def ObjType.slot : ObjType → Option Slot
  | .char | .varchar | .tinyText | .text | .mediumText | .longText => some .datum
  | .tinyInt | .smallInt | .mediumInt | .int32 | .int => some .int
  | .double => some .double
  | .other => none

/-- `ObFixedArrayImpl`: `data = none` is the null `data_` pointer. -/
structure FixedArray (α : Type) where
  data : Option (List α)
  capacity : Nat

namespace FixedArray

variable {α : Type}

def empty : FixedArray α := ⟨none, 0⟩

variable (a : FixedArray α)

def items : List α := a.data.getD []

/-- `init(capacity)`: refused when memory is already attached, a no-op for capacity 0. -/
def init (capacity : Nat) : Except Err (FixedArray α) :=
  match a.data with
  | some _ => .error .initTwice
  | none =>
      if capacity = 0 then .ok a
      else .ok ⟨some [], if a.capacity = 0 then capacity else a.capacity⟩

def initIgnored (capacity : Nat) : FixedArray α :=
  match a.init capacity with
  | .ok a' => a'
  | .error _ => a

/-- `push_back`: attaches memory for `capacity_` elements on first use. -/
def pushBack (x : α) : Except Err (FixedArray α) :=
  match a.data with
  | none => if 0 < a.capacity then .ok ⟨some [x], a.capacity⟩ else .error .notInit
  | some xs => if a.capacity ≤ xs.length then .error .sizeOverflow else .ok ⟨some (xs ++ [x]), a.capacity⟩

theorem pushBack_ok {a : FixedArray α} {xs : List α} (attached : a.data = some xs)
    (room : xs.length < a.capacity) (x : α) : a.pushBack x = .ok ⟨some (xs ++ [x]), a.capacity⟩ := by
  simp [pushBack, attached, Nat.not_le.mpr room]

theorem pushBack_full {a : FixedArray α} {xs : List α} (attached : a.data = some xs)
    (full : a.capacity ≤ xs.length) (x : α) : a.pushBack x = .error .sizeOverflow := by
  simp [pushBack, attached, full]

end FixedArray

structure ColInputStore (E : Type) where
  exprs : FixedArray Nat
  datumsCopy : FixedArray (Nat → E)
  length : Int
  savedSize : Nat
  outputIdx : Nat
  inited : Bool

namespace ColInputStore

variable {E : Type}

def empty : ColInputStore E := ⟨.empty, .empty, 0, 0, 0, false⟩

def pushAll [Inhabited E] : List Nat → ColInputStore E → Except Err (ColInputStore E)
  | [], s => .ok s
  | expr :: rest, s => do
      let exprs ← s.exprs.pushBack expr
      let datumsCopy ← s.datumsCopy.pushBack (fun _ => default)
      pushAll rest { s with exprs := exprs, datumsCopy := datumsCopy }

variable (s : ColInputStore E)

/-- `init`: the return codes of the two array initialisations are ignored. -/
def init [Inhabited E] (s : ColInputStore E) (exprs : List Nat) (length : Int) :
    Except Err (ColInputStore E) := do
  let s ← pushAll exprs { s with
      exprs := s.exprs.initIgnored exprs.length
      datumsCopy := s.datumsCopy.initIgnored exprs.length }
  return { s with length := length, savedSize := 0, outputIdx := 0, inited := true }

/-- `free` only gives the copied payloads back. -/
def free : ColInputStore E := s

def reuse : ColInputStore E := { s with savedSize := 0, outputIdx := 0 }

/-- `reset(length)`: a larger length replaces every buffer by a fresh one. -/
def reset [Inhabited E] (s : ColInputStore E) (length : Int) : ColInputStore E :=
  if length ≤ s.length then s.reuse
  else
    let count := s.exprs.items.length
    { s with
      datumsCopy := ⟨if count = 0 then none else some (List.replicate count fun _ => default), count⟩
      length := length
      savedSize := 0
      outputIdx := 0 }

/-- The copy loop of `save_vector`: the active rows of every expression go behind the saved
ones. The argument `load` is what the expression's vector yields at a row. -/
def copyActive (load : Nat → Nat → E) (brs : BatchRows) : ColInputStore E := { s with
    datumsCopy := { s.datumsCopy with
        data := s.datumsCopy.data.map (List.zipWith
          (fun expr dst => Buffer.write dst s.savedSize (brs.active.map (load expr))) s.exprs.items) }
    savedSize := s.savedSize + (brs.size - brs.accumulateBitCnt) }

def saveVector (load : Nat → Nat → E) (brs : BatchRows) : Except Err (ColInputStore E) :=
  if s.length < (s.savedSize + (brs.size - brs.accumulateBitCnt) : Nat) then
    .error .otherStoreOverflow
  else .ok (s.copyActive load brs)

def loadVector (loadSize : Nat) : Except Err (List (Nat × List E) × ColInputStore E) :=
  if s.savedSize < s.outputIdx + loadSize then .error .notEnoughData
  else
    .ok (List.zipWith (fun expr src => (expr, Buffer.read src s.outputIdx loadSize))
          s.exprs.items s.datumsCopy.items,
        { s with outputIdx := s.outputIdx + loadSize })

/-- The store keeps exactly the rows `rows`, a row giving a value to every expression. -/
structure Represents (s : ColInputStore E) (cols : List Nat) (rows : List (Nat → E)) : Prop where
  exprs : s.exprs.items = cols
  buffers : List.Forall₂ (fun col mem => Buffer.Holds mem (rows.map (· col))) cols s.datumsCopy.items
  saved : s.savedSize = rows.length

variable {rows : List (Nat → E)} {cols : List Nat} {s : ColInputStore E}

theorem forall₂_write (more : List (Nat → E)) {mems : List (Nat → E)}
    (buffers : List.Forall₂ (fun col mem => Buffer.Holds mem (rows.map (· col))) cols mems) :
    List.Forall₂ (fun col mem => Buffer.Holds mem ((rows ++ more).map (· col))) cols
      (List.zipWith (fun col mem => Buffer.write mem rows.length (more.map (· col))) cols mems) := by
  induction buffers with
  | nil => simp
  | @cons col mem cols mems holds _ ih =>
    refine Forall₂.cons ?_ ih
    have appended := holds.append (more.map (· col))
    simpa using appended

theorem forall₂_fresh [Inhabited E] (cols : List Nat) :
    List.Forall₂ (fun col mem => Buffer.Holds mem (([] : List (Nat → E)).map (· col))) cols
      (List.replicate cols.length fun _ => default) := by
  induction cols with
  | nil => simp
  | cons col cols ih => exact List.Forall₂.cons (by simp) ih

section

variable (rep : s.Represents cols rows)
include rep

variable (load : Nat → Nat → E)

theorem copyActive_represents (brs : BatchRows) :
    (s.copyActive load brs).Represents cols (rows ++ brs.active.map (fun j col => load col j)) where
  exprs := rep.exprs
  saved := by simp [copyActive, rep.saved, brs.size_sub_accumulateBitCnt]
  buffers := by
    have written := forall₂_write (brs.active.map (fun j col => load col j)) rep.buffers
    have items : (s.copyActive load brs).datumsCopy.items = zipWith (fun col mem => Buffer.write mem rows.length
          ((brs.active.map (fun j col => load col j)).map (· col))) cols s.datumsCopy.items := by
      cases data : s.datumsCopy.data <;>
        simp [copyActive, FixedArray.items, data, ← rep.exprs, rep.saved, Function.comp_def]
    rwa [items]

theorem saveVector_ok (brs : BatchRows)
    (fits : (rows.length + brs.active.length : Nat) ≤ s.length) : s.saveVector load brs = .ok (s.copyActive load brs) := by
  have room : ¬s.length < (rows.length + brs.active.length : Nat) := by omega
  simp only [saveVector, brs.size_sub_accumulateBitCnt, rep.saved, if_neg room]

theorem saveVector_overflow (brs : BatchRows)
    (full : s.length < (rows.length + brs.active.length : Nat)) : s.saveVector load brs = .error .otherStoreOverflow := by
  simp only [saveVector, brs.size_sub_accumulateBitCnt, rep.saved, if_pos full]

end

theorem zipWith_pair {α β γ : Type} {f : β → γ} {g : α → γ} {as : List α} {bs : List β}
    (agree : List.Forall₂ (fun a b => f b = g a) as bs) :
    List.zipWith (fun a b => (a, f b)) as bs = as.map (fun a => (a, g a)) := by
  induction agree with
  | nil => rfl
  | cons head _ ih => simp [head, ih]

section

variable (rep : s.Represents cols rows)
include rep

theorem loadVector_spec {loadSize : Nat} (enough : s.outputIdx + loadSize ≤ rows.length) : s.loadVector loadSize = .ok
      (cols.map (fun col => (col, ((rows.drop s.outputIdx).take loadSize).map (· col))),
        { s with outputIdx := s.outputIdx + loadSize }) := by
  have room : ¬s.savedSize < s.outputIdx + loadSize := by
    rw [rep.saved]
    omega
  have slices : List.Forall₂ (fun col mem => Buffer.read mem s.outputIdx loadSize =
      ((rows.drop s.outputIdx).take loadSize).map (· col)) cols s.datumsCopy.items := by
    apply rep.buffers.imp
    intro col mem holds
    rw [holds.read_eq (by simpa using enough), List.map_take, List.map_drop]
  simp only [loadVector, if_neg room, rep.exprs, zipWith_pair slices]

/-- Whatever the store held, a reset leaves it empty and at least as long as asked for. -/
theorem reset_spec [Inhabited E] (length : Int) : (s.reset length).Represents cols [] ∧ (s.reset length).outputIdx = 0 ∧
      (s.reset length).length = max length s.length := by
  unfold reset
  split
  · rename_i short
    refine ⟨⟨rep.exprs, ?_, rfl⟩, rfl, by simp only [reuse]; omega⟩
    exact rep.buffers.imp (fun _ _ _ => by simp)
  rename_i long
  refine ⟨⟨rep.exprs, ?_, rfl⟩, rfl, by simp only; omega⟩
  have fresh := forall₂_fresh (E := E) cols
  rw [rep.exprs]
  cases cols with
  | nil => simp [FixedArray.items]
  | cons col cols => simpa [FixedArray.items] using fresh

theorem reuse_spec : s.reuse.Represents cols [] := ⟨rep.exprs, rep.buffers.imp (fun _ _ _ => by simp), rfl⟩

end

theorem pushAll_spec [Inhabited E] (cols : List Nat) (s : ColInputStore E) {capacity : Nat}
    {xs : List Nat} {mems : List (Nat → E)} (exprs : s.exprs = ⟨some xs, capacity⟩)
    (datums : s.datumsCopy = ⟨some mems, capacity⟩) (same : mems.length = xs.length)
    (room : xs.length + cols.length ≤ capacity) :
    pushAll cols s = .ok { s with
      exprs := ⟨some (xs ++ cols), capacity⟩
      datumsCopy := ⟨some (mems ++ List.replicate cols.length fun _ => default), capacity⟩ } := by
  induction cols generalizing s xs mems with
  | nil => simp [pushAll, ← exprs, ← datums]
  | cons col cols ih =>
    simp only [List.length_cons] at room
    have first : s.exprs.pushBack col = .ok ⟨some (xs ++ [col]), capacity⟩ := by
      rw [exprs]
      exact FixedArray.pushBack_ok rfl (by simp only; omega) col
    have second : s.datumsCopy.pushBack (fun _ => default) = .ok ⟨some (mems ++ [fun _ => default]), capacity⟩ := by
      rw [datums]
      exact FixedArray.pushBack_ok rfl (by simp only; omega) _
    have rest := ih { s with
        exprs := ⟨some (xs ++ [col]), capacity⟩
        datumsCopy := ⟨some (mems ++ [fun _ => default]), capacity⟩ } rfl rfl (by simp [same])
      (by simp; omega)
    simp only [pushAll, first, second]
    refine rest.trans ?_
    simp [replicate_succ]

theorem init_cons [Inhabited E] (col : Nat) (cols : List Nat) (length : Int) :
    (empty : ColInputStore E).init (col :: cols) length = .ok ⟨⟨some (col :: cols), cols.length + 1⟩,
        ⟨some (List.replicate (cols.length + 1) fun _ => default), cols.length + 1⟩,
        length, 0, 0, true⟩ := by
  have pushed := pushAll_spec (col :: cols)
    (⟨⟨some [], cols.length + 1⟩, ⟨some [], cols.length + 1⟩, 0, 0, 0, false⟩ : ColInputStore E)
    rfl rfl rfl (by simp)
  have started : (empty : ColInputStore E).init (col :: cols) length = (pushAll (col :: cols)
        (⟨⟨some [], cols.length + 1⟩, ⟨some [], cols.length + 1⟩, 0, 0, 0, false⟩ : ColInputStore E)).map
      (fun s => { s with length := length, savedSize := 0, outputIdx := 0, inited := true }) := rfl
  rw [started, pushed]
  rfl

theorem init_empty [Inhabited E] (cols : List Nat) (length : Int) :
    ∃ s, (empty : ColInputStore E).init cols length = .ok s ∧ s.Represents cols [] ∧
      s.length = length ∧ s.outputIdx = 0 := by
  cases cols with
  | nil => exact ⟨_, rfl, ⟨rfl, by simp [FixedArray.items, FixedArray.initIgnored, FixedArray.init,
      empty, FixedArray.empty], rfl⟩, rfl, rfl⟩
  | cons col cols =>
    refine ⟨_, init_cons col cols length, ⟨rfl, ?_, rfl⟩, rfl, rfl⟩
    simpa [FixedArray.items] using forall₂_fresh (E := E) (col :: cols)

/-- Initialising a store a second time fails at the first expression. -/
theorem init_again [Inhabited E] {col : Nat} (full : s.exprs = ⟨some (col :: cols), cols.length + 1⟩) (length : Int) :
    s.init (col :: cols) length = .error .sizeOverflow := by
  have kept : s.exprs.initIgnored (col :: cols).length = s.exprs := by
    simp [FixedArray.initIgnored, FixedArray.init, full]
  have overflow : s.exprs.pushBack col = .error .sizeOverflow := by
    rw [full]
    exact FixedArray.pushBack_full rfl (by simp) col
  simp only [init, kept, pushAll, overflow]
  rfl

end ColInputStore

/-- `ObPUInputStore`: one buffer per argument of a UDF. `types` are the argument types of the
UDF expression the store belongs to. -/
structure PUInputStore (E : Type) where
  types : List ObjType
  dataPtrs : List (Nat → E)
  length : Int
  savedSize : Nat
  inited : Bool

namespace PUInputStore

variable {E : Type}

/-- `alloc_data_ptrs(length)`: a fresh buffer for every argument, if its type is supported. -/
def allocDataPtrs [Inhabited E] (s : PUInputStore E) (length : Int) : Except Err (PUInputStore E) :=
  if s.inited then .error .initTwice
  else if s.types.length = 0 ∨ length ≤ 0 then .error .notInit
  else if s.types.any (fun type => type.slot.isNone) then .error .notSupported
  else .ok { s with dataPtrs := List.replicate s.types.length fun _ => default, length := length }

def init [Inhabited E] (types : List ObjType) (length : Int) : Except Err (PUInputStore E) := do
  let s ← allocDataPtrs ⟨types, [], 0, 0, false⟩ length
  return { s with inited := true, savedSize := 0 }

section

variable (s : PUInputStore E)

def reuse : PUInputStore E := { s with savedSize := 0 }

/-- `free`: the buffers stay referenced, but `inited_` is cleared. -/
def free : PUInputStore E :=
  { s with length := 0, savedSize := 0, inited := false }

def reset [Inhabited E] (length : Int) : Except Err (PUInputStore E) :=
  if length ≤ s.length then .ok s.reuse
  else do
    let s ← s.free.allocDataPtrs length
    return { s with savedSize := 0, inited := true }

/-- The copy loops of `save_batch`; `load i j` is what argument `i` puts into its buffer for
row `j`. -/
def copyActive (load : Nat → Nat → E) (brs : BatchRows) : PUInputStore E :=
  { s with
    dataPtrs := s.dataPtrs.mapIdx
      (fun i dst => Buffer.write dst s.savedSize (brs.active.map (load i)))
    savedSize := s.savedSize + (brs.size - brs.accumulateBitCnt) }

def saveBatch (load : Nat → Nat → E) (brs : BatchRows) :
    Except Err (PUInputStore E) :=
  if s.types.length = 0 then .ok s
  else if s.inited = false then .error .notInit
  else if (s.savedSize + (brs.size - brs.accumulateBitCnt) : Nat) ≤ s.length then
    .ok (s.copyActive load brs)
  else .error .inputStoreOverflow

def argRows (idx count : Nat) : List (List E) :=
  (List.range count).map (fun j => s.dataPtrs.map (fun mem => mem (idx + j)))

end

structure Represents (s : PUInputStore E) (types : List ObjType) (rows : List (Nat → E)) : Prop where
  same : s.types = types
  nonempty : types ≠ []
  supported : types.any (fun type => type.slot.isNone) = false
  inited : s.inited = true
  count : s.dataPtrs.length = types.length
  buffers : ∀ i (bound : i < s.dataPtrs.length), Buffer.Holds (s.dataPtrs.get ⟨i, bound⟩) (rows.map (· i))
  saved : s.savedSize = rows.length
  positive : 0 < s.length

variable {s : PUInputStore E} {types : List ObjType} {rows : List (Nat → E)}

section

variable (rep : s.Represents types rows)
include rep

theorem Represents.types_length_ne : s.types.length ≠ 0 := by
  rw [rep.same]
  exact fun none => rep.nonempty (length_eq_zero_iff.mp none)

theorem copyActive_represents (load : Nat → Nat → E) (brs : BatchRows) :
    (s.copyActive load brs).Represents types (rows ++ brs.active.map (fun j i => load i j)) where
  same := rep.same
  nonempty := rep.nonempty
  supported := rep.supported
  inited := rep.inited
  count := by simp [copyActive, rep.count]
  saved := by simp [copyActive, rep.saved, brs.size_sub_accumulateBitCnt]
  positive := rep.positive
  buffers := by
    intro i bound
    have old : i < s.dataPtrs.length := by simpa [copyActive] using bound
    have appended := (rep.buffers i old).append (brs.active.map (load i))
    simpa [copyActive, rep.saved, Function.comp_def] using appended

theorem saveBatch_ok (load : Nat → Nat → E) (brs : BatchRows)
    (fits : (rows.length + brs.active.length : Nat) ≤ s.length) : s.saveBatch load brs = .ok (s.copyActive load brs) := by
  simp only [saveBatch, brs.size_sub_accumulateBitCnt, rep.saved, if_neg rep.types_length_ne,
    rep.inited, Bool.true_eq_false, ↓reduceIte, if_pos fits]

theorem saveBatch_overflow (load : Nat → Nat → E) (brs : BatchRows)
    (full : s.length < (rows.length + brs.active.length : Nat)) : s.saveBatch load brs = .error .inputStoreOverflow := by
  have refused : ¬((rows.length + brs.active.length : Nat) : Int) ≤ s.length := by omega
  simp only [saveBatch, brs.size_sub_accumulateBitCnt, rep.saved, if_neg rep.types_length_ne,
    rep.inited, Bool.true_eq_false, ↓reduceIte, if_neg refused]

theorem argRows_eq {idx count : Nat} (inside : idx + count ≤ rows.length) :
    s.argRows idx count = ((rows.drop idx).take count).map (fun row => (List.range types.length).map row) := by
  apply List.ext_getElem
  · simp only [argRows, List.length_map, List.length_range, List.length_take, List.length_drop]
    omega
  · intro j left right
    have bound : idx + j < rows.length := by
      grind
    simp only [argRows, getElem_map, getElem_range, getElem_take, getElem_drop]
    apply ext_getElem
    · simp [rep.count]
    · intro i first second
      simp only [length_map] at first
      have cell := rep.buffers i first (idx + j) (by simpa using bound)
      simpa using cell

theorem reuse_spec : s.reuse.Represents types [] where
  same := rep.same
  nonempty := rep.nonempty
  supported := rep.supported
  inited := rep.inited
  count := rep.count
  buffers := by simp
  saved := rfl
  positive := rep.positive

end

theorem allocDataPtrs_spec [Inhabited E] (same : s.types = types) (nonempty : types ≠ [])
    (supported : types.any (fun type => type.slot.isNone) = false) (clear : s.inited = false) {length : Int}
    (pos : 0 < length) :
    ∃ s', s.allocDataPtrs length = .ok s' ∧ s'.length = length ∧
      ({ s' with savedSize := 0, inited := true } : PUInputStore E).Represents types [] := by
  have count : types.length ≠ 0 := fun none => nonempty (List.length_eq_zero_iff.mp none)
  have refused : ¬(types.length = 0 ∨ length ≤ 0) := by omega
  refine ⟨{ s with dataPtrs := List.replicate s.types.length fun _ => default, length := length },
    ?_, rfl, same, nonempty, supported, rfl, by simp [same], by simp, rfl, pos⟩
  simp only [allocDataPtrs, clear, same, if_neg refused, supported, Bool.false_eq_true, ↓reduceIte]

theorem init_spec [Inhabited E] (nonempty : types ≠ []) (supported : types.any (fun type => type.slot.isNone) = false)
    {length : Int} (pos : 0 < length) :
    ∃ s, (init types length : Except Err (PUInputStore E)) = .ok s ∧ s.length = length ∧ s.Represents types [] := by
  obtain ⟨s, allocated, same, fresh⟩ :=
    allocDataPtrs_spec (E := E) (s := ⟨types, [], 0, 0, false⟩) rfl nonempty supported rfl pos
  exact ⟨{ s with savedSize := 0, inited := true }, by simp only [init, allocated]; rfl, same, fresh⟩

theorem reset_spec [Inhabited E] (rep : s.Represents types rows) (length : Int) :
    ∃ s', s.reset length = .ok s' ∧ s'.length = max length s.length ∧ s'.Represents types [] := by
  have pos := rep.positive
  unfold reset
  split
  · rename_i short
    exact ⟨_, rfl, by simp only [reuse]; omega, reuse_spec rep⟩
  rename_i long
  have grown : 0 < length := by omega
  obtain ⟨s', allocated, same, fresh⟩ := allocDataPtrs_spec (s := s.free) rep.same rep.nonempty rep.supported rfl grown
  refine ⟨_, by rw [allocated]; rfl, ?_, fresh⟩
  simp only [same]
  omega

end PUInputStore

end IMBridge.PythonUdf
