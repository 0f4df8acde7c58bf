import IMBridge.Engine.ExprVector
import IMBridge.PythonUdf.Store

/-!
Pass-through columns: `save_vector` copies pointer and length of every active row, so NULL is lost,
and `load_vector` writes the payloads into the reserved buffer of the expression, where a value
longer than `res_buf_len_` runs into the next row or into the data of the next expression.
-/

namespace IMBridge.PythonUdf

open IMBridge.Engine ExprVector List ColInputStore BatchRows
open IMBridge.Lib

/-- The attributes of a pass-through expression that decide how its values are stored, and the
values its column may hold. -/
structure PassExpr where
  batchResult : Bool
  isNullType : Bool
  isFixedLengthData : Bool
  resBufLen : Nat
  maxLength : Nat
  nullable : Bool
  nullType_nullable : isNullType = true → nullable = true

namespace PassExpr

variable (expr : PassExpr)

def getDefaultResFormat : VectorFormat :=
  if !expr.batchResult then .uniformConst
  else if expr.isNullType then .uniform
  else if expr.isFixedLengthData then .fixed
  else .discrete

def Admits : Option Bytes → Prop
  | none => expr.nullable = true
  | some bytes => expr.isNullType = false ∧
      if expr.isFixedLengthData then bytes.length = expr.resBufLen else bytes.length ≤ expr.maxLength

def Allows : VectorFormat → Prop
  | .fixed => expr.batchResult = true ∧ expr.isNullType = false ∧ expr.isFixedLengthData = true
  | .discrete => expr.batchResult = true ∧ expr.isNullType = false ∧ expr.isFixedLengthData = false
  | .uniform => expr.batchResult = true
  | .uniformConst => True

/-- A vector as a child delivers it for the batch `brs`. A NULL row may have any payload. -/
structure Delivers (expr : PassExpr) (vector : ExprVector) (brs : BatchRows) : Prop where
  format : expr.Allows vector.format
  reserved : vector.resBufLen = expr.resBufLen
  values : ∀ j ∈ brs.active, expr.Admits (vector.value j)

/-- What `load_vector` does for one expression with the saved payloads of its next rows. -/
def reload (vector : ExprVector) (payloads : List Bytes) : Option ExprVector :=
  (vector.initVector expr.getDefaultResFormat payloads.length).setPayloads 0 payloads

/-- What of the reserved buffer belongs to `count` rows. -/
def reservedSize (count : Nat) : Nat := (if expr.batchResult then count else 1) * expr.resBufLen

/-- Rows of a batch that are saved and then loaded, `first` rows earlier and `count` rows now, show
the values they had before, and what lies behind their reserved buffer, be it another pass-through
column, is left alone. The store may hold other columns and rows already handed out. -/
def Faithful : Prop :=
  ∀ (cols : List Nat) (col : Nat) (store : ColInputStore Bytes) (rows : List (Nat → Bytes)),
    col ∈ cols → store.Represents cols rows → store.outputIdx = rows.length →
  ∀ (brs : BatchRows) (vectors : Nat → ExprVector) (vector : ExprVector) (first count : Nat),
    (rows.length + brs.active.length : Nat) ≤ store.length → expr.Delivers (vectors col) brs →
    vector.resBufLen = expr.resBufLen → first + count ≤ brs.active.length →
  ∃ saved before mid loaded after payloads result,
    store.saveVector (fun c j => (vectors c).getPayload j) brs = .ok saved ∧
    saved.loadVector first = .ok (before, mid) ∧
    mid.loadVector count = .ok (loaded, after) ∧
    loaded.lookup col = some payloads ∧
    expr.reload vector payloads = some result ∧
    (∀ k (inside : first + k < brs.active.length), k < count →
      result.value k = (vectors col).value (brs.active.get ⟨first + k, inside⟩)) ∧
    ∀ address, expr.reservedSize count ≤ address → result.mem address = vector.mem address

variable {expr : PassExpr} {vector : ExprVector}

theorem Delivers.value_eq {brs : BatchRows} (delivers : expr.Delivers vector brs) (notNull : expr.nullable = false)
    {j : Nat} (member : j ∈ brs.active) :
    vector.value j = some (vector.getPayload j) ∧ expr.Admits (some (vector.getPayload j)) := by
  have admitted := delivers.values j member
  have present : vector.value j = some (vector.getPayload j) := by
    cases isNull : vector.isNull j with
    | false => simp [value, isNull]
    | true => simp [value, isNull, Admits, notNull] at admitted
  exact ⟨present, present ▸ admitted⟩

theorem reload_batch (batch : expr.batchResult = true) (sameBuf : vector.resBufLen = expr.resBufLen)
    {payloads : List Bytes} (short : ∀ x ∈ payloads, x.length ≤ expr.resBufLen)
    (shaped : expr.getDefaultResFormat = .fixed ∧ (∀ x ∈ payloads, x.length = expr.resBufLen) ∨
      expr.getDefaultResFormat = .discrete) :
    ∃ result, expr.reload vector payloads = some result ∧
      (∀ k (inside : k < payloads.length), result.value k = some (payloads.get ⟨k, inside⟩)) ∧
      ∀ address, expr.reservedSize payloads.length ≤ address → result.mem address = vector.mem address := by
  let start := vector.initVector expr.getDefaultResFormat payloads.length
  have several : start.format ≠ .uniformConst := by
    rcases shaped with ⟨format, -⟩ | format <;> simp [start, format, initVector]
  have ptrs : ∀ i < payloads.length, start.ptr i = i * expr.resBufLen := by
    intro i inside
    rcases shaped with ⟨format, -⟩ | format <;> simp [start, format, initVector, ptr, slot, sameBuf, inside]
  have sized : start.format = .fixed → ∀ x ∈ payloads, x.length = start.resBufLen := by
    rcases shaped with ⟨format, sized⟩ | format <;> simp [start, format, initVector, sameBuf]
    exact sized
  have mem : start.mem = vector.mem := by
    rcases shaped with ⟨format, -⟩ | format <;> simp [start, format, initVector]
  obtain ⟨result, done, -, behind, shows⟩ := setPayloads_apart expr.resBufLen payloads.length payloads start 0
    several ptrs (by simp) short sized (by simp)
  refine ⟨result, done, by simpa using shows, fun address beyond => ?_⟩
  rw [behind address (by simpa [reservedSize, batch] using beyond), mem]

/-- Reloading values that the column admits, without NULLs and within the reserved buffer. -/
theorem reload_faithful (notNull : expr.nullable = false)
    (fits : expr.isFixedLengthData = true ∨ expr.maxLength ≤ expr.resBufLen)
    (sameBuf : vector.resBufLen = expr.resBufLen) (payloads : List Bytes)
    (admitted : ∀ x ∈ payloads, expr.Admits (some x))
    (const : expr.batchResult = false → ∀ x ∈ payloads, ∀ y ∈ payloads, x = y) :
    ∃ result, expr.reload vector payloads = some result ∧
      (∀ k (inside : k < payloads.length), result.value k = some (payloads.get ⟨k, inside⟩)) ∧
      ∀ address, expr.reservedSize payloads.length ≤ address → result.mem address = vector.mem address := by
  have notNullType : expr.isNullType = false := by
    by_contra isNull
    have nullable := expr.nullType_nullable (by simpa using isNull)
    simp [notNull] at nullable
  have short : ∀ x ∈ payloads, x.length ≤ expr.resBufLen := by
    intro x member
    have shape := admitted x member
    unfold Admits at shape
    grind
  cases batch : expr.batchResult with
  | false =>
    have format : expr.getDefaultResFormat = .uniformConst := by simp [getDefaultResFormat, batch]
    cases payloads with
    | nil => exact ⟨_, rfl, fun k inside => absurd inside (Nat.not_lt_zero k), fun _ _ => by rw [format]; rfl⟩
    | cons payload rest =>
      have equal : ∀ x ∈ payload :: rest, x = payload := fun x member =>
        const batch x member payload mem_cons_self
      obtain ⟨result, done, kept, behind, shows⟩ := setPayloads_const (payload :: rest)
        (vector.initVector .uniformConst (rest.length + 1)) 0 payload rfl equal
      refine ⟨result, by rw [reload, format]; exact done, fun k inside => ?_, fun address beyond => ?_⟩
      · rw [value_const kept, shows (Or.inl (cons_ne_nil _ _))]
        exact congrArg some (equal _ (get_mem _ _)).symm
      · refine behind address ?_
        have room := short payload mem_cons_self
        have beyond : 1 * expr.resBufLen ≤ address := by simpa [reservedSize, batch] using beyond
        have start : (vector.initVector .uniformConst (rest.length + 1)).ptr 0 = 0 := by simp [initVector, ptr, slot]
        omega
  | true =>
    refine reload_batch batch sameBuf short ?_
    cases fixed : expr.isFixedLengthData with
    | true =>
      refine .inl ⟨by simp [getDefaultResFormat, batch, notNullType, fixed], fun x member => ?_⟩
      simpa [Admits, notNullType, fixed] using admitted x member
    | false => exact .inr (by simp [getDefaultResFormat, batch, notNullType, fixed])

theorem lookup_map_self {β : Type} (f : Nat → β) {cols : List Nat} {col : Nat} (member : col ∈ cols) :
    (cols.map fun c => (c, f c)).lookup col = some (f col) := by
  induction cols with
  | nil => exact absurd member not_mem_nil
  | cons c rest ih =>
    grind

theorem save_load_payloads {cols : List Nat} {col : Nat} {store : ColInputStore Bytes}
    {rows : List (Nat → Bytes)} (member : col ∈ cols) (rep : store.Represents cols rows)
    (output : store.outputIdx = rows.length) (brs : BatchRows) (vectors : Nat → ExprVector)
    {first count : Nat} (room : (rows.length + brs.active.length : Nat) ≤ store.length)
    (enough : first + count ≤ brs.active.length) :
    ∃ saved before mid loaded after, store.saveVector (fun c j => (vectors c).getPayload j) brs = .ok saved ∧
      saved.loadVector first = .ok (before, mid) ∧ mid.loadVector count = .ok (loaded, after) ∧
      loaded.lookup col = some (((brs.active.drop first).take count).map fun j => (vectors col).getPayload j) := by
  let load := fun c j => (vectors c).getPayload j
  let saved := store.copyActive load brs
  let rows' := rows ++ brs.active.map fun j c => load c j
  have done := saveVector_ok rep load brs room
  have rep' : saved.Represents cols rows' := copyActive_represents rep load brs
  have outputSaved : saved.outputIdx = rows.length := output
  have total : rows'.length = rows.length + brs.active.length := by simp [rows']
  have firstIn : saved.outputIdx + first ≤ rows'.length := by omega
  have firstLoad := loadVector_spec rep' firstIn
  let mid := { saved with outputIdx := saved.outputIdx + first }
  have repMid : mid.Represents cols rows' := ⟨rep'.exprs, rep'.buffers, rep'.saved⟩
  have outputMid : mid.outputIdx = rows.length + first := by
    change saved.outputIdx + first = _
    omega
  have secondIn : mid.outputIdx + count ≤ rows'.length := by omega
  have secondLoad := loadVector_spec repMid secondIn
  refine ⟨saved, _, mid, _, _, done, firstLoad, secondLoad, ?_⟩
  rw [lookup_map_self _ member, outputMid]
  simp only [rows', drop_append, drop_eq_nil_of_le (Nat.le_add_right rows.length first),
    Nat.add_sub_cancel_left, nil_append, ← map_drop, ← map_take, map_map]
  rfl

theorem faithful_of_fits (notNull : expr.nullable = false)
    (fits : expr.isFixedLengthData = true ∨ expr.maxLength ≤ expr.resBufLen) : expr.Faithful := by
  intro cols col store rows member rep output brs vectors vector first count room delivers sameBuf enough
  obtain ⟨saved, before, mid, loaded, after, save, firstLoad, load, payloads⟩ :=
    save_load_payloads member rep output brs vectors room enough
  let slice := (brs.active.drop first).take count
  have active : ∀ j ∈ slice, j ∈ brs.active := fun j inside =>
    mem_of_mem_drop (mem_of_mem_take inside)
  have admitted : ∀ x ∈ slice.map (fun j => (vectors col).getPayload j), expr.Admits (some x) := by
    intro x inside
    obtain ⟨j, inSlice, rfl⟩ := mem_map.mp inside
    exact (delivers.value_eq notNull (active j inSlice)).2
  have const : expr.batchResult = false → ∀ x ∈ slice.map (fun j => (vectors col).getPayload j),
      ∀ y ∈ slice.map (fun j => (vectors col).getPayload j), x = y := by
    intro noBatch x inX y inY
    have format : (vectors col).format = .uniformConst := by
      have allowed := delivers.format
      cases shape : (vectors col).format <;> simp_all [Allows]
    obtain ⟨i, -, rfl⟩ := mem_map.mp inX
    obtain ⟨j, -, rfl⟩ := mem_map.mp inY
    simp [getPayload, ptr, ExprVector.length, slot, format]
  obtain ⟨result, done, shows, behind⟩ := reload_faithful notNull fits sameBuf _ admitted const
  have size : (slice.map fun j => (vectors col).getPayload j).length = count := by simp [slice]; omega
  refine ⟨saved, before, mid, loaded, after, _, result, save, firstLoad, load, payloads, done, ?_, size ▸ behind⟩
  intro k inside below
  have atRow := (delivers.value_eq notNull (get_mem brs.active ⟨first + k, inside⟩)).1
  grind

/-- One row that is saved from one frame and loaded into another. -/
theorem Faithful.reload_one (faithful : expr.Faithful) {delivered : ExprVector}
    (delivers : expr.Delivers delivered (.dense 1 false)) (vector : ExprVector)
    (sameBuf : vector.resBufLen = expr.resBufLen) :
    ∃ result, expr.reload vector [delivered.getPayload 0] = some result ∧
      result.value 0 = delivered.value 0 ∧
      ∀ address, expr.reservedSize 1 ≤ address → result.mem address = vector.mem address := by
  obtain ⟨store, -, rep, length, output⟩ := init_empty (E := Bytes) [0] 1
  have active : (dense 1 false).active = [0] := active_dense 1 false
  have room : (([] : List (Nat → Bytes)).length + (dense 1 false).active.length : Nat) ≤ store.length := by
    simp [length, active]
  have enough : 0 + 1 ≤ (dense 1 false).active.length := by simp [active]
  obtain ⟨saved, before, mid, loaded, after, payloads, result, save, firstLoad, load, found, done, shows, behind⟩ :=
    faithful [0] 0 store [] mem_cons_self rep output (.dense 1 false) (fun _ => delivered) vector 0 1
      room delivers sameBuf enough
  obtain ⟨saved', before', mid', loaded', after', save', firstLoad', load', found'⟩ :=
    save_load_payloads mem_cons_self rep output (.dense 1 false) (fun _ => delivered) room enough
  obtain rfl : saved = saved' := Except.ok.inj (save.symm.trans save')
  obtain ⟨-, rfl⟩ : before = before' ∧ mid = mid' := Prod.mk.inj (Except.ok.inj (firstLoad.symm.trans firstLoad'))
  obtain ⟨rfl, -⟩ : loaded = loaded' ∧ after = after' := Prod.mk.inj (Except.ok.inj (load.symm.trans load'))
  obtain rfl : payloads = [delivered.getPayload 0] := Option.some.inj (found.symm.trans found')
  exact ⟨result, done, shows 0 (by simp [active]) Nat.one_pos, behind⟩

theorem setPayload_of_reload {payload : Bytes} {result : ExprVector} (done : expr.reload vector [payload] = some result) :
    (vector.initVector expr.getDefaultResFormat 1).setPayload 0 payload = some result := by
  simpa [reload, setPayloads] using done

/-- A NULL comes back as a value, or the reload aborts. -/
theorem not_faithful_of_nullable (nullable : expr.nullable = true) : ¬expr.Faithful := by
  intro faithful
  let delivered : ExprVector := ⟨.uniformConst, expr.resBufLen, fun _ => 0, fun _ => 0, fun _ => 0, fun _ => true⟩
  have delivers : expr.Delivers delivered (.dense 1 false) := ⟨trivial, rfl, fun _ _ => nullable⟩
  obtain ⟨result, done, shows, -⟩ := faithful.reload_one delivers delivered rfl
  have present := value_setPayload (setPayload_of_reload done)
  rw [shows] at present
  cases present

/-- A value longer than the reserved buffer of a row is written beyond it. -/
theorem not_faithful_of_long (notNull : expr.nullable = false) (varies : expr.isFixedLengthData = false)
    (long : expr.resBufLen < expr.maxLength) : ¬expr.Faithful := by
  intro faithful
  have notNullType : expr.isNullType = false := by
    by_contra isNull
    have nullable := expr.nullType_nullable (by simpa using isNull)
    simp [notNull] at nullable
  let delivered : ExprVector := ⟨.uniformConst, expr.resBufLen, fun _ => 0, fun _ => 0,
    fun _ => expr.resBufLen + 1, fun _ => false⟩
  let vector : ExprVector := { delivered with mem := fun _ => 1 }
  have delivers : expr.Delivers delivered (.dense 1 false) := by
    refine ⟨trivial, rfl, fun j _ => ?_⟩
    simp [delivered, Admits, value, ExprVector.isNull, getPayload, ExprVector.length, notNullType, varies]
    omega
  obtain ⟨result, done, -, behind⟩ := faithful.reload_one delivers vector rfl
  obtain ⟨-, rfl⟩ := setPayload_eq_some (setPayload_of_reload done)
  have start : (vector.initVector expr.getDefaultResFormat 1).ptr 0 = 0 := by
    unfold getDefaultResFormat
    cases expr.batchResult <;> simp [notNullType, varies, initVector, ptr, slot]
  have kept := behind expr.resBufLen (by simp [reservedSize])
  have length : expr.resBufLen < (delivered.getPayload 0).length := by
    simp [delivered, getPayload, ExprVector.length]
  have written := Buffer.write_inside (vector.initVector expr.getDefaultResFormat 1).mem 0 _ length
  rw [Nat.zero_add] at written
  rw [start] at kept
  have same := written.symm.trans kept
  simp [delivered, vector, getPayload, Buffer.read] at same

def bigint : PassExpr where
  batchResult := true
  isNullType := false
  isFixedLengthData := true
  resBufLen := 8
  maxLength := 8
  nullable := true
  nullType_nullable := fun _ => rfl

def nullVector : ExprVector := ⟨.fixed, 8, fun _ => 0, fun _ => 0, fun _ => 0, fun i => i == 0⟩

end PassExpr

end IMBridge.PythonUdf
