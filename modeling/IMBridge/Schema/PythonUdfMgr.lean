import IMBridge.Hash.PointerHashMap
import IMBridge.PythonUdf.Info
import IMBridge.Schema.SortedVector
import Mathlib.Data.List.TakeWhile

/-!
`ObPythonUDFMgr`: a vector of schema objects sorted by tenant and name, and a pointer hash map from
tenant and name to the same objects. The allocator is the number of the next object.
-/

namespace IMBridge.Schema

open IMBridge.Hash
open IMBridge.PythonUdf (PyUdfRetType)

abbrev ObString := List UInt8

def memcmp : ObString → ObString → Ordering
  | a :: s, b :: t => (compare a b).then (memcmp s t)
  | _, _ => .eq

/-- `ObString::compare`: the bytes of the common length first, then the lengths. -/
def ObString.compare (s t : ObString) : Ordering :=
  (memcmp s t).then (Ord.compare s.length t.length)

/-- The `ObString` made of the C string that the bytes begin with. -/
def cString (s : ObString) : ObString := s.takeWhile (· ≠ 0)

theorem cString_eq_self {s : ObString} (absent : 0 ∉ s) : cString s = s := by
  refine List.takeWhile_eq_self_iff.mpr fun byte member => ?_
  grind

theorem zero_notMem_cString (s : ObString) : 0 ∉ cString s := by
  intro member
  simpa using List.mem_takeWhile_imp member

def invalidId : Nat := 2 ^ 64 - 1

structure TenantPythonUdfId where
  tenantId : Nat
  udfName : ObString
deriving DecidableEq

namespace TenantPythonUdfId

def lt (a b : TenantPythonUdfId) : Bool :=
  if a.tenantId = b.tenantId then ObString.compare a.udfName b.udfName = .lt
  else a.tenantId < b.tenantId

def isValid (id : TenantPythonUdfId) : Bool := id.tenantId ≠ invalidId ∧ id.udfName.length ≠ 0

end TenantPythonUdfId

structure PythonUDFHashWrapper where
  tenantId : Nat
  udfName : ObString
deriving DecidableEq

structure SimplePythonUdfSchema where
  tenantId : Nat
  udfId : Nat
  udfName : ObString
  argNum : Int
  argNames : ObString
  argTypes : ObString
  ret : PyUdfRetType
  pycall : ObString
  schemaVersion : Int
deriving DecidableEq

namespace SimplePythonUdfSchema

variable (schema : SimplePythonUdfSchema)

def isValid : Bool :=
  ¬ (schema.tenantId = invalidId ∨ schema.schemaVersion < 0 ∨ schema.udfName.isEmpty)

/-- `get_udf_name`, which hands out a C string. -/
def getUdfName : ObString := cString schema.udfName

def getTenantPythonUdfId : TenantPythonUdfId := ⟨schema.tenantId, schema.udfName⟩

def hashWrapper : PythonUDFHashWrapper := ⟨schema.tenantId, schema.getUdfName⟩

end SimplePythonUdfSchema

structure SchemaObject where
  addr : Nat
  schema : SimplePythonUdfSchema
deriving DecidableEq

namespace SchemaObject

abbrev id (udf : SchemaObject) : TenantPythonUdfId := udf.schema.getTenantPythonUdfId

end SchemaObject

inductive Ret where
  | success | notInit | initTwice | invalidArgument | entryNotExist | errUnexpected
  | hash (ret : Code)
deriving DecidableEq

def Ret.ofHash : Code → Ret
  | .success => .success
  | ret => .hash ret

def udfTraits (hash : PythonUDFHashWrapper → Nat) : Traits PythonUDFHashWrapper SchemaObject where
  hash := hash
  getKey := fun udf => udf.schema.hashWrapper

structure PythonUDFMgr where
  isInited : Bool
  udfInfos : List SchemaObject
  udfMap : PointerHashMap SchemaObject

namespace PythonUDFMgr

def new : PythonUDFMgr := ⟨false, [], ⟨[], normalBlockSize⟩⟩

def init (mgr : PythonUDFMgr) : Ret × PythonUDFMgr :=
  if mgr.isInited then (.initTwice, mgr)
  else (.success, { mgr with isInited := true, udfMap := .init _ mgr.udfMap.subMapMemSize })

def reset (mgr : PythonUDFMgr) : PythonUDFMgr :=
  if mgr.isInited then { mgr with udfInfos := [], udfMap := mgr.udfMap.clear } else mgr

def comparePythonUdf (lhs rhs : SchemaObject) : Bool := lhs.id.lt rhs.id

def equalPythonUdf (lhs rhs : SchemaObject) : Bool := lhs.id = rhs.id

def compareWithTenantPythonUdfId (lhs : SchemaObject) (id : TenantPythonUdfId) : Bool := lhs.id.lt id

def equalToTenantPythonUdfId (lhs : SchemaObject) (id : TenantPythonUdfId) : Bool := lhs.id = id

variable (hash : PythonUDFHashWrapper → Nat)

def rebuildLoop : List SchemaObject → PointerHashMap SchemaObject → PointerHashMap SchemaObject
  | [], udfMap => udfMap
  | udf :: rest, udfMap =>
    let set := udfMap.setRefactored (udfTraits hash) udf.schema.hashWrapper udf true
    if set.ret = .success then rebuildLoop rest set.map else set.map

def rebuildPythonUdfHashmap (udfInfos : List SchemaObject) (udfMap : PointerHashMap SchemaObject) :
    PointerHashMap SchemaObject :=
  rebuildLoop hash udfInfos udfMap.clear

variable (mgr : PythonUDFMgr)

def checkCounts : PythonUDFMgr :=
  if mgr.udfInfos.length ≠ mgr.udfMap.itemCount then
    { mgr with udfMap := rebuildPythonUdfHashmap hash mgr.udfInfos mgr.udfMap }
  else mgr

/-- `add_python_udf`, which copies the schema to the new object `addr`. -/
def addPythonUdf (addr : Nat) (schema : SimplePythonUdfSchema) : Ret × PythonUDFMgr :=
  if !mgr.isInited then (.notInit, mgr.checkCounts hash)
  else if !schema.isValid then (.invalidArgument, mgr.checkCounts hash)
  else
    let newUdf : SchemaObject := ⟨addr, schema⟩
    let replaced := SortedVector.replace comparePythonUdf equalPythonUdf mgr.udfInfos newUdf
    let set := mgr.udfMap.setRefactored (udfTraits hash) newUdf.schema.hashWrapper newUdf true
    (.ofHash set.ret, checkCounts hash { mgr with udfInfos := replaced.1, udfMap := set.map })

def delPythonUdf (id : TenantPythonUdfId) : Ret × PythonUDFMgr :=
  if !id.isValid then (.invalidArgument, mgr.checkCounts hash)
  else
    match SortedVector.removeIf compareWithTenantPythonUdfId equalToTenantPythonUdfId
      mgr.udfInfos id with
    | none => (.entryNotExist, mgr.checkCounts hash)
    | some (schemaToDel, udfInfos) =>
      let erased := mgr.udfMap.eraseRefactored (udfTraits hash) schemaToDel.schema.hashWrapper
      (if erased.ret = .success then .success else .errUnexpected,
        checkCounts hash { mgr with udfInfos, udfMap := erased.map })

def getPythonUdfSchemasInTenant (tenantId : Nat) : List SchemaObject :=
  mgr.udfInfos.filter fun udf => udf.schema.tenantId = tenantId

def delLoop (tenantId : Nat) : List SchemaObject → PythonUDFMgr → Ret × PythonUDFMgr
  | [], mgr => (.success, mgr)
  | udf :: rest, mgr =>
    match mgr.delPythonUdf hash ⟨tenantId, udf.schema.getUdfName⟩ with
    | (.success, mgr) => delLoop tenantId rest mgr
    | failed => failed

def delSchemasInTenant (tenantId : Nat) : Ret × PythonUDFMgr :=
  if tenantId = invalidId then (.invalidArgument, mgr)
  else delLoop hash tenantId (mgr.getPythonUdfSchemasInTenant tenantId) mgr

/-- `assign` from another manager. The objects are shared. -/
def assign (mgr other : PythonUDFMgr) : Ret × PythonUDFMgr :=
  if !mgr.isInited then (.notInit, mgr)
  else (.success, { mgr with udfInfos := other.udfInfos, udfMap := other.udfMap })

def addLoop (addr : Nat) : List SchemaObject → PythonUDFMgr → Ret × PythonUDFMgr
  | [], mgr => (.success, mgr)
  | udf :: rest, mgr =>
    match mgr.addPythonUdf hash addr udf.schema with
    | (.success, mgr) => addLoop (addr + 1) rest mgr
    | failed => failed

def deepCopy (mgr other : PythonUDFMgr) (addr : Nat) : Ret × PythonUDFMgr :=
  if !mgr.isInited then (.notInit, mgr) else addLoop hash addr other.udfInfos mgr.reset

def getPythonUdfSchemaWithName (tenantId : Nat) (name : ObString) : Ret × Option SchemaObject :=
  if !mgr.isInited then (.notInit, none)
  else if tenantId = invalidId ∨ name.isEmpty then (.invalidArgument, none)
  else
    match mgr.udfMap.getRefactored (udfTraits hash) ⟨tenantId, name⟩ with
    | .ok udf => (.success, some udf)
    | .error .hashNotExist => (.success, none)
    | .error ret => (.ofHash ret, none)

end PythonUDFMgr

structure System where
  nextAddr : Nat
  mgrs : Nat → PythonUDFMgr

inductive Call where
  | addPythonUdf (i : Nat) (schema : SimplePythonUdfSchema)
  | delPythonUdf (i : Nat) (id : TenantPythonUdfId)
  | delSchemasInTenant (i : Nat) (tenantId : Nat)
  | assign (i j : Nat)
  | deepCopy (i j : Nat)

namespace System

def start : System := ⟨0, fun _ => (PythonUDFMgr.new.init).2⟩

def put (sys : System) (i used : Nat) (mgr : PythonUDFMgr) : System :=
  ⟨sys.nextAddr + used, Function.update sys.mgrs i mgr⟩

def call (hash : PythonUDFHashWrapper → Nat) (sys : System) : Call → System
  | .addPythonUdf i schema =>
    sys.put i 1 ((sys.mgrs i).addPythonUdf hash sys.nextAddr schema).2
  | .delPythonUdf i id => sys.put i 0 ((sys.mgrs i).delPythonUdf hash id).2
  | .delSchemasInTenant i tenantId => sys.put i 0 ((sys.mgrs i).delSchemasInTenant hash tenantId).2
  | .assign i j => if i = j then sys else sys.put i 0 ((sys.mgrs i).assign (sys.mgrs j)).2
  | .deepCopy i j =>
    if i = j then sys
    else sys.put i (sys.mgrs j).udfInfos.length
      ((sys.mgrs i).deepCopy hash (sys.mgrs j) sys.nextAddr).2

end System

end IMBridge.Schema
