import IMBridge.PythonUdf.Operator

/-!
`ObPythonUdfInfo`, the runtime info of a UDF expression. Code generation sets all of its fields; a
copy and a deserialised info get the metadata only.
-/

namespace IMBridge.PythonUdf

inductive PyUdfRetType where
  | uninitial | string | integer | real | decimal
deriving DecidableEq

structure PythonUDF where
  name : String
  ret : PyUdfRetType
  pycall : String
  argNames : List String
  argTypes : List PyUdfRetType

structure UDFMeta where
  name : String := ""
  ret : PyUdfRetType := .uninitial
  pycall : String := ""
  attributesNames : List String := []
  attributesTypes : List PyUdfRetType := []
  init : Bool := false
  batchSize : Int := 256
  batchSizeConst : Bool := false

/-- `ObPythonUdfRawExpr::set_udf_meta`. A size out of range leaves the two fields alone; its error
code is overwritten by the copies that follow. -/
def UDFMeta.setUdfMeta (udf : PythonUDF) (batchSize : Int) (dst : UDFMeta) : UDFMeta :=
  let sized :=
    if batchSize = 0 then { dst with batchSizeConst := false, batchSize := 256 }
    else if batchSize < 256 ∨ 8192 < batchSize then dst
    else { dst with batchSizeConst := true, batchSize := batchSize }
  { sized with
    init := false
    ret := udf.ret
    name := udf.name
    pycall := udf.pycall
    attributesTypes := udf.argTypes
    attributesNames := udf.argNames }

def UDFMeta.deepCopyUdfMeta (dst src : UDFMeta) : UDFMeta := { dst with
    init := src.init
    ret := src.ret
    name := src.name
    pycall := src.pycall
    attributesTypes := dst.attributesTypes ++ src.attributesTypes }

structure PythonUdfInfo (R : Type) where
  udfMeta : UDFMeta
  steering : UdfInfo R

namespace PythonUdfInfo

variable {R : Type} [Numbers R]

def fromRawExpr (raw : UDFMeta) : PythonUdfInfo R := ⟨UDFMeta.deepCopyUdfMeta {} raw, .fromRawExpr⟩

/-- `deep_copy` into an info that the factory has allocated; `unset` is what its memory held. -/
def deepCopy (info : PythonUdfInfo R) (unset : UdfInfo R) : PythonUdfInfo R :=
  ⟨UDFMeta.deepCopyUdfMeta {} info.udfMeta, unset⟩

/-- Serialised and deserialised: the members of the metadata make the trip. -/
def transfer (info : PythonUdfInfo R) (unset : UdfInfo R) : PythonUdfInfo R := ⟨info.udfMeta, unset⟩

inductive CopyStep where
  | deepCopy | transfer

/-- The infos that come of a raw expression by code generation and then by `steps`, the last one
first. The memory of each new info may have held anything. -/
inductive Reached (raw : UDFMeta) : List CopyStep → PythonUdfInfo R → Prop
  | generated : Reached raw [] (fromRawExpr raw)
  | copied {steps : List CopyStep} {info : PythonUdfInfo R} (reached : Reached raw steps info)
      (unset : UdfInfo R) : Reached raw (.deepCopy :: steps) (info.deepCopy unset)
  | transferred {steps : List CopyStep} {info : PythonUdfInfo R} (reached : Reached raw steps info)
      (unset : UdfInfo R) : Reached raw (.transfer :: steps) (info.transfer unset)

theorem Reached.batchSize_lost {raw : UDFMeta} {steps : List CopyStep} {info : PythonUdfInfo R}
    (reached : Reached raw steps info) :
    info.udfMeta.batchSize = 256 ∧ info.udfMeta.batchSizeConst = false := by
  induction reached with
  | generated => exact ⟨rfl, rfl⟩
  | copied => exact ⟨rfl, rfl⟩
  | transferred _ _ ih => exact ih

theorem Reached.eq_fromRawExpr {raw : UDFMeta} {info : PythonUdfInfo R} (reached : Reached raw [] info) :
    info = fromRawExpr raw := by
  cases reached
  rfl

theorem exists_reached (raw : UDFMeta) (steps : List CopyStep) (unset : UdfInfo R) :
    ∃ info, Reached raw steps info ∧ (steps ≠ [] → info.steering = unset) := by
  induction steps with
  | nil => exact ⟨_, .generated, fun none => absurd rfl none⟩
  | cons step steps ih =>
    obtain ⟨info, reached, -⟩ := ih
    cases step with
    | deepCopy => exact ⟨_, .copied reached unset, fun _ => rfl⟩
    | transfer => exact ⟨_, .transferred reached unset, fun _ => rfl⟩

end PythonUdfInfo

end IMBridge.PythonUdf
