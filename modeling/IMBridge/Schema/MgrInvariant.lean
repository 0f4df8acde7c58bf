import IMBridge.Hash.MapHistory
import IMBridge.Lib.ByteOrder
import IMBridge.Schema.PythonUdfMgr

/-!
The two indexes of `ObPythonUDFMgr` agree: every operation keeps the vector sorted and the map with
the same objects, and none ever has to rebuild the map.
-/

namespace IMBridge.Schema

open IMBridge.Hash List Function
open IMBridge.Lib.ByteOrder

theorem ObString.compare_eq (s t : ObString) : ObString.compare s t = Ord.compare s t := by
  induction s generalizing t with
  | nil => cases t <;> rfl
  | cons a s ih =>
    cases t with
    | nil => rfl
    | cons b t =>
      have lengths : Ord.compare (a :: s).length (b :: t).length = Ord.compare s.length t.length := by
        simp [Nat.compare_eq_ite_lt]
      rw [List.compare_cons_cons, ← ih, ObString.compare, lengths, memcmp, Ordering.then_assoc]
      rfl

namespace TenantPythonUdfId

theorem lt_iff {a b : TenantPythonUdfId} : a.lt b = true ↔
    a.tenantId < b.tenantId ∨ (a.tenantId = b.tenantId ∧ compare a.udfName b.udfName = .lt) := by
  rw [lt, ObString.compare_eq]
  split
  next same => simp [same]
  next differ => simp [differ]

instance : IsStrictTotalOrder TenantPythonUdfId fun a b => a.lt b = true where
  irrefl a less := by
    rw [lt_iff, compare_bytes_self] at less
    simp at less
  trans a b c first second := by
    rw [lt_iff] at *
    rcases first with first | ⟨same, first⟩
    · left
      omega
    rcases second with second | ⟨same', second⟩
    · left
      omega
    · exact .inr ⟨same.trans same', Std.TransCmp.lt_trans first second⟩
  trichotomous a b notBelow notAbove := by
    rw [lt_iff] at *
    have tenants : a.tenantId = b.tenantId := by omega
    have names : a.udfName = b.udfName := by
      have swap := compare_bytes_swap a.udfName b.udfName
      rw [← compare_bytes_eq]
      cases order : compare a.udfName b.udfName with
      | lt => exact absurd (.inr ⟨tenants, order⟩) notBelow
      | eq => rfl
      | gt =>
        rw [order, eq_comm, Ordering.swap_eq_gt] at swap
        exact absurd (.inr ⟨tenants.symm, swap⟩) notAbove
    cases a
    cases b
    simp_all

end TenantPythonUdfId

/-- A schema that may be added, with no zero byte in its name. -/
structure SimplePythonUdfSchema.Plain (schema : SimplePythonUdfSchema) : Prop where
  valid : schema.isValid = true
  name : 0 ∉ schema.udfName

namespace SimplePythonUdfSchema.Plain

variable {schema schema' : SimplePythonUdfSchema}

variable (plain : schema.Plain)
include plain

theorem getUdfName : schema.getUdfName = schema.udfName := cString_eq_self plain.name

theorem hashWrapper : schema.hashWrapper = ⟨schema.tenantId, schema.udfName⟩ := by
  rw [SimplePythonUdfSchema.hashWrapper, plain.getUdfName]

theorem id_isValid : schema.getTenantPythonUdfId.isValid = true := by
  have valid := plain.valid
  simp only [isValid, decide_eq_true_eq, not_or] at valid
  rw [List.isEmpty_iff] at valid
  simpa [TenantPythonUdfId.isValid, getTenantPythonUdfId] using ⟨valid.1, valid.2.2⟩

theorem hashWrapper_eq_iff (plain' : schema'.Plain) : schema.hashWrapper = schema'.hashWrapper ↔
      schema.getTenantPythonUdfId = schema'.getTenantPythonUdfId := by
  simp [plain.hashWrapper, plain'.hashWrapper, getTenantPythonUdfId]

end SimplePythonUdfSchema.Plain

abbrev Contents := TenantPythonUdfId → Option SimplePythonUdfSchema

namespace PythonUDFMgr

open SortedVector (Sorted)

variable {hash : PythonUDFHashWrapper → Nat} {mgr : PythonUDFMgr} {contents : Contents}

structure Indexed (hash : PythonUDFHashWrapper → Nat) (mgr : PythonUDFMgr) : Prop where
  inited : mgr.isInited = true
  sorted : Sorted (fun a b => TenantPythonUdfId.lt a b = true) SchemaObject.id mgr.udfInfos
  plain : ∀ udf ∈ mgr.udfInfos, udf.schema.Plain
  valid : mgr.udfMap.Valid (udfTraits hash)
  roomy : PointerHashMap.Roomy mgr.udfMap.subMapMemSize
  stored : ∀ udf, udf ∈ mgr.udfMap.entries ↔ udf ∈ mgr.udfInfos

namespace Indexed

variable (indexed : Indexed hash mgr)
include indexed

theorem checkCounts_eq : mgr.checkCounts hash = mgr := by
  have same : mgr.udfMap.entries.Perm mgr.udfInfos :=
    (perm_ext_iff_of_nodup indexed.valid.unique.of_map indexed.sorted.nodup_map.of_map).mpr indexed.stored
  rw [checkCounts, if_neg]
  rw [indexed.valid.itemCount_eq, same.length_eq]
  exact fun differ => differ rfl

theorem getRefactored_iff (key : PythonUDFHashWrapper) (udf : SchemaObject) :
    mgr.udfMap.getRefactored (udfTraits hash) key = .ok udf ↔ udf ∈ mgr.udfInfos ∧ udf.schema.hashWrapper = key := by
  rw [← indexed.stored]
  rcases indexed.valid.getRefactored_spec key with ⟨value, member, rfl, got⟩ | ⟨absent, got⟩
  · rw [got]
    constructor
    · intro same
      obtain rfl := Except.ok.inj same
      exact ⟨member, rfl⟩
    · rintro ⟨member', same⟩
      rw [indexed.valid.eq_of_key member' member same]
  · rw [got]
    constructor
    · intro same
      cases same
    · rintro ⟨member, same⟩
      exact absurd same (absent udf member)

theorem addPythonUdf (addr : Nat) {schema : SimplePythonUdfSchema} (plain : schema.Plain) :
    ∃ mgr', mgr.addPythonUdf hash addr schema = (.success, mgr') ∧ Indexed hash mgr' ∧ ∀ udf, udf ∈ mgr'.udfInfos ↔
        udf = ⟨addr, schema⟩ ∨ (udf ∈ mgr.udfInfos ∧ udf.id ≠ schema.getTenantPythonUdfId) := by
  let newUdf : SchemaObject := ⟨addr, schema⟩
  obtain ⟨sorted, members⟩ := SortedVector.replace_spec indexed.sorted comparePythonUdf
    equalPythonUdf newUdf (fun udf => Iff.rfl) (fun udf => by simp [equalPythonUdf])
  obtain ⟨old, udfMap, set, valid, roomy, entries⟩ := indexed.valid.overwrite indexed.roomy newUdf
  let mgr' : PythonUDFMgr := ⟨true,
    (SortedVector.replace comparePythonUdf equalPythonUdf mgr.udfInfos newUdf).1, udfMap⟩
  have indexed' : Indexed hash mgr' := by
    refine ⟨rfl, sorted, fun udf member => ?_, valid, roomy, fun udf => ?_⟩
    · rcases (members udf).mp member with rfl | ⟨member, -⟩
      · exact plain
      · exact indexed.plain udf member
    · rw [entries, members, indexed.stored]
      refine or_congr_right (and_congr_right fun member => not_congr ?_)
      exact (indexed.plain udf member).hashWrapper_eq_iff plain
  refine ⟨mgr', ?_, indexed', members⟩
  change mgr.udfMap.setRefactored (udfTraits hash) schema.hashWrapper newUdf true = _ at set
  rw [PythonUDFMgr.addPythonUdf, indexed.inited, plain.valid]
  change (Ret.ofHash (mgr.udfMap.setRefactored (udfTraits hash) schema.hashWrapper newUdf true).ret, _) = _
  rw [set]
  exact congrArg (Prod.mk Ret.success) indexed'.checkCounts_eq

/-- A deletion removes the one object of that id from both indexes, or fails and changes nothing. -/
theorem delPythonUdf (id : TenantPythonUdfId) :
    (∃ mgr', mgr.delPythonUdf hash id = (.success, mgr') ∧ Indexed hash mgr' ∧ (∃ udf ∈ mgr.udfInfos, udf.id = id) ∧
      ∀ udf, udf ∈ mgr'.udfInfos ↔ udf ∈ mgr.udfInfos ∧ udf.id ≠ id) ∨
    (∃ ret, ret ≠ .success ∧ mgr.delPythonUdf hash id = (ret, mgr) ∧ ∀ udf ∈ mgr.udfInfos, udf.id ≠ id) := by
  rw [PythonUDFMgr.delPythonUdf, indexed.checkCounts_eq]
  cases accepted : id.isValid with
  | false =>
    refine .inr ⟨.invalidArgument, by decide, rfl, ?_⟩
    rintro udf member rfl
    have := (indexed.plain udf member).id_isValid
    rw [accepted] at this
    cases this
  | true =>
    rcases SortedVector.removeIf_spec indexed.sorted compareWithTenantPythonUdfId
      equalToTenantPythonUdfId id id (fun udf => Iff.rfl) (fun udf => by simp [equalToTenantPythonUdfId]) with
      ⟨udf, udfInfos, member, rfl, removed, sorted, members⟩ | ⟨absent, removed⟩
    · rw [removed]
      rcases indexed.valid.eraseRefactored_spec udf.schema.hashWrapper with
        ⟨old, udfMap, same, erased, valid, moved, size⟩ | ⟨absent, -⟩
      · have entries := indexed.valid.mem_erased moved
        let mgr' : PythonUDFMgr := ⟨mgr.isInited, udfInfos, udfMap⟩
        have indexed' : Indexed hash mgr' := by
          refine ⟨indexed.inited, sorted, fun other member => ?_, valid, size ▸ indexed.roomy, fun other => ?_⟩
          · exact indexed.plain other ((members other).mp member).1
          · rw [entries, members, indexed.stored, same]
            refine and_congr_right fun member' => not_congr ?_
            exact (indexed.plain other member').hashWrapper_eq_iff (indexed.plain udf member)
        refine .inl ⟨mgr', ?_, indexed', ⟨udf, member, rfl⟩, members⟩
        change (if (mgr.udfMap.eraseRefactored (udfTraits hash) udf.schema.hashWrapper).ret = .success
          then Ret.success else Ret.errUnexpected, _) = _
        rw [erased]
        exact congrArg (Prod.mk Ret.success) indexed'.checkCounts_eq
      · exact absurd rfl (absent udf ((indexed.stored udf).mpr member))
    · rw [removed]
      exact .inr ⟨.entryNotExist, by decide, rfl, absent⟩

theorem reset : Indexed hash mgr.reset ∧ mgr.reset.udfInfos = [] := by
  obtain ⟨valid, empty, size⟩ := indexed.valid.clear
  rw [PythonUDFMgr.reset, if_pos indexed.inited]
  refine ⟨⟨indexed.inited, .nil, by simp, valid, size ▸ indexed.roomy, fun udf => ?_⟩, rfl⟩
  rw [empty]

end Indexed

structure Agrees (hash : PythonUDFHashWrapper → Nat) (mgr : PythonUDFMgr) (contents : Contents) :
    Prop extends Indexed hash mgr where
  contents : ∀ id schema, contents id = some schema ↔
    ∃ udf ∈ mgr.udfInfos, udf.schema = schema ∧ udf.id = id

namespace Agrees

variable (agrees : Agrees hash mgr contents)
include agrees

theorem lookup {udf : SchemaObject} (member : udf ∈ mgr.udfInfos) : contents udf.id = some udf.schema :=
  (agrees.contents _ _).mpr ⟨udf, member, rfl, rfl⟩

theorem eq_none {id : TenantPythonUdfId} (absent : ∀ udf ∈ mgr.udfInfos, udf.id ≠ id) : contents id = none := by
  cases found : contents id with
  | none => rfl
  | some schema =>
    obtain ⟨udf, member, -, same⟩ := (agrees.contents id schema).mp found
    exact absurd same (absent udf member)

theorem addPythonUdf (addr : Nat) {schema : SimplePythonUdfSchema} (plain : schema.Plain) :
    ∃ mgr', mgr.addPythonUdf hash addr schema = (.success, mgr') ∧
      Agrees hash mgr' (update contents schema.getTenantPythonUdfId (some schema)) := by
  obtain ⟨mgr', added, indexed, members⟩ := agrees.toIndexed.addPythonUdf addr plain
  refine ⟨mgr', added, indexed, fun id schema' => ?_⟩
  rcases eq_or_ne id schema.getTenantPythonUdfId with rfl | different
  · rw [update_self, Option.some_inj]
    constructor
    · rintro rfl
      exact ⟨⟨addr, schema⟩, (members _).mpr (.inl rfl), rfl, rfl⟩
    grind
  · rw [update_of_ne different, agrees.contents]
    grind

theorem delPythonUdf (id : TenantPythonUdfId) : Agrees hash (mgr.delPythonUdf hash id).2 (update contents id none) ∧
      ((mgr.delPythonUdf hash id).1 = .success ↔ contents id ≠ none) ∧
      ((mgr.delPythonUdf hash id).1 ≠ .success → (mgr.delPythonUdf hash id).2 = mgr) := by
  rcases agrees.toIndexed.delPythonUdf id with
    ⟨mgr', deleted, indexed, ⟨udf, member, rfl⟩, members⟩ | ⟨ret, failed, deleted, absent⟩
  · rw [deleted, agrees.lookup member]
    refine ⟨⟨indexed, fun id schema => ?_⟩, by simp, by simp⟩
    rcases eq_or_ne id udf.id with rfl | different
    · grind
    · rw [update_of_ne different, agrees.contents]
      grind
  · have none := agrees.eq_none absent
    rw [deleted, none, update_eq_self_iff.mpr none.symm]
    exact ⟨agrees, by simp [failed], fun _ => rfl⟩

theorem delLoop {tenantId : Nat} {udfs : List SchemaObject}
    (plain : ∀ udf ∈ udfs, udf.schema.Plain) (tenant : ∀ udf ∈ udfs, udf.schema.tenantId = tenantId)
    (distinct : (udfs.map SchemaObject.id).Nodup) (present : ∀ udf ∈ udfs, contents udf.id ≠ none) :
    ∃ mgr', delLoop hash tenantId udfs mgr = (.success, mgr') ∧
      Agrees hash mgr' fun id => if id ∈ udfs.map SchemaObject.id then none else contents id := by
  induction udfs generalizing mgr contents with
  | nil => exact ⟨mgr, rfl, by simpa using agrees⟩
  | cons udf udfs ih =>
    rw [forall_mem_cons] at plain tenant present
    rw [map_cons, nodup_cons] at distinct
    obtain ⟨next, success, -⟩ := agrees.delPythonUdf udf.id
    obtain ⟨mgr', looped, final⟩ := ih next plain.2 tenant.2 distinct.2 fun other member => by
      grind
    have named : (⟨tenantId, udf.schema.getUdfName⟩ : TenantPythonUdfId) = udf.id := by
      rw [plain.1.getUdfName, ← tenant.1]
      rfl
    have step : mgr.delPythonUdf hash udf.id = (.success, (mgr.delPythonUdf hash udf.id).2) :=
      Prod.ext (success.mpr present.1) rfl
    refine ⟨mgr', ?_, ?_⟩
    · rwa [PythonUDFMgr.delLoop, named, step]
    grind

theorem delSchemasInTenant (tenantId : Nat) : Agrees hash (mgr.delSchemasInTenant hash tenantId).2
      fun id => if id.tenantId = tenantId then none else contents id := by
  have inTenant : ∀ id, contents id ≠ none → (id.tenantId = tenantId ↔
      id ∈ (mgr.getPythonUdfSchemasInTenant tenantId).map SchemaObject.id) := by
    intro id present
    obtain ⟨schema, found⟩ := Option.ne_none_iff_exists'.mp present
    obtain ⟨udf, member, -, rfl⟩ := (agrees.contents id schema).mp found
    rw [getPythonUdfSchemasInTenant, mem_map]
    constructor
    · intro tenant
      exact ⟨udf, mem_filter.mpr ⟨member, decide_eq_true tenant⟩, rfl⟩
    · rintro ⟨other, filtered, same⟩
      rw [← same]
      exact of_decide_eq_true (mem_filter.mp filtered).2
  rw [PythonUDFMgr.delSchemasInTenant]
  split
  next invalid =>
    convert agrees using 2 with id
    split
    next tenant =>
      refine (agrees.eq_none fun udf member same => ?_).symm
      have valid : udf.id.isValid = true := (agrees.plain udf member).id_isValid
      rw [same, TenantPythonUdfId.isValid, tenant, invalid] at valid
      simp at valid
    next => rfl
  next =>
    have members : ∀ udf ∈ mgr.getPythonUdfSchemasInTenant tenantId,
        udf ∈ mgr.udfInfos ∧ udf.schema.tenantId = tenantId := fun udf member =>
      ⟨(mem_filter.mp member).1, of_decide_eq_true (mem_filter.mp member).2⟩
    have distinct : ((mgr.getPythonUdfSchemasInTenant tenantId).map SchemaObject.id).Nodup :=
      agrees.sorted.nodup_map.sublist (filter_sublist.map _)
    obtain ⟨mgr', looped, final⟩ := agrees.delLoop (fun udf member => agrees.plain udf (members udf member).1)
      (fun udf member => (members udf member).2) distinct
      (fun udf member => by simp [agrees.lookup (members udf member).1])
    grind

end Agrees

end PythonUDFMgr

end IMBridge.Schema
