import IMBridge.Schema.MgrInvariant

/-!
Several managers over any sequence of calls. `lastAdded` reads from the calls which schema each
manager should have for an id; copying a manager copies that.
-/

namespace IMBridge.Schema

open IMBridge.Hash PointerHashMap List Function

namespace PythonUDFMgr

variable {hash : PythonUDFHashWrapper → Nat} {mgr other : PythonUDFMgr}
  {contents contents' : Contents}

namespace Agrees

theorem new : Agrees hash PythonUDFMgr.new.init.2 fun _ => none where
  inited := rfl
  sorted := .nil
  plain := by simp [PythonUDFMgr.new, init]
  valid := valid_init (by decide)
  roomy := roomy_normal
  stored udf := by
    change udf ∈ (PointerHashMap.init SchemaObject normalBlockSize).entries ↔ udf ∈ []
    rw [entries_init]
  contents := by simp [PythonUDFMgr.new, init]

theorem contents_eq_find (agrees : Agrees hash mgr contents) (id : TenantPythonUdfId) :
    contents id = (mgr.udfInfos.find? fun udf => udf.id = id).map SchemaObject.schema := by
  cases found : mgr.udfInfos.find? fun udf => udf.id = id with
  | none =>
    refine agrees.eq_none fun udf member same => ?_
    grind
  | some udf =>
    have same : udf.id = id := by simpa using find?_some found
    rw [← same]
    exact agrees.lookup (mem_of_find?_eq_some found)

theorem addLoop {udfs : List SchemaObject} (agrees : Agrees hash mgr contents) (addr : Nat)
    (plain : ∀ udf ∈ udfs, udf.schema.Plain) (distinct : (udfs.map SchemaObject.id).Nodup) :
    ∃ mgr', addLoop hash addr udfs mgr = (.success, mgr') ∧ Agrees hash mgr' fun id =>
      ((udfs.find? fun udf => udf.id = id).map SchemaObject.schema).or (contents id) := by
  induction udfs generalizing mgr contents addr with
  | nil => exact ⟨mgr, rfl, agrees⟩
  | cons udf udfs ih =>
    rw [forall_mem_cons] at plain
    rw [map_cons, nodup_cons] at distinct
    obtain ⟨next, added, agrees⟩ := agrees.addPythonUdf addr plain.1
    obtain ⟨mgr', looped, final⟩ := ih agrees (addr + 1) plain.2 distinct.2
    refine ⟨mgr', ?_, ?_⟩
    · rwa [PythonUDFMgr.addLoop, added]
    grind

variable (agrees : Agrees hash mgr contents)
include agrees

theorem deepCopy (source : Agrees hash other contents')
    (addr : Nat) : Agrees hash (mgr.deepCopy hash other addr).2 contents' := by
  obtain ⟨indexed, empty⟩ := agrees.toIndexed.reset
  have cleared : Agrees hash mgr.reset fun _ => none := ⟨indexed, by simp [empty]⟩
  obtain ⟨mgr', looped, final⟩ := cleared.addLoop addr source.plain source.sorted.nodup_map
  rw [PythonUDFMgr.deepCopy, agrees.inited]
  change Agrees hash (PythonUDFMgr.addLoop hash addr other.udfInfos mgr.reset).2 contents'
  rw [looped]
  convert final using 2 with id
  rw [source.contents_eq_find id, Option.or_none]

theorem assign (source : Agrees hash other contents') : Agrees hash (mgr.assign other).2 contents' := by
  rw [PythonUDFMgr.assign, agrees.inited]
  exact ⟨⟨rfl, source.sorted, source.plain, source.valid, source.roomy, source.stored⟩, source.contents⟩

theorem getPythonUdfSchemaWithName {tenantId : Nat}
    {name : ObString} (known : tenantId ≠ invalidId) (named : name ≠ []) :
    ∃ found, mgr.getPythonUdfSchemaWithName hash tenantId name = (.success, found) ∧
      found.map SchemaObject.schema = contents ⟨tenantId, name⟩ := by
  have accepted : ¬ (tenantId = invalidId ∨ name.isEmpty = true) := by
    simpa [known] using named
  have found := agrees.getRefactored_iff ⟨tenantId, name⟩
  rw [PythonUDFMgr.getPythonUdfSchemaWithName, agrees.inited]
  simp only [if_neg accepted]
  rcases agrees.valid.getRefactored_spec ⟨tenantId, name⟩ with ⟨udf, -, -, got⟩ | ⟨absent, got⟩
  · rw [got]
    obtain ⟨member, same⟩ := (found udf).mp got
    have plain := agrees.plain udf member
    have id : udf.id = ⟨tenantId, name⟩ := by
      rw [plain.hashWrapper, PythonUDFHashWrapper.mk.injEq] at same
      rw [← same.1, ← same.2]
      rfl
    exact ⟨some udf, rfl, (id ▸ agrees.lookup member).symm⟩
  · rw [got]
    refine ⟨none, rfl, (agrees.eq_none fun udf member id => ?_).symm⟩
    refine absent udf ((agrees.stored udf).mpr member) ?_
    change udf.schema.hashWrapper = _
    rw [(agrees.plain udf member).hashWrapper]
    exact congrArg (fun id => (⟨id.tenantId, id.udfName⟩ : PythonUDFHashWrapper)) id

end Agrees

end PythonUDFMgr

def Call.Admissible : Call → Prop
  | .addPythonUdf _ schema => schema.Plain
  | _ => True

def Call.after (contents : Nat → Contents) : Call → Nat → Contents
  | .addPythonUdf i schema => update contents i
      (update (contents i) schema.getTenantPythonUdfId (some schema))
  | .delPythonUdf i id => update contents i (update (contents i) id none)
  | .delSchemasInTenant i tenantId => update contents i
      fun id => if id.tenantId = tenantId then none else contents i id
  | .assign i j => update contents i (contents j)
  | .deepCopy i j => update contents i (contents j)

/-- The schema last added to a manager for an id and not deleted since. -/
def lastAdded (calls : List Call) : Nat → Contents := calls.foldl Call.after fun _ _ => none

namespace System

variable {hash : PythonUDFHashWrapper → Nat} {sys : System} {contents : Nat → Contents}

def run (hash : PythonUDFHashWrapper → Nat) (sys : System) (calls : List Call) : System :=
  calls.foldl (call hash) sys

def Agree (hash : PythonUDFHashWrapper → Nat) (sys : System) (contents : Nat → Contents) : Prop :=
  ∀ i, (sys.mgrs i).Agrees hash (contents i)

section

variable (agree : Agree hash sys contents)
include agree

theorem Agree.put {i : Nat} (used : Nat) {mgr : PythonUDFMgr} {new : Contents} (agrees : mgr.Agrees hash new) :
    Agree hash (sys.put i used mgr) (update contents i new) := by
  intro k
  change (update sys.mgrs i mgr k).Agrees hash (update contents i new k)
  rcases eq_or_ne k i with rfl | different
  · rwa [update_self, update_self]
  · rw [update_of_ne different, update_of_ne different]
    exact agree k

theorem Agree.call {op : Call} (admissible : op.Admissible) : Agree hash (sys.call hash op) (op.after contents) := by
  cases op with
  | addPythonUdf i schema =>
    obtain ⟨mgr, added, agrees⟩ := (agree i).addPythonUdf sys.nextAddr admissible
    refine agree.put 1 ?_
    rwa [added]
  | delPythonUdf i id => exact agree.put 0 ((agree i).delPythonUdf id).1
  | delSchemasInTenant i tenantId => exact agree.put 0 ((agree i).delSchemasInTenant tenantId)
  | assign i j =>
    rw [System.call, Call.after]
    split
    next same =>
      rwa [same, update_eq_self]
    next => exact agree.put 0 ((agree i).assign (agree j))
  | deepCopy i j =>
    rw [System.call, Call.after]
    split
    next same =>
      rwa [same, update_eq_self]
    next => exact agree.put _ ((agree i).deepCopy (agree j) sys.nextAddr)

theorem Agree.run {calls : List Call} (admissible : ∀ op ∈ calls, op.Admissible) :
    Agree hash (sys.run hash calls) (calls.foldl Call.after contents) := by
  induction calls generalizing sys contents with
  | nil => exact agree
  | cons op calls ih =>
    rw [forall_mem_cons] at admissible
    exact ih (agree.call admissible.1) admissible.2

end

/-- After any calls and with any hash function, every manager has its objects sorted strictly by
tenant and name, its map has the same objects under their keys and nothing else, a lookup by name
finds the schema last added and not deleted since, and a deletion that fails changes nothing. -/
theorem indexes_agree (hash : PythonUDFHashWrapper → Nat) (calls : List Call)
    (admissible : ∀ op ∈ calls, op.Admissible) (i : Nat) :
    ∃ mgr, (start.run hash calls).mgrs i = mgr ∧
      (mgr.udfInfos.Pairwise fun first second => first.id.lt second.id) ∧
      (∀ key udf, mgr.udfMap.getRefactored (udfTraits hash) key = .ok udf ↔
        udf ∈ mgr.udfInfos ∧ udf.schema.hashWrapper = key) ∧
      (∀ tenantId name, tenantId ≠ invalidId → name ≠ [] →
        ∃ found, mgr.getPythonUdfSchemaWithName hash tenantId name = (.success, found) ∧
          found.map SchemaObject.schema = lastAdded calls i ⟨tenantId, name⟩) ∧
      ∀ id, (mgr.delPythonUdf hash id).1 ≠ .success → (mgr.delPythonUdf hash id).2 = mgr := by
  have agree : Agree hash start fun _ _ => none := fun _ => .new
  have agrees := agree.run admissible i
  exact ⟨_, rfl, agrees.sorted, agrees.getRefactored_iff,
    fun _ _ known named => agrees.getPythonUdfSchemaWithName known named,
    fun id => (agrees.delPythonUdf id).2.2⟩

def sampleSchema : SimplePythonUdfSchema where
  tenantId := 1
  udfId := 500001
  udfName := [102]
  argNum := 1
  argNames := [120]
  argTypes := [50]
  ret := .integer
  pycall := []
  schemaVersion := 1

/-- The UDF is found in a copy of the manager that it was deleted from afterwards. -/
theorem indexes_agree_copied : ∃ mgr found,
      (start.run (fun _ => 0) [.addPythonUdf 0 sampleSchema, .deepCopy 1 0,
        .delSchemasInTenant 0 1]).mgrs 1 = mgr ∧
      mgr.getPythonUdfSchemaWithName (fun _ => 0) 1 [102] = (.success, found) ∧
      found.map SchemaObject.schema = some sampleSchema := by
  obtain ⟨mgr, ran, -, -, lookup, -⟩ := indexes_agree (fun _ => 0)
    [.addPythonUdf 0 sampleSchema, .deepCopy 1 0, .delSchemasInTenant 0 1] (forall_mem_cons.2
      ⟨⟨by decide, by decide⟩, forall_mem_cons.2 ⟨trivial, forall_mem_singleton.2 trivial⟩⟩) 1
  obtain ⟨found, got, same⟩ := lookup 1 [102] (by decide) (by decide)
  exact ⟨mgr, found, ran, got, same.trans rfl⟩

end System

end IMBridge.Schema
