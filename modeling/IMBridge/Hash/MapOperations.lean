import IMBridge.Hash.MapInvariant

/-!
Setting a key adds its pointer or replaces the one stored under the key, erasing takes it out, and
nothing else changes.
-/

namespace IMBridge.Hash

open IMBridge.Lib List
open IMBridge.Lib.LinearProbing

namespace PointerHashArray

variable {K V : Type} {traits : Traits K V}

theorem Step.trans {a a' a'' : PointerHashArray V} (first : Step traits a a')
    (second : Step traits a' a'') : Step traits a a'' where
  valid := second.valid
  capacity := second.capacity.trans first.capacity
  maxEntries := second.maxEntries.trans first.maxEntries
  count := first.count.trans second.count

variable [DecidableEq K]

/-- Pointers with new keys are all inserted as long as there is room for them. -/
theorem Valid.insertAll {a : PointerHashArray V} (valid : a.Valid traits) {values : List V}
    (unique : ((values ++ a.entries).map traits.getKey).Nodup) (clean : a.count = a.itemCount)
    (room : a.itemCount + values.length ≤ a.maxEntries) :
    ∃ a', values.foldl (fun subMap value =>
        (subMap.setRefactored traits (traits.getKey value) (.live value) false).array) a = a' ∧
      Step traits a a' ∧ a'.entries.Perm (values ++ a.entries) ∧ a'.count = a'.itemCount := by
  induction values generalizing a with
  | nil => exact ⟨a, rfl, ⟨valid, rfl, rfl, Nat.le_refl _⟩, .refl _, clean⟩
  | cons value values ih =>
    rw [length_cons] at room
    rw [cons_append, map_cons, nodup_cons] at unique
    have absent : ∀ other ∈ a.entries, traits.getKey other ≠ traits.getKey value := by
      grind
    rcases valid.setRefactored_absent false absent with ⟨full, -⟩ | ⟨-, a₁, set, step, moved, waste⟩
    · have : a.maxEntries ≤ a.count := full
      omega
    have items : a₁.itemCount = a.itemCount + 1 := by
      rw [step.valid.itemCount, moved.length_eq, valid.itemCount]
      rfl
    have within := step.valid.itemCount_le
    have order : (values ++ a₁.entries).Perm (value :: (values ++ a.entries)) :=
      (moved.append_left values).trans perm_middle
    obtain ⟨a', folded, rest, all, still⟩ := ih step.valid (by
        rw [(order.map traits.getKey).nodup_iff, map_cons, nodup_cons]
        exact unique)
      (by omega) (by rw [step.maxEntries]; omega)
    refine ⟨a', ?_, step.trans rest, all.trans order, still⟩
    rwa [foldl_cons, set]

end PointerHashArray

namespace PointerHashMap

variable {K V : Type} {traits : Traits K V} {map : PointerHashMap V}

variable {memSize : Nat} {a : PointerHashArray V} {value : V}

theorem valid_single (large : 72 ≤ memSize) (valid : a.Valid traits) (sized : a.maxEntries = limit memSize)
    (unique : (a.entries.map traits.getKey).Nodup) : Valid traits (⟨[a], memSize⟩ : PointerHashMap V) where
  nonempty := cons_ne_nil _ _
  few := show 1 ≤ 4 by decide
  large := large
  each := forall_mem_singleton.mpr valid
  sized := forall_mem_singleton.mpr sized
  full := by simp
  blocks := by simp
  unique := by simpa [entries] using unique

theorem entries_split {before after : List (PointerHashArray V)} (split : map.subMaps = before ++ a :: after) :
    map.entries.Perm (a.entries ++ (before ++ after).flatMap PointerHashArray.entries) := by
  rw [entries, split, flatMap_append, flatMap_cons, flatMap_append]
  exact perm_append_comm_assoc _ _ _

theorem Valid.onSubMap_spec (valid : map.Valid traits) (removed added : List V)
    (operation : PointerHashArray V → PointerHashArray.SetResult V) {i : Nat}
    {a' : PointerHashArray V} {old : Option V} (subMap : map.subMaps[i]? = some a)
    (result : operation a = ⟨.success, old, a'⟩) (step : PointerHashArray.Step traits a a')
    (moved : (removed ++ a'.entries).Perm (added ++ a.entries))
    (unique : ∀ entries : List V, (removed ++ entries).Perm (added ++ map.entries) → (entries.map traits.getKey).Nodup) :
    ∃ map', map.onSubMap i operation = ⟨.success, old, map'⟩ ∧ map'.Valid traits ∧
      (removed ++ map'.entries).Perm (added ++ map.entries) ∧
      map'.subMapMemSize = map.subMapMemSize := by
  obtain ⟨inside, rfl⟩ := List.getElem?_eq_some_iff.mp subMap
  have split : map.subMaps = map.subMaps.take i ++ map.subMaps[i] :: map.subMaps.drop (i + 1) :=
    (take_append_drop i map.subMaps).symm.trans (by rw [drop_eq_getElem_cons inside])
  have set : map.subMaps.set i a' = map.subMaps.take i ++ a' :: map.subMaps.drop (i + 1) :=
    set_eq_take_append_cons_drop.trans (if_pos inside)
  generalize map.subMaps.take i = before at split set
  generalize map.subMaps.drop (i + 1) = after at split set
  let map' : PointerHashMap V := { map with subMaps := before ++ a' :: after }
  have perm : (removed ++ map'.entries).Perm (added ++ map.entries) := by
    have new := (entries_split (show map'.subMaps = before ++ a' :: after from rfl)).append_left removed
    have old := (entries_split split).append_left added
    refine new.trans (.trans ?_ old.symm)
    rw [← append_assoc, ← append_assoc]
    exact moved.append_right _
  refine ⟨map', ?_, valid.replace split step (unique map'.entries perm), perm, rfl⟩
  rw [onSubMap, subMap]
  simp only [result, set]
  rfl

inductive Sets (traits : Traits K V) (map : PointerHashMap V) (value : V) :
    Bool → SetResult V → Prop
  | exist {old : V} (stored : old ∈ map.entries) (same : traits.getKey old = traits.getKey value) :
      Sets traits map value false ⟨.hashExist, none, map⟩
  | replace {old : V} {map' : PointerHashMap V} (stored : old ∈ map.entries)
      (same : traits.getKey old = traits.getKey value) (valid : map'.Valid traits)
      (moved : (old :: map'.entries).Perm (value :: map.entries))
      (size : map'.subMapMemSize = map.subMapMemSize) :
      Sets traits map value true ⟨.success, some old, map'⟩
  | insert {overwrite : Bool} {map' : PointerHashMap V} (absent : Absent traits value map.subMaps)
      (valid : map'.Valid traits) (moved : map'.entries.Perm (value :: map.entries))
      (roomy : Roomy map.subMapMemSize → Roomy map'.subMapMemSize) :
      Sets traits map value overwrite ⟨.success, none, map'⟩
  | full {overwrite : Bool} {map' : PointerHashMap V} (absent : Absent traits value map.subMaps)
      (valid : map'.Valid traits) (moved : map'.entries.Perm map.entries)
      (tight : ¬ Roomy map.subMapMemSize) :
      Sets traits map value overwrite ⟨.hashFull, none, map'⟩

theorem mem_entries_of_subMap {i p : Nat} (subMap : map.subMaps[i]? = some a) (inside : p < a.capacity)
    (live : a.cells p = .live value) : value ∈ map.entries :=
  mem_flatMap.mpr ⟨a, mem_of_getElem? subMap, LinearProbing.mem_entries.mpr ⟨p, inside, live⟩⟩

theorem Absent.entries (absent : Absent traits value map.subMaps) :
    ∀ other ∈ map.entries, traits.getKey other ≠ traits.getKey value := by
  intro other member
  obtain ⟨a, subMap, inside⟩ := mem_flatMap.mp member
  exact absent a subMap other inside

theorem Valid.nodup_insert (valid : map.Valid traits) (absent : Absent traits value map.subMaps) {entries : List V}
    (moved : entries.Perm (value :: map.entries)) : (entries.map traits.getKey).Nodup := by
  rw [(moved.map traits.getKey).nodup_iff, map_cons, nodup_cons]
  refine ⟨fun member => ?_, valid.unique⟩
  obtain ⟨other, stored, same⟩ := mem_map.mp member
  exact absent.entries other stored same

theorem Valid.nodup_replace (valid : map.Valid traits) {old : V} (same : traits.getKey old = traits.getKey value)
    {entries : List V} (moved : (old :: entries).Perm (value :: map.entries)) : (entries.map traits.getKey).Nodup := by
  have keys := moved.map traits.getKey
  rw [map_cons, map_cons, same] at keys
  exact (keys.cons_inv.nodup_iff).mpr valid.unique

theorem entries_addSubMap (map : PointerHashMap V) : map.addSubMap.entries = map.entries := by
  rw [addSubMap, PointerHashMap.entries, flatMap_append, flatMap_singleton,
    PointerHashArray.entries_of_empty fun _ => rfl, append_nil]
  rfl

theorem Valid.addSubMap (valid : map.Valid traits) (filled : ∀ a ∈ map.subMaps, a.isFull)
    (few : map.subMaps.length < maxSubMapCount)
    (block : map.subMapMemSize = normalBlockSize ∨ map.subMapMemSize = bigBlockSize) :
    map.addSubMap.Valid traits where
  nonempty := by simp [PointerHashMap.addSubMap]
  few := by
    rwa [PointerHashMap.addSubMap, length_append]
  large := valid.large
  each := forall_mem_append.2 ⟨valid.each, forall_mem_singleton.2 (PointerHashArray.valid_create valid.large)⟩
  sized := forall_mem_append.2 ⟨valid.sized, forall_mem_singleton.2 rfl⟩
  full := by
    rwa [PointerHashMap.addSubMap, dropLast_concat]
  blocks := fun _ => block
  unique := by
    rw [entries_addSubMap]
    exact valid.unique

variable [DecidableEq K]

section

variable (valid : map.Valid traits)
include valid

theorem Valid.copyFrom_spec (large : 72 ≤ memSize) (fits : map.entries.length ≤ limit memSize) :
    ∃ a, map.copyFrom traits memSize = ⟨[a], memSize⟩ ∧ a.Valid traits ∧
      a.maxEntries = limit memSize ∧ a.entries.Perm map.entries ∧ a.count = map.entries.length := by
  have empty : (PointerHashArray.create V memSize).entries = [] := PointerHashArray.entries_of_empty fun _ => rfl
  have created : (PointerHashArray.create V memSize).Valid traits := PointerHashArray.valid_create large
  obtain ⟨a, folded, step, moved, clean⟩ := created.insertAll (by rw [empty, append_nil]; exact valid.unique) rfl
      (show 0 + map.entries.length ≤ limit memSize by rwa [Nat.zero_add])
  rw [empty, append_nil] at moved
  refine ⟨a, by rw [copyFrom, folded], step.valid, step.maxEntries, moved, ?_⟩
  rw [clean, step.valid.itemCount, moved.length_eq]

theorem Valid.set_added (overwrite : Bool) (absent : Absent traits value map.subMaps)
    (filled : ∀ a ∈ map.subMaps, a.isFull) (few : map.subMaps.length < maxSubMapCount)
    (block : map.subMapMemSize = normalBlockSize ∨ map.subMapMemSize = bigBlockSize) :
    Sets traits map value overwrite (map.addSubMap.onSubMap map.subMaps.length fun a =>
        a.setRefactored traits (traits.getKey value) (.live value) overwrite) := by
  have same := entries_addSubMap map
  have created : (PointerHashArray.create V map.subMapMemSize).Valid traits := PointerHashArray.valid_create valid.large
  have last : map.addSubMap.subMaps[map.subMaps.length]? = some (.create V map.subMapMemSize) := by
    simp [PointerHashMap.addSubMap]
  have empty : (PointerHashArray.create V map.subMapMemSize).entries = [] :=
    PointerHashArray.entries_of_empty fun _ => rfl
  rcases created.setRefactored_absent overwrite (by simp [empty]) with
    ⟨full, -⟩ | ⟨-, a', set, step, moved, -⟩
  · have none : limit map.subMapMemSize ≤ 0 := full
    have bounds := limit_bounds map.subMapMemSize
    rw [normalBlockSize_eq, bigBlockSize_eq] at block
    omega
  obtain ⟨map', result, after, perm, size⟩ := (valid.addSubMap filled few block).onSubMap_spec [] [value]
      (fun a => a.setRefactored traits (traits.getKey value) (.live value) overwrite) last set step
      moved
      (fun entries perm => valid.nodup_insert absent (same ▸ perm))
  rw [result]
  refine .insert absent after (same ▸ perm) fun roomy => ?_
  rwa [size]

theorem Valid.set_copied (overwrite : Bool) (absent : Absent traits value map.subMaps)
    (large : 72 ≤ memSize) (fits : map.entries.length ≤ limit memSize)
    (roomy : Roomy map.subMapMemSize → map.entries.length < limit memSize ∧ Roomy memSize) :
    Sets traits map value overwrite ((map.copyFrom traits memSize).onSubMap 0 fun a =>
        a.setRefactored traits (traits.getKey value) (.live value) overwrite) := by
  obtain ⟨a, copied, created, sized, moved, counted⟩ := valid.copyFrom_spec large fits
  have unique : (a.entries.map traits.getKey).Nodup := (moved.map traits.getKey).nodup_iff.mpr valid.unique
  have single := valid_single large created sized unique
  have same : (⟨[a], memSize⟩ : PointerHashMap V).entries = a.entries := by simp [entries]
  have missing : ∀ other ∈ a.entries, traits.getKey other ≠ traits.getKey value :=
    fun other member => absent.entries other (moved.mem_iff.mp member)
  rw [copied]
  rcases created.setRefactored_absent overwrite missing with ⟨full, set⟩ | ⟨-, a', set, step, new, -⟩
  · have tight : ¬ Roomy map.subMapMemSize := by
      intro start
      have more := (roomy start).1
      have less : a.maxEntries ≤ a.count := full
      omega
    have result : (⟨[a], memSize⟩ : PointerHashMap V).onSubMap 0 (fun a =>
        a.setRefactored traits (traits.getKey value) (.live value) overwrite) =
        ⟨.hashFull, none, ⟨[a], memSize⟩⟩ := by
      simp [onSubMap, set]
    rw [result]
    exact .full absent single (same ▸ moved) tight
  · obtain ⟨map', result, after, perm, size⟩ := single.onSubMap_spec [] [value]
      (fun a => a.setRefactored traits (traits.getKey value) (.live value) overwrite)
      (i := 0) rfl set step new
      (fun entries perm => valid.nodup_insert absent (perm.trans (same ▸ moved.cons value)))
    rw [result]
    refine .insert absent after (perm.trans (same ▸ moved.cons value)) fun start => ?_
    rw [size]
    exact (roomy start).2

theorem Valid.set_resized (overwrite : Bool) (absent : Absent traits value map.subMaps)
    (filled : ∀ a ∈ map.subMaps, a.isFull) :
    Sets traits map value overwrite ((map.resize traits).1.onSubMap (map.resize traits).2 fun a =>
        a.setRefactored traits (traits.getKey value) (.live value) overwrite) := by
  rcases valid.growth_spec filled with ⟨grown, few, block⟩ | ⟨memSize, grown, large, fits, roomy⟩
  · have resized : map.resize traits = (map.addSubMap, map.subMaps.length) := by
      rw [resize, grown]
    rw [resized]
    exact valid.set_added overwrite absent filled few block
  · have resized : map.resize traits = (map.copyFrom traits memSize, 0) := by
      rw [resize, grown]
    rw [resized]
    exact valid.set_copied overwrite absent large fits roomy

theorem Valid.setRefactored_spec (value : V) (overwrite : Bool) : Sets traits map value overwrite
      (map.setRefactored traits (traits.getKey value) value overwrite) := by
  have found := valid.findSetPos_found value overwrite
  rw [setRefactored]
  generalize map.findSetPos traits (traits.getKey value) (.live value) overwrite = place at found
  cases found with
  | @stored i p a old place subMap inside live same ret here =>
    have member := mem_entries_of_subMap subMap inside live
    cases overwrite with
    | false =>
      simp only [ret, Bool.false_eq_true, if_false, reduceCtorEq]
      exact .exist member same
    | true =>
      obtain ⟨idx, pos⟩ := here rfl
      obtain ⟨a', result, step, moved⟩ := (valid.each a (mem_of_getElem? subMap)).setValue_overwrite inside live same
      obtain ⟨map', set, after, perm, size⟩ := valid.onSubMap_spec [old] [value]
        (fun a => a.setValue (some p) (.live value)) subMap result step moved
        (fun entries perm => valid.nodup_replace same perm)
      simp only [ret, if_true, idx, pos, set, reduceCtorEq, if_false]
      exact .replace member same after perm size
  | @room i p absent candidate =>
    obtain ⟨a, subMap, free, usable⟩ := candidate
    obtain ⟨a', result, step, moved, -⟩ := (valid.each a (mem_of_getElem? subMap)).setValue_insert free usable
    obtain ⟨map', set, after, perm, size⟩ := valid.onSubMap_spec [] [value]
      (fun a => a.setValue (some p) (.live value)) subMap result step moved
      (fun entries perm => valid.nodup_insert absent perm)
    simp only [if_true, set, reduceCtorEq, if_false]
    exact .insert absent after perm (fun roomy => by rw [size]; exact roomy)
  | full absent filled =>
    simp only [reduceCtorEq, if_false, if_true]
    exact valid.set_resized overwrite absent filled

end

theorem getLoop_spec (key : K) {subMaps : List (PointerHashArray V)} (each : ∀ a ∈ subMaps, a.Valid traits) :
    (∃ value ∈ subMaps.flatMap PointerHashArray.entries, traits.getKey value = key ∧
      getLoop traits key subMaps = .ok value) ∨
    ((∀ value ∈ subMaps.flatMap PointerHashArray.entries, traits.getKey value ≠ key) ∧
      getLoop traits key subMaps = .error .hashNotExist) := by
  induction subMaps with
  | nil => exact .inr ⟨by simp, rfl⟩
  | cons a rest ih =>
    rw [forall_mem_cons] at each
    rw [flatMap_cons, getLoop]
    rcases each.1.getRefactored_spec key with ⟨value, member, same, got⟩ | ⟨missing, got⟩
    · grind
    grind

theorem Valid.getRefactored_spec (valid : map.Valid traits) (key : K) :
    (∃ value ∈ map.entries, traits.getKey value = key ∧ map.getRefactored traits key = .ok value) ∨
    ((∀ value ∈ map.entries, traits.getKey value ≠ key) ∧ map.getRefactored traits key = .error .hashNotExist) :=
  getLoop_spec key valid.each

theorem eraseLoop_spec (key : K) {subMaps : List (PointerHashArray V)} (each : ∀ a ∈ subMaps, a.Valid traits) :
    (∃ before a a' after old, subMaps = before ++ a :: after ∧ traits.getKey old = key ∧
      eraseLoop traits key subMaps = (.success, some old, before ++ a' :: after) ∧
      PointerHashArray.Step traits a a' ∧ (old :: a'.entries).Perm a.entries) ∨
    ((∀ value ∈ subMaps.flatMap PointerHashArray.entries, traits.getKey value ≠ key) ∧
      eraseLoop traits key subMaps = (.hashNotExist, none, subMaps)) := by
  induction subMaps with
  | nil => exact .inr ⟨by simp, rfl⟩
  | cons a rest ih =>
    rw [forall_mem_cons] at each
    rw [flatMap_cons, eraseLoop]
    rcases each.1.eraseRefactored_spec key with ⟨old, a', same, erased, step, moved⟩ | ⟨missing, erased⟩
    · rw [erased]
      exact .inl ⟨[], a, a', rest, old, rfl, same, rfl, step, moved⟩
    rw [erased]
    grind

theorem Valid.eraseRefactored_spec (valid : map.Valid traits) (key : K) : (∃ old map', traits.getKey old = key ∧
      map.eraseRefactored traits key = ⟨.success, some old, map'⟩ ∧ map'.Valid traits ∧
      (old :: map'.entries).Perm map.entries ∧ map'.subMapMemSize = map.subMapMemSize) ∨
    ((∀ value ∈ map.entries, traits.getKey value ≠ key) ∧
      map.eraseRefactored traits key = ⟨.hashNotExist, none, map⟩) := by
  rcases eraseLoop_spec key valid.each with
    ⟨before, a, a', after, old, split, same, erased, step, moved⟩ | ⟨absent, erased⟩
  · let map' : PointerHashMap V := { map with subMaps := before ++ a' :: after }
    have perm : (old :: map'.entries).Perm map.entries := by
      have new := entries_split (show map'.subMaps = before ++ a' :: after from rfl)
      exact (new.cons old).trans ((moved.append_right _).trans (entries_split split).symm)
    have unique : (map'.entries.map traits.getKey).Nodup := by
      have all := (perm.map traits.getKey).nodup_iff.mpr valid.unique
      rw [map_cons, nodup_cons] at all
      exact all.2
    refine .inl ⟨old, map', same, ?_, valid.replace split step unique, perm, rfl⟩
    rw [eraseRefactored, erased]
  · refine .inr ⟨absent, ?_⟩
    rw [eraseRefactored, erased]

omit [DecidableEq K] in
theorem Valid.clear (valid : map.Valid traits) : map.clear.Valid traits ∧ map.clear.entries = [] ∧
      map.clear.subMapMemSize = map.subMapMemSize := by
  obtain ⟨first, rest, subMaps⟩ := exists_cons_of_ne_nil valid.nonempty
  have cleared : map.clear = ⟨[first.clear], map.subMapMemSize⟩ := by
    rw [PointerHashMap.clear, subMaps]
  have member : first ∈ map.subMaps := by simp [subMaps]
  have empty : first.clear.entries = [] := PointerHashArray.entries_of_empty fun _ => rfl
  rw [cleared]
  refine ⟨valid_single valid.large (valid.each first member).clear (valid.sized first member) ?_, ?_, rfl⟩
  · rw [empty]
    exact nodup_nil
  · rw [entries, flatMap_singleton, empty]

end PointerHashMap

end IMBridge.Hash
