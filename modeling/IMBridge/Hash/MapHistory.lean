import IMBridge.Hash.MapOperations
import Mathlib.Data.Set.Card

/-!
`ObPointerHashMap` as a finite map. A history lists the calls and their answers, the latest first;
`latest` reads from it what was set last for a key and not erased since.
-/

namespace IMBridge.Hash

open IMBridge.Lib List
open IMBridge.Lib.LinearProbing

namespace PointerHashMap

inductive Op (K V : Type) where
  | set (value : V) (overwrite : Bool)
  | erase (key : K)
  | get (key : K)
  | clear

structure Answer (V : Type) where
  ret : Code
  value : Option V
deriving DecidableEq

variable {K V : Type} [DecidableEq K]

def call (traits : Traits K V) (map : PointerHashMap V) : Op K V → Answer V × PointerHashMap V
  | .set value overwrite =>
    let result := map.setRefactored traits (traits.getKey value) value overwrite
    (⟨result.ret, result.overWriteValue⟩, result.map)
  | .erase key =>
    let result := map.eraseRefactored traits key
    (⟨result.ret, result.overWriteValue⟩, result.map)
  | .get key =>
    match map.getRefactored traits key with
    | .ok value => (⟨.success, some value⟩, map)
    | .error ret => (⟨ret, none⟩, map)
  | .clear => (⟨.success, none⟩, map.clear)

abbrev History (K V : Type) := List (Op K V × Answer V)

def calls (traits : Traits K V) : PointerHashMap V → History K V → List (Op K V) →
    PointerHashMap V × History K V
  | map, history, [] => (map, history)
  | map, history, op :: ops =>
    calls traits (map.call traits op).2 ((op, (map.call traits op).1) :: history) ops

section

variable (traits : Traits K V)

theorem calls_ops (map : PointerHashMap V) (history : History K V) (ops : List (Op K V)) :
    (calls traits map history ops).2.map Prod.fst = ops.reverse ++ history.map Prod.fst := by
  induction ops generalizing map history with
  | nil => rfl
  | cons op ops ih =>
    rw [calls, ih, reverse_cons, append_assoc]
    rfl

def after (contents : K → Option V) : Op K V × Answer V → K → Option V
  | (.set value _, ⟨.success, _⟩) => Function.update contents (traits.getKey value) (some value)
  | (.erase key, ⟨.success, _⟩) => Function.update contents key none
  | (.clear, _) => fun _ => none
  | _ => contents

/-- The pointer set most recently for a key and not erased since. -/
def latest (history : History K V) : K → Option V :=
  history.foldr (fun entry contents => after traits contents entry) fun _ => none

/-- The answers of a finite map. Only in a map that need not be roomy may a new key be refused. -/
def Answers (roomy : Prop) (contents : K → Option V) :
    Op K V → Answer V → Prop
  | .set value overwrite, answer =>
    match contents (traits.getKey value), overwrite with
    | some _, false => answer = ⟨.hashExist, none⟩
    | some old, true => answer = ⟨.success, some old⟩
    | none, _ => answer = ⟨.success, none⟩ ∨ (answer = ⟨.hashFull, none⟩ ∧ ¬ roomy)
  | .erase key, answer =>
    match contents key with
    | some old => answer = ⟨.success, some old⟩
    | none => answer = ⟨.hashNotExist, none⟩
  | .get key, answer =>
    match contents key with
    | some value => answer = ⟨.success, some value⟩
    | none => answer = ⟨.hashNotExist, none⟩
  | .clear, answer => answer = ⟨.success, none⟩

end

variable {traits : Traits K V} {map map' : PointerHashMap V} {roomy : Prop}

omit [DecidableEq K] in
theorem Valid.eq_of_key (valid : map.Valid traits) {first second : V} (here : first ∈ map.entries)
    (there : second ∈ map.entries) (same : traits.getKey first = traits.getKey second) : first = second :=
  inj_on_of_nodup_map valid.unique here there same

omit [DecidableEq K] in
theorem Valid.mem_replaced {old value : V} (valid : map'.Valid traits) (stored : old ∈ map.entries)
    (same : traits.getKey old = traits.getKey value) (moved : (old :: map'.entries).Perm (value :: map.entries))
    (other : V) :
    other ∈ map'.entries ↔ other = value ∨ (other ∈ map.entries ∧ traits.getKey other ≠ traits.getKey value) := by
  have new : value ∈ map'.entries := by
    rcases mem_cons.mp (moved.mem_iff.mpr (mem_cons_self ..)) with rfl | member
    · exact moved.cons_inv.mem_iff.mpr stored
    · exact member
  constructor
  · intro member
    rcases mem_cons.mp (moved.mem_iff.mp (mem_cons_of_mem _ member)) with rfl | before
    · exact .inl rfl
    by_cases shared : traits.getKey other = traits.getKey value
    · exact .inl (valid.eq_of_key member new shared)
    · exact .inr ⟨before, shared⟩
  grind

omit [DecidableEq K] in
theorem Absent.mem_inserted {value : V} (absent : Absent traits value map.subMaps)
    (moved : map'.entries.Perm (value :: map.entries)) (other : V) :
    other ∈ map'.entries ↔ other = value ∨ (other ∈ map.entries ∧ traits.getKey other ≠ traits.getKey value) := by
  rw [moved.mem_iff, mem_cons]
  constructor
  · rintro (rfl | member)
    · exact .inl rfl
    · exact .inr ⟨member, absent.entries other member⟩
  grind

omit [DecidableEq K] in
theorem Valid.mem_erased {old : V} (valid : map.Valid traits) (moved : (old :: map'.entries).Perm map.entries)
    (other : V) : other ∈ map'.entries ↔ other ∈ map.entries ∧ traits.getKey other ≠ traits.getKey old := by
  have keys := (moved.map traits.getKey).nodup_iff.mpr valid.unique
  rw [map_cons, nodup_cons] at keys
  grind

theorem Valid.overwrite (valid : map.Valid traits) (roomy : Roomy map.subMapMemSize) (value : V) :
    ∃ old map', map.setRefactored traits (traits.getKey value) value true = ⟨.success, old, map'⟩ ∧
      map'.Valid traits ∧ Roomy map'.subMapMemSize ∧ ∀ other, other ∈ map'.entries ↔
        other = value ∨ (other ∈ map.entries ∧ traits.getKey other ≠ traits.getKey value) := by
  have spec := valid.setRefactored_spec value true
  generalize map.setRefactored traits (traits.getKey value) value true = result at spec
  cases spec with
  | @replace old map' stored same valid moved size =>
    exact ⟨some old, map', rfl, valid, size ▸ roomy, valid.mem_replaced stored same moved⟩
  | @insert _ map' absent valid moved still =>
    exact ⟨none, map', rfl, valid, still roomy, absent.mem_inserted moved⟩
  | @full _ map' absent valid moved tight => exact absurd roomy tight

structure Holds (traits : Traits K V) (roomy : Prop) (map : PointerHashMap V)
    (contents : K → Option V) : Prop where
  valid : map.Valid traits
  iff : ∀ key value, contents key = some value ↔ value ∈ map.entries ∧ traits.getKey value = key
  roomy : roomy → Roomy map.subMapMemSize

namespace Holds

variable {traits : Traits K V} {roomy : Prop} {map : PointerHashMap V} {contents : K → Option V}

variable (holds : Holds traits roomy map contents)
include holds

omit [DecidableEq K] in
theorem stored {value : V} (member : value ∈ map.entries) : contents (traits.getKey value) = some value :=
  (holds.iff _ _).mpr ⟨member, rfl⟩

omit [DecidableEq K] in
theorem eq_none {key : K} (absent : ∀ value ∈ map.entries, traits.getKey value ≠ key) : contents key = none := by
  cases found : contents key with
  | none => rfl
  | some value =>
    obtain ⟨member, same⟩ := (holds.iff key value).mp found
    exact absurd same (absent value member)

theorem update {map' : PointerHashMap V} {value : V} (valid : map'.Valid traits)
    (still : roomy → Roomy map'.subMapMemSize)
    (entries : ∀ other, other ∈ map'.entries ↔ other = value ∨ (other ∈ map.entries ∧ traits.getKey other ≠ traits.getKey value)) :
    Holds traits roomy map' (Function.update contents (traits.getKey value) (some value)) where
  valid := valid
  roomy := still
  iff := by
    intro key other
    rw [entries]
    rcases eq_or_ne key (traits.getKey value) with rfl | different
    · rw [Function.update_self, Option.some_inj]
      constructor
      · rintro rfl
        exact ⟨.inl rfl, rfl⟩
      · rintro ⟨rfl | ⟨-, different⟩, same⟩
        · rfl
        · exact absurd same different
    · rw [Function.update_of_ne different, holds.iff]
      constructor
      · rintro ⟨member, rfl⟩
        exact ⟨.inr ⟨member, different⟩, rfl⟩
      · rintro ⟨rfl | ⟨member, -⟩, same⟩
        · exact absurd same.symm different
        · exact ⟨member, same⟩

theorem set (value : V) (overwrite : Bool) :
    Answers traits roomy contents (.set value overwrite) (map.call traits (.set value overwrite)).1 ∧
      Holds traits roomy (map.call traits (.set value overwrite)).2
        (after traits contents (.set value overwrite, (map.call traits (.set value overwrite)).1)) := by
  have spec := holds.valid.setRefactored_spec value overwrite
  simp only [call]
  generalize map.setRefactored traits (traits.getKey value) value overwrite = result at spec
  cases spec with
  | exist stored same =>
    have found := holds.stored stored
    rw [same] at found
    exact ⟨by simp [Answers, found], holds⟩
  | @replace old map' stored same valid moved size =>
    have found := holds.stored stored
    rw [same] at found
    exact ⟨by simp [Answers, found], holds.update valid (size ▸ holds.roomy) (valid.mem_replaced stored same moved)⟩
  | @insert _ map' absent valid moved roomy =>
    have found := holds.eq_none absent.entries
    exact ⟨by simp [Answers, found], holds.update valid (fun start => roomy (holds.roomy start))
      (absent.mem_inserted moved)⟩
  | @full _ map' absent valid moved tight =>
    have found := holds.eq_none absent.entries
    have refused : ¬ roomy := fun start => tight (holds.roomy start)
    refine ⟨by simp [Answers, found, refused], valid, fun key other => ?_, fun start => absurd start refused⟩
    rw [moved.mem_iff]
    exact holds.iff key other

theorem erase (key : K) : Answers traits roomy contents (.erase key) (map.call traits (.erase key)).1 ∧
      Holds traits roomy (map.call traits (.erase key)).2
        (after traits contents (.erase key, (map.call traits (.erase key)).1)) := by
  simp only [call]
  rcases holds.valid.eraseRefactored_spec key with
    ⟨old, map', rfl, erased, valid, moved, size⟩ | ⟨absent, erased⟩
  · have found := holds.stored (moved.mem_iff.mp (mem_cons_self ..))
    rw [erased]
    refine ⟨by simp [Answers, found], valid, fun key other => ?_, size ▸ holds.roomy⟩
    change Function.update contents (traits.getKey old) none key = some other ↔ _
    rw [holds.valid.mem_erased moved]
    rcases eq_or_ne key (traits.getKey old) with rfl | different
    · simp
    · rw [Function.update_of_ne different, holds.iff]
      grind
  · rw [erased]
    exact ⟨by simp [Answers, holds.eq_none absent], holds⟩

theorem getRefactored_eq (key : K) : map.getRefactored traits key = (contents key).elim (.error .hashNotExist) .ok := by
  rcases holds.valid.getRefactored_spec key with ⟨value, member, rfl, got⟩ | ⟨absent, got⟩
  · rw [got, holds.stored member]
    rfl
  · rw [got, holds.eq_none absent]
    rfl

/-- Every call answers as a finite map does, and the map then holds what it should. -/
theorem call (op : Op K V) : Answers traits roomy contents op (map.call traits op).1 ∧
      Holds traits roomy (map.call traits op).2 (after traits contents (op, (map.call traits op).1)) := by
  cases op with
  | set value overwrite => exact holds.set value overwrite
  | erase key => exact holds.erase key
  | get key =>
    rw [PointerHashMap.call, holds.getRefactored_eq key]
    cases found : contents key with
    | none => exact ⟨by simp [Answers, found], holds⟩
    | some value => exact ⟨by simp [Answers, found], holds⟩
  | clear =>
    obtain ⟨valid, empty, size⟩ := holds.valid.clear
    refine ⟨rfl, valid, fun key other => ?_, size ▸ holds.roomy⟩
    rw [PointerHashMap.call, empty]
    simp [after]

end Holds

def Answered (traits : Traits K V) (roomy : Prop) (history : History K V) : Prop :=
  ∀ later op answer earlier, history = later ++ (op, answer) :: earlier →
    Answers traits roomy (latest traits earlier) op answer

theorem answered_cons {op : Op K V} {answer : Answer V} {history : History K V}
    (answered : Answered traits roomy history) (fits : Answers traits roomy (latest traits history) op answer) :
    Answered traits roomy ((op, answer) :: history) := by
  intro later op' answer' earlier split
  cases later with
  | nil =>
    grind
  | cons entry later => exact answered later op' answer' earlier (List.cons.inj split).2

theorem calls_spec {history : History K V} (holds : Holds traits roomy map (latest traits history))
    (answered : Answered traits roomy history) (ops : List (Op K V)) :
    Holds traits roomy (calls traits map history ops).1 (latest traits (calls traits map history ops).2) ∧
      Answered traits roomy (calls traits map history ops).2 := by
  induction ops generalizing map history with
  | nil => exact ⟨holds, answered⟩
  | cons op ops ih =>
    obtain ⟨fits, next⟩ := holds.call op
    exact ih next (answered_cons answered fits)

def InCell (map : PointerHashMap V) (i p : Nat) (value : V) : Prop :=
  ∃ a, map.subMaps[i]? = some a ∧ p < a.capacity ∧ a.cells p = .live value

omit [DecidableEq K] in
theorem Valid.cell_unique (valid : map.Valid traits) {i j p q : Nat} {first second : V} (here : map.InCell i p first)
    (there : map.InCell j q second) (same : traits.getKey first = traits.getKey second) : i = j ∧ p = q := by
  obtain ⟨a, subMap, inside, live⟩ := here
  obtain ⟨b, subMap', inside', live'⟩ := there
  have unique := valid.unique
  rw [entries, map_flatMap] at unique
  have key : traits.getKey first ∈ a.entries.map traits.getKey :=
    mem_map_of_mem (LinearProbing.mem_entries.mpr ⟨p, inside, live⟩)
  have key' : traits.getKey first ∈ b.entries.map traits.getKey :=
    same ▸ mem_map_of_mem (LinearProbing.mem_entries.mpr ⟨q, inside', live'⟩)
  obtain rfl := index_unique_of_nodup_flatMap unique subMap subMap' key key'
  obtain rfl : a = b := Option.some.inj (subMap.symm.trans subMap')
  have cells := (nodup_flatMap.mp unique).1 a (mem_of_getElem? subMap)
  rw [PointerHashArray.entries, LinearProbing.entries, map_flatMap] at cells
  refine ⟨rfl, index_unique_of_nodup_flatMap cells (getElem?_range inside)
    (getElem?_range inside') (x := traits.getKey first) ?_ ?_⟩
  · rw [live]
    exact mem_singleton.mpr rfl
  · rw [live', same]
    exact mem_singleton.mpr rfl

theorem Holds.itemCount_eq {contents : K → Option V} (holds : Holds traits roomy map contents) :
    map.itemCount = {key | contents key ≠ none}.ncard := by
  have keys : {key | contents key ≠ none} = ↑(map.entries.map traits.getKey).toFinset := by
    ext key
    simp only [Set.mem_ofPred_eq, coe_toFinset, mem_map]
    rw [Option.ne_none_iff_exists']
    exact exists_congr fun value => holds.iff key value
  rw [keys, Set.ncard_coe_finset, toFinset_card_of_nodup holds.valid.unique, length_map, holds.valid.itemCount_eq]

/-- A pointer hash map of any size that has a cell, with any hash function and after any calls, is a
finite map: every answer is right, `get` returns what was set last for a key and not erased since,
no two cells hold one key, and `item_count` is the number of keys that are set. A new key is refused
only if the size is not roomy; the sizes in use are. -/
theorem finite_map_over_history (traits : Traits K V) {defaultSize : Nat} (large : 72 ≤ defaultSize)
    (ops : List (Op K V)) :
    ∃ (map : PointerHashMap V) (history : History K V),
      calls traits (init V defaultSize) [] ops = (map, history) ∧
      history.map Prod.fst = ops.reverse ∧
      (∀ later op answer earlier, history = later ++ (op, answer) :: earlier →
        Answers traits (Roomy defaultSize) (latest traits earlier) op answer) ∧
      (∀ key, map.getRefactored traits key =
        (latest traits history key).elim (.error .hashNotExist) .ok) ∧
      (∀ i j p q first second, map.InCell i p first → map.InCell j q second →
        traits.getKey first = traits.getKey second → i = j ∧ p = q) ∧
      map.itemCount = {key | latest traits history key ≠ none}.ncard ∧
      (defaultSize = normalBlockSize ∨ defaultSize = 128 ∨ defaultSize = 1024 →
        Roomy defaultSize) := by
  have fresh : Holds traits (Roomy defaultSize) (init V defaultSize) (latest traits []) := by
    refine ⟨valid_init large, fun key value => ?_, fun roomy => roomy⟩
    rw [entries_init]
    simp [latest]
  obtain ⟨holds, answered⟩ := calls_spec fresh (by intro later; simp) ops
  refine ⟨_, _, rfl, (calls_ops traits _ [] ops).trans (append_nil _), answered,
    holds.getRefactored_eq,
    fun _ _ _ _ _ _ here there same => holds.valid.cell_unique here there same,
    holds.itemCount_eq, ?_⟩
  rintro (rfl | rfl | rfl)
  · exact roomy_normal
  · exact roomy_128
  · exact roomy_1024

/-- Setting, overwriting and erasing one key in the smallest map. -/
theorem finite_map_three_calls :
    ∃ (map : PointerHashMap (Nat × Nat)) (history : History Nat (Nat × Nat)),
      calls ⟨id, Prod.fst⟩ (init _ 72) [] [.set (1, 10) false, .set (1, 11) true, .erase 1] =
        (map, history) ∧
      (∀ key, map.getRefactored ⟨id, Prod.fst⟩ key =
        (latest ⟨id, Prod.fst⟩ history key).elim (.error .hashNotExist) .ok) := by
  obtain ⟨map, history, ran, -, -, got, -⟩ := finite_map_over_history
    (K := Nat) (V := Nat × Nat) ⟨id, Prod.fst⟩ (Nat.le_refl 72)
    [.set (1, 10) false, .set (1, 11) true, .erase 1]
  exact ⟨map, history, ran, got⟩

end PointerHashMap

end IMBridge.Hash
