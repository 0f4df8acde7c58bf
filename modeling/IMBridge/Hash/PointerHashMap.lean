import IMBridge.Hash.ArrayInvariant

/-!
`ObPointerHashMap`: up to four sub maps of one size. A key is set in the first erased cell that the
search passes, or else in the last sub map; a map that is full gets one more sub map, or all entries
are copied into a larger one.
-/

namespace IMBridge.Hash

open IMBridge.Lib
open IMBridge.Lib.LinearProbing

def normalBlockSize : Nat := 2 ^ 13 - 256

def bigBlockSize : Nat := 2 ^ 21 - 17 * 2 ^ 10

structure PointerHashMap (V : Type) where
  subMaps : List (PointerHashArray V)
  subMapMemSize : Nat

namespace PointerHashMap

variable {K V : Type} [DecidableEq K] (traits : Traits K V)

def maxSubMapCount : Nat := 4

def init (V : Type) (defaultSize : Nat) : PointerHashMap V := ⟨[.create V defaultSize], defaultSize⟩

structure Place where
  ret : Code
  subMapIdx : Option Nat
  pos : Option Nat

def findLoop (key : K) (value : Slot V) (overwrite : Bool) :
    List (PointerHashArray V) → Nat → Place → Place
  | [], _, place => place
  | a :: rest, i, place =>
    let found := a.findSetPos traits key value overwrite
    match found.ret with
    | .success =>
      if found.exist = false ∧ place.subMapIdx ≠ none then { place with ret := .success }
      else ⟨.success, some i, found.pos⟩
    | .hashFull =>
      let place : Place :=
        if place.pos = none ∧ found.erasedPos ≠ none then ⟨.hashFull, some i, found.erasedPos⟩
        else { place with ret := .hashFull }
      -- The last sub map is full, but an erased cell has been found.
      if rest.isEmpty ∧ place.pos ≠ none then { place with ret := .success }
      else findLoop key value overwrite rest (i + 1) place
    | ret => { place with ret := ret }

variable (map : PointerHashMap V)

def findSetPos (key : K) (value : Slot V) (overwrite : Bool) : Place :=
  findLoop traits key value overwrite map.subMaps 0 ⟨.success, none, none⟩

def count : Nat := (map.subMaps.map PointerHashArray.count).sum

def itemCount : Nat := (map.subMaps.map PointerHashArray.itemCount).sum

/-- `count() <= (int64_t)(1.1 * (double)item_count())`, for the double nearest to 1.1. -/
def isNeedExtend : Prop := map.count ≤ mulTrunc 4953959590107546 52 map.itemCount

instance (map : PointerHashMap V) : Decidable map.isNeedExtend :=
  inferInstanceAs (Decidable (_ ≤ _))

def extendSize : Nat :=
  if map.isNeedExtend then map.subMapMemSize * 2 else map.subMapMemSize

inductive Growth where
  | addSubMap
  | resizeTo (memSize : Nat)

def growth : Growth :=
  if map.subMaps.length = 1 then
    if (map.subMapMemSize = normalBlockSize ∨ map.subMapMemSize = bigBlockSize) ∧
        map.subMaps.length < maxSubMapCount then .addSubMap
    else if map.extendSize ≤ normalBlockSize then .resizeTo map.extendSize
    else if map.subMapMemSize < normalBlockSize then .resizeTo normalBlockSize
    else if map.extendSize ≤ bigBlockSize then .resizeTo map.extendSize
    else if map.subMapMemSize < bigBlockSize then .resizeTo bigBlockSize
    else .resizeTo map.extendSize
  else if 1 < map.subMaps.length ∧ map.subMaps.length < maxSubMapCount then .addSubMap
  else if map.subMaps.length = maxSubMapCount then
    if map.subMapMemSize = normalBlockSize ∨ map.subMapMemSize = bigBlockSize then
      .resizeTo (map.subMaps.length * map.extendSize)
    else .resizeTo 0
  else .resizeTo 0

def entries : List V := map.subMaps.flatMap PointerHashArray.entries

/-- `copy_from`: the results of the insertions are ignored. -/
def copyFrom (other : PointerHashMap V) (resizeTo : Nat) : PointerHashMap V :=
  ⟨[other.entries.foldl (fun subMap value =>
      (subMap.setRefactored traits (traits.getKey value) (.live value) false).array)
    (.create V resizeTo)], resizeTo⟩

def addSubMap : PointerHashMap V :=
  { map with subMaps := map.subMaps ++ [.create V map.subMapMemSize] }

/-- `resize`: the new map and the number of the sub map to set the next key in. -/
def resize : PointerHashMap V × Nat :=
  match map.growth with
  | .addSubMap => (map.addSubMap, map.subMaps.length)
  | .resizeTo memSize => (map.copyFrom traits memSize, 0)

structure SetResult (V : Type) where
  ret : Code
  overWriteValue : Option V
  map : PointerHashMap V

def onSubMap (i : Nat)
    (operation : PointerHashArray V → PointerHashArray.SetResult V) : SetResult V :=
  match map.subMaps[i]? with
  | some a =>
    ⟨(operation a).ret, (operation a).overWriteValue,
      { map with subMaps := map.subMaps.set i (operation a).array }⟩
  | none => ⟨.errUnexpected, none, map⟩

def setRefactored (key : K) (value : V) (overwrite : Bool) : SetResult V :=
  let place := map.findSetPos traits key (.live value) overwrite
  let first : SetResult V :=
    if place.ret = .success then
      match place.subMapIdx with
      | some i => map.onSubMap i fun a => a.setValue place.pos (.live value)
      | none => ⟨.errUnexpected, none, map⟩
    else ⟨place.ret, none, map⟩
  if first.ret = .hashFull then
    let resized := first.map.resize traits
    resized.1.onSubMap resized.2 fun a => a.setRefactored traits key (.live value) overwrite
  else first

def getLoop (key : K) : List (PointerHashArray V) → Except Code V
  | [] => .error .hashNotExist
  | a :: rest =>
    match a.getRefactored traits key with
    | .error .hashNotExist => getLoop key rest
    | result => result

def getRefactored (key : K) : Except Code V := getLoop traits key map.subMaps

def eraseLoop (key : K) : List (PointerHashArray V) → Code × Option V × List (PointerHashArray V)
  | [] => (.hashNotExist, none, [])
  | a :: rest =>
    let erased := a.eraseRefactored traits key
    if erased.ret = .hashNotExist then
      let later := eraseLoop key rest
      (later.1, later.2.1, erased.array :: later.2.2)
    else (erased.ret, erased.overWriteValue, erased.array :: rest)

def eraseRefactored (key : K) : SetResult V :=
  let erased := eraseLoop traits key map.subMaps
  ⟨erased.1, erased.2.1, { map with subMaps := erased.2.2 }⟩

def clear : PointerHashMap V :=
  match map.subMaps with
  | [] => map
  | first :: _ => { map with subMaps := [first.clear] }

end PointerHashMap

end IMBridge.Hash
