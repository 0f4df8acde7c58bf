import IMBridge.Lib.LinearProbing
import IMBridge.Lib.DoubleRounding

/-!
`ObPointerHashArray`: an array of pointers with linear probing in which erased cells stay used. The
key of a stored pointer is read through the pointer.
-/

namespace IMBridge.Hash

open IMBridge.Lib
open IMBridge.Lib.LinearProbing

inductive Code where
  | success | hashExist | hashNotExist | hashFull | invalidArgument | errUnexpected
deriving DecidableEq

structure Traits (K V : Type) where
  hash : K → Nat
  getKey : V → K

structure PointerHashArray (V : Type) where
  capacity : Nat
  maxEntries : Nat
  anchorMask : Nat
  cells : Nat → Slot V
  /-- Cells that have been used, erased ones included. -/
  count : Nat
  itemCount : Nat

def nextPow2 (x : Nat) : Nat :=
  if 1 < x then 2 ^ (Nat.log 2 (x - 1) + 1) else 1

/-- `(int64_t)((double)capacity_ * load_factor)` for the double nearest to 0.7. -/
def loadLimit (capacity : Nat) : Nat := mulTrunc 6305039478318694 53 capacity

theorem loadLimit_bounds (capacity : Nat) : 10 * 2 ^ 48 * loadLimit capacity ≤ (7 * 2 ^ 48 + 1) * capacity ∧
      (7 * 2 ^ 48 - 1) * capacity < 10 * 2 ^ 48 * (loadLimit capacity + 1) := by
  have bounds := mulTrunc_bounds 6305039478318694 53 capacity
  rw [loadLimit]
  omega

theorem loadLimit_lt {capacity : Nat} (some_cell : 0 < capacity) : loadLimit capacity < capacity := by
  have bounds := loadLimit_bounds capacity
  omega

namespace PointerHashArray

variable {K V : Type} [DecidableEq K] (traits : Traits K V)

/-- The constructor: the cells that fit into `memSize` bytes after the 64 bytes of the header. -/
def create (V : Type) (memSize : Nat) : PointerHashArray V where
  capacity := (memSize - 64) / 8
  maxEntries := loadLimit ((memSize - 64) / 8)
  anchorMask := nextPow2 ((memSize - 64) / 8) - 1
  cells := fun _ => .empty
  count := 0
  itemCount := 0

variable (a : PointerHashArray V)

def entries : List V := LinearProbing.entries a.cells a.capacity

def isFull : Prop := a.maxEntries ≤ a.count

instance (a : PointerHashArray V) : Decidable a.isFull := inferInstanceAs (Decidable (_ ≤ _))

variable (key : K)

def keyToAnchorIdx : Nat :=
  let probe := traits.hash key &&& a.anchorMask
  if probe < a.capacity then probe else traits.hash key % a.capacity

def searchFrom (a : PointerHashArray V) (key : K) : Nat → Nat → Option Nat
  | 0, _ => none
  | left + 1, i =>
    match a.cells i with
    | .empty => none
    | .erased => searchFrom a key left (next a.capacity i)
    | .live value =>
      if traits.getKey value = key then some i else searchFrom a key left (next a.capacity i)

def placementHashSearch : Option Nat :=
  if a.itemCount = 0 then none
  else a.searchFrom traits key a.capacity (a.keyToAnchorIdx traits key)

/-- What the search for a place to set a key comes to; no position is -1 in the source. -/
structure SetPos where
  ret : Code
  pos : Option Nat
  exist : Bool

/-- The loop of `placement_hash_find_set_pos`; `pos` is the first erased cell so far. -/
def findFrom (a : PointerHashArray V) (key : K) (overwrite : Bool) : Nat → Nat → Option Nat → SetPos
  | 0, _, pos => ⟨.hashFull, pos, false⟩
  | left + 1, i, pos =>
    match a.cells i with
    | .empty => ⟨.success, some (pos.getD i), false⟩
    | .erased => findFrom a key overwrite left (next a.capacity i) (some (pos.getD i))
    | .live value =>
      if traits.getKey value = key then ⟨if overwrite then .success else .hashExist, some i, true⟩
      else findFrom a key overwrite left (next a.capacity i) pos

def placementHashFindSetPos (overwrite : Bool) : SetPos :=
  a.findFrom traits key overwrite a.capacity (a.keyToAnchorIdx traits key) none

structure FoundPos where
  ret : Code
  pos : Option Nat
  erasedPos : Option Nat
  exist : Bool

def findSetPos (value : Slot V) (overwrite : Bool) : FoundPos :=
  let found := a.placementHashFindSetPos traits key overwrite
  if found.ret = .success ∧ found.exist = false then
    match value with
    -- The erased value can overwrite, but not be inserted.
    | .erased => ⟨.hashNotExist, found.pos, none, false⟩
    | _ =>
      if a.isFull then
        ⟨.hashFull, found.pos, found.pos.filter fun p =>
          match a.cells p with
          | .erased => true
          | _ => false, false⟩
      else ⟨.success, found.pos, none, false⟩
  else ⟨found.ret, found.pos, none, found.exist⟩

structure SetResult (V : Type) where
  ret : Code
  overWriteValue : Option V
  array : PointerHashArray V

def setValue (pos : Option Nat) (value : Slot V) : SetResult V :=
  match pos with
  | none => ⟨.invalidArgument, none, a⟩
  | some pos =>
    if pos < a.capacity then
      let counted : PointerHashArray V × Option V :=
        match a.cells pos, value with
        | .empty, _ => ({ a with count := a.count + 1, itemCount := a.itemCount + 1 }, none)
        | .erased, _ => ({ a with itemCount := a.itemCount + 1 }, none)
        | .live old, .erased => ({ a with itemCount := a.itemCount - 1 }, some old)
        | .live old, _ => (a, some old)
      let array : PointerHashArray V := { counted.1 with cells := Function.update a.cells pos value }
      ⟨if array.count < array.itemCount then .errUnexpected else .success, counted.2, array⟩
    else ⟨.invalidArgument, none, a⟩

def setRefactored (value : Slot V) (overwrite : Bool) :
    SetResult V :=
  let found := a.findSetPos traits key value overwrite
  if found.ret = .success then a.setValue found.pos value else ⟨found.ret, none, a⟩

def getRefactored : Except Code V :=
  match a.placementHashSearch traits key with
  | none => .error .hashNotExist
  | some pos =>
    if pos < a.capacity then
      match a.cells pos with
      | .live value => .ok value
      | _ => .error .errUnexpected
    else .error .errUnexpected

def eraseRefactored : SetResult V := a.setRefactored traits key .erased true

def clear : PointerHashArray V := { a with cells := fun _ => .empty, count := 0, itemCount := 0 }

end PointerHashArray

end IMBridge.Hash
