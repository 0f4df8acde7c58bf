import IMBridge.Lib.BitStream

/-!
Readers that take bytes from the front of a text. `Restores` says that a reader gives a value back
from the text written for it and leaves whatever follows; it composes along the steps of a reader.
-/

namespace IMBridge.Lib

variable {α β : Type}

abbrev Reading (α : Type) := StateM (List UInt8) α

def takeBytes (count : Nat) : Reading (List UInt8) :=
  fun bytes => (bytes.take count, bytes.drop count)

def takeByte : Reading UInt8 := fun bytes => (bytes.headD 0, bytes.tail)

/-- From the text, whatever follows it, the value is read, and all of the text is used up. -/
def Restores (reading : Reading α) (text : List UInt8) (value : α) : Prop :=
  ∀ rest, reading (text ++ rest) = (value, rest)

theorem restores_pure (value : α) : Restores (pure value) [] value := fun _ => rfl

theorem Restores.bind {reading : Reading α} {next : α → Reading β} {text more : List UInt8}
    {value : α} {result : β} (first : Restores reading text value)
    (second : Restores (next value) more result) :
    Restores (reading >>= next) (text ++ more) result := by
  intro rest
  change next (reading (text ++ more ++ rest)).1 (reading (text ++ more ++ rest)).2 = (result, rest)
  rw [List.append_assoc, first, second]

theorem Restores.last {reading : Reading α} {next : α → Reading β} {text : List UInt8} {value : α}
    {result : β} (first : Restores reading text value)
    (second : Restores (next value) [] result) : Restores (reading >>= next) text result := by
  have both := first.bind second
  rwa [List.append_nil] at both

theorem restores_takeByte (byte : UInt8) : Restores takeByte [byte] byte := fun _ => rfl

theorem restores_takeBytes {count : Nat} {text : List UInt8} (length : text.length = count) :
    Restores (takeBytes count) text text := by
  intro rest
  subst length
  rw [takeBytes, List.take_left, List.drop_left]

end IMBridge.Lib
