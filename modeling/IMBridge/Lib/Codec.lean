import Mathlib.Tactic.Common

/-!
Encodings that delimit themselves: a decoder finds the end of an encoding whatever bytes follow.
-/

namespace IMBridge.Lib

structure Codec (α : Type) where
  encode : α → List UInt8
  decode : List UInt8 → Option (α × List UInt8)
  decode_encode : ∀ value rest, decode (encode value ++ rest) = some (value, rest)

namespace Codec

variable {α : Type} (codec : Codec α)

/-- Of a type with several values none is encoded by no bytes at all. -/
theorem encode_ne_nil [Nontrivial α] (value : α) : codec.encode value ≠ [] := by
  intro empty
  obtain ⟨other, differs⟩ := exists_ne value
  have found := codec.decode_encode value (codec.encode other)
  have given := codec.decode_encode other []
  grind

def encodeAll (values : List α) : List UInt8 := values.flatMap codec.encode

def decodeInto {β : Type} (insert : β → α → β) : Nat → List UInt8 → β → Option β
  | _, [], result => some result
  | 0, _ :: _, _ => none
  | fuel + 1, byte :: bytes, result =>
    match codec.decode (byte :: bytes) with
    | none => none
    | some (value, rest) => decodeInto insert fuel rest (insert result value)

theorem length_le_encodeAll [Nontrivial α] (values : List α) : values.length ≤ (codec.encodeAll values).length := by
  induction values with
  | nil => exact Nat.zero_le _
  | cons value values ih =>
    have pos := List.length_pos_iff.mpr (codec.encode_ne_nil value)
    simp only [encodeAll, List.flatMap_cons, List.length_cons, List.length_append] at ih ⊢
    omega

theorem decodeInto_encodeAll [Nontrivial α] {β : Type} (insert : β → α → β) (values : List α) :
    ∀ (fuel : Nat) (result : β), values.length ≤ fuel → codec.decodeInto insert fuel (codec.encodeAll values) result =
        some (values.foldl insert result) := by
  induction values with
  | nil => intro fuel result _; cases fuel <;> rfl
  | cons value values ih =>
    intro fuel result enough
    obtain ⟨fuel, rfl⟩ : ∃ less, fuel = less + 1 := ⟨fuel - 1, by simp at enough; omega⟩
    have decoded := codec.decode_encode value (codec.encodeAll values)
    obtain ⟨byte, bytes, split⟩ := List.exists_cons_of_ne_nil (show codec.encode value ++ codec.encodeAll values ≠ [] by
        simp [codec.encode_ne_nil value])
    show codec.decodeInto insert (fuel + 1) (codec.encode value ++ codec.encodeAll values) result = _
    rw [split] at decoded ⊢
    simp only [decodeInto, decoded, List.foldl_cons]
    grind

end Codec

end IMBridge.Lib
