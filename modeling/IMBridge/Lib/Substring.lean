import Mathlib.Data.List.Infix

/-!
First occurrences of a pattern in a text. The patterns are words whose first letter does not come
again, so that two occurrences never overlap.
-/

namespace IMBridge.Lib.Substring

open List
variable {α : Type} [DecidableEq α]

def find (pattern : List α) : List α → Option Nat
  | [] => if pattern = [] then some 0 else none
  | c :: text =>
    if pattern <+: c :: text then some 0 else (find pattern text).map (· + 1)

def replace (pos count : Nat) (inserted text : List α) : List α :=
  text.take pos ++ inserted ++ text.drop (pos + count)

section

omit [DecidableEq α]

@[simp] theorem replace_middle (before old after inserted : List α) :
    replace before.length old.length inserted (before ++ old ++ after) = before ++ inserted ++ after := by
  have kept : (before ++ old ++ after).take before.length = before := by
    rw [append_assoc, take_left]
  have left : (before ++ old ++ after).drop (before.length + old.length) = after := by
    rw [← length_append, drop_left]
  rw [replace, kept, left]

/-! A text with two words in it, cut at both. -/

theorem cut_between (before first between second after : List α) :
    ((before ++ first ++ (between ++ second ++ after)).take
      (before ++ first ++ between).length).drop (before.length + first.length) = between := by
  grind

theorem cut_after (before first between second after : List α) : (before ++ first ++ (between ++ second ++ after)).drop
      ((before ++ first ++ between).length + second.length) = after := by
  grind

variable {before after pattern : List α}

theorem exists_first {text : List α} (inside : pattern <:+: text) (nonempty : pattern ≠ []) :
    ∃ before after, text = before ++ pattern ++ after ∧ ¬ pattern <:+: before := by
  induction text with
  | nil => exact absurd (eq_nil_of_infix_nil inside) nonempty
  | cons c text ih =>
    by_cases here : pattern <+: c :: text
    · obtain ⟨after, same⟩ := here
      exact ⟨[], after, same.symm, fun inside => nonempty (eq_nil_of_infix_nil inside)⟩
    have later : pattern <:+: text := (infix_cons_iff.mp inside).resolve_left here
    obtain ⟨before, after, rfl, absent⟩ := ih later
    refine ⟨c :: before, after, rfl, fun early => ?_⟩
    rcases infix_cons_iff.mp early with start | early
    · grind
    · exact absent early

/-- A letter that the pattern does not have separates its occurrences. -/
theorem infix_separated {sep : α} (foreign : sep ∉ pattern) (inside : pattern <:+: before ++ sep :: after) :
    pattern <:+: before ∨ pattern <:+: after := by
  obtain ⟨s, t, same⟩ := inside
  rcases append_eq_append_iff.mp same with ⟨rest, rfl, -⟩ | ⟨rest, whole, split⟩
  · exact .inl ⟨s, rest, rfl⟩
  cases rest with
  | nil => exact .inl ⟨s, [], by simpa using whole⟩
  | cons c rest =>
    obtain ⟨rfl, rfl⟩ := List.cons.inj split
    rcases append_eq_append_iff.mp whole with ⟨part, -, cut⟩ | ⟨part, -, cut⟩
    · exact absurd (by simp [cut]) foreign
    cases part with
    | nil => exact absurd (by simp [← show _ = pattern from cut]) foreign
    | cons c part =>
      grind

theorem prefix_separated {sep : α} (foreign : sep ∉ pattern) (front : pattern <+: before ++ sep :: after) :
    pattern <+: before := by
  obtain ⟨t, same⟩ := front
  rcases append_eq_append_iff.mp same with ⟨rest, rfl, -⟩ | ⟨rest, rfl, cut⟩
  · exact ⟨rest, rfl⟩
  cases rest with
  | nil => simp
  | cons c rest =>
    grind

/-- A word that starts with the pattern's first letter and has no other such letter separates the
pattern's occurrences, when neither begins with the other. -/
theorem infix_around {c : α} {word : List α} (once : c ∉ pattern) (onceWord : c ∉ word)
    (differ : ¬ c :: word <+: c :: pattern) (differ' : ¬ c :: pattern <+: c :: word)
    (inside : c :: pattern <:+: before ++ c :: word ++ after) : c :: pattern <:+: before ∨ c :: pattern <:+: after := by
  -- The two words cannot start at one place.
  have apart : ∀ rest, word ++ after ≠ pattern ++ rest := by
    intro rest same
    have first : c :: word <+: c :: (word ++ after) := by simp
    have second : c :: pattern <+: c :: (word ++ after) := by simp [same]
    rcases prefix_or_prefix_of_prefix first second with shorter | shorter
    · exact differ shorter
    · exact differ' shorter
  obtain ⟨s, t, same⟩ := inside
  rw [append_assoc, cons_append, append_assoc] at same
  rcases append_eq_append_iff.mp same with ⟨rest, rfl, split⟩ | ⟨rest, rfl, split⟩
  · -- The occurrence starts before the word, and has to end there.
    cases rest with
    | nil =>
      grind
    | cons d rest =>
      rw [cons_append, cons_append] at split
      obtain ⟨rfl, tails⟩ := List.cons.inj split
      rcases append_eq_append_iff.mp tails with ⟨part, rfl, -⟩ | ⟨part, rfl, cut⟩
      · exact .inl ⟨s, part, by simp⟩
      cases part with
      | nil => exact .inl ⟨s, [], by simp⟩
      | cons e part =>
        grind
  · -- It starts inside the word or behind it.
    cases rest with
    | nil =>
      grind
    | cons d rest =>
      rw [cons_append] at split
      obtain ⟨rfl, tails⟩ := List.cons.inj split
      rcases append_eq_append_iff.mp tails with ⟨part, rfl, cut⟩ | ⟨part, rfl, cut⟩
      · exact .inr ⟨part, t, by simp [cut]⟩
      cases part with
      | nil => exact .inr ⟨[], t, by simpa using cut⟩
      | cons e part =>
        grind

end

theorem find_first {c : α} {pattern before : List α} (after : List α) (once : c ∉ pattern)
    (absent : ¬ c :: pattern <:+: before) :
    find (c :: pattern) (before ++ c :: pattern ++ after) = some before.length := by
  induction before with
  | nil =>
    rw [nil_append, cons_append, find, if_pos]
    · rfl
    · exact ⟨after, rfl⟩
  | cons d before ih =>
    have later := ih fun inside => absent (inside.trans (suffix_cons d before).isInfix)
    rw [cons_append, cons_append, find, if_neg, later]
    · rfl
    · -- An occurrence at the front ends before the given one, or its first letter comes again.
      intro front
      rw [cons_prefix_cons, append_assoc] at front
      obtain ⟨rfl, rest, same⟩ := front
      rcases append_eq_append_iff.mp same with ⟨part, rfl, -⟩ | ⟨part, rfl, cut⟩
      · exact absent ⟨[], part, rfl⟩
      cases part with
      | nil => exact absent ⟨[], [], by simp⟩
      | cons e part =>
        grind

theorem find_isSome {pattern text : List α} (nonempty : pattern ≠ []) :
    (find pattern text).isSome ↔ pattern <:+: text := by
  induction text with
  | nil => simp [find, nonempty]
  | cons c text ih =>
    rw [find, infix_cons_iff]
    split
    · simp [*]
    · simp [*]

theorem first_unique {c : α} {pattern before before' after after' : List α} (once : c ∉ pattern)
    (absent : ¬ c :: pattern <:+: before) (absent' : ¬ c :: pattern <:+: before')
    (same : before ++ c :: pattern ++ after = before' ++ c :: pattern ++ after') :
    before = before' ∧ after = after' := by
  have position := find_first after once absent
  rw [same, find_first after' once absent', Option.some.injEq] at position
  rw [append_assoc, append_assoc] at same
  obtain ⟨rfl, rest⟩ := append_inj same position.symm
  exact ⟨rfl, append_cancel_left rest⟩

end IMBridge.Lib.Substring
