import Mathlib.Data.List.Lex

/-!
A selection that keeps the best candidate so far, by a comparison that need not be transitive, and
comparisons by a cascade of criteria.
-/

namespace IMBridge.Lib.Selection

open List
section Selecting

variable {α : Type} (higher : α → α → Bool)

/-- The better one of the best so far and the next; `higher old new` says that the next is. -/
def pick (best : Option α) (next : α) : Option α :=
  match best with
  | none => some next
  | some old => if higher old next then some next else some old

def select (candidates : List α) : Option α := candidates.foldl (pick higher) none

variable {higher}

theorem mem_of_mem_pick {best : Option α} {next chosen : α} (member : chosen ∈ pick higher best next) :
    chosen = next ∨ chosen ∈ best := by
  cases best with
  | none => exact .inl (Option.some.inj member).symm
  | some old =>
    simp only [pick] at member
    grind

theorem foldl_pick_mem (higher : α → α → Bool) (best : α) (candidates : List α) :
    ∃ chosen ∈ best :: candidates, candidates.foldl (pick higher) (some best) = some chosen := by
  induction candidates generalizing best with
  | nil => exact ⟨best, mem_cons_self .., rfl⟩
  | cons next candidates ih =>
    rw [foldl_cons, pick]
    split
    · obtain ⟨chosen, member, same⟩ := ih next
      exact ⟨chosen, mem_cons_of_mem _ member, same⟩
    obtain ⟨chosen, member, same⟩ := ih best
    grind

variable {candidates : List α}

theorem select_mem (higher : α → α → Bool) (some_candidate : candidates ≠ []) :
    ∃ chosen ∈ candidates, select higher candidates = some chosen := by
  cases candidates with
  | nil => exact absurd rfl some_candidate
  | cons first candidates => exact foldl_pick_mem higher first candidates

theorem foldl_pick_eq {winner best : α}
    (wins : ∀ other ∈ best :: candidates, other ≠ winner → higher other winner = true ∧ ¬ higher winner other = true)
    (present : winner ∈ best :: candidates) : candidates.foldl (pick higher) (some best) = some winner := by
  induction candidates generalizing best with
  | nil =>
    rw [mem_singleton] at present
    rw [present]
    rfl
  | cons next candidates ih =>
    rw [foldl_cons, pick]
    split
    · rename_i replaced
      apply ih
      · grind
      · rcases mem_cons.mp present with rfl | present
        · -- The winner is not replaced.
          by_cases same : next = winner
          · rw [same]
            exact mem_cons_self ..
          · exact absurd replaced (wins next (by simp) same).2
        · exact present
    · rename_i kept
      apply ih
      · grind
      · rcases mem_cons.mp present with rfl | present
        · exact mem_cons_self ..
        rcases mem_cons.mp present with rfl | present
        · -- The winner replaces any other.
          grind
        · exact mem_cons_of_mem _ present

theorem select_eq_some {winner : α} (present : winner ∈ candidates)
    (wins : ∀ other ∈ candidates, other ≠ winner → higher other winner = true ∧ ¬ higher winner other = true) :
    select higher candidates = some winner := by
  cases candidates with
  | nil => cases present
  | cons first candidates => exact foldl_pick_eq wins present

/-- What is selected does not depend on the order exactly if one candidate beats all others. -/
theorem select_perm_iff [DecidableEq α] (nodup : candidates.Nodup)
    (asymm : ∀ a ∈ candidates, ∀ b ∈ candidates, higher a b = true → ¬ higher b a = true) :
    (∀ order, order.Perm candidates → select higher order = select higher candidates) ↔
      candidates = [] ∨ ∃ winner ∈ candidates, ∀ other ∈ candidates, other ≠ winner → higher other winner = true := by
  constructor
  · intro same
    cases candidates with
    | nil => exact .inl rfl
    | cons first rest =>
      obtain ⟨winner, present, chosen⟩ := foldl_pick_mem higher first rest
      refine .inr ⟨winner, present, fun other member ne => ?_⟩
      by_contra weak
      -- Let the other arrive first and the winner next: it is passed over and does not come again.
      have remove := perm_cons_erase present
      have other_left : other ∈ (first :: rest).erase winner := (mem_erase_of_ne ne).mpr member
      have order := (remove.trans ((perm_cons_erase other_left).cons winner)).symm
      have swapped := (Perm.swap winner other _).trans order
      have result := same _ swapped
      rw [show select higher (first :: rest) = some winner from chosen, select, foldl_cons,
        foldl_cons, pick, pick, if_neg weak] at result
      obtain ⟨last, inside, selected⟩ := foldl_pick_mem higher other (((first :: rest).erase winner).erase other)
      grind
  · rintro (rfl | ⟨winner, present, wins⟩) order perm
    · rw [Perm.eq_nil perm]
    · have beats : ∀ other ∈ candidates, other ≠ winner →
          higher other winner = true ∧ ¬ higher winner other = true := by
        intro other member ne
        have higher := wins other member ne
        exact ⟨higher, asymm other member winner present higher⟩
      rw [select_eq_some present beats, select_eq_some (perm.mem_iff.mpr present)
        fun other member => beats other (perm.mem_iff.mp member)]

end Selecting

/-! A cascade of comparisons, each with a result below, at or above zero. -/

def compareKeys (left right : Int) : Int :=
  if left = right then 0 else if right < left then 1 else -1

def cascade : List Int → Int
  | [] => 0
  | result :: results => if result ≠ 0 then result else cascade results

theorem cascade_append (results more : List Int) :
    cascade (results ++ more) = if cascade results ≠ 0 then cascade results else cascade more := by
  induction results with
  | nil => simp [cascade]
  | cons result results ih =>
    rw [cons_append, cascade, cascade, ih]
    omega

@[simp] theorem cascade_singleton (result : Int) : cascade [result] = result := by
  rw [cascade, cascade]
  omega

theorem compareKeys_eq_zero {left right : Int} : compareKeys left right = 0 ↔ left = right := by
  rw [compareKeys]
  omega

theorem cascade_compareKeys {left right : List Int} (length : left.length = right.length) :
    (cascade (zipWith compareKeys left right) < 0 ↔ left < right) ∧
      (cascade (zipWith compareKeys left right) = 0 ↔ left = right) := by
  induction left generalizing right with
  | nil =>
    rw [length_eq_zero_iff.mp length.symm]
    simp [cascade]
  | cons l left ih =>
    cases right with
    | nil => cases length
    | cons r right =>
      obtain ⟨less, same⟩ := ih (Nat.succ.inj length)
      rw [zipWith_cons_cons, cascade, cons_lt_cons_iff, List.cons.injEq, ← less, ← same, compareKeys]
      omega

theorem append_lt_append_iff {first first' second second' : List Int} (length : first.length = first'.length) :
    first ++ second < first' ++ second' ↔ first < first' ∨ first = first' ∧ second < second' := by
  induction first generalizing first' with
  | nil =>
    rw [length_eq_zero_iff.mp length.symm]
    simp
  | cons a first ih =>
    cases first' with
    | nil => cases length
    | cons b first' =>
      rw [cons_append, cons_append, cons_lt_cons_iff, cons_lt_cons_iff, ih (Nat.succ.inj length), List.cons.injEq]
      tauto

end IMBridge.Lib.Selection
