import Mathlib.Init

/-!
Postconditions of fallible computations. `Post tolerated P x` says that `x` succeeds with a result
satisfying `P` or fails with a tolerated error.
-/

namespace IMBridge.Lib.Outcome

variable {ε α β : Type}

def Post (tolerated : ε → Prop) (P : α → Prop) : Except ε α → Prop
  | .ok a => P a
  | .error e => tolerated e

variable {tolerated : ε → Prop} {P : α → Prop} {x : Except ε α}

@[simp] theorem post_ok {a : α} : Post tolerated P (.ok a : Except ε α) ↔ P a := Iff.rfl

@[simp] theorem post_error {e : ε} : Post tolerated P (.error e : Except ε α) ↔ tolerated e := Iff.rfl

@[simp] theorem ok_bind (a : α) (f : α → Except ε β) : ((.ok a : Except ε α) >>= f) = f a := rfl

@[simp] theorem error_bind (e : ε) (f : α → Except ε β) : ((.error e : Except ε α) >>= f) = .error e := rfl

theorem bind_eq_ok {f : α → Except ε β} {b : β} : x >>= f = .ok b ↔ ∃ a, x = .ok a ∧ f a = .ok b := by
  cases x with
  | ok a => simp
  | error e => simp

theorem isOk_iff : x.isOk = true ↔ ∃ a, x = .ok a := by
  cases x with
  | ok a => exact iff_of_true rfl ⟨a, rfl⟩
  | error e => exact iff_of_false Bool.false_ne_true (by simp)

theorem Post.bind {Q : β → Prop} {f : α → Except ε β} (first : Post tolerated P x)
    (next : ∀ a, P a → Post tolerated Q (f a)) : Post tolerated Q (x >>= f) := by
  cases x with
  | ok a => exact next a first
  | error e => exact first

theorem Post.mono {more : ε → Prop} {Q : α → Prop} (post : Post tolerated P x) (errors : ∀ e, tolerated e → more e)
    (results : ∀ a, P a → Q a) : Post more Q x := by
  cases x with
  | ok a => exact results a post
  | error e => exact errors e post

theorem Post.exists_ok (post : Post tolerated P x) (never : ∀ e, x = .error e → ¬tolerated e) : ∃ a, x = .ok a ∧ P a := by
  cases x with
  | ok a => exact ⟨a, rfl, post⟩
  | error e => exact absurd post (never e rfl)

end IMBridge.Lib.Outcome
