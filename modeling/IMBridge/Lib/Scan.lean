import Mathlib.Data.List.Basic

/-!
Scanning the positions of a range that pass a test, with an operation whose failure ends the scan.
`runUntil` and `positions` both split at any point.
-/

namespace IMBridge.Lib.Scan

open List Nat
def positions (test : Nat → Bool) (lo hi : Nat) : List Nat := (range' lo (hi - lo)).filter test

section Positions

variable {test other : Nat → Bool} {lo mid hi : Nat}

theorem positions_append (test : Nat → Bool) {lo mid hi : Nat} (first : lo ≤ mid) (second : mid ≤ hi) :
    positions test lo hi = positions test lo mid ++ positions test mid hi := by
  have split : range' lo (hi - lo) = range' lo (mid - lo) ++ range' mid (hi - mid) := by
    have joined := @List.range'_append_1 lo (mid - lo) (hi - mid)
    grind
  rw [positions, split, filter_append]
  rfl

theorem positions_congr (same : ∀ k, lo ≤ k → k < hi → test k = other k) :
    positions test lo hi = positions other lo hi :=
  filter_congr fun k member => by grind

theorem positions_eq_nil (none : ∀ k, lo ≤ k → k < hi → test k = false) : positions test lo hi = [] := by
  rw [positions, filter_eq_nil_iff]
  grind

@[simp] theorem positions_self : positions test lo lo = [] := by
  simp [positions]

theorem positions_eq_range' (all : ∀ k, lo ≤ k → k < hi → test k = true) :
    positions test lo hi = range' lo (hi - lo) := by
  rw [positions, filter_eq_self]
  grind

theorem positions_cons {k : Nat} (first : lo ≤ k) (last : k < hi) (holds : test k = true)
    (none : ∀ j, lo ≤ j → j < k → test j = false) :
    positions test lo hi = k :: positions test (k + 1) hi := by
  have here : positions test k (k + 1) = [k] := by
    rw [positions_eq_range' (fun j _ _ => by rwa [show j = k by omega])]
    simp
  rw [positions_append test first (Nat.le_of_lt last), positions_eq_nil none,
    positions_append test (le_succ k) (succ_le_of_lt last), here]
  rfl

theorem positions_narrow {lo' hi' : Nat} (below : lo ≤ lo') (ordered : lo' ≤ hi') (above : hi' ≤ hi)
    (same : ∀ k, lo ≤ k → k < hi → test k = (decide (lo' ≤ k) && decide (k < hi') && other k)) :
    positions test lo hi = positions other lo' hi' := by
  have before : positions test lo lo' = [] := positions_eq_nil fun k ge lt => by
    simp [same k ge (by omega), show ¬ lo' ≤ k by omega]
  have behind : positions test hi' hi = [] := positions_eq_nil fun k ge lt => by
    simp [same k (by omega) lt, show ¬ k < hi' by omega]
  rw [positions_append test below (Nat.le_trans ordered above), positions_append test ordered above, before,
    behind, nil_append, append_nil]
  exact positions_congr fun k ge lt => by simp [same k (by omega) (by omega), ge, lt]

end Positions

section Run

variable {S : Type}

/-- Calls the operation for one position after the other until one call does not return 0; the last
return value and the state. -/
def runUntil (op : Nat → S → Int × S) : List Nat → S → Int × S
  | [], state => (0, state)
  | k :: rest, state =>
    let called := op k state
    if called.1 = 0 then runUntil op rest called.2 else called

theorem runUntil_append (op : Nat → S → Int × S) (first second : List Nat) (state : S) :
    runUntil op (first ++ second) state =
      if (runUntil op first state).1 = 0 then runUntil op second (runUntil op first state).2
      else runUntil op first state := by
  induction first generalizing state with
  | nil => simp [runUntil]
  | cons k rest ih => grind [runUntil]

end Run

section Bits

/-- `x & (x - 1)` clears the lowest one. -/
theorem testBit_and_sub_one {n c j : Nat} (lowest : n.testBit c = true) (before : ∀ i < c, n.testBit i = false) :
    (n &&& (n - 1)).testBit j = (decide (c < j) && n.testBit j) := by
  have low : n % 2 ^ (c + 1) = 2 ^ c := by
    refine eq_of_testBit_eq fun i => ?_
    grind
  have split := div_add_mod n (2 ^ (c + 1))
  rw [low] at split
  have pred : n - 1 = 2 ^ (c + 1) * (n / 2 ^ (c + 1)) + (2 ^ c - 1) := by
    omega
  rw [testBit_and, pred, testBit_two_pow_mul_add _ (by omega)]
  grind

end Bits

end IMBridge.Lib.Scan
