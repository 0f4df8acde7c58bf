import Mathlib.Data.Nat.Bitwise

/-!
`FixedSlidingWindow`: an array of `2 ^ k` slots for the ids from `begin_sn_` up to `end_sn_`, with
reference counts. A call that returns is one step. Sequence numbers are natural numbers: they are
not negative, and no sum of an id and the size overflows.
-/

namespace IMBridge.Palf

inductive WindowError where
  | outOfLowerBound
  | outOfUpperBound
  | errUnexpected
  | invalidArgument
  | callback (code : Int)
deriving DecidableEq, Repr

/-- `FixedSlidingWindowSlot` with the fields of the derived type, which `reset` makes `blank`. -/
structure WindowSlot (D : Type) where
  ref : Int
  data : D

/-- An initialized window of `2 ^ k` slots. -/
structure FixedSlidingWindow (D : Type) (k : Nat) where
  beginSn : Nat
  endSn : Nat
  array : Fin (2 ^ k) → WindowSlot D

inductive SlidingCond where
  | blocked
  | failed (code : Int)
  | passed
deriving DecidableEq, Repr

namespace FixedSlidingWindow

variable {D : Type} {k : Nat}

def calcIdx (logId : Nat) : Fin (2 ^ k) := ⟨logId &&& (2 ^ k - 1),
    (Nat.and_le_right).trans_lt (Nat.sub_lt (Nat.two_pow_pos k) Nat.one_pos)⟩

def init (blank : D) (startId : Nat) : FixedSlidingWindow D k where
  beginSn := startId
  endSn := startId + 2 ^ k
  array _ := ⟨0, blank⟩

variable (window : FixedSlidingWindow D k)

def checkIdInRange (id : Nat) : Except WindowError Unit :=
  if id < window.beginSn then .error .outOfLowerBound
  else if id ≥ window.endSn then .error .outOfUpperBound
  else .ok ()

def addRef (idx : Fin (2 ^ k)) (change : Int) :
    FixedSlidingWindow D k :=
  { window with
    array := Function.update window.array idx
      { window.array idx with ref := (window.array idx).ref + change } }

/-- Stores to a slot; only the holder of a reference does so, apart from `reset`. -/
def write (idx : Fin (2 ^ k)) (data : D) :
    FixedSlidingWindow D k :=
  { window with array := Function.update window.array idx { window.array idx with data } }

variable (blank : D)

/-- Gives the slot of `end_sn_` to that id: the slot is reset before `end_sn_` grows. -/
def reclaimSlot (window : FixedSlidingWindow D k) (idx : Fin (2 ^ k)) :
    FixedSlidingWindow D k :=
  { window.write idx blank with endSn := window.endSn + 1 }

/-- The loop of `revert_` over neighbouring slots; `rest` is `begin_sn_ - tmp_id`. -/
def reclaim (blank : D) : Nat → FixedSlidingWindow D k → Fin (2 ^ k) → FixedSlidingWindow D k
  | 0, window, _ => window
  | rest + 1, window, idx =>
    if idx = calcIdx window.endSn ∧ (window.array idx).ref = 0 then
      reclaim blank rest (window.reclaimSlot blank idx) (calcIdx (idx + 1))
    else window

section

variable (window : FixedSlidingWindow D k)

def revertSlot (rId : Nat) :
    Except WindowError Unit × FixedSlidingWindow D k :=
  if rId ≥ window.endSn then (.error .errUnexpected, window)
  else
    let idx := calcIdx rId
    let window := window.addRef idx (-1)
    if 0 > (window.array idx).ref then (.error .errUnexpected, window)
    else if (window.array idx).ref = 0 then
      (.ok (), window.reclaim blank (window.beginSn - rId) idx)
    else (.ok (), window)

def revert (rId : Nat) :
    Except WindowError Unit × FixedSlidingWindow D k :=
  if (rId : Int) < window.beginSn - 2 ^ k then (.error .errUnexpected, window)
  else window.revertSlot blank rId

def get (gId : Nat) :
    Except WindowError (Fin (2 ^ k)) × FixedSlidingWindow D k :=
  match window.checkIdInRange gId with
  | .error err => (.error err, window)
  | .ok () =>
    let counted := window.addRef (calcIdx gId) 1
    match counted.checkIdInRange gId with
    | .ok () => (.ok (calcIdx gId), counted)
    | .error _ =>
      match counted.revertSlot blank gId with
      | (.ok (), reverted) => (.error .outOfLowerBound, reverted)
      | (.error err, reverted) => (.error err, reverted)

/-- `slide` past the slot of `begin_sn_`, which is reclaimed at once if the window is full. -/
def slideSlot : FixedSlidingWindow D k :=
  let idx := calcIdx window.beginSn
  let slid := { window with beginSn := window.beginSn + 1 }
  if (slid.array idx).ref = 0 ∧ calcIdx slid.endSn = idx then slid.reclaimSlot blank idx else slid

end

/-- `slide`, with the ids that it slid in order. There is a round for each condition given, and then
time is up; a round finds nothing to slide while the window is empty. -/
def slide (blank : D) : FixedSlidingWindow D k → List SlidingCond →
      Except WindowError Unit × List Nat × FixedSlidingWindow D k
  | window, [] => (.ok (), [], window)
  | window, cond :: conds =>
    if window.endSn ≤ window.beginSn then slide blank window conds
    else
      match cond with
      | .blocked => (.ok (), [], window)
      | .failed code => (.error (.callback code), [], window)
      | .passed =>
        let rest := slide blank (window.slideSlot blank) conds
        (rest.1, window.beginSn :: rest.2.1, rest.2.2)

/-- `range_truncate_` of so many ids from the given one on; `none` if it waits for a reference. -/
def rangeTruncate (blank : D) : FixedSlidingWindow D k → Nat → Nat → Option (FixedSlidingWindow D k)
  | window, _, 0 => some window
  | window, tid, count + 1 =>
    if (window.array (calcIdx tid)).ref ≠ 0 then none
    else rangeTruncate blank (window.write (calcIdx tid) blank) (tid + 1) count

def truncate (window : FixedSlidingWindow D k) (tId : Nat) :
    Option (Except WindowError Unit × FixedSlidingWindow D k) :=
  match window.checkIdInRange tId with
  | .error .outOfUpperBound => some (.ok (), window)
  | .error _ => some (.error .errUnexpected, window)
  | .ok () => (rangeTruncate blank window tId (window.endSn - tId)).map (fun last => (.ok (), last))

def jumpCount (tId : Nat) : Nat :=
  match window.checkIdInRange tId with
  | .error _ => window.endSn - window.beginSn
  | .ok () => tId - window.beginSn

def resetBeginSn (tId : Nat) : FixedSlidingWindow D k :=
  { window with beginSn := tId, endSn := tId + 2 ^ k }

/-- `truncate_and_reset_begin_sn`, if no other thread does anything meanwhile. Ids are natural
numbers here: that `t_id + size_` overflows an `int64_t` for an id near the end of its range is
outside the model. -/
def truncateAndResetBeginSn (window : FixedSlidingWindow D k) (tId : Nat) :
    Option (Except WindowError Unit × FixedSlidingWindow D k) :=
  if tId < window.beginSn then some (.error .invalidArgument, window)
  else if (calcIdx window.beginSn : Fin (2 ^ k)) ≠ calcIdx window.endSn then
    some (.error .errUnexpected, window)
  else
    (rangeTruncate blank window window.beginSn (window.jumpCount tId)).map fun last =>
      (.ok (), last.resetBeginSn tId)

end FixedSlidingWindow

end IMBridge.Palf
