import Mathlib.Data.List.Range
import IMBridge.Palf.FixedSlidingWindow

/-!
No slot of the window is recycled while it is referenced, and none is lost: a slot passes from one id
to the next, in the order of the ids, when it has been slid and its last reference is gone.
-/

namespace IMBridge.Palf

open Nat Function List
/-- A call that has returned, as far as it matters later. A `get` that succeeded has returned the
index of a slot. -/
inductive WindowCall where
  | got (id idx : Nat)
  | failedGet (id : Nat)
  | reverted (id : Nat)
  | slid (ids : List Nat)
  | truncated (id : Nat)
  | wrote (id : Nat)
deriving DecidableEq

/-- The references to an id that are not yet reverted; calls stand newest first. -/
def outstanding : List WindowCall → Nat → Nat
  | [], _ => 0
  | .got g _ :: older, id => outstanding older id + if g = id then 1 else 0
  | .reverted r :: older, id => outstanding older id - if r = id then 1 else 0
  | .failedGet _ :: older, id => outstanding older id
  | .slid _ :: older, id => outstanding older id
  | .truncated _ :: older, id => outstanding older id
  | .wrote _ :: older, id => outstanding older id

def slidIds : List WindowCall → List Nat
  | [] => []
  | .slid ids :: older => slidIds older ++ ids
  | .got _ _ :: older => slidIds older
  | .failedGet _ :: older => slidIds older
  | .reverted _ :: older => slidIds older
  | .truncated _ :: older => slidIds older
  | .wrote _ :: older => slidIds older

namespace FixedSlidingWindow

variable {D : Type} {k : Nat}

/-- A call on the window. References are reverted once each, slots are written under a reference, and
nothing from the id on is referenced when it is truncated. -/
inductive Step (blank : D) (window : FixedSlidingWindow D k) (calls : List WindowCall) :
    WindowCall → FixedSlidingWindow D k → Prop
  | get (id : Nat) {idx : Fin (2 ^ k)} {next : FixedSlidingWindow D k}
      (returns : window.get blank id = (.ok idx, next)) : Step blank window calls (.got id idx) next
  | failedGet (id : Nat) {err : WindowError} {next : FixedSlidingWindow D k}
      (returns : window.get blank id = (.error err, next)) :
      Step blank window calls (.failedGet id) next
  | revert (id : Nat) (held : 0 < outstanding calls id) :
      Step blank window calls (.reverted id) (window.revert blank id).2
  | slide (conds : List SlidingCond) :
      Step blank window calls (.slid (window.slide blank conds).2.1) (window.slide blank conds).2.2
  | truncate (id : Nat) (free : ∀ other, id ≤ other → outstanding calls other = 0)
      {result : Except WindowError Unit} {next : FixedSlidingWindow D k}
      (returns : window.truncate blank id = some (result, next)) :
      Step blank window calls (.truncated id) next
  | write (id : Nat) (held : 0 < outstanding calls id) (data : D) :
      Step blank window calls (.wrote id) (window.write (calcIdx id) data)

inductive Run (blank : D) (start : Nat) : List WindowCall → FixedSlidingWindow D k → Prop
  | init : Run blank start [] (init blank start)
  | call {calls : List WindowCall} {call : WindowCall} {window next : FixedSlidingWindow D k}
      (run : Run blank start calls window) (step : window.Step blank calls call next) :
      Run blank start (call :: calls) next

/-- The ids that the slots stand for: those of the window and those before it whose slots are not yet
reclaimed. -/
def Stored (window : FixedSlidingWindow D k) (id : Nat) : Prop :=
  window.endSn ≤ id + 2 ^ k ∧ id < window.endSn

theorem calcIdx_eq_iff {id other : Nat} : (calcIdx id : Fin (2 ^ k)) = calcIdx other ↔ id % 2 ^ k = other % 2 ^ k := by
  simp only [calcIdx, Fin.mk.injEq, and_two_pow_sub_one_eq_mod]

theorem calcIdx_add_size (id : Nat) : (calcIdx (id + 2 ^ k) : Fin (2 ^ k)) = calcIdx id :=
  calcIdx_eq_iff.mpr (add_mod_right ..)

theorem calcIdx_succ (id : Nat) : (calcIdx ((calcIdx id : Fin (2 ^ k)) + 1) : Fin (2 ^ k)) = calcIdx (id + 1) := by
  rw [calcIdx_eq_iff]
  simp only [calcIdx, and_two_pow_sub_one_eq_mod]
  exact mod_add_mod ..

theorem eq_of_calcIdx_eq {id other : Nat} (below : id < other + 2 ^ k) (above : other < id + 2 ^ k)
    (same : (calcIdx id : Fin (2 ^ k)) = calcIdx other) : id = other := by
  rw [calcIdx_eq_iff] at same
  rcases Nat.le_total id other with le | le
  · have multiple := dvd_of_mod_eq_zero (sub_mod_eq_zero_of_mod_eq same.symm)
    have zero := eq_zero_of_dvd_of_lt multiple (by omega)
    omega
  · have multiple := dvd_of_mod_eq_zero (sub_mod_eq_zero_of_mod_eq same)
    have zero := eq_zero_of_dvd_of_lt multiple (by omega)
    omega

theorem Stored.eq_of_calcIdx {window : FixedSlidingWindow D k} {id other : Nat}
    (stored : window.Stored id) (stored' : window.Stored other)
    (same : (calcIdx id : Fin (2 ^ k)) = calcIdx other) : id = other :=
  eq_of_calcIdx_eq (stored.2.trans_le stored'.1) (stored'.2.trans_le stored.1) same

/-- What holds between the steps of the loops as well: a slot counts the references to the id that it
stands for, and there are no others. -/
structure Counted (blank : D) (calls : List WindowCall) (window : FixedSlidingWindow D k) :
    Prop where
  begin_le : window.beginSn ≤ window.endSn
  end_le : window.endSn ≤ window.beginSn + 2 ^ k
  refs : ∀ id, window.Stored id → (window.array (calcIdx id)).ref = outstanding calls id
  stored : ∀ id, 0 < outstanding calls id → window.Stored id
  unwritten : ∀ id, window.beginSn ≤ id → id < window.endSn → .wrote id ∉ calls →
    (window.array (calcIdx id)).data = blank

/-- While slots wait to be reclaimed, the first of them is still referenced. -/
def Pinned (calls : List WindowCall) (window : FixedSlidingWindow D k) : Prop :=
  window.endSn < window.beginSn + 2 ^ k →
    ∃ id, id + 2 ^ k = window.endSn ∧ 0 < outstanding calls id

def Keeps (calls : List WindowCall) (window next : FixedSlidingWindow D k) : Prop :=
  ∀ id, 0 < outstanding calls id →
    (next.array (calcIdx id)).data = (window.array (calcIdx id)).data

section Slots

variable {blank : D} {calls : List WindowCall} {window : FixedSlidingWindow D k} {id : Nat}

@[simp] theorem write_ref (idx other : Fin (2 ^ k)) (data : D) :
    ((window.write idx data).array other).ref = (window.array other).ref := by
  by_cases same : other = idx <;> simp [write, same]

@[simp] theorem addRef_data (idx other : Fin (2 ^ k)) (change : Int) :
    ((window.addRef idx change).array other).data = (window.array other).data := by
  by_cases same : other = idx <;> simp [addRef, same]

theorem write_of_ne {idx other : Fin (2 ^ k)} (ne : other ≠ idx) (data : D) :
    (window.write idx data).array other = window.array other := update_of_ne ne ..

namespace Counted

variable (counted : Counted blank calls window)
include counted

theorem stored_of_le (le : window.beginSn ≤ id) (lt : id < window.endSn) : window.Stored id :=
  ⟨counted.end_le.trans (Nat.add_le_add_right le _), lt⟩

theorem keeps_write (stored : window.Stored id) (free : outstanding calls id = 0) (data : D) :
    Keeps calls window (window.write (calcIdx id) data) := by
  intro other held
  rw [write_of_ne]
  intro same
  rw [(counted.stored other held).eq_of_calcIdx stored same, free] at held
  exact lt_irrefl _ held

theorem writeBlank (idx : Fin (2 ^ k)) : Counted blank calls (window.write idx blank) where
  begin_le := counted.begin_le
  end_le := counted.end_le
  refs other stored := by
    rw [write_ref]
    exact counted.refs other stored
  stored := counted.stored
  unwritten other le lt fresh := by
    by_cases same : calcIdx other = idx
    · simp [write, same]
    rw [write_of_ne same]
    exact counted.unwritten other le lt fresh

theorem reclaimSlot (oldest : id + 2 ^ k = window.endSn)
    (slid : id < window.beginSn) (free : outstanding calls id = 0) :
    Counted blank calls (window.reclaimSlot blank (calcIdx id)) := by
  have reset := counted.writeBlank (calcIdx id)
  have last : (calcIdx window.endSn : Fin (2 ^ k)) = calcIdx id := by
    rw [← oldest]
    exact calcIdx_add_size id
  refine ⟨?_, ?_, fun other stored => ?_, fun other held => ?_, fun other le lt fresh => ?_⟩
  · exact counted.begin_le.trans (le_succ _)
  · show window.endSn + 1 ≤ window.beginSn + 2 ^ k
    omega
  · obtain ⟨above, below⟩ : window.endSn + 1 ≤ other + 2 ^ k ∧ other < window.endSn + 1 := stored
    rcases eq_or_lt_of_le (le_of_lt_succ below) with rfl | inside
    · have notHeld : outstanding calls window.endSn = 0 := by
        by_contra held
        exact absurd (counted.stored _ (Nat.pos_of_ne_zero held)).2 (lt_irrefl _)
      rw [last, notHeld, ← free]
      exact reset.refs id (show window.Stored id from ⟨oldest.ge, by omega⟩)
    · exact reset.refs other (show window.Stored other from ⟨by omega, inside⟩)
  · obtain ⟨above, below⟩ := counted.stored other held
    have ne : other ≠ id := fun same => by rw [same, free] at held; exact lt_irrefl _ held
    exact ⟨show window.endSn + 1 ≤ other + 2 ^ k by omega, below.trans (lt_succ_self _)⟩
  · rcases eq_or_lt_of_le (le_of_lt_succ lt) with rfl | inside
    · rw [last]
      simp [FixedSlidingWindow.reclaimSlot, write]
    · exact reset.unwritten other le inside fresh

theorem keeps_reclaimSlot (oldest : id + 2 ^ k = window.endSn) (free : outstanding calls id = 0) :
    Keeps calls window (window.reclaimSlot blank (calcIdx id)) :=
  counted.keeps_write ⟨oldest.ge, by have := Nat.two_pow_pos k; omega⟩ free blank

end Counted

theorem Keeps.trans {next last : FixedSlidingWindow D k} (first : Keeps calls window next)
    (second : Keeps calls next last) : Keeps calls window last :=
  fun id held => (second id held).trans (first id held)

/-- The loop reclaims slots until it comes to `begin_sn_` or to a slot that is referenced. -/
theorem Counted.reclaim (rest : Nat) : ∀ {window : FixedSlidingWindow D k} {id : Nat}, Counted blank calls window →
      id + 2 ^ k = window.endSn → rest = window.beginSn - id →
      Counted blank calls (window.reclaim blank rest (calcIdx id)) ∧
      Pinned calls (window.reclaim blank rest (calcIdx id)) ∧
      Keeps calls window (window.reclaim blank rest (calcIdx id)) ∧
      (window.reclaim blank rest (calcIdx id)).beginSn = window.beginSn := by
  induction rest with
  | zero =>
    intro window id counted oldest none
    refine ⟨counted, fun waiting => ?_, fun _ _ => rfl, rfl⟩
    simp only [FixedSlidingWindow.reclaim] at waiting
    omega
  | succ rest ih =>
    intro window id counted oldest remaining
    have size_pos := Nat.two_pow_pos k
    have isStored : window.Stored id := ⟨oldest.ge, by omega⟩
    have last : (calcIdx id : Fin (2 ^ k)) = calcIdx window.endSn := by
      rw [← oldest]
      exact (calcIdx_add_size id).symm
    unfold FixedSlidingWindow.reclaim
    rw [counted.refs id isStored]
    split_ifs with free
    · have noRef : outstanding calls id = 0 := by exact_mod_cast free.2
      have next := counted.reclaimSlot oldest (by omega) noRef
      have keeps := counted.keeps_reclaimSlot oldest noRef
      obtain ⟨counted', pinned, keeps', same⟩ := ih next (show id + 1 + 2 ^ k = window.endSn + 1 by omega)
        (show rest = window.beginSn - (id + 1) by omega)
      rw [calcIdx_succ]
      exact ⟨counted', pinned, keeps.trans keeps', same⟩
    · refine ⟨counted, fun _ => ⟨id, oldest, ?_⟩, fun _ _ => rfl, rfl⟩
      omega

theorem Counted.addRef (counted : Counted blank calls window) (stored : window.Stored id)
    {calls' : List WindowCall} {change : Int}
    (self : (outstanding calls' id : Int) = outstanding calls id + change)
    (others : ∀ other, other ≠ id → outstanding calls' other = outstanding calls other)
    (wrote : ∀ other, .wrote other ∈ calls → .wrote other ∈ calls') :
    Counted blank calls' (window.addRef (calcIdx id) change) := by
  refine ⟨counted.begin_le, counted.end_le, fun other stored' => ?_, fun other held => ?_, fun other le lt fresh => ?_⟩
  · by_cases same : other = id
    · subst same
      simp only [FixedSlidingWindow.addRef, update_self]
      rw [self, counted.refs other stored]
    have ne : (calcIdx other : Fin (2 ^ k)) ≠ calcIdx id := fun idx => same (Stored.eq_of_calcIdx stored' stored idx)
    simp only [FixedSlidingWindow.addRef, update_of_ne ne]
    rw [others other same]
    exact counted.refs other stored'
  · by_cases same : other = id
    · rwa [same]
    · rw [others other same] at held
      exact counted.stored other held
  · rw [addRef_data]
    exact counted.unwritten other le lt (fun written => fresh (wrote other written))

theorem Counted.revertRef (counted : Counted blank calls window) (held : 0 < outstanding calls id) :
    Counted blank (.reverted id :: calls) (window.addRef (calcIdx id) (-1)) := by
  apply counted.addRef (counted.stored id held)
  · simp only [outstanding, if_true]
    omega
  · intro other ne
    simp [outstanding, ne.symm]
  · exact fun other written => mem_cons_of_mem _ written

theorem keeps_addRef (idx : Fin (2 ^ k)) (change : Int) : Keeps calls window (window.addRef idx change) :=
  fun _ _ => addRef_data ..

theorem Counted.slideSlot (counted : Counted blank calls window) (pinned : Pinned calls window)
    (nonempty : window.beginSn < window.endSn) :
    Counted blank calls (window.slideSlot blank) ∧ Pinned calls (window.slideSlot blank) ∧
      Keeps calls window (window.slideSlot blank) ∧
      (window.slideSlot blank).beginSn = window.beginSn + 1 := by
  have isStored : window.Stored window.beginSn := ⟨counted.end_le, nonempty⟩
  have slid : Counted blank calls { window with beginSn := window.beginSn + 1 } :=
    { begin_le := nonempty
      end_le := counted.end_le.trans (Nat.add_le_add_right (le_succ _) _)
      refs := counted.refs
      stored := counted.stored
      unwritten := fun id le => counted.unwritten id ((le_succ _).trans le) }
  unfold FixedSlidingWindow.slideSlot
  dsimp only
  rw [counted.refs _ isStored]
  split_ifs with free
  · have noRef : outstanding calls window.beginSn = 0 := by exact_mod_cast free.1
    -- the end has the slot of `begin_sn_` only if the window is full
    have full : window.beginSn + 2 ^ k = window.endSn := by
      have same := free.2
      rw [← calcIdx_add_size window.beginSn] at same
      have end_le := counted.end_le
      exact (eq_of_calcIdx_eq (by omega) (by omega) same).symm
    refine ⟨slid.reclaimSlot full (lt_succ_self _) noRef, fun waiting => ?_, slid.keeps_reclaimSlot full noRef, rfl⟩
    simp only [FixedSlidingWindow.reclaimSlot, FixedSlidingWindow.write] at waiting
    omega
  · refine ⟨slid, fun _ => ?_, fun _ _ => rfl, rfl⟩
    rcases counted.end_le.lt_or_eq with waiting | full
    · exact pinned waiting
    refine ⟨window.beginSn, full.symm, ?_⟩
    by_contra noRef
    refine free ⟨by exact_mod_cast Nat.eq_zero_of_not_pos noRef, ?_⟩
    rw [full]
    exact calcIdx_add_size _

theorem Counted.slide (conds : List SlidingCond) :
    ∀ {window : FixedSlidingWindow D k}, Counted blank calls window → Pinned calls window →
      Counted blank calls (window.slide blank conds).2.2 ∧
      Pinned calls (window.slide blank conds).2.2 ∧
      Keeps calls window (window.slide blank conds).2.2 ∧
      (window.slide blank conds).2.2.beginSn = window.beginSn + (window.slide blank conds).2.1.length ∧
      (window.slide blank conds).2.1 = range' window.beginSn (window.slide blank conds).2.1.length := by
  induction conds with
  | nil => exact fun counted pinned => ⟨counted, pinned, fun _ _ => rfl, rfl, rfl⟩
  | cons cond conds ih =>
    intro window counted pinned
    unfold FixedSlidingWindow.slide
    split_ifs with empty
    · exact ih counted pinned
    cases cond with
    | blocked => exact ⟨counted, pinned, fun _ _ => rfl, rfl, rfl⟩
    | failed code => exact ⟨counted, pinned, fun _ _ => rfl, rfl, rfl⟩
    | passed =>
      obtain ⟨counted', pinned', keeps, begin'⟩ := counted.slideSlot pinned (not_le.mp empty)
      obtain ⟨counted'', pinned'', keeps', begin'', ids⟩ := ih counted' pinned'
      refine ⟨counted'', pinned'', keeps.trans keeps', ?_, ?_⟩
      · grind
      · dsimp only [length_cons]
        rw [range'_succ, ← begin', ← ids]

theorem Counted.rangeTruncate (count : Nat) :
    ∀ {window next : FixedSlidingWindow D k} (id : Nat), Counted blank calls window →
      window.beginSn ≤ id → id + count = window.endSn →
      (∀ other, id ≤ other → outstanding calls other = 0) →
      window.rangeTruncate blank id count = some next →
      Counted blank calls next ∧ Keeps calls window next ∧ next.beginSn = window.beginSn ∧
        next.endSn = window.endSn := by
  induction count with
  | zero =>
    intro window next id counted _ _ _ done
    cases done
    exact ⟨counted, fun _ _ => rfl, rfl, rfl⟩
  | succ count ih =>
    intro window next id counted le reaches free done
    have isStored := counted.stored_of_le le (by omega)
    unfold FixedSlidingWindow.rangeTruncate at done
    rw [if_neg (by rw [counted.refs id isStored, free id le_rfl]; simp)] at done
    obtain ⟨counted', keeps, begin', end'⟩ := ih (id + 1) (counted.writeBlank (calcIdx id))
      (le.trans (le_succ _)) (show id + 1 + count = window.endSn by omega)
      (fun other above => free other (by omega)) done
    exact ⟨counted', (counted.keeps_write isStored (free id le_rfl) blank).trans keeps, begin', end'⟩

end Slots

structure Sound (blank : D) (start : Nat) (calls : List WindowCall)
    (window : FixedSlidingWindow D k) : Prop extends Counted blank calls window where
  pinned : Pinned calls window
  start_le : start ≤ window.beginSn
  slid : slidIds calls = range' start (window.beginSn - start)

section Calls

variable {blank : D} {start : Nat} {calls : List WindowCall} {window next : FixedSlidingWindow D k}
  {id : Nat}

theorem sound_init : Sound blank start [] (init blank start : FixedSlidingWindow D k) where
  begin_le := Nat.le_add_right ..
  end_le := le_rfl
  refs _ _ := rfl
  stored _ held := absurd held (lt_irrefl _)
  unwritten _ _ _ _ := rfl
  pinned waiting := absurd waiting (lt_irrefl _)
  start_le := le_rfl
  slid := by simp [slidIds, init]

theorem Counted.relabel (counted : Counted blank calls window) {call : WindowCall}
    (same : outstanding (call :: calls) = outstanding calls) :
    Counted blank (call :: calls) window where
  begin_le := counted.begin_le
  end_le := counted.end_le
  refs := same ▸ counted.refs
  stored := same ▸ counted.stored
  unwritten other le lt fresh := counted.unwritten other le lt (fun written => fresh (mem_cons_of_mem _ written))

theorem checkIdInRange_eq_ok : window.checkIdInRange id = .ok () ↔ window.beginSn ≤ id ∧ id < window.endSn := by
  unfold checkIdInRange
  grind

/-- `get` takes a reference if the id is in the window; the second check passes. -/
theorem get_cases (blank : D) (window : FixedSlidingWindow D k) (id : Nat) : (window.checkIdInRange id = .ok () ∧
      window.get blank id = (.ok (calcIdx id), window.addRef (calcIdx id) 1)) ∨
    ∃ err, window.get blank id = (.error err, window) := by
  unfold FixedSlidingWindow.get
  cases range : window.checkIdInRange id with
  | error err => exact .inr ⟨err, rfl⟩
  | ok inRange =>
    have again : (window.addRef (calcIdx id) 1).checkIdInRange id = .ok () := range
    grind

section

variable (sound : Sound blank start calls window)
include sound

theorem Sound.get (inRange : window.checkIdInRange id = .ok ()) :
    Sound blank start (.got id (calcIdx id : Fin (2 ^ k)) :: calls) (window.addRef (calcIdx id) 1) := by
  obtain ⟨le, lt⟩ := checkIdInRange_eq_ok.mp inRange
  have stored := sound.stored_of_le le lt
  exact
    { toCounted := by
        apply sound.toCounted.addRef stored
        · simp [outstanding]
        · intro other ne
          simp [outstanding, ne.symm]
        simp
      pinned := fun waiting => by
        obtain ⟨oldest, isOldest, held⟩ := sound.pinned waiting
        exact ⟨oldest, isOldest, held.trans_le (Nat.le_add_right ..)⟩
      start_le := sound.start_le
      slid := sound.slid }

theorem Sound.revert (held : 0 < outstanding calls id) : (window.revert blank id).1 = .ok () ∧
      Sound blank start (.reverted id :: calls) (window.revert blank id).2 ∧
      Keeps (.reverted id :: calls) window (window.revert blank id).2 := by
  have stored := sound.stored id held
  have reverted : Counted blank (.reverted id :: calls) (window.addRef (calcIdx id) (-1)) :=
    sound.toCounted.revertRef held
  have keeps : Keeps (.reverted id :: calls) window (window.addRef (calcIdx id) (-1)) := keeps_addRef _ _
  have ref := reverted.refs id stored
  have lower : ¬(id : Int) < window.beginSn - 2 ^ k := by
    have le := sound.begin_le.trans stored.1
    push_cast [← Int.ofNat_le] at le
    omega
  unfold FixedSlidingWindow.revert FixedSlidingWindow.revertSlot
  rw [if_neg lower, if_neg (not_le.mpr stored.2)]
  dsimp only
  rw [ref, if_neg (by omega)]
  split_ifs with last
  · by_cases oldest : id + 2 ^ k = window.endSn
    · obtain ⟨counted, pinned, keeps', same⟩ := Counted.reclaim _ reverted oldest rfl
      refine ⟨rfl, ⟨counted, pinned, ?_, ?_⟩, keeps.trans keeps'⟩
      · exact same.symm ▸ sound.start_le
      · rw [same]
        exact sound.slid
    · have stop : (window.addRef (calcIdx id) (-1)).reclaim blank
          ((window.addRef (calcIdx id) (-1)).beginSn - id) (calcIdx id) = window.addRef (calcIdx id) (-1) := by
        cases (window.addRef (calcIdx id) (-1)).beginSn - id with
        | zero => rfl
        | succ rest =>
          unfold FixedSlidingWindow.reclaim
          refine if_neg (fun free => oldest ?_)
          have same := free.1
          rw [← calcIdx_add_size id] at same
          obtain ⟨above, below⟩ := stored
          exact eq_of_calcIdx_eq (show id + 2 ^ k < window.endSn + 2 ^ k by omega)
            (show window.endSn < id + 2 ^ k + 2 ^ k by omega) same
      rw [stop]
      refine ⟨rfl, ⟨reverted, fun waiting => ?_, sound.start_le, sound.slid⟩, keeps⟩
      obtain ⟨other, isOldest, held⟩ := sound.pinned waiting
      have ne : id ≠ other := fun same => oldest (same ▸ isOldest)
      exact ⟨other, isOldest, by simpa [outstanding, ne] using held⟩
  · refine ⟨rfl, ⟨reverted, fun waiting => ?_, sound.start_le, sound.slid⟩, keeps⟩
    obtain ⟨other, isOldest, held⟩ := sound.pinned waiting
    refine ⟨other, isOldest, ?_⟩
    by_cases same : id = other
    · subst same
      omega
    · simpa [outstanding, same] using held

theorem Sound.slide (conds : List SlidingCond) : Sound blank start (.slid (window.slide blank conds).2.1 :: calls)
        (window.slide blank conds).2.2 ∧
      Keeps calls window (window.slide blank conds).2.2 := by
  obtain ⟨counted, pinned, keeps, begin', ids⟩ := Counted.slide conds sound.toCounted sound.pinned
  refine ⟨⟨counted.relabel rfl, pinned, ?_, ?_⟩, keeps⟩
  · rw [begin']
    exact sound.start_le.trans (Nat.le_add_right ..)
  · show slidIds calls ++ (window.slide blank conds).2.1 = _
    have start_le := sound.start_le
    have first : window.beginSn = start + 1 * (window.beginSn - start) := by omega
    calc slidIds calls ++ (window.slide blank conds).2.1
        = range' start (window.beginSn - start) ++ range' (start + 1 * (window.beginSn - start))
              (window.slide blank conds).2.1.length := by
          rw [sound.slid, ← first, ← ids]
      _ = range' start (window.beginSn - start + (window.slide blank conds).2.1.length) := range'_append
      _ = range' start ((window.slide blank conds).2.2.beginSn - start) := by
          rw [begin', Nat.sub_add_comm start_le]

theorem Sound.truncate (free : ∀ other, id ≤ other → outstanding calls other = 0)
    {result : Except WindowError Unit} (returns : window.truncate blank id = some (result, next)) :
    Sound blank start (.truncated id :: calls) next ∧ Keeps calls window next := by
  have unchanged : Sound blank start (.truncated id :: calls) window :=
    ⟨sound.toCounted.relabel rfl, sound.pinned, sound.start_le, sound.slid⟩
  unfold FixedSlidingWindow.truncate at returns
  cases range : window.checkIdInRange id with
  | error err =>
    rw [range] at returns
    cases err <;> cases returns <;> exact ⟨unchanged, fun _ _ => rfl⟩
  | ok inRange =>
    rw [range] at returns
    obtain ⟨last, done, pair⟩ := Option.map_eq_some_iff.mp returns
    cases pair
    obtain ⟨le, lt⟩ := checkIdInRange_eq_ok.mp range
    obtain ⟨counted, keeps, begin', end'⟩ := Counted.rangeTruncate _ id sound.toCounted le (by omega) free done
    refine ⟨⟨counted.relabel rfl, ?_, ?_, ?_⟩, keeps⟩
    · intro waiting
      rw [begin', end'] at waiting
      rw [end']
      exact sound.pinned waiting
    · exact begin'.symm ▸ sound.start_le
    · rw [begin']
      exact sound.slid

end

theorem Counted.write (counted : Counted blank calls window) (held : 0 < outstanding calls id)
    (data : D) : Counted blank (.wrote id :: calls) (window.write (calcIdx id) data) where
  begin_le := counted.begin_le
  end_le := counted.end_le
  refs other stored := by
    rw [write_ref]
    exact counted.refs other stored
  stored := counted.stored
  unwritten other le lt fresh := by
    rw [write_of_ne fun same => fresh (by
      rw [(counted.stored_of_le le lt).eq_of_calcIdx (counted.stored id held) same]
      exact mem_cons_self)]
    exact counted.unwritten other le lt (fun written => fresh (mem_cons_of_mem _ written))

theorem Sound.write (sound : Sound blank start calls window) (held : 0 < outstanding calls id)
    (data : D) : Sound blank start (.wrote id :: calls) (window.write (calcIdx id) data) where
  toCounted := sound.toCounted.write held data
  pinned := sound.pinned
  start_le := sound.start_le
  slid := sound.slid

/-- What a call does: the invariant stays, and a slot that is referenced before and after is only
changed by writing to it. -/
theorem Sound.step (sound : Sound blank start calls window) {call : WindowCall}
    (step : window.Step blank calls call next) :
    Sound blank start (call :: calls) next ∧ ∀ id, call ≠ .wrote id → 0 < outstanding calls id →
      0 < outstanding (call :: calls) id →
      (next.array (calcIdx id)).data = (window.array (calcIdx id)).data := by
  cases step with
  | get got returns =>
    rcases get_cases blank window got with ⟨range, get⟩ | ⟨err, get⟩
    · rw [get] at returns
      cases returns
      exact ⟨sound.get range, fun id _ held _ => keeps_addRef _ _ id held⟩
    · rw [get] at returns
      cases returns
  | failedGet got returns =>
    rcases get_cases blank window got with ⟨range, get⟩ | ⟨err, get⟩
    · rw [get] at returns
      cases returns
    rw [get] at returns
    cases returns
    exact ⟨⟨sound.toCounted.relabel rfl, sound.pinned, sound.start_le, sound.slid⟩, fun _ _ _ _ => rfl⟩
  | revert id held =>
    obtain ⟨-, sound', keeps⟩ := sound.revert held
    exact ⟨sound', fun id _ _ held' => keeps id held'⟩
  | slide conds =>
    obtain ⟨sound', keeps⟩ := sound.slide conds
    exact ⟨sound', fun id _ held _ => keeps id held⟩
  | truncate id free returns =>
    obtain ⟨sound', keeps⟩ := sound.truncate free returns
    exact ⟨sound', fun id _ held _ => keeps id held⟩
  | write written held data =>
    refine ⟨sound.write held data, fun id other held' _ => ?_⟩
    rw [write_of_ne fun same => other (by
      rw [(sound.stored id held').eq_of_calcIdx (sound.stored written held) same])]

theorem Run.sound (run : Run blank start calls window) : Sound blank start calls window := by
  induction run with
  | init => exact sound_init
  | call _ step ih => exact (ih.step step).1

theorem Run.returned (run : Run blank start calls window) {idx : Nat} (got : .got id idx ∈ calls) :
    idx = (calcIdx id : Fin (2 ^ k)) := by
  induction run with
  | init => cases got
  | @call calls call window next _ step ih =>
    rcases mem_cons.mp got with rfl | earlier
    · cases step with
      | get _ returns =>
        rcases get_cases blank window id with ⟨-, get⟩ | ⟨err, get⟩
        · rw [get] at returns
          cases returns
          rfl
        · rw [get] at returns
          cases returns
    · exact ih earlier

structure SlotsSafe (blank : D) (start : Nat) (calls : List WindowCall)
    (window : FixedSlidingWindow D k) : Prop where
  begin_le : window.beginSn ≤ window.endSn
  end_le : window.endSn ≤ window.beginSn + 2 ^ k
  /-- the slot that `get` returned is the one the other clauses are about -/
  returned : ∀ id idx : Nat, .got id idx ∈ calls → idx = (calcIdx id : Fin (2 ^ k))
  /-- the slot of a referenced id is that of no other id which is referenced or could be -/
  separate : ∀ id, 0 < outstanding calls id →
    ∀ other, 0 < outstanding calls other ∨ window.checkIdInRange other = .ok () →
      (calcIdx other : Fin (2 ^ k)) = calcIdx id → other = id
  /-- no further call resets it -/
  keeps : ∀ call next, window.Step blank calls call next → ∀ id, call ≠ .wrote id →
    0 < outstanding calls id → 0 < outstanding (call :: calls) id →
    (next.array (calcIdx id)).data = (window.array (calcIdx id)).data
  reverts : ∀ id, 0 < outstanding calls id → (window.revert blank id).1 = .ok ()
  slid : slidIds calls = range' start (window.beginSn - start)
  drained : (∀ id, outstanding calls id = 0) → window.endSn = window.beginSn + 2 ^ k ∧
    ∀ id, window.beginSn ≤ id → id < window.endSn → .wrote id ∉ calls →
      window.array (calcIdx id) = ⟨0, blank⟩

theorem Sound.end_eq (sound : Sound blank start calls window)
    (free : ∀ id, outstanding calls id = 0) : window.endSn = window.beginSn + 2 ^ k := by
  rcases sound.end_le.lt_or_eq with waiting | full
  · obtain ⟨oldest, -, held⟩ := sound.pinned waiting
    rw [free] at held
    exact absurd held (lt_irrefl _)
  · exact full

theorem run_slotsSafe (run : Run blank start calls window) : SlotsSafe blank start calls window where
  begin_le := run.sound.begin_le
  end_le := run.sound.end_le
  returned _ _ got := run.returned got
  separate id held other available same := by
    have stored : window.Stored other := by
      rcases available with held' | range
      · exact run.sound.stored other held'
      · obtain ⟨le, lt⟩ := checkIdInRange_eq_ok.mp range
        exact run.sound.stored_of_le le lt
    exact stored.eq_of_calcIdx (run.sound.stored id held) same
  keeps call next step := (run.sound.step step).2
  reverts id held := (run.sound.revert held).1
  slid := run.sound.slid
  drained free := by
    refine ⟨run.sound.end_eq free, fun id le lt fresh => ?_⟩
    have ref := run.sound.refs id (run.sound.stored_of_le le lt)
    have data := run.sound.unwritten id le lt fresh
    rw [free] at ref
    cases slot : window.array (calcIdx id)
    simp_all

end Calls

/-- Of two slots, the first is slid while it is referenced, so that it can be reclaimed only when the
reference is reverted, after the second one. -/
theorem outOfOrder_slotsSafe : ∃ calls, ∃ window : FixedSlidingWindow Nat 1,
    Run 0 5 calls window ∧ window.beginSn = 7 ∧ window.endSn = 9 ∧ SlotsSafe 0 5 calls window := by
  have run : Run 0 5 _ _ :=
    ((((Run.init (D := Nat) (k := 1)).call (.get 5 rfl)).call (.get 6 rfl)).call
      (.slide [.passed, .passed])).call (.revert 6 (by decide))
  have last := run.call (.revert 5 (by decide))
  exact ⟨_, _, last, rfl, rfl, run_slotsSafe last⟩

end FixedSlidingWindow

end IMBridge.Palf
