import IMBridge.Palf.SlotSafety

/-!
`truncate_and_reset_begin_sn` moves the window forward to a given id. It holds the window's write
lock, but references are reverted and slots written under them without that lock.
-/

namespace IMBridge.Palf.FixedSlidingWindow

variable {D : Type} {k : Nat}

inductive Meanwhile (blank : D) : List WindowCall → FixedSlidingWindow D k →
    List WindowCall → FixedSlidingWindow D k → Prop
  | nothing {calls : List WindowCall} {window : FixedSlidingWindow D k} :
      Meanwhile blank calls window calls window
  | revert {calls calls' : List WindowCall} {window next : FixedSlidingWindow D k} (id : Nat)
      (held : 0 < outstanding calls id)
      (rest : Meanwhile blank (.reverted id :: calls) (window.revert blank id).2 calls' next) :
      Meanwhile blank calls window calls' next
  | write {calls calls' : List WindowCall} {window next : FixedSlidingWindow D k} (id : Nat)
      (held : 0 < outstanding calls id) (data : D)
      (rest : Meanwhile blank (.wrote id :: calls) (window.write (calcIdx id) data) calls' next) :
      Meanwhile blank calls window calls' next

/-- `range_truncate_` of `count` ids from `tid` on, with what other threads do meanwhile: it waits
until a slot is not referenced and resets it. -/
inductive RangeTruncates (blank : D) : List WindowCall → FixedSlidingWindow D k → Nat → Nat →
    List WindowCall → FixedSlidingWindow D k → Prop
  | done {calls calls' : List WindowCall} {window next : FixedSlidingWindow D k} {tid : Nat}
      (others : Meanwhile blank calls window calls' next) :
      RangeTruncates blank calls window tid 0 calls' next
  | reset {calls calls₁ calls' : List WindowCall} {window window₁ next : FixedSlidingWindow D k}
      {tid count : Nat} (others : Meanwhile blank calls window calls₁ window₁)
      (free : (window₁.array (calcIdx tid)).ref = 0)
      (rest : RangeTruncates blank calls₁ (window₁.write (calcIdx tid) blank) (tid + 1) count
        calls' next) :
      RangeTruncates blank calls window tid (count + 1) calls' next

/-- A call of `truncate_and_reset_begin_sn` that returns `OB_SUCCESS`. -/
inductive Jumps (blank : D) (calls : List WindowCall) (window : FixedSlidingWindow D k)
    (tId : Nat) : List WindowCall → FixedSlidingWindow D k → Prop
  | mk {calls₁ calls' : List WindowCall} {window₁ last : FixedSlidingWindow D k}
      (above : window.beginSn ≤ tId)
      (wrapped : (calcIdx window.beginSn : Fin (2 ^ k)) = calcIdx window.endSn)
      (others : Meanwhile blank calls window calls₁ window₁)
      (truncates : RangeTruncates blank calls₁ window₁ window₁.beginSn (window₁.jumpCount tId)
        calls' last) :
      Jumps blank calls window tId calls' (last.resetBeginSn tId)

/-- What the window has to be after a jump: it starts at `tId`, slots that come to new ids are
reset, and no id that is left behind is referenced. -/
structure JumpSafe (blank : D) (window : FixedSlidingWindow D k) (tId : Nat)
    (calls' : List WindowCall) (next : FixedSlidingWindow D k) : Prop where
  begin_eq : next.beginSn = tId
  end_eq : next.endSn = tId + 2 ^ k
  reset : ∀ id, tId ≤ id → id < tId + 2 ^ k → ¬ (window.beginSn ≤ id ∧ id < window.endSn) →
    next.array (calcIdx id) = ⟨0, blank⟩
  reverted : ∀ id, id < tId → outstanding calls' id = 0

section

variable {blank : D} {calls calls' : List WindowCall} {window next : FixedSlidingWindow D k}

/-! A call with no other thread around is one of these. -/

theorem RangeTruncates.of_rangeTruncate (count : Nat) : ∀ {window : FixedSlidingWindow D k} (tid : Nat),
      window.rangeTruncate blank tid count = some next →
      RangeTruncates blank calls window tid count calls next := by
  induction count with
  | zero =>
    intro window tid done
    cases done
    exact .done .nothing
  | succ count ih =>
    intro window tid done
    rw [rangeTruncate] at done
    split at done
    · cases done
    rename_i free
    exact .reset .nothing (not_not.mp free) (ih (tid + 1) done)

theorem Jumps.of_truncateAndResetBeginSn {tId : Nat}
    (returns : window.truncateAndResetBeginSn blank tId = some (.ok (), next)) :
    Jumps blank calls window tId calls next := by
  rw [truncateAndResetBeginSn] at returns
  split at returns
  · cases returns
  rename_i above
  split at returns
  · cases returns
  rename_i wrapped
  obtain ⟨last, done, made⟩ := Option.map_eq_some_iff.mp returns
  cases made
  exact .mk (Nat.not_lt.mp above) (not_not.mp wrapped) .nothing (.of_rangeTruncate _ _ done)

/-! In a full window no slot waits to be reclaimed, so that a revert only counts. -/

/-- The loop has reset the slots from `begin_sn_` up to `tid` of a full window. -/
structure Clearing (blank : D) (calls : List WindowCall) (window : FixedSlidingWindow D k)
    (tid : Nat) : Prop extends Counted blank calls window where
  full : window.endSn = window.beginSn + 2 ^ k
  tid_le : tid ≤ window.endSn
  cleared : ∀ id, window.beginSn ≤ id → id < tid →
    outstanding calls id = 0 ∧ (window.array (calcIdx id)).data = blank

variable {tid id : Nat}

section

variable (clearing : Clearing blank calls window tid)
include clearing

section

variable (held : 0 < outstanding calls id)
include held

theorem Clearing.begin_le_of_held : window.beginSn ≤ id := by
  have stored := (clearing.stored id held).1
  rw [clearing.full] at stored
  omega

theorem Clearing.revert_eq : (window.revert blank id).2 = window.addRef (calcIdx id) (-1) := by
  have stored := clearing.stored id held
  have above := clearing.begin_le_of_held held
  have size : (0 : Int) < 2 ^ k := by exact_mod_cast Nat.two_pow_pos k
  rw [FixedSlidingWindow.revert, if_neg (by omega), revertSlot, if_neg (Nat.not_le.mpr stored.2)]
  dsimp only
  split
  · rfl
  split
  · -- The loop of `revert_` has no round for an id that is not slid.
    rw [show (window.addRef (calcIdx id) (-1)).beginSn - id = 0 from Nat.sub_eq_zero_of_le above]
    rfl
  · rfl

theorem Clearing.revert : Clearing blank (.reverted id :: calls) (window.revert blank id).2 tid := by
  rw [clearing.revert_eq held]
  refine ⟨clearing.toCounted.revertRef held, clearing.full, clearing.tid_le, fun other le lt => ?_⟩
  obtain ⟨free, data⟩ := clearing.cleared other le lt
  have ne : id ≠ other := by
    rintro rfl
    omega
  exact ⟨by simp [outstanding, ne, free], by rw [addRef_data, data]⟩

end

theorem Clearing.stored_of_lt (le : window.beginSn ≤ id) (lt : id < window.endSn) : window.Stored id :=
  ⟨clearing.end_le.trans (Nat.add_le_add_right le _), lt⟩

theorem Clearing.write (held : 0 < outstanding calls id) (data : D) :
    Clearing blank (.wrote id :: calls) (window.write (calcIdx id) data) tid := by
  refine ⟨clearing.toCounted.write held data, clearing.full, clearing.tid_le, fun other le lt => ?_⟩
  obtain ⟨free, old⟩ := clearing.cleared other le lt
  -- A slot that has been reset is not the one of a referenced id.
  have stored := clearing.stored_of_lt le (lt.trans_le clearing.tid_le)
  have ne : (calcIdx other : Fin (2 ^ k)) ≠ calcIdx id := by
    intro same
    rw [stored.eq_of_calcIdx (clearing.stored id held) same] at free
    omega
  refine ⟨free, ?_⟩
  simp only [FixedSlidingWindow.write, Function.update_of_ne ne]
  exact old

theorem Clearing.reset (le : window.beginSn ≤ tid)
    (lt : tid < window.endSn) (free : (window.array (calcIdx tid)).ref = 0) :
    Clearing blank calls (window.write (calcIdx tid) blank) (tid + 1) := by
  refine ⟨clearing.toCounted.writeBlank _, clearing.full, lt, fun other le' lt' => ?_⟩
  by_cases same : other = tid
  · subst same
    have refs := clearing.refs other (clearing.stored_of_lt le lt)
    rw [free] at refs
    refine ⟨by exact_mod_cast refs.symm, ?_⟩
    simp [FixedSlidingWindow.write]
  · obtain ⟨unheld, data⟩ := clearing.cleared other le' (by omega)
    refine ⟨unheld, ?_⟩
    by_cases idx : (calcIdx other : Fin (2 ^ k)) = calcIdx tid
    · simp [FixedSlidingWindow.write, idx]
    simp only [FixedSlidingWindow.write, Function.update_of_ne idx]
    exact data

end

theorem Meanwhile.clearing (others : Meanwhile blank calls window calls' next) : Clearing blank calls window tid →
      Clearing blank calls' next tid ∧ next.beginSn = window.beginSn := by
  induction others with
  | nothing => exact fun clearing => ⟨clearing, rfl⟩
  | revert id held rest ih =>
    intro clearing
    obtain ⟨last, same⟩ := ih (clearing.revert held)
    refine ⟨last, ?_⟩
    rw [same, clearing.revert_eq held]
    rfl
  | write id held data rest ih => exact fun clearing => ih (clearing.write held data)

theorem RangeTruncates.clearing {count : Nat} (truncates : RangeTruncates blank calls window tid count calls' next) :
    Clearing blank calls window tid → window.beginSn ≤ tid → tid + count ≤ window.endSn →
      Clearing blank calls' next (tid + count) ∧ next.beginSn = window.beginSn := by
  induction truncates with
  | done others => exact fun clearing _ _ => others.clearing clearing
  | @reset calls calls₁ calls' window window₁ next tid count others free rest ih =>
    intro clearing le within
    obtain ⟨clearing₁, begin₁⟩ := others.clearing clearing
    have end₁ : window₁.endSn = window.endSn := by rw [clearing₁.full, begin₁, clearing.full]
    have round := clearing₁.reset (by omega) (by omega) free
    obtain ⟨last, same⟩ := ih round (show window₁.beginSn ≤ tid + 1 by omega)
      (show tid + 1 + count ≤ window₁.endSn by omega)
    refine ⟨?_, same.trans begin₁⟩
    grind

theorem begin_add_jumpCount {tId : Nat} (above : window.beginSn ≤ tId) (le : window.beginSn ≤ window.endSn) :
    window.beginSn + window.jumpCount tId = min tId window.endSn := by
  rw [jumpCount]
  split
  · rename_i outside
    have high : window.endSn ≤ tId := by
      by_contra low
      rw [checkIdInRange_eq_ok.mpr ⟨above, by omega⟩] at outside
      cases outside
    omega
  · rename_i inside
    have range := checkIdInRange_eq_ok.mp inside
    omega

theorem exists_id_calcIdx (first id : Nat) :
    ∃ other, first ≤ other ∧ other < first + 2 ^ k ∧ (calcIdx id : Fin (2 ^ k)) = calcIdx other := by
  have size := Nat.two_pow_pos k
  refine ⟨first + (id + 2 ^ k * first - first) % 2 ^ k, Nat.le_add_right .., ?_, ?_⟩
  · exact Nat.add_lt_add_left (Nat.mod_lt _ size) first
  · have le : first ≤ id + 2 ^ k * first := (Nat.le_mul_of_pos_left first size).trans (Nat.le_add_left ..)
    rw [calcIdx_eq_iff, Nat.add_mod_mod, Nat.add_sub_cancel' le, Nat.add_mul_mod_self_left]

theorem Clearing.jumpSafe {tId : Nat} {window' : FixedSlidingWindow D k}
    (clearing : Clearing blank calls' window' (min tId window'.endSn))
    (above : window.beginSn ≤ tId) (same : window'.beginSn = window.beginSn)
    (full : window.endSn = window.beginSn + 2 ^ k) :
    JumpSafe blank window tId calls' (window'.resetBeginSn tId) where
  begin_eq := rfl
  end_eq := rfl
  reset id le lt fresh := by
    obtain ⟨other, le', lt', idx⟩ := exists_id_calcIdx (k := k) window'.beginSn id
    have below : other < min tId window'.endSn := by
      rw [clearing.full]
      refine Nat.lt_min.mpr ⟨?_, lt'⟩
      -- Otherwise the id itself would have been in the window before.
      by_contra high
      have eq := eq_of_calcIdx_eq (by omega) (by omega) idx
      omega
    obtain ⟨free, data⟩ := clearing.cleared other le' below
    have refs := clearing.refs other (clearing.stored_of_lt le' (clearing.full ▸ lt'))
    show window'.array (calcIdx id) = ⟨0, blank⟩
    rw [idx]
    cases slot : window'.array (calcIdx other)
    rw [slot, free] at refs
    rw [slot] at data
    simpa using ⟨refs, data⟩
  reverted id lt := by
    by_contra held
    have stored := clearing.stored id (Nat.pos_of_ne_zero held)
    have low := clearing.begin_le_of_held (Nat.pos_of_ne_zero held)
    exact held (clearing.cleared id low (Nat.lt_min.mpr ⟨lt, stored.2⟩)).1

variable {start : Nat}

theorem Sound.clearing (sound : Sound blank start calls window)
    (full : window.endSn = window.beginSn + 2 ^ k) : Clearing blank calls window window.beginSn :=
  ⟨sound.toCounted, full, sound.begin_le, fun _ le lt => absurd lt (Nat.not_lt.mpr le)⟩

theorem Jumps.safe {tId : Nat} (jumps : Jumps blank calls window tId calls' next)
    (sound : Sound blank start calls window) (some_id : window.beginSn < window.endSn) :
    JumpSafe blank window tId calls' next := by
  cases jumps with
  | mk above wrapped others truncates =>
    rename_i calls₁ window₁ last
    -- The two ends have one index, so they are no id or the whole size apart.
    have full : window.endSn = window.beginSn + 2 ^ k := by
      by_contra short
      have lt := lt_of_le_of_ne sound.end_le short
      have eq := eq_of_calcIdx_eq (k := k) (by omega) (by omega) wrapped
      omega
    obtain ⟨clearing₁, begin₁⟩ := others.clearing (sound.clearing full)
    rw [← begin₁] at clearing₁
    have reach := begin_add_jumpCount (begin₁.symm ▸ above) clearing₁.begin_le
    obtain ⟨cleared, begin'⟩ := truncates.clearing clearing₁ le_rfl (reach.symm ▸ Nat.min_le_right ..)
    have end' : last.endSn = window₁.endSn := by rw [cleared.full, begin', clearing₁.full]
    rw [reach, ← end'] at cleared
    exact cleared.jumpSafe above (begin'.trans begin₁) full

/-- With all ids slid and the first of their slots still referenced, the two ends have the same
index as well, and the jump waits for nothing. -/
theorem exists_jump_of_empty {tId : Nat} (above : window.beginSn ≤ tId) (empty : window.beginSn = window.endSn) :
    Jumps blank calls window tId calls (window.resetBeginSn tId) := by
  have none_left : window.jumpCount tId = 0 := by
    have reach := begin_add_jumpCount above empty.le
    omega
  refine .mk above (by rw [empty]) .nothing ?_
  rw [none_left]
  exact .done .nothing

/-- After any calls, a jump of the window is safe exactly if the window was not empty. -/
theorem jumps_safe_iff (run : Run blank start calls window) (tId : Nat)
    (above : window.beginSn ≤ tId) :
    (∀ calls' next, Jumps blank calls window tId calls' next →
      JumpSafe blank window tId calls' next) ↔ window.beginSn < window.endSn := by
  constructor
  · intro safe
    by_contra notLess
    have empty : window.beginSn = window.endSn := le_antisymm run.sound.begin_le (by omega)
    have size := Nat.two_pow_pos k
    obtain ⟨id, oldest, held⟩ := run.sound.pinned (by omega)
    have reverted := (safe _ _ (exists_jump_of_empty above empty)).reverted id (by omega)
    omega
  · intro some_id calls' next jumps
    exact jumps.safe run.sound some_id

end

/-- A run that fills a window of two slots and leaves it full. -/
theorem jumps_safe_slid :
    ∃ calls, ∃ window : FixedSlidingWindow Nat 1, Run 0 5 calls window ∧ window.beginSn ≤ 7 ∧
      ((∀ calls' next, Jumps 0 calls window 7 calls' next → JumpSafe 0 window 7 calls' next) ↔
        window.beginSn < window.endSn) := by
  have run : Run 0 5 _ _ :=
    (((Run.init (D := Nat) (k := 1)).call (.get 5 rfl)).call (.slide [.passed])).call
      (.revert 5 (by decide))
  exact ⟨_, _, run, by decide, jumps_safe_iff run 7 (by decide)⟩

/-- Two slots, the first referenced and written: both ids are slid, and a jump to the next id
succeeds at once with the old contents and the old reference in the slot of the new id. -/
theorem stale_jump : ∃ calls, ∃ window next : FixedSlidingWindow Nat 1, Run 0 5 calls window ∧
      window.beginSn = 7 ∧ window.endSn = 7 ∧
      window.truncateAndResetBeginSn 0 7 = some (.ok (), next) ∧
      Jumps 0 calls window 7 calls next ∧ next.beginSn = 7 ∧ next.endSn = 9 ∧
      next.array (calcIdx 7) = ⟨1, 3⟩ ∧ outstanding calls 5 = 1 := by
  have run : Run 0 5 _ _ :=
    (((Run.init (D := Nat) (k := 1)).call (.get 5 rfl)).call (.write 5 (by decide) 3)).call
      (.slide [.passed, .passed])
  exact ⟨_, _, _, run, rfl, rfl, rfl, .of_truncateAndResetBeginSn rfl, rfl, rfl, rfl, rfl⟩

end IMBridge.Palf.FixedSlidingWindow
