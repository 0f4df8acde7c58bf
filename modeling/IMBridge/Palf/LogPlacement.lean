import IMBridge.Palf.LsnAllocator

/-!
What a round of `alloc_lsn_scn` does: the log is appended to the open group entry, opens a new one, or
opens one in the next block behind a padding entry.
-/

namespace IMBridge.Palf

namespace LSNAllocator

theorem and_logCutTriggerMask (offset : Nat) : offset &&& logCutTriggerMask = offset % logCutTrigger :=
  Nat.and_two_pow_sub_one_eq_mod offset 21

/-- The offsets that the allocator stops at: the end of the log leaves room for a padding entry in
its block, and a group is open in the middle of 2 MB only. -/
structure Aligned (isNeedCut : Bool) (offset : Nat) : Prop where
  tail : offset = 0 ∨ offset + clogFileTailPaddingTrigger ≤ palfBlockSize
  inside : isNeedCut = false → 0 < offset % logCutTrigger

inductive Placed (isNeedCut : Bool) (id offset size : Nat) (placement : Placement) : Prop
  | appended (wasOpen : isNeedCut = false) (kind : placement.isNewGroupLog = false)
      (plain : placement.needGenPaddingEntry = false) (none : placement.paddingLen = 0)
      (fits : offset + size ≤ palfBlockSize)
      (window : offset % logCutTrigger + size ≤ logCutTrigger)
      (next : placement.nextBlockId * palfBlockSize + placement.nextBlockOffset =
        id * palfBlockSize + offset + size)
      (staysOpen : placement.isNextNeedCut = false →
        placement.nextBlockOffset = offset + size ∧ offset % logCutTrigger + size < logCutTrigger)
  | opened (kind : placement.isNewGroupLog = true)
      (plain : placement.needGenPaddingEntry = false) (none : placement.paddingLen = 0)
      (fits : offset + (size + groupHeaderSize) ≤ palfBlockSize)
      (next : placement.nextBlockId * palfBlockSize + placement.nextBlockOffset =
        id * palfBlockSize + offset + (size + groupHeaderSize))
      (staysOpen : placement.isNextNeedCut = false →
        placement.nextBlockOffset = offset + (size + groupHeaderSize) ∧
        offset % logCutTrigger + (size + groupHeaderSize) < logCutTrigger)
  | padded (kind : placement.isNewGroupLog = true)
      (padding : placement.needGenPaddingEntry = true)
      (rest : placement.paddingLen + offset = palfBlockSize)
      (room : clogFileTailPaddingTrigger ≤ placement.paddingLen)
      (short : placement.paddingLen < size + groupHeaderSize + clogFileTailPaddingTrigger)
      (block : placement.nextBlockId = id + 1)
      (next : placement.nextBlockOffset = size + groupHeaderSize)
      (staysOpen : placement.isNextNeedCut = false → size + groupHeaderSize < logCutTrigger)

section Place

variable {isNeedCut : Bool} {id offset size : Nat}

theorem placed_padded (aligned : Aligned isNeedCut offset) (small : size ≤ maxLogBodySize + entryHeaderSize)
    (short : palfBlockSize < offset + (size + groupHeaderSize) + clogFileTailPaddingTrigger) :
    Placed isNeedCut id offset size (padded id offset size) := by
  have tail := aligned.tail
  simp only [palfBlockSize, maxLogBodySize, entryHeaderSize, groupHeaderSize, clogFileTailPaddingTrigger] at *
  refine .padded rfl rfl ?_ ?_ ?_ rfl rfl ?_
  · simp only [LSNAllocator.padded, palfBlockSize]
    omega
  · simp only [LSNAllocator.padded, palfBlockSize, clogFileTailPaddingTrigger]
    omega
  · simp only [LSNAllocator.padded, palfBlockSize, clogFileTailPaddingTrigger, groupHeaderSize]
    omega
  · intro uncut
    simpa [LSNAllocator.padded] using uncut

/-- A log that ends in or at the end of the block keeps its grouping; any other is padded. -/
theorem place_cases (id offset size : Nat) (grouping : Grouping) :
    (palfBlockSize < grouping.nextBlockOffset + clogFileTailPaddingTrigger ∧
      place id offset size grouping = padded id offset size) ∨
    (grouping.nextBlockOffset ≤ palfBlockSize ∧ (place id offset size grouping).isNewGroupLog = grouping.isNewGroupLog ∧
      (place id offset size grouping).needGenPaddingEntry = false ∧
      (place id offset size grouping).paddingLen = 0 ∧
      (place id offset size grouping).nextBlockId * palfBlockSize + (place id offset size grouping).nextBlockOffset =
          id * palfBlockSize + grouping.nextBlockOffset ∧
      ((place id offset size grouping).isNextNeedCut = false →
        (place id offset size grouping).nextBlockOffset = grouping.nextBlockOffset ∧
        grouping.isNextNeedCut = false)) := by
  unfold place
  split_ifs with inBlock nearEnd atEnd
  · exact .inl ⟨by omega, rfl⟩
  · exact .inr ⟨by omega, rfl, rfl, rfl, rfl, fun uncut => ⟨rfl, uncut⟩⟩
  · refine .inr ⟨by omega, rfl, rfl, rfl, ?_, fun uncut => by cases uncut⟩
    rw [atEnd, Nat.add_mul, Nat.one_mul, Nat.add_zero]
  · exact .inl ⟨by omega, rfl⟩

theorem placed_newGroup (aligned : Aligned isNeedCut offset) (small : size ≤ maxLogBodySize + entryHeaderSize) :
    Placed isNeedCut id offset size (place id offset size (newGroup offset size)) := by
  rcases place_cases id offset size (newGroup offset size) with
    ⟨short, eq⟩ | ⟨fits, kind, plain, none, next, staysOpen⟩
  · rw [eq]
    exact placed_padded aligned small short
  refine .opened kind plain none fits (next.trans (Nat.add_assoc ..).symm) ?_
  intro uncut
  obtain ⟨offset, uncut⟩ := staysOpen uncut
  refine ⟨offset, ?_⟩
  simpa [newGroup, and_logCutTriggerMask] using uncut

theorem placed_place (aligned : Aligned isNeedCut offset) (small : size ≤ maxLogBodySize + entryHeaderSize) :
    Placed isNeedCut id offset size (place id offset size (group isNeedCut offset size)) := by
  unfold group
  split_ifs with needCut boundary crossing
  · exact placed_newGroup aligned small
  · rw [and_logCutTriggerMask] at boundary
    have inside := aligned.inside (by simpa using needCut)
    omega
  · exact placed_newGroup aligned small
  have isOpen : isNeedCut = false := by simpa using needCut
  have inside := aligned.inside isOpen
  have pos : 0 < offset := Nat.pos_of_ne_zero (fun zero => by simp [zero] at inside)
  rw [and_logCutTriggerMask] at crossing ⊢
  rcases place_cases id offset size ⟨false, offset + size, decide (offset % logCutTrigger + size ≥ logCutTrigger)⟩ with
    ⟨short, eq⟩ | ⟨fits, kind, plain, none, next, staysOpen⟩
  · rw [eq]
    dsimp only at short
    exact placed_padded aligned small (by omega)
  refine .appended isOpen kind plain none fits (by omega) (next.trans (Nat.add_assoc ..).symm) ?_
  intro uncut
  obtain ⟨offset, uncut⟩ := staysOpen uncut
  refine ⟨offset, ?_⟩
  simpa using uncut

theorem place_tail (small : size ≤ maxLogBodySize + entryHeaderSize) (grouping : Grouping) :
    (place id offset size grouping).nextBlockOffset = 0 ∨
    (place id offset size grouping).nextBlockOffset + clogFileTailPaddingTrigger ≤
      palfBlockSize := by
  have padded_tail : size + groupHeaderSize + clogFileTailPaddingTrigger ≤ palfBlockSize := by
    simp only [palfBlockSize, maxLogBodySize, entryHeaderSize, groupHeaderSize, clogFileTailPaddingTrigger] at *
    omega
  unfold place
  split_ifs with inBlock nearEnd atEnd
  · exact .inr padded_tail
  · dsimp only
    omega
  · exact .inl rfl
  · exact .inr padded_tail

end Place

def blockOffset (alloc : LSNAllocator) : Nat := alloc.currEndLsn % palfBlockSize

/-- The group entry that starts at the position goes on to the end of the log, inside 2 MB. -/
def OpenSince (alloc : LSNAllocator) (start : Nat) : Prop := start ≤ alloc.currEndLsn ∧
    alloc.currEndLsn ≤ start + alloc.blockOffset % logCutTrigger

/-- The next scn and the one of a log behind a padding entry stay below `2 ^ 64`. -/
def ScnRoom (alloc : LSNAllocator) : Prop :=
  alloc.scnBase.toNat + alloc.lsnTsMeta.scnDelta.toNat + 2 < 2 ^ 64

instance decidableScnRoom (alloc : LSNAllocator) : Decidable alloc.ScnRoom := inferInstanceAs (Decidable (_ < 2 ^ 64))

/-- Nothing wraps around in the step from one state to the next. A log and its padding are shorter
than `2 ^ 64`, so the end of the log has wrapped exactly if it has moved back. -/
structure NoWrap (alloc next : LSNAllocator) : Prop where
  lsn : alloc.currEndLsn ≤ next.currEndLsn
  scn : alloc.ScnRoom

theorem ScnRoom.maxScn_eq {alloc : LSNAllocator} (scnRoom : alloc.ScnRoom) :
    alloc.maxScn = alloc.scnBase.toNat + alloc.lsnTsMeta.scnDelta.toNat :=
  Nat.mod_eq_of_lt (by unfold ScnRoom at scnRoom; omega)

/-- What happens in a step that replaces the word for a log. -/
structure Advances (alloc : LSNAllocator) (size nextScn : Nat) (placement : Placement)
    (next : LSNAllocator) : Prop where
  placed : Placed alloc.lsnTsMeta.isNeedCut (alloc.currEndLsn / palfBlockSize)
    alloc.blockOffset size placement
  later : alloc.maxScn < nextScn
  cut : next.lsnTsMeta.isNeedCut = placement.isNextNeedCut
  blockOffset : next.blockOffset = placement.nextBlockOffset
  lsn : next.currEndLsn = alloc.currEndLsn + placement.paddingLen +
    placement.isNewGroupLog.toNat * groupHeaderSize + size
  logId : next.maxLogId = alloc.maxLogId + placement.newEntries
  scn : next.maxScn = nextScn + placement.needGenPaddingEntry.toNat
  tail : placement.nextBlockOffset = 0 ∨
    placement.nextBlockOffset + clogFileTailPaddingTrigger ≤ palfBlockSize

theorem Placed.next_eq {isNeedCut : Bool} {lsn size : Nat} {placement : Placement}
    (placed : Placed isNeedCut (lsn / palfBlockSize) (lsn % palfBlockSize) size placement) :
    placement.nextBlockId * palfBlockSize + placement.nextBlockOffset =
      lsn + placement.paddingLen + placement.isNewGroupLog.toNat * groupHeaderSize + size := by
  have here : lsn / palfBlockSize * palfBlockSize + lsn % palfBlockSize = lsn := Nat.div_add_mod' lsn palfBlockSize
  cases placed with
  | appended wasOpen kind plain none fits window next staysOpen =>
    rw [kind, none, next, here]
    simp
  | opened kind plain none fits next staysOpen =>
    rw [kind, none, next, here]
    simp only [Bool.toNat_true]
    omega
  | padded kind padding rest room short block next staysOpen =>
    rw [kind, block, next, Nat.add_mul]
    simp only [Bool.toNat_true]
    omega

theorem Placed.next_lt {isNeedCut : Bool} {id offset size : Nat} {placement : Placement}
    (placed : Placed isNeedCut id offset size placement)
    (small : size ≤ maxLogBodySize + entryHeaderSize) :
    placement.paddingLen + placement.isNewGroupLog.toNat * groupHeaderSize + size < 2 ^ 23 := by
  have header : placement.isNewGroupLog.toNat * groupHeaderSize ≤ groupHeaderSize := by
    cases placement.isNewGroupLog <;> simp
  have padding : placement.paddingLen < size + groupHeaderSize + clogFileTailPaddingTrigger := by
    cases placed with
    | appended _ _ _ none => simp [none, clogFileTailPaddingTrigger]
    | opened _ _ none => simp [none, clogFileTailPaddingTrigger]
    | padded _ _ _ _ short => exact short
  simp only [maxLogBodySize, entryHeaderSize, groupHeaderSize, clogFileTailPaddingTrigger] at *
  omega

section Round

variable {alloc next : LSNAllocator} {request : AllocRequest} {size : Nat}
  {result : Except AllocError AllocOutput}

/-- While neither delta reaches its upper bound nothing is lost in the fields of the word. -/
theorem advances_advance {nextScn : Nat} {placement : Placement}
    (placed : Placed alloc.lsnTsMeta.isNeedCut (alloc.currEndLsn / palfBlockSize) alloc.blockOffset size placement)
    (tail : placement.nextBlockOffset = 0 ∨ placement.nextBlockOffset + clogFileTailPaddingTrigger ≤ palfBlockSize)
    (noWrap : NoWrap alloc (alloc.advance nextScn placement)) (small : size ≤ maxLogBodySize + entryHeaderSize)
    (later : alloc.maxScn < nextScn) (bounded : nextScn + 1 < 2 ^ 64)
    (scnFits : nextScn + 1 - alloc.scnBase.toNat < logTsDeltaUpperBound)
    (idFits : alloc.lsnTsMeta.logIdDelta.toNat + 2 < logIdDeltaUpperBound) :
    Advances alloc size nextScn placement (alloc.advance nextScn placement) := by
  have next_eq := placed.next_eq
  have next_lt := placed.next_lt small
  have lsn : (alloc.advance nextScn placement).currEndLsn =
      placement.nextBlockId * palfBlockSize + placement.nextBlockOffset := by
    have forward := noWrap.lsn
    have below := alloc.lsnTsMeta.lsnVal.isLt
    simp only [advance, currEndLsn, BitVec.toNat_ofNat] at *
    omega
  have padding := Bool.toNat_le placement.needGenPaddingEntry
  refine ⟨placed, later, rfl, ?_, lsn.trans next_eq, ?_, ?_, tail⟩
  · have inBlock : placement.nextBlockOffset < palfBlockSize := by
      simp only [palfBlockSize, clogFileTailPaddingTrigger] at *
      omega
    rw [blockOffset, lsn, Nat.mul_add_mod', Nat.mod_eq_of_lt inBlock]
  · have entries : placement.newEntries ≤ 2 := by
      have := Bool.toNat_le placement.isNewGroupLog
      unfold Placement.newEntries
      omega
    simp only [advance, maxLogId, BitVec.toNat_ofNat]
    rw [Nat.mod_eq_of_lt (by simp only [logIdDeltaUpperBound] at idFits; omega)]
    omega
  · rw [noWrap.scn.maxScn_eq] at later
    simp only [advance, maxScn, BitVec.toNat_ofNat]
    simp only [logTsDeltaUpperBound] at scnFits
    omega

section

variable (aligned : Aligned alloc.lsnTsMeta.isNeedCut alloc.blockOffset)
include aligned

theorem advances_round {nextScn : Nat} {placement : Placement} (validScn : request.baseScn.toNat < 2 ^ 62)
    (small : size ≤ maxLogBodySize + entryHeaderSize)
    (next_eq : nextScn = max request.baseScn.toNat (alloc.maxScn + 1))
    (placement_eq : placement = place (alloc.currEndLsn / palfBlockSize) (alloc.currEndLsn % palfBlockSize) size
      (group alloc.lsnTsMeta.isNeedCut (alloc.currEndLsn % palfBlockSize) size))
    (noWrap : NoWrap alloc (alloc.advance nextScn placement))
    (scnFits : ¬(nextScn + 1 + 2 ^ 64 - alloc.scnBase.toNat) % 2 ^ 64 ≥ logTsDeltaUpperBound)
    (idFits : ¬alloc.lsnTsMeta.logIdDelta.toNat + 2 ≥ logIdDeltaUpperBound) :
    Advances alloc size nextScn placement (alloc.advance nextScn placement) := by
  have scnRoom := noWrap.scn
  have maxScn_eq := noWrap.scn.maxScn_eq
  unfold ScnRoom at scnRoom
  subst placement_eq
  apply advances_advance (placed_place aligned small) (place_tail small _) noWrap small
  · omega
  · omega
  · omega
  · omega

/-- A round that ends either leaves the allocator alone or places the log. -/
theorem tryAlloc_cases (noWrap : NoWrap alloc next) (validScn : request.baseScn.toNat < 2 ^ 62)
    (small : size ≤ maxLogBodySize + entryHeaderSize)
    (done : alloc.tryAlloc request size = some (result, next)) :
    ((∃ err, result = .error err) ∧ next = alloc) ∨
    ∃ nextScn placement, Advances alloc size nextScn placement next ∧ request.baseScn.toNat ≤ nextScn ∧
      ((maxScnTsNs < nextScn ∧ ∃ err, result = .error err) ∨
        (nextScn ≤ maxScnTsNs ∧ result = .ok (alloc.output nextScn placement))) := by
  have wrapless : (alloc.maxScn + 1) % 2 ^ 64 = alloc.maxScn + 1 := by
    rw [noWrap.scn.maxScn_eq]
    exact Nat.mod_eq_of_lt (by have := noWrap.scn; unfold ScnRoom at this; omega)
  unfold tryAlloc at done
  dsimp only at done
  rw [wrapless] at done
  split_ifs at done with scnDelta idDelta bounds invalid
  · cases done
    exact .inl ⟨⟨_, rfl⟩, rfl⟩
  · cases done
    have advances := advances_round aligned validScn small rfl rfl noWrap scnDelta idDelta
    exact .inr ⟨_, _, advances, le_max_left _ _, .inl ⟨invalid, _, rfl⟩⟩
  · cases done
    have advances := advances_round aligned validScn small rfl rfl noWrap scnDelta idDelta
    exact .inr ⟨_, _, advances, le_max_left _ _, .inr ⟨not_lt.mp invalid, rfl⟩⟩

end

/-- With the bases at the current values a round ends. -/
theorem tryAlloc_updateBase (size : Nat) (scnRoom : alloc.ScnRoom) (validScn : request.baseScn.toNat < 2 ^ 62) :
    ∃ outcome, (alloc.updateBase request.baseScn).tryAlloc request size = some outcome := by
  have maxScn_eq := scnRoom.maxScn_eq
  unfold ScnRoom at scnRoom
  have base : (alloc.updateBase request.baseScn).scnBase.toNat = max request.baseScn.toNat alloc.maxScn := by
    simp only [updateBase, BitVec.toNat_ofNat]
    omega
  have maxScn : (alloc.updateBase request.baseScn).maxScn = max request.baseScn.toNat alloc.maxScn := by
    rw [LSNAllocator.maxScn, base]
    simp only [updateBase]
    simp
    omega
  unfold tryAlloc
  dsimp only
  rw [base, maxScn, if_neg, if_neg]
  · split_ifs
    · exact ⟨_, rfl⟩
    · exact ⟨_, rfl⟩
    · exact ⟨_, rfl⟩
  · simp [updateBase, logIdDeltaUpperBound]
  · simp only [logTsDeltaUpperBound]
    omega

end Round

end LSNAllocator

end IMBridge.Palf
