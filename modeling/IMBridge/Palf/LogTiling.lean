import Mathlib.Data.List.Chain
import IMBridge.Palf.LogPlacement

/-!
The allocator tiles the log: what it hands out lies end to end, in group entries that stay inside a
block, with growing log ids and scns, as long as LSNs and scns do not wrap around.
-/

namespace IMBridge.Palf

open List
structure Allocation where
  size : Nat
  baseScn : Nat
  output : AllocOutput

namespace Allocation

variable (log : Allocation)

def nextLsn : Nat :=
  log.output.lsn + log.output.paddingLen +
    log.output.isNewGroupLog.toNat * groupHeaderSize + log.size

/-- The id of the group entry that the log is in; a padding entry takes the id before it. -/
def groupLogId : Int := log.output.logId + log.output.needGenPaddingEntry.toNat

def logScn : Nat := log.output.scn + log.output.needGenPaddingEntry.toNat

end Allocation

structure GroupEntry where
  start : Nat
  stop : Nat
  isPadding : Bool

/-- The entries with the log, newest first: a new group, behind the padding entry if there is one, or
a longer last group. -/
def Allocation.layOut (log : Allocation) (entries : List GroupEntry) : List GroupEntry :=
  if log.output.isNewGroupLog then
    let behind : GroupEntry := ⟨log.output.lsn + log.output.paddingLen, log.nextLsn, false⟩
    if log.output.needGenPaddingEntry then
      behind :: ⟨log.output.lsn, log.output.lsn + log.output.paddingLen, true⟩ :: entries
    else behind :: entries
  else
    match entries with
    | [] => []
    | last :: older => { last with stop := last.stop + log.size } :: older

theorem Allocation.layOut_new (log : Allocation) (isNew : log.output.isNewGroupLog = true)
    (entries : List GroupEntry) : ∃ older, log.layOut entries =
      ⟨log.output.lsn + log.output.paddingLen, log.nextLsn, false⟩ :: older := by
  simp only [Allocation.layOut, isNew, if_true]
  split
  · exact ⟨_, rfl⟩
  · exact ⟨_, rfl⟩

theorem Allocation.layOut_same {log : Allocation} (same : log.output.isNewGroupLog = false)
    (last : GroupEntry) (older : List GroupEntry) :
    log.layOut (last :: older) = { last with stop := last.stop + log.size } :: older := by
  simp [Allocation.layOut, same]

def groupEntries : List Allocation → List GroupEntry
  | [] => []
  | log :: older => log.layOut (groupEntries older)

structure GroupEntry.WellPlaced (entry : GroupEntry) : Prop where
  withinBlock : entry.stop ≤ (entry.start / palfBlockSize + 1) * palfBlockSize
  size : entry.stop - entry.start ≤ maxLogBufferSize
  padding : entry.isPadding = true →
    entry.stop % palfBlockSize = 0 ∧ clogFileTailPaddingTrigger ≤ entry.stop - entry.start

structure LogTiled (logs : List Allocation) : Prop where
  contiguous : logs.IsChain (fun later earlier => earlier.nextLsn = later.output.lsn)
  opens : ∀ first, logs.getLast? = some first → first.output.isNewGroupLog = true
  entries : ∀ entry ∈ groupEntries logs, entry.WellPlaced
  logIds : logs.IsChain (fun (later earlier : Allocation) =>
    later.output.logId = earlier.groupLogId + later.output.isNewGroupLog.toNat)
  scns : logs.Pairwise (fun later earlier => earlier.logScn < later.output.scn)
  baseScns : ∀ log ∈ logs, log.baseScn ≤ log.output.scn

namespace LSNAllocator

/-- What one compare-and-swap does, with the allocation that it completes. -/
inductive Step (allocator : LSNAllocator) : List Allocation → LSNAllocator → Prop
  | updateBase (baseScn : BitVec 64) (valid : scnIsValid baseScn = true) :
      Step allocator [] (allocator.updateBase baseScn)
  | alloc (request : AllocRequest) {output : AllocOutput} {next : LSNAllocator}
      (small : request.size ≤ (maxLogBodySize + entryHeaderSize : Nat))
      (done : allocator.allocRound request = some (.ok output, next)) :
      Step allocator [⟨request.size.toNat, request.baseScn.toNat, output⟩] next
  | failedAlloc (request : AllocRequest) {err : AllocError} {next : LSNAllocator}
      (small : request.size ≤ (maxLogBodySize + entryHeaderSize : Nat))
      (done : allocator.allocRound request = some (.error err, next)) : Step allocator [] next
  | tryFreeze : Step allocator [] allocator.tryFreeze.2
  | tryFreezeByTime : Step allocator [] allocator.tryFreezeByTime.2
  | incUpdateScnBase (refScn : BitVec 64) : Step allocator [] (allocator.incUpdateScnBase refScn).2

/-- Steps of any number of threads, each of which is allowed. -/
inductive Run (Allowed : LSNAllocator → LSNAllocator → Prop) (start : LSNAllocator) :
    List Allocation → LSNAllocator → Prop
  | start : Run Allowed start [] start
  | step {logs new : List Allocation} {allocator next : LSNAllocator}
      (run : Run Allowed start logs allocator) (allowed : Allowed allocator next)
      (step : allocator.Step new next) : Run Allowed start (new ++ logs) next

/-- The allocations end at the allocator's current values, and an open group is the last entry. -/
structure EndsAt (logs : List Allocation) (allocator : LSNAllocator) : Prop where
  lsn : ∀ last, logs.head? = some last → last.nextLsn = allocator.currEndLsn
  logId : ∀ last, logs.head? = some last → last.groupLogId = allocator.maxLogId
  scn : ∀ log ∈ logs, log.logScn ≤ allocator.maxScn
  openGroup : allocator.lsnTsMeta.isNeedCut = false → ∃ entry older,
    groupEntries logs = entry :: older ∧ entry.isPadding = false ∧
    entry.stop = allocator.currEndLsn ∧ allocator.OpenSince entry.start

/-- Once `convert_for_logservice` has failed the allocator has gone on without a log, but then no
later allocation succeeds. -/
structure Tiling (logs : List Allocation) (allocator : LSNAllocator) : Prop
    extends LogTiled logs where
  aligned : Aligned allocator.lsnTsMeta.isNeedCut allocator.blockOffset
  current : allocator.maxScn < maxScnTsNs → EndsAt logs allocator

theorem palfBlockSize_eq : palfBlockSize = 67104768 := rfl

theorem logCutTrigger_eq : logCutTrigger = 2097152 := rfl

section Advance

variable {allocator next : LSNAllocator} {size nextScn : Nat} {placement : Placement}

variable (advances : Advances allocator size nextScn placement next)
include advances

theorem Advances.aligned (pos : 0 < size) : Aligned next.lsnTsMeta.isNeedCut next.blockOffset := by
  rw [advances.cut, advances.blockOffset]
  refine ⟨advances.tail, fun uncut => ?_⟩
  cases advances.placed with
  | appended _ _ _ _ _ _ _ staysOpen =>
    obtain ⟨offset, below⟩ := staysOpen uncut
    rw [logCutTrigger_eq] at *
    omega
  | opened _ _ _ _ _ staysOpen =>
    obtain ⟨offset, below⟩ := staysOpen uncut
    rw [logCutTrigger_eq] at *
    omega
  | padded _ _ _ _ _ _ offset staysOpen =>
    have below := staysOpen uncut
    rw [logCutTrigger_eq] at *
    omega

theorem Advances.openSince_new (isNew : placement.isNewGroupLog = true) (uncut : next.lsnTsMeta.isNeedCut = false) :
    next.OpenSince (allocator.currEndLsn + placement.paddingLen) := by
  rw [advances.cut] at uncut
  rw [OpenSince, advances.blockOffset, advances.lsn, isNew]
  simp only [Bool.toNat_true]
  cases advances.placed with
  | appended _ kind => simp [isNew] at kind
  | opened _ _ none _ _ staysOpen =>
    obtain ⟨offset, below⟩ := staysOpen uncut
    rw [logCutTrigger_eq] at *
    omega
  | padded _ _ _ _ _ _ offset staysOpen =>
    have below := staysOpen uncut
    rw [logCutTrigger_eq] at *
    omega

theorem Advances.openSince_same
    (same : placement.isNewGroupLog = false) (uncut : next.lsnTsMeta.isNeedCut = false) {start : Nat}
    (isOpen : allocator.OpenSince start) : next.OpenSince start := by
  rw [advances.cut] at uncut
  rw [OpenSince] at isOpen
  rw [OpenSince, advances.blockOffset, advances.lsn, same]
  simp only [Bool.toNat_false]
  cases advances.placed with
  | appended _ _ _ none _ _ _ staysOpen =>
    obtain ⟨offset, below⟩ := staysOpen uncut
    rw [logCutTrigger_eq] at *
    omega
  | opened kind => simp [same] at kind
  | padded kind => simp [same] at kind

def placedLog (allocator : LSNAllocator) (size baseScn nextScn : Nat) (placement : Placement) :
    Allocation :=
  ⟨size, baseScn, allocator.output nextScn placement⟩

theorem Advances.nextLsn_eq (baseScn : Nat) :
    (allocator.placedLog size baseScn nextScn placement).nextLsn = next.currEndLsn :=
  advances.lsn.symm

theorem Advances.wellPlaced
    (small : size ≤ maxLogBodySize + entryHeaderSize) (baseScn : Nat) {entries : List GroupEntry}
    (old : ∀ entry ∈ entries, entry.WellPlaced)
    (openGroup : allocator.lsnTsMeta.isNeedCut = false → ∃ entry older, entries = entry :: older ∧
      entry.isPadding = false ∧ entry.stop = allocator.currEndLsn ∧
      allocator.OpenSince entry.start) :
    ∀ entry ∈ (allocator.placedLog size baseScn nextScn placement).layOut entries, entry.WellPlaced := by
  have header : groupHeaderSize = 56 := rfl
  have buffer : maxLogBufferSize = 2121728 := rfl
  have body : maxLogBodySize + entryHeaderSize = 2113568 := rfl
  have block := palfBlockSize_eq
  have trigger := logCutTrigger_eq
  have tailTrigger : clogFileTailPaddingTrigger = 4096 := rfl
  have offset_eq : allocator.blockOffset = allocator.currEndLsn % 67104768 := rfl
  have nextLsn_eq := (advances.nextLsn_eq baseScn).trans advances.lsn
  cases advances.placed with
  | appended wasOpen kind plain none fits window next staysOpen =>
    obtain ⟨last, older, rfl, notPadding, stop, isOpen⟩ := openGroup wasOpen
    obtain ⟨starts, inWindow⟩ := isOpen
    have inBlock := Nat.mod_le allocator.blockOffset logCutTrigger
    rw [Allocation.layOut_same kind]
    simp only [placedLog, mem_cons]
    rintro entry (rfl | member)
    · refine ⟨?_, ?_, fun isPadding => ?_⟩
      · dsimp only
        rw [block] at *
        omega
      · dsimp only
        omega
      · simp [notPadding] at isPadding
    · exact old entry (mem_cons_of_mem _ member)
  | opened kind plain none fits next staysOpen =>
    simp only [Allocation.layOut, nextLsn_eq]
    simp only [placedLog, output, kind, plain, none, Bool.false_eq_true, if_true, if_false, mem_cons, Bool.toNat_true]
    rintro entry (rfl | member)
    · refine ⟨?_, ?_, fun isPadding => by cases isPadding⟩
      · dsimp only
        rw [block] at *
        omega
      · dsimp only
        omega
    · exact old entry member
  | padded kind padding rest room short _ next staysOpen =>
    simp only [Allocation.layOut, nextLsn_eq]
    simp only [placedLog, output, kind, padding, if_true, mem_cons, Bool.toNat_true]
    rintro entry (rfl | rfl | member)
    · refine ⟨?_, ?_, fun isPadding => by cases isPadding⟩
      · dsimp only
        rw [block] at *
        omega
      · dsimp only
        omega
    · refine ⟨?_, ?_, fun _ => ⟨?_, ?_⟩⟩
      · dsimp only
        rw [block] at *
        omega
      · dsimp only
        omega
      · dsimp only
        rw [block] at *
        omega
      · dsimp only
        omega
    · exact old entry member

theorem Advances.endsAt {logs : List Allocation} (ends : EndsAt logs allocator) (baseScn : Nat) :
    EndsAt (allocator.placedLog size baseScn nextScn placement :: logs) next where
  lsn last isLast := by
    cases isLast
    exact advances.nextLsn_eq baseScn
  logId last isLast := by
    cases isLast
    rw [advances.logId]
    simp only [Allocation.groupLogId, placedLog, output, Placement.newEntries]
    omega
  scn log member := by
    rw [advances.scn]
    rcases mem_cons.mp member with rfl | old
    · exact le_rfl
    have := ends.scn log old
    have := advances.later
    omega
  openGroup uncut := by
    by_cases isNew : placement.isNewGroupLog = true
    · obtain ⟨older, entries⟩ := Allocation.layOut_new
        (allocator.placedLog size baseScn nextScn placement) isNew (groupEntries logs)
      exact ⟨_, older, entries, rfl, advances.nextLsn_eq baseScn, advances.openSince_new isNew uncut⟩
    have same : placement.isNewGroupLog = false := by simpa using isNew
    have wasOpen : allocator.lsnTsMeta.isNeedCut = false := by
      cases advances.placed with
      | appended wasOpen => exact wasOpen
      | opened kind => exact absurd kind isNew
      | padded kind => exact absurd kind isNew
    have noPadding : placement.paddingLen = 0 := by
      cases advances.placed with
      | appended _ _ _ none => exact none
      | opened kind => exact absurd kind isNew
      | padded kind => exact absurd kind isNew
    obtain ⟨last, older, entries, notPadding, stop, since⟩ := ends.openGroup wasOpen
    refine ⟨{ last with stop := last.stop + size }, older, ?_, notPadding, ?_, advances.openSince_same same uncut since⟩
    · rw [groupEntries, entries]
      exact Allocation.layOut_same same last older
    · rw [advances.lsn, noPadding, same, stop]
      simp

theorem Advances.logTiled {logs : List Allocation} (tiling : Tiling logs allocator) (ends : EndsAt logs allocator)
    (small : size ≤ maxLogBodySize + entryHeaderSize) {baseScn : Nat} (base : baseScn ≤ nextScn) :
    LogTiled (allocator.placedLog size baseScn nextScn placement :: logs) where
  contiguous := isChain_cons.mpr ⟨fun last isLast => ends.lsn last isLast, tiling.contiguous⟩
  opens first isFirst := by
    cases logs with
    | nil =>
      cases isFirst
      cases advances.placed with
      | appended wasOpen =>
        obtain ⟨entry, older, none, -⟩ := ends.openGroup wasOpen
        cases none
      | opened kind => exact kind
      | padded kind => exact kind
    | cons last older =>
      rw [getLast?_cons_cons] at isFirst
      exact tiling.opens first isFirst
  entries := advances.wellPlaced small baseScn tiling.entries ends.openGroup
  logIds := by
    refine isChain_cons.mpr ⟨fun last isLast => ?_, tiling.logIds⟩
    rw [ends.logId last isLast]
    rfl
  scns := by
    refine pairwise_cons.mpr ⟨fun log member => ?_, tiling.scns⟩
    exact (ends.scn log member).trans_lt advances.later
  baseScns := forall_mem_cons.2 ⟨base, tiling.baseScns⟩

end Advance

section Steps

variable {allocator next : LSNAllocator} {logs new : List Allocation}

section

variable (tiling : Tiling logs allocator)
include tiling

/-- A step that places no log may close the group and raise the scn. -/
theorem Tiling.keep (lsn : next.currEndLsn = allocator.currEndLsn)
    (logId : next.maxLogId = allocator.maxLogId) (scn : allocator.maxScn ≤ next.maxScn)
    (cut : next.lsnTsMeta.isNeedCut = false → allocator.lsnTsMeta.isNeedCut = false) :
    Tiling logs next where
  toLogTiled := tiling.toLogTiled
  aligned := by
    rw [blockOffset, lsn]
    exact ⟨tiling.aligned.tail, fun uncut => tiling.aligned.inside (cut uncut)⟩
  current below := by
    have ends := tiling.current (scn.trans_lt below)
    constructor
    · rw [lsn]
      exact ends.lsn
    · rw [logId]
      exact ends.logId
    · exact fun log member => (ends.scn log member).trans scn
    · intro uncut
      simp only [OpenSince, blockOffset, lsn]
      exact ends.openGroup (cut uncut)

theorem Tiling.updateBase {baseScn : BitVec 64} (valid : baseScn.toNat < 2 ^ 62) :
    Tiling logs (allocator.updateBase baseScn) := by
  apply tiling.keep
  · rfl
  · simp [LSNAllocator.updateBase, maxLogId]
  · simp only [LSNAllocator.updateBase, maxScn, BitVec.toNat_ofNat] at *
    simp
    omega
  · exact id

theorem Tiling.incUpdateScnBase (refScn : BitVec 64) : Tiling logs (allocator.incUpdateScnBase refScn).2 := by
  unfold LSNAllocator.incUpdateScnBase
  split_ifs with inited valid smaller
  · exact tiling
  · exact tiling
  · exact tiling
  apply tiling.keep
  · rfl
  · rfl
  · simpa [maxScn, Nat.mod_eq_of_lt refScn.isLt] using not_lt.mp smaller
  · exact fun uncut => by cases uncut

theorem Tiling.cut : Tiling logs { allocator with lsnTsMeta := { allocator.lsnTsMeta with isNeedCut := true } } :=
  tiling.keep rfl rfl le_rfl (fun uncut => by cases uncut)

end

theorem toNat_lt_of_scnIsValid {scn : BitVec 64} (valid : scnIsValid scn = true) : scn.toNat < 2 ^ 62 := by
  simp only [scnIsValid, decide_eq_true_eq] at valid
  omega

theorem allocRound_cases {request : AllocRequest} {result : Except AllocError AllocOutput}
    (done : allocator.allocRound request = some (result, next)) :
    ((∃ err, result = .error err) ∧ next = allocator) ∨
    (0 < request.size.toNat ∧ request.baseScn.toNat < 2 ^ 62 ∧
      allocator.tryAlloc request request.size.toNat = some (result, next)) := by
  unfold allocRound at done
  split_ifs at done with inited invalid
  · cases done
    exact .inl ⟨⟨_, rfl⟩, rfl⟩
  · cases done
    exact .inl ⟨⟨_, rfl⟩, rfl⟩
  · refine .inr ⟨by omega, ?_, done⟩
    apply toNat_lt_of_scnIsValid
    grind

section

variable (tiling : Tiling logs allocator)
include tiling

variable (noWrap : NoWrap allocator next)
include noWrap

theorem Tiling.alloc {request : AllocRequest} (small : request.size ≤ (maxLogBodySize + entryHeaderSize : Nat))
    {output : AllocOutput} (done : allocator.allocRound request = some (.ok output, next)) :
    Tiling (⟨request.size.toNat, request.baseScn.toNat, output⟩ :: logs) next := by
  rcases allocRound_cases done with ⟨⟨err, failed⟩, -⟩ | ⟨pos, validScn, done⟩
  · cases failed
  rcases tryAlloc_cases tiling.aligned noWrap validScn (Int.toNat_le.mpr small) done with
    ⟨⟨err, failed⟩, -⟩ | ⟨nextScn, placement, advances, base, ⟨-, err, failed⟩ | ⟨valid, ok⟩⟩
  · cases failed
  · cases failed
  cases ok
  have ends := tiling.current (advances.later.trans_le valid)
  exact
    { toLogTiled := advances.logTiled tiling ends (Int.toNat_le.mpr small) base
      aligned := advances.aligned pos
      current := fun _ => advances.endsAt ends _ }

/-- If the scn cannot be converted the log has a place but no later one has a valid scn. -/
theorem Tiling.failedAlloc {request : AllocRequest} (small : request.size ≤ (maxLogBodySize + entryHeaderSize : Nat))
    {err : AllocError} (done : allocator.allocRound request = some (.error err, next)) :
    Tiling logs next := by
  rcases allocRound_cases done with ⟨-, rfl⟩ | ⟨pos, validScn, done⟩
  · exact tiling
  rcases tryAlloc_cases tiling.aligned noWrap validScn (Int.toNat_le.mpr small) done with
    ⟨-, rfl⟩ | ⟨nextScn, placement, advances, base, ⟨tooLarge, -⟩ | ⟨-, ok⟩⟩
  · exact tiling
  · refine ⟨tiling.toLogTiled, advances.aligned pos, fun below => ?_⟩
    rw [advances.scn] at below
    omega
  · cases ok

theorem Tiling.step (step : allocator.Step new next) : Tiling (new ++ logs) next := by
  cases step with
  | updateBase baseScn valid => exact tiling.updateBase (toNat_lt_of_scnIsValid valid)
  | alloc request small done => exact tiling.alloc noWrap small done
  | failedAlloc request small done => exact tiling.failedAlloc noWrap small done
  | tryFreeze =>
    unfold LSNAllocator.tryFreeze
    split_ifs
    · exact tiling
    · exact tiling
    · exact tiling.cut
  | tryFreezeByTime =>
    unfold LSNAllocator.tryFreezeByTime
    split_ifs
    · exact tiling
    · exact tiling
    · exact tiling.cut
  | incUpdateScnBase refScn => exact tiling.incUpdateScnBase refScn

end

/-- Two rounds are enough for a call that no other thread gets in between. -/
theorem allocLsnScn_returns (scnRoom : allocator.ScnRoom) (request : AllocRequest) :
    ∃ outcome, allocLsnScn request 2 allocator = some outcome := by
  unfold allocLsnScn
  split
  · exact ⟨_, rfl⟩
  rename_i retry
  unfold allocRound at retry
  split_ifs at retry with inited invalid
  have validScn : request.baseScn.toNat < 2 ^ 62 := by
    apply toNat_lt_of_scnIsValid
    grind
  obtain ⟨outcome, done⟩ := tryAlloc_updateBase request.size.toNat scnRoom validScn
  have round : (allocator.updateBase request.baseScn).allocRound request = some outcome := by
    rw [allocRound, if_neg (show ¬(allocator.updateBase _).isInited = false from inited), if_neg invalid, done]
  rw [allocLsnScn, round]
  exact ⟨_, rfl⟩

structure Start (allocator : LSNAllocator) : Prop where
  needCut : allocator.lsnTsMeta.isNeedCut = true
  tail : allocator.blockOffset = 0 ∨
    clogFileTailPaddingTrigger ≤ palfBlockSize - allocator.blockOffset

theorem Start.tiling {start : LSNAllocator} (isStart : Start start) : Tiling [] start where
  contiguous := .nil
  opens _ isFirst := by cases isFirst
  entries _ member := by cases member
  logIds := .nil
  scns := .nil
  baseScns _ member := by cases member
  aligned := by
    refine ⟨?_, fun uncut => by simp [isStart.needCut] at uncut⟩
    have tail := isStart.tail
    simp only [palfBlockSize, clogFileTailPaddingTrigger] at *
    omega
  current _ :=
    { lsn := fun _ isLast => by cases isLast
      logId := fun _ isLast => by cases isLast
      scn := fun _ member => by cases member
      openGroup := fun uncut => by simp [isStart.needCut] at uncut }

theorem Run.tiling {start : LSNAllocator} (isStart : Start start)
    (run : Run NoWrap start logs allocator) : Tiling logs allocator := by
  induction run with
  | start => exact isStart.tiling
  | step _ noWrap step ih => exact ih.step noWrap step

/-- Whatever the calls and their order, the successful allocations tile the log. -/
theorem run_logTiled {start : LSNAllocator} (isStart : Start start)
    (run : Run NoWrap start logs allocator) : LogTiled logs :=
  (run.tiling isStart).toLogTiled

end Steps

def startAt (lsn : Nat) : LSNAllocator where
  lsnTsMeta := ⟨true, 0, 0, BitVec.ofNat 64 lsn⟩
  logIdBase := 7
  scnBase := 100
  isInited := true

def freeRequest (size : Int) : AllocRequest where
  baseScn := 0
  size
  logIdUpperBound := 1000
  lsnUpperBound := BitVec.ofNat 64 (2 ^ 64 - 2)

/-- The scn has moved so far from its base that the first round ends without a result. -/
def farFromBase : LSNAllocator := { startAt (palfBlockSize - 5000) with lsnTsMeta := ⟨true, 9, 34359738367, 4096⟩ }

theorem farFromBase_returns : farFromBase.allocRound (freeRequest 500) = none ∧
    ∃ outcome, allocLsnScn (freeRequest 500) 2 farFromBase = some outcome := by
  refine ⟨by decide +kernel, ?_⟩
  exact allocLsnScn_returns (by decide) (freeRequest 500)

/-- 5000 bytes before the end of a block: a log, a log that has to go to the next block and one that
is appended to it. -/
theorem blockEnd_logTiled : ∃ logs allocator, logs.length = 3 ∧
    Start (startAt (palfBlockSize - 5000)) ∧
    Run NoWrap (startAt (palfBlockSize - 5000)) logs allocator ∧ LogTiled logs := by
  have isStart : Start (startAt (palfBlockSize - 5000)) := ⟨rfl, .inr (by decide)⟩
  have first : (startAt (palfBlockSize - 5000)).allocRound (freeRequest 500) =
      some (.ok ⟨67099768, 8, 101, true, false, 0⟩, ⟨⟨false, 1, 1, 67100324⟩, 7, 100, true⟩) := by
    decide +kernel
  have second : allocRound ⟨⟨false, 1, 1, 67100324⟩, 7, 100, true⟩ (freeRequest 1000) =
      some (.ok ⟨67100324, 9, 102, true, true, 4444⟩,
        ⟨⟨false, 3, 3, 67105824⟩, 7, 100, true⟩) := by
    decide +kernel
  have third : allocRound ⟨⟨false, 3, 3, 67105824⟩, 7, 100, true⟩ (freeRequest 200) =
      some (.ok ⟨67105824, 10, 104, false, false, 0⟩,
        ⟨⟨false, 3, 4, 67106024⟩, 7, 100, true⟩) := by
    decide +kernel
  have noWrap : NoWrap (startAt (palfBlockSize - 5000)) ⟨⟨false, 1, 1, 67100324⟩, 7, 100, true⟩ :=
    ⟨by decide, by decide⟩
  have run := ((Run.start.step noWrap (.alloc _ (by decide) first)).step ⟨by decide, by decide⟩
    (.alloc _ (by decide) second)).step ⟨by decide, by decide⟩ (.alloc _ (by decide) third)
  exact ⟨_, _, rfl, isStart, run, run_logTiled isStart run⟩

/-- The 156 bytes of the first log do not fit below `2 ^ 64`: it ends at LSN 56, where the next log
starts. -/
theorem lastBytes_not_contiguous : ∃ logs allocator, Start (startAt (2 ^ 64 - 100)) ∧
    Run (fun _ _ => True) (startAt (2 ^ 64 - 100)) logs allocator ∧
    ¬logs.IsChain (fun later earlier => earlier.nextLsn = later.output.lsn) := by
  have first : (startAt (2 ^ 64 - 100)).allocRound (freeRequest 100) =
      some (.ok ⟨2 ^ 64 - 100, 8, 101, true, false, 0⟩, ⟨⟨true, 1, 1, 56⟩, 7, 100, true⟩) := by
    decide +kernel
  have second : allocRound ⟨⟨true, 1, 1, 56⟩, 7, 100, true⟩ (freeRequest 100) =
      some (.ok ⟨56, 9, 102, true, false, 0⟩, ⟨⟨false, 2, 2, 212⟩, 7, 100, true⟩) := by
    decide +kernel
  have run : Run (fun _ _ => True) (startAt (2 ^ 64 - 100)) _ _ :=
    (Run.start.step trivial (.alloc _ (by decide) first)).step trivial
      (.alloc _ (by decide) second)
  refine ⟨_, _, ⟨rfl, .inr (by decide)⟩, run, fun chain => ?_⟩
  have adjacent := (isChain_cons_cons.mp chain).1
  simp [Allocation.nextLsn, groupHeaderSize, freeRequest] at adjacent

end LSNAllocator

end IMBridge.Palf
