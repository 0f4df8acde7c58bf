import Mathlib.Data.Nat.Bitwise

/-!
`LSNAllocator` hands out the places in the log. Its state is a 128-bit word, exchanged by
compare-and-swap, and two bases; a compare-and-swap that succeeds is one step here. `uint64_t`
arithmetic wraps around; log ids are integers.
-/

namespace IMBridge.Palf

def maxLogBodySize : Nat := 2 * 1024 * 1024 + 16 * 1024

def palfBlockSize : Nat := 2 ^ 26 - 4 * 1024

def clogFileTailPaddingTrigger : Nat := 4096

def maxLogBufferSize : Nat := maxLogBodySize + 4 * 1024 + clogFileTailPaddingTrigger

def groupHeaderSize : Nat := 56

def entryHeaderSize : Nat := 32

def maxScnTsNs : Nat := 2 ^ 62 - 1

/-- `SCN::is_valid`: the version, which is in the two upper bits, is 0. -/
def scnIsValid (scn : BitVec 64) : Bool := decide (scn.toNat / 2 ^ 62 = 0)

def lsnIsValid (lsn : BitVec 64) : Bool := decide (lsn ≠ BitVec.allOnes 64)

inductive AllocError where
  | notInit
  | invalidArgument
  | stateNotMatch
  | eagain
deriving DecidableEq, Repr

structure LSNTsMeta where
  isNeedCut : Bool
  logIdDelta : BitVec 28
  scnDelta : BitVec 35
  lsnVal : BitVec 64
deriving DecidableEq

structure LSNAllocator where
  lsnTsMeta : LSNTsMeta
  logIdBase : Int
  scnBase : BitVec 64
  isInited : Bool
deriving DecidableEq

structure AllocRequest where
  baseScn : BitVec 64
  size : Int
  logIdUpperBound : Int
  lsnUpperBound : BitVec 64

structure AllocOutput where
  lsn : Nat
  logId : Int
  scn : Nat
  isNewGroupLog : Bool
  needGenPaddingEntry : Bool
  paddingLen : Nat
deriving DecidableEq

namespace LSNAllocator

def logIdDeltaUpperBound : Nat := 2 ^ 28 - 1000

def logTsDeltaUpperBound : Nat := 2 ^ 35 - 1000

def logCutTrigger : Nat := 2 ^ 21

def logCutTriggerMask : Nat := 2 ^ 21 - 1

variable (alloc : LSNAllocator)

def maxLogId : Int := alloc.logIdBase + alloc.lsnTsMeta.logIdDelta.toNat

def maxScn : Nat := (alloc.scnBase.toNat + alloc.lsnTsMeta.scnDelta.toNat) % 2 ^ 64

def currEndLsn : Nat := alloc.lsnTsMeta.lsnVal.toNat

def incUpdateScnBase (refScn : BitVec 64) : Except AllocError Unit × LSNAllocator :=
  if alloc.isInited = false then (.error .notInit, alloc)
  else if scnIsValid refScn = false then (.error .invalidArgument, alloc)
  else if alloc.maxScn > refScn.toNat then (.ok (), alloc)
  else
    (.ok (), { alloc with
        lsnTsMeta := { alloc.lsnTsMeta with scnDelta := 0, isNeedCut := true }
        scnBase := refScn })

/-- `try_freeze_by_time`: the end of the log and its last id, if the last group was still open. -/
def tryFreezeByTime : Except AllocError (Nat × Int) × LSNAllocator :=
  if alloc.isInited = false then (.error .notInit, alloc)
  else if alloc.lsnTsMeta.isNeedCut then (.error .stateNotMatch, alloc)
  else
    (.ok (alloc.currEndLsn, alloc.maxLogId),
      { alloc with lsnTsMeta := { alloc.lsnTsMeta with isNeedCut := true } })

/-- `try_freeze`, which does not mind a group that is closed already. -/
def tryFreeze : Except AllocError (Nat × Int) × LSNAllocator :=
  if alloc.isInited = false then (.error .notInit, alloc)
  else if alloc.lsnTsMeta.isNeedCut then
    (.ok (alloc.currEndLsn, alloc.maxLogId), alloc)
  else
    (.ok (alloc.currEndLsn, alloc.maxLogId),
      { alloc with lsnTsMeta := { alloc.lsnTsMeta with isNeedCut := true } })

def updateBase (baseScn : BitVec 64) : LSNAllocator := { alloc with
    logIdBase := alloc.maxLogId
    scnBase := BitVec.ofNat 64 (max baseScn.toNat alloc.maxScn)
    lsnTsMeta := { alloc.lsnTsMeta with scnDelta := 0, logIdDelta := 0 } }

structure Grouping where
  isNewGroupLog : Bool
  nextBlockOffset : Nat
  isNextNeedCut : Bool

def newGroup (lastBlockOffset size : Nat) : Grouping where
  isNewGroupLog := true
  nextBlockOffset := lastBlockOffset + (size + groupHeaderSize)
  isNextNeedCut :=
    decide ((lastBlockOffset &&& logCutTriggerMask) + (size + groupHeaderSize) ≥ logCutTrigger)

/-- The log goes to the end of the last group entry unless that is cut or would cross 2 MB. -/
def group (isNeedCut : Bool) (lastBlockOffset size : Nat) : Grouping :=
  if isNeedCut then newGroup lastBlockOffset size
  else if lastBlockOffset > 0 ∧ lastBlockOffset &&& logCutTriggerMask = 0 then
    -- not expected; the `OB_ERR_UNEXPECTED` set here is overwritten after the exchange
    { isNewGroupLog := false
      nextBlockOffset := 0
      isNextNeedCut := false }
  else if lastBlockOffset > 0 ∧ (lastBlockOffset &&& logCutTriggerMask) + size > logCutTrigger then
    newGroup lastBlockOffset size
  else
    { isNewGroupLog := false
      nextBlockOffset := lastBlockOffset + size
      isNextNeedCut := decide ((lastBlockOffset &&& logCutTriggerMask) + size ≥ logCutTrigger) }

structure Placement extends Grouping where
  needGenPaddingEntry : Bool
  paddingLen : Nat
  nextBlockId : Nat

/-- The rest of the block becomes a padding entry and the log goes to the next block. -/
def padded (lastBlockId lastBlockOffset size : Nat) : Placement where
  isNewGroupLog := true
  needGenPaddingEntry := true
  paddingLen := palfBlockSize - lastBlockOffset
  nextBlockId := lastBlockId + 1
  nextBlockOffset := size + groupHeaderSize
  isNextNeedCut := decide (size + groupHeaderSize ≥ logCutTrigger)

def place (lastBlockId lastBlockOffset size : Nat) (grouping : Grouping) : Placement :=
  if grouping.nextBlockOffset < palfBlockSize then
    if palfBlockSize - grouping.nextBlockOffset < clogFileTailPaddingTrigger then
      padded lastBlockId lastBlockOffset size
    else
      { grouping with
        needGenPaddingEntry := false
        paddingLen := 0
        nextBlockId := lastBlockId }
  else if grouping.nextBlockOffset = palfBlockSize then
    -- the log ends where its block ends
    { grouping with
      needGenPaddingEntry := false
      paddingLen := 0
      nextBlockId := lastBlockId + 1
      nextBlockOffset := 0
      isNextNeedCut := true }
  else padded lastBlockId lastBlockOffset size

def Placement.newEntries (placement : Placement) : Nat :=
  placement.isNewGroupLog.toNat + placement.needGenPaddingEntry.toNat

def advance (nextScn : Nat) (placement : Placement) : LSNAllocator := { alloc with
    lsnTsMeta :=
      { isNeedCut := placement.isNextNeedCut
        logIdDelta := BitVec.ofNat 28 (alloc.lsnTsMeta.logIdDelta.toNat + placement.newEntries)
        scnDelta := BitVec.ofNat 35
          (nextScn + 2 ^ 64 - alloc.scnBase.toNat + placement.needGenPaddingEntry.toNat)
        lsnVal := BitVec.ofNat 64
          (placement.nextBlockId * palfBlockSize + placement.nextBlockOffset) } }

/-- What is returned after the exchange; the log id and the scn are those of the padding entry if
there is one. -/
def output (nextScn : Nat) (placement : Placement) : AllocOutput where
  lsn := alloc.currEndLsn
  logId := alloc.maxLogId + placement.isNewGroupLog.toNat
  scn := nextScn
  isNewGroupLog := placement.isNewGroupLog
  needGenPaddingEntry := placement.needGenPaddingEntry
  paddingLen := placement.paddingLen

/-- A round of the loop of `alloc_lsn_scn` under the read lock; `none` if the bases have to move
first. A failed `convert_for_logservice` leaves the word replaced. -/
def tryAlloc (request : AllocRequest) (size : Nat) :
    Option (Except AllocError AllocOutput × LSNAllocator) :=
  let nextScn := max request.baseScn.toNat ((alloc.maxScn + 1) % 2 ^ 64)
  if (nextScn + 1 + 2 ^ 64 - alloc.scnBase.toNat) % 2 ^ 64 ≥ logTsDeltaUpperBound then none
  else if alloc.lsnTsMeta.logIdDelta.toNat + 2 ≥ logIdDeltaUpperBound then none
  else
    let lastBlockId := alloc.currEndLsn / palfBlockSize
    let lastBlockOffset := alloc.currEndLsn % palfBlockSize
    let placement := place lastBlockId lastBlockOffset size
      (group alloc.lsnTsMeta.isNeedCut lastBlockOffset size)
    let next := alloc.advance nextScn placement
    if alloc.maxLogId + placement.newEntries > request.logIdUpperBound ∨
        next.currEndLsn > request.lsnUpperBound.toNat then
      some (.error .eagain, alloc)
    else if maxScnTsNs < nextScn then some (.error .invalidArgument, next)
    else some (.ok (alloc.output nextScn placement), next)

def allocRound (request : AllocRequest) : Option (Except AllocError AllocOutput × LSNAllocator) :=
  if alloc.isInited = false then some (.error .notInit, alloc)
  else if request.size ≤ 0 ∨ scnIsValid request.baseScn = false ∨ request.logIdUpperBound ≤ 0 ∨
      lsnIsValid request.lsnUpperBound = false then
    some (.error .invalidArgument, alloc)
  else alloc.tryAlloc request request.size.toNat

def allocLsnScn (request : AllocRequest) :
    Nat → LSNAllocator → Option (Except AllocError AllocOutput × LSNAllocator)
  | 0, _ => none
  | rounds + 1, alloc =>
    match alloc.allocRound request with
    | some result => some result
    | none => allocLsnScn request rounds (alloc.updateBase request.baseScn)

end LSNAllocator

end IMBridge.Palf
