import IMBridge.Lib.Quorum
import IMBridge.Palf.ConfigChange

/-!
The commit position of a PALF leader (`log_sliding_window.cpp`, `log_config_mgr.cpp`): acknowledged
positions, majority position, the commit rule around the barrier of a reconfiguration, and
`append_config_meta_`. Of the submitted and the flushed log only the end counts here.
-/

namespace IMBridge.Palf

open IMBridge.Lib
open IMBridge.Lib.Outcome

abbrev LSN := Fin (2 ^ 64)

/-- `LOG_INVALID_LSN_VAL`, above every position that is valid. -/
def invalidLsn : LSN := ⟨2 ^ 64 - 1, by decide⟩

def initialLsn : LSN := 0

structure ReconfigBarrier where
  prevEndLsn : LSN
  prevModePid : Int
deriving DecidableEq, Repr

/-- The state of a leader, as far as committing and reconfiguring read it: `log_ms_meta_` is
`mgr.curr` with `prev`. -/
structure PalfLeader where
  mgr : LogConfigMgr
  prev : LogConfigInfoV2
  checkingBarrier : ReconfigBarrier
  reconfigBarrier : ReconfigBarrier
  matchLsnMap : ObAddr → Option LSN
  committedEndLsn : LSN
  lastSubmitEndLsn : LSN
  maxFlushedEndLsn : LSN
  modeProposalId : Int
  isLeaderActive : Bool
  isChangingConfigWithArb : Bool

namespace PalfLeader

variable (leader : PalfLeader)

def currConfig : LogConfigInfo := leader.mgr.curr.config

def prevConfig : LogConfigInfo := leader.prev.config

/-- `get_majority_lsn_`: members without an entry are skipped, and if the others are fewer than a
majority the result keeps its invalid value. -/
def getMajorityLsn (list : MemberList) (replicaNum : Int) : Except Err LSN :=
  let lsns := list.servers.filterMap leader.matchLsnMap
  if (lsns.length : Int) < replicaNum.tdiv 2 + 1 then .ok invalidLsn
  else
    let result := (Quorum.kthLargest (replicaNum.tdiv 2).toNat lsns).getD invalidLsn
    if result = invalidLsn then .error .errUnexpected else .ok result

def tryAdvanceCommittedLsn (endLsn : LSN) : PalfLeader :=
  if endLsn = invalidLsn then leader
  else if leader.committedEndLsn < endLsn then { leader with committedEndLsn := endLsn }
  else leader

/-- `is_before_barrier` of `get_log_sync_member_list_for_generate_committed_lsn`. -/
def isBeforeBarrier : Bool := decide (leader.committedEndLsn < leader.reconfigBarrier.prevEndLsn ∧
    leader.reconfigBarrier.prevEndLsn ≠ invalidLsn ∧
    leader.modeProposalId = leader.reconfigBarrier.prevModePid)

def barrierLsn : LSN :=
  if leader.isBeforeBarrier then leader.reconfigBarrier.prevEndLsn else initialLsn

def newCommittedEndLsn : Except Err LSN := do
  let currResult ← leader.getMajorityLsn leader.currConfig.logSyncMemberlist
    leader.currConfig.logSyncReplicaNum
  if leader.isBeforeBarrier then
    let prevResult ← leader.getMajorityLsn leader.prevConfig.logSyncMemberlist
      leader.prevConfig.logSyncReplicaNum
    return min (max prevResult currResult) leader.barrierLsn
  else return currResult

/-- `gen_committed_end_lsn_`, whose return code the callers ignore. -/
def genCommittedEndLsn : PalfLeader :=
  match leader.newCommittedEndLsn with
  | .ok result =>
      if leader.isChangingConfigWithArb then leader else leader.tryAdvanceCommittedLsn result
  | .error _ => leader

def genCommittedEndLsnWithMemberlist (list : MemberList) (replicaNum : Int) :
    PalfLeader :=
  if list.isEmpty ∨ replicaNum ≤ 0 ∨ replicaNum < list.length then leader
  else match leader.getMajorityLsn list replicaNum with
    | .ok result => leader.tryAdvanceCommittedLsn result
    | .error _ => leader

/-- `try_update_match_lsn_map_` on valid arguments: an entry only grows. -/
def tryUpdateMatchLsnMap (server : ObAddr) (endLsn : LSN) : PalfLeader := { leader with
    matchLsnMap := Function.update leader.matchLsnMap server
      (some (match leader.matchLsnMap server with
        | some lsn => if lsn ≤ endLsn then endLsn else lsn
        | none => endLsn)) }

/-- The first part of `ack_log`; `none` if the acknowledgement is not recorded. -/
def recordAck (srcServer : ObAddr) (endLsn : LSN) : Option PalfLeader :=
  if srcServer = 0 ∨ endLsn = invalidLsn then none
  else if leader.currConfig.logSyncMemberlist.containsServer srcServer ||
      leader.currConfig.degradedLearnerlist.containsServer srcServer then
    some (leader.tryUpdateMatchLsnMap srcServer endLsn)
  else none

def genIfActive : PalfLeader :=
  if leader.isLeaderActive then leader.genCommittedEndLsn else leader

def ackLog (srcServer : ObAddr) (endLsn : LSN) : PalfLeader :=
  match leader.recordAck srcServer endLsn with
  | some recorded => recorded.genIfActive
  | none => leader

def recordFlush (endLsn : LSN) : PalfLeader :=
  { leader with maxFlushedEndLsn := max leader.maxFlushedEndLsn endLsn }.tryUpdateMatchLsnMap
    leader.mgr.self endLsn

def afterFlushLog (endLsn : LSN) : PalfLeader := (leader.recordFlush endLsn).genIfActive

def resetMatchLsnMap : PalfLeader := { leader with
    matchLsnMap := fun server =>
      if leader.currConfig.logSyncMemberlist.containsServer server then
        some (if server = leader.mgr.self then leader.maxFlushedEndLsn else leader.committedEndLsn)
      else none }

def toLeaderActive : PalfLeader := { leader.resetMatchLsnMap with isLeaderActive := true }

/-- The loops of `config_change_update_match_lsn_map`: an added server gets an entry unless it has
one, and then the removed servers lose theirs. -/
def changeMatchLsnMap (added removed : MemberList) : PalfLeader := { leader with
    matchLsnMap := fun server =>
      if removed.containsServer server then none
      else if added.containsServer server then
        some ((leader.matchLsnMap server).getD initialLsn)
      else leader.matchLsnMap server }

def configChangeUpdateMatchLsnMap (added removed newList : MemberList)
    (newReplicaNum : Int) : PalfLeader :=
  let leader := (leader.changeMatchLsnMap added removed).genCommittedEndLsn
  if leader.isLeaderActive then leader.genCommittedEndLsnWithMemberlist newList newReplicaNum
  else leader

variable (args : LogConfigChangeArgs)

/-- The servers that `update_match_lsn_map_` adds to the map and removes from it. -/
def addedMemberlist : Except Err MemberList :=
  if args.type.isAddLogSyncMemberList then MemberList.addMember [] args.server else .ok []

def removedMemberlist : Except Err MemberList :=
  if args.type.isRemoveLogSyncMemberList then MemberList.addMember [] args.server else .ok []

/-- `update_match_lsn_map_`, whose return code is ignored. -/
def updateMatchLsnMap (new : LogConfigInfoV2) :
    PalfLeader :=
  match addedMemberlist args, removedMemberlist args with
  | .ok added, .ok removed =>
      leader.configChangeUpdateMatchLsnMap added removed new.config.logSyncMemberlist
        new.config.logSyncReplicaNum
  | _, _ => leader

def renewedBarrier : ReconfigBarrier := ⟨leader.lastSubmitEndLsn, leader.modeProposalId⟩

/-- `append_config_meta_` up to the new configuration; `none` if the change has finished already.
`election` is the return code of the election module. -/
def newConfigInfo (proposalId now : Int) (election : Except Err Unit)
    (args : LogConfigChangeArgs) : Except Err (Option LogConfigInfoV2) :=
  if proposalId = invalidProposalId ∨ args.isValid = false then .error .invalidArgument
  else if leader.mgr.proposalId ≠ proposalId then
    .error (if args.type = .forceSingleMember then .stateNotMatch else .notMaster)
  else do
    let finished ← leader.mgr.checkConfigChangeArgs now args
    if finished then return none
    else
      let new ← leader.mgr.generateNewConfigInfo proposalId now args
      let _ ← new.config.convertToCompleteConfig
      election
      -- `LogConfigMeta::generate`
      if new.isValid then return some new else .error .invalidArgument

/-- The new configuration and its barrier take effect together; the barrier is renewed only
without an arbitration member. -/
def installConfig (new : LogConfigInfoV2) : PalfLeader :=
  let barrier := if new.config.arbitrationMember.isValid then leader.checkingBarrier
    else leader.renewedBarrier
  { leader with
    prev := leader.mgr.curr
    mgr := { leader.mgr with curr := new }
    checkingBarrier := barrier
    reconfigBarrier := barrier }

def appendConfigMeta (proposalId now : Int) (election : Except Err Unit)
    (args : LogConfigChangeArgs) : Except Err PalfLeader := do
  match ← leader.newConfigInfo proposalId now election args with
  | none => return leader
  | some new =>
      let installed := leader.installConfig new
      if new.config.arbitrationMember.isValid then return installed
      else return installed.updateMatchLsnMap args new

end PalfLeader

end IMBridge.Palf
