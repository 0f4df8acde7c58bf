import IMBridge.Palf.ConfigInfo

/-!
Reconfiguration of a PALF group (`log_config_mgr.cpp`): the change types, the check of a change
against the current configuration, and the generator of the new one.
-/

namespace IMBridge.Palf

inductive LogConfigChangeType where
  | invalid
  | changeReplicaNum
  | addMember
  | addArbMember
  | removeMember
  | removeArbMember
  | addMemberAndNum
  | removeMemberAndNum
  | addLearner
  | removeLearner
  | switchLearnerToAcceptor
  | switchAcceptorToLearner
  | degradeAcceptorToLearner
  | upgradeLearnerToAcceptor
  | startWorking
  | forceSingleMember
  | tryLockConfigChange
  | unlockConfigChange
  | replaceLearners
  | switchLearnerToAcceptorAndNum
deriving DecidableEq, Repr

namespace LogConfigChangeType

def needCheckConfigVersion (isClusterAlready4200 : Bool) (type : LogConfigChangeType) : Bool :=
  isClusterAlready4200 && (type matches .addMember | .addMemberAndNum | .switchLearnerToAcceptor |
    .switchLearnerToAcceptorAndNum)

variable (type : LogConfigChangeType)

def isAddLogSyncMemberList : Bool :=
  type matches .addMember | .addMemberAndNum | .switchLearnerToAcceptor |
    .upgradeLearnerToAcceptor | .switchLearnerToAcceptorAndNum

def isRemoveLogSyncMemberList : Bool :=
  type matches .removeMember | .removeMemberAndNum | .switchAcceptorToLearner |
    .degradeAcceptorToLearner

def isAddMemberList : Bool := type.isAddLogSyncMemberList || type matches .addArbMember

def isRemoveMemberList : Bool := type.isRemoveLogSyncMemberList || type matches .removeArbMember

def isArbMemberChangeType : Bool := type matches .addArbMember | .removeArbMember

def isAddLearnerList : Bool :=
  type matches .addLearner | .switchAcceptorToLearner | .degradeAcceptorToLearner | .replaceLearners

def isRemoveLearnerList : Bool :=
  type matches .removeLearner | .switchLearnerToAcceptor | .upgradeLearnerToAcceptor |
    .switchLearnerToAcceptorAndNum | .replaceLearners

def isUseReplicaNumArgs : Bool :=
  type matches .addMember | .removeMember | .changeReplicaNum | .forceSingleMember |
    .switchLearnerToAcceptor | .switchAcceptorToLearner

def isMayChangeReplicaNum : Bool := type.isAddMemberList || type.isRemoveMemberList ||
    type matches .changeReplicaNum | .forceSingleMember

def isPaxosMemberListChange : Bool :=
  type matches .addMember | .removeMember | .addMemberAndNum | .removeMemberAndNum |
    .switchLearnerToAcceptor | .switchAcceptorToLearner | .changeReplicaNum

def isUseLists : Bool := type matches .replaceLearners

end LogConfigChangeType

/-- `ConfigChangeLockType`; `other` stands for the values that are reserved for later. -/
inductive LockType where
  | lockNothing
  | lockPaxosMemberChange
  | other
deriving DecidableEq, Repr

def invalidLockOwner : Int := -1
def invalidTimestamp : Int := -1

structure LogLockMeta where
  version : Int
  lockOwner : Int
  lockType : LockType
  lockTime : Int
deriving DecidableEq, Repr

namespace LogLockMeta

def currentVersion : Int := 1

def isValid (lock : LogLockMeta) : Bool := decide (lock.version = currentVersion ∧
    ((0 < lock.lockOwner ∧ lock.lockType = .lockPaxosMemberChange ∧ lock.lockTime ≠ invalidTimestamp) ∨
      (lock.lockType = .lockNothing ∧
        ((lock.lockOwner = invalidLockOwner ∧ lock.lockTime = invalidTimestamp) ∨
          (lock.lockOwner ≠ invalidLockOwner ∧ lock.lockTime ≠ invalidTimestamp)))))

def isLocked (lock : LogLockMeta) : Bool := decide (lock.lockType = .lockPaxosMemberChange)

def generate (now lockOwner : Int) (lockType : LockType) : Except Err LogLockMeta :=
  if lockType ≠ .lockPaxosMemberChange ∨ lockOwner ≤ 0 then .error .invalidArgument
  else .ok ⟨currentVersion, lockOwner, lockType, now⟩

def unlock (now : Int) (lock : LogLockMeta) : LogLockMeta :=
  { lock with lockType := .lockNothing, lockTime := now }

end LogLockMeta

structure LogConfigInfoV2 where
  version : Int
  config : LogConfigInfo
  lockMeta : LogLockMeta
deriving DecidableEq, Repr

def LogConfigInfoV2.isValid (info : LogConfigInfoV2) : Bool :=
  decide (info.version = 1) && info.config.isValid && info.lockMeta.isValid

structure LogConfigChangeArgs where
  server : ObMember
  currMemberList : MemberList
  currReplicaNum : Int
  newReplicaNum : Int
  configVersion : LogConfigVersion
  lockOwner : Int
  lockType : LockType
  type : LogConfigChangeType
  addedList : MemberList
  removedList : MemberList
deriving DecidableEq, Repr

def isValidReplicaNum (replicaNum : Int) : Bool :=
  decide (0 < replicaNum) && decide (replicaNum ≤ maxMemberNumber)

def LogConfigChangeArgs.isValid (args : LogConfigChangeArgs) : Bool :=
  decide (args.type ≠ .invalid) &&
  (!(args.type.isAddMemberList || args.type.isRemoveMemberList || args.type.isAddLearnerList ||
      args.type.isRemoveLearnerList) ||
    (args.server.isValid || (!args.addedList.isEmpty && !args.removedList.isEmpty))) &&
  (!args.type.isUseReplicaNumArgs || isValidReplicaNum args.newReplicaNum) &&
  (!(args.type matches .changeReplicaNum) ||
    (!args.currMemberList.isEmpty && isValidReplicaNum args.currReplicaNum &&
      isValidReplicaNum args.newReplicaNum)) &&
  (!(args.type matches .tryLockConfigChange | .unlockConfigChange) ||
    decide (args.lockOwner ≠ invalidLockOwner))

namespace LogConfigInfo

variable (config : LogConfigInfo) (args : LogConfigChangeArgs)

/-- The first part of `generate_new_config_info_`: where the new replica number comes from. -/
def newLogSyncReplicaNum : Except Err Int :=
  if !args.type.isMayChangeReplicaNum then .ok config.logSyncReplicaNum
  else do
    let isRemoveDegradedLearner :=
      args.type.isRemoveLogSyncMemberList && config.degradedLearnerlist.containsLearner args.server
    let replicaNum ← (
      if args.type.isUseReplicaNumArgs then
        let degradedCnt : Int := config.degradedLearnerlist.length
        .ok (args.newReplicaNum - (if isRemoveDegradedLearner then degradedCnt - 1 else degradedCnt))
      else if args.type.isAddLogSyncMemberList then .ok (config.logSyncReplicaNum + 1)
      else if args.type.isRemoveLogSyncMemberList && isRemoveDegradedLearner then
        .ok config.logSyncReplicaNum
      else if args.type.isRemoveLogSyncMemberList && !isRemoveDegradedLearner then
        .ok (config.logSyncReplicaNum - 1)
      else if args.type.isArbMemberChangeType then .ok config.logSyncReplicaNum
      else .error .errUnexpected)
    -- the remaining members would not be a majority of the requested number
    if isRemoveDegradedLearner && decide ((config.logSyncMemberlist.length * 2 : Int) = replicaNum) then
      return config.logSyncReplicaNum
    else return replicaNum

def addToMembers : Except Err LogConfigInfo :=
  if !args.type.isAddMemberList then .ok config
  else if args.type.isAddLogSyncMemberList then do
    let members ← config.logSyncMemberlist.addMember args.server.resetMigrating
    return { config with logSyncMemberlist := members }
  else .ok { config with arbitrationMember := args.server }

def removeFromMembers :
    Except Err LogConfigInfo :=
  if !args.type.isRemoveMemberList then .ok config
  else if !args.type.isRemoveLogSyncMemberList then .ok { config with arbitrationMember := .none }
  else if config.logSyncMemberlist.contains args.server then do
    let members ← config.logSyncMemberlist.removeServer args.server.server
    return { config with logSyncMemberlist := members }
  else if config.degradedLearnerlist.containsLearner args.server then do
    let degraded ← config.degradedLearnerlist.removeLearner args.server
    return { config with degradedLearnerlist := degraded }
  else .error .invalidArgument

/-- The loop over `added_list_`, which passes over learners that are there already. -/
def addLearners : MemberList → MemberList → Except Err MemberList
  | list, [] => .ok list
  | list, learner :: rest =>
      match list.addLearner learner with
      | .ok list => addLearners list rest
      | .error .entryExist => addLearners list rest
      | .error err => .error err

def removeLearners : MemberList → MemberList → Except Err MemberList
  | list, [] => .ok list
  | list, learner :: rest =>
      match list.removeLearner learner with
      | .ok list => removeLearners list rest
      | .error .entryNotExist => removeLearners list rest
      | .error err => .error err

def addToLearners : Except Err LogConfigInfo :=
  if !args.type.isAddLearnerList then .ok config
  else if args.type matches .degradeAcceptorToLearner then do
    let degraded ← config.degradedLearnerlist.addLearner args.server
    return { config with degradedLearnerlist := degraded }
  else do
    let learners ← (if args.type.isUseLists then addLearners config.learnerlist args.addedList
      else config.learnerlist.addLearner args.server)
    return { config with learnerlist := learners }

def removeFromLearners :
    Except Err LogConfigInfo :=
  if !args.type.isRemoveLearnerList then .ok config
  else if args.type matches .upgradeLearnerToAcceptor then do
    let degraded ← config.degradedLearnerlist.removeLearner args.server
    return { config with degradedLearnerlist := degraded }
  else do
    let learners ← (if args.type.isUseLists then removeLearners config.learnerlist args.removedList
      else config.learnerlist.removeLearner args.server)
    return { config with learnerlist := learners }

/-- The steps of `generate_new_config_info_` on the lists and on the replica number. -/
def changeLists : Except Err LogConfigInfo := do
  let replicaNum ← config.newLogSyncReplicaNum args
  let config ← config.addToMembers args
  let config ← config.removeFromMembers args
  let config ← config.addToLearners args
  let config ← config.removeFromLearners args
  return { config with logSyncReplicaNum := replicaNum }

/-- `FORCE_SINGLE_MEMBER`; the return code of `add_member` is ignored. -/
def forceSingle : LogConfigInfo := { config with
    logSyncMemberlist := (MemberList.addMember [] args.server).toOption.getD []
    degradedLearnerlist := []
    arbitrationMember := .none
    logSyncReplicaNum := args.newReplicaNum }

end LogConfigInfo

structure LogConfigMgr where
  self : ObAddr
  curr : LogConfigInfoV2
  proposalId : Int
  isClusterAlready4200 : Bool

namespace LogConfigMgr

def newLockMeta (lock : LogLockMeta) (now : Int) (args : LogConfigChangeArgs) : Except Err LogLockMeta :=
  match args.type with
  | .tryLockConfigChange => LogLockMeta.generate now args.lockOwner args.lockType
  | .unlockConfigChange => .ok (lock.unlock now)
  | _ => .ok lock

def generateNewConfigInfo (mgr : LogConfigMgr) (proposalId now : Int) (args : LogConfigChangeArgs) :
    Except Err LogConfigInfoV2 :=
  if proposalId = invalidProposalId ∨ args.isValid = false then .error .invalidArgument
  else do
    let version ← mgr.curr.config.configVersion.incUpdateVersion proposalId
    let config := { mgr.curr.config with configVersion := version }
    if args.type = .startWorking then return { mgr.curr with config := config }
    else
      let config ← config.changeLists args
      let lock ← newLockMeta mgr.curr.lockMeta now args
      let config := if args.type = .forceSingleMember then config.forceSingle args else config
      let info : LogConfigInfoV2 := { mgr.curr with config := config, lockMeta := lock }
      if info.isValid then return info else .error .invalidArgument

def canMemberlistMajority (memberListLen : Nat) (replicaNum : Int) : Bool :=
  if replicaNum < memberListLen then false
  else if (memberListLen : Int) < replicaNum.tdiv 2 + 1 then false
  else true

/-- Where the server of a change stands in the current configuration, as
`check_config_change_args_by_type_` looks it up. -/
structure Standing where
  isInLogSyncMemberlist : Bool
  isInDegradedLearnerlist : Bool
  isInLearnerlist : Bool
  isArbReplica : Bool
  hasArbReplica : Bool

def standing (mgr : LogConfigMgr) (args : LogConfigChangeArgs) : Standing where
  isInLogSyncMemberlist := mgr.curr.config.logSyncMemberlist.contains args.server.withoutFlag
  isInDegradedLearnerlist := mgr.curr.config.degradedLearnerlist.containsLearner args.server
  isInLearnerlist := mgr.curr.config.learnerlist.containsLearner args.server
  isArbReplica := decide (mgr.curr.config.arbitrationMember = args.server)
  hasArbReplica := mgr.curr.config.arbitrationMember.isValid

/-- The end of most cases: the change has finished if the condition holds, and is refused if not. -/
def finishedIf (condition : Bool) : Except Err Bool :=
  if condition then .ok true else .error .invalidArgument

def checkChangeReplicaNum (currMemberList : MemberList) (currReplicaNum : Int)
    (args : LogConfigChangeArgs) : Except Err Bool :=
  let sameMembers := currMemberList.memberAddrEqual args.currMemberList
  if currReplicaNum = args.newReplicaNum ∧ sameMembers then .ok true
  else if sameMembers = false ∨ currReplicaNum ≠ args.currReplicaNum then .error .invalidArgument
  else .ok false

variable (at_ : Standing) (sameNum : Bool)

def checkAddMember (type : LogConfigChangeType) : Except Err Bool :=
  if at_.isInLearnerlist || at_.isInDegradedLearnerlist || at_.isArbReplica then .error .invalidArgument
  else if at_.isInLogSyncMemberlist then
    finishedIf ((type matches .addMemberAndNum) || sameNum)
  else .ok false

def checkRemoveMember (config : LogConfigInfo) (args : LogConfigChangeArgs) : Except Err Bool :=
  if at_.isInLearnerlist || at_.isArbReplica then .error .invalidArgument
  else if at_.isInLogSyncMemberlist then .ok false
  else if at_.isInDegradedLearnerlist then .ok false
  else finishedIf ((args.type matches .removeMemberAndNum) || sameNum ||
    (at_.hasArbReplica && config.degradedLearnerlist.isEmpty &&
      decide ((config.logSyncMemberlist.length * 2 : Int) = args.newReplicaNum)))

def checkAddArbMember : Except Err Bool :=
  if at_.isInLearnerlist || at_.isInDegradedLearnerlist || at_.isInLogSyncMemberlist then
    .error .invalidArgument
  else if at_.isArbReplica then finishedIf sameNum
  else if at_.hasArbReplica then .error .invalidArgument
  else .ok false

def checkRemoveArbMember : Except Err Bool :=
  if at_.isInLearnerlist || at_.isInDegradedLearnerlist || at_.isInLogSyncMemberlist then
    .error .invalidArgument
  else if !at_.isArbReplica then finishedIf sameNum
  else .ok false

/-- `ADD_LEARNER` and `REMOVE_LEARNER`; `done` says whether the learner list is already as wanted. -/
def checkLearner (done : Bool) : Except Err Bool :=
  if at_.isInLogSyncMemberlist || at_.isInDegradedLearnerlist || at_.isArbReplica then
    .error .invalidArgument
  else .ok done

def checkLearnerToAcceptor (type : LogConfigChangeType) :
    Except Err Bool :=
  let isLearner := at_.isInDegradedLearnerlist || at_.isInLearnerlist
  if isLearner && at_.isInLogSyncMemberlist then .error .errUnexpected
  else if isLearner then
    if (type matches .upgradeLearnerToAcceptor) && at_.isInLearnerlist then .error .invalidArgument
    else if !(type matches .upgradeLearnerToAcceptor) && at_.isInDegradedLearnerlist then
      .error .invalidArgument
    else .ok false
  else if at_.isInLogSyncMemberlist then
    finishedIf (!(type matches .switchLearnerToAcceptor) || sameNum)
  else .error .invalidArgument

def checkAcceptorToLearner (type : LogConfigChangeType) :
    Except Err Bool :=
  let isLearner := at_.isInLearnerlist || at_.isInDegradedLearnerlist
  let isDegrade := type matches .degradeAcceptorToLearner
  if !at_.hasArbReplica && isDegrade then .error .invalidArgument
  else if isLearner && at_.isInLogSyncMemberlist then .error .errUnexpected
  else if isLearner then
    if isDegrade && at_.isInLearnerlist then .error .invalidArgument
    else if !isDegrade && at_.isInDegradedLearnerlist then .error .invalidArgument
    else finishedIf (isDegrade || sameNum)
  else if at_.isInLogSyncMemberlist then .ok false
  else .error .invalidArgument

def checkTryLock (lock : LogLockMeta) (args : LogConfigChangeArgs) : Except Err Bool :=
  if args.lockOwner = lock.lockOwner then
    if lock.lockType = .lockPaxosMemberChange then .ok true else .error .stateNotMatch
  else if lock.lockOwner < args.lockOwner then
    if lock.lockType = .lockNothing then .ok false else .error .tryLockConfigChangeConflict
  else .error .stateNotMatch

def checkUnlock (lock : LogLockMeta) (args : LogConfigChangeArgs) : Except Err Bool :=
  if args.lockOwner = lock.lockOwner then
    match lock.lockType with
    | .lockPaxosMemberChange => .ok false
    | .lockNothing => .ok true
    | .other => .error .notSupported
  else .error .stateNotMatch

/-- The loop over `added_list_`: it stops at the first server that is not a learner yet, so the
servers behind that one are not compared with the members. -/
def allAddedInLearnerlist (currMemberList learners : MemberList) : MemberList → Except Err Bool
  | [] => .ok true
  | member :: rest =>
      if currMemberList.containsServer member.server then .error .invalidArgument
      else if !learners.containsLearner member then .ok false
      else allAddedInLearnerlist currMemberList learners rest

def checkReplaceLearners (currMemberList : MemberList) (config : LogConfigInfo)
    (args : LogConfigChangeArgs) : Except Err Bool := do
  let allAdded ← allAddedInLearnerlist currMemberList config.learnerlist args.addedList
  let allRemoved := args.removedList.all (fun member => !config.learnerlist.containsLearner member)
  return allAdded && allRemoved

variable (mgr : LogConfigMgr)

/-- `check_config_change_args_by_type_`; the result is `is_already_finished`. -/
def checkConfigChangeArgsByType (args : LogConfigChangeArgs) :
    Except Err Bool := do
  let (currMemberList, currReplicaNum) ← mgr.curr.config.getExpectedPaxosMemberlist
  let at_ := mgr.standing args
  let sameNum := decide (args.newReplicaNum = currReplicaNum)
  match args.type with
  | .changeReplicaNum => checkChangeReplicaNum currMemberList currReplicaNum args
  | .addMember | .addMemberAndNum => checkAddMember at_ sameNum args.type
  | .removeMember | .removeMemberAndNum => checkRemoveMember at_ sameNum mgr.curr.config args
  | .addArbMember => checkAddArbMember at_ sameNum
  | .removeArbMember => checkRemoveArbMember at_ sameNum
  | .addLearner => checkLearner at_ at_.isInLearnerlist
  | .removeLearner => checkLearner at_ (!at_.isInLearnerlist)
  | .switchLearnerToAcceptor | .switchLearnerToAcceptorAndNum | .upgradeLearnerToAcceptor =>
      checkLearnerToAcceptor at_ sameNum args.type
  | .switchAcceptorToLearner | .degradeAcceptorToLearner =>
      checkAcceptorToLearner at_ sameNum args.type
  | .startWorking | .forceSingleMember => .ok false
  | .tryLockConfigChange => checkTryLock mgr.curr.lockMeta args
  | .unlockConfigChange => checkUnlock mgr.curr.lockMeta args
  | .replaceLearners => checkReplaceLearners currMemberList mgr.curr.config args
  | .invalid => .error .invalidArgument

/-- The last part of `check_config_change_args_`. A new configuration without the leader is logged
and then passes without the size check. -/
def checkNewConfig (now : Int) (args : LogConfigChangeArgs) : Except Err Bool := do
  let new ← mgr.generateNewConfigInfo mgr.proposalId now args
  let (paxos, paxosReplicaNum, _) ← new.config.convertToCompleteConfig
  let members := new.config.logSyncMemberlist
  if !paxos.containsServer mgr.self || !members.containsServer mgr.self then return false
  else if !canMemberlistMajority members.length new.config.logSyncReplicaNum ||
      !canMemberlistMajority paxos.length paxosReplicaNum then .error .invalidArgument
  else return false

/-- `check_config_change_args_`; the result is `is_already_finished`. -/
def checkConfigChangeArgs (now : Int) (args : LogConfigChangeArgs) :
    Except Err Bool :=
  let version := mgr.curr.config.configVersion
  let needCheck := args.type.needCheckConfigVersion mgr.isClusterAlready4200
  if args.isValid = false then .error .invalidArgument
  else if args.type.isRemoveMemberList ∧ mgr.self = args.server.server then
    .error .notAllowRemovingLeader
  else if mgr.curr.lockMeta.isLocked ∧ args.type.isPaxosMemberListChange then .error .eagain
  else if needCheck ∧ args.configVersion.gt version then .error .errUnexpected
  else do
    let finished ← mgr.checkConfigChangeArgsByType args
    if finished then return true
    else if needCheck ∧ args.configVersion ≠ version then .error .stateNotMatch
    else mgr.checkNewConfig now args

end LogConfigMgr

end IMBridge.Palf
