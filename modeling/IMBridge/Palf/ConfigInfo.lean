import Mathlib.Data.List.Sort
import Mathlib.Data.Finset.Card
import Mathlib.Algebra.Order.Ring.Nat
import IMBridge.Lib.Outcome

/-!
Membership of a PALF group (`ob_member.h`, `ob_member_list.ipp`, `ob_learner_list.ipp`,
`log_meta_info.cpp`). Two members are equal only with equal timestamps and flags, while the lists
and the validity check identify servers by address.
-/

namespace IMBridge.Palf

open IMBridge.Lib.Outcome

inductive Err where
  | invalidArgument
  | sizeOverflow
  | entryExist
  | entryNotExist
  | notInit
  | errUnexpected
  | notAllowRemovingLeader
  | eagain
  | stateNotMatch
  | tryLockConfigChangeConflict
  | notSupported
  | notMaster
deriving DecidableEq, Repr

/-- `ObAddr`; 0 is the address that is not valid. -/
abbrev ObAddr := Nat

structure ObMember where
  server : ObAddr
  timestamp : Int
  flag : BitVec 64
deriving DecidableEq, Repr

namespace ObMember

variable (member : ObMember)

def isValid : Bool := decide (member.server ≠ 0)

def none : ObMember := ⟨0, -1, 0⟩

def withoutFlag : ObMember := ⟨member.server, member.timestamp, 0⟩

def resetMigrating : ObMember := { member with flag := member.flag &&& ~~~(1#64 <<< 1) }

@[simp] theorem resetMigrating_server : member.resetMigrating.server = member.server := rfl

end ObMember

def maxMemberNumber : Nat := 7

def maxGlobalLearnerNumber : Nat := 2000

/-- The contents of an `ObMemberList` or of a `GlobalLearnerList`, sorted by address. -/
abbrev MemberList := List ObMember

namespace MemberList

variable (list : MemberList)

def containsServer (server : ObAddr) : Bool :=
  list.any (fun member => decide (member.server = server))

def insertSorted (member : ObMember) : MemberList :=
  list.orderedInsert (fun a b => a.server < b.server) member

def addMember (member : ObMember) : Except Err MemberList :=
  if !member.isValid then .error .invalidArgument
  else if maxMemberNumber ≤ list.length then .error .sizeOverflow
  else if list.containsServer member.server then .error .entryExist
  else .ok (list.insertSorted member)

def removeServer (server : ObAddr) : Except Err MemberList :=
  if server = 0 then .error .invalidArgument
  else if !list.containsServer server then .error .entryNotExist
  else .ok (list.eraseP (fun member => decide (member.server = server)))

def memberAddrEqual (list other : MemberList) : Bool :=
  decide (list.length = other.length) && list.all (fun member => other.containsServer member.server)

variable (learner : ObMember)

def containsLearner : Bool := learner.isValid && list.contains learner

/-- `BaseLearnerList::add_learner`: only an equal member counts as present. -/
def addLearner : Except Err MemberList :=
  if !learner.isValid then .error .invalidArgument
  else if maxGlobalLearnerNumber ≤ list.length then .error .sizeOverflow
  else if list.containsLearner learner then .error .entryExist
  else .ok (list.insertSorted learner)

def removeLearner : Except Err MemberList :=
  if !learner.isValid then .error .invalidArgument
  else if !list.contains learner then .error .entryNotExist
  else .ok (list.erase learner)

def appendLearners (list : MemberList) : MemberList → Except Err MemberList
  | [] => .ok list
  | learner :: rest => do
      let list ← list.addLearner learner
      appendLearners list rest

def servers : List ObAddr := list.map ObMember.server

theorem servers_insertSorted (member : ObMember) :
    (list.insertSorted member).servers.Perm (member.server :: list.servers) :=
  (List.perm_orderedInsert _ member list).map ObMember.server

theorem containsServer_iff {list : MemberList} {server : ObAddr} :
    list.containsServer server = true ↔ server ∈ list.servers := by
  simp [containsServer, servers]

theorem addMember_eq_ok {list result : MemberList} {member : ObMember} (added : list.addMember member = .ok result) :
    result.servers.Perm (member.server :: list.servers) ∧ member.server ≠ 0 ∧ member.server ∉ list.servers := by
  unfold addMember at added
  split at added
  · cases added
  rename_i valid
  split at added
  · cases added
  split at added
  · cases added
  rename_i absent
  obtain rfl := Except.ok.inj added
  refine ⟨servers_insertSorted list member, by simpa [ObMember.isValid] using valid, ?_⟩
  intro present
  exact absent (containsServer_iff.mpr present)

theorem removeServer_eq_ok {list result : MemberList} {server : ObAddr}
    (removed : list.removeServer server = .ok result) :
    list.servers.Perm (server :: result.servers) ∧ server ≠ 0 := by
  unfold removeServer at removed
  split at removed
  · cases removed
  rename_i valid
  split at removed
  · cases removed
  rename_i present
  obtain rfl := Except.ok.inj removed
  have found : ∃ member ∈ list, decide (member.server = server) = true := by
    simpa [containsServer] using present
  obtain ⟨member, inList, same⟩ := found
  obtain ⟨first, before, after, -, matches_, split, erased⟩ :=
    List.exists_of_eraseP (p := fun member => decide (member.server = server)) inList same
  rw [erased, split]
  simp only [servers, List.map_append, List.map_cons]
  grind

end MemberList

def invalidProposalId : Int := 2 ^ 63 - 1

structure LogConfigVersion where
  proposalId : Int
  configSeq : Int
deriving DecidableEq, Repr

namespace LogConfigVersion

def isValid (version : LogConfigVersion) : Bool :=
  decide (version.proposalId ≠ invalidProposalId) && decide (0 ≤ version.configSeq)

/-- `operator>`: a version that is not valid is below every other. -/
def gt (version other : LogConfigVersion) : Bool :=
  if !version.isValid then false
  else if !other.isValid then true
  else decide (version.proposalId > other.proposalId ∨
    (version.proposalId = other.proposalId ∧ version.configSeq > other.configSeq))

/-- `operator<`: no version is below one that is not valid. -/
def lt (version other : LogConfigVersion) : Bool :=
  if !other.isValid then false
  else if !version.isValid then true
  else decide (version.proposalId < other.proposalId ∨
    (version.proposalId = other.proposalId ∧ version.configSeq < other.configSeq))

def incUpdateVersion (version : LogConfigVersion) (proposalId : Int) :
    Except Err LogConfigVersion :=
  if version.proposalId = invalidProposalId ∨ version.configSeq < 0 then .error .notInit
  else if proposalId = invalidProposalId ∨ proposalId < version.proposalId then
    .error .invalidArgument
  else .ok ⟨proposalId, version.configSeq + 1⟩

end LogConfigVersion

structure LogConfigInfo where
  logSyncMemberlist : MemberList
  logSyncReplicaNum : Int
  arbitrationMember : ObMember
  learnerlist : MemberList
  degradedLearnerlist : MemberList
  configVersion : LogConfigVersion
deriving DecidableEq, Repr

namespace LogConfigInfo

/-- `check_list_unique`: the members of `list` join `serverList` one by one. -/
def checkListUnique (serverList : MemberList) : MemberList → Except Err MemberList
  | [] => .ok serverList
  | member :: rest =>
      if serverList.containsServer member.server then .error .invalidArgument
      else do
        let serverList ← serverList.addLearner member
        checkListUnique serverList rest

variable (config : LogConfigInfo)

def isAllListUnique : Bool :=
  let checked : Except Err MemberList := do
    let serverList ← (if config.arbitrationMember.isValid then
      MemberList.addLearner [] config.arbitrationMember else .ok [])
    let serverList ← checkListUnique serverList config.logSyncMemberlist
    let serverList ← checkListUnique serverList config.degradedLearnerlist
    checkListUnique serverList config.learnerlist
  checked.isOk

def isValid : Bool := !config.logSyncMemberlist.isEmpty && config.isAllListUnique &&
    decide (0 < config.logSyncReplicaNum) &&
    decide (config.logSyncReplicaNum ≤ maxMemberNumber) && config.configVersion.isValid

def hasMembers : Bool :=
  !config.logSyncMemberlist.isEmpty && decide (0 < config.logSyncReplicaNum) &&
    decide (config.logSyncReplicaNum ≤ maxMemberNumber)

def addDegraded : MemberList → Int → MemberList → Except Err (MemberList × Int)
  | paxos, replicaNum, [] => .ok (paxos, replicaNum)
  | paxos, replicaNum, member :: rest => do
      let paxos ← paxos.addMember member
      addDegraded paxos (replicaNum + 1) rest

def getExpectedPaxosMemberlist : Except Err (MemberList × Int) :=
  if !config.hasMembers then .ok ([], 0)
  else addDegraded config.logSyncMemberlist config.logSyncReplicaNum config.degradedLearnerlist

def convertToCompleteConfig : Except Err (MemberList × Int × MemberList) :=
  if !config.hasMembers then .error .notInit
  else do
    let allLearners ← MemberList.appendLearners [] config.learnerlist
    let allLearners ← allLearners.appendLearners config.degradedLearnerlist
    if config.arbitrationMember.isValid then
      let paxos ← config.logSyncMemberlist.addMember config.arbitrationMember
      return (paxos, config.logSyncReplicaNum + 1, allLearners)
    else return (config.logSyncMemberlist, config.logSyncReplicaNum, allLearners)

end LogConfigInfo

end IMBridge.Palf
