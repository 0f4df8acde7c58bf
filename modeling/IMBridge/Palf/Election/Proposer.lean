import Mathlib.Data.Fintype.Card
import IMBridge.Lib.Quorum
import IMBridge.Palf.Election.Message

/-!
The proposer of the election (`election_proposer.cpp`, `MemberListWithStates`). Functions that read
the clock, write the leader lease or send messages take the moments at which they do.
-/

namespace IMBridge.Palf.Election.ElectionProposer

open IMBridge.Lib.Quorum

variable {T : Type} {n : Nat} (proposer : ElectionProposer T n)

def checkLeader (now : Int) : Bool :=
  decide (now < LeaderLeaseAndEpoch.lease proposer.leaderLeaseAndEpoch)

def clearStates : ElectionProposer T n :=
  { proposer with
    prepareOk := fun _ => false
    acceptOkPromiseNotVoteBeforeLocalTs := fun _ => 0 }

def recordPrepareOk (res : PrepareResponseMsg n) :
    ElectionProposer T n × Nat :=
  let prepareOk := Function.update proposer.prepareOk res.sender true
  ({ proposer with prepareOk }, Fintype.card { server : Fin n // prepareOk server = true })

def recordAcceptOk (res : AcceptResponseMsg n) :
    ElectionProposer T n × Nat :=
  let recorded := proposer.acceptOkPromiseNotVoteBeforeLocalTs
  let accepted := Function.update recorded res.sender
    (max (recorded res.sender) (res.leaseStartedTsOnProposer + res.leaseInterval))
  ({ proposer with acceptOkPromiseNotVoteBeforeLocalTs := accepted },
    Fintype.card { server : Fin n // accepted server ≠ 0 })

def getMajorityPromisedNotVoteTs : Option Int :=
  kthLargest (n / 2) (List.ofFn proposer.acceptOkPromiseNotVoteBeforeLocalTs)

def advanceBallotNumberAndResetRelatedStates
    (newBallotNumber : Int) : ElectionProposer T n :=
  { proposer.clearStates with
    ballotNumber := newBallotNumber
    switchSourceLeaderBallot := invalidValue
    switchSourceLeaderAddr := none }

variable (impl : ElectionImpl T n)

def advance (newBallotNumber : Int) : ElectionImpl T n :=
  { impl with
    proposer := impl.proposer.advanceBallotNumberAndResetRelatedStates newBallotNumber }

def broadcastPrepare (now : T) (role : ObRole) : ElectionImpl T n :=
  impl.broadcast now (.prepareRequest
    { sender := impl.selfAddr
      restartCounter := impl.proposer.restartCounter
      ballotNumber := impl.proposer.ballotNumber
      membershipVersion := impl.membershipVersion
      role })

variable (env : Surroundings)

def prepare (now : T) (role : ObRole) :
    ElectionImpl T n :=
  match role with
  | .follower =>
    if env.preparedRecently then impl
    else broadcastPrepare (advance impl (impl.proposer.ballotNumber + 1)) now .follower
  | .leader => broadcastPrepare impl now .leader

def onPrepareRequest (now : T) (req : PrepareRequestMsg n) :
    ElectionImpl T n :=
  let proposer := impl.proposer
  if req.ballotNumber ≤ proposer.ballotNumber then
    if req.ballotNumber < proposer.ballotNumber then
      impl.send now req.sender (.prepareResponse
        { sender := impl.selfAddr
          restartCounter := req.restartCounter
          ballotNumber := proposer.ballotNumber
          accepted := false
          lease := .initial })
    else impl
  else
    let impl := advance impl req.ballotNumber
    match req.role with
    | .leader => impl
    | .follower => broadcastPrepare impl now impl.proposer.role

variable (interval : Int)

def propose (now : Moment T) : ElectionImpl T n :=
  impl.broadcast now.instant (.acceptRequest
    { sender := impl.selfAddr
      restartCounter := impl.proposer.restartCounter
      ballotNumber := impl.proposer.prepareSuccessBallot
      leaseStartTsOnProposer := now.reading
      leaseInterval := interval })

def checkResponse (now : Moment T)
    (restartCounter ballotNumber : Int) (accepted : Bool) : ElectionImpl T n × Bool :=
  let proposer := impl.proposer
  if restartCounter ≠ proposer.restartCounter then (impl, false)
  else if ballotNumber < proposer.ballotNumber then (impl, false)
  else if ballotNumber > proposer.ballotNumber then
    let impl := advance impl ballotNumber
    if impl.proposer.checkLeader now.reading then
      (prepare (advance impl (ballotNumber + 1)) env now.instant .leader, false)
    else (impl, false)
  else (impl, accepted)

/-- The lease that a promise reports does not stand in the way. -/
def admits (lease : Lease n) : Bool :=
  lease.isEmpty || decide (lease.owner = some impl.selfAddr) ||
    (decide (lease.owner = impl.proposer.switchSourceLeaderAddr) &&
      decide (lease.ballotNumber = impl.proposer.switchSourceLeaderBallot))

variable (watch : Nat → Moment T)

def onPrepareResponse (res : PrepareResponseMsg n) : ElectionImpl T n :=
  let (impl, valid) := checkResponse impl env (watch 0) res.restartCounter
    res.ballotNumber res.accepted
  if !valid then impl
  else if !admits impl res.lease then impl
  else
    let (proposer, okCount) := impl.proposer.recordPrepareOk res
    if okCount = n / 2 + 1 then
      let proposer :=
        { proposer with
          prepareSuccessBallot := max proposer.ballotNumber proposer.prepareSuccessBallot }
      propose { impl with proposer } interval (watch 1)
    else { impl with proposer }

/-- `leader_revoke_if_lease_expired_`; the reset is visible from `visible` on. -/
def leaderRevokeIfLeaseExpired (now : Int) (visible : T) :
    ElectionImpl T n :=
  let proposer := impl.proposer
  if proposer.role = .leader ∧ !proposer.checkLeader now then
    { impl with
      proposer :=
        { proposer.clearStates with
          role := .follower
          leaderLeaseAndEpoch := LeaderLeaseAndEpoch.reset proposer.leaderLeaseAndEpoch visible }
      roleChanges := (.leader, .follower) :: impl.roleChanges }
  else impl

def leaderTakeoverIfLeaseValid (interval now : Int)
    (proposed : Moment T) : ElectionImpl T n × Bool :=
  let proposer := impl.proposer
  if proposer.role ≠ .leader ∧ proposer.checkLeader now then
    (propose
      { impl with
        proposer := { proposer with role := .leader, highestPriorityCache := none }
        roleChanges := (.follower, .leader) :: impl.roleChanges }
      interval proposed, true)
  else (impl, false)

/-- Step 4.2 of `on_accept_response`: the lease only grows. -/
def renewLease (newLeaseEnd : Int) :
    ElectionImpl T n :=
  let proposer := impl.proposer
  let writes := proposer.leaderLeaseAndEpoch
  if newLeaseEnd > LeaderLeaseAndEpoch.lease writes then
    { impl with
      proposer :=
        { proposer with
          leaderLeaseAndEpoch := LeaderLeaseAndEpoch.set writes (watch 3).reading (watch 4).reading
            (watch 5).instant newLeaseEnd proposer.prepareSuccessBallot } }
  else impl

/-- Step 4.3: after a change of leader only the ballot right above the old leader's will do. -/
def tryTakeover :
    ElectionImpl T n :=
  let proposer := impl.proposer
  let (taken, done) := leaderTakeoverIfLeaseValid impl interval (watch 6).reading (watch 7)
  if proposer.switchSourceLeaderBallot ≠ invalidValue then
    if proposer.switchSourceLeaderBallot ≠ proposer.ballotNumber - 1 then impl
    else if done then
      { taken with
        proposer :=
          { taken.proposer with
            switchSourceLeaderBallot := invalidValue
            switchSourceLeaderAddr := none } }
    else taken
  else taken

def updateLease
    (newLeaseEnd : Int) : ElectionImpl T n :=
  let impl := leaderRevokeIfLeaseExpired impl (watch 1).reading (watch 2).instant
  tryTakeover (renewLease impl watch newLeaseEnd) interval watch

variable (res : AcceptResponseMsg n)

def acceptLease : ElectionImpl T n :=
  let (proposer, okCount) := impl.proposer.recordAcceptOk res
  let impl := { impl with proposer }
  if okCount < n / 2 + 1 then impl
  else
    match proposer.getMajorityPromisedNotVoteTs with
    | none => impl
    | some newLeaseEnd => updateLease impl interval watch newLeaseEnd

/-- The old leader raises its ballot, which keeps late responses away, and gives its lease up. -/
def giveUpLease (visible : T) : ElectionImpl T n :=
  let impl := advance impl (impl.proposer.ballotNumber + 1)
  { impl with
    proposer :=
      { impl.proposer with
        leaderLeaseAndEpoch :=
          LeaderLeaseAndEpoch.reset impl.proposer.leaderLeaseAndEpoch visible } }

def innerChangeLeaderTo (reset : T) (now : Int) (done : T)
    (dst : Fin n) : ElectionImpl T n :=
  let switchSourceLeaderBallot := impl.proposer.ballotNumber
  let impl := giveUpLease impl reset
  (leaderRevokeIfLeaseExpired impl now done).send done dst (.changeLeader
    { sender := impl.selfAddr
      restartCounter := impl.proposer.restartCounter
      ballotNumber := impl.proposer.ballotNumber
      switchSourceLeaderBallot
      membershipVersion := impl.membershipVersion })

/-- `change_leader_to`; the destination may be no member, which means the server itself. -/
def changeLeaderTo (dest : Option (Fin n)) :
    ElectionImpl T n :=
  if impl.proposer.checkLeader (watch 8).reading then
    innerChangeLeaderTo impl (watch 9).instant (watch 10).reading (watch 11).instant
      (dest.getD impl.selfAddr)
  else impl

/-- Step 5 of `on_accept_response`. A server of higher priority is remembered, and when it answers
again the leader gives way to it: at once after a fatal failure, else through the callback, which
calls `change_leader_to` later. -/
def checkPriority : ElectionImpl T n :=
  let cached := if env.cacheExpired then none else impl.proposer.highestPriorityCache
  let remember (msg : Option (AcceptResponseMsg n)) : ElectionImpl T n :=
    { impl with proposer := { impl.proposer with highestPriorityCache := msg } }
  if impl.proposer.role = .leader ∧ res.sender ≠ impl.selfAddr then
    if env.higherThanLeader then
      match cached with
      | none => remember (some res)
      | some msg =>
        if env.higherThanCached then remember (some res)
        else if msg.sender = res.sender then
          if env.fatalFailure then
            changeLeaderTo (remember (some msg)) watch (some msg.sender)
          else remember (some msg)
        else remember (some msg)
    else impl
  else impl

def onAcceptResponse : ElectionImpl T n :=
  let (impl, valid) := checkResponse impl env (watch 0) res.restartCounter
    res.ballotNumber res.accepted
  let impl := if valid then acceptLease impl interval watch res else impl
  checkPriority impl env watch res

/-- The ballot of a change of leader, from the server itself or from another one. -/
def acceptsChange (msg : ChangeLeaderMsg n) : Bool :=
  if msg.sender = impl.selfAddr then
    decide (msg.ballotNumber = impl.proposer.ballotNumber)
  else decide (msg.ballotNumber > impl.proposer.ballotNumber)

def onChangeLeader (now : T)
    (msg : ChangeLeaderMsg n) : ElectionImpl T n :=
  if !acceptsChange impl msg then impl
  else if msg.membershipVersion.gt impl.membershipVersion then impl
  else
    let impl := advance impl msg.ballotNumber
    prepare
      { impl with
        proposer :=
          { impl.proposer with
            switchSourceLeaderBallot := msg.switchSourceLeaderBallot
            switchSourceLeaderAddr := some msg.sender } }
      env now .leader

def renewLeaseTask :
    ElectionImpl T n :=
  let proposer := impl.proposer
  match proposer.role with
  | .follower => impl
  | .leader =>
    if proposer.checkLeader (watch 0).reading then
      if proposer.prepareSuccessBallot ≠ proposer.ballotNumber then impl
      else propose impl interval (watch 1)
    else leaderRevokeIfLeaseExpired impl (watch 0).reading (watch 1).instant

/-- The task that `reschedule_or_register_prepare_task_after_` registers. A leader whose lease has
run out becomes a follower here without a call of `role_change_cb_`. -/
def devoteTask : ElectionImpl T n :=
  let proposer := impl.proposer
  if proposer.checkLeader (watch 0).reading then
    if proposer.prepareSuccessBallot = proposer.ballotNumber then impl
    else prepare impl env (watch 1).instant proposer.role
  else
    prepare { impl with proposer := { proposer with role := .follower } } env
      (watch 1).instant .follower

end IMBridge.Palf.Election.ElectionProposer
