import Mathlib.Data.Fintype.Basic
import IMBridge.Palf.ConfigInfo

/-!
Messages and state of the election module (`election_message.cpp`, `election_utils.cpp`,
`election_impl.h`). The member list is fixed, so that a server is its index in it. Time stamps are
readings of a server's monotonic clock, in microseconds; the instants at which things happen are of
a type `T` of real times.
-/

namespace IMBridge.Palf.Election

/-- `INVALID_VALUE`, the initial value of every `int64_t` member. -/
def invalidValue : Int := -1

inductive ObRole where
  | leader
  | follower
deriving DecidableEq, Repr

structure Lease (n : Nat) where
  owner : Option (Fin n)
  leaseEndTs : Int
  ballotNumber : Int
deriving DecidableEq

structure PrepareRequestMsg (n : Nat) where
  sender : Fin n
  restartCounter : Int
  ballotNumber : Int
  membershipVersion : LogConfigVersion
  role : ObRole
deriving DecidableEq

structure PrepareResponseMsg (n : Nat) where
  sender : Fin n
  restartCounter : Int
  ballotNumber : Int
  accepted : Bool
  lease : Lease n
deriving DecidableEq

structure AcceptRequestMsg (n : Nat) where
  sender : Fin n
  restartCounter : Int
  ballotNumber : Int
  leaseStartTsOnProposer : Int
  leaseInterval : Int
deriving DecidableEq

structure AcceptResponseMsg (n : Nat) where
  sender : Fin n
  restartCounter : Int
  ballotNumber : Int
  leaseStartedTsOnProposer : Int
  leaseInterval : Int
  accepted : Bool
deriving DecidableEq

structure ChangeLeaderMsg (n : Nat) where
  sender : Fin n
  restartCounter : Int
  ballotNumber : Int
  switchSourceLeaderBallot : Int
  membershipVersion : LogConfigVersion
deriving DecidableEq

inductive Message (n : Nat) where
  | prepareRequest (msg : PrepareRequestMsg n)
  | prepareResponse (msg : PrepareResponseMsg n)
  | acceptRequest (msg : AcceptRequestMsg n)
  | acceptResponse (msg : AcceptResponseMsg n)
  | changeLeader (msg : ChangeLeaderMsg n)
deriving DecidableEq

structure Sent (T : Type) (n : Nat) where
  instant : T
  receiver : Fin n
  message : Message n
deriving DecidableEq

/-- An instant, and what the clock of the server shows then (`get_monotonic_ts`). -/
structure Moment (T : Type) where
  instant : T
  reading : Int

namespace Lease

variable {n : Nat}

def initial : Lease n := ⟨none, invalidValue, invalidValue⟩

variable (lease : Lease n)

def isExpired (now : Int) : Bool := decide (now > lease.leaseEndTs)

/-- `reset` keeps the ballot number. -/
def reset : Lease n := { lease with owner := none, leaseEndTs := -1 }

def isEmpty : Bool := decide (lease.owner = none) && decide (lease.leaseEndTs = -1)

def updateFrom (now : Int) (req : AcceptRequestMsg n) : Lease n :=
  { owner := some req.sender
    leaseEndTs := max lease.leaseEndTs (now + req.leaseInterval)
    ballotNumber := req.ballotNumber }

end Lease

/-- `highest_priority_prepare_req_.get_ballot_number()`, for a request that may be reset. -/
def ballotNumberOf {n : Nat} : Option (PrepareRequestMsg n) → Int
  | none => invalidValue
  | some req => req.ballotNumber

/-- `ElectionMsgBase::is_valid`; addresses of members are valid. -/
def PrepareRequestMsg.isValid {n : Nat} (req : PrepareRequestMsg n) : Bool :=
  decide (req.restartCounter ≠ invalidValue) && decide (req.ballotNumber ≠ invalidValue)

namespace Message

variable {n : Nat}

def restartCounter : Message n → Int
  | .prepareRequest msg => msg.restartCounter
  | .prepareResponse msg => msg.restartCounter
  | .acceptRequest msg => msg.restartCounter
  | .acceptResponse msg => msg.restartCounter
  | .changeLeader msg => msg.restartCounter

def ballotNumber : Message n → Int
  | .prepareRequest msg => msg.ballotNumber
  | .prepareResponse msg => msg.ballotNumber
  | .acceptRequest msg => msg.ballotNumber
  | .acceptResponse msg => msg.ballotNumber
  | .changeLeader msg => msg.ballotNumber

/-- `ElectionMsgBase::is_valid`. `LogRpc::post_request` sends no other message, and
`LogRequestHandler` hands no other one to the election. -/
def isValid (message : Message n) : Bool :=
  decide (message.restartCounter ≠ invalidValue) && decide (message.ballotNumber ≠ invalidValue)

end Message

structure ElectionAcceptor (n : Nat) where
  ballotNumber : Int
  ballotOfTimeWindow : Int
  lease : Lease n
  isTimeWindowOpened : Bool
  highestPriorityPrepareReq : Option (PrepareRequestMsg n)
  lastRecordLeaseValidState : Bool

/-- A write of `LeaderLeaseAndEpoch`, and the instant from which readers see it. -/
structure LeaseWrite (T : Type) where
  instant : T
  lease : Int
  epoch : Int
deriving DecidableEq

/-- `LeaderLeaseAndEpoch` is read without the lock of the election, so all its writes are kept; the
newest stands first. -/
abbrev LeaderLeaseAndEpoch (T : Type) := List (LeaseWrite T)

namespace LeaderLeaseAndEpoch

variable {T : Type}

def lease : LeaderLeaseAndEpoch T → Int
  | [] => invalidValue
  | write :: _ => write.lease

def epoch : LeaderLeaseAndEpoch T → Int
  | [] => invalidValue
  | write :: _ => write.epoch

variable (writes : LeaderLeaseAndEpoch T)

def reset (visible : T) : LeaderLeaseAndEpoch T :=
  ⟨visible, invalidValue, invalidValue⟩ :: writes

/-- `set_lease_and_epoch_if_lease_expired_or_just_set_lease` reads the clock twice before the write
becomes visible. -/
def set (first second : Int) (visible : T) (newLease newEpoch : Int) :
    LeaderLeaseAndEpoch T :=
  if first < lease writes then
    if second ≥ lease writes then ⟨visible, newLease, newEpoch⟩ :: writes
    else ⟨visible, newLease, epoch writes⟩ :: writes
  else ⟨visible, newLease, newEpoch⟩ :: writes

def seenAt [LinearOrder T] (writes : LeaderLeaseAndEpoch T) (time : T) : LeaderLeaseAndEpoch T :=
  writes.dropWhile (fun write => decide (time < write.instant))

end LeaderLeaseAndEpoch

structure ElectionProposer (T : Type) (n : Nat) where
  role : ObRole
  ballotNumber : Int
  prepareOk : Fin n → Bool
  acceptOkPromiseNotVoteBeforeLocalTs : Fin n → Int
  prepareSuccessBallot : Int
  leaderLeaseAndEpoch : LeaderLeaseAndEpoch T
  switchSourceLeaderBallot : Int
  switchSourceLeaderAddr : Option (Fin n)
  restartCounter : Int
  highestPriorityCache : Option (AcceptResponseMsg n)

structure ElectionImpl (T : Type) (n : Nat) where
  selfAddr : Fin n
  membershipVersion : LogConfigVersion
  proposer : ElectionProposer T n
  acceptor : ElectionAcceptor n
  /-- the calls of `role_change_cb_`, newest first -/
  roleChanges : List (ObRole × ObRole)
  /-- everything handed to `msg_handler_`, newest first -/
  sent : List (Sent T n)

/-- What the election asks of its surroundings: the wall clock, the timer, and the comparison of
priorities, which the election does not implement itself. -/
structure Surroundings where
  /-- a prepare has just happened -/
  preparedRecently : Bool
  /-- `reschedule_after` succeeds -/
  rescheduled : Bool
  /-- the time window has been open for its span -/
  windowElapsed : Bool
  /-- `is_rhs_message_higher_` in `on_prepare_request` -/
  requestHigher : Bool
  /-- `is_rhs_message_higher_` in `on_accept_response`, against the leader -/
  higherThanLeader : Bool
  /-- and against the cached response -/
  higherThanCached : Bool
  cacheExpired : Bool
  /-- `has_fatal_failure` -/
  fatalFailure : Bool

namespace ElectionImpl

variable {T : Type} {n : Nat}

def send (impl : ElectionImpl T n) (instant : T) (receiver : Fin n) (message : Message n) :
    ElectionImpl T n :=
  { impl with sent := ⟨instant, receiver, message⟩ :: impl.sent }

def broadcast (impl : ElectionImpl T n) (instant : T) (message : Message n) : ElectionImpl T n :=
  { impl with
    sent := (List.finRange n).map (fun receiver => ⟨instant, receiver, message⟩) ++ impl.sent }

end ElectionImpl

end IMBridge.Palf.Election
