import Mathlib.Algebra.Order.Floor.Ring
import IMBridge.Palf.Election.Acceptor
import IMBridge.Palf.Election.Proposer

/-!
Servers that run the election over a network which may delay, lose, duplicate and reorder messages.
The clocks count from boot, run at the same rate and differ by constant offsets. A server handles one event at a
time; since a message is handled after it was sent, taking the events in the order in which their
handling starts loses no behaviour.
-/

namespace IMBridge.Palf.Election

open ElectionProposer
variable {T : Type} {n : Nat}

inductive Event (n : Nat) where
  | message (msg : Message n)
  | renewLeaseTask
  | devoteTask
  | timeWindowTask
  | changeLeaderTo (dest : Option (Fin n))

namespace ElectionImpl

def handleMessage (impl : ElectionImpl T n) (env : Surroundings) (interval : Int)
    (watch : Nat → Moment T) : Message n → ElectionImpl T n
  | .prepareRequest msg =>
    let impl :=
      if msg.sender ≠ impl.selfAddr then
        onPrepareRequest impl (watch 0).instant msg
      else impl
    ElectionAcceptor.onPrepareRequest impl env (watch 0).instant msg
  | .acceptRequest msg =>
    let impl :=
      if msg.ballotNumber > impl.proposer.ballotNumber then
        advance impl msg.ballotNumber
      else impl
    ElectionAcceptor.onAcceptRequest impl (watch 0) msg
  | .prepareResponse msg =>
    onPrepareResponse impl env interval watch msg
  | .acceptResponse msg =>
    onAcceptResponse impl env interval watch msg
  | .changeLeader msg =>
    onChangeLeader impl env (watch 0).instant msg

def handle (impl : ElectionImpl T n) (env : Surroundings) (interval : Int)
    (watch : Nat → Moment T) : Event n → ElectionImpl T n
  | .message msg => impl.handleMessage env interval watch msg
  | .renewLeaseTask => ElectionProposer.renewLeaseTask impl interval watch
  | .devoteTask => ElectionProposer.devoteTask impl env watch
  | .timeWindowTask => ElectionAcceptor.timeWindowTask impl env watch
  | .changeLeaderTo dest => ElectionProposer.changeLeaderTo impl watch dest

def initial (selfAddr : Fin n) (membershipVersion : LogConfigVersion) (restartCounter : Int)
    (proposerBallot acceptorBallot windowBallot : Int) : ElectionImpl T n where
  selfAddr
  membershipVersion
  proposer :=
    { role := .follower
      ballotNumber := proposerBallot
      prepareOk := fun _ => false
      acceptOkPromiseNotVoteBeforeLocalTs := fun _ => 0
      prepareSuccessBallot := invalidValue
      leaderLeaseAndEpoch := []
      switchSourceLeaderBallot := invalidValue
      switchSourceLeaderAddr := none
      restartCounter
      highestPriorityCache := none }
  acceptor :=
    { ballotNumber := acceptorBallot
      ballotOfTimeWindow := windowBallot
      lease := .initial
      isTimeWindowOpened := false
      highestPriorityPrepareReq := none
      lastRecordLeaseValidState := false }
  roleChanges := []
  sent := []

end ElectionImpl

structure Setup (n : Nat) where
  membershipVersion : Fin n → LogConfigVersion
  restartCounter : Fin n → Int
  proposerBallot : Fin n → Int
  acceptorBallot : Fin n → Int
  windowBallot : Fin n → Int

/-- The servers, and when each has ended the last event that it handled. -/
structure System (T : Type) (n : Nat) where
  server : Fin n → ElectionImpl T n
  finished : Fin n → T

/-- The moments of a server whose clock is ahead of real time by `offset`. -/
def watch [Ring T] [LinearOrder T] [FloorRing T] (offset : T) (instant : Nat → T) (k : Nat) :
    Moment T :=
  ⟨instant k, ⌊instant k + offset⌋⟩

def lastMoment : Nat := 11

namespace System

def Ready [LE T] (system : System T n) (self : Fin n) (time : T) : Event n → Prop
  | .message msg => msg.isValid = true ∧ ∃ sender, ∃ sent ∈ (system.server sender).sent,
      sent.receiver = self ∧ sent.message = msg ∧ sent.instant ≤ time
  | _ => True

variable [Ring T] [LinearOrder T] [FloorRing T]

/-- A server handles an event; `interval` is the lease interval, `4 * MAX_TST`. -/
inductive Step (offset : Fin n → T) (interval : Int) : System T n → System T n → Prop
  | handle {system : System T n} (self : Fin n) (event : Event n) (env : Surroundings)
      (instant : Nat → T) (forward : StrictMono instant)
      (after : system.finished self ≤ instant 0) (nonneg : 0 ≤ instant 0 + offset self)
      (ready : system.Ready self (instant 0) event) :
      Step offset interval system
        { server := Function.update system.server self
            ((system.server self).handle env interval (watch (offset self) instant) event)
          finished := Function.update system.finished self (instant lastMoment) }

inductive Reached (offset : Fin n → T) (interval : Int) (setup : Setup n) : System T n → Prop
  | start (finished : Fin n → T) :
      Reached offset interval setup
        { server := fun self => .initial self (setup.membershipVersion self)
            (setup.restartCounter self) (setup.proposerBallot self) (setup.acceptorBallot self)
            (setup.windowBallot self)
          finished }
  | step {system next : System T n} (reached : Reached offset interval setup system)
      (step : Step offset interval system next) : Reached offset interval setup next

/-- `ElectionProposer::check_leader` at a real time: the clock of the server, which counts from its
boot on, shows `⌊time + offset⌋`. -/
def checkLeader (offset : Fin n → T) (system : System T n) (self : Fin n) (time : T) : Bool :=
  decide (0 ≤ time + offset self) && decide (⌊time + offset self⌋ < LeaderLeaseAndEpoch.lease
    (LeaderLeaseAndEpoch.seenAt (system.server self).proposer.leaderLeaseAndEpoch time))

def epoch (system : System T n) (self : Fin n) (time : T) : Int :=
  LeaderLeaseAndEpoch.epoch
    (LeaderLeaseAndEpoch.seenAt (system.server self).proposer.leaderLeaseAndEpoch time)

end System

end IMBridge.Palf.Election
