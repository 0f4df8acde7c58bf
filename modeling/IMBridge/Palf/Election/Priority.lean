import IMBridge.Lib.Selection
import IMBridge.Palf.Election.Acceptor

/-!
Which of two prepare requests is higher (`is_rhs_message_higher_`, `PriorityV1`), and how the
acceptor picks one of several. Servers are numbered in the order of their addresses. Reasons are
only logged; the one that is printed into a buffer matters because printing may fail.
-/

namespace IMBridge.Palf.Election

open IMBridge.Lib.Selection

structure SCN where
  v : Fin 4
  tsNs : Fin (2 ^ 62)
deriving DecidableEq

namespace SCN

def isValid (scn : SCN) : Bool := scn.v = 0

def isMax (scn : SCN) : Bool := scn.v = 0 ∧ scn.tsNs.val = 2 ^ 62 - 1

def lt (scn other : SCN) : Bool :=
  if !scn.isValid && !other.isValid then false
  else if !scn.isValid then true
  else if !other.isValid then false
  else scn.tsNs < other.tsNs

def max (scn other : SCN) : SCN := if scn.lt other then other else scn

def min (scn other : SCN) : SCN := if other.lt scn then other else scn

def convertToTs (scn : SCN) : Int := if scn.isValid then (scn.tsNs / 1000 : Nat) else 0

end SCN

structure PriorityV1 where
  isValid : Bool
  isObserverStopped : Bool
  isServerStopped : Bool
  isZoneStopped : Bool
  fatalFailures : Nat
  isPrimaryRegion : Bool
  seriousFailures : Nat
  scn : SCN
  isInBlacklist : Bool
  inBlacklistReason : List UInt8
  isManualLeader : Bool
  zonePriority : Int
deriving DecidableEq

inductive PriorityErr where
  | sizeOverflow
deriving DecidableEq

namespace PriorityV1

/-- A flag as a number of which the larger one is better. -/
def whenSet (flag : Bool) : Int := if flag then 1 else 0

def whenClear (flag : Bool) : Int := if flag then 0 else 1

def maxUnreplayedLogTsDiffThresholdUs : Int := 2 * 1000 * 1000

section

variable (lhs rhs : PriorityV1)

def compareObserverStopped : Int :=
  compareKeys (whenClear lhs.isObserverStopped) (whenClear rhs.isObserverStopped)

def compareServerStoppedFlag : Int :=
  compareKeys (whenClear lhs.isServerStopped) (whenClear rhs.isServerStopped)

def compareZoneStoppedFlag : Int :=
  compareKeys (whenClear lhs.isZoneStopped) (whenClear rhs.isZoneStopped)

def compareFatalFailures : Int :=
  compareKeys (-lhs.fatalFailures) (-rhs.fatalFailures)

def compareScn : Int :=
  if lhs.scn = rhs.scn ∨ lhs.scn.isMax ∨ rhs.scn.isMax then 0
  else if lhs.scn.isValid && rhs.scn.isValid then
    if (lhs.scn.max rhs.scn).convertToTs - (lhs.scn.min rhs.scn).convertToTs ≤
        maxUnreplayedLogTsDiffThresholdUs then 0
    else if lhs.scn.max rhs.scn = lhs.scn then 1
    else -1
  else if lhs.scn.isValid && !rhs.scn.isValid then 1
  else if !lhs.scn.isValid && rhs.scn.isValid then -1
  else 0

end

/-- `IN BLACKLIST(%s)` fits into 64 bytes with its terminator; the reason is printed as a C
string. -/
def reasonFits (reason : List UInt8) : Bool := 14 + (reason.takeWhile (· ≠ 0)).length < 64

variable (lhs rhs : PriorityV1)

def compareInBlacklistFlag : Int × Bool :=
  if lhs.isInBlacklist = rhs.isInBlacklist then (0, true)
  else if !lhs.isInBlacklist && rhs.isInBlacklist then (1, reasonFits rhs.inBlacklistReason)
  else (-1, reasonFits lhs.inBlacklistReason)

def compareManualLeaderFlag : Int :=
  compareKeys (whenSet lhs.isManualLeader) (whenSet rhs.isManualLeader)

def comparePrimaryRegion : Int :=
  compareKeys (whenSet lhs.isPrimaryRegion) (whenSet rhs.isPrimaryRegion)

def compareSeriousFailures : Int :=
  compareKeys (-lhs.seriousFailures) (-rhs.seriousFailures)

def compareZonePriority : Int :=
  compareKeys (-lhs.zonePriority) (-rhs.zonePriority)

def compare : Except PriorityErr Int :=
  let first := cascade [compareObserverStopped lhs rhs, compareServerStoppedFlag lhs rhs,
    compareZoneStoppedFlag lhs rhs, compareFatalFailures lhs rhs, compareScn lhs rhs]
  let blacklist := compareInBlacklistFlag lhs rhs
  if first ≠ 0 then .ok first
  else if blacklist.1 ≠ 0 then
    if blacklist.2 then .ok blacklist.1 else .error .sizeOverflow
  else .ok (cascade [compareManualLeaderFlag lhs rhs, comparePrimaryRegion lhs rhs,
    compareSeriousFailures lhs rhs, compareZonePriority lhs rhs])

def compareWith (decentralizedVoting : Bool) : Except PriorityErr Int :=
  if !lhs.isValid && !rhs.isValid then .ok 0
  else if lhs.isValid && !rhs.isValid then .ok (if decentralizedVoting then 1 else 0)
  else if !lhs.isValid && rhs.isValid then .ok (if decentralizedVoting then -1 else 0)
  else lhs.compare rhs

end PriorityV1

/-- A prepare request with what it is compared by; the priority is missing if its buffer is not
valid. -/
structure Candidate (n : Nat) where
  msg : PrepareRequestMsg n
  innerPrioritySeed : Nat
  priority : Option PriorityV1
deriving DecidableEq

/-- What a server can compare: without a priority of its own, or without having seen a cluster
version, only addresses. -/
inductive Comparing where
  | ipPortOnly
  | priorities
deriving DecidableEq

variable {n : Nat}

def isRhsMessageHigher (comparing : Comparing) (lhs rhs : Candidate n)
    (decentralizedVoting : Bool) : Bool :=
  let smallerAddress := decentralizedVoting && decide (rhs.msg.sender < lhs.msg.sender)
  if !rhs.msg.isValid then false
  else if !lhs.msg.isValid then true
  else if lhs.msg.membershipVersion.gt rhs.msg.membershipVersion then false
  else if lhs.msg.membershipVersion.lt rhs.msg.membershipVersion then true
  else if lhs.innerPrioritySeed < rhs.innerPrioritySeed then false
  else if lhs.innerPrioritySeed > rhs.innerPrioritySeed then true
  else
    match lhs.priority, rhs.priority with
    | none, some _ => true
    | none, none => smallerAddress
    | some _, none => false
    | some lhsPriority, some rhsPriority =>
      match comparing with
      | .ipPortOnly => smallerAddress
      | .priorities =>
        match lhsPriority.compareWith rhsPriority decentralizedVoting with
        | .error _ => false
        | .ok result =>
          if result < 0 then true else if result = 0 then smallerAddress else false

def countCandidate (comparing : Comparing) (highest : Option (Candidate n)) (req : Candidate n) :
    Option (Candidate n) :=
  match highest with
  | none => some req
  | some old =>
    if !old.msg.isValid then some req
    else if req.msg.membershipVersion.gt old.msg.membershipVersion then some req
    else if req.msg.membershipVersion.lt old.msg.membershipVersion then some old
    else if isRhsMessageHigher comparing old req true then some req
    else some old

namespace ElectionAcceptor

variable {T : Type}

/-- A server that receives prepare requests, with the request remembered as it was compared. -/
structure Receiving (T : Type) (n : Nat) where
  election : ElectionImpl T n
  highest : Option (Candidate n)

def receive (comparing : Comparing) (env : Surroundings) (now : T)
    (server : Receiving T n) (req : Candidate n) : Receiving T n where
  election := onPrepareRequest server.election { env with
      requestHigher := server.highest.any fun old => isRhsMessageHigher comparing old req true }
    now req.msg
  highest := countCandidate comparing server.highest req

/-- What `highest_priority_prepare_req_` is after requests have arrived in this order. -/
def highestAfter (comparing : Comparing) (env : Surroundings) (now : T)
    (election : ElectionImpl T n) (requests : List (Candidate n)) : Option (PrepareRequestMsg n) :=
  (requests.foldl (receive comparing env now) ⟨election, none⟩).election.acceptor.highestPriorityPrepareReq

end ElectionAcceptor

end IMBridge.Palf.Election
