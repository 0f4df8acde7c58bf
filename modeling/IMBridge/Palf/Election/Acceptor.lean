import IMBridge.Palf.Election.Message

/-!
The acceptor of the election (`election_acceptor.cpp`). Start-up silence (`CHECK_SILENCE`) is over
and the member list is valid; how long a time window stays open is left to the timer.
-/

namespace IMBridge.Palf.Election.ElectionAcceptor

variable {T : Type} {n : Nat} (acceptor : ElectionAcceptor n)

def resetTimeWindowStates : ElectionAcceptor n :=
  if acceptor.isTimeWindowOpened then
    { acceptor with isTimeWindowOpened := false, highestPriorityPrepareReq := none }
  else acceptor

def advanceBallotNumberAndResetRelatedStates
    (newBallotNumber : Int) : ElectionAcceptor n :=
  if newBallotNumber > acceptor.ballotNumber then
    resetTimeWindowStates
      { acceptor with ballotNumber := newBallotNumber, ballotOfTimeWindow := newBallotNumber }
  else acceptor

/-- The first part of the candidate branch of `on_prepare_request`: a window for a larger ballot. -/
def openTimeWindow (rescheduled : Bool) (ballotNumber : Int) :
    ElectionAcceptor n :=
  let acceptor :=
    if acceptor.isTimeWindowOpened && decide (ballotNumber > acceptor.ballotOfTimeWindow) then
      acceptor.resetTimeWindowStates
    else acceptor
  if !acceptor.isTimeWindowOpened && decide (ballotNumber > acceptor.ballotOfTimeWindow) then
    { acceptor with
      ballotOfTimeWindow := ballotNumber
      highestPriorityPrepareReq := none
      isTimeWindowOpened := rescheduled }
  else acceptor

/-- The second part: the request competes with the one remembered for this window. -/
def countRequest (requestHigher : Bool) (req : PrepareRequestMsg n) :
    ElectionAcceptor n :=
  let replaced := { acceptor with highestPriorityPrepareReq := some req }
  if !acceptor.isTimeWindowOpened then acceptor
  else if req.ballotNumber ≠ acceptor.ballotOfTimeWindow then acceptor
  else
    match acceptor.highestPriorityPrepareReq with
    | none => replaced
    | some highest =>
      if !highest.isValid then replaced
      else if req.membershipVersion.gt highest.membershipVersion then replaced
      else if req.membershipVersion.lt highest.membershipVersion then acceptor
      else if requestHigher then replaced
      else acceptor

variable (impl : ElectionImpl T n)

def onPrepareRequest (env : Surroundings) (now : T)
    (req : PrepareRequestMsg n) : ElectionImpl T n :=
  let acceptor := impl.acceptor
  if req.membershipVersion.lt impl.membershipVersion then impl
  else if req.ballotNumber < acceptor.ballotNumber then
    impl.send now req.sender (.prepareResponse
      { sender := impl.selfAddr
        restartCounter := req.restartCounter
        ballotNumber := acceptor.ballotNumber
        accepted := false
        lease := .initial })
  else
    match req.role with
    | .leader =>
      if req.ballotNumber ≤ acceptor.ballotNumber then impl
      else
        let acceptor := acceptor.advanceBallotNumberAndResetRelatedStates req.ballotNumber
        { impl with acceptor }.send now req.sender (.prepareResponse
          { sender := impl.selfAddr
            restartCounter := req.restartCounter
            ballotNumber := acceptor.ballotNumber
            accepted := true
            lease := acceptor.lease })
    | .follower =>
      let acceptor := acceptor.openTimeWindow env.rescheduled req.ballotNumber
      { impl with acceptor := acceptor.countRequest env.requestHigher req }

def accept (now : Int) (req : AcceptRequestMsg n) :
    ElectionAcceptor n :=
  let acceptor :=
    if req.ballotNumber > acceptor.ballotNumber then
      acceptor.advanceBallotNumberAndResetRelatedStates req.ballotNumber
    else acceptor
  { acceptor with lease := acceptor.lease.updateFrom now req }

def onAcceptRequest (now : Moment T) (req : AcceptRequestMsg n) :
    ElectionImpl T n :=
  let response :=
    { sender := impl.selfAddr
      restartCounter := req.restartCounter
      ballotNumber := impl.acceptor.ballotNumber
      leaseStartedTsOnProposer := req.leaseStartTsOnProposer
      leaseInterval := req.leaseInterval
      accepted := false : AcceptResponseMsg n }
  if req.ballotNumber < impl.acceptor.ballotNumber then
    impl.send now.instant req.sender (.acceptResponse response)
  else
    let acceptor := impl.acceptor.accept now.reading req
    { impl with acceptor }.send now.instant req.sender
      (.acceptResponse { response with ballotNumber := acceptor.ballotNumber, accepted := true })

def promiseWindow (now : Int) : ElectionAcceptor n :=
  { acceptor with
    ballotNumber := acceptor.ballotOfTimeWindow
    lease := if acceptor.lease.isExpired now then acceptor.lease.reset else acceptor.lease
    isTimeWindowOpened := false }

def vote (now : Moment T) : ElectionImpl T n :=
  let acceptor := impl.acceptor
  if acceptor.ballotOfTimeWindow = ballotNumberOf acceptor.highestPriorityPrepareReq ∧
      acceptor.ballotOfTimeWindow > acceptor.ballotNumber then
    let promised := acceptor.promiseWindow now.reading
    let impl := { impl with acceptor := promised }
    match acceptor.highestPriorityPrepareReq with
    | none => impl
    | some req =>
      impl.send now.instant req.sender (.prepareResponse
        { sender := impl.selfAddr
          restartCounter := req.restartCounter
          ballotNumber := promised.ballotNumber
          accepted := true
          lease := promised.lease })
  else { impl with acceptor := { acceptor with isTimeWindowOpened := false } }

def dropLease (now : Int) : ElectionImpl T n :=
  let acceptor := impl.acceptor
  if acceptor.lastRecordLeaseValidState && acceptor.lease.isExpired now then
    { impl with acceptor := { acceptor with lease := acceptor.lease.reset } }
  else impl

/-- The task that `start` registers. It reads the clock once, and again before it votes. -/
def timeWindowTask (env : Surroundings)
    (watch : Nat → Moment T) : ElectionImpl T n :=
  let lastValid := impl.acceptor.lastRecordLeaseValidState
  let valid := !impl.acceptor.lease.isExpired (watch 0).reading
  let impl := dropLease impl (watch 0).reading
  let impl :=
    if impl.acceptor.isTimeWindowOpened && (lastValid && !valid || env.windowElapsed) then
      vote impl (watch 1)
    else impl
  { impl with acceptor := { impl.acceptor with lastRecordLeaseValidState := valid } }

end IMBridge.Palf.Election.ElectionAcceptor
