import IMBridge.Palf.Election.Replay

/-!
The calls of `role_change_cb_` of one server, over any events and any readings of its clock. The
callback is called wherever `role_` changes, except in the task that `devote_task_handle_` runs.
-/

namespace IMBridge.Palf.Election

variable {T : Type} {n : Nat}

structure RunningServer (T : Type) (n : Nat) where
  election : ElectionImpl T n
  isRunning : Bool

/-- What can happen to a server. `stop` first clears `is_running_` and then, when the tasks of the
proposer have ended, calls `ElectionProposer::stop`; tasks may run in between. -/
inductive ServerAction (n : Nat) where
  | event (event : Event n)
  | clearIsRunning
  | proposerStop

structure ServerStep (T : Type) (n : Nat) where
  action : ServerAction n
  surroundings : Surroundings
  interval : Int
  watch : Nat → Moment T

def ElectionProposer.stop (impl : ElectionImpl T n) (watch : Nat → Moment T) :
    ElectionImpl T n :=
  ElectionProposer.leaderRevokeIfLeaseExpired { impl with
      proposer := { impl.proposer with
          leaderLeaseAndEpoch := LeaderLeaseAndEpoch.reset impl.proposer.leaderLeaseAndEpoch
            (watch 0).instant } }
    (watch 1).reading (watch 2).instant

def Event.needsRunning : Event n → Bool
  | .message _ => true
  | .renewLeaseTask => true
  | .devoteTask => false
  | .timeWindowTask => false
  | .changeLeaderTo _ => false

namespace RunningServer

def step (server : RunningServer T n) (step : ServerStep T n) : RunningServer T n :=
  match step.action with
  | .event event =>
    if event.needsRunning && !server.isRunning then server
    else { server with
      election := server.election.handle step.surroundings step.interval step.watch event }
  | .clearIsRunning => { server with isRunning := false }
  | .proposerStop =>
    if server.isRunning then server
    else { server with election := ElectionProposer.stop server.election step.watch }

def run (server : RunningServer T n) (steps : List (ServerStep T n)) : RunningServer T n :=
  steps.foldl RunningServer.step server

end RunningServer

/-- The role that the last call of `role_change_cb_` has announced; calls stand newest first. -/
def announcedRole : List (ObRole × ObRole) → ObRole
  | [] => .follower
  | change :: _ => change.2

def Alternates : List (ObRole × ObRole) → Prop
  | [] => True
  | change :: changes =>
    change.1 = announcedRole changes ∧ change.2 ≠ change.1 ∧ Alternates changes

structure Notified (impl : ElectionImpl T n) : Prop where
  alternates : Alternates impl.roleChanges
  role : impl.proposer.role = announcedRole impl.roleChanges

structure SameRole (impl next : ElectionImpl T n) : Prop where
  role : next.proposer.role = impl.proposer.role
  roleChanges : next.roleChanges = impl.roleChanges

theorem SameRole.refl (impl : ElectionImpl T n) : SameRole impl impl := ⟨rfl, rfl⟩

theorem SameRole.trans {first second third : ElectionImpl T n} (left : SameRole first second)
    (right : SameRole second third) : SameRole first third :=
  ⟨right.role.trans left.role, right.roleChanges.trans left.roleChanges⟩

theorem Notified.of_same {impl next : ElectionImpl T n} (notified : Notified impl)
    (same : SameRole impl next) : Notified next := by
  refine ⟨?_, ?_⟩
  · rw [same.roleChanges]
    exact notified.alternates
  · rw [same.role, same.roleChanges]
    exact notified.role

/-! Handlers that leave the role alone. -/

namespace ElectionAcceptor

variable (impl : ElectionImpl T n)

theorem onPrepareRequest_sameRole (env : Surroundings) (now : T) (req : PrepareRequestMsg n) :
    SameRole impl (onPrepareRequest impl env now req) := by
  simp only [onPrepareRequest]
  split_ifs
  · exact .refl _
  · exact ⟨rfl, rfl⟩
  · split <;> exact ⟨rfl, rfl⟩
  · split <;> exact ⟨rfl, rfl⟩

theorem onAcceptRequest_sameRole (now : Moment T)
    (req : AcceptRequestMsg n) : SameRole impl (onAcceptRequest impl now req) := by
  simp only [onAcceptRequest]
  split_ifs <;> exact ⟨rfl, rfl⟩

theorem vote_sameRole (now : Moment T) : SameRole impl (vote impl now) := by
  simp only [vote]
  split_ifs
  · split <;> exact ⟨rfl, rfl⟩
  · exact ⟨rfl, rfl⟩

theorem dropLease_sameRole (now : Int) : SameRole impl (dropLease impl now) := by
  simp only [dropLease]
  split_ifs <;> exact ⟨rfl, rfl⟩

theorem timeWindowTask_sameRole (env : Surroundings)
    (watch : Nat → Moment T) : SameRole impl (timeWindowTask impl env watch) := by
  have dropped := dropLease_sameRole impl (watch 0).reading
  simp only [timeWindowTask]
  split_ifs
  · have voted := vote_sameRole (dropLease impl (watch 0).reading) (watch 1)
    exact (dropped.trans voted).trans ⟨rfl, rfl⟩
  · exact dropped.trans ⟨rfl, rfl⟩

end ElectionAcceptor

namespace ElectionProposer

section

variable (impl : ElectionImpl T n) (env : Surroundings)

theorem prepare_sameRole (now : T) (role : ObRole) : SameRole impl (prepare impl env now role) := by
  cases role with
  | leader => exact ⟨rfl, rfl⟩
  | follower =>
    simp only [prepare]
    split_ifs <;> exact ⟨rfl, rfl⟩

theorem onPrepareRequest_sameRole (now : T)
    (req : PrepareRequestMsg n) : SameRole impl (onPrepareRequest impl now req) := by
  simp only [onPrepareRequest]
  split_ifs
  · exact ⟨rfl, rfl⟩
  · exact .refl _
  · split <;> exact ⟨rfl, rfl⟩

theorem checkResponse_sameRole (now : Moment T) (restartCounter ballotNumber : Int) (accepted : Bool) :
    SameRole impl (checkResponse impl env now restartCounter ballotNumber accepted).1 := by
  simp only [checkResponse]
  split_ifs
  · exact .refl _
  · exact .refl _
  · have prepared := prepare_sameRole (advance (advance impl ballotNumber) (ballotNumber + 1)) env now.instant .leader
    exact ⟨prepared.role, prepared.roleChanges⟩
  · exact ⟨rfl, rfl⟩
  · exact .refl _

theorem onPrepareResponse_sameRole (interval : Int) (watch : Nat → Moment T) (res : PrepareResponseMsg n) :
    SameRole impl (onPrepareResponse impl env interval watch res) := by
  have checked := checkResponse_sameRole impl env (watch 0) res.restartCounter res.ballotNumber res.accepted
  simp only [onPrepareResponse]
  split_ifs
  · exact checked
  · exact checked
  · exact checked.trans ⟨rfl, rfl⟩
  · exact checked.trans ⟨rfl, rfl⟩

theorem onChangeLeader_sameRole (now : T)
    (msg : ChangeLeaderMsg n) : SameRole impl (onChangeLeader impl env now msg) := by
  simp only [onChangeLeader]
  split_ifs
  · exact .refl _
  · exact .refl _
  · exact ⟨rfl, rfl⟩

end

/-! Handlers that change it, with a call. -/

variable {impl : ElectionImpl T n} (notified : Notified impl) (env : Surroundings) (interval : Int)
  (watch : Nat → Moment T)
include notified

theorem leaderRevokeIfLeaseExpired_notified (now : Int) (visible : T) :
    Notified (leaderRevokeIfLeaseExpired impl now visible) := by
  simp only [leaderRevokeIfLeaseExpired]
  split_ifs with revoked
  · have announced := notified.role
    rw [revoked.1] at announced
    exact ⟨⟨announced, by simp, notified.alternates⟩, rfl⟩
  · exact notified

theorem leaderTakeoverIfLeaseValid_notified (now : Int) (proposed : Moment T) :
    Notified (leaderTakeoverIfLeaseValid impl interval now proposed).1 := by
  simp only [leaderTakeoverIfLeaseValid]
  split_ifs with taken
  · have follower : impl.proposer.role = .follower := by
      cases role : impl.proposer.role with
      | leader => exact absurd role taken.1
      | follower => rfl
    have announced := notified.role
    rw [follower] at announced
    exact ⟨⟨announced, by simp, notified.alternates⟩, rfl⟩
  · exact notified

theorem tryTakeover_notified : Notified (tryTakeover impl interval watch) := by
  have taken := leaderTakeoverIfLeaseValid_notified notified interval (watch 6).reading (watch 7)
  simp only [tryTakeover]
  split_ifs
  · exact notified
  · exact taken.of_same ⟨rfl, rfl⟩
  · exact taken
  · exact taken

theorem acceptLease_notified (res : AcceptResponseMsg n) : Notified (acceptLease impl interval watch res) := by
  have recorded : Notified { impl with proposer := (impl.proposer.recordAcceptOk res).1 } := notified.of_same ⟨rfl, rfl⟩
  simp only [acceptLease]
  split_ifs
  · exact recorded
  split
  · exact recorded
  have revoked := leaderRevokeIfLeaseExpired_notified recorded (watch 1).reading (watch 2).instant
  refine tryTakeover_notified (revoked.of_same ?_) interval watch
  simp only [renewLease]
  split_ifs <;> exact ⟨rfl, rfl⟩

theorem changeLeaderTo_notified (dest : Option (Fin n)) : Notified (changeLeaderTo impl watch dest) := by
  simp only [changeLeaderTo]
  split_ifs
  · have given : Notified (giveUpLease impl (watch 9).instant) := notified.of_same ⟨rfl, rfl⟩
    have revoked := leaderRevokeIfLeaseExpired_notified given (watch 10).reading (watch 11).instant
    exact revoked.of_same ⟨rfl, rfl⟩
  · exact notified

theorem checkPriority_notified (res : AcceptResponseMsg n) : Notified (checkPriority impl env watch res) := by
  have remembered (msg : Option (AcceptResponseMsg n)) : Notified { impl with
        proposer := { impl.proposer with highestPriorityCache := msg } } :=
    notified.of_same ⟨rfl, rfl⟩
  simp only [checkPriority]
  by_cases other : impl.proposer.role = .leader ∧ res.sender ≠ impl.selfAddr
  · rw [if_pos other]
    by_cases higher : env.higherThanLeader = true
    · rw [if_pos higher]
      split
      · exact remembered _
      split_ifs
      · exact remembered _
      · exact changeLeaderTo_notified (remembered _) watch _
      · exact remembered _
      · exact remembered _
    · rwa [if_neg higher]
  · rwa [if_neg other]

theorem onAcceptResponse_notified
    (res : AcceptResponseMsg n) : Notified (onAcceptResponse impl env interval watch res) := by
  have checked := notified.of_same (checkResponse_sameRole impl env (watch 0)
    res.restartCounter res.ballotNumber res.accepted)
  simp only [onAcceptResponse]
  split_ifs
  · exact checkPriority_notified (acceptLease_notified checked interval watch res) env watch res
  · exact checkPriority_notified checked env watch res

theorem renewLeaseTask_notified : Notified (renewLeaseTask impl interval watch) := by
  simp only [renewLeaseTask]
  split
  · exact notified
  split_ifs
  · exact notified
  · exact notified.of_same ⟨rfl, rfl⟩
  · exact leaderRevokeIfLeaseExpired_notified notified _ _

theorem stop_notified : Notified (stop impl watch) := by
  refine leaderRevokeIfLeaseExpired_notified ?_ _ _
  exact notified.of_same ⟨rfl, rfl⟩

def FindsExpiredLeader (impl : ElectionImpl T n) (now : Int) : Prop :=
  impl.proposer.role = .leader ∧ impl.proposer.checkLeader now = false

/-- The one handler that takes the role away without a call. -/
theorem devoteTask_notified_iff :
    Notified (devoteTask impl env watch) ↔ ¬ FindsExpiredLeader impl (watch 0).reading := by
  simp only [devoteTask, FindsExpiredLeader]
  cases valid : impl.proposer.checkLeader (watch 0).reading with
  | true =>
    simp only [if_true, Bool.true_eq_false, and_false, not_false_eq_true, iff_true]
    split_ifs
    · exact notified
    · exact notified.of_same (prepare_sameRole ..)
  | false =>
    simp only [Bool.false_eq_true, if_false, and_true]
    have prepared := prepare_sameRole { impl with proposer := { impl.proposer with role := .follower } } env
      (watch 1).instant .follower
    cases role : impl.proposer.role with
    | follower =>
      refine iff_of_true (Notified.of_same ?_ prepared) (by simp)
      exact notified.of_same ⟨role.symm, rfl⟩
    | leader =>
      refine iff_of_false (fun after => ?_) (by simp)
      -- The role is the follower's, but the last call has announced a leader.
      have told := after.role
      rw [prepared.role, prepared.roleChanges] at told
      have leader := notified.role.symm.trans role
      rw [leader] at told
      cases told

end ElectionProposer

open ElectionProposer

theorem ElectionImpl.handleMessage_notified {impl : ElectionImpl T n} (notified : Notified impl)
    (env : Surroundings) (interval : Int) (watch : Nat → Moment T) (msg : Message n) :
    Notified (impl.handleMessage env interval watch msg) := by
  cases msg with
  | prepareRequest msg =>
    simp only [handleMessage]
    refine Notified.of_same ?_ (ElectionAcceptor.onPrepareRequest_sameRole ..)
    split_ifs
    · exact notified.of_same (onPrepareRequest_sameRole ..)
    · exact notified
  | prepareResponse msg =>
    exact notified.of_same (onPrepareResponse_sameRole ..)
  | acceptRequest msg =>
    simp only [handleMessage]
    refine Notified.of_same ?_ (ElectionAcceptor.onAcceptRequest_sameRole ..)
    split_ifs
    · exact notified.of_same ⟨rfl, rfl⟩
    · exact notified
  | acceptResponse msg =>
    exact onAcceptResponse_notified notified env interval watch msg
  | changeLeader msg => exact notified.of_same (onChangeLeader_sameRole ..)

namespace RunningServer

/-- The step runs the devote task on a leader whose lease has run out. -/
def SilentRevoke (server : RunningServer T n) (step : ServerStep T n) : Prop :=
  step.action = .event .devoteTask ∧
    FindsExpiredLeader server.election (step.watch 0).reading

theorem step_notified_iff {server : RunningServer T n} (notified : Notified server.election)
    (step : ServerStep T n) : Notified (server.step step).election ↔ ¬ server.SilentRevoke step := by
  obtain ⟨action, env, interval, watch⟩ := step
  cases action with
  | event event =>
    cases event with
    | devoteTask =>
      simp only [RunningServer.step, Event.needsRunning, Bool.false_and, Bool.false_eq_true,
        if_false, ElectionImpl.handle, SilentRevoke, true_and]
      exact devoteTask_notified_iff notified env watch
    | message msg =>
      refine iff_of_true ?_ (fun silent => by cases silent.1)
      simp only [RunningServer.step]
      split_ifs
      · exact notified
      · exact ElectionImpl.handleMessage_notified notified env interval watch msg
    | renewLeaseTask =>
      refine iff_of_true ?_ (fun silent => by cases silent.1)
      simp only [RunningServer.step]
      split_ifs
      · exact notified
      · exact renewLeaseTask_notified notified interval watch
    | timeWindowTask =>
      refine iff_of_true ?_ (fun silent => by cases silent.1)
      exact notified.of_same (ElectionAcceptor.timeWindowTask_sameRole ..)
    | changeLeaderTo dest =>
      refine iff_of_true ?_ (fun silent => by cases silent.1)
      exact changeLeaderTo_notified notified watch dest
  | clearIsRunning => exact iff_of_true notified (fun silent => by cases silent.1)
  | proposerStop =>
    refine iff_of_true ?_ (fun silent => by cases silent.1)
    simp only [RunningServer.step]
    split_ifs
    · exact notified
    · exact stop_notified notified watch

def started (selfAddr : Fin n) (membershipVersion : LogConfigVersion)
    (restartCounter proposerBallot acceptorBallot windowBallot : Int) : RunningServer T n :=
  ⟨.initial selfAddr membershipVersion restartCounter proposerBallot acceptorBallot windowBallot,
    true⟩

theorem run_append_singleton (server : RunningServer T n) (steps : List (ServerStep T n))
    (step : ServerStep T n) : server.run (steps ++ [step]) = (server.run steps).step step := by
  simp [run]

/-- Over any run, the calls alternate and announce the role at every point exactly if the devote
task never finds a leader whose lease has run out. -/
theorem run_notified_iff (selfAddr : Fin n) (membershipVersion : LogConfigVersion)
    (restartCounter proposerBallot acceptorBallot windowBallot : Int)
    (steps : List (ServerStep T n)) :
    let server := started selfAddr membershipVersion restartCounter proposerBallot acceptorBallot
      windowBallot
    (∀ past future, steps = past ++ future → Notified (server.run past).election) ↔
      ∀ past step future, steps = past ++ step :: future →
        ¬ (server.run past).SilentRevoke step := by
  intro server
  constructor
  · intro notified past step future split
    have before := notified past (step :: future) split
    have after := notified (past ++ [step]) future (by simp [split])
    rw [run_append_singleton] at after
    exact (step_notified_iff before step).mp after
  · intro spoken past
    induction past using List.reverseRecOn with
    | nil => exact fun future split => ⟨trivial, rfl⟩
    | append_singleton past step ih =>
      intro future split
      have split' : steps = past ++ step :: future := by simp [split]
      rw [run_append_singleton]
      exact (step_notified_iff (ih _ split') step).mpr (spoken past step future split')

/-! A server that is its own majority leads until the reading 140; the devote task is the first to
run after that. -/

def soloStart : RunningServer Int 1 := started 0 ⟨1, 1⟩ 1 0 0 0

def soloStep (reading : Int) (action : ServerAction 1) : ServerStep Int 1 where
  action
  surroundings := .calm
  interval := 100
  watch := fun _ => ⟨reading, reading⟩

def deliverLast (reading : Int) (steps : List (ServerStep Int 1)) : List (ServerStep Int 1) :=
  match (soloStart.run steps).election.sent.head? with
  | none => steps
  | some sent => steps ++ [soloStep reading (.event (.message sent.message))]

def soloPrepared : List (ServerStep Int 1) :=
  deliverLast 20 [soloStep 10 (.event .devoteTask)] ++ [soloStep 30 (.event .timeWindowTask)]

def soloLeader : List (ServerStep Int 1) :=
  deliverLast 60 (deliverLast 50 (deliverLast 40 soloPrepared))

theorem expired_leader_unannounced :
    let leader := soloStart.run soloLeader
    let expired := leader.step (soloStep 200 (.event .devoteTask))
    leader.election.proposer.role = .leader ∧ expired.election.proposer.role = .follower ∧
      expired.election.roleChanges = [(.follower, .leader)] ∧
      ¬ Notified expired.election := by
  intro leader expired
  have role : expired.election.proposer.role = .follower := by decide
  have calls : expired.election.roleChanges = [(.follower, .leader)] := by decide
  refine ⟨by decide, role, calls, fun notified => ?_⟩
  have announced := notified.role
  rw [role, calls] at announced
  cases announced

end RunningServer

end IMBridge.Palf.Election
