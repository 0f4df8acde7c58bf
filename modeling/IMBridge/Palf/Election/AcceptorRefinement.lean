import IMBridge.Palf.Election.Refinement

/-!
The handlers of the acceptor are sequences of steps of the abstract lease protocol.
-/

namespace IMBridge.Palf.Election

open IMBridge.Lib.LeaderLease

variable {T : Type} {n : Nat}

namespace ElectionAcceptor

variable (acceptor : ElectionAcceptor n)

@[simp] theorem resetTimeWindowStates_ballotNumber :
    acceptor.resetTimeWindowStates.ballotNumber = acceptor.ballotNumber := by
  unfold resetTimeWindowStates
  split <;> rfl

@[simp] theorem resetTimeWindowStates_lease : acceptor.resetTimeWindowStates.lease = acceptor.lease := by
  unfold resetTimeWindowStates
  split <;> rfl

theorem advance_ballotNumber {acceptor : ElectionAcceptor n} {ballotNumber : Int}
    (larger : acceptor.ballotNumber < ballotNumber) :
    (acceptor.advanceBallotNumberAndResetRelatedStates ballotNumber).ballotNumber = ballotNumber := by
  simp [advanceBallotNumberAndResetRelatedStates, larger]

@[simp] theorem advance_lease (ballotNumber : Int) :
    (acceptor.advanceBallotNumberAndResetRelatedStates ballotNumber).lease = acceptor.lease := by
  unfold advanceBallotNumberAndResetRelatedStates
  split <;> simp

theorem accept_ballotNumber {acceptor : ElectionAcceptor n} {req : AcceptRequestMsg n}
    (allowed : acceptor.ballotNumber ≤ req.ballotNumber) (now : Int) :
    (acceptor.accept now req).ballotNumber = req.ballotNumber := by
  unfold accept
  dsimp only
  split
  · exact advance_ballotNumber ‹_›
  · omega

theorem accept_lease (req : AcceptRequestMsg n) (now : Int) :
    (acceptor.accept now req).lease = acceptor.lease.updateFrom now req := by
  unfold accept
  dsimp only
  split
  · rw [advance_lease]
  · rfl

/-- Time windows and the requests in them leave the ballot and the lease alone. -/
theorem window_keeps (rescheduled requestHigher : Bool) (ballotNumber : Int) (req : PrepareRequestMsg n) :
    ((acceptor.openTimeWindow rescheduled ballotNumber).countRequest requestHigher req).ballotNumber =
        acceptor.ballotNumber ∧
      ((acceptor.openTimeWindow rescheduled ballotNumber).countRequest requestHigher req).lease = acceptor.lease := by
  have opened : (acceptor.openTimeWindow rescheduled ballotNumber).ballotNumber = acceptor.ballotNumber ∧
      (acceptor.openTimeWindow rescheduled ballotNumber).lease = acceptor.lease := by
    unfold openTimeWindow
    dsimp only
    split <;> split <;> simp
  have counted (acceptor : ElectionAcceptor n) :
      (acceptor.countRequest requestHigher req).ballotNumber = acceptor.ballotNumber ∧
        (acceptor.countRequest requestHigher req).lease = acceptor.lease := by
    unfold countRequest
    dsimp only
    split
    · simp
    split
    · simp
    split
    · simp
    · split <;> [simp; split <;> [simp; split <;> [simp; split <;> simp]]]
  grind

end ElectionAcceptor

variable [Ring T] [LinearOrder T] [FloorRing T] {offset : Fin n → T} {interval : Int}
  {world : World (Fin n) T} {self : Fin n} {impl : ElectionImpl T n} {time later : T}

omit [LinearOrder T] [FloorRing T] in
theorem GrantOf.seen_eq [LinearOrder T] {offset : T} {lease : Lease n}
    {grant : Option (Grant (Fin n) T)} (rep : GrantOf offset lease grant) :
    grant.map (fun grant => (grant.owner, grant.ballot)) =
      lease.owner.map (fun owner => (owner, lease.ballotNumber)) := by
  unfold GrantOf at rep
  cases isOwner : lease.owner with
  | none =>
    rw [isOwner] at rep
    rw [rep.1]
    rfl
  | some owner =>
    grind

omit [FloorRing T] in
theorem GrantOf.end_of_none {offset : T} {lease : Lease n} {grant : Option (Grant (Fin n) T)}
    (rep : GrantOf offset lease grant) (none : lease.owner = none) : lease.leaseEndTs = -1 := by
  unfold GrantOf at rep
  rw [none] at rep
  exact rep.2

namespace Represents

variable (rep : Represents offset interval self world impl)

include rep

/-- Whatever the acceptor keeps besides its ballot and lease plays no part in the protocol. -/
theorem withAcceptor {acceptor : ElectionAcceptor n} (ballot : acceptor.ballotNumber = impl.acceptor.ballotNumber)
    (lease : acceptor.lease = impl.acceptor.lease) :
    Represents offset interval self world { impl with acceptor } :=
  { rep with
    acceptor := ⟨by rw [ballot]; exact rep.acceptor.promised,
      by rw [lease]; exact rep.acceptor.grant⟩ }

section

variable (clock : world.clock self = time)

include clock

theorem promise (acceptor : ElectionAcceptor n) (higher : impl.acceptor.ballotNumber < acceptor.ballotNumber)
    (lease : acceptor.lease = impl.acceptor.lease) (candidate : Fin n) (restartCounter : Int) :
    ∃ next, Step (interval : T) (Majority n) self world next ∧ next.clock self = time ∧
      Justified offset interval next ⟨time, candidate, .prepareResponse
        ⟨self, restartCounter, acceptor.ballotNumber, true, acceptor.lease⟩⟩ ∧
      Represents offset interval self next { impl with acceptor } := by
  have old := rep.acceptor
  have step : Step (interval : T) (Majority n) self world _ := .promise candidate (old.promised.trans_lt higher)
  refine ⟨_, step, clock, ?_, ?_⟩
  · intro _
    refine ⟨fun none => ?_, _, .inl rfl, rfl, rfl, rfl, ?_, clock.le⟩
    · exact lease ▸ old.grant.end_of_none (lease ▸ none)
    · rw [lease]
      exact old.grant.seen_eq
  · exact
      { own := rep.own
        acceptor := ⟨Function.update_self .., lease ▸ old.grant⟩
        proposer := rep.proposer.mono (by constructor <;> simp +contextual)
        sent := fun sent member => (rep.sent sent member).mono step.extends }

theorem onPrepareRequestAcceptor (env : Surroundings) (req : PrepareRequestMsg n) :
    Follows offset interval self world (ElectionAcceptor.onPrepareRequest impl env time req) time := by
  unfold ElectionAcceptor.onPrepareRequest
  dsimp only
  split
  · exact rep.follows clock
  split
  · refine (rep.send ?_).follows clock
    intro accepted
    cases accepted
  split
  · split
    · exact rep.follows clock
    rename_i larger
    have advanced := ElectionAcceptor.advance_ballotNumber (not_le.mp larger)
    obtain ⟨next, step, clock', justified, rep'⟩ := rep.promise clock _
      (advanced ▸ not_le.mp larger) (ElectionAcceptor.advance_lease ..) req.sender
      req.restartCounter
    refine Follows.after step ((rep'.send ?_).follows clock')
    rwa [rep.own]
  · obtain ⟨ballot, lease⟩ := impl.acceptor.window_keeps env.rescheduled env.requestHigher req.ballotNumber req
    exact (rep.withAcceptor ballot lease).follows clock

variable [IsStrictOrderedRing T]

theorem expire (expired : impl.acceptor.lease.isExpired ⌊time + offset self⌋ = true) :
    Follows offset interval self world
      { impl with
        acceptor := { impl.acceptor with lease := impl.acceptor.lease.reset } } time := by
  have old := rep.acceptor
  cases isOwner : impl.acceptor.lease.owner with
  | none =>
    have none : GrantOf (offset self) impl.acceptor.lease.reset (world.grant self) := by
      have grant := old.grant
      unfold GrantOf at grant
      rw [isOwner] at grant
      exact ⟨grant.1, rfl⟩
    refine ⟨world, .refl, clock, ?_⟩
    exact { rep with acceptor := ⟨old.promised, none⟩ }
  | some owner =>
    have grant := old.grant
    unfold GrantOf at grant
    rw [isOwner] at grant
    obtain ⟨expiry, granted, ends⟩ := grant
    have lapsed : expiry < world.clock self := by
      have past : impl.acceptor.lease.leaseEndTs + 1 ≤ ⌊time + offset self⌋ := by
        simp only [Lease.isExpired, decide_eq_true_eq] at expired
        omega
      have shown : ((impl.acceptor.lease.leaseEndTs + 1 : Int) : T) ≤ time + offset self := Int.le_floor.mp past
      grind
    have step : Step (interval : T) (Majority n) self world _ := .expire granted lapsed
    refine follows_of_step step clock ?_
    exact
      { own := rep.own
        acceptor := ⟨old.promised, Function.update_self .., rfl⟩
        proposer := rep.proposer.mono (by constructor <;> simp +contextual)
        sent := fun sent member => (rep.sent sent member).mono step.extends }

theorem vote (acceptor : ElectionAcceptor n) {req : AcceptRequestMsg n}
    (allowed : impl.acceptor.ballotNumber ≤ req.ballotNumber) (ballot : acceptor.ballotNumber = req.ballotNumber)
    (lease : acceptor.lease = impl.acceptor.lease.updateFrom ⌊time + offset self⌋ req) {sentAt : T}
    (before : sentAt ≤ time) {receiver : Fin n} (valid : req.ballotNumber ≠ invalidValue)
    (justified : Justified offset interval world ⟨sentAt, receiver, .acceptRequest req⟩) (restartCounter : Int) :
    ∃ next, Step (interval : T) (Majority n) self world next ∧ next.clock self = time ∧
      Justified offset interval next ⟨time, req.sender, .acceptResponse
        ⟨self, restartCounter, acceptor.ballotNumber, req.leaseStartTsOnProposer, req.leaseInterval, true⟩⟩ ∧
      Represents offset interval self next { impl with acceptor } := by
  have old := rep.acceptor
  obtain ⟨isInterval, proposal, proposed, leader, sameBallot, start, started⟩ := justified valid
  -- the grant lasts as long as the lease on the acceptor's clock, rounding apart
  obtain ⟨expiry, covers, longer, ends⟩ : ∃ expiry, world.clock self + interval ≤ expiry ∧
      (∀ grant, world.grant self = some grant → grant.expiry ≤ expiry) ∧
      expiry + offset self < acceptor.lease.leaseEndTs + 1 := by
    have rounding : time + interval + offset self < ((⌊time + offset self⌋ + req.leaseInterval : Int) : T) + 1 := by
      have above := Int.lt_floor_add_one (time + offset self)
      rw [isInterval]
      push_cast
      calc time + interval + offset self = time + offset self + interval := add_right_comm ..
        _ < ⌊time + offset self⌋ + 1 + interval := add_lt_add_left above _
        _ = ⌊time + offset self⌋ + interval + 1 := add_right_comm ..
    have newEnd : ((⌊time + offset self⌋ + req.leaseInterval : Int) : T) ≤ acceptor.lease.leaseEndTs := by
      rw [lease]
      exact Int.cast_le.mpr (le_max_right ..)
    have oldEnd : (impl.acceptor.lease.leaseEndTs : T) ≤ acceptor.lease.leaseEndTs := by
      rw [lease]
      exact Int.cast_le.mpr (le_max_left ..)
    have grant := old.grant
    unfold GrantOf at grant
    rw [clock]
    cases isOwner : impl.acceptor.lease.owner with
    | none =>
      rw [isOwner] at grant
      refine ⟨time + interval, le_rfl, fun other granted => ?_, ?_⟩
      · rw [grant.1] at granted
        cases granted
      grind
    | some owner =>
      rw [isOwner] at grant
      obtain ⟨expiry, granted, ends⟩ := grant
      refine ⟨max expiry (time + interval), le_max_right .., fun other found => ?_, ?_⟩
      · grind
      grind
  have step : Step (interval : T) (Majority n) self world _ := .vote proposed (start.trans (before.trans clock.ge))
      (old.promised.trans_le (allowed.trans sameBallot.ge)) covers longer
  refine ⟨_, step, clock, ?_, ?_⟩
  · intro _
    exact ⟨isInterval, _, .inl rfl, rfl, leader, sameBallot.trans ballot.symm, clock.le, started⟩
  · exact
      { own := rep.own
        acceptor :=
          { promised := by simp only [Function.update_self, sameBallot, ballot]
            grant := by
              rw [lease] at ends ⊢
              refine ⟨expiry, ?_, ends⟩
              simp only [Function.update_self, leader, sameBallot, Lease.updateFrom] }
        proposer := rep.proposer.mono (by constructor <;> simp +contextual)
        sent := fun sent member => (rep.sent sent member).mono step.extends }

theorem onAcceptRequest {req : AcceptRequestMsg n} {sentAt : T} (before : sentAt ≤ time) {receiver : Fin n}
    (valid : req.ballotNumber ≠ invalidValue)
    (justified : Justified offset interval world ⟨sentAt, receiver, .acceptRequest req⟩) :
    Follows offset interval self world
      (ElectionAcceptor.onAcceptRequest impl ⟨time, ⌊time + offset self⌋⟩ req) time := by
  unfold ElectionAcceptor.onAcceptRequest
  dsimp only
  split
  · refine (rep.send ?_).follows clock
    intro accepted
    cases accepted
  rename_i allowed
  obtain ⟨next, step, clock', justified', rep'⟩ := rep.vote clock _ (not_lt.mp allowed)
    (ElectionAcceptor.accept_ballotNumber (not_lt.mp allowed) _)
    (ElectionAcceptor.accept_lease ..) before valid justified req.restartCounter
  refine Follows.after step ((rep'.send ?_).follows clock')
  rwa [rep.own]

theorem voteInWindow :
    Follows offset interval self world (ElectionAcceptor.vote impl ⟨time, ⌊time + offset self⌋⟩) time := by
  unfold ElectionAcceptor.vote
  dsimp only
  split
  · rename_i larger
    -- first the lease is dropped if it has run out, then the promise is made
    have settled : Follows offset interval self world
        { impl with
          acceptor :=
            { impl.acceptor with
              lease := if impl.acceptor.lease.isExpired ⌊time + offset self⌋ then
                impl.acceptor.lease.reset else impl.acceptor.lease } } time := by
      split
      · exact rep.expire clock ‹_›
      · exact rep.follows clock
    refine settled.bind ?_
    intro dropped _ clock' rep'
    split
    · obtain ⟨next, step, now, -, promised⟩ := rep'.promise clock' (impl.acceptor.promiseWindow ⌊time + offset self⌋) larger.2
        rfl self 0
      exact Follows.after step (promised.follows now)
    rename_i req _
    obtain ⟨next, step, now, justified, promised⟩ := rep'.promise clock'
      (impl.acceptor.promiseWindow ⌊time + offset self⌋) larger.2 rfl req.sender req.restartCounter
    refine Follows.after step ((promised.send ?_).follows now)
    rwa [rep.own]
  · exact (rep.withAcceptor (by rfl) (by rfl)).follows clock

end

theorem timeWindowTask [IsStrictOrderedRing T] {instant : Nat → T} (increasing : StrictMono instant)
    (clock : world.clock self = instant 0)
    (env : Surroundings) :
    Follows offset interval self world (ElectionAcceptor.timeWindowTask impl env (watch (offset self) instant))
      (instant 1) := by
  have forward : instant 0 ≤ instant 1 := increasing.monotone (by decide)
  have dropped : Follows offset interval self world
      (ElectionAcceptor.dropLease impl ⌊instant 0 + offset self⌋) (instant 0) := by
    unfold ElectionAcceptor.dropLease
    dsimp only
    split
    · rename_i expired
      exact rep.expire clock (Bool.and_eq_true_iff.mp expired).2
    · exact rep.follows clock
  unfold ElectionAcceptor.timeWindowTask
  dsimp only [watch]
  refine dropped.bind (fun next _ now settled => ?_)
  refine (settled.tick (now.trans_le forward)).bind (fun next' _ now' waiting => ?_)
  split
  · refine (waiting.voteInWindow now').bind (fun last _ now'' voted => ?_)
    exact (voted.withAcceptor (by rfl) (by rfl)).follows now''
  · exact (waiting.withAcceptor (by rfl) (by rfl)).follows now'

end Represents

end IMBridge.Palf.Election
