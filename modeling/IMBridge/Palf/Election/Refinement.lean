import IMBridge.Lib.LeaderLeaseRun
import IMBridge.Palf.Election.System

/-!
How a server's state represents its part of the abstract lease protocol, and how the steps inside a
handler keep that. A leader's lease ends early by the rounding of clock readings and an acceptor's
late, so both are on the safe side.
-/

namespace IMBridge.Palf.Election

open IMBridge.Lib.LeaderLease IMBridge.Lib.Quorum Function

variable {T : Type} {n : Nat} [Ring T] [LinearOrder T] [FloorRing T]

def Majority (n : Nat) (group : Finset (Fin n)) : Prop := n / 2 + 1 ≤ group.card

theorem Majority.meet {first second : Finset (Fin n)} (majority : Majority n first)
    (majority' : Majority n second) : ∃ server, server ∈ first ∧ server ∈ second := by
  have common : (first ∩ second).Nonempty := by
    apply Finset.inter_nonempty_of_card_lt_card_add_card (Finset.subset_univ first) (Finset.subset_univ second)
    rw [Finset.card_univ, Fintype.card_fin]
    unfold Majority at majority majority'
    omega
  grind

def GrantOf (offset : T) (lease : Lease n) (grant : Option (Grant (Fin n) T)) : Prop :=
  match lease.owner with
  | none => grant = none ∧ lease.leaseEndTs = -1
  | some owner => ∃ expiry, grant = some ⟨owner, expiry, lease.ballotNumber⟩ ∧
      expiry + offset < lease.leaseEndTs + 1

def WriteOf (offset : T) (term : Term T) (write : LeaseWrite T) : Prop :=
  term.since = write.instant ∧
    match term.hold with
    | none => write.lease = invalidValue
    | some hold => hold.expiry + offset = write.lease ∧ hold.epoch = write.epoch

def Justified (offset : Fin n → T) (interval : Int) (world : World (Fin n) T) (sent : Sent T n) :
    Prop :=
  match sent.message with
  | .prepareRequest _ => True
  | .prepareResponse msg => msg.accepted = true →
      (msg.lease.owner = none → msg.lease.leaseEndTs = -1) ∧
      ∃ promise ∈ world.promises, promise.acceptor = msg.sender ∧
        promise.candidate = sent.receiver ∧ promise.ballot = msg.ballotNumber ∧
        promise.seen = msg.lease.owner.map (fun owner => (owner, msg.lease.ballotNumber)) ∧
        promise.instant ≤ sent.instant
  | .acceptRequest msg => msg.ballotNumber ≠ invalidValue → msg.leaseInterval = interval ∧
      ∃ proposal ∈ world.proposals, proposal.leader = msg.sender ∧
        proposal.ballot = msg.ballotNumber ∧ proposal.start ≤ sent.instant ∧
        ⌊proposal.start + offset msg.sender⌋ = msg.leaseStartTsOnProposer
  | .acceptResponse msg => msg.accepted = true → msg.leaseInterval = interval ∧
      ∃ vote ∈ world.votes, vote.acceptor = msg.sender ∧ vote.leader = sent.receiver ∧
        vote.ballot = msg.ballotNumber ∧ vote.instant ≤ sent.instant ∧
        ⌊vote.start + offset sent.receiver⌋ = msg.leaseStartedTsOnProposer
  | .changeLeader msg => ∃ handover ∈ world.handovers, handover.source = msg.sender ∧
      handover.ballot = msg.switchSourceLeaderBallot ∧ handover.instant ≤ sent.instant

def Promised (world : World (Fin n) T) (self acceptor : Fin n) : Prop :=
  ∃ promise ∈ world.promises, promise.acceptor = acceptor ∧ promise.candidate = self ∧
    promise.ballot = world.ballot self ∧ promise.instant ≤ world.clock self ∧
    Passable world.handovers self (world.clock self) promise.seen

structure RepresentsAcceptor (offset : T) (world : World (Fin n) T) (server : Fin n)
    (acceptor : ElectionAcceptor n) : Prop where
  promised : world.promised server = acceptor.ballotNumber
  grant : GrantOf offset acceptor.lease (world.grant server)

structure RepresentsProposer (offset : T) (interval : Int) (world : World (Fin n) T) (server : Fin n)
    (proposer : ElectionProposer T n) : Prop where
  ballot : world.ballot server = proposer.ballotNumber
  terms : List.Forall₂ (WriteOf offset) (world.terms server) proposer.leaderLeaseAndEpoch
  ordered : ∀ term ∈ world.terms server, term.since ≤ world.clock server
  prepared : ∀ acceptor, proposer.prepareOk acceptor = true → Promised world server acceptor
  accepted : ∀ acceptor, proposer.acceptOkPromiseNotVoteBeforeLocalTs acceptor = 0 ∨
    0 < proposer.acceptOkPromiseNotVoteBeforeLocalTs acceptor ∧
    ∃ vote ∈ world.votes, vote.acceptor = acceptor ∧ vote.leader = server ∧
      vote.ballot = world.ballot server ∧ vote.instant ≤ world.clock server ∧
      (proposer.acceptOkPromiseNotVoteBeforeLocalTs acceptor : T) ≤ vote.start + interval + offset
  success_le : proposer.prepareSuccessBallot ≤ proposer.ballotNumber ∨
    proposer.prepareSuccessBallot = invalidValue ∧ ∀ win ∈ world.wins, win.candidate ≠ server
  won : ∀ win ∈ world.wins, win.candidate = server → win.ballot ≤ proposer.prepareSuccessBallot ∧
    ∃ own ∈ world.wins, own.candidate = server ∧ own.ballot = proposer.prepareSuccessBallot ∧
      own.instant ≤ world.clock server
  leader : proposer.role = .leader → ∃ win ∈ world.wins, win.candidate = server
  source : ∀ addr, proposer.switchSourceLeaderAddr = some addr →
    ∃ handover ∈ world.handovers, handover.source = addr ∧
      handover.ballot = proposer.switchSourceLeaderBallot ∧ handover.instant ≤ world.clock server

/-- The world as far as a server and the messages it has sent are concerned. -/
structure Represents (offset : Fin n → T) (interval : Int) (server : Fin n)
    (world : World (Fin n) T) (impl : ElectionImpl T n) : Prop where
  own : impl.selfAddr = server
  acceptor : RepresentsAcceptor (offset server) world server impl.acceptor
  proposer : RepresentsProposer (offset server) interval world server impl.proposer
  sent : ∀ sent ∈ impl.sent, Justified offset interval world sent

structure Preserves (server : Fin n) (world next : World (Fin n) T) : Prop where
  ballot : next.ballot server = world.ballot server
  terms : next.terms server = world.terms server
  later : world.clock server ≤ next.clock server
  promises : world.promises ⊆ next.promises
  votes : world.votes ⊆ next.votes
  handovers : world.handovers ⊆ next.handovers
  wins : world.wins ⊆ next.wins
  ownWins : ∀ win ∈ next.wins, win.candidate = server → win ∈ world.wins

section Frame

variable {offset : Fin n → T} {interval : Int} {world next : World (Fin n) T} {self : Fin n}

omit [Ring T] [FloorRing T] in
theorem preserves_of_extends {actor : Fin n} (extension : Extends actor world next)
    (other : self ≠ actor) : Preserves self world next where
  ballot := extension.ballot self other
  terms := extension.terms self other
  later := (extension.clock self other).ge
  promises := extension.promises
  votes := extension.votes
  handovers := extension.handovers
  wins := extension.wins
  ownWins win won own := extension.otherWins win won (own ▸ other)

omit [Ring T] [FloorRing T] in
theorem Promised.mono {acceptor : Fin n} (promised : Promised world self acceptor)
    (preserves : Preserves self world next) : Promised next self acceptor := by
  obtain ⟨promise, made, isAcceptor, candidate, ballot, before, passable⟩ := promised
  exact ⟨promise, preserves.promises made, isAcceptor, candidate,
    ballot.trans preserves.ballot.symm, before.trans preserves.later,
    passable.mono preserves.handovers preserves.later⟩

omit [FloorRing T] in
theorem RepresentsProposer.mono {offset : T} {proposer : ElectionProposer T n}
    (rep : RepresentsProposer offset interval world self proposer)
    (preserves : Preserves self world next) :
    RepresentsProposer offset interval next self proposer where
  ballot := preserves.ballot.trans rep.ballot
  terms := by rw [preserves.terms]; exact rep.terms
  ordered term member := (rep.ordered term (preserves.terms ▸ member)).trans preserves.later
  prepared acceptor ok := (rep.prepared acceptor ok).mono preserves
  accepted acceptor := by
    refine (rep.accepted acceptor).imp_right ?_
    rintro ⟨pos, vote, cast, isAcceptor, leader, ballot, before, covers⟩
    exact ⟨pos, vote, preserves.votes cast, isAcceptor, leader,
      ballot.trans preserves.ballot.symm, before.trans preserves.later, covers⟩
  success_le := by
    refine rep.success_le.imp_right ?_
    rintro ⟨invalid, never⟩
    exact ⟨invalid, fun win won own => never win (preserves.ownWins win won own) own⟩
  won win won own := by
    obtain ⟨le, best, wonBest, ownBest, ballot, before⟩ := rep.won win (preserves.ownWins win won own) own
    exact ⟨le, best, preserves.wins wonBest, ownBest, ballot, before.trans preserves.later⟩
  leader isLeader := by
    obtain ⟨win, won, own⟩ := rep.leader isLeader
    exact ⟨win, preserves.wins won, own⟩
  source addr isSource := by
    obtain ⟨handover, done, source, ballot, before⟩ := rep.source addr isSource
    exact ⟨handover, preserves.handovers done, source, ballot, before.trans preserves.later⟩

omit [FloorRing T] in
theorem RepresentsProposer.ordered_cons {offset : T} {proposer : ElectionProposer T n}
    (rep : RepresentsProposer offset interval world self proposer) {hold : Option (Hold T)} :
    ∀ term ∈ update world.terms self (⟨world.clock self, hold⟩ :: world.terms self) self,
      term.since ≤ world.clock self := by
  rw [update_self]
  exact List.forall_mem_cons.2 ⟨le_rfl, rep.ordered⟩

theorem Justified.mono {actor : Fin n} {sent : Sent T n}
    (justified : Justified offset interval world sent) (extension : Extends actor world next) :
    Justified offset interval next sent := by
  unfold Justified at justified ⊢
  cases kind : sent.message with
  | prepareRequest msg => trivial
  | prepareResponse msg =>
    rw [kind] at justified
    intro accepted
    obtain ⟨empty, promise, made, rest⟩ := justified accepted
    exact ⟨empty, promise, extension.promises made, rest⟩
  | acceptRequest msg =>
    rw [kind] at justified
    intro valid
    obtain ⟨same, proposal, proposed, rest⟩ := justified valid
    exact ⟨same, proposal, extension.proposals proposed, rest⟩
  | acceptResponse msg =>
    rw [kind] at justified
    intro accepted
    obtain ⟨same, vote, cast, rest⟩ := justified accepted
    exact ⟨same, vote, extension.votes cast, rest⟩
  | changeLeader msg =>
    rw [kind] at justified
    obtain ⟨handover, done, rest⟩ := justified
    exact ⟨handover, extension.handovers done, rest⟩

/-- The steps of one server do not concern what another stands for. -/
theorem Represents.frame {actor : Fin n} {impl : ElectionImpl T n}
    (rep : Represents offset interval self world impl) (extension : Extends actor world next)
    (other : self ≠ actor) : Represents offset interval self next impl where
  own := rep.own
  acceptor :=
    { promised := (extension.promised _ other).trans rep.acceptor.promised
      grant := by rw [extension.grant _ other]; exact rep.acceptor.grant }
  proposer := rep.proposer.mono (preserves_of_extends extension other)
  sent sent member := (rep.sent sent member).mono extension

end Frame

/-- From the world, steps of the server lead to what its state stands for at the instant. -/
def Follows (offset : Fin n → T) (interval : Int) (self : Fin n) (world : World (Fin n) T)
    (impl : ElectionImpl T n) (time : T) : Prop :=
  ∃ next, Steps (interval : T) (Majority n) self world next ∧ next.clock self = time ∧
    Represents offset interval self next impl

section Pieces

variable {offset : Fin n → T} {interval : Int} {world : World (Fin n) T} {self : Fin n}
  {impl changed : ElectionImpl T n} {time later : T}

theorem Follows.bind (follows : Follows offset interval self world impl time)
    (continuation : ∀ next, Extends self world next → next.clock self = time →
      Represents offset interval self next impl → Follows offset interval self next changed later) :
    Follows offset interval self world changed later := by
  obtain ⟨next, steps, clock, rep⟩ := follows
  obtain ⟨last, steps', clock', rep'⟩ := continuation next steps.extends clock rep
  exact ⟨last, steps.trans steps', clock', rep'⟩

theorem follows_of_step {next : World (Fin n) T}
    (step : Step (interval : T) (Majority n) self world next) (clock : next.clock self = time)
    (rep : Represents offset interval self next changed) :
    Follows offset interval self world changed time :=
  ⟨next, .single step, clock, rep⟩

theorem Follows.after {next : World (Fin n) T} (step : Step (interval : T) (Majority n) self world next)
    (follows : Follows offset interval self next changed time) :
    Follows offset interval self world changed time := by
  obtain ⟨last, steps, clock, rep⟩ := follows
  exact ⟨last, .head step steps, clock, rep⟩

namespace Represents

variable (rep : Represents offset interval self world impl)

include rep

theorem keep {next : World (Fin n) T} (step : Step (interval : T) (Majority n) self world next)
    (preserves : Preserves self world next) (promised : next.promised self = world.promised self)
    (grant : next.grant self = world.grant self) : Represents offset interval self next impl where
  own := rep.own
  acceptor := ⟨promised.trans rep.acceptor.promised, grant ▸ rep.acceptor.grant⟩
  proposer := rep.proposer.mono preserves
  sent sent member := (rep.sent sent member).mono step.extends

theorem tick (forward : world.clock self ≤ time) : Follows offset interval self world impl time := by
  have step : Step (interval : T) (Majority n) self world _ := .tick forward
  refine follows_of_step step (by simp) (rep.keep step ?_ rfl rfl)
  constructor <;> simp +contextual [forward]

theorem withSent {sent : List (Sent T n)} (justified : ∀ s ∈ sent, Justified offset interval world s) :
    Represents offset interval self world { impl with sent := sent ++ impl.sent } where
  own := rep.own
  acceptor := rep.acceptor
  proposer := rep.proposer
  sent := List.forall_mem_append.2 ⟨justified, rep.sent⟩

theorem broadcast {message : Message n}
    (justified : ∀ receiver, Justified offset interval world ⟨time, receiver, message⟩) :
    Represents offset interval self world (impl.broadcast time message) := by
  refine rep.withSent ?_
  grind

theorem send {receiver : Fin n} {message : Message n}
    (justified : Justified offset interval world ⟨time, receiver, message⟩) :
    Represents offset interval self world (impl.send time receiver message) := by
  have single : ∀ s ∈ [⟨time, receiver, message⟩], Justified offset interval world s := by
    simpa using justified
  exact rep.withSent single

theorem broadcastPrepare (role : ObRole) :
    Represents offset interval self world (ElectionProposer.broadcastPrepare impl time role) :=
  rep.broadcast (fun _ => trivial)

variable (clock : world.clock self = time)

include clock

theorem follows : Follows offset interval self world impl time := ⟨world, .refl, clock, rep⟩

theorem advance {ballotNumber : Int} (larger : impl.proposer.ballotNumber ≤ ballotNumber) :
    Follows offset interval self world (ElectionProposer.advance impl ballotNumber) time := by
  have step : Step (interval : T) (Majority n) self world _ := .raise (rep.proposer.ballot.trans_le larger)
  refine follows_of_step step clock ?_
  exact
    { own := rep.own
      acceptor := ⟨rep.acceptor.promised, rep.acceptor.grant⟩
      proposer :=
        { ballot := update_self ..
          terms := rep.proposer.terms
          ordered := rep.proposer.ordered
          prepared := fun acceptor ok => by cases ok
          accepted := fun acceptor => .inl rfl
          success_le := rep.proposer.success_le.imp_left fun success => success.trans larger
          won := rep.proposer.won
          leader := rep.proposer.leader
          source := fun addr isSource => by cases isSource }
      sent := fun sent member => (rep.sent sent member).mono step.extends }

theorem prepare (env : Surroundings) (sentAt : T) (role : ObRole) :
    Follows offset interval self world (ElectionProposer.prepare impl env sentAt role) time := by
  unfold ElectionProposer.prepare
  cases role with
  | follower =>
    by_cases recent : env.preparedRecently = true
    · simpa [recent] using rep.follows clock
    simp only [recent]
    refine (rep.advance clock (Int.le_add_one le_rfl)).bind ?_
    intro next _ clock' rep'
    exact (rep'.broadcastPrepare .follower).follows clock'
  | leader => exact (rep.broadcastPrepare .leader).follows clock

theorem propose (won : impl.proposer.prepareSuccessBallot ≠ invalidValue → ∃ win ∈ world.wins, win.candidate = self) :
    Follows offset interval self world (ElectionProposer.propose impl interval ⟨time, ⌊time + offset self⌋⟩) time := by
  by_cases invalid : impl.proposer.prepareSuccessBallot = invalidValue
  · refine (rep.broadcast ?_).follows clock
    intro _ valid
    exact absurd invalid valid
  obtain ⟨win, inWins, own⟩ := won invalid
  obtain ⟨-, best, bestWon, bestOwn, ballot, before⟩ := rep.proposer.won win inWins own
  have step : Step (interval : T) (Majority n) self world _ := .propose bestWon bestOwn before
  refine follows_of_step step clock ((rep.keep step ?_ rfl rfl).broadcast ?_)
  · constructor <;> simp +contextual
  · intro receiver
    refine fun _ => ⟨rfl, _, .inl rfl, rep.own.symm, ballot, clock.le, ?_⟩
    show ⌊world.clock self + offset impl.selfAddr⌋ = _
    rw [clock, rep.own]

theorem leaderRevokeIfLeaseExpired (forward : time ≤ later) (now : Int) :
    Follows offset interval self world (ElectionProposer.leaderRevokeIfLeaseExpired impl now later) later := by
  refine (rep.tick (clock.trans_le forward)).bind ?_
  intro next _ clock' rep'
  unfold ElectionProposer.leaderRevokeIfLeaseExpired
  dsimp only
  split
  · have step : Step (interval : T) (Majority n) self next _ := .drop
    have old := rep'.proposer
    refine follows_of_step step clock' ?_
    exact
      { own := rep'.own
        acceptor := ⟨rep'.acceptor.promised, rep'.acceptor.grant⟩
        proposer :=
          { ballot := old.ballot
            terms := by
              simp only [update_self]
              exact .cons ⟨clock', rfl⟩ old.terms
            ordered := old.ordered_cons
            prepared := fun acceptor ok => by cases ok
            accepted := fun acceptor => .inl rfl
            success_le := old.success_le
            won := old.won
            leader := fun isLeader => by cases isLeader
            source := old.source }
        sent := fun sent member => (rep'.sent sent member).mono step.extends }
  · exact rep'.follows clock'

/-- The old leader gives its lease up for the ballot it had. -/
theorem innerChangeLeaderTo {reset : T} (forward : time ≤ reset) (onward : reset ≤ later) (now : Int) (dst : Fin n) :
    Follows offset interval self world (ElectionProposer.innerChangeLeaderTo impl reset now later dst) later := by
  refine (rep.tick (clock.trans_le forward)).bind ?_
  intro next _ clock' rep'
  have step : Step (interval : T) (Majority n) self next _ := .handOver
  have old := rep'.proposer
  have given : Represents offset interval self
      { next with
        ballot := update next.ballot self (next.ballot self + 1)
        terms := update next.terms self (⟨next.clock self, none⟩ :: next.terms self)
        handovers := insert ⟨self, next.ballot self, next.clock self⟩ next.handovers }
      (ElectionProposer.giveUpLease impl reset) :=
    { own := rep'.own
      acceptor := ⟨rep'.acceptor.promised, rep'.acceptor.grant⟩
      proposer :=
        { ballot := by
            simp only [update_self, old.ballot]
            rfl
          terms := by
            simp only [update_self]
            exact .cons ⟨clock', rfl⟩ old.terms
          ordered := old.ordered_cons
          prepared := fun acceptor ok => by cases ok
          accepted := fun acceptor => .inl rfl
          success_le := old.success_le.imp_left fun success => success.trans (Int.le_add_one le_rfl)
          won := old.won
          leader := old.leader
          source := fun addr isSource => by cases isSource }
      sent := fun sent member => (rep'.sent sent member).mono step.extends }
  refine Follows.after step ((given.leaderRevokeIfLeaseExpired clock' onward now).bind ?_)
  intro last extension clock'' rep''
  refine (rep''.send ?_).follows clock''
  exact ⟨_, extension.handovers (.inl rfl), rep'.own.symm, old.ballot, clock'.trans_le onward⟩

end Represents

end Pieces

end IMBridge.Palf.Election
