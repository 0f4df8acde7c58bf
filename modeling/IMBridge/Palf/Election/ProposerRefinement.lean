import IMBridge.Palf.Election.Refinement

/-!
The handlers of the proposer are sequences of steps of the abstract lease protocol.
-/

namespace IMBridge.Palf.Election

open Fintype Finset LeaderLeaseAndEpoch Function ElectionProposer
open IMBridge.Lib.LeaderLease IMBridge.Lib.Quorum

variable {T : Type} {n : Nat} [Ring T] [LinearOrder T] [FloorRing T]
  {offset : Fin n → T} {interval : Int} {world : World (Fin n) T} {self : Fin n}
  {impl : ElectionImpl T n} {time later : T}

section State

omit [Ring T] [LinearOrder T] [FloorRing T]

@[simp] theorem revoke_ballotNumber (now : Int) (visible : T) :
    (ElectionProposer.leaderRevokeIfLeaseExpired impl now visible).proposer.ballotNumber =
      impl.proposer.ballotNumber := by
  unfold ElectionProposer.leaderRevokeIfLeaseExpired
  dsimp only
  split <;> rfl

@[simp] theorem revoke_prepareSuccessBallot (now : Int) (visible : T) :
    (ElectionProposer.leaderRevokeIfLeaseExpired impl now visible).proposer.prepareSuccessBallot =
      impl.proposer.prepareSuccessBallot := by
  unfold ElectionProposer.leaderRevokeIfLeaseExpired
  dsimp only
  split <;> rfl

theorem majority_pos {proposer : ElectionProposer T n} {newLeaseEnd : Int}
    (nonneg : ∀ server, 0 ≤ proposer.acceptOkPromiseNotVoteBeforeLocalTs server)
    (enough : n / 2 + 1 ≤ card { server : Fin n // proposer.acceptOkPromiseNotVoteBeforeLocalTs server ≠ 0 })
    (found : proposer.getMajorityPromisedNotVoteTs = some newLeaseEnd) : 0 < newLeaseEnd := by
  have reached : (1 : Int) ≤ newLeaseEnd := by
    refine (le_kthLargest_iff found 1).mpr (enough.trans ?_)
    rw [countP_ofFn, Fintype.card_subtype]
    refine card_le_card ?_
    grind
  omega

end State

section Lease

variable [IsStrictOrderedRing T]

/-- A write of the lease exposes the epoch of the abstract protocol, with the reading that decides
about it as the instant of the decision. -/
theorem set_eq {offset : T} {terms : List (Term T)} {writes : LeaderLeaseAndEpoch T}
    (rep : List.Forall₂ (WriteOf offset) terms writes) {first second : T}
    (forward : first ≤ second) (nonneg : 0 ≤ ⌊first + offset⌋) (visible : T) (lease epoch : Int) :
    ∃ decided, first ≤ decided ∧ decided ≤ second ∧ set writes ⌊first + offset⌋ ⌊second + offset⌋ visible lease epoch =
        ⟨visible, lease, exposedEpoch terms decided epoch⟩ :: writes := by
  have noLease : ¬⌊first + offset⌋ < invalidValue := by
    unfold invalidValue
    omega
  cases rep with
  | nil =>
    refine ⟨first, le_rfl, forward, ?_⟩
    simp [LeaderLeaseAndEpoch.set, LeaderLeaseAndEpoch.lease, noLease, exposedEpoch]
  | @cons term write terms writes head tail =>
    obtain ⟨since, hold⟩ := term
    obtain ⟨-, same⟩ := head
    cases hold with
    | none =>
      refine ⟨first, le_rfl, forward, ?_⟩
      have isInvalid : write.lease = invalidValue := same
      simp [LeaderLeaseAndEpoch.set, LeaderLeaseAndEpoch.lease, isInvalid, noLease, exposedEpoch]
    | some hold =>
      obtain ⟨expiry, isEpoch⟩ : hold.expiry + offset = write.lease ∧ hold.epoch = write.epoch := same
      have runs (time : T) : ⌊time + offset⌋ < write.lease ↔ time < hold.expiry := by
        rw [Int.floor_lt, ← expiry, add_lt_add_iff_right]
      by_cases running : first < hold.expiry
      · refine ⟨second, forward, le_rfl, ?_⟩
        simp only [LeaderLeaseAndEpoch.set, LeaderLeaseAndEpoch.lease, LeaderLeaseAndEpoch.epoch,
          exposedEpoch, ge_iff_le, ← not_lt, runs, isEpoch]
        grind
      · refine ⟨first, le_rfl, forward, ?_⟩
        simp [LeaderLeaseAndEpoch.set, LeaderLeaseAndEpoch.lease, exposedEpoch, runs, running]

end Lease

namespace Represents

variable (rep : Represents offset interval self world impl)

include rep

theorem clearSource : Represents offset interval self world
      { impl with
        proposer :=
          { impl.proposer with
            switchSourceLeaderBallot := invalidValue
            switchSourceLeaderAddr := none } } :=
  { rep with
    proposer := { rep.proposer with source := fun _ isSource => by cases isSource } }

theorem withCache (msg : Option (AcceptResponseMsg n)) : Represents offset interval self world
      { impl with proposer := { impl.proposer with highestPriorityCache := msg } } :=
  { rep with proposer := { rep.proposer with } }

theorem recordPrepareOk {res : PrepareResponseMsg n} (promised : Promised world self res.sender) :
    Represents offset interval self world { impl with proposer := (impl.proposer.recordPrepareOk res).1 } := by
  refine { rep with proposer := { rep.proposer with prepared := ?_ } }
  intro server ok
  by_cases same : server = res.sender
  · exact same ▸ promised
  simp only [ElectionProposer.recordPrepareOk, update_of_ne same] at ok
  exact rep.proposer.prepared server ok

variable {instant : Nat → T} {newLeaseEnd : Int} {res : AcceptResponseMsg n} {sentAt : T}

section Handlers

variable (clock : world.clock self = time)

include clock

theorem takeover (won : ∃ win ∈ world.wins, win.candidate = self) (forward : time ≤ later) (now : Int) :
    Follows offset interval self world (leaderTakeoverIfLeaseValid impl interval now
        ⟨later, ⌊later + offset self⌋⟩).1 later := by
  refine (rep.tick (clock.trans_le forward)).bind ?_
  intro next extension clock' rep'
  have won' : ∃ win ∈ next.wins, win.candidate = self := by
    obtain ⟨win, inWins, own⟩ := won
    exact ⟨win, extension.wins inWins, own⟩
  unfold leaderTakeoverIfLeaseValid
  dsimp only
  split
  · have leading : Represents offset interval self next
        { impl with
          proposer := { impl.proposer with role := .leader, highestPriorityCache := none }
          roleChanges := (.follower, .leader) :: impl.roleChanges } :=
      { rep' with
        proposer := { rep'.proposer with leader := fun _ => won' } }
    exact leading.propose clock' fun _ => won'
  · exact rep'.follows clock'

theorem tryTakeover (won : ∃ win ∈ world.wins, win.candidate = self) (forward : time ≤ instant 7) :
    Follows offset interval self world
      (ElectionProposer.tryTakeover impl interval (watch (offset self) instant)) (instant 7) := by
  have taken := rep.takeover clock won forward ⌊instant 6 + offset self⌋
  unfold ElectionProposer.tryTakeover
  dsimp only [watch]
  split
  · split
    · exact rep.tick (clock.trans_le forward)
    split
    · exact taken.bind (fun next _ clock' rep' => rep'.clearSource.follows clock')
    · exact taken
  · exact taken

theorem checkResponse (env : Surroundings) (now : Moment T) (restartCounter ballotNumber : Int) (accepted : Bool) :
    ((ElectionProposer.checkResponse impl env now restartCounter ballotNumber accepted).2 = false ∧
      Follows offset interval self world (ElectionProposer.checkResponse impl env now restartCounter ballotNumber
          accepted).1 time) ∨
    (ElectionProposer.checkResponse impl env now restartCounter ballotNumber accepted = (impl, true) ∧
      ballotNumber = impl.proposer.ballotNumber ∧ accepted = true) := by
  unfold ElectionProposer.checkResponse
  dsimp only
  split
  · exact .inl ⟨rfl, rep.follows clock⟩
  split
  · exact .inl ⟨rfl, rep.follows clock⟩
  rename_i notBelow
  split
  · rename_i above
    have advanced := rep.advance clock above.le
    split
    · refine .inl ⟨rfl, advanced.bind ?_⟩
      intro next _ clock' rep'
      refine (rep'.advance clock' (Int.le_add_one le_rfl)).bind ?_
      intro next' _ clock'' rep''
      exact rep''.prepare clock'' env now.instant .leader
    · exact .inl ⟨rfl, advanced⟩
  · rename_i notAbove
    cases accepted with
    | false => exact .inl ⟨rfl, rep.follows clock⟩
    | true => exact .inr ⟨rfl, by omega, rfl⟩

theorem changeLeaderTo (increasing : StrictMono instant) (forward : time ≤ instant 9) (dest : Option (Fin n)) :
    Follows offset interval self world
      (ElectionProposer.changeLeaderTo impl (watch (offset self) instant) dest) (instant 11) := by
  have onward : instant 9 ≤ instant 11 := increasing.monotone (by decide)
  unfold ElectionProposer.changeLeaderTo
  split
  · exact rep.innerChangeLeaderTo clock forward onward _ _
  · exact rep.tick (clock.trans_le (forward.trans onward))

theorem checkPriority (increasing : StrictMono instant) (forward : time ≤ instant 9) (env : Surroundings)
    (res : AcceptResponseMsg n) :
    Follows offset interval self world (ElectionProposer.checkPriority impl env (watch (offset self) instant) res)
      (instant 11) := by
  have late : world.clock self ≤ instant 11 := clock.trans_le (forward.trans (increasing.monotone (by decide)))
  have remember (msg : Option (AcceptResponseMsg n)) := (rep.withCache msg).tick late
  unfold ElectionProposer.checkPriority
  dsimp only
  split
  · split
    · split
      · exact remember _
      split
      · exact remember _
      split
      · split
        · exact (rep.withCache _).changeLeaderTo clock increasing forward _
        · exact remember _
      · exact remember _
    · exact rep.tick late
  · exact rep.tick late

theorem passable_of_admits {lease : Lease n} (admits : ElectionProposer.admits impl lease = true) :
    Passable world.handovers self time (lease.owner.map (fun owner => (owner, lease.ballotNumber))) := by
  intro owner ballot seen
  obtain ⟨reported, isOwner, same⟩ := Option.map_eq_some_iff.mp seen
  obtain ⟨rfl, rfl⟩ := Prod.mk.inj same
  simp only [ElectionProposer.admits, Lease.isEmpty, isOwner, reduceCtorEq, decide_false,
    Bool.false_and, Bool.false_or, Bool.or_eq_true, Bool.and_eq_true, decide_eq_true_eq] at admits
  rcases admits with own | ⟨isSource, sameBallot⟩
  · exact .inl ((Option.some.inj own).trans rep.own)
  obtain ⟨handover, done, source, ofBallot, before⟩ := rep.proposer.source reported isSource.symm
  grind

/-- A ballot below `INVALID_VALUE` leaves `prepare_success_ballot_` at that value, so that winning it
comes to nothing. -/
theorem succeed (enough : card { server : Fin n // impl.proposer.prepareOk server = true } = n / 2 + 1) :
    ∃ next, Steps (interval : T) (Majority n) self world next ∧ next.clock self = time ∧
      (max impl.proposer.ballotNumber impl.proposer.prepareSuccessBallot ≠ invalidValue →
        ∃ win ∈ next.wins, win.candidate = self) ∧
      Represents offset interval self next
        { impl with
          proposer :=
            { impl.proposer with
              prepareSuccessBallot :=
                max impl.proposer.ballotNumber impl.proposer.prepareSuccessBallot } } := by
  have old := rep.proposer
  rcases le_or_gt impl.proposer.prepareSuccessBallot impl.proposer.ballotNumber with success | low
  · have majority : Majority n (Finset.univ.filter (fun server => impl.proposer.prepareOk server = true)) := by
      rw [Majority, ← Fintype.card_subtype, enough]
    have step : Step (interval : T) (Majority n) self world _ :=
      .win majority (fun server member => old.prepared server (mem_filter.mp member).2)
    refine ⟨_, .single step, clock, fun _ => ⟨_, .inl rfl, rfl⟩, ?_⟩
    rw [max_eq_left success]
    exact
      { rep with
        acceptor := ⟨rep.acceptor.promised, rep.acceptor.grant⟩
        proposer :=
          { old with
            success_le := .inl le_rfl
            won := by
              rintro win (rfl | won) own
              · exact ⟨old.ballot.le, _, .inl rfl, rfl, old.ballot, le_rfl⟩
              · exact ⟨(old.won win won own).1.trans success, _, .inl rfl, rfl, old.ballot, le_rfl⟩
            leader := by
              intro isLeader
              obtain ⟨win, won, own⟩ := old.leader isLeader
              exact ⟨win, .inr won, own⟩ }
        sent := fun sent member => (rep.sent sent member).mono step.extends }
  · rw [max_eq_right low.le]
    have invalid := (old.success_le.resolve_left (not_le.mpr low)).1
    exact ⟨world, .refl, clock, fun valid => absurd invalid valid, rep⟩

theorem onChangeLeader (env : Surroundings) {msg : ChangeLeaderMsg n} (before : sentAt ≤ time)
    {receiver : Fin n} (justified : Justified offset interval world ⟨sentAt, receiver, .changeLeader msg⟩) :
    Follows offset interval self world (ElectionProposer.onChangeLeader impl env time msg) time := by
  unfold ElectionProposer.onChangeLeader
  dsimp only
  split
  · exact rep.follows clock
  rename_i accepted
  have larger : impl.proposer.ballotNumber ≤ msg.ballotNumber := by
    simp only [Bool.not_eq_true', Bool.not_eq_false, acceptsChange] at accepted
    grind
  split
  · exact rep.follows clock
  refine (rep.advance clock larger).bind ?_
  intro next extension clock' rep'
  obtain ⟨handover, done, source, ballot, earlier⟩ := justified
  have switched : Represents offset interval self next
      { ElectionProposer.advance impl msg.ballotNumber with
        proposer :=
          { (ElectionProposer.advance impl msg.ballotNumber).proposer with
            switchSourceLeaderBallot := msg.switchSourceLeaderBallot
            switchSourceLeaderAddr := some msg.sender } } :=
    { rep' with
      proposer :=
        { rep'.proposer with
          source := by
            rintro addr ⟨⟩
            exact ⟨handover, extension.handovers done, source, ballot,
              earlier.trans (before.trans clock'.ge)⟩ } }
  exact switched.prepare clock' env time .leader

theorem onPrepareRequest (req : PrepareRequestMsg n) :
    Follows offset interval self world (ElectionProposer.onPrepareRequest impl time req) time := by
  unfold ElectionProposer.onPrepareRequest
  dsimp only
  split
  · split
    · refine (rep.send ?_).follows clock
      intro accepted
      cases accepted
    · exact rep.follows clock
  · rename_i larger
    refine (rep.advance clock (not_le.mp larger).le).bind ?_
    intro next _ clock' rep'
    split
    · exact rep'.follows clock'
    · exact (rep'.broadcastPrepare _).follows clock'

variable [IsStrictOrderedRing T]

section Lease

variable (backed : Backed (interval : T) (Majority n) world.votes self (world.ballot self) time
    (newLeaseEnd - offset self))
  (current : impl.proposer.prepareSuccessBallot = impl.proposer.ballotNumber)

include backed current

theorem setLease {first second : T} (forward : time ≤ first) (onward : first ≤ second)
    (seen : second < later) (nonneg : 0 ≤ ⌊first + offset self⌋) :
    Follows offset interval self world
      { impl with
        proposer :=
          { impl.proposer with
            leaderLeaseAndEpoch := set impl.proposer.leaderLeaseAndEpoch
              ⌊first + offset self⌋ ⌊second + offset self⌋ later newLeaseEnd
              impl.proposer.prepareSuccessBallot } } later := by
  have old := rep.proposer
  obtain ⟨decided, above, below, written⟩ :=
    set_eq old.terms onward nonneg later newLeaseEnd impl.proposer.prepareSuccessBallot
  -- everything up to the write happens before it is seen
  have ticking : Step (interval : T) (Majority n) self world _ :=
    .tick (clock.trans_le (forward.trans (onward.trans seen.le)))
  have preserves : Preserves self world { world with clock := update world.clock self later } := by
    constructor <;> simp +contextual [clock.trans_le (forward.trans (onward.trans seen.le))]
  have waiting := rep.keep ticking preserves rfl rfl
  refine Follows.after ticking ?_
  have early : world.clock self ≤ decided := clock.trans_le (forward.trans above)
  have order : ∀ term, (world.terms self).head? = some term → term.since ≤ decided :=
    fun term first => (old.ordered term (List.mem_of_head? first)).trans early
  have pending : decided < update world.clock self later self := by
    simpa using below.trans_lt seen
  have step : Step (interval : T) (Majority n) self { world with clock := update world.clock self later } _ :=
    .take order pending (backed.later (forward.trans above))
  refine follows_of_step step (update_self ..) ?_
  rw [written]
  have renewed := waiting.proposer
  exact
    { own := rep.own
      acceptor := ⟨waiting.acceptor.promised, waiting.acceptor.grant⟩
      proposer :=
        { ballot := renewed.ballot
          terms := by
            simp only [update_self]
            refine .cons ⟨rfl, sub_add_cancel .., ?_⟩ old.terms
            rw [current, ← old.ballot]
          ordered := renewed.ordered_cons
          prepared := renewed.prepared
          accepted := renewed.accepted
          success_le := renewed.success_le
          won := renewed.won
          leader := renewed.leader
          source := renewed.source }
      sent := fun sent member => (waiting.sent sent member).mono step.extends }

theorem renewLease (increasing : StrictMono instant) (forward : time ≤ instant 3)
    (nonneg : 0 ≤ instant 0 + offset self) :
    Follows offset interval self world (ElectionProposer.renewLease impl (watch (offset self) instant) newLeaseEnd)
      (instant 5) := by
  have order3 : instant 3 < instant 4 := increasing (by decide)
  have order4 : instant 4 < instant 5 := increasing (by decide)
  have pos : 0 ≤ ⌊instant 3 + offset self⌋ := by
    have after : instant 0 < instant 3 := increasing (by decide)
    refine Int.floor_nonneg.mpr (nonneg.trans ?_)
    exact add_le_add_left after.le (offset self)
  unfold ElectionProposer.renewLease
  dsimp only [watch]
  split
  · exact rep.setLease clock backed current forward order3.le order4 pos
  · exact rep.tick (clock.trans_le (forward.trans (order3.trans order4).le))

theorem updateLease (increasing : StrictMono instant) (forward : time ≤ instant 0)
    (nonneg : 0 ≤ instant 0 + offset self) (won : ∃ win ∈ world.wins, win.candidate = self) :
    Follows offset interval self world
      (ElectionProposer.updateLease impl interval (watch (offset self) instant) newLeaseEnd)
      (instant 7) := by
  have early : time ≤ instant 2 := forward.trans (increasing.monotone (by decide))
  refine (rep.leaderRevokeIfLeaseExpired clock early ⌊instant 1 + offset self⌋).bind ?_
  intro revoked extension clock' rep'
  have sameBallot : revoked.ballot self = world.ballot self := by
    rw [rep'.proposer.ballot, rep.proposer.ballot, revoke_ballotNumber]
  have backed' : Backed (interval : T) (Majority n) revoked.votes self (revoked.ballot self)
      (instant 2) (newLeaseEnd - offset self) := by
    rw [sameBallot]
    exact (backed.mono extension.votes).later early
  have current' := current
  rw [← revoke_prepareSuccessBallot ⌊instant 1 + offset self⌋ (instant 2),
    ← revoke_ballotNumber ⌊instant 1 + offset self⌋ (instant 2)] at current'
  refine (rep'.renewLease clock' backed' current' increasing (increasing.monotone (by decide)) nonneg).bind ?_
  intro renewed extension' clock'' rep''
  obtain ⟨win, inWins, own⟩ := won
  exact rep''.tryTakeover clock'' ⟨win, extension'.wins (extension.wins inWins), own⟩ (increasing.monotone (by decide))

end Lease

theorem recordAcceptOk {vote : Vote (Fin n) T} (cast : vote ∈ world.votes) (acceptor : vote.acceptor = res.sender)
    (leader : vote.leader = self) (ballot : vote.ballot = impl.proposer.ballotNumber)
    (before : vote.instant ≤ time) (isInterval : res.leaseInterval = interval)
    (started : ⌊vote.start + offset self⌋ = res.leaseStartedTsOnProposer) :
    Represents offset interval self world { impl with proposer := (impl.proposer.recordAcceptOk res).1 } := by
  have old := rep.proposer
  refine { rep with proposer := { old with accepted := ?_ } }
  intro server
  by_cases same : server = res.sender
  · subst same
    simp only [ElectionProposer.recordAcceptOk, update_self]
    have covered : ((res.leaseStartedTsOnProposer + res.leaseInterval : Int) : T) ≤
        vote.start + interval + offset self := by
      have below := Int.floor_le (vote.start + offset self)
      rw [started] at below
      push_cast
      rw [isInterval]
      calc (res.leaseStartedTsOnProposer : T) + interval
          ≤ vote.start + offset self + interval := add_le_add_left below _
        _ = vote.start + interval + offset self := add_right_comm ..
    by_cases renewed : impl.proposer.acceptOkPromiseNotVoteBeforeLocalTs res.sender <
        res.leaseStartedTsOnProposer + res.leaseInterval
    · right
      rw [max_eq_right renewed.le]
      refine ⟨?_, vote, cast, acceptor, leader, ballot.trans old.ballot.symm, before.trans clock.ge, covered⟩
      rcases old.accepted res.sender with none | ⟨pos, -⟩ <;> omega
    · rw [max_eq_left (not_lt.mp renewed)]
      exact old.accepted res.sender
  · simp only [ElectionProposer.recordAcceptOk, update_of_ne same]
    exact old.accepted server

/-- The recorded entries back the lease end that a majority of them reaches. -/
theorem backed
    (enough : n / 2 + 1 ≤ card { server : Fin n // impl.proposer.acceptOkPromiseNotVoteBeforeLocalTs server ≠ 0 })
    (found : impl.proposer.getMajorityPromisedNotVoteTs = some newLeaseEnd) :
    Backed (interval : T) (Majority n) world.votes self (world.ballot self) time (newLeaseEnd - offset self) := by
  have old := rep.proposer
  have pos : 0 < newLeaseEnd := by
    refine majority_pos (fun server => ?_) enough found
    rcases old.accepted server with none | ⟨pos, -⟩ <;> omega
  refine ⟨_, lt_card_le_kthLargest found, fun server member => ?_⟩
  have reached : newLeaseEnd ≤ impl.proposer.acceptOkPromiseNotVoteBeforeLocalTs server := (mem_filter.mp member).2
  rcases old.accepted server with none | ⟨-, vote, cast, acceptor, leader, ballot, before, covers⟩
  · omega
  refine ⟨vote, cast, acceptor, leader, ballot, before.trans clock.le, ?_⟩
  rw [sub_le_iff_le_add]
  exact (Int.cast_le.mpr reached).trans covers

end Handlers

section Events

variable (increasing : StrictMono instant) (clock : world.clock self = instant 0)

include increasing clock

theorem onPrepareResponse (env : Surroundings) {res : PrepareResponseMsg n} (before : sentAt ≤ instant 0)
    (justified : Justified offset interval world ⟨sentAt, self, .prepareResponse res⟩) :
    Follows offset interval self world (ElectionProposer.onPrepareResponse impl env interval
        (watch (offset self) instant) res) (instant 1) := by
  have forward : instant 0 ≤ instant 1 := increasing.monotone (by decide)
  unfold ElectionProposer.onPrepareResponse
  rcases rep.checkResponse clock env (watch (offset self) instant 0)
    res.restartCounter res.ballotNumber res.accepted with
    ⟨invalid, follows⟩ | ⟨valid, sameBallot, accepted⟩
  · simp only [invalid, Bool.not_false, if_true]
    exact follows.bind (fun next _ clock' rep' => rep'.tick (clock'.trans_le forward))
  simp only [valid, Bool.not_true, Bool.false_eq_true, if_false]
  by_cases admits : ElectionProposer.admits impl res.lease = true
  · obtain ⟨-, promise, made, acceptor, candidate, ballot, seen, promiseInstant⟩ := justified accepted
    have promised : Promised world self res.sender := by
      refine ⟨promise, made, acceptor, candidate, ?_, ?_, ?_⟩
      · rw [ballot, sameBallot, rep.proposer.ballot]
      · exact promiseInstant.trans (before.trans clock.ge)
      · rw [seen]
        exact rep.passable_of_admits rfl admits
    have recorded := rep.recordPrepareOk promised
    simp only [admits, Bool.not_true, Bool.false_eq_true, if_false]
    split
    · rename_i enough
      obtain ⟨next, steps, clock', won, succeeded⟩ := recorded.succeed clock enough
      have proposes := (succeeded.tick (clock'.trans_le forward)).bind fun later extension clock'' rep' =>
        rep'.propose clock'' fun valid => by
          obtain ⟨win, inWins, own⟩ := won valid
          exact ⟨win, extension.wins inWins, own⟩
      obtain ⟨last, proposing, reached⟩ := proposes
      exact ⟨last, steps.trans proposing, reached⟩
    · exact recorded.tick (clock.trans_le forward)
  · simp only [admits]
    exact rep.tick (clock.trans_le forward)

theorem renewLeaseTask : Follows offset interval self world
      (ElectionProposer.renewLeaseTask impl interval (watch (offset self) instant))
      (instant 1) := by
  have forward : instant 0 ≤ instant 1 := increasing.monotone (by decide)
  have waiting := rep.tick (clock.trans_le forward)
  unfold ElectionProposer.renewLeaseTask
  dsimp only
  split
  · exact waiting
  rename_i isLeader
  split
  · split
    · exact waiting
    refine waiting.bind ?_
    intro next _ clock' rep'
    exact rep'.propose clock' fun _ => rep'.proposer.leader isLeader
  · exact rep.leaderRevokeIfLeaseExpired clock forward _

theorem devoteTask (env : Surroundings) : Follows offset interval self world
      (ElectionProposer.devoteTask impl env (watch (offset self) instant))
      (instant 1) := by
  have forward : instant 0 ≤ instant 1 := increasing.monotone (by decide)
  refine (rep.tick (clock.trans_le forward)).bind ?_
  intro next _ clock' rep'
  unfold ElectionProposer.devoteTask
  dsimp only
  split
  · split
    · exact rep'.follows clock'
    · exact rep'.prepare clock' env _ _
  have follower : Represents offset interval self next
      { impl with proposer := { impl.proposer with role := .follower } } :=
    { rep' with
      proposer := { rep'.proposer with leader := fun isLeader => by cases isLeader } }
  exact follower.prepare clock' env _ _

variable [IsStrictOrderedRing T] (inv : Consistent (interval : T) (Majority n) world)
include inv

theorem acceptLease (nonneg : 0 ≤ instant 0 + offset self)
    {vote : Vote (Fin n) T} (cast : vote ∈ world.votes) (acceptor : vote.acceptor = res.sender)
    (leader : vote.leader = self) (ballot : vote.ballot = impl.proposer.ballotNumber)
    (before : vote.instant ≤ instant 0) (isInterval : res.leaseInterval = interval)
    (started : ⌊vote.start + offset self⌋ = res.leaseStartedTsOnProposer) :
    Follows offset interval self world (ElectionProposer.acceptLease impl interval (watch (offset self) instant) res)
      (instant 7) := by
  have recorded := rep.recordAcceptOk clock cast acceptor leader ballot before isInterval started
  have forward : instant 0 ≤ instant 7 := increasing.monotone (by decide)
  -- who is voted for has won, and so the largest ballot won is the current one
  obtain ⟨win, won, candidate, winBallot, -⟩ := inv.vote_won vote cast
  have own : win.candidate = self := candidate.trans leader
  have current : impl.proposer.prepareSuccessBallot = impl.proposer.ballotNumber := by
    have atLeast := (rep.proposer.won win won own).1
    rcases rep.proposer.success_le with atMost | ⟨-, never⟩
    · omega
    · exact absurd own (never win won)
  unfold ElectionProposer.acceptLease
  dsimp only
  split
  · exact recorded.tick (clock.trans_le forward)
  rename_i enough
  split
  · exact recorded.tick (clock.trans_le forward)
  rename_i newLeaseEnd found
  exact recorded.updateLease clock (recorded.backed clock (not_lt.mp enough) found) current
    increasing le_rfl nonneg ⟨win, won, own⟩

theorem onAcceptResponse (nonneg : 0 ≤ instant 0 + offset self) (env : Surroundings) (before : sentAt ≤ instant 0)
    (justified : Justified offset interval world ⟨sentAt, self, .acceptResponse res⟩) :
    Follows offset interval self world (ElectionProposer.onAcceptResponse impl env interval
        (watch (offset self) instant) res) (instant 11) := by
  unfold ElectionProposer.onAcceptResponse
  rcases rep.checkResponse clock env (watch (offset self) instant 0)
    res.restartCounter res.ballotNumber res.accepted with
    ⟨invalid, follows⟩ | ⟨valid, sameBallot, accepted⟩
  · simp only [invalid]
    refine follows.bind ?_
    intro next _ clock' rep'
    exact rep'.checkPriority clock' increasing (increasing.monotone (by decide)) env res
  simp only [valid, if_true]
  obtain ⟨isInterval, vote, cast, acceptor, leader, ballot, voteInstant, started⟩ := justified accepted
  refine (rep.acceptLease increasing clock inv nonneg cast acceptor leader
    (ballot.trans sameBallot) (voteInstant.trans before) isInterval started).bind ?_
  intro next _ clock' rep'
  exact rep'.checkPriority clock' increasing (increasing.monotone (by decide)) env res

end Events

end Represents

end IMBridge.Palf.Election
