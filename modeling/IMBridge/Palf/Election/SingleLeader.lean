import IMBridge.Palf.Election.AcceptorRefinement
import IMBridge.Palf.Election.ProposerRefinement
import IMBridge.Palf.Election.Replay

/-!
Every run of the servers is a run of the abstract lease protocol, so there is at most one leader at
any real time, and the epochs that leaders expose grow from one leader to the next.
-/

namespace IMBridge.Palf.Election

open IMBridge.Lib.LeaderLease LeaderLeaseAndEpoch IMBridge.Palf.Election.System

variable {T : Type} {n : Nat} [Ring T] [LinearOrder T] [FloorRing T]
  {offset : Fin n → T} {interval : Int} {world : World (Fin n) T} {self : Fin n}
  {impl : ElectionImpl T n} {time : T}

theorem Follows.tick {later : T} (follows : Follows offset interval self world impl time)
    (forward : time ≤ later) : Follows offset interval self world impl later := by
  refine follows.bind ?_
  intro next _ clock rep
  exact rep.tick (clock.trans_le forward)

section Handle

variable [IsStrictOrderedRing T]

variable {instant : Nat → T} (rep : Represents offset interval self world impl)
  (inv : Consistent (interval : T) (Majority n) world) (increasing : StrictMono instant)
  (clock : world.clock self = instant 0) (nonneg : 0 ≤ instant 0 + offset self) (env : Surroundings)

include rep inv increasing clock nonneg

theorem Represents.handleMessage {msg : Message n} {sentAt : T} (before : sentAt ≤ instant 0)
    (valid : msg.isValid = true)
    (justified : Justified offset interval world ⟨sentAt, self, msg⟩) :
    Follows offset interval self world (impl.handleMessage env interval (watch (offset self) instant) msg)
      (instant lastMoment) := by
  cases msg with
  | prepareRequest msg =>
    unfold ElectionImpl.handleMessage
    dsimp only [watch]
    refine Follows.tick ?_ (increasing.monotone (Nat.zero_le _))
    split
    · refine (rep.onPrepareRequest clock msg).bind (fun next _ clock' rep' => ?_)
      exact rep'.onPrepareRequestAcceptor clock' env msg
    · exact rep.onPrepareRequestAcceptor clock env msg
  | acceptRequest msg =>
    have ballot : msg.ballotNumber ≠ invalidValue := of_decide_eq_true (Bool.and_eq_true_iff.mp valid).2
    unfold ElectionImpl.handleMessage
    dsimp only [watch]
    refine Follows.tick ?_ (increasing.monotone (Nat.zero_le _))
    split
    · rename_i larger
      refine (rep.advance clock larger.le).bind (fun next extension clock' rep' => ?_)
      exact rep'.onAcceptRequest clock' before ballot (justified.mono extension)
    · exact rep.onAcceptRequest clock before ballot justified
  | prepareResponse msg =>
    exact (rep.onPrepareResponse increasing clock env before justified).tick (increasing.monotone (by decide))
  | acceptResponse msg =>
    exact rep.onAcceptResponse increasing clock inv nonneg env before justified
  | changeLeader msg =>
    exact (rep.onChangeLeader clock env before justified).tick (increasing.monotone (by decide))

theorem Represents.handle {event : Event n}
    (justified : ∀ msg, event = .message msg → msg.isValid = true ∧
      ∃ sentAt, sentAt ≤ instant 0 ∧ Justified offset interval world ⟨sentAt, self, msg⟩) :
    Follows offset interval self world (impl.handle env interval (watch (offset self) instant) event)
      (instant lastMoment) := by
  cases event with
  | message msg =>
    obtain ⟨valid, sentAt, before, vouched⟩ := justified msg rfl
    exact rep.handleMessage inv increasing clock nonneg env before valid vouched
  | renewLeaseTask => exact (rep.renewLeaseTask increasing clock).tick (increasing.monotone (by decide))
  | devoteTask =>
    exact (rep.devoteTask increasing clock env).tick (increasing.monotone (by decide))
  | timeWindowTask =>
    exact (rep.timeWindowTask increasing clock env).tick (increasing.monotone (by decide))
  | changeLeaderTo dest =>
    exact rep.changeLeaderTo clock increasing (increasing.monotone (by decide)) dest

end Handle

/-- The world that all servers and messages of a system stand for. -/
structure Simulates (offset : Fin n → T) (interval : Int) (system : System T n)
    (world : World (Fin n) T) : Prop where
  reached : Reached (interval : T) (Majority n) world
  clock : ∀ server, world.clock server = system.finished server
  represents : ∀ server, Represents offset interval server world (system.server server)

theorem simulates_start {setup : Setup n} (finished : Fin n → T) : Simulates offset interval
      { server := fun self => .initial self (setup.membershipVersion self)
          (setup.restartCounter self) (setup.proposerBallot self) (setup.acceptorBallot self)
          (setup.windowBallot self)
        finished }
      { clock := finished
        promised := setup.acceptorBallot
        grant := fun _ => none
        ballot := setup.proposerBallot
        terms := fun _ => []
        promises := ∅
        wins := ∅
        proposals := ∅
        votes := ∅
        handovers := ∅ } where
  reached := .fresh (by constructor <;> simp)
  clock _ := rfl
  represents server :=
    { own := rfl
      acceptor := ⟨rfl, rfl, rfl⟩
      proposer :=
        { ballot := rfl
          terms := .nil
          ordered := fun _ member => by cases member
          prepared := fun _ ok => by cases ok
          accepted := fun _ => .inl rfl
          success_le := .inr ⟨rfl, fun _ won => by cases won⟩
          won := fun _ won => by cases won
          leader := fun isLeader => by cases isLeader
          source := fun _ isSource => by cases isSource }
      sent := fun _ member => by cases member }

section Run

variable [IsStrictOrderedRing T]

theorem Simulates.step {system next : System T n} (simulates : Simulates offset interval system world)
    (step : System.Step offset interval system next) :
    ∃ world', Simulates offset interval next world' := by
  cases step with
  | handle self event env instant forward after nonneg ready =>
    have waiting : Step (interval : T) (Majority n) self world _ := .tick ((simulates.clock self).trans_le after)
    have reached := simulates.reached.step waiting
    have preserves : Preserves self world { world with clock := Function.update world.clock self (instant 0) } := by
      constructor <;> simp +contextual [(simulates.clock self).trans_le after]
    have rep := (simulates.represents self).keep waiting preserves rfl rfl
    -- a message that is ready was vouched for by its sender
    have justified : ∀ msg, event = .message msg → msg.isValid = true ∧
        ∃ sentAt, sentAt ≤ instant 0 ∧ Justified offset interval
          { world with clock := Function.update world.clock self (instant 0) }
          ⟨sentAt, self, msg⟩ := by
      rintro msg rfl
      obtain ⟨valid, sender, sent, member, rfl, rfl, before⟩ := ready
      exact ⟨valid, sent.instant, before, ((simulates.represents sender).sent sent member).mono waiting.extends⟩
    obtain ⟨last, steps, clock, rep'⟩ := rep.handle reached.consistent forward
      (Function.update_self ..) nonneg env justified
    have extension := waiting.extends.trans steps.extends
    refine ⟨last, reached.steps _ _ steps, fun server => ?_, fun server => ?_⟩
    · by_cases same : server = self
      · subst same
        simpa using clock
      · rw [extension.clock server same, simulates.clock server]
        exact (Function.update_of_ne same ..).symm
    · by_cases same : server = self
      · subst same
        simpa using rep'
      · have unchanged := (simulates.represents server).frame extension same
        simpa [same] using unchanged

/-- Every reached system stands for a reached world of the abstract protocol. -/
theorem System.Reached.simulates {setup : Setup n} {system : System T n} (reached : System.Reached offset interval setup system) :
    ∃ world, Simulates offset interval system world := by
  induction reached with
  | start finished => exact ⟨_, simulates_start finished⟩
  | step _ step ih =>
    obtain ⟨world, simulates⟩ := ih
    exact simulates.step step

theorem inForce_of_seenAt {offset : T} {terms : List (Term T)} {writes : LeaderLeaseAndEpoch T}
    (rep : List.Forall₂ (WriteOf offset) terms writes) (nonneg : 0 ≤ time + offset)
    (valid : ⌊time + offset⌋ < lease (seenAt writes time)) :
    ∃ hold, inForce terms time = some hold ∧ time < hold.expiry ∧
      hold.epoch = LeaderLeaseAndEpoch.epoch (seenAt writes time) := by
  have noLease : ¬⌊time + offset⌋ < invalidValue := by
    have shown := Int.floor_nonneg.mpr nonneg
    unfold invalidValue
    omega
  induction rep with
  | nil => exact absurd valid noLease
  | @cons term write terms writes head _ ih =>
    obtain ⟨since, same⟩ := head
    by_cases seen : term.since ≤ time
    · have current : seenAt (write :: writes) time = write :: writes := by
        simp [seenAt, ← since, seen]
      rw [current] at valid ⊢
      rw [inForce_cons, if_pos seen]
      cases isHold : term.hold with
      | none =>
        rw [isHold] at same
        exact absurd (same ▸ valid) noLease
      | some hold =>
        rw [isHold] at same
        obtain ⟨expiry, epoch⟩ := same
        refine ⟨hold, rfl, ?_, epoch⟩
        have running : time + offset < write.lease := Int.floor_lt.mp valid
        grind
    · have older : seenAt (write :: writes) time =
          seenAt writes time := by
        simp [seenAt, ← since, not_le.mp seen]
      rw [older] at valid ⊢
      rw [inForce_cons, if_neg seen]
      exact ih valid

theorem Simulates.leads {system : System T n} (simulates : Simulates offset interval system world)
    (valid : system.checkLeader offset self time = true) :
    Leads world self time (system.epoch self time) := by
  obtain ⟨nonneg, running⟩ := Bool.and_eq_true_iff.mp valid
  exact inForce_of_seenAt (simulates.represents self).proposer.terms (of_decide_eq_true nonneg)
    (of_decide_eq_true running)

/-- At no real time do two servers pass `check_leader`, whatever ballots they have started with. -/
theorem checkLeader_unique {setup : Setup n} {system : System T n}
    (reached : System.Reached offset interval setup system) {first second : Fin n}
    (leadsFirst : system.checkLeader offset first time = true)
    (leadsSecond : system.checkLeader offset second time = true) : first = second := by
  obtain ⟨world, simulates⟩ := reached.simulates
  exact simulates.reached.consistent.leads_unique (fun _ _ => Majority.meet)
    (simulates.leads leadsFirst) (simulates.leads leadsSecond)

end Run

local instance neZero_two : NeZero 2 := inferInstance

def pairSetup : Setup 2 where
  membershipVersion _ := ⟨1, 1⟩
  restartCounter _ := 1
  proposerBallot _ := invalidValue
  acceptorBallot _ := invalidValue
  windowBallot _ := invalidValue

def firstElection : List (Turn 2) :=
  [.devote 0, .deliver 0 0 0, .closeWindow 0, .deliver 1 0 0, .closeWindow 1, .deliver 0 0 0,
    .deliver 0 1 0, .deliver 0 0 0, .deliver 1 0 0, .deliver 0 0 0, .deliver 0 1 0]

theorem firstElection_leader_unique : ∃ system : System Int 2,
    System.Reached (fun _ => 0) 60 pairSetup system ∧
    ∀ server, system.checkLeader (fun _ => 0) server 120 = true ↔ 0 = server := by
  obtain ⟨system, reached, leads⟩ := exists_reached_of_replay
    (show ((atZero pairSetup).replay 60 0 firstElection).any
      (fun system => system.checkLeader (fun _ => 0) 0 120) = true by decide +kernel)
  refine ⟨system, reached, fun server => ⟨fun other => ?_, ?_⟩⟩
  · exact checkLeader_unique reached leads other
  · rintro rfl
    exact leads

section Epoch

variable [IsStrictOrderedRing T]

/-- A later leader has a larger epoch, and a lease that does not expire keeps its epoch. -/
theorem epoch_fences {setup : Setup n} {system : System T n}
    (reached : System.Reached offset interval setup system) :
    (∀ first second time later, first ≠ second → time < later →
      system.checkLeader offset first time = true → system.checkLeader offset second later = true →
      system.epoch first time < system.epoch second later) ∧
    ∀ server time later, time ≤ later → (∀ between, time ≤ between → between ≤ later →
        system.checkLeader offset server between = true) →
      system.epoch server time = system.epoch server later := by
  obtain ⟨world, simulates⟩ := reached.simulates
  have inv := simulates.reached.consistent
  constructor
  · intro first second time later different before leadsFirst leadsSecond
    exact inv.epoch_lt (fun _ _ => Majority.meet) (simulates.leads leadsFirst)
      (simulates.leads leadsSecond) different before.le
  · intro server time later before leading
    have leads {between : T} (since : time ≤ between) (until_ : between ≤ later) :
        Leads world server between (system.epoch server between) :=
      simulates.leads (leading between since until_)
    obtain ⟨hold, force, -, epoch⟩ := leads le_rfl before
    obtain ⟨hold', force', -, epoch'⟩ := leads before le_rfl
    rw [← epoch, ← epoch']
    refine (inv.term_chain server).epoch_eq before ?_ force force'
    intro between since until_
    obtain ⟨hold, force, running, -⟩ := leads since until_
    exact ⟨hold, force, running⟩

end Epoch

def secondElection : List (Turn 2) :=
  [.devote 1, .deliver 0 1 0, .deliver 1 1 0, .closeWindow 0, .closeWindow 1, .deliver 1 0 0,
    .deliver 1 1 0, .deliver 1 1 0, .deliver 0 1 0, .deliver 1 1 0, .deliver 1 0 0]

theorem secondElection_epoch_lt : ∃ system : System Int 2,
    System.Reached (fun _ => 0) 60 pairSetup system ∧ system.epoch 0 120 < system.epoch 1 245 := by
  obtain ⟨system, reached, leads⟩ := exists_reached_of_replay
    (show ((atZero pairSetup).replay 60 0 (firstElection ++ secondElection)).any
      (fun system => system.checkLeader (fun _ => 0) 0 120 &&
        system.checkLeader (fun _ => 0) 1 245) = true by decide +kernel)
  obtain ⟨leadsFirst, leadsSecond⟩ := Bool.and_eq_true_iff.mp leads
  exact ⟨system, reached, (epoch_fences reached).1 0 1 120 245 (by decide) (by decide)
    leadsFirst leadsSecond⟩

end IMBridge.Palf.Election
