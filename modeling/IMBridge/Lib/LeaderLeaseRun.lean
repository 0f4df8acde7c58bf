import IMBridge.Lib.LeaderLease

/-!
Runs of servers that elect a leader with leases. Each server has its own position in time; nothing
orders the steps of different servers but the messages between them.
-/

namespace IMBridge.Lib.LeaderLease

open Function

variable {S T : Type*} [LinearOrder T] [AddCommMonoid T] [DecidableEq S] (span : T) (Quorum : Finset S → Prop)

inductive Step (self : S) : World S T → World S T → Prop
  | tick {world : World S T} {time : T} (later : world.clock self ≤ time) :
      Step self world { world with clock := update world.clock self time }
  | expire {world : World S T} {grant : Grant S T} (granted : world.grant self = some grant)
      (expired : grant.expiry < world.clock self) :
      Step self world { world with grant := update world.grant self none }
  | promise {world : World S T} (candidate : S) {ballot : Int}
      (higher : world.promised self < ballot) :
      Step self world
        { world with
          promised := update world.promised self ballot
          promises := insert
            ⟨self, candidate, ballot,
              (world.grant self).map (fun grant => (grant.owner, grant.ballot)), world.clock self⟩
            world.promises }
  | vote {world : World S T} {proposal : Proposal S T} {expiry : T}
      (proposed : proposal ∈ world.proposals) (sent : proposal.start ≤ world.clock self)
      (allowed : world.promised self ≤ proposal.ballot)
      (covers : world.clock self + span ≤ expiry)
      (longer : ∀ grant, world.grant self = some grant → grant.expiry ≤ expiry) :
      Step self world
        { world with
          promised := update world.promised self proposal.ballot
          grant := update world.grant self (some ⟨proposal.leader, expiry, proposal.ballot⟩)
          votes := insert
            ⟨self, proposal.leader, proposal.ballot, proposal.start, world.clock self⟩ world.votes }
  | raise {world : World S T} {ballot : Int} (higher : world.ballot self ≤ ballot) :
      Step self world { world with ballot := update world.ballot self ballot }
  | win {world : World S T} {group : Finset S} (quorum : Quorum group)
      (promised : ∀ acceptor ∈ group, ∃ promise ∈ world.promises, promise.acceptor = acceptor ∧
        promise.candidate = self ∧ promise.ballot = world.ballot self ∧
        promise.instant ≤ world.clock self ∧
        Passable world.handovers self (world.clock self) promise.seen) :
      Step self world
        { world with wins := insert ⟨self, world.ballot self, world.clock self⟩ world.wins }
  | propose {world : World S T} {win : Win S T} (won : win ∈ world.wins)
      (own : win.candidate = self) (before : win.instant ≤ world.clock self) :
      Step self world
        { world with proposals := insert ⟨self, win.ballot, world.clock self⟩ world.proposals }
  | take {world : World S T} {decided expiry : T}
      (order : ∀ term, (world.terms self).head? = some term → term.since ≤ decided)
      (seen : decided < world.clock self)
      (backed : Backed span Quorum world.votes self (world.ballot self) decided expiry) :
      Step self world
        { world with
          terms := update world.terms self
            (⟨world.clock self, some ⟨expiry, world.ballot self,
              exposedEpoch (world.terms self) decided (world.ballot self)⟩⟩ :: world.terms self) }
  | drop {world : World S T} :
      Step self world
        { world with
          terms := update world.terms self (⟨world.clock self, none⟩ :: world.terms self) }
  | handOver {world : World S T} :
      Step self world
        { world with
          ballot := update world.ballot self (world.ballot self + 1)
          terms := update world.terms self (⟨world.clock self, none⟩ :: world.terms self)
          handovers := insert ⟨self, world.ballot self, world.clock self⟩ world.handovers }

abbrev Steps (self : S) : World S T → World S T → Prop :=
  Relation.ReflTransGen (Step span Quorum self)

inductive Reached : World S T → Prop
  | fresh {world : World S T} (fresh : Fresh world) : Reached world
  | step {world next : World S T} {self : S} (reached : Reached world)
      (step : Step span Quorum self world next) : Reached next

variable {world next : World S T} {self : S}

theorem Reached.steps (reached : Reached span Quorum world) (steps : Steps span Quorum self world next) :
    Reached span Quorum next := by
  induction steps with
  | refl => exact reached
  | tail _ step ih => exact ih.step step

variable {span Quorum}

namespace Consistent

variable (inv : Consistent span Quorum world)
include inv

theorem promise {candidate : S} {ballot : Int} (higher : world.promised self < ballot) :
    Consistent span Quorum { world with
        promised := update world.promised self ballot
        promises := insert ⟨self, candidate, ballot,
            (world.grant self).map (fun grant => (grant.owner, grant.ballot)), world.clock self⟩
          world.promises } := by
  have grows : ∀ server, world.promised server ≤ update world.promised self ballot server :=
    (forall_update_iff _ (world.promised · ≤ ·)).mpr ⟨higher.le, fun _ _ => le_rfl⟩
  have below : ∀ promise ∈ world.promises, promise.acceptor = self → promise.ballot < ballot := by
    intro promise made acceptor
    exact (acceptor ▸ inv.promise_le promise made).trans_lt higher
  exact { inv with
      promise_le := by
        rintro promise (rfl | made)
        · simp
        · exact (inv.promise_le promise made).trans (grows promise.acceptor)
      promise_unique := by
        rintro first (rfl | madeFirst) second (rfl | madeSecond) acceptor same
        · rfl
        · grind
        · grind
        · exact inv.promise_unique first madeFirst second madeSecond acceptor same
      promise_seen := by
        rintro promise (rfl | made) owner seen reported
        · obtain ⟨grant, granted, same⟩ := Option.map_eq_some_iff.mp reported
          obtain ⟨rfl, rfl⟩ := Prod.mk.inj same
          exact inv.grant_won self grant granted
        · exact inv.promise_seen promise made owner seen reported
      grant_le := fun server grant granted => (inv.grant_le server grant granted).trans (grows server)
      vote_le := fun vote voted => (inv.vote_le vote voted).trans (grows vote.acceptor)
      vote_promise := by
        rintro vote voted promise (rfl | made) acceptor less
        · -- the lease that stands for an earlier vote is the one the promise reports
          replace acceptor : vote.acceptor = self := acceptor
          rcases inv.vote_granted vote voted with past | ⟨grant, granted, atLeast, -⟩
          · exact .inl (acceptor ▸ past)
          rw [acceptor] at granted
          refine .inr ⟨grant.owner, grant.ballot, by simp [granted], atLeast, ?_⟩
          exact (inv.grant_le self grant granted).trans_lt higher
        · exact inv.vote_promise vote voted promise made acceptor less
      win_quorum := by
        intro win won
        obtain ⟨group, quorum, promised⟩ := inv.win_quorum win won
        refine ⟨group, quorum, fun acceptor member => ?_⟩
        obtain ⟨promise, made, rest⟩ := promised acceptor member
        exact ⟨promise, .inr made, rest⟩ }

theorem pushTerm {hold : Option (Hold T)}
    (chain : Chain span Quorum world.votes self (⟨world.clock self, hold⟩ :: world.terms self))
    (current : ∀ held, hold = some held → held.ballot = world.ballot self) :
    Consistent span Quorum { world with
        terms := update world.terms self (⟨world.clock self, hold⟩ :: world.terms self) } :=
  { inv with
    term_chain :=
      (forall_update_iff _ (Chain span Quorum world.votes)).mpr ⟨chain, fun _ _ => inv.term_chain _⟩
    term_since := by
      refine (forall_update_iff _ fun server (terms : List (Term T)) =>
        ∀ term ∈ terms, term.since ≤ world.clock server).mpr ⟨?_, fun server _ => inv.term_since server⟩
      exact List.forall_mem_cons.mpr ⟨le_rfl, inv.term_since self⟩
    handover_pending := by
      intro handover done term member held holds pending
      by_cases same : handover.source = self
      · simp only [same, update_self, List.mem_cons] at member
        rcases member with rfl | older
        · rw [current held holds, ← same]
          exact inv.handover_ballot handover done
        · exact inv.handover_pending handover done term (same ▸ older) held holds pending
      · simp only [update_of_ne same] at member
        exact inv.handover_pending handover done term member held holds pending
    handover_inForce := by
      intro handover done time after held found
      by_cases same : handover.source = self
      · simp only [same, update_self, inForce_cons] at found
        split at found
        · rw [current held found, ← same]
          exact inv.handover_ballot handover done
        · exact inv.handover_inForce handover done time after held (same ▸ found)
      · simp only [update_of_ne same] at found
        exact inv.handover_inForce handover done time after held found }

theorem drop (self : S) : Consistent span Quorum { world with
      terms := update world.terms self (⟨world.clock self, none⟩ :: world.terms self) } := by
  refine inv.pushTerm (.drop (inv.term_chain self) fun term first => ?_) (fun _ holds => by cases holds)
  exact inv.term_since self term (List.mem_of_head? first)

theorem raise {ballot : Int} (higher : world.ballot self ≤ ballot) :
    Consistent span Quorum { world with ballot := update world.ballot self ballot } := by
  have grows : ∀ server, world.ballot server ≤ update world.ballot self ballot server :=
    (forall_update_iff _ (world.ballot · ≤ ·)).mpr ⟨higher, fun _ _ => le_rfl⟩
  exact { inv with
      handover_ballot := fun handover done =>
        (inv.handover_ballot handover done).trans_le (grows handover.source) }

theorem handOver : Consistent span Quorum { world with
      ballot := update world.ballot self (world.ballot self + 1)
      terms := update world.terms self (⟨world.clock self, none⟩ :: world.terms self)
      handovers := insert ⟨self, world.ballot self, world.clock self⟩ world.handovers } := by
  -- without the handover itself this is a dropped lease and a raised ballot
  have raised := (inv.drop self).raise (show world.ballot self ≤ world.ballot self + 1 by omega)
  exact { raised with
      win_quorum := by
        intro win won
        obtain ⟨group, quorum, promised⟩ := raised.win_quorum win won
        refine ⟨group, quorum, fun acceptor member => ?_⟩
        obtain ⟨promise, made, same, candidate, ballot, before, passable⟩ := promised acceptor member
        exact ⟨promise, made, same, candidate, ballot, before,
          passable.mono (Set.subset_insert ..) le_rfl⟩
      handover_ballot := by
        rintro handover (rfl | done)
        · simp only [update_self]
          exact Int.lt_add_one_of_le le_rfl
        · exact raised.handover_ballot handover done
      handover_pending := by
        rintro handover (rfl | done) term member hold holds pending
        · exact absurd pending (raised.term_since self term member).not_gt
        · exact raised.handover_pending handover done term member hold holds pending
      handover_inForce := by
        rintro handover (rfl | done) time after hold found
        · simp only [update_self, inForce_cons, if_pos after] at found
          cases found
        · exact raised.handover_inForce handover done time after hold found }

variable [IsOrderedAddMonoid T]

theorem vote {proposal : Proposal S T} {expiry : T}
    (proposed : proposal ∈ world.proposals) (sent : proposal.start ≤ world.clock self)
    (allowed : world.promised self ≤ proposal.ballot) (covers : world.clock self + span ≤ expiry)
    (longer : ∀ grant, world.grant self = some grant → grant.expiry ≤ expiry) :
    Consistent span Quorum { world with
        promised := update world.promised self proposal.ballot
        grant := update world.grant self (some ⟨proposal.leader, expiry, proposal.ballot⟩)
        votes := insert ⟨self, proposal.leader, proposal.ballot, proposal.start, world.clock self⟩
          world.votes } := by
  have grows : ∀ server, world.promised server ≤ update world.promised self proposal.ballot server :=
    (forall_update_iff _ (world.promised · ≤ ·)).mpr ⟨allowed, fun _ _ => le_rfl⟩
  obtain ⟨win, won, leader, ballot, before⟩ := inv.proposal_won proposal proposed
  exact { inv with
      promise_le := fun promise made => (inv.promise_le promise made).trans (grows promise.acceptor)
      grant_le := by
        intro server grant granted
        by_cases same : server = self
        · grind
        · simp only [update_of_ne same] at granted ⊢
          exact inv.grant_le server grant granted
      grant_won := by
        intro server grant granted
        by_cases same : server = self
        · grind
        · exact inv.grant_won server grant (by simpa only [update_of_ne same] using granted)
      vote_le := by
        rintro vote (rfl | voted)
        · simp
        · exact (inv.vote_le vote voted).trans (grows vote.acceptor)
      vote_granted := by
        rintro vote (rfl | voted)
        · refine .inr ⟨_, update_self .., le_rfl, ?_⟩
          exact (add_le_add_left sent span).trans covers
        · by_cases same : vote.acceptor = self
          · refine (inv.vote_granted vote voted).imp_right ?_
            rintro ⟨grant, granted, atLeast, within⟩
            rw [same] at granted
            refine ⟨⟨proposal.leader, expiry, proposal.ballot⟩, by simp [same], ?_,
              within.trans (longer grant granted)⟩
            exact (same ▸ inv.vote_le vote voted).trans allowed
          · simpa [same] using inv.vote_granted vote voted
      vote_promise := by
        rintro vote (rfl | voted) promise made acceptor less
        · -- the new vote is not below anything its acceptor has promised
          have bound := inv.promise_le promise made
          grind
        · exact inv.vote_promise vote voted promise made acceptor less
      vote_won := by
        rintro vote (rfl | voted)
        · grind
        · exact inv.vote_won vote voted
      term_chain := fun server => (inv.term_chain server).mono (Set.subset_insert ..) }

theorem step (step : Step span Quorum self world next) : Consistent span Quorum next := by
  cases step with
  | @tick time later =>
    have grows : ∀ server, world.clock server ≤ update world.clock self time server :=
      (forall_update_iff _ (world.clock · ≤ ·)).mpr ⟨later, fun _ _ => le_rfl⟩
    exact { inv with
        grant_won := by
          intro server grant granted
          obtain ⟨win, won, owner, ballot, before⟩ := inv.grant_won server grant granted
          grind
        vote_granted := by
          intro vote voted
          exact (inv.vote_granted vote voted).imp_left (fun past => past.trans (grows vote.acceptor))
        term_since := fun server term member =>
          (inv.term_since server term member).trans (grows server) }
  | @expire grant granted expired =>
    have kept {server : S} {other : Grant S T} (found : update world.grant self none server = some other) :
        world.grant server = some other := by
      by_cases same : server = self
      · subst same; simp at found
      · simpa [same] using found
    exact { inv with
        grant_le := fun server other found => inv.grant_le server other (kept found)
        grant_won := fun server other found => inv.grant_won server other (kept found)
        vote_granted := by
          intro vote voted
          by_cases same : vote.acceptor = self
          · -- a vote that the dropped lease stood for is over as well
            left
            rcases inv.vote_granted vote voted with past | ⟨other, found, -, covers⟩
            · exact past
            rw [same, granted, Option.some.injEq] at found
            subst found
            rw [same]
            exact covers.trans expired.le
          · simpa [same] using inv.vote_granted vote voted }
  | promise candidate higher => exact inv.promise higher
  | vote proposed sent allowed covers longer => exact inv.vote proposed sent allowed covers longer
  | raise higher => exact inv.raise higher
  | @win group quorum promised =>
    have kept {P : Win S T → Prop} : (∃ win ∈ world.wins, P win) →
        ∃ win ∈ insert ⟨self, world.ballot self, world.clock self⟩ world.wins, P win :=
      fun ⟨win, won, holds⟩ => ⟨win, .inr won, holds⟩
    exact { inv with
        promise_seen := fun promise made owner ballot reported =>
          kept (inv.promise_seen promise made owner ballot reported)
        grant_won := fun server grant granted => kept (inv.grant_won server grant granted)
        vote_won := fun vote voted => kept (inv.vote_won vote voted)
        proposal_won := fun proposal proposed => kept (inv.proposal_won proposal proposed)
        win_quorum := by
          rintro win (rfl | won)
          · exact ⟨group, quorum, promised⟩
          · exact inv.win_quorum win won }
  | @propose win won own before =>
    exact { inv with
        proposal_won := by
          rintro proposal (rfl | proposed)
          · exact ⟨win, won, own, rfl, before⟩
          · exact inv.proposal_won proposal proposed }
  | take order seen backed =>
    refine inv.pushTerm (.take (inv.term_chain self) order seen backed) ?_
    rintro held ⟨⟩
    rfl
  | drop => exact inv.drop self
  | handOver => exact inv.handOver

end Consistent

theorem Reached.consistent [IsOrderedAddMonoid T] (reached : Reached span Quorum world) : Consistent span Quorum world := by
  induction reached with
  | fresh fresh => exact fresh.consistent
  | step _ step ih => exact ih.step step

/-- What the steps of one server leave alone: the state of every other server; and nothing that has
happened is forgotten. -/
structure Extends (actor : S) (world next : World S T) : Prop where
  clock : ∀ server, server ≠ actor → next.clock server = world.clock server
  promised : ∀ server, server ≠ actor → next.promised server = world.promised server
  grant : ∀ server, server ≠ actor → next.grant server = world.grant server
  ballot : ∀ server, server ≠ actor → next.ballot server = world.ballot server
  terms : ∀ server, server ≠ actor → next.terms server = world.terms server
  promises : world.promises ⊆ next.promises
  wins : world.wins ⊆ next.wins
  otherWins : ∀ win ∈ next.wins, win.candidate ≠ actor → win ∈ world.wins
  proposals : world.proposals ⊆ next.proposals
  votes : world.votes ⊆ next.votes
  handovers : world.handovers ⊆ next.handovers
  later : world.clock actor ≤ next.clock actor

omit [AddCommMonoid T] [DecidableEq S] in
theorem Extends.refl (self : S) (world : World S T) : Extends self world world := by
  constructor <;> simp +contextual

omit [AddCommMonoid T] [DecidableEq S] in
theorem Extends.trans {middle : World S T} (first : Extends self world middle) (second : Extends self middle next) :
    Extends self world next where
  clock server other := (second.clock server other).trans (first.clock server other)
  promised server other := (second.promised server other).trans (first.promised server other)
  grant server other := (second.grant server other).trans (first.grant server other)
  ballot server other := (second.ballot server other).trans (first.ballot server other)
  terms server other := (second.terms server other).trans (first.terms server other)
  promises := first.promises.trans second.promises
  wins := first.wins.trans second.wins
  otherWins win won other := first.otherWins win (second.otherWins win won other) other
  proposals := first.proposals.trans second.proposals
  votes := first.votes.trans second.votes
  handovers := first.handovers.trans second.handovers
  later := first.later.trans second.later

theorem Step.extends (step : Step span Quorum self world next) : Extends self world next := by
  cases step <;> constructor <;> simp +contextual [Set.subset_insert, *]

theorem Steps.extends (steps : Steps span Quorum self world next) : Extends self world next := by
  induction steps with
  | refl => exact .refl self world
  | tail _ step ih => exact ih.trans step.extends

end IMBridge.Lib.LeaderLease
