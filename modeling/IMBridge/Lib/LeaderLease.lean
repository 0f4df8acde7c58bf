import Mathlib.Data.Finset.Basic
import Mathlib.Algebra.Order.Monoid.Defs

/-!
Leader leases with ballots. A candidate that collects promises of a quorum for its ballot wins it
and may propose leases; a leader holds the lease that a quorum has voted for. A promise reports the
lease that the acceptor still has outstanding, and it counts only if there is none, if it is the
candidate's own, or if its holder has handed it over. With its lease a leader exposes an epoch, the
ballot of the first lease of an unbroken sequence.
-/

namespace IMBridge.Lib.LeaderLease

open List
variable {S T : Type*}

structure Grant (S T : Type*) where
  owner : S
  expiry : T
  ballot : Int

structure Promise (S T : Type*) where
  acceptor : S
  candidate : S
  ballot : Int
  seen : Option (S × Int)
  instant : T

structure Win (S T : Type*) where
  candidate : S
  ballot : Int
  instant : T

structure Proposal (S T : Type*) where
  leader : S
  ballot : Int
  start : T

structure Vote (S T : Type*) where
  acceptor : S
  leader : S
  ballot : Int
  start : T
  instant : T

structure Handover (S T : Type*) where
  source : S
  ballot : Int
  instant : T

structure Hold (T : Type*) where
  expiry : T
  ballot : Int
  epoch : Int

structure Term (T : Type*) where
  since : T
  hold : Option (Hold T)

structure World (S T : Type*) where
  clock : S → T
  promised : S → Int
  grant : S → Option (Grant S T)
  ballot : S → Int
  terms : S → List (Term T)
  promises : Set (Promise S T)
  wins : Set (Win S T)
  proposals : Set (Proposal S T)
  votes : Set (Vote S T)
  handovers : Set (Handover S T)

section Terms

variable [LinearOrder T] (terms : List (Term T))

/-- The lease in force at an instant; the newest term stands first. -/
def inForce (time : T) : Option (Hold T) :=
  (terms.find? (fun term => decide (term.since ≤ time))).bind Term.hold

theorem inForce_cons (term : Term T) (terms : List (Term T)) (time : T) :
    inForce (term :: terms) time = if term.since ≤ time then term.hold else inForce terms time := by
  unfold inForce
  grind

theorem mem_of_inForce {terms : List (Term T)} {time : T} {hold : Hold T} (found : inForce terms time = some hold) :
    ∃ term ∈ terms, term.since ≤ time ∧ term.hold = some hold := by
  obtain ⟨term, first, holds⟩ := Option.bind_eq_some_iff.mp found
  grind

theorem inForce_append_cons {newer rest : List (Term T)} {term : Term T} {time : T}
    (later : ∀ earlier ∈ newer, time < earlier.since) (since : term.since ≤ time) :
    inForce (newer ++ term :: rest) time = term.hold := by
  induction newer with
  | nil => rw [nil_append, inForce_cons, if_pos since]
  | cons first newer ih =>
    rw [cons_append, inForce_cons, if_neg (later first (mem_cons_self ..)).not_ge]
    grind

theorem exists_split_of_inForce {terms : List (Term T)} {time : T} {hold : Hold T}
    (found : inForce terms time = some hold) :
    ∃ newer term rest, terms = newer ++ term :: rest ∧ (∀ later ∈ newer, time < later.since) ∧
      term.since ≤ time ∧ term.hold = some hold := by
  induction terms with
  | nil => cases found
  | cons first terms ih =>
    rw [inForce_cons] at found
    split at found
    · rename_i started
      exact ⟨[], first, terms, rfl, by simp, started, found⟩
    rename_i pending
    grind

/-- The epoch of a lease that is taken at an instant: the lease before it is continued while it
lasts. -/
def exposedEpoch (time : T) (ballot : Int) : Int :=
  match terms with
  | ⟨_, some hold⟩ :: _ => if time < hold.expiry then hold.epoch else ballot
  | _ => ballot

theorem exposedEpoch_cases (time : T) (ballot : Int) : (exposedEpoch terms time ballot = ballot ∧
      ∀ term hold, terms.head? = some term → term.hold = some hold → hold.expiry ≤ time) ∨
    ∃ since hold rest, terms = ⟨since, some hold⟩ :: rest ∧ time < hold.expiry ∧
      exposedEpoch terms time ballot = hold.epoch := by
  match terms with
  | [] => simp [exposedEpoch]
  | ⟨since, none⟩ :: rest =>
    left
    refine ⟨rfl, fun term hold first holds => ?_⟩
    grind
  | ⟨since, some hold⟩ :: rest =>
    by_cases running : time < hold.expiry
    · exact .inr ⟨since, hold, rest, rfl, running, by simp [exposedEpoch, running]⟩
    left
    refine ⟨by simp [exposedEpoch, running], fun term hold' first holds => ?_⟩
    grind

end Terms

variable [LinearOrder T]

def Leads (world : World S T) (server : S) (time : T) (epoch : Int) : Prop :=
  ∃ hold, inForce (world.terms server) time = some hold ∧ time < hold.expiry ∧ hold.epoch = epoch

def Passable (handovers : Set (Handover S T)) (candidate : S) (time : T) (seen : Option (S × Int)) :
    Prop :=
  ∀ owner ballot, seen = some (owner, ballot) → owner = candidate ∨
    ∃ handover ∈ handovers, handover.source = owner ∧ handover.ballot = ballot ∧
      handover.instant ≤ time

theorem Passable.mono {handovers more : Set (Handover S T)} {candidate : S} {time later : T}
    {seen : Option (S × Int)} (passable : Passable handovers candidate time seen)
    (subset : handovers ⊆ more) (le : time ≤ later) : Passable more candidate later seen := by
  intro owner ballot reported
  rcases passable owner ballot reported with own | ⟨handover, member, source, same, before⟩
  · exact .inl own
  grind

structure Fresh (world : World S T) : Prop where
  grant : ∀ server, world.grant server = none
  terms : ∀ server, world.terms server = []
  promises : world.promises = ∅
  wins : world.wins = ∅
  proposals : world.proposals = ∅
  votes : world.votes = ∅
  handovers : world.handovers = ∅

variable [AddCommMonoid T] (span : T) (Quorum : Finset S → Prop)

def Backed (votes : Set (Vote S T)) (leader : S) (ballot : Int) (instant expiry : T) : Prop :=
  ∃ group, Quorum group ∧ ∀ acceptor ∈ group, ∃ vote ∈ votes, vote.acceptor = acceptor ∧
    vote.leader = leader ∧ vote.ballot = ballot ∧ vote.instant ≤ instant ∧
    expiry ≤ vote.start + span

/-- The terms of a server, newest first: each lease is backed before it is seen, and it continues
the lease before it exactly when that was running at the instant of the decision. -/
inductive Chain (votes : Set (Vote S T)) (server : S) : List (Term T) → Prop
  | nil : Chain votes server []
  | drop {since : T} {terms : List (Term T)} (chain : Chain votes server terms)
      (order : ∀ term, terms.head? = some term → term.since ≤ since) :
      Chain votes server (⟨since, none⟩ :: terms)
  | take {since decided expiry : T} {ballot : Int} {terms : List (Term T)}
      (chain : Chain votes server terms)
      (order : ∀ term, terms.head? = some term → term.since ≤ decided) (seen : decided < since)
      (backed : Backed span Quorum votes server ballot decided expiry) :
      Chain votes server (⟨since, some ⟨expiry, ballot, exposedEpoch terms decided ballot⟩⟩ :: terms)

/-- What holds in every world that is reached. The first group of fields is about acceptors, the
second about candidates and leaders. -/
structure Consistent (world : World S T) : Prop where
  promise_le : ∀ promise ∈ world.promises, promise.ballot ≤ world.promised promise.acceptor
  promise_unique : ∀ first ∈ world.promises, ∀ second ∈ world.promises,
    first.acceptor = second.acceptor → first.ballot = second.ballot → first = second
  promise_seen : ∀ promise ∈ world.promises, ∀ owner ballot, promise.seen = some (owner, ballot) →
    ∃ win ∈ world.wins, win.candidate = owner ∧ win.ballot = ballot ∧ win.instant ≤ promise.instant
  grant_le : ∀ server grant, world.grant server = some grant → grant.ballot ≤ world.promised server
  grant_won : ∀ server grant, world.grant server = some grant →
    ∃ win ∈ world.wins, win.candidate = grant.owner ∧ win.ballot = grant.ballot ∧
      win.instant ≤ world.clock server
  vote_le : ∀ vote ∈ world.votes, vote.ballot ≤ world.promised vote.acceptor
  vote_granted : ∀ vote ∈ world.votes, vote.start + span ≤ world.clock vote.acceptor ∨
    ∃ grant, world.grant vote.acceptor = some grant ∧ vote.ballot ≤ grant.ballot ∧
      vote.start + span ≤ grant.expiry
  vote_promise : ∀ vote ∈ world.votes, ∀ promise ∈ world.promises,
    vote.acceptor = promise.acceptor → vote.ballot < promise.ballot →
    vote.start + span ≤ promise.instant ∨
    ∃ owner ballot, promise.seen = some (owner, ballot) ∧ vote.ballot ≤ ballot ∧
      ballot < promise.ballot
  vote_won : ∀ vote ∈ world.votes, ∃ win ∈ world.wins, win.candidate = vote.leader ∧
    win.ballot = vote.ballot ∧ win.instant ≤ vote.instant
  proposal_won : ∀ proposal ∈ world.proposals, ∃ win ∈ world.wins,
    win.candidate = proposal.leader ∧ win.ballot = proposal.ballot ∧ win.instant ≤ proposal.start
  win_quorum : ∀ win ∈ world.wins, ∃ group, Quorum group ∧ ∀ acceptor ∈ group,
    ∃ promise ∈ world.promises, promise.acceptor = acceptor ∧ promise.candidate = win.candidate ∧
      promise.ballot = win.ballot ∧ promise.instant ≤ win.instant ∧
      Passable world.handovers win.candidate win.instant promise.seen
  term_chain : ∀ server, Chain span Quorum world.votes server (world.terms server)
  term_since : ∀ server, ∀ term ∈ world.terms server, term.since ≤ world.clock server
  handover_ballot : ∀ handover ∈ world.handovers, handover.ballot < world.ballot handover.source
  handover_pending : ∀ handover ∈ world.handovers, ∀ term ∈ world.terms handover.source,
    ∀ hold, term.hold = some hold → handover.instant < term.since → handover.ballot < hold.ballot
  handover_inForce : ∀ handover ∈ world.handovers, ∀ time, handover.instant ≤ time →
    ∀ hold, inForce (world.terms handover.source) time = some hold → handover.ballot < hold.ballot

variable {span Quorum}

theorem Fresh.consistent {world : World S T} (fresh : Fresh world) :
    Consistent span Quorum world := by
  constructor <;> simp [fresh.grant, fresh.terms, fresh.promises, fresh.wins, fresh.proposals,
    fresh.votes, fresh.handovers, Chain.nil]

variable {votes : Set (Vote S T)} {server : S} {terms : List (Term T)}

theorem Backed.mono {more : Set (Vote S T)} {leader : S} {ballot : Int} {instant expiry : T}
    (backed : Backed span Quorum votes leader ballot instant expiry) (subset : votes ⊆ more) :
    Backed span Quorum more leader ballot instant expiry := by
  obtain ⟨group, quorum, voted⟩ := backed
  refine ⟨group, quorum, fun acceptor member => ?_⟩
  grind

theorem Backed.later {leader : S} {ballot : Int} {instant time expiry : T}
    (backed : Backed span Quorum votes leader ballot instant expiry) (le : instant ≤ time) :
    Backed span Quorum votes leader ballot time expiry := by
  obtain ⟨group, quorum, voted⟩ := backed
  refine ⟨group, quorum, fun acceptor member => ?_⟩
  grind

theorem Chain.mono {more : Set (Vote S T)} (chain : Chain span Quorum votes server terms) (subset : votes ⊆ more) :
    Chain span Quorum more server terms := by
  induction chain with
  | nil => exact .nil
  | drop _ order ih => exact .drop ih order
  | take _ order seen backed ih => exact .take ih order seen (backed.mono subset)

theorem Chain.suffix {newer : List (Term T)} (chain : Chain span Quorum votes server (newer ++ terms)) :
    Chain span Quorum votes server terms := by
  induction newer with
  | nil => exact chain
  | cons first newer ih =>
    cases chain with
    | drop chain _ => exact ih chain
    | take chain _ _ _ => exact ih chain

/-- Every lease in a chain is backed at an instant before it is seen. -/
theorem Chain.backed (chain : Chain span Quorum votes server terms) {term : Term T} (member : term ∈ terms)
    {hold : Hold T} (holds : term.hold = some hold) :
    ∃ decided < term.since, Backed span Quorum votes server hold.ballot decided hold.expiry := by
  induction chain with
  | nil => cases member
  | drop _ _ ih =>
    grind
  | take _ _ seen backed ih =>
    grind

/-- The epoch stays the same as long as a lease is running at every instant. -/
theorem Chain.epoch_eq (chain : Chain span Quorum votes server terms) :
    ∀ {first last : T}, first ≤ last → (∀ time, first ≤ time → time ≤ last →
        ∃ hold, inForce terms time = some hold ∧ time < hold.expiry) →
      ∀ {hold hold' : Hold T}, inForce terms first = some hold → inForce terms last = some hold' →
        hold.epoch = hold'.epoch := by
  induction chain with
  | nil => intro first last _ _ hold hold' found; cases found
  | @drop since terms chain order ih =>
    intro first last le running hold hold' found found'
    rw [inForce_cons] at found'
    split at found'
    · cases found'
    rename_i pending
    have older {time : T} (before : time ≤ last) : inForce (⟨since, none⟩ :: terms) time = inForce terms time := by
      rw [inForce_cons, if_neg (fun started => pending (started.trans before))]
    grind
  | @take since decided expiry ballot terms chain order seen backed ih =>
    intro first last le running hold hold' found found'
    have older {time : T} (before : time < since) :
        inForce (⟨since, some ⟨expiry, ballot, exposedEpoch terms decided ballot⟩⟩ :: terms) time =
          inForce terms time := by
      rw [inForce_cons, if_neg before.not_ge]
    rcases lt_or_ge last since with pending | started
    · grind
    rw [inForce_cons, if_pos started] at found'
    obtain rfl := Option.some.inj found'
    rcases lt_or_ge first since with early | early
    · -- the instant at which the old lease is last known to have been looked at
      have middle : max first decided < since := max_lt early seen
      rw [older early] at found
      obtain ⟨between, foundBetween, runningBetween⟩ :=
        running (max first decided) (le_max_left ..) (middle.le.trans started)
      rw [older middle] at foundBetween
      rcases exposedEpoch_cases terms decided ballot with ⟨-, lapsed⟩ | ⟨since', renewedHold, rest, rfl, -, renewed⟩
      · -- a new epoch only after the old lease has run out
        exfalso
        match terms, order, lapsed, foundBetween with
        | [], _, _, foundBetween => cases foundBetween
        | term :: rest, order, lapsed, foundBetween =>
          rw [inForce_cons, if_pos ((order term rfl).trans (le_max_right ..))] at foundBetween
          grind
      · have same := ih (le_max_left first decided) (fun time after before =>
          older (before.trans_lt middle) ▸
            running time after (before.trans (middle.le.trans started))) found foundBetween
        rw [inForce_cons, if_pos ((order _ rfl).trans (le_max_right ..))] at foundBetween
        grind
    · rw [inForce_cons, if_pos early] at found
      obtain rfl := Option.some.inj found
      rfl

/-- The candidate has won the ballot by the instant. -/
def Won (world : World S T) (candidate : S) (ballot : Int) (time : T) : Prop :=
  ∃ win ∈ world.wins, win.candidate = candidate ∧ win.ballot = ballot ∧ win.instant ≤ time

omit [AddCommMonoid T] in
theorem Won.later {world : World S T} {ballot : Int} {time later : T} (won : Won world server ballot time)
    (le : time ≤ later) : Won world server ballot later := by
  obtain ⟨win, member, candidate, same, before⟩ := won
  exact ⟨win, member, candidate, same, before.trans le⟩

namespace Consistent

variable {world : World S T} (inv : Consistent span Quorum world)
  (meet : ∀ first second, Quorum first → Quorum second → ∃ server, server ∈ first ∧ server ∈ second)
  {leader other : S} {ballot rival epoch : Int} {time instant expiry : T} {hold : Hold T}
include inv meet

theorem won_unique (won : Won world other ballot time) (won' : Won world leader ballot instant) : other = leader := by
  obtain ⟨first, member, rfl, rfl, -⟩ := won
  obtain ⟨second, member', rfl, same, -⟩ := won'
  obtain ⟨group, quorum, promised⟩ := inv.win_quorum first member
  obtain ⟨group', quorum', promised'⟩ := inv.win_quorum second member'
  obtain ⟨server, inFirst, inSecond⟩ := meet _ _ quorum quorum'
  obtain ⟨promise, made, acceptor, candidate, ballot, -⟩ := promised server inFirst
  obtain ⟨promise', made', acceptor', candidate', ballot', -⟩ := promised' server inSecond
  have equal := inv.promise_unique promise made promise' made' (acceptor.trans acceptor'.symm)
    (ballot.trans (same.symm.trans ballot'.symm))
  rw [← candidate, equal, candidate']

section

variable (backed : Backed span Quorum world.votes leader ballot instant expiry)
include backed

theorem won_of_backed :
    Won world leader ballot instant := by
  obtain ⟨group, quorum, voted⟩ := backed
  obtain ⟨server, inside, -⟩ := meet _ _ quorum quorum
  obtain ⟨vote, cast, -, rfl, rfl, before, -⟩ := voted server inside
  exact Won.later (inv.vote_won vote cast) before

/-- While the votes for a leader last and it has not handed their ballot over, every ballot that
anybody else has won is below that ballot. The lease need not be in force. -/
theorem rival_lt_of_backed (running : time < expiry)
    (kept : ∀ handover ∈ world.handovers, handover.source = leader → handover.instant ≤ time → handover.ballot < ballot)
    (differ : other ≠ leader) (won : Won world other rival time) : rival < ballot := by
  obtain ⟨voters, votersQuorum, voted⟩ := backed
  -- The induction is on how far the ballot of the rival lies above the ballot of the lease.
  suffices below : ∀ (gap : Nat) {other : S} {rival : Int}, rival = ballot + gap → other ≠ leader →
      ¬Won world other rival time by
    by_contra above
    exact below (rival - ballot).toNat (by omega) differ won
  intro gap
  induction gap using Nat.strong_induction_on with
  | _ gap ih =>
    rintro other rival reaches differ ⟨win, member, rfl, rfl, before⟩
    obtain ⟨group, quorum, promised⟩ := inv.win_quorum win member
    obtain ⟨server, inVoters, inGroup⟩ := meet _ _ votersQuorum quorum
    obtain ⟨vote, cast, voter, rfl, rfl, -, covers⟩ := voted server inVoters
    obtain ⟨promise, made, acceptor, candidate, promiseBallot, promiseInstant, passable⟩ := promised server inGroup
    have early : promise.instant ≤ time := promiseInstant.trans before
    rcases Nat.eq_zero_or_pos gap with rfl | pos
    · exact differ (inv.won_unique meet ⟨win, member, rfl, by omega, le_rfl⟩ (inv.vote_won vote cast))
    rcases inv.vote_promise vote cast promise made (voter.trans acceptor.symm) (by omega) with
      past | ⟨owner, seen, reported, atLeast, less⟩
    · grind
    -- nobody else wins a ballot between the lease's and this one before the instant
    have isLeader : owner = vote.leader := by
      by_contra otherOwner
      exact ih (seen - vote.ballot).toNat (by omega) (by omega) otherOwner
        (Won.later (inv.promise_seen promise made owner seen reported) early)
    rcases passable owner seen reported with own | ⟨handover, done, source, ofBallot, earlier⟩
    · exact differ (own.symm.trans isLeader)
    -- the leader itself would have handed the ballot over
    grind

end

theorem rival_lt_of_inForce (force : inForce (world.terms leader) time = some hold)
    (running : time < hold.expiry) (differ : other ≠ leader) (won : Won world other rival time) :
    rival < hold.ballot := by
  obtain ⟨term, member, since, holds⟩ := mem_of_inForce force
  obtain ⟨decided, -, backed⟩ := (inv.term_chain leader).backed member holds
  refine inv.rival_lt_of_backed meet backed running ?_ differ won
  rintro handover done rfl earlier
  exact inv.handover_inForce handover done time earlier hold force

theorem rival_lt_of_pending {term : Term T} (member : term ∈ world.terms leader)
    (holds : term.hold = some hold) (pending : time < term.since) (running : time < hold.expiry)
    (differ : other ≠ leader) (won : Won world other rival time) : rival < hold.ballot := by
  obtain ⟨decided, -, backed⟩ := (inv.term_chain leader).backed member holds
  refine inv.rival_lt_of_backed meet backed running ?_ differ won
  rintro handover done rfl earlier
  exact inv.handover_pending handover done term member hold holds (earlier.trans_lt pending)

theorem won_of_inForce (force : inForce (world.terms leader) time = some hold) : Won world leader hold.ballot time := by
  obtain ⟨term, member, since, holds⟩ := mem_of_inForce force
  obtain ⟨decided, early, backed⟩ := (inv.term_chain leader).backed member holds
  exact (inv.won_of_backed meet backed).later (early.le.trans since)

/-- At no instant do two servers hold a lease. -/
theorem leads_unique {epoch' : Int} (leads : Leads world leader time epoch) (leads' : Leads world other time epoch') :
    leader = other := by
  obtain ⟨hold, force, running, -⟩ := leads
  obtain ⟨hold', force', running', -⟩ := leads'
  -- each of two different holders would have won a smaller ballot than the other
  by_contra differ
  have less := inv.rival_lt_of_inForce meet force running (Ne.symm differ) (inv.won_of_inForce meet force')
  have less' := inv.rival_lt_of_inForce meet force' running' differ (inv.won_of_inForce meet force)
  omega

theorem epoch_won (chain : Chain span Quorum world.votes server terms) :
    ∀ term ∈ terms, ∀ hold, term.hold = some hold → Won world server hold.epoch term.since := by
  induction chain with
  | nil => intro term member; cases member
  | drop _ _ ih =>
    grind
  | @take since decided expiry ballot terms chain order seen backed ih =>
    intro term member hold holds
    rcases mem_cons.mp member with rfl | older
    · obtain rfl := Option.some.inj holds
      rcases exposedEpoch_cases terms decided ballot with ⟨fresh, -⟩ | ⟨since', hold', rest, rfl, -, renewed⟩
      · simpa only [fresh] using (inv.won_of_backed meet backed).later seen.le
      · simpa only [renewed] using (ih _ (mem_cons_self ..) hold' rfl).later ((order _ rfl).trans seen.le)
    · exact ih term older hold holds

/-- A lease that is not seen at an instant at which another server leads: its epoch is above the
ballots that the other has won by then. The induction follows the leases it continues. -/
theorem rival_lt_epoch (leads : Leads world other time epoch) (differ : other ≠ leader)
    (won : Won world other rival time) (chain : Chain span Quorum world.votes leader terms) :
    ∀ newer, world.terms leader = newer ++ terms → ∀ term hold, terms.head? = some term →
      term.hold = some hold → (∀ later ∈ newer, time < later.since) → time < term.since →
      time < hold.expiry → rival < hold.epoch := by
  induction chain with
  | nil => intro newer split term hold first; cases first
  | drop _ _ _ =>
    grind
  | @take since decided expiry ballot terms chain order seen backed ih =>
    intro newer split term hold first holds newerLater pending running
    rw [head?_cons, Option.some.injEq] at first
    subst first
    obtain rfl := Option.some.inj holds
    have below {rival : Int} : Won world other rival time → rival < ballot :=
      inv.rival_lt_of_pending meet (split ▸ mem_append_right _ (mem_cons_self ..)) rfl pending running differ
    rcases exposedEpoch_cases terms decided ballot with ⟨fresh, -⟩ | ⟨since', hold', rest, rfl, continued, renewed⟩
    · exact (below won).trans_eq fresh.symm
    refine lt_of_lt_of_eq ?_ renewed.symm
    rw [← singleton_append, ← append_assoc] at split
    have laterAll := forall_mem_append.mpr ⟨newerLater, forall_mem_singleton.mpr pending⟩
    by_cases older : time < since'
    · -- the continued lease is not seen yet either
      have runs : time < hold'.expiry := older.trans ((order _ rfl).trans_lt continued)
      exact ih _ split _ hold' rfl rfl laterAll older runs
    exfalso
    have inForceOld : inForce (world.terms leader) time = some hold' := by
      rw [split]
      exact inForce_append_cons laterAll (not_lt.mp older)
    by_cases runs : time < hold'.expiry
    · -- then the leader would lead at that instant itself
      exact differ (inv.leads_unique meet leads ⟨hold', inForceOld, runs, rfl⟩)
    -- the new lease is decided but not seen: both would be below each other
    obtain ⟨hold, force, runsOther, -⟩ := leads
    have less := inv.rival_lt_of_inForce meet force runsOther differ.symm
      ((inv.won_of_backed meet backed).later (continued.le.trans (not_lt.mp runs)))
    have less' := below (inv.won_of_inForce meet force)
    omega

/-- Who leads later exposes a larger epoch. -/
theorem epoch_lt {later : T} {epoch' : Int} (leads : Leads world leader time epoch)
    (leads' : Leads world other later epoch') (differ : leader ≠ other) (order : time ≤ later) :
    epoch < epoch' := by
  obtain ⟨hold', force', running', rfl⟩ := leads'
  obtain ⟨newer, term, rest, split, newerLater, since, holds⟩ := exists_split_of_inForce force'
  have newerLater (earlier) (member : earlier ∈ newer) := order.trans_lt (newerLater earlier member)
  by_cases seen : term.since ≤ time
  · -- the lease in force later is in force already
    have force : inForce (world.terms other) time = some hold' := by
      rw [split, ← holds]
      exact inForce_append_cons newerLater seen
    exact absurd (inv.leads_unique meet leads ⟨hold', force, order.trans_lt running', rfl⟩) differ
  · have won : Won world leader epoch time := by
      obtain ⟨hold, force, -, rfl⟩ := leads
      obtain ⟨term, member, since, holds⟩ := mem_of_inForce force
      exact (inv.epoch_won meet (inv.term_chain leader) term member hold holds).later since
    exact inv.rival_lt_epoch meet leads differ won (split ▸ inv.term_chain other).suffix newer split
      term hold' rfl holds newerLater (not_le.mp seen) (order.trans_lt running')

end Consistent

end IMBridge.Lib.LeaderLease
