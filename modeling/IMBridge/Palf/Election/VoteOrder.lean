import IMBridge.Palf.Election.Priority
import IMBridge.Palf.Election.Replay

/-!
When the request that an acceptor votes for depends on the order of arrival. The SCN is not ordered,
because it counts only when it differs by more than a threshold, and not at all when it is maximal.
-/

namespace IMBridge.Palf.Election

open IMBridge.Lib.Selection SCN List Option

/-- An SCN that counts as better than the other one. -/
def SCN.Leads (scn other : SCN) : Prop :=
  scn.isMax = false ∧ other.isMax = false ∧ scn.isValid = true ∧
    (other.isValid = true →
      other.convertToTs + PriorityV1.maxUnreplayedLogTsDiffThresholdUs < scn.convertToTs)

instance (scn other : SCN) : Decidable (scn.Leads other) := by
  unfold Leads
  infer_instance

namespace PriorityV1

def frontKeys (priority : PriorityV1) : List Int :=
  [whenClear priority.isObserverStopped, whenClear priority.isServerStopped,
    whenClear priority.isZoneStopped, -priority.fatalFailures]

def backKeys (priority : PriorityV1) : List Int :=
  [whenClear priority.isInBlacklist, whenSet priority.isManualLeader,
    whenSet priority.isPrimaryRegion, -priority.seriousFailures, -priority.zonePriority]

/-- The reason can be printed if the blacklist decides. -/
def Printable (priority other : PriorityV1) : Prop :=
  priority.isInBlacklist = other.isInBlacklist ∨
    reasonFits (if priority.isInBlacklist then priority.inBlacklistReason
      else other.inBlacklistReason) = true

instance (mine other : PriorityV1) : Decidable (mine.Printable other) := by
  unfold Printable
  infer_instance

theorem Printable.symm {priority other : PriorityV1} (printable : priority.Printable other) :
    other.Printable priority := by
  rcases printable with same | fits
  · exact .inl same.symm
  cases mine : priority.isInBlacklist <;> cases yours : other.isInBlacklist <;>
    simp_all [Printable]

theorem not_leads_of_leads {scn other : SCN} (leads : scn.Leads other) : ¬ other.Leads scn := by
  intro back
  have first := leads.2.2.2 back.2.2.1
  have second := back.2.2.2 leads.2.2.1
  simp only [maxUnreplayedLogTsDiffThresholdUs] at first second
  omega

variable {lhs rhs : PriorityV1}

theorem compareScn_of_valid (ne : lhs.scn ≠ rhs.scn) (notMax : lhs.scn.isMax = false ∧ rhs.scn.isMax = false)
    (valid : lhs.scn.isValid = true ∧ rhs.scn.isValid = true) :
    compareScn lhs rhs =
      if rhs.scn.convertToTs + maxUnreplayedLogTsDiffThresholdUs < lhs.scn.convertToTs then 1
      else if lhs.scn.convertToTs + maxUnreplayedLogTsDiffThresholdUs < rhs.scn.convertToTs then -1
      else 0 := by
  have ltr : lhs.scn.lt rhs.scn = decide (lhs.scn.tsNs < rhs.scn.tsNs) := by
    simp [SCN.lt, valid]
  have rtl : rhs.scn.lt lhs.scn = decide (rhs.scn.tsNs < lhs.scn.tsNs) := by
    simp [SCN.lt, valid]
  have tsL : lhs.scn.convertToTs = (lhs.scn.tsNs.val / 1000 : Nat) := by
    rw [convertToTs, if_pos valid.1]
  have tsR : rhs.scn.convertToTs = (rhs.scn.tsNs.val / 1000 : Nat) := by
    rw [convertToTs, if_pos valid.2]
  rw [compareScn, if_neg (by simp [ne, notMax]), if_pos (by simp [valid])]
  simp only [SCN.max, SCN.min, ltr, rtl, decide_eq_true_eq, maxUnreplayedLogTsDiffThresholdUs]
  by_cases less : lhs.scn.tsNs < rhs.scn.tsNs
  · grind
  grind

theorem not_leads_self (scn : SCN) : ¬ scn.Leads scn := fun leads => not_leads_of_leads leads leads

theorem compareScn_eq (lhs rhs : PriorityV1) : compareScn lhs rhs =
      if lhs.scn.Leads rhs.scn then 1 else if rhs.scn.Leads lhs.scn then -1 else 0 := by
  by_cases same : lhs.scn = rhs.scn
  · rw [compareScn, if_pos (.inl same), same, if_neg (not_leads_self _), if_neg (not_leads_self _)]
  cases maxL : lhs.scn.isMax <;> cases maxR : rhs.scn.isMax <;>
    cases validL : lhs.scn.isValid <;> cases validR : rhs.scn.isValid
  case neg.false.false.true.true =>
    rw [compareScn_of_valid same ⟨maxL, maxR⟩ ⟨validL, validR⟩]
    simp [Leads, maxL, maxR, validL, validR]
  all_goals simp [compareScn, Leads, same, maxL, maxR, validL, validR]

theorem compareScn_neg : compareScn lhs rhs < 0 ↔ rhs.scn.Leads lhs.scn := by
  rw [compareScn_eq]
  split_ifs with ahead behind
  · simpa using not_leads_of_leads ahead
  · simpa using behind
  · simpa using behind

theorem compareScn_eq_zero : compareScn lhs rhs = 0 ↔ ¬ lhs.scn.Leads rhs.scn ∧ ¬ rhs.scn.Leads lhs.scn := by
  rw [compareScn_eq]
  grind

def compareFirst (lhs rhs : PriorityV1) : Int :=
  cascade (zipWith compareKeys lhs.frontKeys rhs.frontKeys ++ [compareScn lhs rhs])

theorem compareInBlacklistFlag_fst (lhs rhs : PriorityV1) : (compareInBlacklistFlag lhs rhs).1 =
      compareKeys (whenClear lhs.isInBlacklist) (whenClear rhs.isInBlacklist) := by
  rw [compareInBlacklistFlag]
  cases lhs.isInBlacklist <;> cases rhs.isInBlacklist <;> rfl

theorem compareInBlacklistFlag_snd : (compareInBlacklistFlag lhs rhs).2 = true ↔ lhs.Printable rhs := by
  rw [compareInBlacklistFlag, Printable]
  grind

theorem compare_eq (lhs rhs : PriorityV1) : lhs.compare rhs =
      if compareFirst lhs rhs ≠ 0 then .ok (compareFirst lhs rhs)
      else if lhs.Printable rhs then
        .ok (cascade (zipWith compareKeys lhs.backKeys rhs.backKeys))
      else .error .sizeOverflow := by
  have first : cascade [compareObserverStopped lhs rhs, compareServerStoppedFlag lhs rhs,
      compareZoneStoppedFlag lhs rhs, compareFatalFailures lhs rhs, compareScn lhs rhs] =
        compareFirst lhs rhs := rfl
  have back : cascade (zipWith compareKeys lhs.backKeys rhs.backKeys) =
      if (compareInBlacklistFlag lhs rhs).1 ≠ 0 then (compareInBlacklistFlag lhs rhs).1
      else cascade [compareManualLeaderFlag lhs rhs, comparePrimaryRegion lhs rhs,
        compareSeriousFailures lhs rhs, compareZonePriority lhs rhs] := by
    rw [compareInBlacklistFlag_fst]
    rfl
  rw [compare, first, back]
  simp only [compareInBlacklistFlag_snd]
  split_ifs with early decided printable printable
  · rfl
  · rfl
  · rfl
  · rfl
  · -- Equal flags print nothing.
    rw [compareInBlacklistFlag_fst, ne_eq, not_not, compareKeys_eq_zero] at decided
    refine absurd (.inl ?_) printable
    cases mine : lhs.isInBlacklist <;> cases yours : rhs.isInBlacklist <;>
      simp_all [whenClear]

theorem compareFirst_neg :
    compareFirst lhs rhs < 0 ↔ lhs.frontKeys < rhs.frontKeys ∨ lhs.frontKeys = rhs.frontKeys ∧ rhs.scn.Leads lhs.scn := by
  have keys : lhs.frontKeys.length = rhs.frontKeys.length := rfl
  obtain ⟨less, same⟩ := cascade_compareKeys keys
  rw [compareFirst, cascade_append, cascade_singleton, ← less, ← same, ← compareScn_neg]
  omega

theorem compareFirst_eq_zero :
    compareFirst lhs rhs = 0 ↔ lhs.frontKeys = rhs.frontKeys ∧ ¬ lhs.scn.Leads rhs.scn ∧ ¬ rhs.scn.Leads lhs.scn := by
  rw [compareFirst, cascade_append, cascade_singleton, ← (cascade_compareKeys (by rfl)).2, ← compareScn_eq_zero]
  omega

end PriorityV1

namespace Candidate

variable {n : Nat} (comparing : Comparing) (candidate : Candidate n)

def compared : Option PriorityV1 :=
  match comparing with
  | .ipPortOnly => none
  | .priorities => candidate.priority.filter PriorityV1.isValid

def versionKeys (version : LogConfigVersion) : List Int :=
  if version.isValid then [1, version.proposalId, version.configSeq] else [0, 0, 0]

abbrev version : List Int := versionKeys candidate.msg.membershipVersion

def priorityFront : Option PriorityV1 → List Int
  | none => [0, 0, 0, 0, 0]
  | some priority => 1 :: priority.frontKeys

def priorityBack : Option PriorityV1 → List Int
  | none => [0, 0, 0, 0, 0]
  | some priority => priority.backKeys

/-- The criteria before the SCN: membership version, seed, whether there is a priority, and those of
the priority. -/
def front : List Int :=
  versionKeys candidate.msg.membershipVersion ++
    -(candidate.innerPrioritySeed : Int) :: PriorityV1.whenSet candidate.priority.isSome ::
      priorityFront (candidate.compared comparing)

/-- The criteria after the SCN: those of the priority, and the address. -/
def back : List Int :=
  priorityBack (candidate.compared comparing) ++ [-(candidate.msg.sender : Int)]

/-- A relation of the priorities, if both are compared. -/
def Both (relation : PriorityV1 → PriorityV1 → Prop) (comparing : Comparing)
    (candidate other : Candidate n) : Prop :=
  ∃ priority ∈ candidate.compared comparing, ∃ priority' ∈ other.compared comparing,
    relation priority priority'

/-- A candidate that is better than the other one by the criteria before the SCN, or equal in these
and ahead in the SCN, or also not behind in the SCN and better by the criteria after it. -/
def Dominates (candidate other : Candidate n) : Prop :=
  other.front comparing < candidate.front comparing ∨
    other.front comparing = candidate.front comparing ∧
      (Both (fun p q => p.scn.Leads q.scn) comparing candidate other ∨
        ¬ Both (fun p q => p.scn.Leads q.scn) comparing other candidate ∧
          other.back comparing < candidate.back comparing ∧
          ¬ Both (fun p q => ¬ p.Printable q) comparing candidate other)

section

variable (version other : LogConfigVersion)

theorem lt_iff_versionKeys : version.lt other = true ↔ versionKeys version < versionKeys other := by
  rw [LogConfigVersion.lt, versionKeys, versionKeys]
  cases version.isValid <;> cases other.isValid <;> simp [List.cons_lt_cons_iff]

theorem gt_iff_versionKeys : version.gt other = true ↔ versionKeys other < versionKeys version := by
  have same : version.gt other = other.lt version := by
    simp only [LogConfigVersion.gt, LogConfigVersion.lt, GT.gt, @eq_comm _ version.proposalId]
  rw [same, lt_iff_versionKeys]

theorem versionKeys_length : (versionKeys version).length = (versionKeys other).length := by
  rw [versionKeys, versionKeys]
  cases version.isValid <;> cases other.isValid <;> rfl

end

section

variable {comparing : Comparing} {lhs rhs : Candidate n}

theorem front_lt_iff : lhs.front comparing < rhs.front comparing ↔ lhs.version < rhs.version ∨
      lhs.version = rhs.version ∧ (rhs.innerPrioritySeed < lhs.innerPrioritySeed ∨
          lhs.innerPrioritySeed = rhs.innerPrioritySeed ∧
            (PriorityV1.whenSet lhs.priority.isSome < PriorityV1.whenSet rhs.priority.isSome ∨
              PriorityV1.whenSet lhs.priority.isSome = PriorityV1.whenSet rhs.priority.isSome ∧
                priorityFront (lhs.compared comparing) < priorityFront (rhs.compared comparing))) := by
  rw [front, front, append_lt_append_iff (versionKeys_length ..), cons_lt_cons_iff,
    cons_lt_cons_iff, Int.neg_lt_neg_iff, Int.ofNat_lt, Int.neg_inj, Int.ofNat_inj]

theorem front_eq_iff : lhs.front comparing = rhs.front comparing ↔ lhs.version = rhs.version ∧
        lhs.innerPrioritySeed = rhs.innerPrioritySeed ∧
          PriorityV1.whenSet lhs.priority.isSome = PriorityV1.whenSet rhs.priority.isSome ∧
            priorityFront (lhs.compared comparing) = priorityFront (rhs.compared comparing) := by
  rw [front, front, ← Int.ofNat_inj, ← Int.neg_inj, ← List.cons.injEq, ← List.cons.injEq]
  refine ⟨fun same => append_inj same (versionKeys_length ..), ?_⟩
  grind

theorem back_lt_iff
    (length : (priorityBack (lhs.compared comparing)).length = (priorityBack (rhs.compared comparing)).length) :
    lhs.back comparing < rhs.back comparing ↔
      priorityBack (lhs.compared comparing) < priorityBack (rhs.compared comparing) ∨
        priorityBack (lhs.compared comparing) = priorityBack (rhs.compared comparing) ∧
          rhs.msg.sender < lhs.msg.sender := by
  rw [back, back, append_lt_append_iff length]
  simp [cons_lt_cons_iff]

/-- Between candidates that both have a priority, or both none, it is up to those compared. -/
theorem dominates_iff (version : lhs.version = rhs.version) (seed : lhs.innerPrioritySeed = rhs.innerPrioritySeed)
    (present : lhs.priority.isSome = rhs.priority.isSome) :
    rhs.Dominates comparing lhs ↔
      match lhs.compared comparing, rhs.compared comparing with
      | none, none => rhs.msg.sender < lhs.msg.sender
      | none, some _ => True
      | some _, none => False
      | some p, some q =>
        p.frontKeys < q.frontKeys ∨ p.frontKeys = q.frontKeys ∧ (q.scn.Leads p.scn ∨
          ¬ p.scn.Leads q.scn ∧ (p.backKeys < q.backKeys ∨
            p.backKeys = q.backKeys ∧ rhs.msg.sender < lhs.msg.sender) ∧ q.Printable p) := by
  rw [Dominates, front_lt_iff, front_eq_iff]
  cases left : lhs.compared comparing <;> cases right : rhs.compared comparing
  case none.none =>
    rw [back_lt_iff (by rw [left, right])]
    simp [version, seed, present, left, right, Both]
  case some.some =>
    rw [back_lt_iff (by rw [left, right]; rfl)]
    simp [version, seed, present, left, right, Both, priorityFront, priorityBack]
  all_goals simp [version, seed, present, priorityFront, cons_lt_cons_iff]

theorem compare_match_iff (p q : PriorityV1) (smaller : Bool) : (match p.compare q with
      | .error _ => false
      | .ok result => if result < 0 then true else if result = 0 then smaller else false) = true ↔
      p.frontKeys < q.frontKeys ∨ p.frontKeys = q.frontKeys ∧ (q.scn.Leads p.scn ∨
        ¬ p.scn.Leads q.scn ∧ (p.backKeys < q.backKeys ∨
          p.backKeys = q.backKeys ∧ smaller = true) ∧ q.Printable p) := by
  have keys : p.backKeys.length = q.backKeys.length := rfl
  obtain ⟨backLess, backSame⟩ := cascade_compareKeys keys
  rw [PriorityV1.compare_eq]
  by_cases decided : p.compareFirst q = 0
  · -- The criteria up to the SCN do not tell them apart.
    obtain ⟨keys, notAhead, notBehind⟩ := PriorityV1.compareFirst_eq_zero.mp decided
    rw [if_neg (not_not.mpr decided)]
    by_cases printable : p.Printable q
    · rw [if_pos printable]
      simp only [keys, notAhead, notBehind, printable.symm, lt_irrefl, false_or, true_and,
        not_false_eq_true, and_true, ← backLess, ← backSame]
      simp
    · rw [if_neg printable]
      have unprintable : ¬ q.Printable p := fun swapped => printable swapped.symm
      simp [keys, notBehind, unprintable]
  · rw [if_pos decided]
    simp only [if_neg decided]
    by_cases below : p.compareFirst q < 0
    · rw [if_pos below]
      rcases PriorityV1.compareFirst_neg.mp below with less | ⟨keys, leads⟩
      · simp [less]
      · simp [keys, leads]
    · rw [if_neg below]
      have above := mt PriorityV1.compareFirst_neg.mpr below
      have apart := mt PriorityV1.compareFirst_eq_zero.mpr decided
      tauto

theorem compared_of_none (absent : lhs.priority = none) : lhs.compared comparing = none := by
  cases comparing <;> simp [compared, absent]

theorem isRhsMessageHigher_tied (version : lhs.version = rhs.version)
    (seed : lhs.innerPrioritySeed = rhs.innerPrioritySeed) :
    (match lhs.priority, rhs.priority with
      | none, some _ => true
      | none, none => decide (rhs.msg.sender < lhs.msg.sender)
      | some _, none => false
      | some p, some q =>
        match comparing with
        | .ipPortOnly => decide (rhs.msg.sender < lhs.msg.sender)
        | .priorities =>
          match p.compareWith q true with
          | .error _ => false
          | .ok result =>
            if result < 0 then true
            else if result = 0 then decide (rhs.msg.sender < lhs.msg.sender) else false) = true ↔
      rhs.Dominates comparing lhs := by
  cases left : lhs.priority with
  | none =>
    cases right : rhs.priority with
    | none =>
      rw [dominates_iff version seed (by rw [left, right]), compared_of_none left, compared_of_none right]
      exact decide_eq_true_iff
    | some q =>
      refine iff_of_true rfl (.inl (front_lt_iff.mpr (.inr ⟨version, .inr ⟨seed, .inl ?_⟩⟩)))
      rw [left, right]
      exact show (0 : Int) < 1 by decide
  | some p =>
    cases right : rhs.priority with
    | none =>
      refine iff_of_false Bool.false_ne_true ?_
      rw [Dominates, front_lt_iff, front_eq_iff]
      simp [version, seed, left, right, PriorityV1.whenSet]
    | some q =>
      rw [dominates_iff version seed (by rw [left, right]; rfl)]
      cases comparing with
      | ipPortOnly => exact decide_eq_true_iff
      | priorities =>
        cases validP : p.isValid <;> cases validQ : q.isValid
        case true.true =>
          simp only [compared, left, right, filter_some, PriorityV1.compareWith, validP, validQ, if_true,
            Bool.not_true, Bool.and_false, Bool.false_eq_true, if_false, Bool.false_and, compare_match_iff,
            decide_eq_true_iff]
        all_goals simp [compared, left, right, filter_some, PriorityV1.compareWith, validP, validQ]

/-- The comparison of the source is the one above. -/
theorem isRhsMessageHigher_iff (validL : lhs.msg.isValid = true) (validR : rhs.msg.isValid = true) :
    isRhsMessageHigher comparing lhs rhs true = true ↔ rhs.Dominates comparing lhs := by
  have lower := gt_iff_versionKeys lhs.msg.membershipVersion rhs.msg.membershipVersion
  have upper := lt_iff_versionKeys lhs.msg.membershipVersion rhs.msg.membershipVersion
  simp only [isRhsMessageHigher, validL, validR, Bool.not_true, Bool.false_eq_true, if_false, Bool.true_and]
  rcases lt_trichotomy lhs.version rhs.version with less | version | more
  · rw [if_neg (mt lower.mp (lt_asymm less)), if_pos (upper.mpr less)]
    exact iff_of_true rfl (.inl (front_lt_iff.mpr (.inl less)))
  · rw [if_neg (mt lower.mp version.not_gt), if_neg (mt upper.mp version.not_lt)]
    rcases lt_trichotomy lhs.innerPrioritySeed rhs.innerPrioritySeed with less | seed | more
    · rw [if_pos less]
      refine iff_of_false Bool.false_ne_true ?_
      rw [Dominates, front_lt_iff, front_eq_iff]
      simp [version, less.not_gt, less.ne]
    · rw [if_neg seed.not_lt, if_neg seed.not_gt]
      exact isRhsMessageHigher_tied version seed
    · rw [if_neg more.not_gt, if_pos more]
      exact iff_of_true rfl (.inl (front_lt_iff.mpr (.inr ⟨version, .inl more⟩)))
  · rw [if_pos (lower.mpr more)]
    refine iff_of_false Bool.false_ne_true ?_
    rw [Dominates, front_lt_iff, front_eq_iff]
    simp [more.not_gt, more.ne']

theorem Dominates.asymm (dominates : rhs.Dominates comparing lhs) : ¬ lhs.Dominates comparing rhs := by
  rintro (less | ⟨same, rest⟩)
  · rcases dominates with less' | ⟨same', -⟩
    · exact lt_asymm less less'
    · exact less.ne same'.symm
  · rcases dominates with less' | ⟨-, rest'⟩
    · exact less'.ne same.symm
    rcases rest with leads | ⟨behind, back, -⟩
    · rcases rest' with leads' | ⟨behind', -, -⟩
      · obtain ⟨p, hp, q, hq, forward⟩ := leads
        obtain ⟨q', hq', p', hp', backward⟩ := leads'
        cases mem_unique hp hp'
        cases mem_unique hq hq'
        exact PriorityV1.not_leads_of_leads forward backward
      · exact behind' leads
    grind

/-- The selection of the acceptor for valid requests is by the comparison alone. -/
theorem countCandidate_eq {highest : Option (Candidate n)} {req : Candidate n}
    (valid : ∀ old ∈ highest, old.msg.isValid = true) (validReq : req.msg.isValid = true) :
    countCandidate comparing highest req =
      pick (fun old req => isRhsMessageHigher comparing old req true) highest req := by
  cases highest with
  | none => rfl
  | some old =>
    have validOld := valid old rfl
    have higher : isRhsMessageHigher comparing old req true = true ↔ _ := isRhsMessageHigher_iff validOld validReq
    have lower := gt_iff_versionKeys req.msg.membershipVersion old.msg.membershipVersion
    have upper := lt_iff_versionKeys req.msg.membershipVersion old.msg.membershipVersion
    simp only [countCandidate, validOld, Bool.not_true, Bool.false_eq_true, if_false, pick]
    split_ifs with newer wins older wins wins
    · rfl
    · exact absurd (higher.mpr (.inl (front_lt_iff.mpr (.inl (lower.mp newer))))) wins
    · rcases higher.mp wins with less | ⟨same, -⟩
      · rcases front_lt_iff.mp less with less | ⟨same, -⟩
        · exact absurd (upper.mp older) (lt_asymm less)
        · exact absurd (upper.mp older) same.not_gt
      · exact absurd (upper.mp older) (front_eq_iff.mp same).1.not_gt
    · rfl
    · rfl
    · rfl

end

end Candidate

namespace ElectionAcceptor

variable {T : Type} {n : Nat}

/-- A valid prepare request of a candidate that is not ignored, in the given ballot. -/
structure Admitted (impl : ElectionImpl T n) (ballot : Int) (req : Candidate n) : Prop where
  valid : req.msg.isValid = true
  role : req.msg.role = .follower
  ballotNumber : req.msg.ballotNumber = ballot
  version : req.msg.membershipVersion.lt impl.membershipVersion = false

/-- No time window for the ballot, or one above it, has been open. -/
structure Fresh (impl : ElectionImpl T n) (ballot : Int) : Prop where
  ballotNumber : impl.acceptor.ballotNumber ≤ ballot
  window : impl.acceptor.ballotOfTimeWindow < ballot

structure Counting (membershipVersion : LogConfigVersion) (ballot : Int)
    (server : Receiving T n) : Prop where
  version : server.election.membershipVersion = membershipVersion
  ballotNumber : server.election.acceptor.ballotNumber ≤ ballot
  opened : server.election.acceptor.isTimeWindowOpened = true
  window : server.election.acceptor.ballotOfTimeWindow = ballot
  remembered : server.election.acceptor.highestPriorityPrepareReq =
    server.highest.map Candidate.msg
  valid : ∀ old ∈ server.highest, old.msg.isValid = true

section

variable {comparing : Comparing} {env : Surroundings} {now : T} {ballot : Int}

variable {impl : ElectionImpl T n} {req : Candidate n}

theorem onPrepareRequest_admitted {req : PrepareRequestMsg n}
    (version : req.membershipVersion.lt impl.membershipVersion = false) (role : req.role = .follower)
    (above : impl.acceptor.ballotNumber ≤ req.ballotNumber) :
    onPrepareRequest impl env now req = { impl with
        acceptor := countRequest
          (impl.acceptor.openTimeWindow env.rescheduled req.ballotNumber)
          env.requestHigher req } := by
  simp only [onPrepareRequest, version, role, Bool.false_eq_true, if_false, if_neg (Int.not_lt.mpr above)]

theorem countRequest_eq {acceptor : ElectionAcceptor n} {highest : Option (Candidate n)}
    (opened : acceptor.isTimeWindowOpened = true) (window : req.msg.ballotNumber = acceptor.ballotOfTimeWindow)
    (remembered : acceptor.highestPriorityPrepareReq = highest.map Candidate.msg) :
    acceptor.countRequest (highest.any fun old => isRhsMessageHigher comparing old req true) req.msg = { acceptor with
        highestPriorityPrepareReq :=
          (countCandidate comparing highest req).map Candidate.msg } := by
  cases highest with
  | none =>
    rw [map_none] at remembered
    simp [countRequest, opened, window, remembered, countCandidate]
  | some old =>
    rw [map_some] at remembered
    simp only [countRequest, opened, window, remembered, countCandidate, Bool.not_true,
      Bool.false_eq_true, if_false, ne_eq, not_true_eq_false, any_some]
    have unchanged : { acceptor with
        isTimeWindowOpened := true
        highestPriorityPrepareReq := some old.msg } = acceptor := by
      rw [← remembered, ← opened]
    split_ifs
    · rfl
    · rfl
    · exact unchanged.symm
    · rfl
    · exact unchanged.symm

theorem receive_fresh (comparing : Comparing) (now : T) (opens : env.rescheduled = true)
    (fresh : Fresh impl ballot) (admitted : Admitted impl ballot req) :
    Counting impl.membershipVersion ballot (receive comparing env now ⟨impl, none⟩ req) ∧
      (receive comparing env now ⟨impl, none⟩ req).highest = some req := by
  have opened : impl.acceptor.openTimeWindow true ballot = { impl.acceptor with
        ballotOfTimeWindow := ballot
        highestPriorityPrepareReq := none
        isTimeWindowOpened := true } := by
    have newer := fresh.window
    cases was : impl.acceptor.isTimeWindowOpened <;>
      simp [openTimeWindow, resetTimeWindowStates, was, newer]
  have above : impl.acceptor.ballotNumber ≤ req.msg.ballotNumber := admitted.ballotNumber ▸ fresh.ballotNumber
  have step : receive comparing env now ⟨impl, none⟩ req = ⟨{ impl with
        acceptor :=
          { impl.acceptor with
            ballotOfTimeWindow := ballot
            highestPriorityPrepareReq := some req.msg
            isTimeWindowOpened := true } }, some req⟩ := by
    rw [receive, onPrepareRequest_admitted admitted.version admitted.role above, opens, admitted.ballotNumber, opened]
    simp [countRequest, admitted.ballotNumber, countCandidate]
  rw [step]
  refine ⟨⟨rfl, fresh.ballotNumber, rfl, rfl, rfl, ?_⟩, rfl⟩
  rintro old ⟨⟩
  exact admitted.valid

theorem Counting.receive {server : Receiving T n} (counting : Counting impl.membershipVersion ballot server)
    (comparing : Comparing) (env : Surroundings) (now : T) (admitted : Admitted impl ballot req) :
    Counting impl.membershipVersion ballot (ElectionAcceptor.receive comparing env now server req) ∧
      (ElectionAcceptor.receive comparing env now server req).highest =
        pick (fun old req => isRhsMessageHigher comparing old req true) server.highest req := by
  have above : server.election.acceptor.ballotNumber ≤ req.msg.ballotNumber :=
    admitted.ballotNumber ▸ counting.ballotNumber
  have version : req.msg.membershipVersion.lt server.election.membershipVersion = false := by
    rw [counting.version]
    exact admitted.version
  have opened : server.election.acceptor.openTimeWindow env.rescheduled
      req.msg.ballotNumber = server.election.acceptor := by
    simp [openTimeWindow, counting.window, admitted.ballotNumber, counting.opened]
  have chosen : countCandidate comparing server.highest req = _ :=
    Candidate.countCandidate_eq counting.valid admitted.valid
  have step : ElectionAcceptor.receive comparing env now server req = ⟨{ server.election with
        acceptor :=
          { server.election.acceptor with
            highestPriorityPrepareReq :=
              (countCandidate comparing server.highest req).map Candidate.msg } },
      countCandidate comparing server.highest req⟩ := by
    rw [ElectionAcceptor.receive, onPrepareRequest_admitted version admitted.role above, opened,
      countRequest_eq counting.opened (admitted.ballotNumber.trans counting.window.symm) counting.remembered]
  rw [step]
  refine ⟨⟨counting.version, counting.ballotNumber, counting.opened, counting.window, rfl, ?_⟩, chosen⟩
  intro old picked
  have picked : old ∈ countCandidate comparing server.highest req := picked
  rw [chosen] at picked
  rcases mem_of_mem_pick picked with rfl | was
  · exact admitted.valid
  · exact counting.valid old was

theorem highestAfter_eq {requests : List (Candidate n)} (opens : env.rescheduled = true)
    (fresh : Fresh impl ballot) (admitted : ∀ req ∈ requests, Admitted impl ballot req)
    (some_req : requests ≠ []) :
    highestAfter comparing env now impl requests =
      (select (fun old req => isRhsMessageHigher comparing old req true) requests).map Candidate.msg := by
  -- Once the window is open, the invariant and the selection go along with each other.
  have run : ∀ (requests : List (Candidate n)) (server : Receiving T n), (∀ req ∈ requests, Admitted impl ballot req) →
      Counting impl.membershipVersion ballot server →
      (requests.foldl (receive comparing env now) server).election.acceptor.highestPriorityPrepareReq =
        (requests.foldl (pick fun old req => isRhsMessageHigher comparing old req true)
          server.highest).map Candidate.msg := by
    intro requests
    induction requests with
    | nil => exact fun server _ counting => counting.remembered
    | cons req requests ih =>
      intro server admitted counting
      obtain ⟨counting', chosen⟩ := counting.receive comparing env now (admitted req (mem_cons_self ..))
      grind
  cases requests with
  | nil => exact absurd rfl some_req
  | cons req requests =>
    obtain ⟨counting, first⟩ := receive_fresh comparing now opens fresh (admitted req (mem_cons_self ..))
    rw [highestAfter, foldl_cons, run requests _
      (fun other member => admitted other (mem_cons_of_mem _ member)) counting, first, select,
      foldl_cons]
    rfl

/-- The vote does not depend on the order of arrival exactly if one request dominates all others. -/
theorem highestAfter_perm_iff (comparing : Comparing) (surroundings : Surroundings) (now : T)
    (election : ElectionImpl T n) (ballot : Int) (requests : List (Candidate n))
    (opens : surroundings.rescheduled = true) (fresh : Fresh election ballot)
    (admitted : ∀ req ∈ requests, Admitted election ballot req)
    (senders : (requests.map fun req => req.msg.sender).Nodup) :
    (∀ order : List (Candidate n), order.Perm requests →
      highestAfter comparing surroundings now election order =
        highestAfter comparing surroundings now election requests) ↔
      requests = [] ∨ ∃ winner ∈ requests, ∀ other ∈ requests, other ≠ winner →
        winner.Dominates comparing other := by
  have higher : ∀ old ∈ requests, ∀ req ∈ requests,
      isRhsMessageHigher comparing old req true = true ↔ req.Dominates comparing old :=
    fun old member req member' =>
      Candidate.isRhsMessageHigher_iff (admitted old member).valid (admitted req member').valid
  have asymm : ∀ a ∈ requests, ∀ b ∈ requests, isRhsMessageHigher comparing a b true = true →
      ¬ isRhsMessageHigher comparing b a true = true := by
    intro a ha b hb wins
    rw [higher b hb a ha]
    exact ((higher a ha b hb).mp wins).asymm
  have independent := select_perm_iff (senders.of_map _) asymm
  by_cases none_at_all : requests = []
  · subst none_at_all
    refine iff_of_true (fun order perm => ?_) (.inl rfl)
    rw [perm.eq_nil]
  · -- Requests with different senders differ, so the message tells which one was selected.
    have distinct : ∀ a ∈ requests, ∀ b ∈ requests, a.msg = b.msg → a = b :=
      fun a ha b hb same =>
        inj_on_of_nodup_map senders ha hb (congrArg PrepareRequestMsg.sender same)
    have dominated : (∃ winner ∈ requests, ∀ other ∈ requests, other ≠ winner →
        isRhsMessageHigher comparing other winner true = true) ↔
        ∃ winner ∈ requests, ∀ other ∈ requests, other ≠ winner →
          winner.Dominates comparing other := by
      refine exists_congr fun winner => and_congr_right fun member => ?_
      refine forall₂_congr fun other member' => ?_
      rw [higher other member' winner member]
    rw [← dominated, ← independent]
    refine forall₂_congr fun order perm => ?_
    have order_ne : order ≠ [] := fun nil => none_at_all (nil ▸ perm.symm).eq_nil
    rw [highestAfter_eq opens fresh (fun req member => admitted req (perm.mem_iff.mp member))
      order_ne, highestAfter_eq opens fresh admitted none_at_all]
    obtain ⟨first, inside, selected⟩ := select_mem
      (fun old req => isRhsMessageHigher comparing old req true) order_ne
    obtain ⟨second, inside', selected'⟩ := select_mem
      (fun old req => isRhsMessageHigher comparing old req true) none_at_all
    rw [selected, selected']
    simp only [map_some, Option.some.injEq]
    exact ⟨distinct first (perm.mem_iff.mp inside) second inside', congrArg Candidate.msg⟩

end

/-! Three requests of one ballot whose SCNs are a second and a half apart; the further behind, the
better the zone priority. -/

local instance neZero_four : NeZero 4 := inferInstance

def drifting (sender : Fin 3) (tsNs : Fin (2 ^ 62)) (zonePriority : Int) : Candidate 3 where
  msg := ⟨sender, 1, 7, ⟨1, 1⟩, .follower⟩
  innerPrioritySeed := 0
  priority := some
    { isValid := true
      isObserverStopped := false
      isServerStopped := false
      isZoneStopped := false
      fatalFailures := 0
      isPrimaryRegion := true
      seriousFailures := 0
      scn := ⟨0, tsNs⟩
      isInBlacklist := false
      inBlacklistReason := []
      isManualLeader := false
      zonePriority }

def slow : Candidate 3 := drifting 0 1000000000 1

def middle : Candidate 3 := drifting 1 2500000000 2

def fast : Candidate 3 := drifting 2 4000000000 3

def quietServer : ElectionImpl Int 3 := .initial 0 ⟨1, 1⟩ 1 0 0 0

theorem drifting_admitted (sender : Fin 3) (tsNs : Fin (2 ^ 62)) (zonePriority : Int) :
    Admitted quietServer 7 (drifting sender tsNs zonePriority) :=
  ⟨rfl, rfl, rfl, rfl⟩

theorem quietServer_fresh : Fresh quietServer 7 := ⟨by decide, by decide⟩

theorem highestAfter_perm_iff_drifting :
    (∀ order : List (Candidate 3), order.Perm [slow, middle, fast] →
      highestAfter .priorities .calm 0 quietServer order =
        highestAfter .priorities .calm 0 quietServer [slow, middle, fast]) ↔
      [slow, middle, fast] = [] ∨ ∃ winner ∈ [slow, middle, fast],
        ∀ other ∈ [slow, middle, fast], other ≠ winner →
          winner.Dominates .priorities other := by
  refine highestAfter_perm_iff .priorities .calm 0 quietServer 7 _ rfl quietServer_fresh ?_
    (by decide)
  intro req member
  simp only [mem_cons, not_mem_nil, or_false] at member
  rcases member with rfl | rfl | rfl
  · exact drifting_admitted ..
  · exact drifting_admitted ..
  · exact drifting_admitted ..

/-- The order decides which of them gets the vote. -/
theorem order_decides :
    highestAfter .priorities .calm 0 quietServer [slow, middle, fast] = some fast.msg ∧
      highestAfter .priorities .calm 0 quietServer [middle, fast, slow] = some slow.msg ∧
      highestAfter .priorities .calm 0 quietServer [fast, slow, middle] = some middle.msg := by
  decide

end ElectionAcceptor

end IMBridge.Palf.Election
