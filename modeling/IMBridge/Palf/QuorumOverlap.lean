import IMBridge.Lib.Quorum
import IMBridge.Palf.ConfigChange

/-!
Quorums of successive configurations overlap: a change that passes the check alters the paxos list
by at most one server, and the sizes that were checked make two majorities meet.
-/

namespace IMBridge.Palf

open IMBridge.Lib MemberList List LogConfigChangeType
open IMBridge.Lib.Outcome

namespace LogConfigInfo

variable (config : LogConfigInfo)

def paxosServers : List ObAddr :=
  config.logSyncMemberlist.servers ++
    (if config.arbitrationMember.isValid then [config.arbitrationMember.server] else [])

def paxosReplicaNum : Int :=
  if config.arbitrationMember.isValid then config.logSyncReplicaNum + 1 else config.logSyncReplicaNum

/-- The member count is at most the replica number and at least a majority of it, for the log-sync
list and for the paxos list. -/
structure Sized (config : LogConfigInfo) : Prop where
  membersLe : (config.logSyncMemberlist.length : Int) ≤ config.logSyncReplicaNum
  membersMajority : config.logSyncReplicaNum / 2 + 1 ≤ config.logSyncMemberlist.length
  paxosLe : (config.paxosServers.length : Int) ≤ config.paxosReplicaNum
  paxosMajority : config.paxosReplicaNum / 2 + 1 ≤ config.paxosServers.length

structure Separate (config : LogConfigInfo) : Prop where
  degraded : config.logSyncMemberlist.servers.Disjoint config.degradedLearnerlist.servers
  learner : config.logSyncMemberlist.servers.Disjoint config.learnerlist.servers
  learners : config.degradedLearnerlist.servers.Disjoint config.learnerlist.servers

def IsMajority (quorum : Finset ObAddr) : Prop :=
  quorum ⊆ config.paxosServers.toFinset ∧ config.paxosReplicaNum / 2 + 1 ≤ quorum.card

end LogConfigInfo

theorem MemberList.addLearner_eq_ok {list result : MemberList} {learner : ObMember}
    (added : list.addLearner learner = .ok result) :
    result.servers.Perm (learner.server :: list.servers) := by
  unfold addLearner at added
  split at added
  · cases added
  split at added
  · cases added
  split at added
  · cases added
  obtain rfl := Except.ok.inj added
  exact servers_insertSorted list learner

namespace LogConfigInfo

theorem checkListUnique_eq_ok {list serverList result : MemberList}
    (checked : checkListUnique serverList list = .ok result) (distinct : serverList.servers.Nodup) :
    result.servers.Perm (list.servers ++ serverList.servers) ∧ result.servers.Nodup := by
  induction list generalizing serverList with
  | nil =>
    obtain rfl := Except.ok.inj checked
    exact ⟨.refl _, distinct⟩
  | cons member rest ih =>
    unfold checkListUnique at checked
    split at checked
    · cases checked
    rename_i absent
    obtain ⟨joined, added, rest_checked⟩ := bind_eq_ok.mp checked
    have perm := addLearner_eq_ok added
    have fresh : member.server ∉ serverList.servers := fun present =>
      absent (containsServer_iff.mpr present)
    have joinedDistinct : joined.servers.Nodup := perm.nodup_iff.mpr (nodup_cons.mpr ⟨fresh, distinct⟩)
    obtain ⟨all, nodup⟩ := ih rest_checked joinedDistinct
    refine ⟨all.trans ?_, nodup⟩
    calc
      Perm (MemberList.servers rest ++ joined.servers)
          (MemberList.servers rest ++ member.server :: serverList.servers) := perm.append_left _
      Perm _ (member.server :: (MemberList.servers rest ++ serverList.servers)) := perm_middle

variable {config new : LogConfigInfo} {server : ObAddr} {args : LogConfigChangeArgs}

section

variable (unique : config.isAllListUnique = true)
include unique

theorem nodup_of_isAllListUnique :
    (config.learnerlist.servers ++ (config.degradedLearnerlist.servers ++ config.paxosServers)).Nodup := by
  obtain ⟨start, started, same⟩ : ∃ start : MemberList, (if config.arbitrationMember.isValid then
        MemberList.addLearner [] config.arbitrationMember else .ok []) = .ok start ∧
      start.servers = (if config.arbitrationMember.isValid then [config.arbitrationMember.server] else []) := by
    cases valid : config.arbitrationMember.isValid with
    | false => exact ⟨[], rfl, rfl⟩
    | true =>
      refine ⟨[config.arbitrationMember], ?_, rfl⟩
      simp [MemberList.addLearner, valid, maxGlobalLearnerNumber, containsLearner, insertSorted]
  have startDistinct : start.servers.Nodup := by
    rw [same]
    split <;> simp
  obtain ⟨all, checked⟩ := isOk_iff.mp unique
  rw [started, ok_bind] at checked
  obtain ⟨withMembers, first, checked⟩ := bind_eq_ok.mp checked
  obtain ⟨withDegraded, second, third⟩ := bind_eq_ok.mp checked
  obtain ⟨members, membersDistinct⟩ := checkListUnique_eq_ok first startDistinct
  obtain ⟨degraded, degradedDistinct⟩ := checkListUnique_eq_ok second membersDistinct
  obtain ⟨learners, distinct⟩ := checkListUnique_eq_ok third degradedDistinct
  rw [same] at members
  have perm := learners.trans ((degraded.trans (members.append_left _)).append_left _)
  exact perm.nodup_iff.mp distinct

theorem separate_of_isAllListUnique : config.Separate := by
  have distinct := nodup_of_isAllListUnique unique
  obtain ⟨-, rest, learners⟩ := nodup_append'.mp distinct
  obtain ⟨-, -, degraded⟩ := nodup_append'.mp rest
  refine ⟨?_, ?_, ?_⟩
  · intro server member other
    exact degraded other (mem_append_left _ member)
  · intro server member other
    exact learners other (mem_append_right _ (mem_append_left _ member))
  · intro server member other
    exact learners other (mem_append_left _ member)

theorem nodup_paxosServers : config.paxosServers.Nodup := by
  have distinct := nodup_of_isAllListUnique unique
  grind

end

theorem convertToCompleteConfig_eq_ok {paxos learners : MemberList} {replicaNum : Int}
    (converted : config.convertToCompleteConfig = .ok (paxos, replicaNum, learners)) :
    paxos.servers.Perm config.paxosServers ∧ replicaNum = config.paxosReplicaNum := by
  unfold convertToCompleteConfig at converted
  split at converted
  · cases converted
  obtain ⟨normal, -, converted⟩ := bind_eq_ok.mp converted
  obtain ⟨every, -, converted⟩ := bind_eq_ok.mp converted
  split at converted
  · rename_i valid
    obtain ⟨joined, added, result⟩ := bind_eq_ok.mp converted
    obtain ⟨rfl, rfl, -⟩ := Prod.mk.injEq .. ▸ Except.ok.inj result
    refine ⟨?_, by simp [paxosReplicaNum, valid]⟩
    have perm := (addMember_eq_ok added).1
    simpa [paxosServers, valid] using perm.trans (perm_append_singleton _ _).symm
  · rename_i absent
    obtain ⟨rfl, rfl, -⟩ := Prod.mk.injEq .. ▸ Except.ok.inj converted
    simp [paxosServers, paxosReplicaNum, absent]

section Steps

variable {config new : LogConfigInfo} {args : LogConfigChangeArgs}

theorem learners_eq_ok {keeps degrade : Prop} [Decidable keeps] [Decidable degrade]
    {first second : Except Err MemberList}
    (changed : (if keeps then .ok config
      else if degrade then do
        let degraded ← first
        return { config with degradedLearnerlist := degraded }
      else do
        let learners ← second
        return { config with learnerlist := learners }) = .ok new) :
    ∃ learners degraded, new = { config with learnerlist := learners, degradedLearnerlist := degraded } := by
  split at changed
  · exact ⟨_, _, (Except.ok.inj changed).symm⟩
  split at changed
  · obtain ⟨degraded, -, result⟩ := bind_eq_ok.mp changed
    exact ⟨_, degraded, (Except.ok.inj result).symm⟩
  · obtain ⟨learners, -, result⟩ := bind_eq_ok.mp changed
    exact ⟨learners, _, (Except.ok.inj result).symm⟩

/-- What a change does to the members and to the arbitration member. -/
inductive Effect (args : LogConfigChangeArgs) (config new : LogConfigInfo) : Prop
  | keeps (noAdd : args.type.isAddLogSyncMemberList = false)
      (noRemove : args.type.isRemoveLogSyncMemberList = false)
      (members : new.logSyncMemberlist = config.logSyncMemberlist)
      (arb : new.arbitrationMember = config.arbitrationMember)
  | adds (type : args.type.isAddLogSyncMemberList = true) (nonzero : args.server.server ≠ 0)
      (perm : new.logSyncMemberlist.servers.Perm
        (args.server.server :: config.logSyncMemberlist.servers))
      (arb : new.arbitrationMember = config.arbitrationMember)
  | removes (type : args.type.isRemoveLogSyncMemberList = true) (nonzero : args.server.server ≠ 0)
      (perm : config.logSyncMemberlist.servers.Perm
        (args.server.server :: new.logSyncMemberlist.servers))
      (arb : new.arbitrationMember = config.arbitrationMember)
  | removesDegraded (type : args.type.isRemoveLogSyncMemberList = true)
      (degraded : config.degradedLearnerlist.containsLearner args.server = true)
      (members : new.logSyncMemberlist = config.logSyncMemberlist)
      (arb : new.arbitrationMember = config.arbitrationMember)
  | addsArb (type : args.type = .addArbMember)
      (members : new.logSyncMemberlist = config.logSyncMemberlist)
      (arb : new.arbitrationMember = args.server)
  | removesArb (type : args.type = .removeArbMember)
      (members : new.logSyncMemberlist = config.logSyncMemberlist)
      (arb : new.arbitrationMember = .none)

variable (changed : config.changeLists args = .ok new)
include changed

theorem changeLists_effect : Effect args config new := by
  obtain ⟨replicaNum, -, changed⟩ := bind_eq_ok.mp changed
  obtain ⟨first, added, changed⟩ := bind_eq_ok.mp changed
  obtain ⟨second, removed, changed⟩ := bind_eq_ok.mp changed
  obtain ⟨third, learned, changed⟩ := bind_eq_ok.mp changed
  obtain ⟨fourth, unlearned, changed⟩ := bind_eq_ok.mp changed
  obtain rfl := Except.ok.inj changed
  obtain ⟨_, _, rfl⟩ := learners_eq_ok learned
  obtain ⟨_, _, rfl⟩ := learners_eq_ok unlearned
  unfold addToMembers at added
  unfold removeFromMembers at removed
  split at added
  next noAdd =>
    obtain rfl := Except.ok.inj added
    simp only [Bool.not_eq_true', isAddMemberList, Bool.or_eq_false_iff] at noAdd
    split at removed
    next noRemove =>
      obtain rfl := Except.ok.inj removed
      simp only [Bool.not_eq_true', isRemoveMemberList, Bool.or_eq_false_iff] at noRemove
      exact .keeps noAdd.1 noRemove.1 rfl rfl
    next removes =>
      split at removed
      next notLogSync =>
        obtain rfl := Except.ok.inj removed
        refine .removesArb ?_ rfl rfl
        revert removes notLogSync
        cases args.type <;> decide
      next logSync =>
        rw [Bool.not_eq_true', Bool.not_eq_false] at logSync
        split at removed
        · obtain ⟨members, left, result⟩ := bind_eq_ok.mp removed
          obtain ⟨perm, nonzero⟩ := removeServer_eq_ok left
          obtain rfl := Except.ok.inj result
          exact .removes logSync nonzero perm rfl
        · split at removed
          · rename_i degraded
            obtain ⟨_, -, result⟩ := bind_eq_ok.mp removed
            obtain rfl := Except.ok.inj result
            exact .removesDegraded logSync degraded rfl rfl
          · cases removed
  next adds =>
    -- a change that adds a server removes none
    obtain rfl : first = second := by
      have noRemove : args.type.isRemoveMemberList = false := by
        revert adds
        cases args.type <;> decide
      simpa [noRemove] using removed
    split at added
    next logSync =>
      obtain ⟨members, joined, result⟩ := bind_eq_ok.mp added
      obtain ⟨perm, nonzero, -⟩ := addMember_eq_ok joined
      obtain rfl := Except.ok.inj result
      exact .adds logSync nonzero perm rfl
    next notLogSync =>
      obtain rfl := Except.ok.inj added
      refine .addsArb ?_ rfl rfl
      revert adds notLogSync
      cases args.type <;> decide

theorem changeLists_members {server : ObAddr} (member : server ∈ new.logSyncMemberlist.servers) :
    server ∈ config.logSyncMemberlist.servers ∨
      (args.type.isAddLogSyncMemberList = true ∧ server = args.server.server) := by
  cases changeLists_effect changed with
  | adds type _ perm =>
    grind
  | removes _ _ perm => exact .inl (perm.mem_iff.mpr (mem_cons_of_mem _ member))
  | keeps _ _ members | removesDegraded _ _ members | addsArb _ members | removesArb _ members =>
    rw [← members]
    exact .inl member

theorem changeLists_removes (distinct : config.logSyncMemberlist.servers.Nodup)
    (apart : config.Separate) (removes : args.type.isRemoveLogSyncMemberList = true) :
    args.server.server ∉ new.logSyncMemberlist.servers := by
  cases changeLists_effect changed with
  | keeps _ noRemove =>
    rw [removes] at noRemove
    cases noRemove
  | adds type =>
    exfalso
    revert type removes
    cases args.type <;> decide
  | removes _ _ perm => exact (nodup_cons.mp (perm.nodup_iff.mp distinct)).1
  | removesDegraded _ degraded members =>
    intro member
    rw [members] at member
    simp only [containsLearner, Bool.and_eq_true, contains_iff_mem] at degraded
    exact apart.degraded member (mem_map_of_mem degraded.2)
  | addsArb type | removesArb type =>
    rw [type] at removes
    exact absurd removes (by decide)

theorem changeLists_server_ne
    (logSync : args.type.isAddLogSyncMemberList = true ∨ args.type.isRemoveLogSyncMemberList = true) :
    args.server.server ≠ 0 := by
  cases changeLists_effect changed with
  | keeps noAdd noRemove => simp [noAdd, noRemove] at logSync
  | adds _ nonzero | removes _ nonzero => exact nonzero
  | removesDegraded _ degraded =>
    simp only [containsLearner, Bool.and_eq_true, ObMember.isValid, decide_eq_true_eq] at degraded
    exact degraded.1
  | addsArb type | removesArb type =>
    rw [type] at logSync
    exact absurd logSync (by decide)

end Steps

/-- The two configurations have the same paxos servers, apart from `server`. -/
def SameApartFrom (server : ObAddr) (config new : LogConfigInfo) : Prop :=
  ∀ other ≠ server, (other ∈ new.paxosServers ↔ other ∈ config.paxosServers)

theorem mem_paxosServers : server ∈ config.paxosServers ↔ server ∈ config.logSyncMemberlist.servers ∨
      (config.arbitrationMember.isValid = true ∧ server = config.arbitrationMember.server) := by
  unfold paxosServers
  split <;> simp_all

/-- A change of the lists keeps the paxos servers apart from the server of the change, as long as an
arbitration member is not replaced by another. -/
theorem changeLists_sameApartFrom (changed : config.changeLists args = .ok new)
    (noArb : args.type = .addArbMember → config.arbitrationMember.isValid = false)
    (sameArb : args.type = .removeArbMember → config.arbitrationMember = args.server) :
    SameApartFrom args.server.server config new := by
  intro other differs
  rw [mem_paxosServers, mem_paxosServers]
  cases changeLists_effect changed with
  | keeps _ _ members arb | removesDegraded _ _ members arb => rw [members, arb]
  | adds _ _ perm arb | removes _ _ perm arb =>
    rw [arb, perm.mem_iff]
    simp [differs]
  | addsArb type members arb =>
    rw [members, arb, noArb type]
    simp [differs]
  | removesArb type members arb =>
    rw [members, arb, sameArb type, show ObMember.none.isValid = false from rfl]
    simp [differs]

theorem changeLists_keeps (changed : config.changeLists args = .ok new)
    (present : server ∈ config.logSyncMemberlist.servers)
    (kept : ¬(args.type.isRemoveLogSyncMemberList = true ∧ server = args.server.server)) :
    server ∈ new.logSyncMemberlist.servers := by
  cases changeLists_effect changed with
  | adds _ _ perm => exact perm.mem_iff.mpr (mem_cons_of_mem _ present)
  | removes type _ perm =>
    grind
  | keeps _ _ members | removesDegraded _ _ members | addsArb _ members | removesArb _ members =>
    rwa [members]

def setVersion (version : LogConfigVersion) (config : LogConfigInfo) : LogConfigInfo :=
  { config with configVersion := version }

def PassesVersion (step : LogConfigInfo → Except Err LogConfigInfo) : Prop :=
  ∀ version config, step (setVersion version config) = (step config).map (setVersion version)

theorem PassesVersion.bind {step next : LogConfigInfo → Except Err LogConfigInfo}
    (first : PassesVersion step) (second : PassesVersion next) :
    PassesVersion (fun config => step config >>= next) := by
  intro version config
  show step (setVersion version config) >>= next = (step config >>= next).map (setVersion version)
  rw [first]
  cases step config with
  | error => rfl
  | ok result => exact second version result

theorem PassesVersion.eq_ok {step : LogConfigInfo → Except Err LogConfigInfo} (passes : PassesVersion step)
    {version : LogConfigVersion} (result : step (setVersion version config) = .ok new) :
    ∃ plain, step config = .ok plain ∧ new = setVersion version plain := by
  rw [passes] at result
  cases unversioned : step config with
  | error err =>
    rw [unversioned] at result
    cases result
  | ok plain =>
    rw [unversioned] at result
    exact ⟨plain, rfl, (Except.ok.inj result).symm⟩

section Version

variable (args : LogConfigChangeArgs)

theorem addToMembers_passesVersion : PassesVersion (·.addToMembers args) := by
  intro version config
  dsimp only
  unfold addToMembers setVersion
  split
  · rfl
  split
  · cases config.logSyncMemberlist.addMember args.server.resetMigrating <;> rfl
  · rfl

theorem removeFromMembers_passesVersion : PassesVersion (·.removeFromMembers args) := by
  intro version config
  dsimp only
  unfold removeFromMembers setVersion
  split
  · rfl
  split
  · rfl
  split
  · cases config.logSyncMemberlist.removeServer args.server.server <;> rfl
  split
  · cases config.degradedLearnerlist.removeLearner args.server <;> rfl
  · rfl

theorem addToLearners_passesVersion : PassesVersion (·.addToLearners args) := by
  intro version config
  dsimp only
  unfold addToLearners setVersion
  split
  · rfl
  split
  · cases config.degradedLearnerlist.addLearner args.server <;> rfl
  cases (if args.type.isUseLists then addLearners config.learnerlist args.addedList
    else config.learnerlist.addLearner args.server) <;> rfl

theorem removeFromLearners_passesVersion : PassesVersion (·.removeFromLearners args) := by
  intro version config
  dsimp only
  unfold removeFromLearners setVersion
  split
  · rfl
  split
  · cases config.degradedLearnerlist.removeLearner args.server <;> rfl
  cases (if args.type.isUseLists then removeLearners config.learnerlist args.removedList
    else config.learnerlist.removeLearner args.server) <;> rfl

theorem changeLists_passesVersion : PassesVersion (·.changeLists args) := by
  intro version config
  have number : (setVersion version config).newLogSyncReplicaNum args = config.newLogSyncReplicaNum args := rfl
  dsimp only
  unfold changeLists
  rw [number]
  cases config.newLogSyncReplicaNum args with
  | error => rfl
  | ok replicaNum =>
    have last : PassesVersion (fun config => pure { config with logSyncReplicaNum := replicaNum }) := fun _ _ => rfl
    exact ((addToMembers_passesVersion args).bind ((removeFromMembers_passesVersion args).bind
      ((addToLearners_passesVersion args).bind ((removeFromLearners_passesVersion args).bind last)))) version config

end Version

theorem changeLists_startWorking (config : LogConfigInfo) (type : args.type = .startWorking) :
    config.changeLists args = .ok config := by
  unfold changeLists newLogSyncReplicaNum addToMembers removeFromMembers addToLearners removeFromLearners
  rw [type]
  rfl

theorem majorities_overlap (same : SameApartFrom server config new) (distinct : config.paxosServers.Nodup)
    (newDistinct : new.paxosServers.Nodup) (sized : config.Sized) (newSized : new.Sized)
    {quorum newQuorum : Finset ObAddr} (majority : config.IsMajority quorum) (newMajority : new.IsMajority newQuorum) :
    (quorum ∩ newQuorum).Nonempty := by
  have grows : new.paxosServers.toFinset ⊆ insert server config.paxosServers.toFinset := by
    intro other member
    by_cases differs : other = server
    · simp [differs]
    · simpa [differs] using (same other differs).mp (mem_toFinset.mp member)
  have shrinks : config.paxosServers.toFinset ⊆ insert server new.paxosServers.toFinset := by
    intro other member
    by_cases differs : other = server
    · simp [differs]
    · simpa [differs] using (same other differs).mpr (mem_toFinset.mp member)
  have fits := sized.paxosLe
  have newFits := newSized.paxosLe
  have size : config.paxosServers.toFinset.card ≤ config.paxosReplicaNum.toNat := by
    rw [toFinset_card_of_nodup distinct]
    omega
  have newSize : new.paxosServers.toFinset.card ≤ new.paxosReplicaNum.toNat := by
    rw [toFinset_card_of_nodup newDistinct]
    omega
  have enough := majority.2
  have newEnough := newMajority.2
  exact Quorum.majorities_meet grows shrinks size newSize majority.1 newMajority.1 (by omega) (by omega)

end LogConfigInfo

namespace LogConfigMgr

open LogConfigInfo

variable {mgr : LogConfigMgr} {args : LogConfigChangeArgs}

theorem generateNewConfigInfo_eq_ok {proposalId now : Int} {new : LogConfigInfoV2}
    (generated : mgr.generateNewConfigInfo proposalId now args = .ok new)
    (valid : mgr.curr.config.isValid = true) (type : args.type ≠ .forceSingleMember) :
    ∃ config version, mgr.curr.config.changeLists args = .ok config ∧
      new.config = setVersion version config ∧ config.isAllListUnique = true := by
  have unique : mgr.curr.config.isAllListUnique = true := by
    simp only [LogConfigInfo.isValid, Bool.and_eq_true] at valid
    exact valid.1.1.1.2
  unfold generateNewConfigInfo at generated
  split at generated
  · cases generated
  obtain ⟨version, -, generated⟩ := bind_eq_ok.mp generated
  split at generated
  · rename_i working
    obtain rfl := Except.ok.inj generated
    exact ⟨_, version, changeLists_startWorking _ working, rfl, unique⟩
  obtain ⟨config, changed, generated⟩ := bind_eq_ok.mp generated
  obtain ⟨lock, -, generated⟩ := bind_eq_ok.mp generated
  dsimp only at generated
  split at generated
  · rename_i newValid
    obtain rfl := Except.ok.inj generated
    obtain ⟨lists, listed, rfl⟩ := (changeLists_passesVersion args).eq_ok changed
    refine ⟨lists, version, listed, rfl, ?_⟩
    simp only [LogConfigInfoV2.isValid, LogConfigInfo.isValid, Bool.and_eq_true] at newValid
    exact newValid.1.2.1.1.1.2
  · cases generated

theorem checkConfigChangeArgs_eq_ok_false {now : Int} (checked : mgr.checkConfigChangeArgs now args = .ok false) :
    ¬(args.type.isRemoveMemberList = true ∧ mgr.self = args.server.server) ∧
      mgr.checkConfigChangeArgsByType args = .ok false ∧ mgr.checkNewConfig now args = .ok false := by
  unfold checkConfigChangeArgs at checked
  dsimp only at checked
  split at checked
  · cases checked
  split at checked
  · cases checked
  rename_i stays
  split at checked
  · cases checked
  split at checked
  · cases checked
  obtain ⟨finished, byType, checked⟩ := bind_eq_ok.mp checked
  split at checked
  · cases checked
  rename_i unfinished
  grind

theorem finishedIf_ne_ok_false (condition : Bool) : finishedIf condition ≠ .ok false := by
  cases condition <;> simp [finishedIf]

theorem noArb_of_checkAddArbMember (type : args.type = .addArbMember)
    (checked : mgr.checkConfigChangeArgsByType args = .ok false) :
    mgr.curr.config.arbitrationMember.isValid = false := by
  obtain ⟨⟨members, replicaNum⟩, -, checked⟩ := bind_eq_ok.mp checked
  simp only [type, checkAddArbMember] at checked
  split at checked
  · cases checked
  split at checked
  · exact absurd checked (finishedIf_ne_ok_false _)
  split at checked
  · cases checked
  rename_i absent
  simpa [standing] using absent

theorem sameArb_of_checkRemoveArbMember (type : args.type = .removeArbMember)
    (checked : mgr.checkConfigChangeArgsByType args = .ok false) :
    mgr.curr.config.arbitrationMember = args.server := by
  obtain ⟨⟨members, replicaNum⟩, -, checked⟩ := bind_eq_ok.mp checked
  simp only [type, checkRemoveArbMember] at checked
  split at checked
  · cases checked
  split at checked
  · exact absurd checked (finishedIf_ne_ok_false _)
  rename_i same
  simpa [standing] using same

theorem canMemberlistMajority_iff {count : Nat} {replicaNum : Int} : canMemberlistMajority count replicaNum = true ↔
      (count : Int) ≤ replicaNum ∧ replicaNum / 2 + 1 ≤ count := by
  unfold canMemberlistMajority
  split
  · rename_i less
    simp only [Bool.false_eq_true, false_iff]
    omega
  rename_i notLess
  grind

/-- The size check is made once the leader stays in the lists. -/
theorem sized_of_checkNewConfig {now : Int} {config : LogConfigInfo}
    (checked : mgr.checkNewConfig now args = .ok false) (valid : mgr.curr.config.isValid = true)
    (type : args.type ≠ .forceSingleMember) (changed : mgr.curr.config.changeLists args = .ok config)
    (leader : mgr.self ∈ config.logSyncMemberlist.servers) : config.Sized := by
  obtain ⟨new, generated, checked⟩ := bind_eq_ok.mp checked
  obtain ⟨⟨paxos, replicaNum, learners⟩, converted, checked⟩ := bind_eq_ok.mp checked
  obtain ⟨same, version, listed, setNew, -⟩ := generateNewConfigInfo_eq_ok generated valid type
  obtain rfl := Except.ok.inj (changed.symm.trans listed)
  rw [setNew] at converted checked
  obtain ⟨perm, rfl⟩ := convertToCompleteConfig_eq_ok converted
  have inMembers : (setVersion version config).logSyncMemberlist.containsServer mgr.self = true :=
    containsServer_iff.mpr leader
  have inPaxos : paxos.containsServer mgr.self = true := by
    rw [containsServer_iff, perm.mem_iff, mem_paxosServers]
    exact .inl leader
  have sizes : paxos.length = (setVersion version config).paxosServers.length := by
    simpa [MemberList.servers] using perm.length_eq
  simp only [inMembers, inPaxos, Bool.not_true, Bool.or_self, Bool.false_eq_true, if_false] at checked
  split at checked
  · cases checked
  rename_i fits
  simp only [Bool.or_eq_true, Bool.not_eq_true', not_or, Bool.not_eq_false, canMemberlistMajority_iff, sizes] at fits
  exact ⟨fits.1.1, fits.1.2, fits.2.1, fits.2.2⟩

theorem accepted_change {checkedAt proposalId now : Int} {new : LogConfigInfoV2}
    (valid : mgr.curr.config.isValid = true)
    (leader : mgr.self ∈ mgr.curr.config.logSyncMemberlist.servers)
    (type : args.type ≠ .forceSingleMember)
    (checked : mgr.checkConfigChangeArgs checkedAt args = .ok false)
    (generated : mgr.generateNewConfigInfo proposalId now args = .ok new) :
    ∃ config version, mgr.curr.config.changeLists args = .ok config ∧
      new.config = setVersion version config ∧ config.isAllListUnique = true ∧ config.Sized ∧
      mgr.self ∈ config.logSyncMemberlist.servers := by
  obtain ⟨stays, byType, newChecked⟩ := checkConfigChangeArgs_eq_ok_false checked
  obtain ⟨config, version, changed, setNew, unique⟩ := generateNewConfigInfo_eq_ok generated valid type
  have leaderKept : mgr.self ∈ config.logSyncMemberlist.servers := by
    apply changeLists_keeps changed leader
    rintro ⟨removes, same⟩
    exact stays ⟨by simp [isRemoveMemberList, removes], same⟩
  have sized : config.Sized := sized_of_checkNewConfig newChecked valid type changed leaderKept
  grind

/-- Every accepted change keeps the sizes and keeps the lists apart, and each majority of the
current paxos list meets each majority of the new one. -/
theorem accepted_change_overlaps {checkedAt proposalId now : Int} {new : LogConfigInfoV2}
    (valid : mgr.curr.config.isValid = true)
    (leader : mgr.curr.config.logSyncMemberlist.containsServer mgr.self = true)
    (sized : mgr.curr.config.Sized) (type : args.type ≠ .forceSingleMember)
    (checked : mgr.checkConfigChangeArgs checkedAt args = .ok false)
    (generated : mgr.generateNewConfigInfo proposalId now args = .ok new) :
    new.config.Sized ∧ new.config.Separate ∧
      ∀ quorum newQuorum, mgr.curr.config.IsMajority quorum → new.config.IsMajority newQuorum →
        (quorum ∩ newQuorum).Nonempty := by
  obtain ⟨-, byType, -⟩ := checkConfigChangeArgs_eq_ok_false checked
  obtain ⟨config, version, changed, setNew, unique, newSized, -⟩ :=
    accepted_change valid (containsServer_iff.mp leader) type checked generated
  have same : SameApartFrom args.server.server mgr.curr.config config :=
    changeLists_sameApartFrom changed (fun add => noArb_of_checkAddArbMember add byType)
      (fun remove => sameArb_of_checkRemoveArbMember remove byType)
  have distinct : mgr.curr.config.paxosServers.Nodup := by
    simp only [LogConfigInfo.isValid, Bool.and_eq_true] at valid
    exact nodup_paxosServers valid.1.1.1.2
  rw [setNew]
  refine ⟨⟨newSized.1, newSized.2, newSized.3, newSized.4⟩, ?_, ?_⟩
  · show (setVersion version config).Separate
    exact separate_of_isAllListUnique unique
  · intro quorum newQuorum majority newMajority
    exact majorities_overlap same distinct (nodup_paxosServers unique) sized newSized majority newMajority

def threeMembers : LogConfigMgr where
  self := 1
  curr :=
    { version := 1
      config :=
        { logSyncMemberlist := [⟨1, -1, 0⟩, ⟨2, -1, 0⟩, ⟨3, -1, 0⟩]
          logSyncReplicaNum := 3
          arbitrationMember := .none
          learnerlist := []
          degradedLearnerlist := []
          configVersion := ⟨1, 1⟩ }
      lockMeta := ⟨1, invalidLockOwner, .lockNothing, invalidTimestamp⟩ }
  proposalId := 1
  isClusterAlready4200 := true

def addFourth : LogConfigChangeArgs where
  server := ⟨4, -1, 0⟩
  currMemberList := []
  currReplicaNum := 0
  newReplicaNum := 4
  configVersion := ⟨1, 1⟩
  lockOwner := invalidLockOwner
  lockType := .lockNothing
  type := .addMember
  addedList := []
  removedList := []

theorem threeMembers_addFourth_overlaps :
    ∃ new, threeMembers.generateNewConfigInfo 1 0 addFourth = .ok new ∧
      new.config.paxosServers = [1, 2, 3, 4] ∧ new.config.Sized ∧ new.config.Separate ∧
      ∀ quorum newQuorum, threeMembers.curr.config.IsMajority quorum →
        new.config.IsMajority newQuorum → (quorum ∩ newQuorum).Nonempty := by
  have sized : threeMembers.curr.config.Sized := ⟨by decide, by decide, by decide, by decide⟩
  have checked : threeMembers.checkConfigChangeArgs 0 addFourth = .ok false := by decide
  obtain ⟨new, generated, servers⟩ : ∃ new,
      threeMembers.generateNewConfigInfo 1 0 addFourth = .ok new ∧
        new.config.paxosServers = [1, 2, 3, 4] := ⟨_, rfl, rfl⟩
  exact ⟨new, generated, servers,
    accepted_change_overlaps (by decide) (by decide) sized (by decide) checked generated⟩

end LogConfigMgr

end IMBridge.Palf
