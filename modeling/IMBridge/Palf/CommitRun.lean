import IMBridge.Palf.CommitQuorum

/-!
Runs of a PALF leader without an arbitration member. The map keeps an entry for each current member,
so a commit can lack a quorum only through the previous configuration.
-/

namespace IMBridge.Palf.PalfLeader

open IMBridge.Lib MemberList List Except
open IMBridge.Lib.Outcome
open LogConfigInfo

/-- A leader whose map has just been reset. The previous configuration and the barrier are
whatever earlier leaders left. -/
structure Start (leader : PalfLeader) : Prop where
  valid : leader.currConfig.isValid = true
  noArb : leader.currConfig.arbitrationMember.isValid = false
  self : leader.mgr.self ∈ leader.currConfig.logSyncMemberlist.servers
  sized : leader.currConfig.Sized
  prevNum : 0 ≤ leader.prevConfig.logSyncReplicaNum
  committed : leader.committedEndLsn ≠ invalidLsn
  flushed : leader.maxFlushedEndLsn ≠ invalidLsn
  unflagged : leader.isChangingConfigWithArb = false
  map : leader.matchLsnMap = leader.resetMatchLsnMap.matchLsnMap

/-- One step of the leader. `allowed` restricts the changes that are requested in a
configuration. -/
inductive Step (allowed : LogConfigInfo → LogConfigChangeArgs → Prop) :
    PalfLeader → PalfLeader → Prop
  | submitted {leader : PalfLeader} {endLsn : LSN} (later : leader.lastSubmitEndLsn < endLsn)
      (valid : endLsn ≠ invalidLsn) : Step allowed leader { leader with lastSubmitEndLsn := endLsn }
  | flushed {leader : PalfLeader} {endLsn : LSN} (submitted : endLsn ≤ leader.lastSubmitEndLsn)
      (valid : endLsn ≠ invalidLsn) : Step allowed leader (leader.afterFlushLog endLsn)
  | acked {leader : PalfLeader} (srcServer : ObAddr) (endLsn : LSN) :
      Step allowed leader (leader.ackLog srcServer endLsn)
  | modeChanged {leader : PalfLeader} (proposalId : Int) :
      Step allowed leader { leader with modeProposalId := proposalId }
  | activated {leader : PalfLeader} (flushed : leader.lastSubmitEndLsn ≤ leader.maxFlushedEndLsn) :
      Step allowed leader leader.toLeaderActive
  | reconfigured {leader next : PalfLeader} {args : LogConfigChangeArgs} {proposalId now : Int}
      {election : Except Err Unit} (type : args.type ≠ .forceSingleMember)
      (requested : allowed leader.currConfig args)
      (appended : leader.appendConfigMeta proposalId now election args = .ok next)
      (noArb : next.currConfig.arbitrationMember.isValid = false) : Step allowed leader next

inductive Reached (allowed : LogConfigInfo → LogConfigChangeArgs → Prop) (first : PalfLeader) :
    PalfLeader → Prop
  | start : Reached allowed first first
  | step {leader next : PalfLeader} (reached : Reached allowed first leader)
      (step : Step allowed leader next) : Reached allowed first next

/-- The states of a run in which `gen_committed_end_lsn_` is called: after a flush, after an
acknowledgement, and in `config_change_update_match_lsn_map`. -/
inductive GenCall (allowed : LogConfigInfo → LogConfigChangeArgs → Prop) (first : PalfLeader) :
    PalfLeader → Prop
  | flushed {leader : PalfLeader} {endLsn : LSN} (reached : Reached allowed first leader)
      (active : leader.isLeaderActive = true) (submitted : endLsn ≤ leader.lastSubmitEndLsn)
      (valid : endLsn ≠ invalidLsn) : GenCall allowed first (leader.recordFlush endLsn)
  | acked {leader recorded : PalfLeader} {srcServer : ObAddr} {endLsn : LSN}
      (reached : Reached allowed first leader) (active : leader.isLeaderActive = true)
      (ack : leader.recordAck srcServer endLsn = some recorded) : GenCall allowed first recorded
  | reconfigured {leader : PalfLeader} {args : LogConfigChangeArgs} {proposalId now : Int}
      {election : Except Err Unit} {new : LogConfigInfoV2} {added removed : MemberList}
      (reached : Reached allowed first leader) (type : args.type ≠ .forceSingleMember)
      (requested : allowed leader.currConfig args)
      (accepted : leader.newConfigInfo proposalId now election args = .ok (some new))
      (noArb : new.config.arbitrationMember.isValid = false)
      (adds : addedMemberlist args = .ok added) (removes : removedMemberlist args = .ok removed) :
      GenCall allowed first ((leader.installConfig new).changeMatchLsnMap added removed)

/-- Only the end of the committed log may differ: it may grow, and it remains valid. -/
def Commits (leader next : PalfLeader) : Prop :=
  ∃ lsn, next = { leader with committedEndLsn := lsn } ∧ leader.committedEndLsn ≤ lsn ∧
    (leader.committedEndLsn ≠ invalidLsn → lsn ≠ invalidLsn)

namespace Commits

theorem refl (leader : PalfLeader) : leader.Commits leader := ⟨_, rfl, le_rfl, id⟩

theorem trans {leader middle next : PalfLeader} (first : leader.Commits middle)
    (second : middle.Commits next) : leader.Commits next := by
  obtain ⟨_, rfl, grows, valid⟩ := first
  obtain ⟨lsn, rfl, stillGrows, stillValid⟩ := second
  exact ⟨lsn, rfl, grows.trans stillGrows, fun before => stillValid (valid before)⟩

variable (leader : PalfLeader)

theorem tryAdvance (endLsn : LSN) : leader.Commits (leader.tryAdvanceCommittedLsn endLsn) := by
  unfold tryAdvanceCommittedLsn
  split
  · exact refl leader
  rename_i valid
  split
  · rename_i later
    exact ⟨endLsn, rfl, later.le, fun _ => valid⟩
  · exact refl leader

theorem gen : leader.Commits leader.genCommittedEndLsn := by
  unfold genCommittedEndLsn
  split
  · split
    · exact refl leader
    · exact tryAdvance leader _
  · exact refl leader

theorem genIfActive : leader.Commits leader.genIfActive := by
  unfold PalfLeader.genIfActive
  split
  · exact gen leader
  · exact refl leader

theorem genWithMemberlist (list : MemberList) (replicaNum : Int) :
    leader.Commits (leader.genCommittedEndLsnWithMemberlist list replicaNum) := by
  unfold genCommittedEndLsnWithMemberlist
  split
  · exact refl leader
  split
  · exact tryAdvance leader _
  · exact refl leader

end Commits

theorem recordAck_eq_some {leader recorded : PalfLeader} {srcServer : ObAddr} {endLsn : LSN}
    (ack : leader.recordAck srcServer endLsn = some recorded) :
    endLsn ≠ invalidLsn ∧ recorded = leader.tryUpdateMatchLsnMap srcServer endLsn := by
  unfold recordAck at ack
  split at ack
  · cases ack
  rename_i valid
  grind

structure Sound (leader : PalfLeader) : Prop where
  valid : leader.currConfig.isValid = true
  self : leader.mgr.self ∈ leader.currConfig.logSyncMemberlist.servers
  sized : leader.currConfig.Sized
  prevNum : 0 ≤ leader.prevConfig.logSyncReplicaNum
  committed : leader.committedEndLsn ≠ invalidLsn
  flushed : leader.maxFlushedEndLsn ≠ invalidLsn
  unflagged : leader.isChangingConfigWithArb = false
  entries : ∀ server lsn, leader.matchLsnMap server = some lsn → lsn ≠ invalidLsn
  present : ∀ server ∈ leader.currConfig.logSyncMemberlist.servers,
    (leader.matchLsnMap server).isSome = true

namespace Sound

variable {leader : PalfLeader}

variable (sound : leader.Sound)
include sound

theorem num_pos : 0 < leader.currConfig.logSyncReplicaNum := by
  have valid := sound.valid
  simp only [LogConfigInfo.isValid, Bool.and_eq_true, decide_eq_true_eq] at valid
  exact valid.1.1.2

theorem unique : leader.currConfig.isAllListUnique = true := by
  have valid := sound.valid
  simp only [LogConfigInfo.isValid, Bool.and_eq_true] at valid
  exact valid.1.1.1.2

theorem tracked : leader.Tracked where
  currNum := sound.num_pos.le
  prevNum := sound.prevNum
  entries := sound.entries
  curr := by
    have majority := sound.sized.membersMajority
    unfold Tracks
    rw [countP_eq_length.mpr sound.present]
    simpa [servers] using majority
  unflagged := sound.unflagged

theorem commits {next : PalfLeader} (commits : leader.Commits next) : next.Sound := by
  obtain ⟨lsn, rfl, -, valid⟩ := commits
  exact { sound with committed := valid sound.committed }

theorem tryUpdate (server : ObAddr) {endLsn : LSN}
    (valid : endLsn ≠ invalidLsn) : (leader.tryUpdateMatchLsnMap server endLsn).Sound := by
  refine { sound with entries := ?_, present := ?_ }
  · intro other lsn entry
    by_cases same : other = server
    · subst same
      simp only [tryUpdateMatchLsnMap, Function.update_self, Option.some.injEq] at entry
      cases old : leader.matchLsnMap other with
      | none =>
        grind
      | some acked =>
        simp only [old] at entry
        split at entry
        · exact entry ▸ valid
        · exact entry ▸ sound.entries other acked old
    · simp only [tryUpdateMatchLsnMap, Function.update_of_ne same] at entry
      exact sound.entries other lsn entry
  · intro other member
    by_cases same : other = server
    · subst same
      simp [tryUpdateMatchLsnMap]
    · simp only [tryUpdateMatchLsnMap, Function.update_of_ne same]
      exact sound.present other member

theorem recordFlush {endLsn : LSN} (valid : endLsn ≠ invalidLsn) : (leader.recordFlush endLsn).Sound := by
  have flushed : max leader.maxFlushedEndLsn endLsn ≠ invalidLsn := by
    rcases max_choice leader.maxFlushedEndLsn endLsn with same | same
    · rw [same]
      exact sound.flushed
    · rwa [same]
  have raised : { leader with maxFlushedEndLsn := max leader.maxFlushedEndLsn endLsn }.Sound :=
    { sound with flushed := flushed }
  exact raised.tryUpdate leader.mgr.self valid

theorem recordAck {srcServer : ObAddr} {endLsn : LSN} {recorded : PalfLeader}
    (ack : leader.recordAck srcServer endLsn = some recorded) : recorded.Sound := by
  obtain ⟨valid, rfl⟩ := recordAck_eq_some ack
  exact sound.tryUpdate srcServer valid

theorem ackLog (srcServer : ObAddr) (endLsn : LSN) : (leader.ackLog srcServer endLsn).Sound := by
  unfold PalfLeader.ackLog
  split
  · rename_i recorded ack
    exact (sound.recordAck ack).commits (.genIfActive _)
  · exact sound

end Sound

theorem resetMatchLsnMap_entries {leader : PalfLeader} (committed : leader.committedEndLsn ≠ invalidLsn)
    (flushed : leader.maxFlushedEndLsn ≠ invalidLsn) (server : ObAddr) (lsn : LSN)
    (entry : leader.resetMatchLsnMap.matchLsnMap server = some lsn) : lsn ≠ invalidLsn := by
  simp only [resetMatchLsnMap] at entry
  grind

theorem resetMatchLsnMap_present (leader : PalfLeader) (server : ObAddr)
    (member : server ∈ leader.currConfig.logSyncMemberlist.servers) :
    (leader.resetMatchLsnMap.matchLsnMap server).isSome = true := by
  simp [resetMatchLsnMap, containsServer_iff.mpr member]

theorem Start.sound {leader : PalfLeader} (start : leader.Start) : leader.Sound where
  valid := start.valid
  self := start.self
  sized := start.sized
  prevNum := start.prevNum
  committed := start.committed
  flushed := start.flushed
  unflagged := start.unflagged
  entries := start.map ▸ resetMatchLsnMap_entries start.committed start.flushed
  present := start.map ▸ resetMatchLsnMap_present leader

theorem Sound.toLeaderActive {leader : PalfLeader} (sound : leader.Sound) : leader.toLeaderActive.Sound := { sound with
    entries := resetMatchLsnMap_entries sound.committed sound.flushed
    present := resetMatchLsnMap_present leader }

theorem newConfigInfo_eq_some {leader : PalfLeader} {proposalId now : Int} {election : Except Err Unit}
    {args : LogConfigChangeArgs} {new : LogConfigInfoV2}
    (accepted : leader.newConfigInfo proposalId now election args = .ok (some new)) :
    leader.mgr.checkConfigChangeArgs now args = .ok false ∧
      leader.mgr.generateNewConfigInfo proposalId now args = .ok new ∧ new.config.isValid = true := by
  unfold newConfigInfo at accepted
  split at accepted
  · cases accepted
  split at accepted
  · cases accepted
  obtain ⟨finished, checked, accepted⟩ := bind_eq_ok.mp accepted
  split at accepted
  · cases accepted
  rename_i unfinished
  rw [Bool.not_eq_true] at unfinished
  obtain ⟨info, generated, accepted⟩ := bind_eq_ok.mp accepted
  obtain ⟨-, -, accepted⟩ := bind_eq_ok.mp accepted
  obtain ⟨-, -, accepted⟩ := bind_eq_ok.mp accepted
  split at accepted
  · rename_i valid
    obtain rfl := Option.some.inj (ok.inj accepted)
    simp only [LogConfigInfoV2.isValid, Bool.and_eq_true] at valid
    grind
  · cases accepted

section Change

variable {leader : PalfLeader} {args : LogConfigChangeArgs} {proposalId now : Int}
  {election : Except Err Unit} {new : LogConfigInfoV2}

theorem Sound.accepted (sound : leader.Sound) (type : args.type ≠ .forceSingleMember)
    (accepted : leader.newConfigInfo proposalId now election args = .ok (some new)) :
    ∃ config version, leader.currConfig.changeLists args = .ok config ∧
      new.config = setVersion version config ∧ config.Sized ∧
      leader.mgr.self ∈ config.logSyncMemberlist.servers := by
  obtain ⟨checked, generated, -⟩ := newConfigInfo_eq_some accepted
  obtain ⟨config, version, changed, setNew, -, sized, self⟩ :=
    LogConfigMgr.accepted_change sound.valid sound.self type checked generated
  exact ⟨config, version, changed, setNew, sized, self⟩

theorem addMember_nil {member : ObMember} (valid : member.server ≠ 0) : addMember [] member = .ok [member] := by
  simp [addMember, ObMember.isValid, valid, maxMemberNumber, containsServer, insertSorted]

theorem containsServer_optional (condition : Bool) {member : ObMember} (server : ObAddr) :
    containsServer (if condition then [member] else []) server = true ↔ condition = true ∧ server = member.server := by
  cases condition with
  | false => simp [containsServer]
  | true =>
    rw [if_pos rfl, containsServer_iff]
    simp [servers]

theorem memberlists_of_changeLists {config : LogConfigInfo}
    (changed : leader.currConfig.changeLists args = .ok config) :
    ∃ added removed, addedMemberlist args = .ok added ∧ removedMemberlist args = .ok removed ∧
      (∀ server, added.containsServer server = true ↔
        args.type.isAddLogSyncMemberList = true ∧ server = args.server.server) ∧
      (∀ server, removed.containsServer server = true ↔
        args.type.isRemoveLogSyncMemberList = true ∧ server = args.server.server) := by
  refine ⟨if args.type.isAddLogSyncMemberList then [args.server] else [],
    if args.type.isRemoveLogSyncMemberList then [args.server] else [], ?_, ?_, ?_, ?_⟩
  · unfold addedMemberlist
    split
    · rename_i adds
      exact addMember_nil (changeLists_server_ne changed (.inl adds))
    · rfl
  · unfold removedMemberlist
    split
    · rename_i removes
      exact addMember_nil (changeLists_server_ne changed (.inr removes))
    · rfl
  · exact fun server => containsServer_optional _ server
  · exact fun server => containsServer_optional _ server

/-- The new members all have entries once the map has been updated. -/
theorem Sound.change (sound : leader.Sound) (type : args.type ≠ .forceSingleMember)
    (accepted : leader.newConfigInfo proposalId now election args = .ok (some new))
    {added removed : MemberList} (adds : addedMemberlist args = .ok added)
    (removes : removedMemberlist args = .ok removed) :
    ((leader.installConfig new).changeMatchLsnMap added removed).Sound := by
  obtain ⟨config, version, changed, setNew, sized, self⟩ := sound.accepted type accepted
  obtain ⟨added', removed', adds', removes', joining, leaving⟩ := memberlists_of_changeLists changed
  obtain rfl := ok.inj (adds.symm.trans adds')
  obtain rfl := ok.inj (removes.symm.trans removes')
  have distinct : leader.currConfig.logSyncMemberlist.servers.Nodup := (nodup_paxosServers sound.unique).of_append_left
  constructor
  case valid => exact (newConfigInfo_eq_some accepted).2.2
  case self =>
    show leader.mgr.self ∈ new.config.logSyncMemberlist.servers
    rwa [setNew]
  case sized =>
    show new.config.Sized
    rw [setNew]
    exact ⟨sized.1, sized.2, sized.3, sized.4⟩
  case prevNum => exact sound.num_pos.le
  case committed => exact sound.committed
  case flushed => exact sound.flushed
  case unflagged => exact sound.unflagged
  case entries =>
    intro server lsn entry
    simp only [changeMatchLsnMap, installConfig] at entry
    split at entry
    · cases entry
    split at entry
    · cases old : leader.matchLsnMap server with
      | none =>
        rw [old] at entry
        exact Option.some.inj entry ▸ (by decide)
      | some acked =>
        rw [old] at entry
        exact Option.some.inj entry ▸ sound.entries server acked old
    · exact sound.entries server lsn entry
  case present =>
    intro server member
    have inNew : server ∈ config.logSyncMemberlist.servers := by
      have : server ∈ new.config.logSyncMemberlist.servers := member
      rwa [setNew] at this
    have kept : removed.containsServer server = false := by
      rw [← Bool.not_eq_true, leaving]
      rintro ⟨leaves, rfl⟩
      exact changeLists_removes changed distinct (separate_of_isAllListUnique sound.unique) leaves inNew
    simp only [changeMatchLsnMap, kept, Bool.false_eq_true, if_false]
    split
    · rfl
    rename_i notAdded
    rw [joining] at notAdded
    rcases changeLists_members changed inNew with old | joins
    · exact sound.present server old
    · exact absurd joins notAdded

theorem Sound.appendConfigMeta_cases (sound : leader.Sound) (type : args.type ≠ .forceSingleMember)
    {next : PalfLeader} (appended : leader.appendConfigMeta proposalId now election args = .ok next)
    (noArb : next.currConfig.arbitrationMember.isValid = false) :
    next = leader ∨ ∃ new added removed, leader.newConfigInfo proposalId now election args = .ok (some new) ∧
      addedMemberlist args = .ok added ∧ removedMemberlist args = .ok removed ∧
      ((leader.installConfig new).changeMatchLsnMap added removed).Commits next := by
  obtain ⟨result, accepted, appended⟩ := bind_eq_ok.mp appended
  cases result with
  | none => exact .inl (ok.inj appended).symm
  | some new =>
    dsimp only at appended
    split at appended
    · rename_i hasArb
      obtain rfl := ok.inj appended
      exact absurd hasArb (by simpa [currConfig, installConfig] using noArb)
    obtain rfl := ok.inj appended
    obtain ⟨config, version, changed, -⟩ := sound.accepted type accepted
    obtain ⟨added, removed, adds, removes, -⟩ := memberlists_of_changeLists changed
    refine .inr ⟨new, added, removed, accepted, adds, removes, ?_⟩
    have updated := Commits.gen ((leader.installConfig new).changeMatchLsnMap added removed)
    simp only [updateMatchLsnMap, adds, removes, configChangeUpdateMatchLsnMap]
    split
    · exact updated.trans (.genWithMemberlist _ _ _)
    · exact updated

end Change

variable {allowed : LogConfigInfo → LogConfigChangeArgs → Prop} {first leader : PalfLeader}

theorem Sound.step {next : PalfLeader} (sound : leader.Sound) (step : Step allowed leader next) :
    next.Sound := by
  cases step with
  | submitted later valid => exact { sound with }
  | flushed submitted valid => exact (sound.recordFlush valid).commits (.genIfActive _)
  | acked srcServer endLsn => exact sound.ackLog srcServer endLsn
  | modeChanged proposalId => exact { sound with }
  | activated flushed => exact sound.toLeaderActive
  | reconfigured type requested appended noArb =>
    rcases sound.appendConfigMeta_cases type appended noArb with
      rfl | ⟨new, added, removed, accepted, adds, removes, commits⟩
    · exact sound
    · exact (sound.change type accepted adds removes).commits commits

theorem Reached.sound (reached : Reached allowed first leader) (start : first.Start) : leader.Sound := by
  induction reached with
  | start => exact start.sound
  | step reached step ih => exact ih.step step

theorem GenCall.sound (call : GenCall allowed first leader) (start : first.Start) : leader.Sound := by
  cases call with
  | flushed reached active submitted valid => exact (reached.sound start).recordFlush valid
  | acked reached active ack => exact (reached.sound start).recordAck ack
  | reconfigured reached type requested accepted noArb adds removes =>
    exact (reached.sound start).change type accepted adds removes

/-- Wherever the commit rule runs, the commit has a quorum behind it exactly if the barrier is
passed, or the map still tracks the previous majority, or a majority of one of the two
configurations has acknowledged the log up to the barrier. -/
theorem genCall_commitsBacked_iff (start : first.Start) (call : GenCall allowed first leader) :
    leader.CommitsBacked ↔
      (leader.isBeforeBarrier = true → leader.Tracks leader.prevConfig ∨
        leader.AckedBy leader.currConfig leader.reconfigBarrier.prevEndLsn ∨
        leader.AckedBy leader.prevConfig leader.reconfigBarrier.prevEndLsn) :=
  commitsBacked_iff (call.sound start).tracked

section KeepsMajority

/-- A change that removes a log-sync member leaves a majority of the replica number in place. -/
def KeepsMajority (config : LogConfigInfo) (args : LogConfigChangeArgs) : Prop :=
  args.type.isRemoveLogSyncMemberList = true →
    config.logSyncReplicaNum / 2 + 2 ≤ (config.logSyncMemberlist.length : Int)

/-- As long as the barrier is not passed, a majority of the previous members is among the current
ones. -/
def Carried (leader : PalfLeader) : Prop :=
  leader.committedEndLsn < leader.reconfigBarrier.prevEndLsn →
    leader.prevConfig.logSyncReplicaNum / 2 + 1 ≤
      (leader.prevConfig.logSyncMemberlist.servers.countP
        leader.currConfig.logSyncMemberlist.containsServer : Int)

theorem Sound.tracks_prev (sound : leader.Sound) (carried : leader.Carried)
    (before : leader.isBeforeBarrier = true) : leader.Tracks leader.prevConfig := by
  have majority := carried (of_decide_eq_true before).1
  have more : leader.prevConfig.logSyncMemberlist.servers.countP leader.currConfig.logSyncMemberlist.containsServer ≤
      leader.prevConfig.logSyncMemberlist.servers.countP (fun server => (leader.matchLsnMap server).isSome) := by
    apply countP_mono_left
    intro server _ current
    exact sound.present server (containsServer_iff.mp current)
  unfold Tracks
  omega

theorem changeLists_carries {config new : LogConfigInfo} {args : LogConfigChangeArgs}
    (changed : config.changeLists args = .ok new) (distinct : config.logSyncMemberlist.servers.Nodup)
    (sized : config.Sized) (keeps : KeepsMajority config args) :
    config.logSyncReplicaNum / 2 + 1 ≤
      (config.logSyncMemberlist.servers.countP new.logSyncMemberlist.containsServer : Int) := by
  have length : config.logSyncMemberlist.servers.length = config.logSyncMemberlist.length := by
    simp [servers]
  cases removes : args.type.isRemoveLogSyncMemberList with
  | false =>
    have all : config.logSyncMemberlist.servers.countP new.logSyncMemberlist.containsServer =
        config.logSyncMemberlist.servers.length := by
      rw [countP_eq_length]
      intro server member
      apply containsServer_iff.mpr
      exact changeLists_keeps changed member (fun left => by simp [removes] at left)
    have majority := sized.membersMajority
    omega
  | true =>
    have room := keeps removes
    have others : config.logSyncMemberlist.servers.countP (fun server => server ≠ args.server.server) ≤
        config.logSyncMemberlist.servers.countP new.logSyncMemberlist.containsServer := by
      apply countP_mono_left
      intro server member differs
      apply containsServer_iff.mpr
      exact changeLists_keeps changed member (fun left => by simp [left.2] at differs)
    have once : config.logSyncMemberlist.servers.count args.server.server ≤ 1 := nodup_iff_count_le_one.mp distinct _
    have split : config.logSyncMemberlist.servers.length = config.logSyncMemberlist.servers.count args.server.server +
          config.logSyncMemberlist.servers.countP (fun server => server ≠ args.server.server) := by
      rw [length_eq_countP_add_countP (fun server => server == args.server.server)]
      simp [count]
    omega

theorem Sound.carries {args : LogConfigChangeArgs} {proposalId now : Int}
    {election : Except Err Unit} {new : LogConfigInfoV2} (sound : leader.Sound)
    (type : args.type ≠ .forceSingleMember) (keeps : KeepsMajority leader.currConfig args)
    (accepted : leader.newConfigInfo proposalId now election args = .ok (some new)) :
    (leader.installConfig new).Carried := by
  obtain ⟨config, version, changed, setNew, -⟩ := sound.accepted type accepted
  intro _
  show leader.currConfig.logSyncReplicaNum / 2 + 1 ≤ (leader.currConfig.logSyncMemberlist.servers.countP
      new.config.logSyncMemberlist.containsServer : Int)
  have carries := changeLists_carries changed (nodup_paxosServers sound.unique).of_append_left sound.sized keeps
  rwa [setNew]

theorem Carried.commits {next : PalfLeader} (carried : leader.Carried) (commits : leader.Commits next) :
    next.Carried := by
  obtain ⟨lsn, rfl, grows, -⟩ := commits
  exact fun before => carried (grows.trans_lt before)

theorem Carried.step {next : PalfLeader} (carried : leader.Carried) (sound : leader.Sound)
    (step : Step KeepsMajority leader next) : next.Carried := by
  cases step with
  | submitted later valid => exact carried
  | @flushed endLsn submitted valid =>
    have recorded : (leader.recordFlush endLsn).Carried := carried
    exact recorded.commits (.genIfActive _)
  | acked srcServer endLsn =>
    unfold ackLog
    split
    · rename_i recorded ack
      obtain ⟨-, rfl⟩ := recordAck_eq_some ack
      have updated : (leader.tryUpdateMatchLsnMap srcServer endLsn).Carried := carried
      exact updated.commits (.genIfActive _)
    · exact carried
  | modeChanged proposalId => exact carried
  | activated flushed => exact carried
  | reconfigured type requested appended noArb =>
    rcases sound.appendConfigMeta_cases type appended noArb with
      rfl | ⟨new, added, removed, accepted, -, -, commits⟩
    · exact carried
    have installed : ((leader.installConfig new).changeMatchLsnMap added removed).Carried :=
      sound.carries type requested accepted
    exact installed.commits commits

theorem Reached.carried (reached : Reached KeepsMajority first leader) (start : first.Start)
    (passed : first.reconfigBarrier.prevEndLsn ≤ first.committedEndLsn) : leader.Carried := by
  induction reached with
  | start => exact fun before => absurd before (not_lt.2 passed)
  | step reached step ih => exact ih.step (reached.sound start) step

/-- As long as no removal takes away the majority of the replica number, every commit of the run
has a quorum behind it. The barrier of a new `LogReconfigBarrier`, the initial position, is passed
from the start; so is one that an earlier term of the leader has committed. -/
theorem commitsBacked_of_keepsMajority (start : first.Start)
    (passed : first.reconfigBarrier.prevEndLsn ≤ first.committedEndLsn)
    (call : GenCall KeepsMajority first leader) : leader.CommitsBacked := by
  have sound := call.sound start
  have carried : leader.Carried := by
    cases call with
    | flushed reached active submitted valid => exact reached.carried start passed
    | acked reached active ack =>
      obtain ⟨-, rfl⟩ := recordAck_eq_some ack
      exact reached.carried start passed
    | reconfigured reached type requested accepted noArb adds removes =>
      exact (reached.sound start).carries type requested accepted
  rw [commitsBacked_iff sound.tracked]
  exact fun before => .inl (sound.tracks_prev carried before)

end KeepsMajority

local instance neZero_lsn : NeZero (2 ^ 64) := inferInstance

def pairConfig : LogConfigInfoV2 where
  version := 1
  config :=
    { logSyncMemberlist := [⟨1, -1, 0⟩, ⟨2, -1, 0⟩]
      logSyncReplicaNum := 2
      arbitrationMember := .none
      learnerlist := []
      degradedLearnerlist := []
      configVersion := ⟨1, 1⟩ }
  lockMeta := ⟨1, invalidLockOwner, .lockNothing, invalidTimestamp⟩

/-- A new leader 1 of the group, in which nothing is committed yet. -/
def newLeader (config : LogConfigInfoV2) : PalfLeader := resetMatchLsnMap
  { mgr := ⟨1, config, 1, true⟩
    prev := config
    checkingBarrier := ⟨initialLsn, invalidProposalId⟩
    reconfigBarrier := ⟨initialLsn, invalidProposalId⟩
    matchLsnMap := fun _ => none
    committedEndLsn := 0
    lastSubmitEndLsn := 0
    maxFlushedEndLsn := 0
    modeProposalId := 1
    isLeaderActive := true
    isChangingConfigWithArb := false }

def pairLeader : PalfLeader := newLeader pairConfig

def removeSecond : LogConfigChangeArgs where
  server := ⟨2, -1, 0⟩
  currMemberList := []
  currReplicaNum := 0
  newReplicaNum := 1
  configVersion := ⟨1, 1⟩
  lockOwner := invalidLockOwner
  lockType := .lockNothing
  type := .removeMember
  addedList := []
  removedList := []

theorem pairLeader_start : pairLeader.Start where
  valid := by decide
  noArb := by decide
  self := by decide
  sized := ⟨by decide, by decide, by decide, by decide⟩
  prevNum := by decide
  committed := by decide
  flushed := by decide
  unflagged := rfl
  map := rfl

def trioConfig : LogConfigInfoV2 :=
  { pairConfig with config := ⟨[⟨1, -1, 0⟩, ⟨2, -1, 0⟩, ⟨3, -1, 0⟩], 3, .none, [], [], ⟨1, 1⟩⟩ }

theorem trioLeader_start : (newLeader trioConfig).Start where
  valid := by decide
  noArb := by decide
  self := by decide
  sized := ⟨by decide, by decide, by decide, by decide⟩
  prevNum := by decide
  committed := by decide
  flushed := by decide
  unflagged := rfl
  map := rfl

def trioAhead : PalfLeader := { newLeader trioConfig with lastSubmitEndLsn := 100 }.afterFlushLog 60

def removeThird : LogConfigChangeArgs := { removeSecond with server := ⟨3, -1, 0⟩, newReplicaNum := 2 }

def trioShrunk : PalfLeader :=
  let new := { pairConfig with config := ⟨[⟨1, -1, 0⟩, ⟨2, -1, 0⟩], 2, .none, [], [], ⟨1, 2⟩⟩ }
  (trioAhead.installConfig new).updateMatchLsnMap removeThird new

theorem trioShrunk_reached : Reached KeepsMajority (newLeader trioConfig) trioShrunk := by
  have submitted : Reached KeepsMajority (newLeader trioConfig) { newLeader trioConfig with lastSubmitEndLsn := 100 } :=
    .step .start (.submitted (by decide) (by decide))
  have flushed : Reached KeepsMajority (newLeader trioConfig) trioAhead :=
    .step submitted (.flushed (by decide) (by decide))
  have accepted : trioAhead.newConfigInfo 1 0 (.ok ()) removeThird =
      .ok (some { pairConfig with config := ⟨[⟨1, -1, 0⟩, ⟨2, -1, 0⟩], 2, .none, [], [], ⟨1, 2⟩⟩ }) := by
    decide
  have appended : trioAhead.appendConfigMeta 1 0 (.ok ()) removeThird = .ok trioShrunk := by
    rw [appendConfigMeta, accepted]
    rfl
  exact .step flushed (.reconfigured (by decide) (fun _ => by decide) appended (by decide))

/-- Server 3 is removed with the log up to 100 submitted; then server 2 acknowledges the bytes that
the leader has flushed, and they are committed below the barrier. -/
theorem trioShrunk_ack_backed :
    (trioShrunk.tryUpdateMatchLsnMap 2 60).CommitsBacked ∧ trioShrunk.reconfigBarrier.prevEndLsn = 100 ∧
      (trioShrunk.tryUpdateMatchLsnMap 2 60).committedEndLsn = 0 ∧
      (trioShrunk.tryUpdateMatchLsnMap 2 60).genCommittedEndLsn.committedEndLsn = 60 := by
  have acked : trioShrunk.recordAck 2 60 = some (trioShrunk.tryUpdateMatchLsnMap 2 60) := by
    rw [recordAck, if_neg (by decide), if_pos (by decide)]
  refine ⟨?_, by decide, by decide, by decide⟩
  exact commitsBacked_of_keepsMajority trioLeader_start (by decide) (.acked trioShrunk_reached (by decide) acked)

def pairLeaderAhead : PalfLeader := { pairLeader with lastSubmitEndLsn := 100 }.afterFlushLog 60

theorem pairLeaderAhead_reached : Reached (fun _ _ => True) pairLeader pairLeaderAhead := by
  have submitted : Reached (fun _ _ => True) pairLeader { pairLeader with lastSubmitEndLsn := 100 } :=
    .step .start (.submitted (by decide) (by decide))
  exact .step submitted (.flushed (by decide) (by decide))

def pairLeaderRemoving : PalfLeader :=
  (pairLeaderAhead.installConfig
    { pairConfig with config := ⟨[⟨1, -1, 0⟩], 1, .none, [], [], ⟨1, 2⟩⟩ }).changeMatchLsnMap
      [] [removeSecond.server]

theorem pairLeaderRemoving_genCall : GenCall (fun _ _ => True) pairLeader pairLeaderRemoving := by
  have accepted : pairLeaderAhead.newConfigInfo 1 0 (.ok ()) removeSecond =
      .ok (some { pairConfig with config := ⟨[⟨1, -1, 0⟩], 1, .none, [], [], ⟨1, 2⟩⟩ }) := by
    decide
  exact .reconfigured pairLeaderAhead_reached (by decide) trivial accepted (by decide) rfl rfl

theorem pairLeaderRemoving_matchLsnMap (server : ObAddr) :
    pairLeaderRemoving.matchLsnMap server = if server = 1 then some 60 else none := by
  obtain ⟨lsn, flushed, -⟩ := Commits.genIfActive ({ pairLeader with lastSubmitEndLsn := 100 }.recordFlush 60)
  simp only [pairLeaderRemoving, pairLeaderAhead, afterFlushLog, flushed]
  by_cases first : server = 1
  · subst first
    rfl
  simp [changeMatchLsnMap, installConfig, recordFlush, tryUpdateMatchLsnMap, pairLeader,
    newLeader, resetMatchLsnMap, currConfig, pairConfig, removeSecond, containsServer, first,
    Ne.symm first]

theorem pairLeaderRemoving_iff :
    pairLeaderRemoving.CommitsBacked ↔
      (pairLeaderRemoving.isBeforeBarrier = true →
        pairLeaderRemoving.Tracks pairLeaderRemoving.prevConfig ∨
        pairLeaderRemoving.AckedBy pairLeaderRemoving.currConfig 100 ∨
        pairLeaderRemoving.AckedBy pairLeaderRemoving.prevConfig 100) :=
  genCall_commitsBacked_iff pairLeader_start pairLeaderRemoving_genCall

/-- Removing server 2 commits the log up to 100, while nobody has acknowledged more than 60. -/
theorem pairLeader_commits_unacked :
    pairLeader.Start ∧ GenCall (fun _ _ => True) pairLeader pairLeaderRemoving ∧
      pairLeaderRemoving.committedEndLsn = 0 ∧
      pairLeaderRemoving.genCommittedEndLsn.committedEndLsn = 100 ∧
      (∀ server lsn, pairLeaderRemoving.matchLsnMap server = some lsn → lsn ≤ 60) ∧
      ¬pairLeaderRemoving.CommitsBacked := by
  have committed : pairLeaderRemoving.genCommittedEndLsn.committedEndLsn = 100 := by decide
  refine ⟨pairLeader_start, pairLeaderRemoving_genCall, by decide, committed, ?_, ?_⟩
  · intro server lsn entry
    rw [pairLeaderRemoving_matchLsnMap] at entry
    split at entry
    · exact (Option.some.inj entry).symm.le
    · cases entry
  · intro backed
    have quorum := backed (by decide)
    rw [committed] at quorum
    revert quorum
    unfold Backed AckedBy
    decide

end IMBridge.Palf.PalfLeader
