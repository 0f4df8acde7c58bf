import IMBridge.Palf.QuorumOverlap
import IMBridge.Palf.SlidingWindow

/-!
Which quorum stands behind a commit. The commit rule takes the larger of two majority positions and
cuts it at the barrier. A majority that is not reached is reported as the invalid position, the
largest one, so that the barrier itself is committed.
-/

namespace IMBridge.Palf.PalfLeader

open IMBridge.Lib
open IMBridge.Lib.Outcome
open LogConfigInfo

variable (leader : PalfLeader)

def hasAcked (lsn : LSN) (server : ObAddr) : Bool :=
  ((leader.matchLsnMap server).map (fun acked => decide (lsn ≤ acked))).getD false

/-- A majority of the configuration's log-sync members has acknowledged the log up to `lsn`. -/
def AckedBy (config : LogConfigInfo) (lsn : LSN) : Prop := config.logSyncReplicaNum / 2 + 1 ≤
    (config.logSyncMemberlist.servers.countP (leader.hasAcked lsn) : Int)

/-- The map still has entries for a majority of the configuration's log-sync members. -/
def Tracks (config : LogConfigInfo) : Prop := config.logSyncReplicaNum / 2 + 1 ≤
    (config.logSyncMemberlist.servers.countP (fun server => (leader.matchLsnMap server).isSome) : Int)

/-- The current members stand behind `lsn`, or the previous ones do and it is not above the
barrier. -/
def Backed (lsn : LSN) : Prop := leader.AckedBy leader.currConfig lsn ∨
    (lsn ≤ leader.barrierLsn ∧ leader.AckedBy leader.prevConfig lsn)

def CommitsBacked : Prop := leader.committedEndLsn < leader.genCommittedEndLsn.committedEndLsn →
    leader.Backed leader.genCommittedEndLsn.committedEndLsn

theorem le_invalidLsn (lsn : LSN) : lsn ≤ invalidLsn := by
  show lsn.val ≤ 2 ^ 64 - 1
  omega

section Majority

variable {leader : PalfLeader} {config : LogConfigInfo}

theorem getMajorityLsn_untracked (sized : 0 ≤ config.logSyncReplicaNum) (untracked : ¬leader.Tracks config) :
    leader.getMajorityLsn config.logSyncMemberlist config.logSyncReplicaNum = .ok invalidLsn := by
  unfold Tracks at untracked
  unfold getMajorityLsn
  dsimp only
  rw [Int.tdiv_eq_ediv_of_nonneg sized, List.length_filterMap_eq_countP]
  exact if_pos (by omega)

theorem getMajorityLsn_tracked (sized : 0 ≤ config.logSyncReplicaNum)
    (entries : ∀ server lsn, leader.matchLsnMap server = some lsn → lsn ≠ invalidLsn)
    (tracked : leader.Tracks config) :
    ∃ lsn, leader.getMajorityLsn config.logSyncMemberlist config.logSyncReplicaNum = .ok lsn ∧
      lsn ≠ invalidLsn ∧ ∀ bound, bound ≤ lsn ↔ leader.AckedBy config bound := by
  unfold Tracks at tracked
  rw [← List.length_filterMap_eq_countP] at tracked
  have inside : (config.logSyncReplicaNum / 2).toNat <
      (config.logSyncMemberlist.servers.filterMap leader.matchLsnMap).length := by
    omega
  obtain ⟨lsn, found⟩ := Quorum.exists_kthLargest inside
  have valid : lsn ≠ invalidLsn := by
    obtain ⟨server, -, entry⟩ := List.mem_filterMap.mp (Quorum.kthLargest_mem found)
    exact entries server lsn entry
  refine ⟨lsn, ?_, valid, ?_⟩
  · unfold getMajorityLsn
    grind
  · intro bound
    rw [Quorum.le_kthLargest_iff found bound, List.countP_filterMap]
    unfold AckedBy hasAcked
    omega

end Majority

structure Tracked (leader : PalfLeader) : Prop where
  currNum : 0 ≤ leader.currConfig.logSyncReplicaNum
  prevNum : 0 ≤ leader.prevConfig.logSyncReplicaNum
  entries : ∀ server lsn, leader.matchLsnMap server = some lsn → lsn ≠ invalidLsn
  curr : leader.Tracks leader.currConfig
  unflagged : leader.isChangingConfigWithArb = false

variable {lsn : LSN} {leader : PalfLeader}

theorem genCommittedEndLsn_of_ok (unflagged : leader.isChangingConfigWithArb = false)
    (result : leader.newCommittedEndLsn = .ok lsn) : leader.genCommittedEndLsn = leader.tryAdvanceCommittedLsn lsn := by
  simp [genCommittedEndLsn, result, unflagged]

theorem lt_tryAdvanceCommittedLsn
    (advanced : leader.committedEndLsn < (leader.tryAdvanceCommittedLsn lsn).committedEndLsn) :
    (leader.tryAdvanceCommittedLsn lsn).committedEndLsn = lsn := by
  unfold tryAdvanceCommittedLsn at advanced ⊢
  split
  · rename_i invalid
    grind
  rename_i valid
  split
  · rfl
  rename_i notLater
  grind

theorem commitsBacked_of_result (unflagged : leader.isChangingConfigWithArb = false)
    (result : leader.newCommittedEndLsn = .ok lsn) (backed : leader.Backed lsn) : leader.CommitsBacked := by
  unfold CommitsBacked
  rw [genCommittedEndLsn_of_ok unflagged result]
  intro advanced
  rwa [lt_tryAdvanceCommittedLsn advanced]

variable (tracked : leader.Tracked)
include tracked

theorem commitsBacked_of_not_before (behind : leader.isBeforeBarrier = false) : leader.CommitsBacked := by
  obtain ⟨curr, currOk, -, currAcked⟩ := getMajorityLsn_tracked tracked.currNum tracked.entries tracked.curr
  have result : leader.newCommittedEndLsn = .ok curr := by
    simp [newCommittedEndLsn, currOk, behind]
  exact commitsBacked_of_result tracked.unflagged result (.inl ((currAcked curr).mp le_rfl))

theorem commitsBacked_of_tracks_prev (before : leader.isBeforeBarrier = true)
    (prevTracked : leader.Tracks leader.prevConfig) : leader.CommitsBacked := by
  obtain ⟨curr, currOk, -, currAcked⟩ := getMajorityLsn_tracked tracked.currNum tracked.entries tracked.curr
  obtain ⟨prev, prevOk, -, prevAcked⟩ := getMajorityLsn_tracked tracked.prevNum tracked.entries prevTracked
  have result : leader.newCommittedEndLsn = .ok (min (max prev curr) leader.barrierLsn) := by
    simp [newCommittedEndLsn, currOk, prevOk, before]
  apply commitsBacked_of_result tracked.unflagged result
  rcases le_total prev curr with less | less
  · left
    rw [← currAcked, max_eq_right less]
    exact min_le_left _ _
  · right
    rw [← prevAcked, max_eq_left less]
    exact ⟨min_le_right _ _, min_le_left _ _⟩

theorem genCommittedEndLsn_of_untracked (before : leader.isBeforeBarrier = true)
    (untracked : ¬leader.Tracks leader.prevConfig) :
    leader.genCommittedEndLsn.committedEndLsn = leader.reconfigBarrier.prevEndLsn := by
  obtain ⟨curr, currOk, -, -⟩ := getMajorityLsn_tracked tracked.currNum tracked.entries tracked.curr
  have prevOk := getMajorityLsn_untracked tracked.prevNum untracked
  have barrier : leader.barrierLsn = leader.reconfigBarrier.prevEndLsn := by
    simp [barrierLsn, before]
  have result : leader.newCommittedEndLsn = .ok leader.reconfigBarrier.prevEndLsn := by
    simp [newCommittedEndLsn, currOk, prevOk, before, barrier, max_eq_left (le_invalidLsn curr),
      min_eq_right (le_invalidLsn _)]
  have conditions := of_decide_eq_true before
  rw [genCommittedEndLsn_of_ok tracked.unflagged result, tryAdvanceCommittedLsn,
    if_neg conditions.2.1, if_pos conditions.1]

/-- The exact condition under which a commit has a quorum behind it. -/
theorem commitsBacked_iff : leader.CommitsBacked ↔ (leader.isBeforeBarrier = true → leader.Tracks leader.prevConfig ∨
        leader.AckedBy leader.currConfig leader.reconfigBarrier.prevEndLsn ∨
        leader.AckedBy leader.prevConfig leader.reconfigBarrier.prevEndLsn) := by
  cases before : leader.isBeforeBarrier with
  | false => exact iff_of_true (commitsBacked_of_not_before tracked before) (by simp)
  | true =>
    by_cases prevTracked : leader.Tracks leader.prevConfig
    · exact iff_of_true (commitsBacked_of_tracks_prev tracked before prevTracked) (fun _ => .inl prevTracked)
    have committed := genCommittedEndLsn_of_untracked tracked before prevTracked
    have advances : leader.committedEndLsn < leader.reconfigBarrier.prevEndLsn := (of_decide_eq_true before).1
    have barrier : leader.barrierLsn = leader.reconfigBarrier.prevEndLsn := by
      simp [barrierLsn, before]
    simp [CommitsBacked, Backed, committed, advances, prevTracked, barrier]

end IMBridge.Palf.PalfLeader
