import Mathlib.Data.Finset.Lattice.Fold
import Mathlib.Data.Fintype.Card
import IMBridge.Deadlock.LclNode

/-!
A detector that has found its own label sends a message along the wait-for graph; every detector on
the way adds a report of itself, and the first one, when the message comes back to it, calls its
`detect_callback_` with the reports.
-/

namespace IMBridge.Deadlock

/-! ### Reports and messages -/

inductive Role where
  | victim
  | witness
  deriving DecidableEq, Repr

/-- `U` is the type of `user_report_info_`. -/
structure ObDetectorInnerReportInfo (U : Type) where
  binaryKey : UserBinaryKey
  addr : ObAddr
  detectorId : Nat
  reportTime : Int
  createdTime : Int
  eventId : Nat
  role : Role
  startDelay : Int
  priority : ObDetectorPriority
  userReportInfo : U
  deriving DecidableEq, Repr

/-- `dest` is the address to which the message is posted, with `dest_key_`. -/
structure ObDeadLockCollectInfoMessage (U : Type) where
  dest : ObDependencyResource
  collectedInfo : List (ObDetectorInnerReportInfo U)
  deriving DecidableEq, Repr

def ObDetectorPriority.maximal : ObDetectorPriority := ⟨2, 2 ^ 64 - 1⟩

section Priority

variable {U : Type}

/-- One turn of the loop of `if_self_has_lowest_priority_`: the lowest priority so far and its index,
which starts as -1. -/
def lowestPriorityStep (lowest : ObDetectorPriority × Int) (info : ObDetectorInnerReportInfo U × Nat) :
    ObDetectorPriority × Int :=
  if info.1.priority.less lowest.1 then (info.1.priority, info.2) else lowest

def ifSelfHasLowestPriority (collectedInfo : List (ObDetectorInnerReportInfo U)) : Bool :=
  decide ((collectedInfo.zipIdx.foldl lowestPriorityStep (.maximal, -1)).2 = 0)

theorem foldl_lowestPriorityStep_ne_zero {infos : List (ObDetectorInnerReportInfo U)} {start : Nat}
    {lowest : ObDetectorPriority × Int} (behind : 0 < start) (notFirst : lowest.2 ≠ 0) :
    ((infos.zipIdx start).foldl lowestPriorityStep lowest).2 ≠ 0 := by
  induction infos generalizing start lowest with
  | nil => exact notFirst
  | cons info infos ih =>
    rw [List.zipIdx_cons, List.foldl_cons]
    refine ih (Nat.succ_pos start) ?_
    unfold lowestPriorityStep
    grind

theorem foldl_lowestPriorityStep_eq_zero_iff {infos : List (ObDetectorInnerReportInfo U)} {start : Nat}
    {priority : ObDetectorPriority} (behind : 0 < start) :
    ((infos.zipIdx start).foldl lowestPriorityStep (priority, 0)).2 = 0 ↔
      ∀ info ∈ infos, info.priority.less priority = false := by
  induction infos generalizing start with
  | nil => simp
  | cons info infos ih =>
    rw [List.zipIdx_cons, List.foldl_cons, List.forall_mem_cons]
    cases lower : info.priority.less priority with
    | false =>
      rw [lowestPriorityStep, if_neg (by simp [lower]), ih (Nat.succ_pos start)]
      simp
    | true =>
      rw [lowestPriorityStep, if_pos lower]
      refine iff_of_false (foldl_lowestPriorityStep_ne_zero (Nat.succ_pos start) ?_) (by simp)
      dsimp only
      omega

theorem ifSelfHasLowestPriority_cons (first : ObDetectorInnerReportInfo U) (rest : List (ObDetectorInnerReportInfo U)) :
    ifSelfHasLowestPriority (first :: rest) = true ↔
      first.priority.less .maximal = true ∧ ∀ info ∈ rest, info.priority.less first.priority = false := by
  rw [ifSelfHasLowestPriority, decide_eq_true_iff, List.zipIdx_cons, List.foldl_cons]
  cases below : first.priority.less .maximal with
  | true =>
    rw [lowestPriorityStep, if_pos below]
    simp [foldl_lowestPriorityStep_eq_zero_iff]
  | false =>
    rw [lowestPriorityStep, if_neg (by simp [below])]
    exact iff_of_false (foldl_lowestPriorityStep_ne_zero (by simp) (by simp)) (by simp)

end Priority

/-! ### The detector -/

/-- A detector with what only the collection of reports needs; `eventHash` is the hash of its address,
its id and its time of creation. -/
structure Collector where
  node : ObLCLNode
  createdTime : Int
  allowDetectTime : Int
  eventHash : Nat
  autoActivateWhenDetected : Bool

/-- What a detector finds when it handles a message: the clock, what `collect_callback_` reports
(nothing if it fails or the report is not valid) and whether `detect_callback_` succeeds. -/
structure CallbackAnswers (U : Type) where
  realClock : Int
  collected : Option U
  detected : Bool

/-- What handling a message leads to: the detector, the list that `detect_callback_` was called with
and the messages posted. -/
structure CollectResult (U : Type) where
  collector : Collector
  called : Option (List (ObDetectorInnerReportInfo U))
  posted : List (ObDeadLockCollectInfoMessage U)

namespace Collector

variable {U : Type} (collector : Collector) (answers : CallbackAnswers U)
  (collectedInfo : List (ObDetectorInnerReportInfo U))

def isSelf (info : ObDetectorInnerReportInfo U) : Bool :=
  info.addr == collector.node.selfAddr && info.detectorId == collector.node.privateLabel.id

/-- The detector stops waiting for the next one of the cycle, if `auto_activate_when_detected_`. -/
def activatePeer (first : ObDetectorInnerReportInfo U) (rest : List (ObDetectorInnerReportInfo U)) :
    Collector :=
  let peer := rest.head?.getD first
  if collector.autoActivateWhenDetected then
    { collector with
      node := { collector.node with
          blockList := collector.node.blockList.erase ⟨peer.addr, peer.binaryKey⟩ } }
  else collector

/-- `check_and_process_completely_collected_msg_with_lock_`; nothing for `OB_EAGAIN`. -/
def checkAndProcessCompletelyCollectedMsg : Option (CollectResult U) :=
  match collectedInfo with
  | [] => none
  | first :: rest =>
    if collector.isSelf first then
      if !ifSelfHasLowestPriority (first :: rest) then some ⟨collector, none, []⟩
      else if !answers.detected then some ⟨collector, some (first :: rest), []⟩
      else some ⟨collector.activatePeer first rest, some (first :: rest), []⟩
    else none

def checkDeadLoop : Bool := collectedInfo.any collector.isSelf

def generateEventId : Nat :=
  match collectedInfo with
  | [] => collector.eventHash
  | first :: _ => first.eventId

def reportInfo (userReportInfo : U) : ObDetectorInnerReportInfo U where
  binaryKey := collector.node.selfKey
  addr := collector.node.selfAddr
  detectorId := collector.node.privateLabel.id
  reportTime := answers.realClock
  createdTime := collector.createdTime
  eventId := collector.generateEventId collectedInfo
  role := if collectedInfo.isEmpty then .victim else .witness
  startDelay := collector.allowDetectTime - collector.createdTime
  priority := collector.node.privateLabel.priority
  userReportInfo

def broadcastCollected (msg : List (ObDetectorInnerReportInfo U)) : CollectResult U where
  collector := { collector with node := collector.node.removeUnusefulCallback }
  called := none
  posted := collector.node.blocklistSnapshot.map (⟨·, msg⟩)

def processCollectInfoMessage : CollectResult U :=
  match collector.checkAndProcessCompletelyCollectedMsg answers collectedInfo with
  | some result => result
  | none =>
    if collector.checkDeadLoop collectedInfo then ⟨collector, none, []⟩
    else
      match answers.collected with
      | none => ⟨collector, none, []⟩
      | some user =>
        collector.broadcastCollected
          (collectedInfo ++ [collector.reportInfo answers collectedInfo user])

variable {collector collectedInfo}

theorem process_of_isSelf {first : ObDetectorInnerReportInfo U}
    (rest : List (ObDetectorInnerReportInfo U)) (self : collector.isSelf first = true) :
    let result := collector.processCollectInfoMessage answers (first :: rest)
    result.collector.node.identity = collector.node.identity ∧ result.posted = [] ∧ result.called =
        if ifSelfHasLowestPriority (first :: rest) then some (first :: rest) else none := by
  have activated : (collector.activatePeer first rest).node.identity = collector.node.identity := by
    unfold activatePeer
    dsimp only
    split <;> rfl
  simp only [processCollectInfoMessage, checkAndProcessCompletelyCollectedMsg, self, if_true]
  grind

theorem process_of_checkDeadLoop {first : ObDetectorInnerReportInfo U}
    {rest : List (ObDetectorInnerReportInfo U)} (other : collector.isSelf first = false)
    (loop : collector.checkDeadLoop (first :: rest) = true) :
    collector.processCollectInfoMessage answers (first :: rest) = ⟨collector, none, []⟩ := by
  simp [processCollectInfoMessage, checkAndProcessCompletelyCollectedMsg, other, loop]

theorem process_of_new (new : collector.checkDeadLoop collectedInfo = false) :
    collector.processCollectInfoMessage answers collectedInfo =
      match answers.collected with
      | none => ⟨collector, none, []⟩
      | some user => collector.broadcastCollected
          (collectedInfo ++ [collector.reportInfo answers collectedInfo user]) := by
  cases collectedInfo with
  | nil => simp [processCollectInfoMessage, checkAndProcessCompletelyCollectedMsg, new]
  | cons first rest =>
    have other : collector.isSelf first = false := by
      simp only [checkDeadLoop, List.any_cons, Bool.or_eq_false_iff] at new
      exact new.1
    simp [processCollectInfoMessage, checkAndProcessCompletelyCollectedMsg, new, other]

end Collector

end IMBridge.Deadlock
