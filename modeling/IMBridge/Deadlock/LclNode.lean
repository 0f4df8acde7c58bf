import Mathlib.Data.Prod.Lex
import Mathlib.Data.List.Basic

/-!
The detector of the lock-chain-length scheme. In the first phase (LCLP) of every period the levels
grow along the edges of the wait-for graph, in the second (LCLS) labels travel along them, and a
detector that gets its own label back is on a cycle.
-/

namespace IMBridge.Deadlock

open List
/-- `ObAddr`, in the order of `ObAddr::operator<`; 0 is the address that is not valid. -/
abbrev ObAddr := Nat

/-- `UserBinaryKey`; 0 is the key that is not valid. -/
abbrev UserBinaryKey := Nat

/-! ### Labels -/

structure ObDetectorPriority where
  priorityRange : Int
  priorityValue : Nat
  deriving DecidableEq, Repr

def ObDetectorPriority.less (lhs rhs : ObDetectorPriority) : Bool :=
  if lhs.priorityRange < rhs.priorityRange then true
  else if lhs.priorityRange = rhs.priorityRange then decide (lhs.priorityValue < rhs.priorityValue)
  else false

structure ObLCLLabel where
  addr : ObAddr
  id : Nat
  priority : ObDetectorPriority
  deriving DecidableEq, Repr

namespace ObLCLLabel

def less (lhs rhs : ObLCLLabel) : Bool :=
  if lhs.priority.less rhs.priority then true
  else if lhs.priority = rhs.priority then
    if lhs.addr < rhs.addr then true
    else if lhs.addr = rhs.addr then decide (lhs.id < rhs.id)
    else false
  else false

def key (label : ObLCLLabel) : Int ×ₗ Nat ×ₗ Nat ×ₗ Nat :=
  toLex (label.priority.priorityRange, toLex (label.priority.priorityValue, toLex (label.addr, label.id)))

theorem key_injective : Function.Injective key := by
  rintro ⟨addr, id, range, value⟩ ⟨addr', id', range', value'⟩ same
  simp only [key, EmbeddingLike.apply_eq_iff_eq, Prod.mk.injEq] at same
  obtain ⟨rfl, rfl, rfl, rfl⟩ := same
  rfl

instance : LinearOrder ObLCLLabel := LinearOrder.lift' key key_injective

theorem lt_iff_key {lhs rhs : ObLCLLabel} : lhs < rhs ↔ lhs.key < rhs.key := Iff.rfl

@[simp] theorem less_eq_true {lhs rhs : ObLCLLabel} : lhs.less rhs = true ↔ lhs < rhs := by
  obtain ⟨addr, id, range, value⟩ := lhs
  obtain ⟨addr', id', range', value'⟩ := rhs
  simp only [lt_iff_key, key, Prod.Lex.toLex_lt_toLex, less, ObDetectorPriority.less, ObDetectorPriority.mk.injEq]
  grind

end ObLCLLabel

/-! ### Messages -/

structure ObDependencyResource where
  addr : ObAddr
  userKey : UserBinaryKey
  deriving DecidableEq, Repr

def ObDependencyResource.isValid (resource : ObDependencyResource) : Bool :=
  resource.addr != 0 && resource.userKey != 0

structure ObLCLMessage where
  dest : ObDependencyResource
  srcAddr : ObAddr
  srcKey : UserBinaryKey
  lclv : UInt64
  label : ObLCLLabel
  sendTs : Nat
  deriving DecidableEq, Repr

/-- `ObLCLMessage::merge`; nothing for `OB_INVALID_ARGUMENT`. The send time stays the one of the
message that was cached first. -/
def ObLCLMessage.merge (msg rhs : ObLCLMessage) : Option ObLCLMessage :=
  if msg.dest ≠ rhs.dest then none
  else if msg.lclv < rhs.lclv then
    some { msg with lclv := rhs.lclv, label := rhs.label, srcKey := rhs.srcKey }
  else if msg.lclv = rhs.lclv ∧ rhs.label.less msg.label then
    some { msg with label := rhs.label, srcKey := rhs.srcKey }
  else some msg

/-! ### The cache of the sender thread -/

def LCL_MSG_CACHE_LIMIT : Nat := 4096

abbrev LclMsgMap := List (ObDependencyResource × ObLCLMessage)

namespace LclMsgMap

/-- `ObLinearHashMap::operate` with `MergeOp`; nothing for `OB_ENTRY_NOT_EXIST`. -/
def operate (msg : ObLCLMessage) (key : ObDependencyResource) : LclMsgMap → Option LclMsgMap
  | [] => none
  | (k, value) :: rest =>
    if k = key then some ((k, (value.merge msg).getD value) :: rest)
    else (operate msg key rest).map ((k, value) :: ·)

variable (map : LclMsgMap)

def insertOrMerge (key : ObDependencyResource) (msg : ObLCLMessage) (canInsert : Bool) :
    LclMsgMap × Bool :=
  match operate msg key map with
  | some merged => (merged, true)
  | none => if canInsert then (map ++ [(key, msg)], true) else (map, false)

/-- `cache_msg`, where `draw` is the number drawn by `distribution_`. -/
def cacheMsg (key : ObDependencyResource) (msg : ObLCLMessage) (draw : Nat) : LclMsgMap × Bool :=
  let msgCount := map.length
  let keepThreshold := LCL_MSG_CACHE_LIMIT / 2
  let canInsert :=
    if msgCount < keepThreshold then true
    else if msgCount < LCL_MSG_CACHE_LIMIT then decide ((msgCount - keepThreshold) * 100 / keepThreshold < draw)
    else false
  map.insertOrMerge key msg canInsert

/-- `remove_if` with `RemoveIfOp`: the messages to post and what stays in the map. -/
def removeIf : List ObLCLMessage × LclMsgMap :=
  ((map.take LCL_MSG_CACHE_LIMIT).map Prod.snd, map.drop LCL_MSG_CACHE_LIMIT)

end LclMsgMap

/-! ### The detector -/

/-- 2 * MAX_CLOCK_DIFF + RANDOM_DELAY_RANGE +
(MAX_MSG_DELAY + SEND_MSG_LIMIT_INTERVAL) * MIN_CYCLY_SIZE_SUPPORTED, in microseconds. -/
def PHASE_TIME : Nat := 2 * (50 * 1000) + 100 * 1000 + (40 * 1000 + 10 * 1000) * 10

def PERIOD : Nat := 2 * PHASE_TIME

theorem phase_half (t : Nat) : t / PERIOD = t / PHASE_TIME / 2 := by
  rw [Nat.div_div_eq_div_mul, PERIOD, Nat.mul_comm]

/-- A callback that reports what its detector waits for: whether it is there, whether the call
succeeds, the resources it hands out and whether it asks to be removed. -/
structure BlockCallBack where
  isValid : Bool
  succeeds : Bool
  resources : List ObDependencyResource
  needRemove : Bool
  deriving DecidableEq, Repr

structure ObLCLNode where
  selfAddr : ObAddr
  selfKey : UserBinaryKey
  lclv : UInt64
  privateLabel : ObLCLLabel
  publicLabel : ObLCLLabel
  blockList : List ObDependencyResource
  blockCallbackList : List BlockCallBack
  lclPeriod : Nat
  lastSendCollectInfoPeriod : Nat
  countDownAllowDetect : Nat
  deriving DecidableEq, Repr

namespace ObLCLNode

def create (selfAddr : ObAddr) (userKey : UserBinaryKey) (resourceId : Nat) (priority : ObDetectorPriority)
    (countDownAllowDetect : Nat) : ObLCLNode where
  selfAddr := selfAddr
  selfKey := userKey
  lclv := 0
  privateLabel := ⟨selfAddr, resourceId, priority⟩
  publicLabel := ⟨selfAddr, resourceId, priority⟩
  blockList := []
  blockCallbackList := []
  lclPeriod := 0
  lastSendCollectInfoPeriod := 0
  countDownAllowDetect := countDownAllowDetect

variable (node : ObLCLNode)

def selfResource : ObDependencyResource := ⟨node.selfAddr, node.selfKey⟩

/-- What one callback adds to the snapshot of the block list. An invalid resource, or the
detector's own, ends the loop over the resources. -/
def callbackResources (callback : BlockCallBack) : List ObDependencyResource :=
  if !callback.isValid then []
  else if !callback.succeeds then []
  else callback.resources.takeWhile fun resource => resource.isValid && resource != node.selfResource

def removeFlag (callback : BlockCallBack) : Bool := callback.isValid && callback.needRemove

def blocklistSnapshot : List ObDependencyResource :=
  node.blockList ++ node.blockCallbackList.flatMap node.callbackResources

/-- What `get_state_snapshot_` does to the detector: `remove_unuseful_callback_`. -/
def removeUnusefulCallback : ObLCLNode :=
  { node with blockCallbackList := node.blockCallbackList.filter fun callback => !removeFlag callback }

variable (now : Nat)

def updateLclPeriod : ObLCLNode :=
  let newPeriod := now / PERIOD
  if node.lclPeriod < newPeriod then { node with lclPeriod := newPeriod, publicLabel := node.privateLabel }
  else node

def ifPhaseMatch (ts : Nat) (msg : ObLCLMessage) : Bool :=
  ts / PHASE_TIME == msg.sendTs / PHASE_TIME

variable (msg : ObLCLMessage)

def processMsgAsLclpMsg : ObLCLNode :=
  if msg.lclv + 1 > node.lclv then { node with lclv := msg.lclv + 1 } else node

structure LclsResult where
  success : Bool
  detectedFlag : Bool
  node : ObLCLNode

def processMsgAsLclsMsg : LclsResult :=
  if msg.lclv ≥ node.lclv then
    let levelled := { node with lclv := msg.lclv }
    if msg.label = levelled.privateLabel then
      if levelled.lastSendCollectInfoPeriod = levelled.lclPeriod then ⟨false, false, levelled⟩
      else ⟨true, true, { levelled with lastSendCollectInfoPeriod := levelled.lclPeriod }⟩
    else if msg.label.less levelled.publicLabel then ⟨true, false, { levelled with publicLabel := msg.label }⟩
    else ⟨true, false, levelled⟩
  else ⟨true, false, node⟩

/-- `process_lcl_message` at the clock reading `now`: the detector and `detected_flag`. -/
def processLclMessage : ObLCLNode × Bool :=
  let current := node.updateLclPeriod now
  if !ifPhaseMatch now msg then (current, false)
  else if now / PHASE_TIME % 2 = 0 then ((current.processMsgAsLclpMsg msg).removeUnusefulCallback, false)
  else
    let result := current.processMsgAsLclsMsg msg
    (if result.success then result.node.removeUnusefulCallback else result.node, result.detectedFlag)

def stateMessage (dest : ObDependencyResource) : ObLCLMessage where
  dest := dest
  srcAddr := node.selfAddr
  srcKey := node.selfKey
  lclv := node.lclv
  label := node.publicLabel
  sendTs := now

/-- `broadcast_`: one call of `cache_msg` per resource, `draws` being the numbers drawn in these
calls. Besides the map it records which of the messages are kept. -/
def broadcast (now : Nat) (draws : Nat → Nat) :
    List ObDependencyResource → LclMsgMap → LclMsgMap × List Bool
  | [], map => (map, [])
  | dest :: rest, map =>
    let cached := map.cacheMsg dest (node.stateMessage now dest) (draws rest.length)
    let others := broadcast now draws rest cached.1
    (others.1, cached.2 :: others.2)

/-- `PushStateTask::runTimerTask` at the clock reading `now`: the period is brought up to date and
`push_state_to_downstreams_with_lock_` broadcasts a snapshot of the state. -/
def runTimerTask (draws : Nat → Nat) (map : LclMsgMap) : ObLCLNode × LclMsgMap × List Bool :=
  let current := node.updateLclPeriod now
  if current.countDownAllowDetect ≠ 0 then (current.removeUnusefulCallback, map, [])
  else (current.removeUnusefulCallback, current.broadcast now draws current.blocklistSnapshot map)

def decCountDownAllowDetect : ObLCLNode :=
  { node with countDownAllowDetect := node.countDownAllowDetect - 1 }

/-! ### What the operations keep -/

def identity : ObAddr × UserBinaryKey × ObLCLLabel := (node.selfAddr, node.selfKey, node.privateLabel)

section Fields

variable {node} {other : ObLCLNode}

section

variable (same : other.identity = node.identity)
include same

theorem selfAddr_of_identity : other.selfAddr = node.selfAddr := congrArg Prod.fst same

theorem selfResource_of_identity : other.selfResource = node.selfResource := by
  simp only [identity, Prod.mk.injEq] at same
  simp only [selfResource, same.1, same.2.1]

theorem privateLabel_of_identity : other.privateLabel = node.privateLabel := congrArg (fun id => id.2.2) same

end

variable (node)

@[simp] theorem removeUnusefulCallback_identity : node.removeUnusefulCallback.identity = node.identity := rfl
@[simp] theorem removeUnusefulCallback_publicLabel : node.removeUnusefulCallback.publicLabel = node.publicLabel := rfl
@[simp] theorem removeUnusefulCallback_lclv : node.removeUnusefulCallback.lclv = node.lclv := rfl
@[simp] theorem removeUnusefulCallback_lclPeriod : node.removeUnusefulCallback.lclPeriod = node.lclPeriod := rfl
@[simp] theorem removeUnusefulCallback_lastSendCollectInfoPeriod :
    node.removeUnusefulCallback.lastSendCollectInfoPeriod = node.lastSendCollectInfoPeriod := rfl
@[simp] theorem removeUnusefulCallback_countDownAllowDetect :
    node.removeUnusefulCallback.countDownAllowDetect = node.countDownAllowDetect := rfl

variable (now : Nat)

theorem updateLclPeriod_eq : node.updateLclPeriod now = { node with
        lclPeriod := max node.lclPeriod (now / PERIOD)
        publicLabel := if node.lclPeriod < now / PERIOD then node.privateLabel else node.publicLabel } := by
  unfold updateLclPeriod
  dsimp only
  split
  next begun => rw [max_eq_right (le_of_lt begun)]
  next notBegun => rw [max_eq_left (not_lt.1 notBegun)]

@[simp] theorem updateLclPeriod_identity : (node.updateLclPeriod now).identity = node.identity := by
  rw [updateLclPeriod_eq]
  rfl

@[simp] theorem updateLclPeriod_lclv : (node.updateLclPeriod now).lclv = node.lclv := by
  rw [updateLclPeriod_eq]

@[simp] theorem updateLclPeriod_lastSendCollectInfoPeriod :
    (node.updateLclPeriod now).lastSendCollectInfoPeriod = node.lastSendCollectInfoPeriod := by
  rw [updateLclPeriod_eq]

@[simp] theorem updateLclPeriod_countDownAllowDetect :
    (node.updateLclPeriod now).countDownAllowDetect = node.countDownAllowDetect := by
  rw [updateLclPeriod_eq]

@[simp] theorem updateLclPeriod_blocklistSnapshot :
    (node.updateLclPeriod now).blocklistSnapshot = node.blocklistSnapshot := by
  rw [updateLclPeriod_eq]
  rfl

theorem updateLclPeriod_privateLabel : (node.updateLclPeriod now).privateLabel = node.privateLabel :=
  privateLabel_of_identity (updateLclPeriod_identity node now)

end Fields

/-! ### The handlers in closed form -/

section Handlers

variable {node} (msg : ObLCLMessage)

theorem processMsgAsLclpMsg_eq : node.processMsgAsLclpMsg msg =
      { node with lclv := if node.lclv < msg.lclv + 1 then msg.lclv + 1 else node.lclv } := by
  unfold processMsgAsLclpMsg
  split <;> simp_all

theorem processMsgAsLclsMsg_node : (node.processMsgAsLclsMsg msg).node = { node with
        lclv := if node.lclv ≤ msg.lclv then msg.lclv else node.lclv
        publicLabel :=
          if node.lclv ≤ msg.lclv ∧ msg.label ≠ node.privateLabel then min node.publicLabel msg.label
          else node.publicLabel
        lastSendCollectInfoPeriod :=
          if node.lclv ≤ msg.lclv ∧ msg.label = node.privateLabel then node.lclPeriod
          else node.lastSendCollectInfoPeriod } := by
  unfold processMsgAsLclsMsg
  dsimp only
  split
  next reached =>
    have le : node.lclv ≤ msg.lclv := reached
    split
    next own =>
      split
      next sent => simp [own, le, sent]
      next => simp [own, le]
    next other =>
      split
      next smaller => simp [other, min_eq_right (le_of_lt (ObLCLLabel.less_eq_true.1 smaller)), le]
      next notSmaller =>
        have kept : node.publicLabel ≤ msg.label := by simpa using notSmaller
        simp [other, min_eq_left kept, le]
  next below =>
    have notLe : ¬node.lclv ≤ msg.lclv := below
    simp [notLe]

theorem processMsgAsLclsMsg_detectedFlag : (node.processMsgAsLclsMsg msg).detectedFlag = true ↔
      node.lclv ≤ msg.lclv ∧ msg.label = node.privateLabel ∧ node.lastSendCollectInfoPeriod ≠ node.lclPeriod := by
  unfold processMsgAsLclsMsg
  dsimp only
  split_ifs <;> simp_all

variable (now : Nat)

variable (node) in
theorem processLclMessage_identity : (node.processLclMessage now msg).1.identity = node.identity := by
  unfold processLclMessage
  dsimp only
  split_ifs <;>
    simp only [removeUnusefulCallback_identity, processMsgAsLclpMsg_eq, processMsgAsLclsMsg_node] <;>
    exact updateLclPeriod_identity node now

theorem processLclMessage_lclPeriod :
    (node.processLclMessage now msg).1.lclPeriod = (node.updateLclPeriod now).lclPeriod := by
  unfold processLclMessage
  dsimp only
  split_ifs <;>
    simp only [removeUnusefulCallback_lclPeriod, processMsgAsLclpMsg_eq, processMsgAsLclsMsg_node]

theorem processLclMessage_lclp (phase : ifPhaseMatch now msg = true) (even : now / PHASE_TIME % 2 = 0) :
    node.processLclMessage now msg =
      (((node.updateLclPeriod now).processMsgAsLclpMsg msg).removeUnusefulCallback, false) := by
  simp [processLclMessage, phase, even]

variable (node) in
theorem processLclMessage_lcls (phase : ifPhaseMatch now msg = true) (odd : now / PHASE_TIME % 2 ≠ 0) :
    (node.processLclMessage now msg).2 = ((node.updateLclPeriod now).processMsgAsLclsMsg msg).detectedFlag ∧
      ((node.processLclMessage now msg).1 = ((node.updateLclPeriod now).processMsgAsLclsMsg msg).node ∨
        (node.processLclMessage now msg).1 =
          ((node.updateLclPeriod now).processMsgAsLclsMsg msg).node.removeUnusefulCallback) := by
  unfold processLclMessage
  grind

variable (node) in
/-- The public label stays, or it becomes the smaller one of a message of the same phase. -/
theorem processLclMessage_publicLabel :
    (node.processLclMessage now msg).1.publicLabel = (node.updateLclPeriod now).publicLabel ∨
      ifPhaseMatch now msg = true ∧ (node.processLclMessage now msg).1.publicLabel = msg.label ∧
        msg.label < (node.updateLclPeriod now).publicLabel := by
  by_cases phase : ifPhaseMatch now msg = true
  swap
  · left
    simp [processLclMessage, phase]
  by_cases even : now / PHASE_TIME % 2 = 0
  · left
    rw [processLclMessage_lclp msg now phase even, removeUnusefulCallback_publicLabel, processMsgAsLclpMsg_eq]
  have label : (node.processLclMessage now msg).1.publicLabel =
      ((node.updateLclPeriod now).processMsgAsLclsMsg msg).node.publicLabel := by
    rcases (processLclMessage_lcls node msg now phase even).2 with same | same <;> rw [same]
    rw [removeUnusefulCallback_publicLabel]
  rw [label, processMsgAsLclsMsg_node]
  dsimp only
  split
  next =>
    grind
  next => exact Or.inl rfl

theorem of_detected {now : Nat} {msg : ObLCLMessage} (detected : (node.processLclMessage now msg).2 = true) :
    ifPhaseMatch now msg = true ∧ msg.label = node.privateLabel ∧
      node.lastSendCollectInfoPeriod ≠ (node.updateLclPeriod now).lclPeriod := by
  by_cases phase : ifPhaseMatch now msg = true
  swap
  · simp [processLclMessage, phase] at detected
  by_cases even : now / PHASE_TIME % 2 = 0
  · simp [processLclMessage_lclp msg now phase even] at detected
  rw [(processLclMessage_lcls node msg now phase even).1, processMsgAsLclsMsg_detectedFlag,
    updateLclPeriod_lastSendCollectInfoPeriod] at detected
  exact ⟨phase, detected.2.1.trans (updateLclPeriod_privateLabel node now), detected.2.2⟩

theorem period_eq_of_ifPhaseMatch {now : Nat} {msg : ObLCLMessage} (phase : ifPhaseMatch now msg = true) :
    now / PERIOD = msg.sendTs / PERIOD := by
  have same : now / PHASE_TIME = msg.sendTs / PHASE_TIME := by simpa [ifPhaseMatch] using phase
  rw [phase_half, phase_half, same]

theorem runTimerTask_node (draws : Nat → Nat) (map : LclMsgMap) :
    (node.runTimerTask now draws map).1 = (node.updateLclPeriod now).removeUnusefulCallback := by
  unfold runTimerTask
  dsimp only
  split <;> rfl

end Handlers

end ObLCLNode

/-! ### What all cached messages have in common -/

section Cached

variable {P : ObLCLMessage → Prop}

theorem LclMsgMap.operate_forall {msg : ObLCLMessage} {key : ObDependencyResource} {map map' : LclMsgMap}
    (merge : ∀ value m, P value → value.merge msg = some m → P m) (old : ∀ e ∈ map, P e.2)
    (h : operate msg key map = some map') : ∀ e ∈ map', P e.2 := by
  induction map generalizing map' with
  | nil => simp [operate] at h
  | cons entry rest ih =>
    obtain ⟨k, value⟩ := entry
    have oldRest : ∀ e ∈ rest, P e.2 := fun e mem => old e (mem_cons_of_mem _ mem)
    have oldValue : P value := old _ mem_cons_self
    unfold operate at h
    split at h
    · obtain rfl := Option.some.inj h
      refine forall_mem_cons.2 ⟨?_, oldRest⟩
      cases merged : value.merge msg with
      | none => simpa [merged] using oldValue
      | some m => simpa [merged] using merge value m oldValue merged
    · obtain ⟨merged, found, rfl⟩ := Option.map_eq_some_iff.1 h
      grind

theorem LclMsgMap.insertOrMerge_forall {msg : ObLCLMessage} {key : ObDependencyResource} {map : LclMsgMap}
    {canInsert : Bool} (merge : ∀ value m, P value → value.merge msg = some m → P m) (new : P msg)
    (old : ∀ e ∈ map, P e.2) : ∀ e ∈ (map.insertOrMerge key msg canInsert).1, P e.2 := by
  unfold insertOrMerge
  split
  next merged found => exact operate_forall merge old found
  next =>
    grind

theorem ObLCLNode.broadcast_forall {node : ObLCLNode} {now : Nat} {draws : Nat → Nat}
    {list : List ObDependencyResource} {map : LclMsgMap}
    (merge : ∀ dest ∈ list, ∀ value m, P value → value.merge (node.stateMessage now dest) = some m → P m)
    (new : ∀ dest ∈ list, P (node.stateMessage now dest)) (old : ∀ e ∈ map, P e.2) :
    ∀ e ∈ (node.broadcast now draws list map).1, P e.2 := by
  induction list generalizing map with
  | nil => exact old
  | cons dest rest ih =>
    apply ih
    · grind
    · grind
    · exact LclMsgMap.insertOrMerge_forall (merge dest mem_cons_self) (new dest mem_cons_self) old

theorem ObLCLNode.runTimerTask_forall {node : ObLCLNode} {now : Nat} {draws : Nat → Nat} {map : LclMsgMap}
    (merge : ∀ dest ∈ node.blocklistSnapshot, ∀ value m, P value →
      value.merge ((node.updateLclPeriod now).stateMessage now dest) = some m → P m)
    (new : ∀ dest ∈ node.blocklistSnapshot, P ((node.updateLclPeriod now).stateMessage now dest))
    (old : ∀ e ∈ map, P e.2) : ∀ e ∈ (node.runTimerTask now draws map).2.1, P e.2 := by
  unfold runTimerTask
  dsimp only
  split
  · exact old
  rw [updateLclPeriod_blocklistSnapshot]
  exact broadcast_forall merge new old

theorem ObLCLMessage.merge_cases {msg rhs merged : ObLCLMessage} (h : msg.merge rhs = some merged) :
    msg.dest = rhs.dest ∧ merged.dest = msg.dest ∧ merged.sendTs = msg.sendTs ∧
      ((merged.lclv = msg.lclv ∧ merged.label = msg.label) ∨ (merged.lclv = rhs.lclv ∧ merged.label = rhs.label)) := by
  unfold merge at h
  split at h
  · cases h
  next same =>
    refine ⟨not_not.1 same, ?_⟩
    split at h
    · cases h
      simp
    next =>
      split at h
      next tied =>
        cases h
        simp [tied.1]
      next =>
        cases h
        simp

end Cached

end IMBridge.Deadlock
