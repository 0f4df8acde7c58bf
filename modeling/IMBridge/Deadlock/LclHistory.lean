import IMBridge.Deadlock.LclRounds
import IMBridge.Deadlock.NoFalseAlarm

/-!
What holds of detectors with a fixed wait-for graph at any time, whatever messages were lost: the
level of a detector is at most the length of a walk that ends in it, and its label is its own until
the first LCLS phase of a period.
-/

namespace IMBridge.Deadlock

open Relation Lib.Walk ObLCLNode Function ReflTransGen

theorem toNat_add_one_le (level : UInt64) : (level + 1).toNat ≤ level.toNat + 1 := by
  rw [UInt64.toNat_add]
  exact Nat.mod_le _ _

namespace System

variable {D : Type}

structure NodeGrown (s : System D) (d : D) (node : ObLCLNode) : Prop where
  climbs : EndsWalk s.WaitsFor node.lclv.toNat d
  period_le : node.lclPeriod ≤ s.now / PERIOD
  countDown : node.countDownAllowDetect = 0
  lastSend : node.lastSendCollectInfoPeriod = 0 ∨ 2 * node.lastSendCollectInfoPeriod + 1 ≤ s.now / PHASE_TIME
  label : 2 * node.lclPeriod = s.now / PHASE_TIME → node.publicLabel = node.privateLabel

def Climbs (s : System D) (msg : ObLCLMessage) : Prop :=
  ∀ d, msg.dest = (s.node d).selfResource → EndsWalk s.WaitsFor (msg.lclv.toNat + 1) d

structure Grown (s : System D) : Prop where
  nodes : ∀ d, NodeGrown s d (s.node d)
  sent : ∀ msg, s.Pending msg → s.Climbs msg
  logged : ∀ d, (s.node d).lastSendCollectInfoPeriod ≠ 0 →
    ∃ t, (d, t) ∈ s.detections ∧ t / PERIOD = (s.node d).lastSendCollectInfoPeriod

variable {s s' : System D}

theorem Created.grown (created : s.Created) (armed : ∀ d, (s.node d).countDownAllowDetect = 0) : s.Grown := by
  constructor
  · intro d
    obtain ⟨lclv, label, period, lastSend⟩ := created.fresh d
    constructor
    · rw [lclv]
      exact EndsWalk.start d
    · rw [period]
      exact Nat.zero_le _
    · exact armed d
    · exact Or.inl lastSend
    · exact fun _ => label
  · rintro msg (onWire | ⟨addr, e, mem, -⟩)
    · simp [created.wire] at onWire
    · simp [created.cache addr] at mem
  · exact fun d sent => absurd (created.fresh d).2.2.2 sent

theorem NodeGrown.later {d : D} {node : ObLCLNode} (grown : NodeGrown s d node) (later : s.now ≤ s'.now)
    (graph : s'.WaitsFor = s.WaitsFor) {blockList : List ObDependencyResource} {callbacks : List BlockCallBack} :
    NodeGrown s' d { node with blockList := blockList, blockCallbackList := callbacks } := by
  have phases : s.now / PHASE_TIME ≤ s'.now / PHASE_TIME := Nat.div_le_div_right later
  have half := phase_half s.now
  have half' := phase_half s'.now
  have period := grown.period_le
  constructor
  · rw [graph]
    exact grown.climbs
  · exact period.trans (by omega)
  · exact grown.countDown
  · exact grown.lastSend.imp_right fun le => le.trans phases
  · intro current
    dsimp only at current
    exact grown.label (by omega)

namespace Grown

section

variable (grown : s.Grown)
include grown

theorem send (addr : ObAddr) : (s.send addr).Grown where
  nodes d := ⟨(grown.nodes d).climbs, (grown.nodes d).period_le, (grown.nodes d).countDown,
    (grown.nodes d).lastSend, (grown.nodes d).label⟩
  sent msg pending := grown.sent msg (pending_send pending)
  logged := grown.logged

theorem advance {t : Nat} (later : s.now ≤ t) {blockList : D → List ObDependencyResource}
    {callbacks : D → List BlockCallBack} (graph : SameGraph s (s.advance t blockList callbacks)) :
    (s.advance t blockList callbacks).Grown := by
  have same : (s.advance t blockList callbacks).WaitsFor = s.WaitsFor := waitsFor_eq (fun _ => rfl) graph
  constructor
  · exact fun d => (grown.nodes d).later later same
  · intro msg pending d toD
    rw [same]
    exact grown.sent msg pending d toD
  · exact grown.logged

theorem updated (d : D) : NodeGrown s d ((s.node d).updateLclPeriod s.now) := by
  have node := grown.nodes d
  constructor
  · rw [updateLclPeriod_lclv]
    exact node.climbs
  · rw [updateLclPeriod_eq]
    exact max_le node.period_le le_rfl
  · rw [updateLclPeriod_countDownAllowDetect]
    exact node.countDown
  · rw [updateLclPeriod_lastSendCollectInfoPeriod]
    exact node.lastSend
  · intro current
    rw [updateLclPeriod_eq] at current ⊢
    dsimp only at current ⊢
    split
    next => rfl
    next notBegun =>
      rw [max_eq_left (not_lt.1 notBegun)] at current
      exact node.label current

theorem handled {d : D} {msg : ObLCLMessage} (climbs : EndsWalk s.WaitsFor (msg.lclv.toNat + 1) d) :
    NodeGrown s d ((s.node d).processLclMessage s.now msg).1 := by
  have node := grown.updated d
  have half := phase_half s.now
  by_cases phase : ifPhaseMatch s.now msg = true
  swap
  · simpa [processLclMessage, phase] using node
  by_cases even : s.now / PHASE_TIME % 2 = 0
  · rw [processLclMessage_lclp msg s.now phase even, processMsgAsLclpMsg_eq]
    refine ⟨?_, node.period_le, node.countDown, node.lastSend, node.label⟩
    dsimp only [removeUnusefulCallback]
    split
    · exact climbs.mono (toNat_add_one_le msg.lclv)
    · exact node.climbs
  · have lcls : NodeGrown s d (((s.node d).updateLclPeriod s.now).processMsgAsLclsMsg msg).node := by
      rw [processMsgAsLclsMsg_node]
      have period := node.period_le
      constructor
      · dsimp only
        split
        · exact climbs.pred
        · exact node.climbs
      · exact node.period_le
      · exact node.countDown
      · dsimp only
        split
        · right
          omega
        · exact node.lastSend
      omega
    rcases (processLclMessage_lcls (s.node d) msg s.now phase even).2 with same | same <;> rw [same]
    · exact lcls
    · exact ⟨lcls.climbs, lcls.period_le, lcls.countDown, lcls.lastSend, lcls.label⟩

/-- The period of the last detection changes only when `detected_flag` is set. -/
theorem lastSend_cases (d : D) (msg : ObLCLMessage) :
    ((s.node d).processLclMessage s.now msg).1.lastSendCollectInfoPeriod = (s.node d).lastSendCollectInfoPeriod ∨
      ((s.node d).processLclMessage s.now msg).2 = true ∧
        ((s.node d).processLclMessage s.now msg).1.lastSendCollectInfoPeriod = s.now / PERIOD := by
  have current : ((s.node d).updateLclPeriod s.now).lclPeriod = s.now / PERIOD := by
    rw [updateLclPeriod_eq]
    exact max_eq_right (grown.nodes d).period_le
  by_cases phase : ifPhaseMatch s.now msg = true
  swap
  · left
    simp [processLclMessage, phase]
  by_cases even : s.now / PHASE_TIME % 2 = 0
  · left
    rw [processLclMessage_lclp msg s.now phase even, processMsgAsLclpMsg_eq]
    simp
  obtain ⟨flag, node⟩ := processLclMessage_lcls (s.node d) msg s.now phase even
  have lastSend : ((s.node d).processLclMessage s.now msg).1.lastSendCollectInfoPeriod =
      (((s.node d).updateLclPeriod s.now).processMsgAsLclsMsg msg).node.lastSendCollectInfoPeriod := by
    rcases node with same | same <;> rw [same]
    rfl
  rw [flag, lastSend, processMsgAsLclsMsg_node, processMsgAsLclsMsg_detectedFlag]
  dsimp only
  rw [updateLclPeriod_lastSendCollectInfoPeriod, current]
  split
  next home =>
    grind
  next => exact Or.inl rfl

end

variable [DecidableEq D] (grown : s.Grown)
include grown

theorem of_update {d : D} {node : ObLCLNode} (nodes : s'.node = update s.node d node) (now : s'.now = s.now)
    (graph : SameGraph s s') (id : node.identity = (s.node d).identity)
    (nodeGrown : NodeGrown s d node) (sent : ∀ msg, s'.Pending msg → s.Climbs msg)
    (logged : node.lastSendCollectInfoPeriod ≠ 0 → ∃ t, (d, t) ∈ s'.detections ∧ t / PERIOD = node.lastSendCollectInfoPeriod)
    (detections : s.detections ⊆ s'.detections) : s'.Grown := by
  have same : ∀ e, (s'.node e).identity = (s.node e).identity := by
    intro e
    rw [nodes]
    exact update_identity id e
  have waits : s'.WaitsFor = s.WaitsFor := waitsFor_eq same graph
  constructor
  · intro e
    have old : ∀ e, NodeGrown s e (s'.node e) := by
      rw [nodes, forall_update_iff]
      exact ⟨nodeGrown, fun e _ => grown.nodes e⟩
    exact (old e).later now.ge waits
  · intro msg pending e toE
    rw [waits]
    exact sent msg pending e (toE.trans (selfResource_of_identity (same e)))
  · intro e reported
    by_cases eq : e = d
    · subst eq
      rw [nodes, update_self] at reported ⊢
      exact logged reported
    · rw [nodes, update_of_ne eq] at reported ⊢
      obtain ⟨t, mem, period⟩ := grown.logged e reported
      exact ⟨t, detections mem, period⟩

theorem pushState {d : D} {draws : Nat → Nat} (graph : SameGraph s (s.pushState d draws)) :
    (s.pushState d draws).Grown := by
  have new : ∀ dest ∈ (s.node d).blocklistSnapshot,
      s.Climbs (((s.node d).updateLclPeriod s.now).stateMessage s.now dest) := by
    intro dest mem e toE
    have waits : s.WaitsFor d e := by
      rwa [WaitsFor, ← toE]
    exact EndsWalk.step (grown.updated d).climbs waits
  have now : (s.pushState d draws).now = s.now := rfl
  apply grown.of_update (pushState_node d draws) now graph
  · simp
  · have node := grown.updated d
    exact ⟨node.climbs, node.period_le, node.countDown, node.lastSend, node.label⟩
  · apply pending_pushState
    · intro dest mem value m old merged
      obtain ⟨sameDest, dest_eq, -, content⟩ := ObLCLMessage.merge_cases merged
      rw [Climbs, dest_eq]
      rcases content with ⟨lclv_eq, -⟩ | ⟨lclv_eq, -⟩
      · rwa [lclv_eq]
      · rw [lclv_eq, sameDest]
        exact new dest mem
    · exact new
    · exact grown.sent
  · rw [removeUnusefulCallback_lastSendCollectInfoPeriod, updateLclPeriod_lastSendCollectInfoPeriod]
    exact grown.logged d
  · exact fun _ mem => mem

theorem handle {d : D} {msg : ObLCLMessage} (onWire : msg ∈ s.wire)
    (addressed : msg.dest = (s.node d).selfResource) (graph : SameGraph s (s.handle d msg)) :
    (s.handle d msg).Grown := by
  have nodes : (s.handle d msg).node = update s.node d ((s.node d).processLclMessage s.now msg).1 := rfl
  have now : (s.handle d msg).now = s.now := rfl
  have detections : s.detections ⊆ (s.handle d msg).detections := by
    intro entry mem
    simp only [System.handle]
    grind
  apply grown.of_update nodes now graph (processLclMessage_identity _ _ _)
  · exact grown.handled (grown.sent msg (Or.inl onWire) d addressed)
  · exact grown.sent
  · intro reported
    rcases grown.lastSend_cases d msg with same | ⟨flag, new⟩
    · rw [same] at reported ⊢
      obtain ⟨t, mem, period⟩ := grown.logged d reported
      exact ⟨t, detections mem, period⟩
    · rw [new]
      exact ⟨s.now, by simp [System.handle, flag], rfl⟩
  · exact detections

theorem decCountDown {d : D} (graph : SameGraph s (s.decCountDown d)) : (s.decCountDown d).Grown := by
  have node := grown.nodes d
  have nodes : (s.decCountDown d).node = update s.node d (s.node d).decCountDownAllowDetect := rfl
  have now : (s.decCountDown d).now = s.now := rfl
  apply grown.of_update nodes now graph rfl
  · refine ⟨node.climbs, node.period_le, ?_, node.lastSend, node.label⟩
    simp [decCountDownAllowDetect, node.countDown]
  · exact grown.sent
  · exact grown.logged d
  · exact fun _ mem => mem

theorem step (step : FixedStep s s') : s'.Grown := by
  obtain ⟨step, graph⟩ := step
  cases step with
  | advance blockList callbacks later => exact grown.advance later graph
  | pushState d draws => exact grown.pushState graph
  | send addr => exact grown.send addr
  | handle d onWire addressed => exact grown.handle onWire addressed graph
  | decCountDown d => exact grown.decCountDown graph

theorem run (run : ReflTransGen FixedStep s s') : s'.Grown := by
  induction run with
  | refl => exact grown
  | tail _ last ih => exact ih.step last

end Grown

/-! ### Rounds are runs -/

section Runs

variable [DecidableEq D] {phase : Nat}

theorem FixedStep.atTime {t : Nat} (later : s.now ≤ t) : FixedStep s (s.atTime t) :=
  ⟨Step.advance (fun d => (s.node d).blockList) (fun d => (s.node d).blockCallbackList) later, fun _ => rfl⟩

theorem Pushes.run {pushers : List D} (pushes : Pushes phase pushers s s') : ReflTransGen FixedStep s s' := by
  induction pushes with
  | nil => exact ReflTransGen.refl
  | @cons s s' t d rest draws later _ _ graph _ ih =>
    have pushed : FixedStep (s.atTime t) ((s.atTime t).pushState d draws) := ⟨Step.pushState d draws, graph⟩
    exact (single (FixedStep.atTime later)).trans (head pushed ih)

theorem sends_run (s : System D) (senders : List D) : ReflTransGen FixedStep s (s.sends senders) := by
  induction senders generalizing s with
  | nil => exact ReflTransGen.refl
  | cons d rest ih =>
    exact head ⟨Step.send (s.node d).selfAddr, fun _ => rfl⟩ (ih (s.send (s.node d).selfAddr))

theorem Handles.run {deliveries : List (D × ObLCLMessage)} (handles : Handles phase deliveries s s')
    (sent : ∀ e ∈ deliveries, e.2 ∈ s.wire ∧ e.2.dest = (s.node e.1).selfResource) :
    ReflTransGen FixedStep s s' := by
  induction handles with
  | nil => exact ReflTransGen.refl
  | @cons s s' t d msg rest later _ graph _ ih =>
    obtain ⟨onWire, addressed⟩ := sent (d, msg) List.mem_cons_self
    have handled : FixedStep (s.atTime t) ((s.atTime t).handle d msg) := ⟨Step.handle d onWire addressed, graph⟩
    apply (single (FixedStep.atTime later)).trans (head handled (ih _))
    intro e mem
    obtain ⟨onWire', addressed'⟩ := sent e (List.mem_cons_of_mem _ mem)
    exact ⟨onWire', addressed'.trans (selfResource_of_identity (handled.1.identity e.1)).symm⟩

section

variable (run : ReflTransGen FixedStep s s')
include run

theorem FixedStep.identity_run (d : D) : (s'.node d).identity = (s.node d).identity := by
  induction run with
  | refl => rfl
  | tail _ last ih => exact (last.1.identity d).trans ih

theorem FixedStep.sameGraph_run : SameGraph s s' := by
  induction run with
  | refl => exact fun _ => rfl
  | tail _ last ih => exact ih.trans last.2

theorem FixedStep.waitsFor_run : s'.WaitsFor = s.WaitsFor := waitsFor_eq (identity_run run) (sameGraph_run run)

end

theorem Round.run (round : Round phase s s') : ReflTransGen FixedStep s s' := by
  obtain ⟨pushers, senders, posted, deliveries, pushes, -, -, wire, addressed, -, handles⟩ := round
  apply (pushes.run.trans (sends_run _ senders)).trans (handles.run _)
  intro e mem
  obtain ⟨inPosted, toD⟩ := addressed e mem
  refine ⟨by rw [wire]; exact List.mem_append_right _ inPosted, ?_⟩
  rw [sends_node, toD]
  exact (selfResource_of_identity (FixedStep.identity_run pushes.run e.1)).symm

end Runs

end System

end IMBridge.Deadlock
