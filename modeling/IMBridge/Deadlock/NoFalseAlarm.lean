import Mathlib.Algebra.Order.Group.Nat
import IMBridge.Lib.Walk
import IMBridge.Deadlock.LclSystem

/-!
A detector that sets `detected_flag` is on a cycle of the wait-for graph of the period, with the
smallest label there: labels only travel along edges, and what is left of an earlier period is told
by its period.
-/

namespace IMBridge.Deadlock.System

open Relation Lib.Walk ObLCLNode Function

variable {D : Type}

/-- The detector with the label of the message leads to one that waits for the addressee. -/
def Carries (s : System D) (msg : ObLCLMessage) : Prop :=
  ∃ y, msg.dest ∈ (s.node y).blocklistSnapshot ∧ LabelReaches s.WaitsFor s.label msg.label y

/-- Labels and messages of the current period have come along edges of its wait-for graph. -/
structure Tracked (s : System D) : Prop where
  period_le : ∀ d, (s.node d).lclPeriod ≤ s.now / PERIOD
  label_le : ∀ d, (s.node d).publicLabel ≤ s.label d
  reaches : ∀ d, (s.node d).lclPeriod = s.now / PERIOD →
    LabelReaches s.WaitsFor s.label (s.node d).publicLabel d
  sent_le : ∀ msg, s.Pending msg → msg.sendTs ≤ s.now
  carries : ∀ msg, s.Pending msg → msg.sendTs / PERIOD = s.now / PERIOD → s.Carries msg

variable {s s' : System D}

theorem Created.tracked (created : s.Created) : s.Tracked := by
  have nothing : ∀ msg, ¬s.Pending msg := by
    rintro msg (onWire | ⟨addr, e, mem, -⟩)
    · simp [created.wire] at onWire
    · simp [created.cache addr] at mem
  constructor
  · intro d
    rw [(created.fresh d).2.2.1]
    exact Nat.zero_le _
  · exact fun d => le_of_eq (created.fresh d).2.1
  · intro d _
    rw [(created.fresh d).2.1]
    exact LabelReaches.self d
  · exact fun msg pending => absurd pending (nothing msg)
  · exact fun msg pending => absurd pending (nothing msg)

theorem Carries.of_sameGraph (same : ∀ d, (s'.node d).identity = (s.node d).identity) (graph : SameGraph s s')
    {msg : ObLCLMessage} (carries : s.Carries msg) : s'.Carries msg := by
  obtain ⟨y, waits, reach⟩ := carries
  refine ⟨y, by rwa [graph y], ?_⟩
  rwa [waitsFor_eq same graph, label_eq same]

namespace Tracked

section

variable (tracked : s.Tracked)
include tracked

theorem advance {t : Nat} (later : s.now ≤ t) (blockList : D → List ObDependencyResource)
    (callbacks : D → List BlockCallBack)
    (graph : t / PERIOD = s.now / PERIOD → SameGraph s (s.advance t blockList callbacks)) :
    (s.advance t blockList callbacks).Tracked := by
  have same : ∀ d, ((s.advance t blockList callbacks).node d).identity = (s.node d).identity := fun _ => rfl
  have periods : s.now / PERIOD ≤ t / PERIOD := Nat.div_le_div_right later
  constructor
  · exact fun d => (tracked.period_le d).trans periods
  · exact tracked.label_le
  · intro d current
    have stays : t / PERIOD = s.now / PERIOD := le_antisymm (current.ge.trans (tracked.period_le d)) periods
    rw [waitsFor_eq same (graph stays), label_eq same]
    exact tracked.reaches d (current.trans stays)
  · exact fun msg pending => (tracked.sent_le msg pending).trans later
  · intro msg pending current
    have stays : t / PERIOD = s.now / PERIOD := by
      apply le_antisymm _ periods
      calc t / PERIOD = msg.sendTs / PERIOD := current.symm
        _ ≤ s.now / PERIOD := Nat.div_le_div_right (tracked.sent_le msg pending)
    exact (tracked.carries msg pending (current.trans stays)).of_sameGraph same (graph stays)

theorem reaches_updated (d : D) : LabelReaches s.WaitsFor s.label ((s.node d).updateLclPeriod s.now).publicLabel d := by
  rw [updateLclPeriod_eq]
  dsimp only
  split
  next => exact LabelReaches.self d
  next notBegun => exact tracked.reaches d (le_antisymm (tracked.period_le d) (not_lt.1 notBegun))

theorem updated_le (d : D) : ((s.node d).updateLclPeriod s.now).publicLabel ≤ s.label d := by
  rw [updateLclPeriod_eq]
  dsimp only
  split
  next => exact le_rfl
  next => exact tracked.label_le d

theorem updated_period (d : D) : ((s.node d).updateLclPeriod s.now).lclPeriod = s.now / PERIOD := by
  rw [updateLclPeriod_eq]
  exact max_eq_right (tracked.period_le d)

theorem sent : ∀ msg, s.Pending msg → msg.sendTs ≤ s.now ∧ (msg.sendTs / PERIOD = s.now / PERIOD → s.Carries msg) :=
  fun msg pending => ⟨tracked.sent_le msg pending, tracked.carries msg pending⟩

theorem send (addr : ObAddr) : (s.send addr).Tracked where
  period_le := tracked.period_le
  label_le := tracked.label_le
  reaches := tracked.reaches
  sent_le msg pending := tracked.sent_le msg (pending_send pending)
  carries msg pending := tracked.carries msg (pending_send pending)

end

variable [DecidableEq D] (tracked : s.Tracked)
include tracked

/-- A step at the detector `d` that brings its period up to date and leaves it a label that has
come along the graph. -/
theorem of_update {d : D} {node : ObLCLNode} (nodes : s'.node = update s.node d node)
    (now : s'.now = s.now) (graph : SameGraph s s') (id : node.identity = (s.node d).identity)
    (period : node.lclPeriod = s.now / PERIOD) (le : node.publicLabel ≤ s.label d)
    (reaches : LabelReaches s.WaitsFor s.label node.publicLabel d)
    (sent : ∀ msg, s'.Pending msg → msg.sendTs ≤ s.now ∧ (msg.sendTs / PERIOD = s.now / PERIOD → s.Carries msg)) :
    s'.Tracked := by
  have same : ∀ e, (s'.node e).identity = (s.node e).identity := by
    intro e
    rw [nodes]
    exact update_identity id e
  have cases : ∀ e, s'.node e = s.node e ∨ e = d ∧ s'.node e = node := by
    intro e
    by_cases eq : e = d
    · subst eq
      exact Or.inr ⟨rfl, by rw [nodes, update_self]⟩
    · exact Or.inl (by rw [nodes, update_of_ne eq])
  constructor
  · intro e
    rw [now]
    rcases cases e with old | ⟨-, new⟩
    · rw [old]
      exact tracked.period_le e
    · rw [new, period]
  · intro e
    rw [label_eq same]
    rcases cases e with old | ⟨rfl, new⟩
    · rw [old]
      exact tracked.label_le e
    · rwa [new]
  · intro e current
    rw [waitsFor_eq same graph, label_eq same]
    rcases cases e with old | ⟨rfl, new⟩
    · rw [old, now] at current
      rw [old]
      exact tracked.reaches e current
    · rwa [new]
  · grind
  · intro msg pending current
    rw [now] at current
    exact ((sent msg pending).2 current).of_sameGraph same graph

theorem pushState {d : D} {draws : Nat → Nat} (graph : SameGraph s (s.pushState d draws)) :
    (s.pushState d draws).Tracked := by
  have new : ∀ dest ∈ (s.node d).blocklistSnapshot,
      s.Carries (((s.node d).updateLclPeriod s.now).stateMessage s.now dest) :=
    fun dest mem => ⟨d, mem, tracked.reaches_updated d⟩
  apply tracked.of_update (pushState_node d draws) rfl graph
  · simp
  · exact tracked.updated_period d
  · exact tracked.updated_le d
  · exact tracked.reaches_updated d
  · apply pending_pushState
    · -- the send time of a merged message is the old one, so the old message is of this period too
      intro dest mem value m old merged
      obtain ⟨sameDest, dest_eq, ts_eq, content⟩ := ObLCLMessage.merge_cases merged
      rw [ts_eq]
      refine ⟨old.1, fun current => ?_⟩
      rcases content with ⟨-, label_eq⟩ | ⟨-, label_eq⟩
      · obtain ⟨y, waits, reach⟩ := old.2 current
        exact ⟨y, by rwa [dest_eq], by rwa [label_eq]⟩
      · obtain ⟨y, waits, reach⟩ := new dest mem
        exact ⟨y, by rwa [dest_eq, sameDest], by rwa [label_eq]⟩
    · exact fun dest mem => ⟨le_rfl, fun _ => new dest mem⟩
    · exact tracked.sent

theorem handle {d : D} {msg : ObLCLMessage} (onWire : msg ∈ s.wire)
    (addressed : msg.dest = (s.node d).selfResource) (graph : SameGraph s (s.handle d msg)) :
    (s.handle d msg).Tracked := by
  have period : ((s.node d).processLclMessage s.now msg).1.lclPeriod = s.now / PERIOD := by
    rw [processLclMessage_lclPeriod, tracked.updated_period d]
  have id := processLclMessage_identity (s.node d) msg s.now
  have nodes : (s.handle d msg).node = update s.node d ((s.node d).processLclMessage s.now msg).1 := rfl
  have now : (s.handle d msg).now = s.now := rfl
  rcases processLclMessage_publicLabel (s.node d) msg s.now with same | ⟨phase, taken, smaller⟩
  · apply tracked.of_update nodes now graph id period
    · rw [same]
      exact tracked.updated_le d
    · rw [same]
      exact tracked.reaches_updated d
    · exact tracked.sent
  · have below : msg.label < s.label d := lt_of_lt_of_le smaller (tracked.updated_le d)
    obtain ⟨y, waits, reach⟩ := tracked.carries msg (Or.inl onWire) (period_eq_of_ifPhaseMatch phase).symm
    apply tracked.of_update nodes now graph id period
    · rw [taken]
      exact le_of_lt below
    · rw [taken]
      exact reach.forward (by rwa [WaitsFor, ← addressed]) below
    · exact tracked.sent

theorem decCountDown {d : D} (graph : SameGraph s (s.decCountDown d)) : (s.decCountDown d).Tracked := by
  have kept : ∀ e, ((s.decCountDown d).node e).lclPeriod = (s.node e).lclPeriod ∧
      ((s.decCountDown d).node e).publicLabel = (s.node e).publicLabel := by
    intro e
    by_cases eq : e = d
    · subst eq
      simp [System.decCountDown, decCountDownAllowDetect]
    · simp [System.decCountDown, eq]
  have same := (Step.decCountDown (s := s) d).identity
  constructor
  · intro e
    rw [(kept e).1]
    exact tracked.period_le e
  · intro e
    rw [(kept e).2, label_eq same]
    exact tracked.label_le e
  · intro e current
    rw [(kept e).1] at current
    rw [(kept e).2, waitsFor_eq same graph, label_eq same]
    exact tracked.reaches e current
  · exact tracked.sent_le
  · exact fun msg pending current => (tracked.carries msg pending current).of_sameGraph same graph

theorem step (step : PeriodStep s s') : s'.Tracked := by
  obtain ⟨step, graph⟩ := step
  cases step with
  | advance blockList callbacks later => exact tracked.advance later blockList callbacks graph
  | pushState d draws => exact tracked.pushState (graph rfl)
  | send addr => exact tracked.send addr
  | handle d onWire addressed => exact tracked.handle onWire addressed (graph rfl)
  | decCountDown d => exact tracked.decCountDown (graph rfl)

theorem run (run : ReflTransGen PeriodStep s s') : s'.Tracked := by
  induction run with
  | refl => exact tracked
  | tail _ last ih => exact ih.step last

end Tracked

variable [DecidableEq D]

theorem label_run (run : ReflTransGen PeriodStep s s') : s'.label = s.label := by
  induction run with
  | refl => rfl
  | tail _ last ih => rw [label_eq last.1.identity, ih]

/-- In every run in which the wait-for graph changes only between periods, a detector that sets
`detected_flag` is on a cycle whose other detectors have larger labels. -/
theorem detected_least_on_cycle {s₀ s : System D} (created : s₀.Created) (distinct : Injective s₀.label)
    (run : ReflTransGen PeriodStep s₀ s) {d : D} {msg : ObLCLMessage} (onWire : msg ∈ s.wire)
    (addressed : msg.dest = (s.node d).selfResource)
    (detected : ((s.node d).processLclMessage s.now msg).2 = true) :
    ∃ others, SimpleCycle s.WaitsFor d others ∧ ∀ e ∈ others, s.label d < s.label e := by
  have tracked : s.Tracked := created.tracked.run run
  obtain ⟨phase, own, -⟩ := of_detected detected
  obtain ⟨y, waits, reach⟩ := tracked.carries msg (Or.inl onWire) (period_eq_of_ifPhaseMatch phase).symm
  rw [own] at reach
  apply reach.exists_cycle
  · rwa [label_run run]
  · rwa [WaitsFor, ← addressed]

def pairWaiting (now : Nat) : System (Fin 2) where
  now := now
  node d := { create 1 (d + 1) (d + 1) ⟨0, 1⟩ 0 with blockList := [⟨1, 2 - d⟩] }
  cache _ := []
  wire := []
  detections := []

theorem pairWaiting_created (now : Nat) : (pairWaiting now).Created where
  fresh _ := ⟨rfl, rfl, rfl, rfl⟩
  cache _ := rfl
  wire := rfl
  detections := rfl

theorem pairWaiting_distinct (now : Nat) : Injective (pairWaiting now).label := by
  intro d e same
  have ids : (d : Nat) + 1 = (e : Nat) + 1 := congrArg ObLCLLabel.id same
  omega

def pairLabel (dest src : UserBinaryKey) : ObLCLMessage :=
  ⟨⟨1, dest⟩, 1, src, 0, ⟨1, 1, ⟨0, 1⟩⟩, 3 * PHASE_TIME⟩

/-- In an LCLS phase the label of the first detector goes to the second one and comes back. -/
def pairSent : System (Fin 2) := ((pairWaiting (3 * PHASE_TIME)).pushState 0 fun _ => 0).send 1

def pairReturned : System (Fin 2) := ((pairSent.handle 1 (pairLabel 2 1)).pushState 1 fun _ => 0).send 1

theorem pairReturned_run : ReflTransGen PeriodStep (pairWaiting (3 * PHASE_TIME)) pairReturned := by
  have sent : ReflTransGen PeriodStep (pairWaiting (3 * PHASE_TIME)) pairSent :=
    (ReflTransGen.single ⟨Step.pushState 0 fun _ => 0, fun _ => by decide⟩).tail ⟨Step.send 1, fun _ => by decide⟩
  have onWire : pairLabel 2 1 ∈ pairSent.wire := by decide
  have handled := sent.tail ⟨Step.handle 1 onWire (by decide), fun _ => by decide⟩
  exact (handled.tail ⟨Step.pushState 1 fun _ => 0, fun _ => by decide⟩).tail ⟨Step.send 1, fun _ => by decide⟩

theorem pairReturned_least_on_cycle :
    ∃ others, SimpleCycle pairReturned.WaitsFor 0 others ∧ ∀ e ∈ others, pairReturned.label 0 < pairReturned.label e := by
  have onWire : pairLabel 1 2 ∈ pairReturned.wire := by decide
  exact detected_least_on_cycle (pairWaiting_created _) (pairWaiting_distinct _) pairReturned_run onWire
    (by decide) (by decide)

end IMBridge.Deadlock.System
