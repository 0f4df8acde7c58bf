import Mathlib.Data.Fintype.Basic
import IMBridge.Deadlock.LclNode

/-!
Detectors on servers with one common clock. A message that was posted can be handed over late, many
times, in any order or never.
-/

namespace IMBridge.Deadlock

open Relation ObLCLNode Function

/-- `detections` lists, newest first, the detectors that set `detected_flag`, with the clock
reading; what they do next is `process_collect_info_message`. -/
structure System (D : Type) where
  now : Nat
  node : D → ObLCLNode
  cache : ObAddr → LclMsgMap
  wire : List ObLCLMessage
  detections : List (D × Nat)

namespace System

variable {D : Type}

def WaitsFor (s : System D) (d e : D) : Prop := (s.node e).selfResource ∈ (s.node d).blocklistSnapshot

def label (s : System D) (d : D) : ObLCLLabel := (s.node d).privateLabel

instance (s : System D) (d e : D) : Decidable (s.WaitsFor d e) :=
  inferInstanceAs (Decidable (_ ∈ _))

def SameGraph (s s' : System D) : Prop :=
  ∀ d, (s'.node d).blocklistSnapshot = (s.node d).blocklistSnapshot

instance [Fintype D] (s s' : System D) : Decidable (SameGraph s s') :=
  inferInstanceAs (Decidable (∀ d, (s'.node d).blocklistSnapshot = (s.node d).blocklistSnapshot))

section

variable {s s' : System D} (same : ∀ d, (s'.node d).identity = (s.node d).identity)
include same

theorem label_eq : s'.label = s.label := by
  funext d
  exact privateLabel_of_identity (same d)

theorem waitsFor_eq (graph : SameGraph s s') : s'.WaitsFor = s.WaitsFor := by
  funext d e
  simp only [WaitsFor, graph d, selfResource_of_identity (same e)]

end

/-- The clock goes on to `t`; what the detectors wait for may be different then. -/
def advance (s : System D) (t : Nat) (blockList : D → List ObDependencyResource)
    (callbacks : D → List BlockCallBack) : System D :=
  { s with
    now := t
    node := fun d => { s.node d with blockList := blockList d, blockCallbackList := callbacks d } }

def atTime (s : System D) (t : Nat) : System D := { s with now := t }

def send (s : System D) (addr : ObAddr) : System D := { s with
    cache := update s.cache addr (s.cache addr).removeIf.2
    wire := s.wire ++ (s.cache addr).removeIf.1 }

def Pending (s : System D) (msg : ObLCLMessage) : Prop :=
  msg ∈ s.wire ∨ ∃ addr, ∃ e ∈ s.cache addr, e.2 = msg

theorem pending_send {s : System D} {addr : ObAddr} {msg : ObLCLMessage} (pending : (s.send addr).Pending msg) :
    s.Pending msg := by
  rcases pending with onWire | ⟨addr', e, mem, rfl⟩
  · rcases List.mem_append.1 onWire with old | posted
    · exact Or.inl old
    obtain ⟨e, mem, rfl⟩ := List.mem_map.1 posted
    exact Or.inr ⟨addr, e, List.mem_of_mem_take mem, rfl⟩
  · by_cases eq : addr' = addr
    · subst eq
      simp only [send, update_self] at mem
      exact Or.inr ⟨addr', e, List.mem_of_mem_drop mem, rfl⟩
    · simp only [send, update_of_ne eq] at mem
      exact Or.inr ⟨addr', e, mem, rfl⟩

/-- A detector as its constructor leaves it, except for what it waits for. -/
def Fresh (node : ObLCLNode) : Prop :=
  node.lclv = 0 ∧ node.publicLabel = node.privateLabel ∧ node.lclPeriod = 0 ∧ node.lastSendCollectInfoPeriod = 0

structure Created (s : System D) : Prop where
  fresh : ∀ d, Fresh (s.node d)
  cache : ∀ addr, s.cache addr = []
  wire : s.wire = []
  detections : s.detections = []

variable [DecidableEq D]

def pushState (s : System D) (d : D) (draws : Nat → Nat) : System D :=
  let addr := (s.node d).selfAddr
  let pushed := (s.node d).runTimerTask s.now draws (s.cache addr)
  { s with
    node := update s.node d pushed.1
    cache := update s.cache addr pushed.2.1 }

def keptMessages (s : System D) (d : D) (draws : Nat → Nat) : List Bool :=
  ((s.node d).runTimerTask s.now draws (s.cache (s.node d).selfAddr)).2.2

def handle (s : System D) (d : D) (msg : ObLCLMessage) : System D :=
  let handled := (s.node d).processLclMessage s.now msg
  { s with
    node := update s.node d handled.1
    detections := if handled.2 then (d, s.now) :: s.detections else s.detections }

def decCountDown (s : System D) (d : D) : System D :=
  { s with node := update s.node d (s.node d).decCountDownAllowDetect }

inductive Step : System D → System D → Prop
  | advance {s t} (blockList callbacks) : s.now ≤ t → Step s (s.advance t blockList callbacks)
  | pushState {s} (d draws) : Step s (s.pushState d draws)
  | send {s} (addr) : Step s (s.send addr)
  | handle {s} (d) {msg} : msg ∈ s.wire → msg.dest = (s.node d).selfResource → Step s (s.handle d msg)
  | decCountDown {s} (d) : Step s (s.decCountDown d)

/-- A step that changes the wait-for graph only if a new period begins. -/
def PeriodStep (s s' : System D) : Prop :=
  Step s s' ∧ (s'.now / PERIOD = s.now / PERIOD → SameGraph s s')

def FixedStep (s s' : System D) : Prop := Step s s' ∧ SameGraph s s'

/-! ### Synchronous rounds -/

/-- The detectors of a list push their states one after the other, in the given phase, and the
caches keep all their messages. -/
inductive Pushes (phase : Nat) : List D → System D → System D → Prop
  | nil (s) : Pushes phase [] s s
  | cons {s s' t d rest} (draws) : s.now ≤ t → t / PHASE_TIME = phase →
      (∀ kept ∈ (s.atTime t).keptMessages d draws, kept = true) →
      SameGraph s ((s.atTime t).pushState d draws) →
      Pushes phase rest ((s.atTime t).pushState d draws) s' → Pushes phase (d :: rest) s s'

inductive Handles (phase : Nat) : List (D × ObLCLMessage) → System D → System D → Prop
  | nil (s) : Handles phase [] s s
  | cons {s s' t d msg rest} : s.now ≤ t → t / PHASE_TIME = phase → SameGraph s ((s.atTime t).handle d msg) →
      Handles phase rest ((s.atTime t).handle d msg) s' → Handles phase ((d, msg) :: rest) s s'

def sends (s : System D) (senders : List D) : System D :=
  senders.foldl (fun s d => s.send (s.node d).selfAddr) s

/-- A synchronous round: all detectors push their states, the sender threads post all that is
cached, and everything posted is handed over to the detectors it is addressed to. -/
inductive Round (phase : Nat) : System D → System D → Prop
  | intro {s pushed s'} (pushers senders : List D) (posted : List ObLCLMessage)
      (deliveries : List (D × ObLCLMessage)) :
      Pushes phase pushers s pushed → (∀ d, d ∈ pushers) →
      (∀ d, (pushed.sends senders).cache (pushed.node d).selfAddr = []) →
      (pushed.sends senders).wire = pushed.wire ++ posted →
      (∀ e ∈ deliveries, e.2 ∈ posted ∧ e.2.dest = (s.node e.1).selfResource) →
      (∀ msg ∈ posted, ∀ d, msg.dest = (s.node d).selfResource → (d, msg) ∈ deliveries) →
      Handles phase deliveries (pushed.sends senders) s' → Round phase s s'

def Rounds (phase count : Nat) (s s' : System D) : Prop :=
  ∃ states : Nat → System D, states 0 = s ∧ states count = s' ∧
    ∀ i < count, Round phase (states i) (states (i + 1))

/-! ### What the steps keep -/

section Steps

variable {s s' : System D}

theorem pushState_node (d : D) (draws : Nat → Nat) : (s.pushState d draws).node =
      update s.node d ((s.node d).updateLclPeriod s.now).removeUnusefulCallback := by
  simp only [pushState, runTimerTask_node]

theorem update_identity {d : D} {node : ObLCLNode} (same : node.identity = (s.node d).identity) (e : D) :
    (update s.node d node e).identity = (s.node e).identity := by
  grind

theorem Step.identity (step : Step s s') (e : D) : (s'.node e).identity = (s.node e).identity := by
  cases step with
  | advance => rfl
  | pushState d draws =>
    rw [pushState_node]
    exact update_identity (by simp) e
  | send => rfl
  | handle d _ _ => exact update_identity (processLclMessage_identity _ _ _) e
  | decCountDown d => exact update_identity (show (s.node d).decCountDownAllowDetect.identity = _ from rfl) e

theorem pending_pushState {P : ObLCLMessage → Prop} {d : D} {draws : Nat → Nat}
    (merge : ∀ dest ∈ (s.node d).blocklistSnapshot, ∀ value m, P value →
      value.merge (((s.node d).updateLclPeriod s.now).stateMessage s.now dest) = some m → P m)
    (new : ∀ dest ∈ (s.node d).blocklistSnapshot, P (((s.node d).updateLclPeriod s.now).stateMessage s.now dest))
    (old : ∀ msg, s.Pending msg → P msg) : ∀ msg, (s.pushState d draws).Pending msg → P msg := by
  rintro msg (onWire | ⟨addr, e, mem, rfl⟩)
  · exact old msg (Or.inl onWire)
  · by_cases eq : addr = (s.node d).selfAddr
    · subst eq
      simp only [pushState, update_self] at mem
      apply runTimerTask_forall merge new _ e mem
      exact fun e' mem' => old e'.2 (Or.inr ⟨_, e', mem', rfl⟩)
    · simp only [pushState, update_of_ne eq] at mem
      exact old e.2 (Or.inr ⟨addr, e, mem, rfl⟩)

end Steps

end System

end IMBridge.Deadlock
