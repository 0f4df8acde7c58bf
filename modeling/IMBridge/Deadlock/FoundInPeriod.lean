import IMBridge.Deadlock.LclHistory
import IMBridge.Deadlock.RoundProgress

/-!
Every deadlock is found within a period of synchronous rounds. In the LCLP phase the levels of a
cyclic component rise above those of all detectors that lead to it; in the LCLS phase its levels
become equal, and then its smallest label goes round it.
-/

namespace IMBridge.Deadlock

open Relation Lib.Walk Component Finset Fintype UInt64

/-! ### A message of the phase, handled in the phase -/

namespace ObLCLNode

variable {phase t : Nat} {node : ObLCLNode} {msg : ObLCLMessage}

theorem updateLclPeriod_of_current (inPhase : t / PHASE_TIME = phase) (current : node.lclPeriod = phase / 2) :
    node.updateLclPeriod t = node := by
  simp [updateLclPeriod, phase_half, inPhase, current]

theorem ifPhaseMatch_of_phase (inPhase : t / PHASE_TIME = phase) (sent : msg.sendTs / PHASE_TIME = phase) :
    ifPhaseMatch t msg = true := by
  simp [ifPhaseMatch, inPhase, sent]

structure LclpEffect (node : ObLCLNode) (msg : ObLCLMessage) (node' : ObLCLNode) : Prop where
  identity : node'.identity = node.identity
  period : node'.lclPeriod = node.lclPeriod
  label : node'.publicLabel = node.publicLabel
  lastSend : node'.lastSendCollectInfoPeriod = node.lastSendCollectInfoPeriod
  level : node'.lclv.toNat = max node.lclv.toNat (msg.lclv.toNat + 1)

theorem processLclMessage_even (even : phase % 2 = 0) (inPhase : t / PHASE_TIME = phase)
    (sent : msg.sendTs / PHASE_TIME = phase) (current : node.lclPeriod = phase / 2)
    (room : msg.lclv.toNat + 1 < 2 ^ 64) : LclpEffect node msg (node.processLclMessage t msg).1 := by
  have succ : (msg.lclv + 1).toNat = msg.lclv.toNat + 1 := by
    rw [UInt64.toNat_add]
    exact Nat.mod_eq_of_lt room
  rw [processLclMessage_lclp msg t (ifPhaseMatch_of_phase inPhase sent) (by rw [inPhase, even]),
    updateLclPeriod_of_current inPhase current, processMsgAsLclpMsg_eq]
  refine ⟨rfl, rfl, rfl, rfl, ?_⟩
  dsimp only [removeUnusefulCallback]
  split
  next lt =>
    rw [lt_iff_toNat_lt] at lt
    omega
  next notLt =>
    rw [lt_iff_toNat_lt] at notLt
    omega

structure LclsEffect (node : ObLCLNode) (msg : ObLCLMessage) (node' : ObLCLNode) : Prop where
  identity : node'.identity = node.identity
  period : node'.lclPeriod = node.lclPeriod
  lclv : node'.lclv = if node.lclv ≤ msg.lclv then msg.lclv else node.lclv
  label : node'.publicLabel =
    if node.lclv ≤ msg.lclv ∧ msg.label ≠ node.privateLabel then min node.publicLabel msg.label else node.publicLabel
  lastSend : node'.lastSendCollectInfoPeriod =
    if node.lclv ≤ msg.lclv ∧ msg.label = node.privateLabel then node.lclPeriod else node.lastSendCollectInfoPeriod

theorem processLclMessage_odd (odd : phase % 2 = 1) (inPhase : t / PHASE_TIME = phase)
    (sent : msg.sendTs / PHASE_TIME = phase) (current : node.lclPeriod = phase / 2) :
    LclsEffect node msg (node.processLclMessage t msg).1 := by
  have effect : LclsEffect node msg (node.processMsgAsLclsMsg msg).node := by
    rw [processMsgAsLclsMsg_node]
    exact ⟨rfl, rfl, rfl, rfl, rfl⟩
  have handled := (processLclMessage_lcls node msg t (ifPhaseMatch_of_phase inPhase sent) (by omega)).2
  rw [updateLclPeriod_of_current inPhase current] at handled
  rcases handled with same | same <;> rw [same]
  · exact effect
  · exact ⟨effect.identity, effect.period, effect.lclv, effect.label, effect.lastSend⟩

theorem LclsEffect.level {node' : ObLCLNode} (effect : LclsEffect node msg node') :
    node'.lclv.toNat = max node.lclv.toNat msg.lclv.toNat := by
  rw [effect.lclv]
  split
  next le => exact (max_eq_right (le_iff_toNat_le.1 le)).symm
  next notLe => exact (max_eq_left (le_of_not_ge (mt le_iff_toNat_le.2 notLe))).symm

end ObLCLNode

namespace System

variable {D : Type} [DecidableEq D] {p : Nat} {s s' : System D}

/-! ### LCLP rounds -/

structure Ready (p : Nat) (node : ObLCLNode) : Prop where
  period_le : node.lclPeriod ≤ p
  label : node.lclPeriod = p → node.publicLabel = node.privateLabel
  unsent : node.lastSendCollectInfoPeriod ≠ p

theorem Heard.idle_after {phase : Nat} {base : System D} {deliveries : List (D × ObLCLMessage)}
    (heard : Heard phase s base s' deliveries) (kept : ∀ d, (s'.node d).identity = (s.node d).identity) (d : D) :
    s'.cache (s'.node d).selfAddr = [] := by
  rw [ObLCLNode.selfAddr_of_identity ((kept d).trans (heard.updated d).identity.symm)]
  exact heard.idle d

structure LclpRound (p bound : Nat) (s s' : System D) : Prop where
  idle : ∀ d, s'.cache (s'.node d).selfAddr = []
  ready : ∀ d, Ready p (s'.node d)
  period : ∀ d, (s'.node d).lclPeriod = p
  bounded : ∀ d, (s'.node d).lclv.toNat ≤ bound + 1
  mono : ∀ d, (s.node d).lclv.toNat ≤ (s'.node d).lclv.toNat
  climbs : ∀ u v, s.WaitsFor u v → (s.node u).lclv.toNat + 1 ≤ (s'.node v).lclv.toNat

theorem Round.lclp (round : Round (2 * p) s s') (idle : ∀ d, s.cache (s.node d).selfAddr = [])
    (countDown : ∀ d, (s.node d).countDownAllowDetect = 0) (ready : ∀ d, Ready p (s.node d)) {bound : Nat}
    (bounded : ∀ d, (s.node d).lclv.toNat ≤ bound) (room : bound + 1 < 2 ^ 64) : LclpRound p bound s s' := by
  have half : 2 * p / 2 = p := by omega
  obtain ⟨base, deliveries, heard⟩ := round.heard idle countDown (by rw [half]; exact fun d => (ready d).period_le)
  have updated := heard.updated
  have current := heard.period
  rw [half] at current
  have below : ∀ e ∈ deliveries, e.2.lclv.toNat ≤ bound := by
    intro e mem
    obtain ⟨-, u, -, lclv, -⟩ := heard.sent e mem
    rw [lclv, (updated u).lclv]
    exact bounded u
  -- what every message of the round keeps
  let Kept (d : D) (node : ObLCLNode) : Prop :=
    node.identity = (s.node d).identity ∧ node.lclPeriod = p ∧ node.publicLabel = node.privateLabel ∧
      node.lastSendCollectInfoPeriod = (s.node d).lastSendCollectInfoPeriod ∧
      (s.node d).lclv.toNat ≤ node.lclv.toNat ∧ node.lclv.toNat ≤ bound + 1
  have start : ∀ d, Kept d (base.node d) := by
    intro d
    refine ⟨(updated d).identity, current d, ?_, (updated d).lastSend, ?_, ?_⟩
    · have own := ObLCLNode.privateLabel_of_identity (updated d).identity
      rcases Nat.lt_or_eq_of_le (ready d).period_le with before | now
      · rw [(updated d).begun (by rwa [half]) (by rw [half, current d]), own]
      · rw [(updated d).label (by rwa [half]), own, (ready d).label now]
    · rw [(updated d).lclv]
    · rw [(updated d).lclv]
      exact (bounded d).trans (Nat.le_succ bound)
  have effect : ∀ d msg t node, (d, msg) ∈ deliveries → t / PHASE_TIME = 2 * p → Kept d node →
      ObLCLNode.LclpEffect node msg (node.processLclMessage t msg).1 :=
    fun d msg t node mem inPhase kept =>
      ObLCLNode.processLclMessage_even (by omega) inPhase (heard.sent _ mem).1 (by rw [half]; exact kept.2.1)
        (lt_of_le_of_lt (Nat.add_le_add_right (below _ mem) 1) room)
  have step : ∀ d msg t node, (d, msg) ∈ deliveries → t / PHASE_TIME = 2 * p → Kept d node →
      Kept d (node.processLclMessage t msg).1 := by
    intro d msg t node mem inPhase kept
    have effect := effect d msg t node mem inPhase kept
    obtain ⟨id, period, label, lastSend, low, high⟩ := kept
    refine ⟨effect.identity.trans id, effect.period.trans period, ?_, effect.lastSend.trans lastSend, ?_, ?_⟩
    · rw [effect.label, label, ObLCLNode.privateLabel_of_identity effect.identity]
    · rw [effect.level]
      exact low.trans (le_max_left _ _)
    · rw [effect.level]
      exact max_le high (Nat.add_le_add_right (below _ mem) 1)
  have kept := heard.handles.node_rule step start
  constructor
  · exact heard.idle_after fun d => (kept d).1
  · intro d
    obtain ⟨-, period, label, lastSend, -, -⟩ := kept d
    exact ⟨period.le, fun _ => label, by rw [lastSend]; exact (ready d).unsent⟩
  · exact fun d => (kept d).2.1
  · exact fun d => (kept d).2.2.2.2.2
  · exact fun d => (kept d).2.2.2.2.1
  · intro u v waits
    obtain ⟨msg, mem, good⟩ := heard.heard u v waits
    have high : (s.node u).lclv.toNat ≤ msg.lclv.toNat := by
      rw [← (updated u).lclv]
      rcases good with less | ⟨same, -⟩
      · exact less.le
      · rw [same]
    apply heard.handles.reaches (Q := fun _ node => (s.node u).lclv.toNat + 1 ≤ node.lclv.toNat) step _ start mem
    · intro t node inPhase kept
      rw [(effect v msg t node mem inPhase kept).level]
      omega
    · intro d m t node mem' inPhase kept le
      rw [(effect d m t node mem' inPhase kept).level]
      exact le.trans (le_max_left _ _)

/-! ### LCLS rounds -/

/-- A detector of the component in an LCLS phase: its level is between `low` and `high` and its
label is not below `least`. -/
structure Core (p low high : Nat) (least : ObLCLLabel) (node : ObLCLNode) : Prop where
  period : node.lclPeriod = p
  low_le : low ≤ node.lclv.toNat
  le_high : node.lclv.toNat ≤ high
  label : least ≤ node.publicLabel

/-- The component has no part in the message, or its level and label are within the bounds. -/
def Harmless (low high : Nat) (least : ObLCLLabel) (msg : ObLCLMessage) : Prop :=
  msg.lclv.toNat < low ∨ msg.lclv.toNat ≤ high ∧ least ≤ msg.label

section Handle

variable {low high : Nat} {least : ObLCLLabel} {node node' : ObLCLNode} {msg : ObLCLMessage}
variable (core : Core p low high least node) (effect : ObLCLNode.LclsEffect node msg node')
variable (harmless : Harmless low high least msg)

include core effect harmless

omit effect in
theorem Core.least_le_label (heeded : node.lclv ≤ msg.lclv) : least ≤ msg.label := by
  rcases harmless with below | ⟨-, labelled⟩
  · exact absurd ((le_iff_toNat_le.1 heeded).trans_lt below) core.low_le.not_gt
  · exact labelled

theorem Core.keep : Core p low high least node' := by
  have low_le := core.low_le
  have le_high := core.le_high
  refine ⟨effect.period.trans core.period, ?_, ?_, ?_⟩
  · rw [effect.level]
    exact low_le.trans (le_max_left _ _)
  · rw [effect.level]
    rcases harmless with below | within <;> omega
  · rw [effect.label]
    split
    next heeded => exact le_min core.label (core.least_le_label harmless heeded.1)
    next => exact core.label

theorem Core.level_eq (top : high ≤ node.lclv.toNat ∨ high ≤ msg.lclv.toNat) : node'.lclv.toNat = high := by
  apply le_antisymm (core.keep effect harmless).le_high
  rwa [effect.level, le_max_iff]

end Handle

/-- The state of a component `C` between LCLS rounds of the period `p`. The detectors that lead
to it are on lower levels, and `least` is the label of `x` only. -/
structure Settled (C : D → Prop) (p low high : Nat) (x : D) (least : ObLCLLabel) (s : System D) : Prop where
  idle : ∀ d, s.cache (s.node d).selfAddr = []
  countDown : ∀ d, (s.node d).countDownAllowDetect = 0
  period : ∀ d, (s.node d).lclPeriod = p
  outside : ∀ u v, C v → s.WaitsFor u v → ¬C u → (s.node u).lclv.toNat < low
  core : ∀ v, C v → Core p low high least (s.node v)
  own : (s.node x).publicLabel = least
  label : ∀ v, s.label v = least ↔ v = x

def Marked (high : Nat) (least : ObLCLLabel) (node : ObLCLNode) : Prop :=
  node.lclv.toNat = high ∧ node.publicLabel = least

/-- An LCLS round as the component takes part in it: `base` is the state when all messages are
posted. -/
structure Hears (C : D → Prop) (p low high : Nat) (least : ObLCLLabel) (s base s' : System D)
    (deliveries : List (D × ObLCLMessage)) : Prop where
  heard : Heard (2 * p + 1) s base s' deliveries
  lclv : ∀ d, (base.node d).lclv = (s.node d).lclv
  label : ∀ d, (base.node d).publicLabel = (s.node d).publicLabel
  core : ∀ v, C v → Core p low high least (base.node v)
  harmless : ∀ v msg, (v, msg) ∈ deliveries → C v → Harmless low high least msg

section Rounds

variable {C : D → Prop} {low high : Nat} {x : D} {least : ObLCLLabel}

theorem Round.hears (round : Round (2 * p + 1) s s') (settled : Settled C p low high x least s) :
    ∃ base deliveries, Hears C p low high least s base s' deliveries := by
  have half : (2 * p + 1) / 2 = p := by omega
  obtain ⟨base, deliveries, heard⟩ := round.heard settled.idle settled.countDown
    (by rw [half]; exact fun d => (settled.period d).le)
  have lclv : ∀ d, (base.node d).lclv = (s.node d).lclv := fun d => (heard.updated d).lclv
  have label : ∀ d, (base.node d).publicLabel = (s.node d).publicLabel :=
    fun d => (heard.updated d).label (by rw [half]; exact settled.period d)
  have core : ∀ v, C v → Core p low high least (base.node v) := by
    intro v hv
    have core := settled.core v hv
    exact ⟨half ▸ heard.period v, by rw [lclv]; exact core.low_le, by rw [lclv]; exact core.le_high,
      by rw [label]; exact core.label⟩
  refine ⟨base, deliveries, heard, lclv, label, core, ?_⟩
  intro v msg mem hv
  obtain ⟨-, u, waits, level, labelled⟩ := heard.sent _ mem
  by_cases hu : C u
  · right
    rw [level, labelled]
    exact ⟨(core u hu).le_high, (core u hu).label⟩
  · left
    rw [level, lclv]
    exact settled.outside u v hv waits hu

namespace Hears

def Kept (C : D → Prop) (p low high : Nat) (least : ObLCLLabel) (s : System D) (d : D) (node : ObLCLNode) : Prop :=
  node.identity = (s.node d).identity ∧ node.lclPeriod = p ∧ (C d → Core p low high least node)

def Lasts (p low high : Nat) (least : ObLCLLabel) (Q : ObLCLNode → Prop) : Prop :=
  ∀ node node' msg, Core p low high least node → Harmless low high least msg →
    ObLCLNode.LclsEffect node msg node' → Q node → Q node'

theorem lasts_level : Lasts p low high least fun node => node.lclv.toNat = high :=
  fun _ _ _ core harmless effect level => core.level_eq effect harmless (.inl level.ge)

theorem lasts_label : Lasts p low high least fun node => node.publicLabel = least := by
  intro node node' msg core harmless effect marked
  rw [effect.label, marked]
  split
  next heeded => exact min_eq_left (core.least_le_label harmless heeded.1)
  next => rfl

theorem lasts_sent : Lasts p low high least fun node => node.lastSendCollectInfoPeriod = p := by
  intro node node' msg core _ effect sent
  rw [effect.lastSend]
  split
  · exact core.period
  · exact sent

variable {base : System D} {deliveries : List (D × ObLCLMessage)} {u v : D}
variable (hears : Hears C p low high least s base s' deliveries)

include hears

theorem effect {d : D} {msg : ObLCLMessage} {t : Nat} {node : ObLCLNode} (mem : (d, msg) ∈ deliveries)
    (inPhase : t / PHASE_TIME = 2 * p + 1) (period : node.lclPeriod = p) :
    ObLCLNode.LclsEffect node msg (node.processLclMessage t msg).1 :=
  ObLCLNode.processLclMessage_odd (by omega) inPhase (hears.heard.sent _ mem).1 (by omega)

theorem kept_start (d : D) : Kept C p low high least s d (base.node d) := by
  have period := hears.heard.period d
  exact ⟨(hears.heard.updated d).identity, by omega, hears.core d⟩

theorem kept_step (d : D) (msg : ObLCLMessage) (t : Nat) (node : ObLCLNode) (mem : (d, msg) ∈ deliveries)
    (inPhase : t / PHASE_TIME = 2 * p + 1) (kept : Kept C p low high least s d node) :
    Kept C p low high least s d (node.processLclMessage t msg).1 := by
  have effect := hears.effect mem inPhase kept.2.1
  exact ⟨effect.identity.trans kept.1, effect.period.trans kept.2.1,
    fun hd => (kept.2.2 hd).keep effect (hears.harmless d msg mem hd)⟩

theorem kept (d : D) : Kept C p low high least s d (s'.node d) :=
  hears.heard.handles.node_rule hears.kept_step hears.kept_start d

theorem stays {Q : ObLCLNode → Prop} (lasts : Lasts p low high least Q) (hv : C v) (holds : Q (base.node v)) :
    Q (s'.node v) := by
  have both := hears.heard.handles.node_rule
    (P := fun d node => Kept C p low high least s d node ∧ (d = v → Q node)) ?_ ?_ v
  · exact both.2 rfl
  · intro d msg t node mem inPhase h
    refine ⟨hears.kept_step d msg t node mem inPhase h.1, fun eq => ?_⟩
    exact lasts node _ msg (h.1.2.2 (eq ▸ hv)) (hears.harmless d msg mem (eq ▸ hv))
      (hears.effect mem inPhase h.1.2.1) (h.2 eq)
  · exact fun d => ⟨hears.kept_start d, fun eq => eq ▸ holds⟩

/-- What one of the messages to `v` brings about lasts to the end of the round. -/
theorem arrives {Q : ObLCLNode → Prop} (lasts : Lasts p low high least Q) {msg : ObLCLMessage}
    (hv : C v) (mem : (v, msg) ∈ deliveries)
    (bring : ∀ node node', Core p low high least node → node.privateLabel = s.label v → ObLCLNode.LclsEffect node msg node' → Q node') :
    Q (s'.node v) := by
  refine hears.heard.handles.reaches (P := Kept C p low high least s) (Q := fun d node => d = v → Q node)
    hears.kept_step ?_ hears.kept_start mem ?_ rfl
  · intro d m t node mem' inPhase kept holds eq
    exact lasts node _ m (kept.2.2 (eq ▸ hv)) (hears.harmless d m mem' (eq ▸ hv))
      (hears.effect mem' inPhase kept.2.1) (holds eq)
  · intro t node inPhase kept _
    exact bring node _ (kept.2.2 hv) (ObLCLNode.privateLabel_of_identity kept.1) (hears.effect mem inPhase kept.2.1)

theorem top (hu : C u) (hv : C v) (waits : s.WaitsFor u v) (level : (s.node u).lclv.toNat = high) :
    ∃ msg, (v, msg) ∈ deliveries ∧ msg.lclv.toNat = high ∧ ((s.node u).publicLabel = least → msg.label = least) := by
  obtain ⟨msg, mem, good⟩ := hears.heard.heard u v waits
  have lowHigh := (hears.core u hu).low_le
  rw [hears.lclv] at good lowHigh
  rw [hears.label] at good
  have ge : high ≤ msg.lclv.toNat := by
    rcases good with less | ⟨same, -⟩
    · omega
    · rw [← same, level]
  obtain ⟨le, labelled⟩ : msg.lclv.toNat ≤ high ∧ least ≤ msg.label := by
    rcases hears.harmless v msg mem hv with below | within
    · omega
    · exact within
  refine ⟨msg, mem, le_antisymm le ge, fun own => ?_⟩
  rcases good with less | ⟨-, smaller⟩
  · omega
  · exact le_antisymm (own ▸ smaller) labelled

theorem level_keep (hv : C v) (level : (s.node v).lclv.toNat = high) : (s'.node v).lclv.toNat = high :=
  hears.stays lasts_level hv (by rw [hears.lclv, level])

theorem level_reach (hu : C u) (hv : C v) (waits : s.WaitsFor u v) (level : (s.node u).lclv.toNat = high) :
    (s'.node v).lclv.toNat = high := by
  obtain ⟨msg, mem, level', -⟩ := hears.top hu hv waits level
  apply hears.arrives lasts_level hv mem
  exact fun node node' core _ effect => core.level_eq effect (hears.harmless v msg mem hv) (.inr level'.ge)

theorem label_keep (hv : C v) (label : (s.node v).publicLabel = least) : (s'.node v).publicLabel = least :=
  hears.stays lasts_label hv (by rw [hears.label, label])

theorem label_reach (hu : C u) (hv : C v) (waits : s.WaitsFor u v) (marked : Marked high least (s.node u))
    (other : s.label v ≠ least) : (s'.node v).publicLabel = least := by
  obtain ⟨msg, mem, level, labelled⟩ := hears.top hu hv waits marked.1
  apply hears.arrives lasts_label hv mem
  intro node node' core own effect
  have heeded : node.lclv ≤ msg.lclv := le_iff_toNat_le.2 (core.le_high.trans level.ge)
  rw [effect.label, labelled marked.2, own, if_pos ⟨heeded, other.symm⟩]
  exact min_eq_right core.label

theorem sent_reach (hu : C u) (hv : C v) (waits : s.WaitsFor u v) (marked : Marked high least (s.node u))
    (own : s.label v = least) : (s'.node v).lastSendCollectInfoPeriod = p := by
  obtain ⟨msg, mem, level, labelled⟩ := hears.top hu hv waits marked.1
  apply hears.arrives lasts_sent hv mem
  intro node node' core same effect
  have heeded : node.lclv ≤ msg.lclv := le_iff_toNat_le.2 (core.le_high.trans level.ge)
  rw [effect.lastSend, if_pos ⟨heeded, by rw [labelled marked.2, same, own]⟩]
  exact core.period

end Hears

theorem Settled.round (settled : Settled C p low high x least s) (round : Round (2 * p + 1) s s') (inC : C x)
    (grown : s'.Grown) (outside : ∀ u v, C v → s'.WaitsFor u v → ¬C u → (s'.node u).lclv.toNat < low) :
    Settled C p low high x least s' := by
  obtain ⟨base, deliveries, hears⟩ := round.hears settled
  have kept := hears.kept
  constructor
  · exact hears.heard.idle_after fun d => (kept d).1
  · exact fun d => (grown.nodes d).countDown
  · exact fun d => (kept d).2.1
  · exact outside
  · exact fun v hv => (kept v).2.2 hv
  · exact hears.label_keep inC settled.own
  · rw [label_eq fun d => (kept d).1]
    exact settled.label

end Rounds

/-! ### A period of rounds -/

/-- The detectors after `i` LCLP rounds that began with levels up to `start`. -/
structure Rising (C : D → Prop) (p start i : Nat) (s : System D) : Prop where
  idle : ∀ d, s.cache (s.node d).selfAddr = []
  ready : ∀ d, Ready p (s.node d)
  period : 0 < i → ∀ d, (s.node d).lclPeriod = p
  bounded : ∀ d, (s.node d).lclv.toNat ≤ start + i
  risen : ∀ v, C v → i ≤ (s.node v).lclv.toNat

theorem Rising.round {C : D → Prop} {start i : Nat} (rising : Rising C p start i s) (round : Round (2 * p) s s')
    (grown : s.Grown) (pred : ∀ v, C v → ∃ u, C u ∧ s.WaitsFor u v) (room : start + i + 1 < 2 ^ 64) :
    Rising C p start (i + 1) s' := by
  have after := round.lclp rising.idle (fun d => (grown.nodes d).countDown) rising.ready rising.bounded room
  refine ⟨after.idle, after.ready, fun _ => after.period, after.bounded, ?_⟩
  intro v hv
  obtain ⟨u, hu, waits⟩ := pred v hv
  calc i + 1 ≤ (s.node u).lclv.toNat + 1 := Nat.add_le_add_right (rising.risen u hu) 1
    _ ≤ (s'.node v).lclv.toNat := after.climbs u v waits

theorem rounds_run {phase count : Nat} {states : Nat → System D}
    (rounds : ∀ i < count, Round phase (states i) (states (i + 1))) :
    ∀ i ≤ count, ReflTransGen FixedStep (states 0) (states i) := by
  intro i
  induction i with
  | zero => exact fun _ => ReflTransGen.refl
  | succ i ih => exact fun le => (ih (by omega)).trans (rounds i (by omega)).run

theorem Rounds.run {phase count : Nat} (rounds : Rounds phase count s s') : ReflTransGen FixedStep s s' := by
  obtain ⟨states, rfl, rfl, each⟩ := rounds
  exact rounds_run each count le_rfl

section Period

variable {x : D}

omit [DecidableEq D] in
/-- Detectors that lead to the component of `x` without being in it stay below its levels. -/
theorem Grown.outside [Fintype D] (grown : s.Grown) (source : Source s.WaitsFor x) {u v : D} (hv : Component s.WaitsFor x v)
    (waits : s.WaitsFor u v) (hu : ¬Component s.WaitsFor x u) : (s.node u).lclv.toNat < card D :=
  (grown.nodes u).climbs.lt_card (source.acyclic_pred hv waits hu)

omit [DecidableEq D] in
theorem Grown.ready (grown : s.Grown) (early : s.now / PHASE_TIME ≤ 2 * p) (later : 0 < p) (d : D) :
    Ready p (s.node d) := by
  have node := grown.nodes d
  have half := phase_half s.now
  have period := node.period_le
  refine ⟨by omega, fun current => node.label (by omega), fun sent => ?_⟩
  rcases node.lastSend with never | before
  · omega
  · omega

variable {count high : Nat} {states : Nat → System D}

theorem Grown.rising {start : Nat} (grown : (states 0).Grown)
    (idle : ∀ d, (states 0).cache ((states 0).node d).selfAddr = []) (ready : ∀ d, Ready p ((states 0).node d))
    (bounded : ∀ d, ((states 0).node d).lclv.toNat ≤ start) (room : start + count < 2 ^ 64)
    (rounds : ∀ i < count, Round (2 * p) (states i) (states (i + 1))) (cyclic : TransGen (states 0).WaitsFor x x) :
    ∀ i ≤ count, Rising (Component (states 0).WaitsFor x) p start i (states i) := by
  intro i
  induction i with
  | zero => exact fun _ => ⟨idle, ready, fun lt => absurd lt (lt_irrefl 0), bounded, fun _ _ => Nat.zero_le _⟩
  | succ i ih =>
    intro le
    have run := rounds_run rounds i (by omega)
    apply (ih (by omega)).round (rounds i (by omega)) (grown.run run) _ (by omega)
    intro v hv
    rw [FixedStep.waitsFor_run run]
    obtain ⟨u, waits, hu⟩ := exists_pred cyclic hv
    exact ⟨u, hu, waits⟩

variable [Fintype D]

/-- The LCLS rounds of a period, from a state that is settled. -/
structure LclsPhase (x : D) (p high count : Nat) (least : ObLCLLabel) (states : Nat → System D) : Prop where
  grown : (states 0).Grown
  source : Source (states 0).WaitsFor x
  settled : Settled (Component (states 0).WaitsFor x) p (card D) high x least (states 0)
  rounds : ∀ i < count, Round (2 * p + 1) (states i) (states (i + 1))

namespace LclsPhase

variable {least : ObLCLLabel} (lcls : LclsPhase x p high count least states) {i : Nat} {u v w : D}
include lcls

theorem settled_at (le : i ≤ count) : Settled (Component (states 0).WaitsFor x) p (card D) high x least (states i) := by
  induction i with
  | zero => exact lcls.settled
  | succ i ih =>
    have run := rounds_run lcls.rounds (i + 1) le
    have grown := lcls.grown.run run
    apply (ih (by omega)).round (lcls.rounds i le) (Component.self x) grown
    intro u v hv waits hu
    have source := lcls.source
    rw [← FixedStep.waitsFor_run run] at hv hu source
    exact grown.outside source hv waits hu

theorem hears (lt : i < count) : ∃ base deliveries, Hears (Component (states 0).WaitsFor x) p (card D) high
    least (states i) base (states (i + 1)) deliveries :=
  (lcls.rounds i lt).hears (lcls.settled_at lt.le)

theorem waits (lt : i < count) (edge : (states 0).WaitsFor u v) : (states i).WaitsFor u v := by
  rwa [FixedStep.waitsFor_run (rounds_run lcls.rounds i lt.le)]

/-- First the levels of the component become equal. -/
theorem level (hw : Component (states 0).WaitsFor x w) (top : ((states 0).node w).lclv.toNat = high)
    (hv : Component (states 0).WaitsFor x v) (enough : card D ≤ count + 1) :
    ((states (card D - 1)).node v).lclv.toNat = high := by
  have reach := hw.within (hw.2.trans hv.1) hv.2
  apply spread_reach (S := fun j v => j ≤ count → Component (states 0).WaitsFor x v →
    ((states j).node v).lclv.toNat = high) _ _ reach (i := 0) (fun _ _ => top) (by omega) (by omega) hv
  · intro j v holds lt hv
    obtain ⟨base, deliveries, hears⟩ := lcls.hears lt
    exact hears.level_keep hv (holds (by omega) hv)
  · intro j u v holds edge lt hv
    obtain ⟨base, deliveries, hears⟩ := lcls.hears lt
    exact hears.level_reach edge.2.1 hv (lcls.waits lt edge.1) (holds (by omega) edge.2.1)

/-- Then the least label goes round it. -/
theorem marked (level : ((states i).node x).lclv.toNat = high) (hv : Component (states 0).WaitsFor x v)
    (enough : i + card D ≤ count + 1) :
    Marked high least ((states (i + card D - 1)).node v) := by
  have reach := (Component.self x).within hv.1 hv.2
  apply spread_reach (S := fun j v => j ≤ count → Component (states 0).WaitsFor x v →
    Marked high least ((states j).node v)) _ _ reach (i := i)
    (fun le _ => ⟨level, (lcls.settled_at le).own⟩) (by omega) (by omega) hv
  · intro j v holds lt hv
    obtain ⟨base, deliveries, hears⟩ := lcls.hears lt
    have before := holds (by omega) hv
    exact ⟨hears.level_keep hv before.1, hears.label_keep hv before.2⟩
  · intro j u v holds edge lt hv
    obtain ⟨base, deliveries, hears⟩ := lcls.hears lt
    have before := holds (by omega) edge.2.1
    have waits := lcls.waits lt edge.1
    refine ⟨hears.level_reach edge.2.1 hv waits before.1, ?_⟩
    by_cases home : v = x
    · rw [home]
      exact (lcls.settled_at lt).own
    · apply hears.label_reach edge.2.1 hv waits before
      exact fun own => home (((lcls.settled_at (by omega)).label v).1 own)

/-- Then it comes home. -/
theorem found (cyclic : TransGen (states 0).WaitsFor x x) (hw : Component (states 0).WaitsFor x w)
    (top : ((states 0).node w).lclv.toNat = high) (enough : 2 * card D ≤ count) :
    ((states count).node x).lastSendCollectInfoPeriod = p := by
  have size : 0 < card D := card_pos_iff.2 ⟨x⟩
  have level := lcls.level hw top (Component.self x) (by omega)
  have home : ∀ i, card D - 1 + card D - 1 + 1 ≤ i → i ≤ count → ((states i).node x).lastSendCollectInfoPeriod = p := by
    intro i late
    induction i, late using Nat.le_induction with
    | base =>
      intro lt
      obtain ⟨u, waits, hu⟩ := Component.exists_pred cyclic (Component.self x)
      obtain ⟨base, deliveries, hears⟩ := lcls.hears lt
      apply hears.sent_reach hu (Component.self x) (lcls.waits lt waits) (lcls.marked level hu (by omega))
      exact ((lcls.settled_at (by omega)).label x).2 rfl
    | succ i late ih =>
      intro lt
      obtain ⟨base, deliveries, hears⟩ := lcls.hears lt
      apply hears.stays Hears.lasts_sent (self x)
      rw [(hears.heard.updated x).lastSend, ih (by omega)]
  exact home count (by omega) le_rfl

end LclsPhase

omit [DecidableEq D] in
theorem Rising.settled {C : D → Prop} {start i : Nat} (rising : Rising C p start i s) (grown : s.Grown)
    (distinct : Function.Injective s.label) (begun : card D ≤ i)
    (outside : ∀ u v, C v → s.WaitsFor u v → ¬C u → (s.node u).lclv.toNat < card D)
    (highest : ∀ v, C v → (s.node v).lclv.toNat ≤ high) (least : ∀ v, C v → s.label x ≤ s.label v) :
    Settled C p (card D) high x (s.label x) s := by
  have size : 0 < card D := card_pos_iff.2 ⟨x⟩
  have period : ∀ d, (s.node d).lclPeriod = p := rising.period (by omega)
  have own : ∀ d, (s.node d).publicLabel = s.label d := fun d => (rising.ready d).label (period d)
  constructor
  · exact rising.idle
  · exact fun d => (grown.nodes d).countDown
  · exact period
  · exact outside
  · exact fun v hv => ⟨period v, begun.trans (rising.risen v hv), highest v hv, by rw [own]; exact least v hv⟩
  · exact own x
  · exact fun v => distinct.eq_iff

end Period

def DetectedIn (s : System D) (p : Nat) (x : D) : Prop := ∃ t, (x, t) ∈ s.detections ∧ t / PERIOD = p

/-- One component: its detector with the least label detects the deadlock. -/
theorem least_detected [Fintype D] {s₁ s₂ : System D} {k m : Nat} {x : D} (grown : s.Grown)
    (distinct : Function.Injective s.label) (idle : ∀ d, s.cache (s.node d).selfAddr = [])
    (early : s.now / PHASE_TIME ≤ 2 * p) (later : 0 < p) (room : ∀ d, (s.node d).lclv.toNat + k < 2 ^ 64)
    (lclp : Rounds (2 * p) k s s₁) (lcls : Rounds (2 * p + 1) m s₁ s₂) (enough : card D ≤ k)
    (enough' : 2 * card D ≤ m) (cyclic : TransGen s.WaitsFor x x) (source : Source s.WaitsFor x)
    (least : ∀ v, Component s.WaitsFor x v → s.label x ≤ s.label v) : DetectedIn s₂ p x := by
  obtain ⟨up, rfl, rfl, upRounds⟩ := lclp
  obtain ⟨down, same, rfl, downRounds⟩ := lcls
  obtain ⟨highest, -, start_le⟩ := Finset.exists_max_image Finset.univ
    (fun d => ((up 0).node d).lclv.toNat) ⟨x, Finset.mem_univ x⟩
  have run := rounds_run upRounds k le_rfl
  have rising := grown.rising idle (grown.ready early later) (fun d => start_le d (Finset.mem_univ d)) (room highest)
    upRounds cyclic k le_rfl
  have waits : (down 0).WaitsFor = (up 0).WaitsFor := by rw [same, FixedStep.waitsFor_run run]
  have label : (down 0).label = (up 0).label := by rw [same, label_eq (FixedStep.identity_run run)]
  have grown' : (down 0).Grown := by
    rw [same]
    exact grown.run run
  rw [← same, ← waits] at rising
  rw [← waits] at cyclic source least
  rw [← label] at distinct least
  classical
  obtain ⟨w, hw, top⟩ := exists_max_image (univ.filter (Component (down 0).WaitsFor x))
    (fun d => ((down 0).node d).lclv.toNat) ⟨x, by simp [self]⟩
  have settled := rising.settled grown' distinct enough (fun u v hv waits hu => grown'.outside source hv waits hu)
    (fun v hv => top v (mem_filter.2 ⟨mem_univ v, hv⟩)) least
  have lcls : LclsPhase x p _ m _ down := ⟨grown', source, settled, downRounds⟩
  have sent := lcls.found cyclic (mem_filter.1 hw).2 rfl enough'
  have reported := (grown'.run (rounds_run downRounds m le_rfl)).logged x (by omega)
  rwa [sent] at reported

/-- Detectors whose wait-for graph is fixed from their creation have, in some period after the
first one, as many LCLP rounds as there are detectors and then twice as many LCLS rounds, and the
levels stay in their 64 bits. Then every cyclic component that no other one leads to is detected
by its detector with the least label, so every deadlock leads to a detection on a cycle. -/
theorem deadlocks_found [Fintype D] {s₀ s₁ s₂ : System D} {k m : Nat} (created : s₀.Created)
    (armed : ∀ d, (s₀.node d).countDownAllowDetect = 0) (distinct : Function.Injective s₀.label)
    (earlier : ReflTransGen FixedStep s₀ s) (idle : ∀ d, s.cache (s.node d).selfAddr = [])
    (early : s.now / PHASE_TIME ≤ 2 * p) (later : 0 < p) (room : ∀ d, (s.node d).lclv.toNat + k < 2 ^ 64)
    (lclp : Rounds (2 * p) k s s₁) (lcls : Rounds (2 * p + 1) m s₁ s₂) (enough : card D ≤ k)
    (enough' : 2 * card D ≤ m) :
    (∀ x, TransGen s₀.WaitsFor x x → Source s₀.WaitsFor x →
      (∀ v, Component s₀.WaitsFor x v → s₀.label x ≤ s₀.label v) → DetectedIn s₂ p x) ∧
    ((∃ c, TransGen s₀.WaitsFor c c) → ∃ x, TransGen s₀.WaitsFor x x ∧ DetectedIn s₂ p x) := by
  have grown : s.Grown := (created.grown armed).run earlier
  have waits := FixedStep.waitsFor_run earlier
  have label := label_eq (FixedStep.identity_run earlier)
  rw [← waits, ← label]
  rw [← label] at distinct
  have found : ∀ x, TransGen s.WaitsFor x x → Source s.WaitsFor x →
      (∀ v, Component s.WaitsFor x v → s.label x ≤ s.label v) → DetectedIn s₂ p x :=
    fun x cyclic source least =>
      least_detected grown distinct idle early later room lclp lcls enough enough' cyclic source least
  refine ⟨found, fun ⟨c, cyclic⟩ => ?_⟩
  obtain ⟨x, cyclicX, source, least⟩ := exists_least_source s.label cyclic
  exact ⟨x, cyclicX, found x cyclicX source least⟩

/-! ### Detections over all runs -/

/-- Whatever is lost, delayed, repeated or reordered, a detector that reports waits for itself. -/
theorem detections_cyclic {s₀ : System D} (created : s₀.Created) (distinct : Function.Injective s₀.label)
    (run : ReflTransGen FixedStep s₀ s) : ∀ e ∈ s.detections, TransGen s₀.WaitsFor e.1 e.1 := by
  induction run with
  | refl => simp [created.detections]
  | @tail s s' run last ih =>
    cases last.1 with
    | advance | pushState | send | decCountDown => exact ih
    | @handle d msg onWire dest =>
      intro e member
      by_cases flag : ((s.node d).processLclMessage s.now msg).2 = true
      · rw [show (s.handle d msg).detections = (d, s.now) :: s.detections from if_pos flag] at member
        rcases List.mem_cons.1 member with rfl | old
        · have tracked : s.Tracked :=
            created.tracked.run (ReflTransGen.mono (fun _ _ step => ⟨step.1, fun _ => step.2⟩) _ _ run)
          obtain ⟨phase, own, -⟩ := ObLCLNode.of_detected flag
          obtain ⟨y, waits, z, label, walk⟩ :=
            tracked.carries msg (Or.inl onWire) (ObLCLNode.period_eq_of_ifPhaseMatch phase).symm
          have same := label_eq (FixedStep.identity_run run)
          obtain rfl : z = d := distinct (by rw [← same, label, own]; rfl)
          rw [← FixedStep.waitsFor_run run]
          exact TransGen.tail' (ReflTransGen.mono (fun _ _ step => step.1) _ _ walk) (by rwa [WaitsFor, ← dest])
        · exact ih e old
      · exact ih e (by rwa [show (s.handle d msg).detections = s.detections from if_neg flag] at member)

/-- Detectors that wait by their block lists alone, few enough for the sender caches: in some run a
deadlock is reported exactly if there is one, whatever the clock shows when they are created. -/
theorem detectable_iff_cyclic [Fintype D] {s₀ : System D} (created : s₀.Created)
    (armed : ∀ d, (s₀.node d).countDownAllowDetect = 0) (distinct : Function.Injective s₀.label)
    (plain : ∀ d, (s₀.node d).Plain) (small : ∑ d, (s₀.node d).blockList.length ≤ LCL_MSG_CACHE_LIMIT / 2)
    (few : card D < 2 ^ 64) :
    (∃ s, ReflTransGen FixedStep s₀ s ∧ s.detections ≠ []) ↔ ∃ c, TransGen s₀.WaitsFor c c := by
  constructor
  · rintro ⟨s, run, some⟩
    obtain ⟨e, member⟩ := List.exists_mem_of_ne_nil _ some
    exact ⟨e.1, detections_cyclic created distinct run e member⟩
  · rintro ⟨c, cyclic⟩
    obtain ⟨x, cyclicX, source, least⟩ := exists_least_source s₀.label cyclic
    -- a period that has not begun yet
    generalize later : s₀.now + 1 = p
    have inPhase (q : ℕ) : PHASE_TIME * q / PHASE_TIME = q := Nat.mul_div_cancel_left q (by decide)
    have early : s₀.now / PHASE_TIME ≤ 2 * p := (Nat.div_le_self _ _).trans (by omega)
    have start : s₀.now ≤ PHASE_TIME * (2 * p) := by
      have := Nat.le_mul_of_pos_left (2 * p) (show 0 < PHASE_TIME by decide)
      omega
    have room : ∀ d, (s₀.node d).lclv.toNat + card D < 2 ^ 64 := by
      intro d
      rw [(created.fresh d).1]
      simpa using few
    obtain ⟨s₁, lclp, progress, idle⟩ := exists_rounds (inPhase (2 * p)) start plain armed
      (fun d => created.cache _) small (card D)
    obtain ⟨s₂, lcls, -, -⟩ := exists_rounds (inPhase (2 * p + 1))
      (progress.now_le.trans (Nat.mul_le_mul_left _ (Nat.le_succ _))) progress.plain
      (fun d => (progress.countDown d).trans (armed d)) idle (by simpa only [progress.list] using small) (2 * card D)
    obtain ⟨t, member, -⟩ := least_detected (created.grown armed) distinct (fun d => created.cache _) early
      (by omega) room lclp lcls le_rfl le_rfl cyclicX source least
    exact ⟨s₂, lclp.run.trans lcls.run, List.ne_nil_of_mem member⟩

/-! ### The first period -/

/-- A new detector counts the period 0 as one in which it has reported already: before the clock
reaches the second period nothing is detected. -/
theorem first_period_silent {s₀ : System D} (created : s₀.Created)
    (armed : ∀ d, (s₀.node d).countDownAllowDetect = 0) (run : ReflTransGen FixedStep s₀ s)
    (first : s.now / PERIOD = 0) : s.detections = [] := by
  induction run with
  | refl => exact created.detections
  | @tail s s' run last ih =>
    have grown := (created.grown armed).run run
    cases last.1 with
    | advance _ _ le => exact ih (Nat.eq_zero_of_le_zero (first ▸ Nat.div_le_div_right le))
    | pushState _ _ => exact ih first
    | send _ => exact ih first
    | decCountDown _ => exact ih first
    | @handle d msg _ _ =>
      have node := grown.nodes d
      have period := node.period_le
      have half := phase_half s.now
      have first' : s.now / PERIOD = 0 := first
      have current : ((s.node d).updateLclPeriod s.now).lclPeriod = 0 := by
        rw [ObLCLNode.updateLclPeriod_eq]
        dsimp only
        omega
      have reported : (s.node d).lastSendCollectInfoPeriod = 0 := by
        rcases node.lastSend with never | before
        · exact never
        · omega
      have silent : ((s.node d).processLclMessage s.now msg).2 = false := by
        rw [Bool.eq_false_iff]
        exact fun detected => (ObLCLNode.of_detected detected).2.2 (reported.trans current.symm)
      simpa [handle, silent] using ih first'

/-! ### Two detectors that wait for each other -/

variable (now : Nat)

theorem pairWaiting_waitsFor {d e : Fin 2} (ne : d ≠ e) : (pairWaiting now).WaitsFor d e := by
  revert d e
  show ∀ d e : Fin 2, d ≠ e → (⟨1, e + 1⟩ : ObDependencyResource) ∈ [⟨1, 2 - d⟩]
  decide

theorem pairWaiting_reach (d : Fin 2) : ReflTransGen (pairWaiting now).WaitsFor 0 d := by
  by_cases eq : 0 = d
  · rw [← eq]
  · exact ReflTransGen.single (pairWaiting_waitsFor now eq)

theorem pairWaiting_cyclic : TransGen (pairWaiting now).WaitsFor 0 0 :=
  TransGen.tail (TransGen.single (pairWaiting_waitsFor now (show (0 : Fin 2) ≠ 1 by decide)))
    (pairWaiting_waitsFor now (by decide))

theorem pairWaiting_least (d : Fin 2) : (pairWaiting now).label 0 ≤ (pairWaiting now).label d := by
  revert d
  show ∀ d : Fin 2, (⟨1, 1, ⟨0, 1⟩⟩ : ObLCLLabel) ≤ ⟨1, d + 1, ⟨0, 1⟩⟩
  decide

theorem pairWaiting_small : ∑ d, ((pairWaiting now).node d).blockList.length ≤ LCL_MSG_CACHE_LIMIT / 2 := by
  show ∑ _d : Fin 2, 1 ≤ LCL_MSG_CACHE_LIMIT / 2
  decide

theorem pairWaiting_detectable : (∃ s, ReflTransGen FixedStep (pairWaiting 0) s ∧ s.detections ≠ []) ↔
    ∃ c, TransGen (pairWaiting 0).WaitsFor c c :=
  detectable_iff_cyclic (pairWaiting_created 0) (fun _ => rfl) (pairWaiting_distinct 0) (fun _ => rfl)
    (pairWaiting_small 0) (by decide)

theorem pairWaiting_rounds {now t phase : Nat} (inPhase : t / PHASE_TIME = phase) (le : now ≤ t) (t' : Nat)
    (inPhase' : t' / PHASE_TIME = phase + 1) (le' : t ≤ t') :
    ∃ s₁ s₂, Rounds phase 2 (pairWaiting now) s₁ ∧ Rounds (phase + 1) 4 s₁ s₂ ∧ s₂.now ≤ t' := by
  obtain ⟨s₁, lclp, progress, idle⟩ := exists_rounds (s := pairWaiting now) inPhase le (fun _ => rfl) (fun _ => rfl)
    (fun _ => rfl) (pairWaiting_small now) 2
  have small : ∑ d, (s₁.node d).blockList.length ≤ LCL_MSG_CACHE_LIMIT / 2 := by
    simp only [progress.list]
    exact pairWaiting_small now
  obtain ⟨s₂, lcls, progress', -⟩ := exists_rounds inPhase' (progress.now_le.trans le') progress.plain
    (fun d => progress.countDown d) idle small 4
  exact ⟨s₁, s₂, lclp, lcls, progress'.now_le⟩

/-- In the second period the first of the two finds the deadlock. -/
theorem pairWaiting_found :
    ∃ s₁ s₂, Rounds 2 2 (pairWaiting (2 * PHASE_TIME)) s₁ ∧ Rounds 3 4 s₁ s₂ ∧ DetectedIn s₂ 1 0 := by
  obtain ⟨s₁, s₂, lclp, lcls, -⟩ := pairWaiting_rounds (show 2 * PHASE_TIME / PHASE_TIME = 2 by decide) le_rfl
    (3 * PHASE_TIME) (by decide) (by decide)
  refine ⟨s₁, s₂, lclp, lcls, ?_⟩
  have room : ∀ d, ((pairWaiting (2 * PHASE_TIME)).node d).lclv.toNat + 2 < 2 ^ 64 := by
    intro d
    show (0 : UInt64).toNat + 2 < 2 ^ 64
    decide
  have found := deadlocks_found (p := 1) (pairWaiting_created _) (fun _ => rfl) (pairWaiting_distinct _)
    ReflTransGen.refl (fun _ => rfl) (by decide) (by decide) room lclp lcls (by decide) (by decide)
  exact found.1 0 (pairWaiting_cyclic _) (fun c _ _ => pairWaiting_reach _ c) (fun v _ => pairWaiting_least _ v)

/-- In the first period the same rounds find nothing. -/
theorem pairWaiting_first_period_missed :
    ∃ s₁ s₂, (pairWaiting 0).Created ∧ (∀ d, ((pairWaiting 0).node d).countDownAllowDetect = 0) ∧
      Function.Injective (pairWaiting 0).label ∧ Rounds 0 2 (pairWaiting 0) s₁ ∧ Rounds 1 4 s₁ s₂ ∧
      TransGen (pairWaiting 0).WaitsFor 0 0 ∧ Source (pairWaiting 0).WaitsFor 0 ∧
      (∀ v, (pairWaiting 0).label 0 ≤ (pairWaiting 0).label v) ∧ s₂.detections = [] := by
  obtain ⟨s₁, s₂, lclp, lcls, now_le⟩ := pairWaiting_rounds (show 0 / PHASE_TIME = 0 by decide) le_rfl
    PHASE_TIME (by decide) (by decide)
  have silent : s₂.detections = [] := by
    have run : ReflTransGen FixedStep (pairWaiting 0) s₂ := lclp.run.trans lcls.run
    apply first_period_silent (pairWaiting_created 0) (fun _ => rfl) run
    have period : PHASE_TIME / PERIOD = 0 := by decide
    exact Nat.eq_zero_of_le_zero (period ▸ Nat.div_le_div_right now_le)
  exact ⟨s₁, s₂, pairWaiting_created 0, fun _ => rfl, pairWaiting_distinct 0, lclp, lcls, pairWaiting_cyclic 0,
    fun c _ _ => pairWaiting_reach 0 c, pairWaiting_least 0, silent⟩

end System

end IMBridge.Deadlock
