import Mathlib.Algebra.Order.Group.Nat
import IMBridge.Deadlock.LclSystem

/-!
What a synchronous round does. A message stands for the best of the states that were merged into it:
highest level first, then smallest label.
-/

namespace IMBridge.Deadlock

open Relation ObLCLMessage Or List ObLCLNode Function

/-! ### The cache covers what is merged into it -/

/-- The message is at least as good as a state with the given level and label. -/
def ObLCLMessage.AtLeast (msg : ObLCLMessage) (lclv : UInt64) (label : ObLCLLabel) : Prop :=
  lclv.toNat < msg.lclv.toNat ∨ lclv = msg.lclv ∧ msg.label ≤ label

theorem ObLCLMessage.atLeast_self (msg : ObLCLMessage) : msg.AtLeast msg.lclv msg.label := inr ⟨rfl, le_rfl⟩

theorem ObLCLMessage.merge_atLeast {msg rhs merged : ObLCLMessage} (h : msg.merge rhs = some merged)
    {lclv : UInt64} {label : ObLCLLabel} (either : msg.AtLeast lclv label ∨ rhs.AtLeast lclv label) :
    merged.AtLeast lclv label := by
  unfold merge at h
  split at h
  · cases h
  split at h
  next higher =>
    cases h
    have lt : msg.lclv.toNat < rhs.lclv.toNat := UInt64.lt_iff_toNat_lt.1 higher
    rcases either with (less | ⟨rfl, -⟩) | ofRhs
    · exact inl (less.trans lt)
    · exact inl lt
    · exact ofRhs
  next notHigher =>
    split at h
    next tie =>
      cases h
      have smaller : rhs.label < msg.label := ObLCLLabel.less_eq_true.1 tie.2
      rcases either with (less | ⟨rfl, le⟩) | (less | ⟨rfl, le⟩)
      · exact inl less
      · exact inr ⟨rfl, smaller.le.trans le⟩
      · exact inl (tie.1 ▸ less)
      · exact inr ⟨tie.1.symm, le⟩
    next noTie =>
      cases h
      have le : rhs.lclv.toNat ≤ msg.lclv.toNat := Nat.le_of_not_lt fun lt => notHigher (UInt64.lt_iff_toNat_lt.2 lt)
      rcases either with ofMsg | less | ⟨rfl, leLabel⟩
      · exact ofMsg
      · exact inl (less.trans_le le)
      rcases Nat.lt_or_eq_of_le le with lt | same
      · exact inl lt
      have levels : rhs.lclv = msg.lclv := UInt64.toNat_inj.1 same
      have kept : msg.label ≤ rhs.label := by
        by_contra smaller
        exact noTie ⟨levels.symm, ObLCLLabel.less_eq_true.2 (not_le.1 smaller)⟩
      exact inr ⟨levels, kept.trans leLabel⟩

namespace LclMsgMap

def Keyed (map : LclMsgMap) : Prop := ∀ e ∈ map, e.2.dest = e.1

def Covers (map : LclMsgMap) (dest : ObDependencyResource) (lclv : UInt64) (label : ObLCLLabel) : Prop :=
  ∃ e ∈ map, e.2.dest = dest ∧ e.2.AtLeast lclv label

variable {map map' : LclMsgMap} {msg : ObLCLMessage} {key dest : ObDependencyResource} {lclv : UInt64}
  {label : ObLCLLabel}

theorem Covers.cons {e : ObDependencyResource × ObLCLMessage} (covers : map.Covers dest lclv label) :
    Covers (e :: map) dest lclv label := by
  obtain ⟨e', mem, rest⟩ := covers
  exact ⟨e', mem_cons_of_mem e mem, rest⟩

theorem operate_covers (keyed : map.Keyed) (addressed : msg.dest = key) (h : operate msg key map = some map') :
    map'.Keyed ∧ map'.Covers key msg.lclv msg.label ∧
      ∀ dest lclv label, map.Covers dest lclv label → map'.Covers dest lclv label := by
  induction map generalizing map' with
  | nil => simp [operate] at h
  | cons entry rest ih =>
    obtain ⟨k, value⟩ := entry
    have valueKey : value.dest = k := keyed _ mem_cons_self
    have restKeyed : Keyed rest := fun e mem => keyed e (mem_cons_of_mem _ mem)
    unfold operate at h
    split at h
    next here =>
      subst here
      obtain rfl := Option.some.inj h
      have merges : ∃ merged, value.merge msg = some merged := by
        unfold ObLCLMessage.merge
        rw [if_neg (by simp [valueKey, addressed])]
        split_ifs <;> exact ⟨_, rfl⟩
      obtain ⟨merged, eq⟩ := merges
      rw [eq, Option.getD_some]
      have dest_eq : merged.dest = k := (merge_cases eq).2.1.trans valueKey
      refine ⟨?_, ⟨_, mem_cons_self, dest_eq, ?_⟩, ?_⟩
      · exact forall_mem_cons.2 ⟨dest_eq, restKeyed⟩
      · exact merge_atLeast eq (inr msg.atLeast_self)
      · rintro dest lclv label ⟨e, mem, toDest, good⟩
        rcases mem_cons.1 mem with rfl | inRest
        · exact ⟨_, mem_cons_self, dest_eq.trans (valueKey.symm.trans toDest), merge_atLeast eq (inl good)⟩
        · exact ⟨e, mem_cons_of_mem _ inRest, toDest, good⟩
    next =>
      obtain ⟨merged, found, rfl⟩ := Option.map_eq_some_iff.1 h
      obtain ⟨keyed', new, old⟩ := ih restKeyed found
      refine ⟨?_, new.cons, ?_⟩
      · exact forall_mem_cons.2 ⟨valueKey, keyed'⟩
      · rintro dest lclv label ⟨e, mem, toDest, good⟩
        rcases mem_cons.1 mem with rfl | inRest
        · exact ⟨_, mem_cons_self, toDest, good⟩
        · exact (old dest lclv label ⟨e, inRest, toDest, good⟩).cons

variable (msg) in
theorem insertOrMerge_covers {canInsert : Bool} (keyed : map.Keyed) (addressed : msg.dest = key)
    (kept : (map.insertOrMerge key msg canInsert).2 = true) :
    Keyed (map.insertOrMerge key msg canInsert).1 ∧
      Covers (map.insertOrMerge key msg canInsert).1 key msg.lclv msg.label ∧
        ∀ dest lclv label, map.Covers dest lclv label →
          Covers (map.insertOrMerge key msg canInsert).1 dest lclv label := by
  unfold insertOrMerge at kept ⊢
  cases found : operate msg key map with
  | some merged => exact operate_covers keyed addressed found
  | none =>
    rw [found] at kept
    have inserted : canInsert = true := by
      by_contra dropped
      simp [dropped] at kept
    simp only [inserted, if_true]
    refine ⟨?_, ⟨(key, msg), by simp, addressed, msg.atLeast_self⟩, ?_⟩
    · exact forall_mem_append.2 ⟨keyed, forall_mem_singleton.2 addressed⟩
    · rintro dest lclv label ⟨e, mem, rest⟩
      exact ⟨e, mem_append_left _ mem, rest⟩

end LclMsgMap

theorem ObLCLNode.broadcast_covers {node : ObLCLNode} {now : Nat} {draws : Nat → Nat}
    {list : List ObDependencyResource} {map : LclMsgMap} (keyed : map.Keyed)
    (kept : ∀ k ∈ (node.broadcast now draws list map).2, k = true) :
    LclMsgMap.Keyed (node.broadcast now draws list map).1 ∧
      (∀ dest ∈ list, LclMsgMap.Covers (node.broadcast now draws list map).1 dest node.lclv node.publicLabel) ∧
        ∀ dest lclv label, map.Covers dest lclv label →
          LclMsgMap.Covers (node.broadcast now draws list map).1 dest lclv label := by
  induction list generalizing map with
  | nil => exact ⟨keyed, by simp, fun _ _ _ covers => covers⟩
  | cons dest rest ih =>
    obtain ⟨keyed', new, old⟩ := LclMsgMap.insertOrMerge_covers (node.stateMessage now dest) keyed rfl
      (kept _ mem_cons_self)
    obtain ⟨keyed'', news, olds⟩ := ih keyed' fun k mem => kept k (mem_cons_of_mem _ mem)
    exact ⟨keyed'', forall_mem_cons.2 ⟨olds _ _ _ new, news⟩,
      fun dest' lclv label covers => olds dest' lclv label (old dest' lclv label covers)⟩

/-! ### The pushes of a round -/

namespace System

variable {D : Type}

theorem SameGraph.trans {s₁ s₂ s₃ : System D} (first : SameGraph s₁ s₂) (second : SameGraph s₂ s₃) :
    SameGraph s₁ s₃ :=
  fun d => (second d).trans (first d)

variable [DecidableEq D] {phase : Nat} {s s' : System D}

variable {t : Nat} {pushers : List D} {P : D → ObLCLNode → Prop} {node : ObLCLNode} {d : D}
variable {deliveries : List (D × ObLCLMessage)}

theorem period_of_phase (h : t / PHASE_TIME = phase) : t / PERIOD = phase / 2 := by
  rw [phase_half, h]

theorem Pushes.node_rule (pushes : Pushes phase pushers s s')
    (step : ∀ d t node, t / PHASE_TIME = phase → P d node → P d (node.updateLclPeriod t).removeUnusefulCallback)
    (start : ∀ d, P d (s.node d)) : ∀ d, P d (s'.node d) := by
  induction pushes with
  | nil => exact start
  | @cons s s' t d rest draws _ inPhase _ _ _ ih =>
    apply ih
    rw [pushState_node, forall_update_iff]
    exact ⟨step d t _ inPhase (start d), fun e _ => start e⟩

theorem Pushes.sameGraph (pushes : Pushes phase pushers s s') : SameGraph s s' := by
  induction pushes with
  | nil => exact fun _ => rfl
  | cons _ _ _ _ graph _ ih => exact graph.trans ih

structure Updated (phase : Nat) (node node' : ObLCLNode) : Prop where
  identity : node'.identity = node.identity
  lclv : node'.lclv = node.lclv
  lastSend : node'.lastSendCollectInfoPeriod = node.lastSendCollectInfoPeriod
  countDown : node'.countDownAllowDetect = node.countDownAllowDetect
  period_le : node'.lclPeriod ≤ phase / 2
  label : node.lclPeriod = phase / 2 → node'.publicLabel = node.publicLabel
  begun : node.lclPeriod < phase / 2 → node'.lclPeriod = phase / 2 → node'.publicLabel = node.privateLabel
  period : node.lclPeriod ≤ node'.lclPeriod

theorem Updated.refl (le : node.lclPeriod ≤ phase / 2) : Updated phase node node where
  identity := rfl
  lclv := rfl
  lastSend := rfl
  countDown := rfl
  period_le := le
  label _ := rfl
  begun lt eq := absurd eq lt.ne
  period := le_rfl

theorem Updated.update {node' : ObLCLNode} (updated : Updated phase node node') (inPhase : t / PHASE_TIME = phase) :
    Updated phase node (node'.updateLclPeriod t).removeUnusefulCallback := by
  have period := period_of_phase inPhase
  constructor
  · rw [removeUnusefulCallback_identity, updateLclPeriod_identity, updated.identity]
  · rw [removeUnusefulCallback_lclv, updateLclPeriod_lclv, updated.lclv]
  · rw [removeUnusefulCallback_lastSendCollectInfoPeriod, updateLclPeriod_lastSendCollectInfoPeriod, updated.lastSend]
  · rw [removeUnusefulCallback_countDownAllowDetect, updateLclPeriod_countDownAllowDetect, updated.countDown]
  · rw [removeUnusefulCallback_lclPeriod, updateLclPeriod_eq, period]
    exact max_le updated.period_le le_rfl
  · intro current
    rw [removeUnusefulCallback_publicLabel, updateLclPeriod_eq, period]
    rw [if_neg (not_lt.2 (current ▸ updated.period)), updated.label current]
  · intro old _
    rw [removeUnusefulCallback_publicLabel, updateLclPeriod_eq, period]
    split
    next => exact privateLabel_of_identity updated.identity
    next notBegun => exact updated.begun old (le_antisymm updated.period_le (not_lt.1 notBegun))
  · rw [removeUnusefulCallback_lclPeriod, updateLclPeriod_eq]
    exact updated.period.trans (le_max_left _ _)

theorem Pushes.updated (pushes : Pushes phase pushers s s') (period_le : ∀ d, (s.node d).lclPeriod ≤ phase / 2)
    (d : D) : Updated phase (s.node d) (s'.node d) :=
  pushes.node_rule (P := fun d node => Updated phase (s.node d) node)
    (fun _ _ _ inPhase updated => updated.update inPhase) (fun d => Updated.refl (period_le d)) d

/-- The message was sent in the phase and has the state of a detector that waits for its
addressee. -/
def Stems (phase : Nat) (s : System D) (msg : ObLCLMessage) : Prop :=
  msg.sendTs / PHASE_TIME = phase ∧
    ∃ u, msg.dest ∈ (s.node u).blocklistSnapshot ∧ (s.node u).lclPeriod = phase / 2 ∧
      msg.lclv = (s.node u).lclv ∧ msg.label = (s.node u).publicLabel

/-- The caches hold states of the phase only, and the best states of the detectors in `done`. -/
structure Caching (phase : Nat) (done : D → Prop) (s : System D) : Prop where
  period_le : ∀ d, (s.node d).lclPeriod ≤ phase / 2
  countDown : ∀ d, (s.node d).countDownAllowDetect = 0
  keyed : ∀ d, (s.cache (s.node d).selfAddr).Keyed
  stems : ∀ d, ∀ e ∈ s.cache (s.node d).selfAddr, Stems phase s e.2
  covers : ∀ u, done u → (s.node u).lclPeriod = phase / 2 ∧ ∀ dest ∈ (s.node u).blocklistSnapshot,
    (s.cache (s.node u).selfAddr).Covers dest (s.node u).lclv (s.node u).publicLabel

theorem Updated.of_pushState (s : System D) (inPhase : t / PHASE_TIME = phase) (d : D) (draws : Nat → Nat)
    (period_le : ∀ u, (s.node u).lclPeriod ≤ phase / 2) :
    ∀ u, Updated phase (s.node u) (((s.atTime t).pushState d draws).node u) := by
  rw [pushState_node, forall_update_iff _ fun u => Updated phase (s.node u)]
  exact ⟨(Updated.refl (period_le d)).update inPhase, fun u _ => Updated.refl (period_le u)⟩

theorem Updated.current {node' : ObLCLNode} (updated : Updated phase node node')
    (current : node.lclPeriod = phase / 2) : node'.lclPeriod = phase / 2 :=
  le_antisymm updated.period_le (current ▸ updated.period)

omit [DecidableEq D] in
theorem Stems.updated {msg : ObLCLMessage} (stems : Stems phase s msg)
    (updated : ∀ u, Updated phase (s.node u) (s'.node u)) (graph : SameGraph s s') : Stems phase s' msg := by
  obtain ⟨sent, v, waits, current, lclv, label⟩ := stems
  refine ⟨sent, v, by rwa [graph v], (updated v).current current, ?_, ?_⟩
  · rw [lclv, (updated v).lclv]
  · rw [label, (updated v).label current]

theorem pushState_cache (draws : Nat → Nat) (armed : (s.node d).countDownAllowDetect = 0) :
    ((s.atTime t).pushState d draws).cache = update s.cache (s.node d).selfAddr
      (((s.node d).updateLclPeriod t).broadcast t draws (s.node d).blocklistSnapshot (s.cache (s.node d).selfAddr)).1 ∧
    (s.atTime t).keptMessages d draws = (((s.node d).updateLclPeriod t).broadcast t draws (s.node d).blocklistSnapshot
        (s.cache (s.node d).selfAddr)).2 := by
  simp [pushState, keptMessages, atTime, runTimerTask, armed]

theorem Caching.push {done : D → Prop} (caching : Caching phase done s) (inPhase : t / PHASE_TIME = phase)
    {draws : Nat → Nat} (kept : ∀ k ∈ (s.atTime t).keptMessages d draws, k = true)
    (graph : SameGraph s ((s.atTime t).pushState d draws)) :
    Caching phase (fun u => u = d ∨ done u) ((s.atTime t).pushState d draws) := by
  have updated := Updated.of_pushState s inPhase d draws caching.period_le
  obtain ⟨cache, keptEq⟩ := pushState_cache (t := t) draws (caching.countDown d)
  rw [keptEq] at kept
  obtain ⟨keyed, news, olds⟩ := broadcast_covers (caching.keyed d) kept
  -- the state that `d` pushes is the one it has afterwards
  have pushed : (((s.atTime t).pushState d draws).node d).lclPeriod = phase / 2 ∧
      ((s.node d).updateLclPeriod t).lclv = (((s.atTime t).pushState d draws).node d).lclv ∧
      ((s.node d).updateLclPeriod t).publicLabel = (((s.atTime t).pushState d draws).node d).publicLabel := by
    rw [pushState_node, update_self]
    refine ⟨?_, rfl, rfl⟩
    rw [removeUnusefulCallback_lclPeriod, updateLclPeriod_eq]
    exact (max_eq_right (period_of_phase inPhase ▸ caching.period_le d)).trans (period_of_phase inPhase)
  generalize (s.atTime t).pushState d draws = s' at *
  have addr : ∀ u, (s'.node u).selfAddr = (s.node u).selfAddr := fun u => selfAddr_of_identity (updated u).identity
  have cacheOf : ∀ u, s'.cache (s'.node u).selfAddr =
      if (s.node u).selfAddr = (s.node d).selfAddr then
        (((s.node d).updateLclPeriod t).broadcast t draws (s.node d).blocklistSnapshot (s.cache (s.node d).selfAddr)).1
      else s.cache (s.node u).selfAddr := by
    intro u
    rw [cache, addr u]
    exact update_apply _ _ _ _
  constructor
  · exact fun u => (updated u).period_le
  · exact fun u => (updated u).countDown.trans (caching.countDown u)
  · intro u
    rw [cacheOf u]
    split
    · exact keyed
    · exact caching.keyed u
  · intro u
    rw [cacheOf u]
    split
    · apply broadcast_forall (P := Stems phase s')
      · intro dest mem value m old merged
        obtain ⟨sameDest, dest_eq, ts_eq, content⟩ := merge_cases merged
        rw [Stems, ts_eq, dest_eq]
        rcases content with ⟨lclv_eq, label_eq⟩ | ⟨lclv_eq, label_eq⟩
        · rwa [lclv_eq, label_eq]
        · rw [lclv_eq, label_eq, sameDest]
          exact ⟨old.1, d, by rwa [graph d], pushed⟩
      · exact fun dest mem => ⟨inPhase, d, by rwa [graph d], pushed⟩
      · exact fun e mem => (caching.stems d e mem).updated updated graph
    · exact fun e mem => (caching.stems u e mem).updated updated graph
  · have stays : ∀ u dest lclv label, (s.cache (s.node u).selfAddr).Covers dest lclv label →
        (s'.cache (s'.node u).selfAddr).Covers dest lclv label := by
      intro u dest lclv label covered
      rw [cacheOf u]
      split
      next same => exact olds dest lclv label (same ▸ covered)
      next => exact covered
    rintro u (rfl | before)
    · refine ⟨pushed.1, fun dest mem => ?_⟩
      rw [graph u] at mem
      grind
    · obtain ⟨current, covered⟩ := caching.covers u before
      refine ⟨(updated u).current current, fun dest mem => ?_⟩
      rw [graph u] at mem
      rw [(updated u).lclv, (updated u).label current]
      exact stays u dest _ _ (covered dest mem)

theorem Caching.pushes {done : D → Prop} (caching : Caching phase done s) (pushes : Pushes phase pushers s s') :
    Caching phase (fun u => u ∈ pushers ∨ done u) s' := by
  induction pushes generalizing done with
  | nil => simpa using caching
  | @cons s s' t d rest draws _ inPhase kept graph _ ih =>
    have next := ih (caching.push inPhase kept graph)
    convert next using 2
    simp only [mem_cons]
    tauto

/-! ### Posting and handing over -/

omit [DecidableEq D] in
theorem sends_node (s : System D) (senders : List D) : (s.sends senders).node = s.node := by
  induction senders generalizing s with
  | nil => rfl
  | cons d rest ih => exact ih (s.send (s.node d).selfAddr)

omit [DecidableEq D] in
theorem sends_now (s : System D) (senders : List D) : (s.sends senders).now = s.now := by
  induction senders generalizing s with
  | nil => rfl
  | cons d rest ih => exact ih (s.send (s.node d).selfAddr)

omit [DecidableEq D] in
/-- What is posted comes from the caches, and what is cached is posted or stays cached. -/
theorem sends_wire (s : System D) (senders : List D) : ∃ posted, (s.sends senders).wire = s.wire ++ posted ∧
      (∀ msg ∈ posted, ∃ d, ∃ e ∈ s.cache (s.node d).selfAddr, e.2 = msg) ∧
      ∀ addr, ∀ e ∈ s.cache addr, e.2 ∈ posted ∨ e ∈ (s.sends senders).cache addr := by
  induction senders generalizing s with
  | nil => exact ⟨[], by simp [sends], by simp, fun _ e mem => inr mem⟩
  | cons d rest ih =>
    obtain ⟨posted, wire, stems, all⟩ := ih (s.send (s.node d).selfAddr)
    have cacheOf : ∀ addr, (s.send (s.node d).selfAddr).cache addr =
        if addr = (s.node d).selfAddr then (s.cache addr).drop LCL_MSG_CACHE_LIMIT else s.cache addr := by
      intro addr
      split
      next eq => exact eq ▸ update_self ..
      next ne => exact update_of_ne ne ..
    have sublist : ∀ addr, ∀ e ∈ (s.send (s.node d).selfAddr).cache addr, e ∈ s.cache addr := by
      grind
    refine ⟨(s.cache (s.node d).selfAddr).removeIf.1 ++ posted, ?_, ?_, ?_⟩
    · calc ((s.send (s.node d).selfAddr).sends rest).wire
        = (s.wire ++ (s.cache (s.node d).selfAddr).removeIf.1) ++ posted := wire
        _ = _ := append_assoc ..
    · intro msg mem
      rcases mem_append.1 mem with now | later
      · obtain ⟨e, inTake, rfl⟩ := mem_map.1 now
        exact ⟨d, e, mem_of_mem_take inTake, rfl⟩
      · obtain ⟨d', e, inCache, rfl⟩ := stems msg later
        exact ⟨d', e, sublist _ e inCache, rfl⟩
    · intro addr e mem
      by_cases eq : addr = (s.node d).selfAddr
      · rw [← take_append_drop LCL_MSG_CACHE_LIMIT (s.cache addr)] at mem
        rcases mem_append.1 mem with taken | left
        · exact inl (mem_append_left _ (mem_map.2 ⟨e, eq ▸ taken, rfl⟩))
        rcases all addr e (by rwa [cacheOf, if_pos eq]) with posted | kept
        · exact inl (mem_append_right _ posted)
        · exact inr kept
      · rcases all addr e (by rwa [cacheOf, if_neg eq]) with posted | kept
        · exact inl (mem_append_right _ posted)
        · exact inr kept

section

variable (handles : Handles phase deliveries s s')
include handles

theorem Handles.node_rule
    (step : ∀ d msg t node, (d, msg) ∈ deliveries → t / PHASE_TIME = phase → P d node → P d (node.processLclMessage t msg).1)
    (start : ∀ d, P d (s.node d)) : ∀ d, P d (s'.node d) := by
  induction handles with
  | nil => exact start
  | @cons s s' t d msg rest _ inPhase _ _ ih =>
    apply ih
    · grind
    · rw [handle, forall_update_iff]
      exact ⟨step d msg t _ mem_cons_self inPhase (start d), fun e _ => start e⟩

/-- What handling one message brings about, and handling the others keeps, holds in the end. -/
theorem Handles.reaches {Q : D → ObLCLNode → Prop}
    (step : ∀ d msg t node, (d, msg) ∈ deliveries → t / PHASE_TIME = phase → P d node → P d (node.processLclMessage t msg).1)
    (keep : ∀ d msg t node, (d, msg) ∈ deliveries → t / PHASE_TIME = phase → P d node → Q d node → Q d (node.processLclMessage t msg).1)
    (start : ∀ d, P d (s.node d)) {msg : ObLCLMessage} (mem : (d, msg) ∈ deliveries)
    (bring : ∀ t node, t / PHASE_TIME = phase → P d node → Q d (node.processLclMessage t msg).1) :
    Q d (s'.node d) := by
  induction handles with
  | nil => simp at mem
  | @cons s s' t e m rest _ inPhase _ later ih =>
    have step' := fun d msg t node mem => step d msg t node (mem_cons_of_mem (e, m) mem)
    have keep' := fun d msg t node mem => keep d msg t node (mem_cons_of_mem (e, m) mem)
    have next : ∀ d, P d (((s.atTime t).handle e m).node d) := by
      rw [handle, forall_update_iff]
      exact ⟨step e m t _ mem_cons_self inPhase (start e), fun d _ => start d⟩
    rcases mem_cons.1 mem with here | inRest
    · obtain ⟨rfl, rfl⟩ := Prod.mk.inj here
      have reached : Q d (((s.atTime t).handle d msg).node d) := by
        simp only [handle, update_self]
        exact bring t _ inPhase (start d)
      -- from here on every message keeps `P`, and `Q` at `d`
      have both := later.node_rule (P := fun v node => P v node ∧ (v = d → Q v node))
        (fun v m' t' node mem' inPhase' h => ⟨step' v m' t' node mem' inPhase' h.1,
          fun eq => keep' v m' t' node mem' inPhase' h.1 (h.2 eq)⟩)
        (fun v => ⟨next v, fun eq => by subst eq; exact reached⟩)
      exact (both d).2 rfl
    · exact ih step' keep' next inRest

theorem Handles.cache : s'.cache = s.cache := by
  induction handles with
  | nil => rfl
  | cons _ _ _ _ ih => exact ih

end

/-- A round: `base` is the state when all detectors have pushed and all messages are posted. -/
structure Heard (phase : Nat) (s base s' : System D) (deliveries : List (D × ObLCLMessage)) : Prop where
  handles : Handles phase deliveries base s'
  updated : ∀ d, Updated phase (s.node d) (base.node d)
  period : ∀ d, (base.node d).lclPeriod = phase / 2
  sent : ∀ e ∈ deliveries, e.2.sendTs / PHASE_TIME = phase ∧
    ∃ u, s.WaitsFor u e.1 ∧ e.2.lclv = (base.node u).lclv ∧ e.2.label = (base.node u).publicLabel
  heard : ∀ u v, s.WaitsFor u v → ∃ msg, (v, msg) ∈ deliveries ∧
    msg.AtLeast (base.node u).lclv (base.node u).publicLabel
  idle : ∀ d, s'.cache (base.node d).selfAddr = []

theorem Round.heard (round : Round phase s s') (idle : ∀ d, s.cache (s.node d).selfAddr = [])
    (countDown : ∀ d, (s.node d).countDownAllowDetect = 0) (period_le : ∀ d, (s.node d).lclPeriod ≤ phase / 2) :
    ∃ base deliveries, Heard phase s base s' deliveries := by
  obtain ⟨pushers, senders, posted, deliveries, pushes, everyone, emptied, wire, addressed, delivered, handles⟩ := round
  rename_i pushed
  have empty : Caching phase (fun _ => False) s := by
    constructor
    · exact period_le
    · exact countDown
    · intro d e mem
      grind
    · grind
    · exact fun _ none => none.elim
  have caching := empty.pushes pushes
  have updated := pushes.updated period_le
  have graph := pushes.sameGraph
  obtain ⟨posted', wire', stems, all⟩ := pushed.sends_wire senders
  obtain rfl : posted' = posted := append_cancel_left (wire'.symm.trans wire)
  refine ⟨pushed.sends senders, deliveries, handles, ?_, ?_, ?_, ?_, ?_⟩
  · rwa [sends_node]
  · rw [sends_node]
    exact fun d => (caching.covers d (inl (everyone d))).1
  · rintro ⟨v, msg⟩ mem
    obtain ⟨inPosted, toV⟩ := addressed _ mem
    obtain ⟨d, e, cached, rfl⟩ := stems msg inPosted
    obtain ⟨sent, u, waits, -, lclv, label⟩ := caching.stems d e cached
    refine ⟨sent, u, ?_, ?_⟩
    · rwa [WaitsFor, ← toV, ← graph u]
    · rw [sends_node]
      exact ⟨lclv, label⟩
  · intro u v waits
    rw [WaitsFor, ← graph u] at waits
    obtain ⟨e, cached, toV, good⟩ := (caching.covers u (inl (everyone u))).2 _ waits
    have inPosted : e.2 ∈ posted' := by
      grind
    refine ⟨e.2, delivered e.2 inPosted v toV, ?_⟩
    rwa [sends_node]
  · intro d
    rw [handles.cache, sends_node]
    exact emptied d

end System

end IMBridge.Deadlock
