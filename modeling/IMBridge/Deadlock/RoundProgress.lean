import Mathlib.Algebra.Order.Ring.Nat
import Mathlib.Algebra.BigOperators.Group.Finset.Basic
import Mathlib.Algebra.Order.BigOperators.Group.List
import IMBridge.Deadlock.LclRounds

/-!
Synchronous rounds can take place, for every wait-for graph that is given by block lists which are
together shorter than half of the cache limit.
-/

namespace IMBridge.Deadlock

open Relation List Function Finset

/-! ### Messages are kept while the cache is small -/

theorem LclMsgMap.length_operate {msg : ObLCLMessage} {key : ObDependencyResource} {map map' : LclMsgMap}
    (h : operate msg key map = some map') : map'.length = map.length := by
  induction map generalizing map' with
  | nil => simp [operate] at h
  | cons entry rest ih =>
    obtain ⟨k, value⟩ := entry
    unfold operate at h
    split at h
    · obtain rfl := Option.some.inj h
      rfl
    · obtain ⟨merged, found, rfl⟩ := Option.map_eq_some_iff.1 h
      rw [length_cons, length_cons, ih found]

theorem LclMsgMap.cacheMsg_kept {map : LclMsgMap} (key : ObDependencyResource) (msg : ObLCLMessage) (draw : Nat)
    (small : map.length < LCL_MSG_CACHE_LIMIT / 2) :
    (map.cacheMsg key msg draw).2 = true ∧ (map.cacheMsg key msg draw).1.length ≤ map.length + 1 := by
  simp only [cacheMsg, small, if_true, insertOrMerge]
  cases found : operate msg key map with
  | some merged => exact ⟨rfl, (length_operate found).le.trans (Nat.le_succ _)⟩
  | none => simp

theorem ObLCLNode.broadcast_kept (node : ObLCLNode) (now : Nat) (draws : Nat → Nat)
    {list : List ObDependencyResource} {map : LclMsgMap} (small : map.length + list.length ≤ LCL_MSG_CACHE_LIMIT / 2) :
    (∀ kept ∈ (node.broadcast now draws list map).2, kept = true) ∧
      (node.broadcast now draws list map).1.length ≤ map.length + list.length := by
  induction list generalizing map with
  | nil => simp [broadcast]
  | cons dest rest ih =>
    rw [length_cons] at small
    obtain ⟨kept, length⟩ := LclMsgMap.cacheMsg_kept dest (node.stateMessage now dest) (draws rest.length)
      (show map.length < LCL_MSG_CACHE_LIMIT / 2 by omega)
    have smaller : (map.cacheMsg dest (node.stateMessage now dest) (draws rest.length)).1.length + rest.length ≤
        LCL_MSG_CACHE_LIMIT / 2 := by omega
    obtain ⟨keptRest, lengthRest⟩ := ih smaller
    constructor
    · exact forall_mem_cons.2 ⟨kept, keptRest⟩
    · rw [length_cons]
      exact lengthRest.trans (by omega)

/-! ### Detectors without callbacks -/

namespace ObLCLNode

/-- The detector waits for the resources of its block list and has no callbacks. -/
def Plain (node : ObLCLNode) : Prop := node.blockCallbackList = []

variable {node : ObLCLNode}

theorem Plain.blocklistSnapshot (plain : node.Plain) : node.blocklistSnapshot = node.blockList := by
  rw [ObLCLNode.blocklistSnapshot, plain, flatMap_nil, append_nil]

def Same (node node' : ObLCLNode) : Prop :=
  node'.Plain ∧ node'.blockList = node.blockList ∧ node'.countDownAllowDetect = node.countDownAllowDetect

theorem Same.removeUnusefulCallback {node' : ObLCLNode} (same : Same node node') :
    Same node node'.removeUnusefulCallback := by
  obtain ⟨plain, rest⟩ := same
  refine ⟨?_, rest⟩
  have empty : node'.blockCallbackList = [] := plain
  rw [Plain, ObLCLNode.removeUnusefulCallback, empty, filter_nil]

theorem Plain.updateLclPeriod (plain : node.Plain) (now : Nat) : Same node (node.updateLclPeriod now) := by
  rw [updateLclPeriod_eq]
  exact ⟨plain, rfl, rfl⟩

theorem Plain.processLclMessage (plain : node.Plain) (now : Nat) (msg : ObLCLMessage) :
    Same node (node.processLclMessage now msg).1 := by
  have current := plain.updateLclPeriod now
  have lclp : Same node ((node.updateLclPeriod now).processMsgAsLclpMsg msg) := by
    rwa [processMsgAsLclpMsg_eq]
  have lcls : Same node ((node.updateLclPeriod now).processMsgAsLclsMsg msg).node := by
    rwa [processMsgAsLclsMsg_node]
  unfold ObLCLNode.processLclMessage
  dsimp only
  split
  · exact current
  split
  · exact lclp.removeUnusefulCallback
  dsimp only
  split
  · exact lcls.removeUnusefulCallback
  · exact lcls

end ObLCLNode

namespace System

variable {D : Type} [DecidableEq D] {phase t : Nat} {s s' : System D}

structure Progress (t : Nat) (s s' : System D) : Prop where
  now_le : s'.now ≤ t
  plain : ∀ d, (s'.node d).Plain
  list : ∀ d, (s'.node d).blockList = (s.node d).blockList
  addr : ∀ d, (s'.node d).selfAddr = (s.node d).selfAddr
  countDown : ∀ d, (s'.node d).countDownAllowDetect = (s.node d).countDownAllowDetect

omit [DecidableEq D] in
theorem Progress.trans {s₁ s₂ s₃ : System D} (first : Progress t s₁ s₂) (second : Progress t s₂ s₃) :
    Progress t s₁ s₃ where
  now_le := second.now_le
  plain := second.plain
  list d := (second.list d).trans (first.list d)
  addr d := (second.addr d).trans (first.addr d)
  countDown d := (second.countDown d).trans (first.countDown d)

omit [DecidableEq D] in
theorem Progress.refl (now_le : s.now ≤ t) (plain : ∀ d, (s.node d).Plain) : Progress t s s :=
  ⟨now_le, plain, fun _ => rfl, fun _ => rfl, fun _ => rfl⟩

omit [DecidableEq D] in
theorem Progress.sameGraph (plain : ∀ d, (s.node d).Plain) (progress : Progress t s s') : SameGraph s s' := by
  intro d
  rw [(progress.plain d).blocklistSnapshot, (plain d).blocklistSnapshot, progress.list d]

theorem Progress.of_update {d : D} {node : ObLCLNode} (nodes : s'.node = update s.node d node)
    (now_le : s'.now ≤ t) (plain : ∀ d, (s.node d).Plain) (same : ObLCLNode.Same (s.node d) node)
    (id : node.identity = (s.node d).identity) : Progress t s s' := by
  have each : ∀ e, s'.node e = s.node e ∨ e = d ∧ s'.node e = node := by
    intro e
    by_cases eq : e = d
    · subst eq
      exact Or.inr ⟨rfl, by rw [nodes, update_self]⟩
    · exact Or.inl (by rw [nodes, update_of_ne eq])
  have all : ∀ e, ObLCLNode.Same (s.node e) (s'.node e) ∧ (s'.node e).selfAddr = (s.node e).selfAddr := by
    intro e
    rcases each e with old | ⟨rfl, new⟩
    · rw [old]
      exact ⟨⟨plain e, rfl, rfl⟩, rfl⟩
    · rw [new]
      exact ⟨same, ObLCLNode.selfAddr_of_identity id⟩
  exact ⟨now_le, fun e => (all e).1.1, fun e => (all e).1.2.1, fun e => (all e).2, fun e => (all e).1.2.2⟩

theorem exists_pushes (inPhase : t / PHASE_TIME = phase) (now_le : s.now ≤ t)
    (plain : ∀ d, (s.node d).Plain) (armed : ∀ d, (s.node d).countDownAllowDetect = 0)
    (pushers : List D)
    (small : ∀ d, (s.cache (s.node d).selfAddr).length + (pushers.map fun u => (s.node u).blockList.length).sum ≤
      LCL_MSG_CACHE_LIMIT / 2) :
    ∃ s', Pushes phase pushers s s' ∧ Progress t s s' ∧
      ∀ d, (s'.cache (s'.node d).selfAddr).length ≤ LCL_MSG_CACHE_LIMIT / 2 := by
  induction pushers generalizing s with
  | nil =>
    refine ⟨s, Pushes.nil s, Progress.refl now_le plain, fun d => ?_⟩
    simpa using small d
  | cons u rest ih =>
    have same := (plain u).updateLclPeriod t
    have progress : Progress t s ((s.atTime t).pushState u fun _ => 0) := by
      have now_le' : ((s.atTime t).pushState u fun _ => 0).now ≤ t := le_rfl
      exact Progress.of_update (pushState_node (s := s.atTime t) u fun _ => 0) now_le' plain
        same.removeUnusefulCallback (by simp [atTime])
    obtain ⟨cache, keptEq⟩ := pushState_cache (t := t) (s := s) (fun _ => 0) (armed u)
    have shorter : (s.cache (s.node u).selfAddr).length + (s.node u).blocklistSnapshot.length ≤
        LCL_MSG_CACHE_LIMIT / 2 := by
      have := small u
      rw [List.map_cons, List.sum_cons] at this
      rw [(plain u).blocklistSnapshot]
      omega
    obtain ⟨kept, length⟩ := ObLCLNode.broadcast_kept ((s.node u).updateLclPeriod t) t (fun _ => 0) shorter
    have lengths : ∀ d, (((s.atTime t).pushState u fun _ => 0).cache
        (((s.atTime t).pushState u fun _ => 0).node d).selfAddr).length ≤
          (s.cache (s.node d).selfAddr).length + (s.node u).blockList.length := by
      intro d
      rw [cache, progress.addr d, update_apply]
      split
      next eq =>
        rwa [eq, ← (plain u).blocklistSnapshot]
      next => exact Nat.le_add_right _ _
    have later : ∀ d, (((s.atTime t).pushState u fun _ => 0).cache
        (((s.atTime t).pushState u fun _ => 0).node d).selfAddr).length +
          (rest.map fun v => (((s.atTime t).pushState u fun _ => 0).node v).blockList.length).sum ≤
            LCL_MSG_CACHE_LIMIT / 2 := by
      intro d
      have before := small d
      rw [List.map_cons, List.sum_cons] at before
      simp only [progress.list]
      exact (Nat.add_le_add_right (lengths d) _).trans (by omega)
    obtain ⟨s', pushes, progress', lengths'⟩ := ih progress.now_le progress.plain
      (fun d => (progress.countDown d).trans (armed d)) later
    refine ⟨s', ?_, progress.trans progress', lengths'⟩
    exact Pushes.cons (fun _ => 0) now_le inPhase (by rwa [keptEq]) (progress.sameGraph plain) pushes

theorem exists_handles (inPhase : t / PHASE_TIME = phase) (now_le : s.now ≤ t) (plain : ∀ d, (s.node d).Plain)
    (deliveries : List (D × ObLCLMessage)) : ∃ s', Handles phase deliveries s s' ∧ Progress t s s' := by
  induction deliveries generalizing s with
  | nil => exact ⟨s, Handles.nil s, Progress.refl now_le plain⟩
  | cons e rest ih =>
    obtain ⟨d, msg⟩ := e
    have progress : Progress t s ((s.atTime t).handle d msg) := by
      have nodes : ((s.atTime t).handle d msg).node = update s.node d ((s.node d).processLclMessage t msg).1 := rfl
      have now_le' : ((s.atTime t).handle d msg).now ≤ t := le_rfl
      exact Progress.of_update nodes now_le' plain ((plain d).processLclMessage t msg)
        (ObLCLNode.processLclMessage_identity _ _ _)
    obtain ⟨s', handles, progress'⟩ := ih progress.now_le progress.plain
    exact ⟨s', Handles.cons now_le inPhase (progress.sameGraph plain) handles, progress.trans progress'⟩

omit [DecidableEq D] in
theorem sends_empties (short : ∀ d, (s.cache (s.node d).selfAddr).length ≤ LCL_MSG_CACHE_LIMIT) {senders : List D}
    {d : D} (mem : d ∈ senders ∨ s.cache (s.node d).selfAddr = []) :
    (s.sends senders).cache (s.node d).selfAddr = [] := by
  induction senders generalizing s with
  | nil => simpa [sends] using mem
  | cons u rest ih =>
    have emptied : (s.send (s.node u).selfAddr).cache (s.node u).selfAddr = [] := by
      simp only [send, update_self, LclMsgMap.removeIf]
      exact drop_eq_nil_of_le (short u)
    have each : ∀ v, (s.send (s.node u).selfAddr).cache (s.node v).selfAddr = [] ∨
        (s.send (s.node u).selfAddr).cache (s.node v).selfAddr = s.cache (s.node v).selfAddr := by
      intro v
      by_cases eq : (s.node v).selfAddr = (s.node u).selfAddr
      · exact Or.inl (eq ▸ emptied)
      · exact Or.inr (update_of_ne eq ..)
    apply ih (s := s.send (s.node u).selfAddr)
    · intro v
      rcases each v with empty | old
      · exact (congrArg List.length empty).le.trans (Nat.zero_le _)
      · exact (congrArg List.length old).le.trans (short v)
    · rcases mem with inList | empty
      · rcases mem_cons.1 inList with rfl | inRest
        · exact Or.inr emptied
        · exact Or.inl inRest
      · rcases each d with now | old
        · exact Or.inr now
        · exact Or.inr (old.trans empty)

theorem exists_round [Fintype D] (inPhase : t / PHASE_TIME = phase) (now_le : s.now ≤ t)
    (plain : ∀ d, (s.node d).Plain) (armed : ∀ d, (s.node d).countDownAllowDetect = 0)
    (idle : ∀ d, s.cache (s.node d).selfAddr = [])
    (small : ∑ d, (s.node d).blockList.length ≤ LCL_MSG_CACHE_LIMIT / 2) :
    ∃ s', Round phase s s' ∧ Progress t s s' ∧ ∀ d, s'.cache (s'.node d).selfAddr = [] := by
  classical
  obtain ⟨pushed, pushes, progress, lengths⟩ := exists_pushes inPhase now_le plain armed univ.toList (by
    intro d
    rw [idle d, length_nil, Nat.zero_add, sum_map_toList]
    exact small)
  have emptied : ∀ d, (pushed.sends univ.toList).cache (pushed.node d).selfAddr = [] := by
    intro d
    apply sends_empties (fun d => (lengths d).trans (Nat.div_le_self _ _))
    exact Or.inl (mem_toList.2 (mem_univ d))
  obtain ⟨posted, wire, -, -⟩ := pushed.sends_wire univ.toList
  have progressSends : Progress t pushed (pushed.sends univ.toList) := by
    refine ⟨by rw [sends_now]; exact progress.now_le, ?_, ?_, ?_, ?_⟩ <;> rw [sends_node]
    · exact progress.plain
    all_goals exact fun _ => rfl
  let deliveries : List (D × ObLCLMessage) := (univ.toList.product posted).filter fun e =>
    decide (e.2.dest = (s.node e.1).selfResource)
  have mem : ∀ e, e ∈ deliveries ↔ e.2 ∈ posted ∧ e.2.dest = (s.node e.1).selfResource := by
    rintro ⟨d, msg⟩
    simp [deliveries, mem_filter, pair_mem_product]
  obtain ⟨s', handles, progress'⟩ := exists_handles inPhase progressSends.now_le progressSends.plain deliveries
  have total := (progress.trans progressSends).trans progress'
  refine ⟨s', ?_, total, ?_⟩
  · refine Round.intro univ.toList univ.toList posted deliveries pushes ?_ emptied wire ?_ ?_ handles
    · exact fun d => mem_toList.2 (mem_univ d)
    · exact fun e inList => (mem e).1 inList
    grind
  · intro d
    rw [handles.cache, total.addr d, ← progress.addr d]
    exact emptied d

theorem Rounds.snoc {count : Nat} {s₁ s₂ : System D} (rounds : Rounds phase count s s₁) (round : Round phase s₁ s₂) :
    Rounds phase (count + 1) s s₂ := by
  obtain ⟨states, rfl, rfl, each⟩ := rounds
  refine ⟨fun i => if i ≤ count then states i else s₂, ?_, ?_, ?_⟩
  · simp
  · simp
  grind

theorem exists_rounds [Fintype D] (inPhase : t / PHASE_TIME = phase) (now_le : s.now ≤ t)
    (plain : ∀ d, (s.node d).Plain) (armed : ∀ d, (s.node d).countDownAllowDetect = 0)
    (idle : ∀ d, s.cache (s.node d).selfAddr = [])
    (small : ∑ d, (s.node d).blockList.length ≤ LCL_MSG_CACHE_LIMIT / 2) (count : Nat) :
    ∃ s', Rounds phase count s s' ∧ Progress t s s' ∧ ∀ d, s'.cache (s'.node d).selfAddr = [] := by
  induction count with
  | zero => exact ⟨s, ⟨fun _ => s, rfl, rfl, by simp⟩, Progress.refl now_le plain, idle⟩
  | succ count ih =>
    obtain ⟨s₁, rounds, progress, idle₁⟩ := ih
    have small₁ : ∑ d, (s₁.node d).blockList.length ≤ LCL_MSG_CACHE_LIMIT / 2 := by
      simpa only [progress.list] using small
    obtain ⟨s₂, round, progress', idle₂⟩ := exists_round inPhase progress.now_le progress.plain
      (fun d => (progress.countDown d).trans (armed d)) idle₁ small₁
    exact ⟨s₂, rounds.snoc round, progress.trans progress', idle₂⟩

end System

end IMBridge.Deadlock
