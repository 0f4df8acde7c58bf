import Mathlib.Algebra.Order.Ring.Nat
import Mathlib.Logic.Equiv.Nat
import IMBridge.Tx.UndoStatus

/-!
The undo list contains exactly the sequence numbers of the actions that were added to it, however the
actions were merged, copied, written out and read back.
-/

namespace IMBridge.Tx

open IMBridge.Lib ObUndoStatusNode List

variable {seqNo : ObTxSEQ} {action newAction : ObUndoAction}

def Covers (actions : List ObUndoAction) (seqNo : ObTxSEQ) : Prop :=
  ∃ action ∈ actions, action.isContain seqNo = true

def allActions (nodes : List ObUndoStatusNode) : List ObUndoAction := nodes.flatMap undoActions

theorem isContain_iff (list : ObUndoStatusList) :
    list.isContain seqNo = true ↔ Covers (allActions list.nodes) seqNo := by
  simp only [ObUndoStatusList.isContain, any_eq_true, Covers, allActions, mem_flatMap]
  grind

theorem covers_nil : ¬Covers [] seqNo := by
  rintro ⟨_, member, _⟩
  cases member

theorem covers_cons {actions : List ObUndoAction} :
    Covers (action :: actions) seqNo ↔ action.isContain seqNo = true ∨ Covers actions seqNo := by
  simp [Covers]

theorem covers_append {first second : List ObUndoAction} :
    Covers (first ++ second) seqNo ↔ Covers first seqNo ∨ Covers second seqNo := by
  simp [Covers, or_and_right, exists_or]

namespace ObUndoAction

theorem isContain_of_isContainAction {other : ObUndoAction}
    (covers : action.isContainAction other = true) (contains : other.isContain seqNo = true) :
    action.isContain seqNo = true := by
  simp only [isContainAction, isContain, Bool.and_eq_true, Bool.or_eq_true, decide_eq_true_eq] at *
  omega

theorem not_isContain_reset : reset.isContain seqNo = false := by
  have zero : (reset.undoTo.getSeq = 0) ∧ (reset.undoFrom.getSeq = 0) := by decide
  simp only [isContain, zero.1, zero.2, Bool.and_eq_false_iff, decide_eq_false_iff_not]
  omega

theorem isValid_reset : reset.isValid = false := by decide

end ObUndoAction

section Merge

open ObUndoAction

theorem mergeActions_action (newAction : ObUndoAction) (actions : List ObUndoAction) :
    (mergeActions newAction actions).2 = newAction ∨ (mergeActions newAction actions).2 = .reset := by
  induction actions with
  | nil => exact .inl rfl
  | cons last older ih =>
    unfold mergeActions
    grind

theorem mergeActions_suffix (newAction : ObUndoAction) (actions : List ObUndoAction) :
    (mergeActions newAction actions).1 <:+ actions := by
  induction actions with
  | nil => exact suffix_refl _
  | cons last older ih =>
    unfold mergeActions
    grind

/-- Whatever is popped is covered by the new action, and that is only reset if it is covered. -/
theorem covers_mergeActions (newAction : ObUndoAction) (actions : List ObUndoAction) (seqNo : ObTxSEQ) :
    Covers ((mergeActions newAction actions).2 :: (mergeActions newAction actions).1) seqNo ↔
      Covers (newAction :: actions) seqNo := by
  induction actions with
  | nil => exact Iff.rfl
  | cons last older ih =>
    unfold mergeActions
    split_ifs with pop merged
    · rw [ih]
      simp only [covers_cons]
      constructor
      · grind
      · rintro (new | popped | old)
        · exact .inl new
        · exact .inl (isContain_of_isContainAction pop popped)
        · exact .inr old
    · simp only [covers_cons, not_isContain_reset, Bool.false_eq_true, false_or]
      constructor
      · exact .inr
      · rintro (new | old)
        · exact .inl (isContain_of_isContainAction merged new)
        · exact old
    · exact Iff.rfl

/-- The nodes of a list in use: none is empty and all but the head are full. -/
structure Shaped (nodes : List ObUndoStatusNode) : Prop where
  nonempty : ∀ node ∈ nodes, node.undoActions ≠ []
  full : ∀ node ∈ nodes.tail, node.size = txDataUndoActMaxNumPerNode

theorem Shaped.tail {node : ObUndoStatusNode} {nodes : List ObUndoStatusNode}
    (shaped : Shaped (node :: nodes)) : Shaped nodes :=
  ⟨fun other member => shaped.nonempty other (mem_cons_of_mem _ member),
    fun other member => shaped.full other (mem_of_mem_tail member)⟩

/-- Merging pops actions and counts the nodes that it frees. -/
structure Merges (newAction : ObUndoAction) (nodes : List ObUndoStatusNode)
    (merged : ObUndoStatusList) (left : ObUndoAction) : Prop where
  shaped : Shaped merged.nodes
  count : merged.undoNodeCnt = merged.nodes.length
  suffix : allActions merged.nodes <:+ allActions nodes
  covers : ∀ seqNo, Covers (left :: allActions merged.nodes) seqNo ↔
    Covers (newAction :: allActions nodes) seqNo
  action : left = newAction ∨ left = .reset

theorem mergeUndoActions_merges (nodes : List ObUndoStatusNode) :
    ∀ newAction : ObUndoAction, Shaped nodes → ∃ merged left,
      mergeUndoActions newAction nodes nodes.length = (.ok (), merged, left) ∧
      Merges newAction nodes merged left := by
  induction nodes with
  | nil =>
    intro newAction shaped
    exact ⟨_, _, rfl, shaped, rfl, suffix_refl _, fun _ => Iff.rfl, .inl rfl⟩
  | cons node nodes ih =>
    intro newAction shaped
    have popped := mergeActions_suffix newAction node.undoActions
    have same := covers_mergeActions newAction node.undoActions
    have kept := mergeActions_action newAction node.undoActions
    unfold mergeUndoActions
    dsimp only
    split_ifs with isEmpty none
    · simp at none
      omega
    · have gone : (mergeActions newAction node.undoActions).1 = [] := length_eq_zero_iff.mp isEmpty
      rw [show (((node :: nodes).length : Nat) : Int) - 1 = nodes.length by simp]
      obtain ⟨merged, left, eq, merges⟩ := ih (mergeActions newAction node.undoActions).2 shaped.tail
      refine ⟨merged, left, eq, merges.shaped, merges.count, ?_, fun seqNo => ?_, ?_⟩
      · exact merges.suffix.trans (suffix_append ..)
      · rw [merges.covers, show allActions (node :: nodes) = node.undoActions ++ allActions nodes
          from rfl, ← cons_append, covers_append, ← same seqNo, gone]
        simp only [covers_cons, covers_nil, or_false]
      · rcases merges.action with eq | eq
        · rwa [eq]
        · exact .inr eq
    · refine ⟨_, _, rfl, ⟨?_, ?_⟩, rfl, ?_, fun seqNo => ?_, kept⟩
      · exact forall_mem_cons.2 ⟨fun gone => isEmpty (length_eq_zero_iff.mpr gone),
          fun other member => shaped.nonempty other (mem_cons_of_mem _ member)⟩
      · exact shaped.full
      · obtain ⟨front, split⟩ := popped
        refine ⟨front, ?_⟩
        simp only [allActions, List.flatMap_cons, ObUndoStatusNode.merge]
        rw [← List.append_assoc, split]
      · simp only [allActions, List.flatMap_cons, ObUndoStatusNode.merge]
        rw [← List.cons_append, ← List.cons_append, covers_append, covers_append, same seqNo]

end Merge

section Insert

theorem allActions_insertAction (nodes : List ObUndoStatusNode) (action : ObUndoAction) :
    allActions (insertAction nodes action) = action :: allActions nodes := by
  unfold insertAction
  split
  · rfl
  split_ifs
  · rfl
  · rfl

theorem Shaped.insertAction {nodes : List ObUndoStatusNode} (shaped : Shaped nodes)
    (action : ObUndoAction) : Shaped (insertAction nodes action) := by
  unfold Tx.insertAction
  split
  · exact ⟨by simp [single], by simp⟩
  rename_i node older
  split_ifs with room
  · exact ⟨forall_mem_cons.2 ⟨by simp, fun other member => shaped.nonempty other (mem_cons_of_mem _ member)⟩,
      shaped.full⟩
  · exact ⟨forall_mem_cons.2 ⟨by simp [single], shaped.nonempty⟩,
      forall_mem_cons.2 ⟨Nat.le_antisymm (size_le _) (Nat.le_of_not_lt room), shaped.full⟩⟩

theorem length_insertAction (nodes : List ObUndoStatusNode) (action : ObUndoAction) :
    (insertAction nodes action).length = nodes.length + if needsNode nodes then 1 else 0 := by
  cases nodes with
  | nil => rfl
  | cons node older =>
    unfold insertAction needsNode
    grind

end Insert

structure Sound (list : ObUndoStatusList) : Prop where
  shaped : Shaped list.nodes
  count : list.undoNodeCnt = list.nodes.length
  valid : ∀ action ∈ allActions list.nodes, action.isValid = true

section Add

variable {list result : ObUndoStatusList} {left : ObUndoAction} {hasNode canAlloc : Bool}

/-- A call that succeeds adds the sequence numbers of its action and nothing else. The action object is
as before or is reset, and then its sequence numbers were there already. -/
structure Adds (list : ObUndoStatusList) (newAction : ObUndoAction) (result : ObUndoStatusList)
    (left : ObUndoAction) : Prop where
  sound : Sound result
  covers : ∀ seqNo, result.isContain seqNo = true ↔
    list.isContain seqNo = true ∨ newAction.isContain seqNo = true
  left : left = newAction ∨ left = .reset ∧ ∀ seqNo, newAction.isContain seqNo = true →
    list.isContain seqNo = true

variable (sound : Sound list)
include sound

theorem Merges.adds_of_reset {merged : ObUndoStatusList}
    (merges : Merges newAction list.nodes merged .reset) : Adds list newAction merged .reset := by
  have covers (seqNo : ObTxSEQ) : merged.isContain seqNo = true ↔
      list.isContain seqNo = true ∨ newAction.isContain seqNo = true := by
    rw [isContain_iff, isContain_iff, or_comm, ← covers_cons, ← merges.covers, covers_cons,
      ObUndoAction.not_isContain_reset]
    simp
  refine ⟨⟨merges.shaped, merges.count, fun action member => ?_⟩, covers, .inr ⟨rfl, ?_⟩⟩
  · exact sound.valid action (merges.suffix.subset member)
  · intro seqNo new
    have after := (covers seqNo).mpr (.inr new)
    rw [isContain_iff] at after ⊢
    obtain ⟨action, member, contains⟩ := after
    exact ⟨action, merges.suffix.subset member, contains⟩

theorem Merges.adds_insert {merged : ObUndoStatusList}
    (merges : Merges newAction list.nodes merged newAction) (valid : newAction.isValid = true)
    {cnt : Int} (count : cnt = merged.undoNodeCnt + if needsNode merged.nodes then 1 else 0) :
    Adds list newAction ⟨insertAction merged.nodes newAction, cnt⟩ newAction := by
  refine ⟨⟨merges.shaped.insertAction newAction, ?_, fun action member => ?_⟩, fun seqNo => ?_, .inl rfl⟩
  · rw [count, merges.count, length_insertAction]
    cases needsNode merged.nodes <;> simp
  · rw [allActions_insertAction] at member
    rcases mem_cons.mp member with rfl | old
    · exact valid
    · exact sound.valid action (merges.suffix.subset old)
  · rw [isContain_iff, isContain_iff, allActions_insertAction, merges.covers, covers_cons, or_comm]

theorem addUndoAction_adds (usable : newAction.isValid = true ∨ newAction = .reset)
    (done : addUndoAction list newAction hasNode canAlloc = (.ok (), result, left)) :
    Adds list newAction result left := by
  obtain ⟨merged, after, eq, merges⟩ := mergeUndoActions_merges list.nodes newAction sound.shaped
  unfold addUndoAction at done
  rw [sound.count, eq] at done
  dsimp only at done
  split_ifs at done with invalid needs canInsert
  · cases done
    have isReset : left = .reset := by
      rcases merges.action with same | reset
      · grind
      · exact reset
    subst isReset
    exact merges.adds_of_reset sound
  · cases done
    have same : left = newAction := by
      rcases merges.action with same | reset
      · exact same
      rw [reset, ObUndoAction.isValid_reset] at invalid
      exact absurd rfl invalid
    subst same
    exact merges.adds_insert sound (by simpa using invalid) (by simp [needs])
  · cases done
  · cases done
    have same : left = newAction := by
      rcases merges.action with same | reset
      · exact same
      rw [reset, ObUndoAction.isValid_reset] at invalid
      exact absurd rfl invalid
    subst same
    exact merges.adds_insert sound (by simpa using invalid) (by simp [needs])

/-- The copy and the list end up with the same sequence numbers. -/
theorem leaderRollback_adds (valid : newAction.isValid = true) {copy live : ObUndoStatusList}
    (done : leaderRollback list newAction canAlloc = .ok (copy, live)) :
    Sound live ∧ (∀ seqNo, live.isContain seqNo = true ↔
        list.isContain seqNo = true ∨ newAction.isContain seqNo = true) ∧
      ∀ seqNo, live.isContain seqNo = true ↔ copy.isContain seqNo = true := by
  unfold leaderRollback at done
  split at done
  · cases done
  rename_i first copied object prepared
  split at done
  · cases done
  rename_i second kept committed
  cases done
  have toCopy := addUndoAction_adds sound (.inl valid) prepared
  rcases toCopy.left with same | ⟨isReset, covered⟩
  · rw [same] at committed
    have toLive := addUndoAction_adds sound (.inl valid) committed
    exact ⟨toLive.sound, toLive.covers, fun seqNo =>
      (toLive.covers seqNo).trans (toCopy.covers seqNo).symm⟩
  rw [isReset] at committed
  have toLive := addUndoAction_adds sound (.inr rfl) committed
  have covers (seqNo : ObTxSEQ) : live.isContain seqNo = true ↔
      list.isContain seqNo = true ∨ newAction.isContain seqNo = true := by
    rw [toLive.covers, ObUndoAction.not_isContain_reset]
    constructor
    · rintro (old | none)
      · exact .inl old
      · cases none
    · rintro (old | new)
      · exact .inl old
      · exact .inl (covered seqNo new)
  exact ⟨toLive.sound, covers, fun seqNo =>
    (covers seqNo).trans (toCopy.covers seqNo).symm⟩

end Add

section Reload

/-- Inserting the actions of a node one by one rebuilds it, if the nodes before it take no more. -/
theorem foldl_insertAction_node {nodes : List ObUndoStatusNode} (needs : needsNode nodes = true) :
    ∀ (actions : List ObUndoAction) (size_le : actions.length ≤ txDataUndoActMaxNumPerNode),
      actions ≠ [] → actions.reverse.foldl insertAction nodes = ⟨actions, size_le⟩ :: nodes := by
  intro actions
  induction actions with
  | nil => exact fun _ nonempty => absurd rfl nonempty
  | cons last older ih =>
    intro size_le _
    rw [reverse_cons, foldl_append, foldl_cons, foldl_nil]
    by_cases isFirst : older = []
    · subst isFirst
      cases nodes with
      | nil => rfl
      | cons node nodes =>
        have noRoom : ¬node.size < txDataUndoActMaxNumPerNode := by
          simpa [needsNode] using needs
        simp [insertAction, noRoom, single]
    · have room : older.length < txDataUndoActMaxNumPerNode := size_le
      rw [ih (Nat.le_of_lt room) isFirst]
      simp [insertAction, size, room]

theorem foldl_insertAction {nodes : List ObUndoStatusNode} (shaped : Shaped nodes) :
    (nodes.reverse.flatMap (fun node => node.undoActions.reverse)).foldl insertAction [] = nodes := by
  induction nodes with
  | nil => rfl
  | cons node nodes ih =>
    have needs : needsNode nodes = true := by
      cases nodes with
      | nil => rfl
      | cons next nodes =>
        have full := shaped.full next (mem_cons_self ..)
        simp [needsNode, full]
    rw [reverse_cons, flatMap_append, foldl_append, ih shaped.tail]
    simp only [flatMap_cons, flatMap_nil, append_nil]
    exact foldl_insertAction_node needs node.undoActions node.size_le (shaped.nonempty node (mem_cons_self ..))

variable (ints : Codec Int) (actions : Codec ObUndoAction)

instance : Nontrivial ObUndoAction := ⟨.reset, ⟨⟨1⟩, ⟨1⟩⟩, by decide⟩

theorem deserializeBody_serializeBody {list : ObUndoStatusList} (shaped : Shaped list.nodes) :
    deserializeBody ints actions (serializeBody ints actions list) = .ok list := by
  unfold deserializeBody serializeBody
  rw [ints.decode_encode]
  dsimp only
  rw [actions.decodeInto_encodeAll insertAction _ _ _ (actions.length_le_encodeAll _), foldl_insertAction shaped]

theorem deserialize_serialize {list : ObUndoStatusList} (shaped : Shaped list.nodes) (rest : List UInt8) :
    deserialize ints actions (serialize ints actions list ++ rest) = .ok (list, rest) := by
  unfold deserialize serialize
  dsimp only
  rw [append_assoc, ints.decode_encode]
  dsimp only
  rw [append_assoc, ints.decode_encode]
  dsimp only
  rw [if_neg (by simp), if_neg (by omega), if_neg (by rw [length_append]; omega)]
  simp only [Int.toNat_natCast, take_left, drop_left]
  rw [deserializeBody_serializeBody ints actions shaped]
  rfl

end Reload

section Run

/-- A list that comes from calls that succeeded, with the actions that were given to them. -/
inductive Reached : List ObUndoAction → ObUndoStatusList → Prop
  | empty : Reached [] .empty
  | added {given : List ObUndoAction} {list result : ObUndoStatusList} {left : ObUndoAction}
      (reached : Reached given list) (action : ObUndoAction) (valid : action.isValid = true)
      (hasNode canAlloc : Bool)
      (done : addUndoAction list action hasNode canAlloc = (.ok (), result, left)) :
      Reached (action :: given) result
  | reloaded {given : List ObUndoAction} {list result : ObUndoStatusList} {rest : List UInt8}
      (reached : Reached given list) (ints : Codec Int) (actions : Codec ObUndoAction)
      (done : deserialize ints actions (serialize ints actions list) = .ok (result, rest)) :
      Reached given result
  | rolledBack {given : List ObUndoAction} {list copy live : ObUndoStatusList}
      (reached : Reached given list) (action : ObUndoAction) (valid : action.isValid = true)
      (canAlloc : Bool) (done : leaderRollback list action canAlloc = .ok (copy, live)) :
      Reached (action :: given) live

variable {given : List ObUndoAction} {list : ObUndoStatusList}

theorem Reached.exact (reached : Reached given list) :
    Sound list ∧ ∀ seqNo, list.isContain seqNo = true ↔ Covers given seqNo := by
  induction reached with
  | empty =>
    refine ⟨⟨⟨by simp [ObUndoStatusList.empty], by simp [ObUndoStatusList.empty]⟩, rfl, ?_⟩, ?_⟩
    · intro action member
      cases member
    · exact fun _ => isContain_iff .empty
  | added _ action valid _ _ done ih =>
    have adds := addUndoAction_adds ih.1 (.inl valid) done
    refine ⟨adds.sound, fun seqNo => ?_⟩
    rw [adds.covers, ih.2, covers_cons, or_comm]
  | reloaded _ ints actions done ih =>
    have same := deserialize_serialize ints actions ih.1.shaped []
    grind
  | rolledBack _ action valid _ done ih =>
    obtain ⟨sound, covers, -⟩ := leaderRollback_adds ih.1 valid done
    refine ⟨sound, fun seqNo => ?_⟩
    rw [covers, ih.2, covers_cons, or_comm]

structure UndoExact (given : List ObUndoAction) (list : ObUndoStatusList) : Prop where
  contains : ∀ seqNo, list.isContain seqNo = true ↔
    ∃ action ∈ given, action.isContain seqNo = true
  copies : ∀ action canAlloc copy live, action.isValid = true →
    leaderRollback list action canAlloc = .ok (copy, live) →
    ∀ seqNo, live.isContain seqNo = true ↔ copy.isContain seqNo = true
  count : list.undoNodeCnt = list.nodes.length
  full : ∀ node ∈ list.nodes.tail, node.size = txDataUndoActMaxNumPerNode
  reloads : ∀ (ints : Codec Int) (actions : Codec ObUndoAction) (rest : List UInt8),
    deserialize ints actions (serialize ints actions list ++ rest) = .ok (list, rest)

theorem undoList_exact (reached : Reached given list) : UndoExact given list where
  contains := reached.exact.2
  copies _ _ _ _ valid done := (leaderRollback_adds reached.exact.1 valid done).2.2
  count := reached.exact.1.count
  full := reached.exact.1.shaped.full
  reloads ints actions rest := deserialize_serialize ints actions reached.exact.1.shaped rest

/-- A number is written as so many bytes 1 and a byte 0. -/
def unaryDecode : List UInt8 → Option (Nat × List UInt8)
  | [] => none
  | byte :: rest =>
    if byte = 0 then some (0, rest) else (unaryDecode rest).map fun found => (found.1 + 1, found.2)

theorem unaryDecode_replicate (n : Nat) (rest : List UInt8) :
    unaryDecode (replicate n 1 ++ 0 :: rest) = some (n, rest) := by
  induction n with
  | zero => simp [unaryDecode]
  | succ n ih => simp [unaryDecode, replicate_succ, ih]

def unaryCodec {α : Type} (number : α → Nat) (value : Nat → α) (inverse : ∀ a, value (number a) = a) : Codec α where
  encode a := replicate (number a) 1 ++ [0]
  decode bytes := (unaryDecode bytes).map fun found => (value found.1, found.2)
  decode_encode a rest := by simp [unaryDecode_replicate, inverse]

def unaryInts : Codec Int := unaryCodec Equiv.intEquivNat Equiv.intEquivNat.symm Equiv.intEquivNat.symm_apply_apply

def unaryActions : Codec ObUndoAction :=
  unaryCodec (fun action => action.undoFrom.rawVal.toNat * 2 ^ 64 + action.undoTo.rawVal.toNat)
    (fun n => ⟨⟨BitVec.ofNat 64 (n / 2 ^ 64)⟩, ⟨BitVec.ofNat 64 n⟩⟩) (by
      rintro ⟨⟨undoFrom⟩, ⟨undoTo⟩⟩
      have bound := undoTo.isLt
      simp only [ObUndoAction.mk.injEq, ObTxSEQ.mk.injEq]
      constructor <;> apply BitVec.eq_of_toNat_eq <;> simp only [BitVec.toNat_ofNat] <;> omega)

/-- The rollback of so many statements, one after the other, each on all branches. -/
def statementRollback (n : Nat) : ObUndoAction := ⟨.ofSeq (10 * n + 5) 0, .ofSeq (10 * n) 0⟩

/-- Eight rollbacks fill a node and begin another one. The list is reloaded, and then the leader rolls
back on branch 3, where the range is covered already. -/
theorem branchRollbacks_exact : ∃ list, list.nodes.length = 2 ∧ UndoExact
    (⟨.ofSeq 84 3, .ofSeq 82 3⟩ :: [8, 7, 6, 5, 4, 3, 2, 1].map statementRollback) list ∧
    list.isContain (.ofSeq 14 7) = true := by
  have first := Reached.empty.added (statementRollback 1) (by decide) false true rfl
  have second := first.added (statementRollback 2) (by decide) false true rfl
  have third := second.added (statementRollback 3) (by decide) false true rfl
  have fourth := third.added (statementRollback 4) (by decide) false true rfl
  have fifth := fourth.added (statementRollback 5) (by decide) false true rfl
  have sixth := fifth.added (statementRollback 6) (by decide) false true rfl
  have seventh := sixth.added (statementRollback 7) (by decide) false true rfl
  have eighth := seventh.added (statementRollback 8) (by decide) false true rfl
  have reads := deserialize_serialize unaryInts unaryActions eighth.exact.1.shaped []
  rw [append_nil] at reads
  have reloaded := eighth.reloaded unaryInts unaryActions reads
  have covered := reloaded.rolledBack ⟨.ofSeq 84 3, .ofSeq 82 3⟩ (by decide) true rfl
  exact ⟨_, by decide, undoList_exact covered, by decide⟩

end Run

end IMBridge.Tx
