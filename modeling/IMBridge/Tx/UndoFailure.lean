import IMBridge.Tx.UndoContains

/-!
Calls of `add_undo_action` that fail. Nodes which the new action covers are freed before it is known
whether a node for it can be had.
-/

namespace IMBridge.Tx

open ObUndoStatusNode
variable {list : ObUndoStatusList} {action : ObUndoAction} {hasNode canAlloc : Bool}

section

variable (action : ObUndoAction)

def ObUndoStatusNode.coveredBy (node : ObUndoStatusNode) : Bool :=
  node.undoActions.all action.isContainAction

def coveredNodes (nodes : List ObUndoStatusNode) : List ObUndoStatusNode :=
  nodes.takeWhile (coveredBy action)

def uncoveredNodes (nodes : List ObUndoStatusNode) :
    List ObUndoStatusNode :=
  nodes.dropWhile (coveredBy action)

/-- The action can neither be put into the first of the nodes nor be merged with its last action. -/
def Refuses : List ObUndoStatusNode → Prop
  | [] => True
  | node :: _ => node.size = txDataUndoActMaxNumPerNode ∧
      ∀ last ∈ node.undoActions.head?, action.isContainAction last = false ∧
        last.isContainAction action = false

end

section Merge

theorem mergeActions_eq_nil_iff (actions : List ObUndoAction) :
    (mergeActions action actions).1 = [] ↔ actions.all action.isContainAction = true := by
  induction actions with
  | nil => simp [mergeActions]
  | cons last older ih =>
    unfold mergeActions
    grind

theorem mergeActions_of_all {actions : List ObUndoAction}
    (all : actions.all action.isContainAction = true) : mergeActions action actions = ([], action) := by
  induction actions with
  | nil => rfl
  | cons last older ih =>
    obtain ⟨pop, older⟩ := Bool.and_eq_true_iff.mp all
    rw [mergeActions, if_pos pop]
    exact ih older

theorem size_merge_eq_zero_iff (node : ObUndoStatusNode) :
    (node.merge action).size = 0 ↔ node.coveredBy action = true := by
  rw [ObUndoStatusNode.size, List.length_eq_zero_iff]
  exact mergeActions_eq_nil_iff node.undoActions

theorem mergeUndoActions_uncovered (nodes : List ObUndoStatusNode) : mergeUndoActions action nodes nodes.length =
      mergeUndoActions action (uncoveredNodes action nodes) (uncoveredNodes action nodes).length := by
  induction nodes with
  | nil => rfl
  | cons node nodes ih =>
    cases covered : node.coveredBy action with
    | false => simp [uncoveredNodes, covered]
    | true =>
      have freed := (size_merge_eq_zero_iff node).mpr covered
      have rest : uncoveredNodes action (node :: nodes) = uncoveredNodes action nodes := by
        simp [uncoveredNodes, covered]
      rw [rest, ← ih, mergeUndoActions, mergeActions_of_all covered]
      grind

variable {node : ObUndoStatusNode} {older : List ObUndoStatusNode}

theorem coveredBy_uncoveredNodes {nodes : List ObUndoStatusNode} (eq : uncoveredNodes action nodes = node :: older) :
    node.coveredBy action = false := by
  have head := List.head?_dropWhile_not (coveredBy action) nodes
  rw [uncoveredNodes] at eq
  rw [eq] at head
  simpa using head

/-- In a node that refuses the action, nothing is popped and the action stays. -/
theorem mergeActions_of_refuses (refuses : Refuses action (node :: older)) :
    mergeActions action node.undoActions = (node.undoActions, action) := by
  cases eq : node.undoActions with
  | nil => rfl
  | cons last rest =>
    obtain ⟨new, old⟩ := refuses.2 last (by simp [eq])
    simp [mergeActions, new, old]

theorem accepts_of_not_refuses (accepts : ¬ Refuses action (node :: older)) :
    needsNode (node.merge action :: older) = false ∨ (mergeActions action node.undoActions).2 = .reset := by
  have fits (short : (mergeActions action node.undoActions).1.length < txDataUndoActMaxNumPerNode) :
      needsNode (node.merge action :: older) = false := by
    simpa [needsNode, ObUndoStatusNode.size, merge] using short
  have popped := length_mergeActions_le action node.undoActions
  by_cases full : node.size = txDataUndoActMaxNumPerNode
  · have related : ∃ last ∈ node.undoActions.head?,
        ¬ (action.isContainAction last = false ∧ last.isContainAction action = false) := by
      by_contra none
      push Not at none
      exact accepts ⟨full, fun last member => ⟨none last member |>.1, none last member |>.2⟩⟩
    obtain ⟨last, member, related⟩ := related
    cases eq : node.undoActions with
    | nil => simp [eq] at member
    | cons head rest =>
      obtain rfl : head = last := by simpa [eq] using member
      have size : rest.length + 1 = txDataUndoActMaxNumPerNode := by
        rw [← full, ObUndoStatusNode.size, eq, List.length_cons]
      rw [eq] at fits
      unfold mergeActions at fits ⊢
      split_ifs at fits ⊢ with pop merged
      · have le := length_mergeActions_le action rest
        exact .inl (fits (by omega))
      · exact .inr rfl
      · simp [pop, merged] at related
  · have size_le := node.size_le
    unfold ObUndoStatusNode.size at full
    exact .inl (fits (by omega))

end Merge

section Call

theorem Shaped.suffix {nodes rest : List ObUndoStatusNode} (shaped : Shaped nodes)
    (suffix : rest <:+ nodes) : Shaped rest := by
  obtain ⟨front, rfl⟩ := suffix
  induction front with
  | nil => exact shaped
  | cons node front ih => exact ih shaped.tail

theorem addUndoAction_of_refuses (sound : Sound list) (valid : action.isValid = true)
    (refuses : Refuses action (uncoveredNodes action list.nodes)) :
    addUndoAction list action false false = (.error .allocateMemoryFailed,
        ⟨uncoveredNodes action list.nodes, (uncoveredNodes action list.nodes).length⟩, action) := by
  rw [addUndoAction, sound.count, mergeUndoActions_uncovered]
  cases eq : uncoveredNodes action list.nodes with
  | nil => simp [mergeUndoActions, valid, needsNode]
  | cons node older =>
    rw [eq] at refuses
    have kept := mergeActions_of_refuses refuses
    have same : node.merge action = node := by
      cases node
      simp only [merge, kept]
    have full := refuses.1
    have some : node.size ≠ 0 := by
      rw [full]
      decide
    have needs : needsNode (node :: older) = true := by simp [needsNode, full]
    rw [mergeUndoActions, same, kept]
    grind

theorem addUndoAction_succeeds (sound : Sound list)
    (accepts : ¬ (hasNode = false ∧ canAlloc = false ∧ Refuses action (uncoveredNodes action list.nodes))) :
    (addUndoAction list action hasNode canAlloc).1 = .ok () := by
  obtain ⟨merged, left, eq, -⟩ := mergeUndoActions_merges list.nodes action sound.shaped
  rw [addUndoAction, sound.count, eq]
  dsimp only
  split_ifs with invalid needs node
  · rfl
  · rfl
  · -- No node is to be had, so the head of what is left takes the action.
    exfalso
    obtain ⟨none, fails⟩ : hasNode = false ∧ canAlloc = false := by simpa using node
    rw [mergeUndoActions_uncovered] at eq
    cases rest : uncoveredNodes action list.nodes with
    | nil => exact accepts ⟨none, fails, by simp [rest, Refuses]⟩
    | cons head older =>
      have uncovered := coveredBy_uncoveredNodes rest
      have some : (head.merge action).size ≠ 0 := by
        rw [Ne, size_merge_eq_zero_iff, uncovered]
        simp
      rw [rest, mergeUndoActions] at eq
      simp only [some, if_false, Prod.mk.injEq, true_and] at eq
      obtain ⟨rfl, rfl⟩ := eq
      have notRefused : ¬ Refuses action (head :: older) := by
        grind
      rcases accepts_of_not_refuses notRefused with room | reset
      · rw [room] at needs
        cases needs
      · rw [reset] at invalid
        exact invalid ObUndoAction.isValid_reset
  · rfl

/-- A call keeps the list sound, whether it fails or not. -/
theorem addUndoAction_sound (sound : Sound list) (valid : action.isValid = true) :
    Sound (addUndoAction list action hasNode canAlloc).2.1 := by
  by_cases fails : hasNode = false ∧ canAlloc = false ∧ Refuses action (uncoveredNodes action list.nodes)
  · obtain ⟨rfl, rfl, refuses⟩ := fails
    rw [addUndoAction_of_refuses sound valid refuses]
    have suffix : uncoveredNodes action list.nodes <:+ list.nodes := List.dropWhile_suffix _
    refine ⟨sound.shaped.suffix suffix, rfl, fun other member => ?_⟩
    obtain ⟨node, isNode, member⟩ := List.mem_flatMap.mp member
    exact sound.valid other (List.mem_flatMap.mpr ⟨node, suffix.subset isNode, member⟩)
  · have done := addUndoAction_succeeds sound fails
    have eq : addUndoAction list action hasNode canAlloc = (.ok (), (addUndoAction list action hasNode canAlloc).2.1,
          (addUndoAction list action hasNode canAlloc).2.2) := Prod.ext done rfl
    exact (addUndoAction_adds sound (.inl valid) eq).sound

theorem isContain_eq (list : ObUndoStatusList) (action : ObUndoAction) (seqNo : ObTxSEQ) :
    list.isContain seqNo = true ↔ Covers (allActions (coveredNodes action list.nodes)) seqNo ∨
        Covers (allActions (uncoveredNodes action list.nodes)) seqNo := by
  rw [isContain_iff, ← covers_append, allActions, allActions, allActions, ← List.flatMap_append,
    coveredNodes, uncoveredNodes, List.takeWhile_append_dropWhile]

end Call

/-- A list after any calls, those that failed among them. -/
inductive Called : ObUndoStatusList → Prop
  | empty : Called .empty
  | call {list : ObUndoStatusList} (called : Called list) (action : ObUndoAction)
      (valid : action.isValid = true) (hasNode canAlloc : Bool) :
      Called (addUndoAction list action hasNode canAlloc).2.1

theorem Called.sound (called : Called list) : Sound list := by
  induction called with
  | empty => exact (Reached.empty).exact.1
  | call _ action valid hasNode canAlloc ih => exact addUndoAction_sound ih valid

/-- If the call fails, the list answers as before and counts its nodes. -/
def FailsSafely (list : ObUndoStatusList) (action : ObUndoAction) (hasNode canAlloc : Bool) : Prop :=
  let result := addUndoAction list action hasNode canAlloc
  ∀ err, result.1 = .error err → (∀ seqNo, result.2.1.isContain seqNo = list.isContain seqNo) ∧
      result.2.1.undoNodeCnt = result.2.1.nodes.length

/-- No node is to be had, the list takes the action nowhere, and a sequence number is in the nodes
that the action covers only. -/
structure Drops (list : ObUndoStatusList) (action : ObUndoAction) (hasNode canAlloc : Bool) :
    Prop where
  notGiven : hasNode = false
  notAllocated : canAlloc = false
  refuses : Refuses action (uncoveredNodes action list.nodes)
  dropped : ∃ seqNo, Covers (allActions (coveredNodes action list.nodes)) seqNo ∧
    ¬ Covers (allActions (uncoveredNodes action list.nodes)) seqNo

/-- A call that fails forgets nothing, exactly unless it drops nodes first. -/
theorem failsSafely_iff (called : Called list) (valid : action.isValid = true)
    (hasNode canAlloc : Bool) :
    FailsSafely list action hasNode canAlloc ↔ ¬ Drops list action hasNode canAlloc := by
  have sound := called.sound
  constructor
  · intro safe drops
    obtain ⟨rfl, rfl, refuses, seqNo, covered, uncovered⟩ := drops
    have eq := addUndoAction_of_refuses sound valid refuses
    have same := (safe .allocateMemoryFailed (by rw [eq])).1 seqNo
    have before := (isContain_eq list action seqNo).mpr (.inl covered)
    rw [before, eq, isContain_iff] at same
    exact uncovered same
  · intro keeps err failed
    by_cases fails : hasNode = false ∧ canAlloc = false ∧
        Refuses action (uncoveredNodes action list.nodes)
    · obtain ⟨rfl, rfl, refuses⟩ := fails
      rw [addUndoAction_of_refuses sound valid refuses]
      refine ⟨fun seqNo => ?_, rfl⟩
      rw [Bool.eq_iff_iff, isContain_iff, isContain_eq list action]
      constructor
      · exact .inr
      · rintro (covered | uncovered)
        · by_contra uncovered
          exact keeps ⟨rfl, rfl, refuses, seqNo, covered, uncovered⟩
        · exact uncovered
    · rw [addUndoAction_succeeds sound fails] at failed
      cases failed

def oneRollback : ObUndoStatusList :=
  (addUndoAction .empty ⟨.ofSeq 20 0, .ofSeq 10 0⟩ false true).2.1

theorem called_oneRollback : Called oneRollback := .call .empty _ (by decide) false true

theorem Called.rollbacks (called : Called list) (actions : List ObUndoAction)
    (valid : ∀ action ∈ actions, action.isValid = true) :
    Called (actions.foldl (fun list action => (addUndoAction list action false true).2.1) list) := by
  induction actions generalizing list with
  | nil => exact called
  | cons action rest ih =>
    have added := Called.call called action (valid action List.mem_cons_self) false true
    exact ih added fun other member => valid other (List.mem_cons_of_mem _ member)

def fullNode : ObUndoStatusList :=
  ([1, 2, 3, 4, 5, 6, 7].map statementRollback).foldl (fun list action => (addUndoAction list action false true).2.1)
    .empty

/-- A full node, and no memory for another one: the call fails, and nothing is lost. -/
theorem failsSafely_fullNode : (addUndoAction fullNode (statementRollback 8) false false).1 =
      .error .allocateMemoryFailed ∧ FailsSafely fullNode (statementRollback 8) false false := by
  refine ⟨by decide, ?_⟩
  have called : Called fullNode := Called.empty.rollbacks _ (by decide)
  apply (failsSafely_iff called (by decide) false false).mpr
  intro drops
  obtain ⟨seqNo, covered, -⟩ := drops.dropped
  have none : coveredNodes (statementRollback 8) fullNode.nodes = [] := by decide
  rw [none] at covered
  simp [Covers, allActions] at covered

/-- Without one, the smaller rollback is forgotten with the larger one. -/
theorem larger_rollback_forgets :
    let result := addUndoAction oneRollback ⟨.ofSeq 30 0, .ofSeq 5 0⟩ false false
    Called oneRollback ∧ result.1 = .error .allocateMemoryFailed ∧
      oneRollback.isContain (.ofSeq 15 0) = true ∧ result.2.1.isContain (.ofSeq 15 0) = false :=
  ⟨called_oneRollback, by decide, by decide, by decide⟩

end IMBridge.Tx
