import IMBridge.Lib.Codec

/-!
The undo list of a transaction (`ob_tx_data_define.cpp`): ranges of sequence numbers in a linked
list of nodes with room for seven ranges each. Of a node's array and of the list of nodes the end
comes first here.
-/

namespace IMBridge.Tx

open IMBridge.Lib

/-- A sequence number in 64 bits: 15 bits of a branch and 47 of a number if bit 62 is set, else 62 bits
of a number (the old format). -/
structure ObTxSEQ where
  rawVal : BitVec 64
deriving DecidableEq, Repr

namespace ObTxSEQ

def ofSeq (seq branch : Nat) : ObTxSEQ :=
  ⟨1#1 ++ BitVec.ofNat 47 seq ++ BitVec.ofNat 15 branch |>.setWidth 64⟩

def branch (seq : ObTxSEQ) : Nat := (seq.rawVal.extractLsb' 0 15).toNat

def seq (seq : ObTxSEQ) : Nat := (seq.rawVal.extractLsb' 15 47).toNat

def seqV0 (seq : ObTxSEQ) : Nat := (seq.rawVal.extractLsb' 0 62).toNat

def nFormat (seq : ObTxSEQ) : Bool := seq.rawVal.getLsbD 62

def reset : ObTxSEQ := ⟨0⟩

def isValid (seq : ObTxSEQ) : Bool := decide (seq.rawVal.toInt > 0)

def getSeq (self : ObTxSEQ) : Nat := if self.nFormat then self.seq else self.seqV0

def getBranch (self : ObTxSEQ) : Nat := if self.nFormat then self.branch else 0

def gt (self other : ObTxSEQ) : Bool :=
  if self.nFormat then decide (self.seq > other.seq) else decide (self.seqV0 > other.seqV0)

end ObTxSEQ

/-- The range from `undoTo`, exclusive, to `undoFrom`, inclusive. -/
structure ObUndoAction where
  undoFrom : ObTxSEQ
  undoTo : ObTxSEQ
deriving DecidableEq, Repr

namespace ObUndoAction

def reset : ObUndoAction := ⟨.reset, .reset⟩

def isValid (action : ObUndoAction) : Bool := action.undoFrom.isValid && action.undoTo.isValid &&
    decide (action.undoFrom.getBranch = action.undoTo.getBranch) &&
    action.undoFrom.gt action.undoTo

/-- `is_contain` of a sequence number; branch 0 stands for all branches. -/
def isContain (action : ObUndoAction) (seqNo : ObTxSEQ) : Bool :=
  (decide (action.undoTo.getBranch = 0) || decide (action.undoTo.getBranch = seqNo.getBranch)) &&
    decide (seqNo.getSeq > action.undoTo.getSeq) && decide (seqNo.getSeq ≤ action.undoFrom.getSeq)

def isContainAction (action other : ObUndoAction) : Bool := (decide (action.undoTo.getBranch = 0) ||
      decide (action.undoTo.getBranch = other.undoTo.getBranch)) &&
    decide (action.undoFrom.getSeq ≥ other.undoFrom.getSeq) &&
    decide (action.undoTo.getSeq ≤ other.undoTo.getSeq)

end ObUndoAction

def txDataUndoActMaxNumPerNode : Nat := 128 / 16 - 1

/-- The `size_` first elements of the array of a node, the last of them first. -/
structure ObUndoStatusNode where
  undoActions : List ObUndoAction
  size_le : undoActions.length ≤ txDataUndoActMaxNumPerNode
deriving DecidableEq

namespace ObUndoStatusNode

def size (node : ObUndoStatusNode) : Nat := node.undoActions.length

def single (action : ObUndoAction) : ObUndoStatusNode := ⟨[action], by simp [txDataUndoActMaxNumPerNode]⟩

end ObUndoStatusNode

structure ObUndoStatusList where
  nodes : List ObUndoStatusNode
  undoNodeCnt : Int
deriving DecidableEq

inductive UndoError where
  | allocateMemoryFailed
  | errUnexpected
  | deserializeError
  | versionNotMatch
deriving DecidableEq, Repr

namespace ObUndoStatusList

def empty : ObUndoStatusList := ⟨[], 0⟩

def isContain (list : ObUndoStatusList) (seqNo : ObTxSEQ) : Bool :=
  list.nodes.any (fun node => node.undoActions.any (fun action => action.isContain seqNo))

/-- `deep_copy_undo_status_list_` allocates nodes of its own for the same contents. -/
def deepCopy (list : ObUndoStatusList) : ObUndoStatusList := list

end ObUndoStatusList

/-- The loop over a node in `merge_undo_actions_`: covered actions are popped, and if the next one
covers the new action that is reset. -/
def mergeActions (newAction : ObUndoAction) : List ObUndoAction → List ObUndoAction × ObUndoAction
  | [] => ([], newAction)
  | last :: older =>
    if newAction.isContainAction last then mergeActions newAction older
    else if last.isContainAction newAction then (last :: older, .reset)
    else (last :: older, newAction)

theorem length_mergeActions_le (newAction : ObUndoAction) (actions : List ObUndoAction) :
    (mergeActions newAction actions).1.length ≤ actions.length := by
  induction actions with
  | nil => exact Nat.le_refl _
  | cons last older ih =>
    unfold mergeActions
    grind

def ObUndoStatusNode.merge (newAction : ObUndoAction) (node : ObUndoStatusNode) : ObUndoStatusNode :=
  ⟨(mergeActions newAction node.undoActions).1,
    Nat.le_trans (length_mergeActions_le newAction node.undoActions) node.size_le⟩

/-- `merge_undo_actions_`: nodes that become empty are freed. -/
def mergeUndoActions (newAction : ObUndoAction) :
    List ObUndoStatusNode → Int → Except UndoError Unit × ObUndoStatusList × ObUndoAction
  | [], cnt => (.ok (), ⟨[], cnt⟩, newAction)
  | node :: nodes, cnt =>
    let merged := node.merge newAction
    let newAction := (mergeActions newAction node.undoActions).2
    if merged.size = 0 then
      if cnt ≤ 0 then (.error .errUnexpected, ⟨nodes, cnt⟩, newAction)
      else mergeUndoActions newAction nodes (cnt - 1)
    else (.ok (), ⟨merged :: nodes, cnt⟩, newAction)

/-- Puts an action at the end: into the head if that has room, else into a new node. -/
def insertAction (nodes : List ObUndoStatusNode) (action : ObUndoAction) : List ObUndoStatusNode :=
  match nodes with
  | [] => [.single action]
  | node :: older =>
    if room : node.size < txDataUndoActMaxNumPerNode then
      ⟨action :: node.undoActions, room⟩ :: older
    else .single action :: node :: older

def needsNode : List ObUndoStatusNode → Bool
  | [] => true
  | node :: _ => decide (node.size ≥ txDataUndoActMaxNumPerNode)

/-- `ObTxData::add_undo_action`, with what it makes of the action object. `hasNode` is whether a node
was allocated beforehand, `canAlloc` whether allocating one now succeeds. -/
def addUndoAction (list : ObUndoStatusList) (newAction : ObUndoAction) (hasNode canAlloc : Bool) :
    Except UndoError Unit × ObUndoStatusList × ObUndoAction :=
  match mergeUndoActions newAction list.nodes list.undoNodeCnt with
  | (.error err, merged, action) => (.error err, merged, action)
  | (.ok (), merged, action) =>
    if action.isValid = false then (.ok (), merged, action)
    else if needsNode merged.nodes then
      if hasNode || canAlloc then
        (.ok (), ⟨insertAction merged.nodes action, merged.undoNodeCnt + 1⟩, action)
      else (.error .allocateMemoryFailed, merged, action)
    else (.ok (), ⟨insertAction merged.nodes action, merged.undoNodeCnt⟩, action)

/-- `prepare_add_undo_action` and `commit_add_undo_action`: the action goes to a copy of the list, then
the same object goes to the list. Returns the copy and the list. -/
def leaderRollback (list : ObUndoStatusList) (action : ObUndoAction) (canAlloc : Bool) :
    Except UndoError (ObUndoStatusList × ObUndoStatusList) :=
  match addUndoAction list.deepCopy action false canAlloc with
  | (.error err, _, _) => .error err
  | (.ok (), copy, action) =>
    match addUndoAction list action true canAlloc with
    | (.error err, _, _) => .error err
    | (.ok (), live, _) => .ok (copy, live)

section Serialization

variable (ints : Codec Int) (actions : Codec ObUndoAction)

def unisVersion : Int := 1

def serializeBody (list : ObUndoStatusList) : List UInt8 := ints.encode list.undoNodeCnt ++
    actions.encodeAll (list.nodes.reverse.flatMap (fun node => node.undoActions.reverse))

def serialize (list : ObUndoStatusList) : List UInt8 :=
  let body := serializeBody ints actions list
  ints.encode unisVersion ++ (ints.encode body.length ++ body)

def deserializeBody (buf : List UInt8) : Except UndoError ObUndoStatusList :=
  match ints.decode buf with
  | none => .error .deserializeError
  | some (cnt, rest) =>
    match actions.decodeInto insertAction rest.length rest [] with
    | none => .error .deserializeError
    | some nodes => .ok ⟨nodes, cnt⟩

def deserialize (buf : List UInt8) : Except UndoError (ObUndoStatusList × List UInt8) :=
  match ints.decode buf with
  | none => .error .deserializeError
  | some (version, buf) =>
    match ints.decode buf with
    | none => .error .deserializeError
    | some (len, buf) =>
      if version ≠ unisVersion then .error .versionNotMatch
      else if len < 0 then .error .errUnexpected
      else if (buf.length : Int) < len then .error .deserializeError
      else
        (deserializeBody ints actions (buf.take len.toNat)).map
          (fun list => (list, buf.drop len.toNat))

end Serialization

end IMBridge.Tx
