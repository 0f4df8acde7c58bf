import IMBridge.Lib.Walk
import IMBridge.Deadlock.CollectInfo

/-!
Collecting reports over a network which may lose, duplicate and reorder messages. A message in
flight carries a simple path of the wait-for graph, so what is reported is a cycle.
-/

namespace IMBridge.Deadlock

open IMBridge.Lib.Walk ObLCLNode Collector List

def ObDetectorInnerReportInfo.signature {U : Type} (info : ObDetectorInnerReportInfo U) :
    ObAddr × Nat × ObDetectorPriority :=
  (info.addr, info.detectorId, info.priority)

/-- `called` lists the calls of `detect_callback_`, newest first. -/
structure Collection (D U : Type) where
  collector : D → Collector
  inFlight : List (ObDeadLockCollectInfoMessage U)
  called : List (D × List (ObDetectorInnerReportInfo U))

/-- What can happen. A message in flight is given by its index. -/
inductive CollectAction (D U : Type) where
  | detect (d : D) (answers : CallbackAnswers U)
  | deliver (d : D) (index : Nat) (answers : CallbackAnswers U)
  | unregistered (index : Nat)
  | duplicate (index : Nat)
  | lose (index : Nat)

namespace CollectAction

variable {D U : Type}

def creates : CollectAction D U → Bool
  | detect .. => true
  | duplicate _ => true
  | _ => false

def consumes : CollectAction D U → Bool
  | deliver .. => true
  | unregistered _ => true
  | lose _ => true
  | _ => false

def isLose : CollectAction D U → Bool
  | lose _ => true
  | _ => false

def Reports : CollectAction D U → Prop
  | detect _ answers => answers.collected.isSome
  | deliver _ _ answers => answers.collected.isSome
  | _ => True

end CollectAction

namespace Collection

variable {D U : Type}

def node (s : Collection D U) (d : D) : ObLCLNode := (s.collector d).node

def WaitsFor (s : Collection D U) (d e : D) : Prop :=
  (s.node e).selfResource ∈ (s.node d).blocklistSnapshot

instance (s : Collection D U) (d e : D) : Decidable (s.WaitsFor d e) :=
  inferInstanceAs (Decidable (_ ∈ _))

def label (s : Collection D U) (d : D) : ObLCLLabel := (s.node d).privateLabel

def SameGraph (s s' : Collection D U) : Prop :=
  ∀ d, (s'.node d).blocklistSnapshot = (s.node d).blocklistSnapshot

instance [Fintype D] (s s' : Collection D U) : Decidable (SameGraph s s') :=
  inferInstanceAs (Decidable (∀ d, (s'.node d).blocklistSnapshot = (s.node d).blocklistSnapshot))

variable [DecidableEq D]

def process (s : Collection D U) (d : D) (answers : CallbackAnswers U)
    (collectedInfo : List (ObDetectorInnerReportInfo U)) : Collection D U :=
  let result := (s.collector d).processCollectInfoMessage answers collectedInfo
  { collector := Function.update s.collector d result.collector
    inFlight := s.inFlight ++ result.posted
    called := (result.called.map (d, ·)).toList ++ s.called }

variable [Fintype D]

def step (s : Collection D U) : CollectAction D U → Option (Collection D U)
  | .detect d answers => some (s.process d answers [])
  | .deliver d index answers =>
    match s.inFlight[index]? with
    | none => none
    | some msg =>
      if msg.dest = (s.node d).selfResource then
        some (Collection.process { s with inFlight := s.inFlight.eraseIdx index } d answers
          msg.collectedInfo)
      else none
  | .unregistered index =>
    match s.inFlight[index]? with
    | none => none
    | some msg =>
      if ∀ d, msg.dest ≠ (s.node d).selfResource then
        some { s with inFlight := s.inFlight.eraseIdx index }
      else none
  | .duplicate index =>
    match s.inFlight[index]? with
    | none => none
    | some msg => some { s with inFlight := msg :: s.inFlight }
  | .lose index =>
    match s.inFlight[index]? with
    | none => none
    | some _ => some { s with inFlight := s.inFlight.eraseIdx index }

inductive Acts (s : Collection D U) : CollectAction D U → Collection D U → Prop
  | detect (d : D) (answers : CallbackAnswers U) : Acts s (.detect d answers) (s.process d answers [])
  | deliver {d : D} {index : Nat} {msg : ObDeadLockCollectInfoMessage U}
      (answers : CallbackAnswers U) (found : s.inFlight[index]? = some msg)
      (dest : msg.dest = (s.node d).selfResource) :
      Acts s (.deliver d index answers)
        (Collection.process { s with inFlight := s.inFlight.eraseIdx index } d answers
          msg.collectedInfo)
  | unregistered {index : Nat} {msg : ObDeadLockCollectInfoMessage U}
      (found : s.inFlight[index]? = some msg) (nobody : ∀ d, msg.dest ≠ (s.node d).selfResource) :
      Acts s (.unregistered index) { s with inFlight := s.inFlight.eraseIdx index }
  | duplicate {index : Nat} {msg : ObDeadLockCollectInfoMessage U}
      (found : s.inFlight[index]? = some msg) :
      Acts s (.duplicate index) { s with inFlight := msg :: s.inFlight }
  | lose {index : Nat} {msg : ObDeadLockCollectInfoMessage U}
      (found : s.inFlight[index]? = some msg) :
      Acts s (.lose index) { s with inFlight := s.inFlight.eraseIdx index }

theorem acts_of_step {s s' : Collection D U} {action : CollectAction D U}
    (done : s.step action = some s') : Acts s action s' := by
  unfold Collection.step at done
  split at done
  · cases done
    exact .detect ..
  all_goals
    split at done
    · cases done
  · split_ifs at done with dest
    cases done
    exact .deliver _ ‹_› dest
  · split_ifs at done with nobody
    cases done
    exact .unregistered ‹_› nobody
  · cases done
    exact .duplicate ‹_›
  · cases done
    exact .lose ‹_›

/-- The actions, newest first, lead from `start` to the state, and the wait-for graph is that of
`start` whenever one of them happens. -/
inductive Run (start : Collection D U) : List (CollectAction D U) → Collection D U → Prop
  | nil : Run start [] start
  | step {actions : List (CollectAction D U)} {s s' : Collection D U} {action : CollectAction D U}
      (run : Run start actions s) (fixed : SameGraph start s) (done : s.step action = some s') :
      Run start (action :: actions) s'

/-- A detector is known by its address and its id, and a resource names one detector. -/
structure Registered (s : Collection D U) : Prop where
  distinct : ∀ d e, (s.node d).selfAddr = (s.node e).selfAddr → (s.label d).id = (s.label e).id → d = e
  resource : ∀ d e, (s.node d).selfResource = (s.node e).selfResource → d = e

/-! ### Paths that messages carry -/

section Path

omit [DecidableEq D] [Fintype D]

variable {start s : Collection D U} {d e : D} {info : ObDetectorInnerReportInfo U}
  {infos : List (ObDetectorInnerReportInfo U)} {path : List D}

def signature (s : Collection D U) (d : D) : ObAddr × Nat × ObDetectorPriority :=
  ((s.node d).selfAddr, (s.label d).id, (s.label d).priority)

/-- The reports are those of the detectors on a simple path whose last one waits for `d`. -/
structure Leads (start : Collection D U) (path : List D)
    (infos : List (ObDetectorInnerReportInfo U)) (d : D) : Prop where
  described : infos.map ObDetectorInnerReportInfo.signature = path.map start.signature
  chain : path.IsChain start.WaitsFor
  nodup : path.Nodup
  arrives : ∀ last ∈ path.getLast?, start.WaitsFor last d

/-- The reports of the message are those of the detectors on a simple path whose last one waits for
the resource it goes to. -/
structure Carries (start : Collection D U) (path : List D) (msg : ObDeadLockCollectInfoMessage U) :
    Prop where
  described : msg.collectedInfo.map ObDetectorInnerReportInfo.signature = path.map start.signature
  chain : path.IsChain start.WaitsFor
  nodup : path.Nodup
  arrives : ∃ last ∈ path.getLast?, msg.dest ∈ (start.node last).blocklistSnapshot

theorem Leads.nil (start : Collection D U) (d : D) : Leads start [] [] d := ⟨rfl, .nil, .nil, by simp⟩

theorem Carries.leads {msg : ObDeadLockCollectInfoMessage U} (carries : Carries start path msg)
    (dest : msg.dest = (start.node d).selfResource) : Leads start path msg.collectedInfo d := by
  obtain ⟨last, isLast, waits⟩ := carries.arrives
  refine ⟨carries.described, carries.chain, carries.nodup, fun other isOther => ?_⟩
  obtain rfl : last = other := Option.mem_unique isLast isOther
  rwa [dest] at waits

/-- The reports are those of a cycle on which no detector has a lower priority than `x`. -/
def ReportsCycle (start : Collection D U) (x : D) (infos : List (ObDetectorInnerReportInfo U)) : Prop :=
  ∃ others, infos.map ObDetectorInnerReportInfo.signature = (x :: others).map start.signature ∧
    SimpleCycle start.WaitsFor x others ∧
    ∀ other ∈ others, (start.label other).priority.less (start.label x).priority = false

def SameDetectors (start s : Collection D U) : Prop :=
  ∀ d, (s.node d).identity = (start.node d).identity

section

variable (same : SameDetectors start s)
include same

theorem SameDetectors.isSelf_iff (registered : Registered start) (describes : info.signature = start.signature e) :
    (s.collector d).isSelf info = true ↔ d = e := by
  have addr : (s.collector d).node.selfAddr = (start.node d).selfAddr := selfAddr_of_identity (same d)
  have label : (s.collector d).node.privateLabel = start.label d := privateLabel_of_identity (same d)
  simp only [ObDetectorInnerReportInfo.signature, signature, Prod.mk.injEq] at describes
  simp only [Collector.isSelf, Bool.and_eq_true, beq_iff_eq, addr, label, describes.1, describes.2.1]
  constructor
  · rintro ⟨sameAddr, sameId⟩
    exact (registered.distinct e d sameAddr sameId).symm
  · rintro rfl
    exact ⟨rfl, rfl⟩

/-- One of the reports is the detector's own exactly if the message has been there. -/
theorem SameDetectors.checkDeadLoop_iff (registered : Registered start)
    (described : infos.map ObDetectorInnerReportInfo.signature = path.map start.signature) :
    (s.collector d).checkDeadLoop infos = true ↔ d ∈ path := by
  rw [checkDeadLoop, any_eq_true]
  constructor
  · rintro ⟨info, member, self⟩
    have described' := mem_map_of_mem (f := ObDetectorInnerReportInfo.signature) member
    rw [described] at described'
    obtain ⟨other, isOther, describes⟩ := mem_map.mp described'
    rwa [(same.isSelf_iff registered describes.symm).mp self]
  · intro member
    have described' := mem_map_of_mem (f := start.signature) member
    rw [← described] at described'
    obtain ⟨info, isInfo, describes⟩ := mem_map.mp described'
    exact ⟨info, isInfo, (same.isSelf_iff registered describes).mpr rfl⟩

theorem reportInfo_signature (answers : CallbackAnswers U) (user : U) :
    ((s.collector d).reportInfo answers infos user).signature = start.signature d := by
  have addr : (s.collector d).node.selfAddr = (start.node d).selfAddr := selfAddr_of_identity (same d)
  have label : (s.collector d).node.privateLabel = start.label d := privateLabel_of_identity (same d)
  simp [ObDetectorInnerReportInfo.signature, reportInfo, signature, addr, label]

end

theorem Leads.carries (leads : Leads start path infos d) (same : SameDetectors start s)
    (new : d ∉ path) (answers : CallbackAnswers U) (user : U) {dest : ObDependencyResource}
    (waits : dest ∈ (start.node d).blocklistSnapshot) :
    Carries start (path ++ [d]) ⟨dest, infos ++ [(s.collector d).reportInfo answers infos user]⟩ where
  described := by
    rw [map_append, map_append, leads.described, map_singleton, map_singleton, reportInfo_signature same]
  chain := by
    refine leads.chain.append (.singleton d) ?_
    intro last isLast next isNext
    obtain rfl : d = next := by simpa using isNext
    exact leads.arrives last isLast
  nodup := by
    refine nodup_append.mpr ⟨leads.nodup, nodup_singleton d, ?_⟩
    intro other member next isNext
    rw [mem_singleton.mp isNext]
    rintro rfl
    exact new member
  arrives := ⟨d, by simp, waits⟩

theorem Leads.reportsCycle {others : List D} (leads : Leads start (d :: others) infos d)
    (lowest : ifSelfHasLowestPriority infos = true) : ReportsCycle start d infos := by
  refine ⟨others, leads.described, ⟨leads.chain, leads.nodup, ?_⟩, fun other member => ?_⟩
  · exact leads.arrives _ (getLast?_eq_getLast_of_ne_nil (cons_ne_nil d others) ▸ rfl)
  · obtain ⟨first, rest, rfl, firstEq, restEq⟩ := map_eq_cons_iff.mp leads.described
    have lower := (ifSelfHasLowestPriority_cons first rest).mp lowest |>.2
    have described := mem_map_of_mem (f := start.signature) member
    rw [← restEq] at described
    obtain ⟨info, isInfo, describes⟩ := mem_map.mp described
    simp only [ObDetectorInnerReportInfo.signature, signature, Prod.mk.injEq] at describes firstEq
    grind

/-- What a detector does with the message: it reports a cycle or nothing, or it sends the message on
to everything it waits for. -/
theorem Leads.process_cases (leads : Leads start path infos d) (same : SameDetectors start s)
    (registered : Registered start) (fixed : SameGraph start s) (answers : CallbackAnswers U) :
    let result := (s.collector d).processCollectInfoMessage answers infos
    result.collector.node.identity = (start.node d).identity ∧
      ((result.posted = [] ∧ ∀ list ∈ result.called, ReportsCycle start d list) ∨
        (d ∉ path ∧ result.called = none ∧ ∃ user, result.posted = (start.node d).blocklistSnapshot.map
            (⟨·, infos ++ [(s.collector d).reportInfo answers infos user]⟩))) := by
  intro result
  have identity : (s.collector d).node.identity = (start.node d).identity := same d
  have loop := same.checkDeadLoop_iff (d := d) registered leads.described
  by_cases visited : d ∈ path
  · obtain ⟨e, others, rfl⟩ := exists_cons_of_ne_nil (ne_nil_of_mem visited)
    obtain ⟨first, rest, rfl, firstEq, -⟩ := map_eq_cons_iff.mp leads.described
    have self := same.isSelf_iff (d := d) registered firstEq
    by_cases home : d = e
    · subst home
      obtain ⟨kept, quiet, called⟩ := process_of_isSelf answers rest (self.mpr rfl)
      refine ⟨kept.trans identity, .inl ⟨quiet, fun list isCalled => ?_⟩⟩
      have isCalled : result.called = some list := isCalled
      rw [called] at isCalled
      split at isCalled
      · rename_i lowest
        cases isCalled
        exact leads.reportsCycle lowest
      · cases isCalled
    · have other : (s.collector d).isSelf first = false := by
        grind
      have eq : result = ⟨s.collector d, none, []⟩ := process_of_checkDeadLoop answers other (loop.mpr visited)
      grind
  · have new : (s.collector d).checkDeadLoop infos = false := by
      grind
    have eq := process_of_new answers new
    cases collected : answers.collected with
    | none =>
      grind
    | some user =>
      rw [collected] at eq
      have eq : result = (s.collector d).broadcastCollected
          (infos ++ [(s.collector d).reportInfo answers infos user]) := eq
      rw [eq]
      refine ⟨identity, .inr ⟨visited, rfl, user, ?_⟩⟩
      rw [← fixed d]
      rfl

end Path

/-! ### What a run keeps -/

section Sound

variable {start s s' : Collection D U} {actions : List (CollectAction D U)}

structure Sound (start s : Collection D U) : Prop where
  same : SameDetectors start s
  messages : ∀ msg ∈ s.inFlight, ∃ path, Carries start path msg
  reports : ∀ call ∈ s.called, ReportsCycle start call.1 call.2

omit [Fintype D] in
theorem Sound.process {d : D} {path : List D} {infos : List (ObDetectorInnerReportInfo U)}
    (sound : Sound start s) (registered : Registered start) (fixed : SameGraph start s)
    (leads : Leads start path infos d) (answers : CallbackAnswers U) :
    Sound start (s.process d answers infos) := by
  obtain ⟨identity, cases⟩ := leads.process_cases sound.same registered fixed answers
  refine ⟨fun e => ?_, fun msg member => ?_, fun call member => ?_⟩
  · by_cases eq : e = d
    · subst eq
      simpa [Collection.process, node] using identity
    · simpa [Collection.process, node, eq] using sound.same e
  · rcases mem_append.mp member with old | posted
    · exact sound.messages msg old
    rcases cases with ⟨quiet, -⟩ | ⟨new, -, user, eq⟩
    · rw [quiet] at posted
      cases posted
    rw [eq] at posted
    obtain ⟨dest, waits, rfl⟩ := mem_map.mp posted
    exact ⟨_, leads.carries sound.same new answers user waits⟩
  · rcases mem_append.mp member with now | old
    · obtain ⟨list, isCalled, rfl⟩ := Option.map_eq_some_iff.mp (Option.mem_toList.mp now)
      grind
    · exact sound.reports call old

omit [DecidableEq D] [Fintype D] in
theorem Sound.of_subset (sound : Sound start s) {inFlight : List (ObDeadLockCollectInfoMessage U)}
    (subset : inFlight ⊆ s.inFlight) : Sound start { s with inFlight } :=
  ⟨sound.same, fun msg member => sound.messages msg (subset member), sound.reports⟩

theorem Sound.step (sound : Sound start s) (registered : Registered start)
    (fixed : SameGraph start s) {action : CollectAction D U} (done : s.step action = some s') :
    Sound start s' := by
  have erased (index : Nat) : Sound start { s with inFlight := s.inFlight.eraseIdx index } :=
    sound.of_subset (eraseIdx_subset ..)
  cases acts_of_step done with
  | detect d answers => exact sound.process registered fixed (.nil start d) answers
  | @deliver d index msg answers found dest =>
    obtain ⟨path, carries⟩ := sound.messages msg (mem_of_getElem? found)
    rw [selfResource_of_identity (sound.same d)] at dest
    exact (erased index).process registered fixed (carries.leads dest) answers
  | unregistered => exact erased _
  | duplicate found =>
    refine sound.of_subset (cons_subset.mpr ⟨mem_of_getElem? found, ?_⟩)
    exact List.Subset.refl _
  | lose => exact erased _

structure Quiet (start : Collection D U) : Prop where
  inFlight : start.inFlight = []
  called : start.called = []

theorem Run.sound (run : Run start actions s) (registered : Registered start) (quiet : Quiet start) :
    Sound start s := by
  induction run with
  | nil => exact ⟨fun _ => rfl, by simp [quiet.inFlight], by simp [quiet.called]⟩
  | step _ fixed done ih => exact ih.step registered fixed done

end Sound

end Collection

end IMBridge.Deadlock
