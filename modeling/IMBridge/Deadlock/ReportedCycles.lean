import Mathlib.Algebra.Order.Ring.Nat
import Mathlib.Order.Lattice.Nat
import IMBridge.Deadlock.Collection

/-!
The messages that follow from a detection are finitely many, since each carries a longer simple path
than the one it follows from. If none is lost, the message of the detector with the lowest label on
a cycle comes back and is reported.
-/

namespace IMBridge.Deadlock.Collection

open IMBridge.Lib.Walk Fintype List CollectAction Bool ObLCLNode

variable {D U : Type} [DecidableEq D] [Fintype D]

/-! ### How many messages there can be -/

section Finite

/-- How many messages can follow from one that still can visit `k` detectors, itself included. -/
def floodBound (degree : Nat) : Nat → Nat
  | 0 => 1
  | k + 1 => 1 + degree * floodBound degree k

theorem floodBound_pos (degree k : Nat) : 1 ≤ floodBound degree k := by
  cases k with
  | zero => exact Nat.le_refl 1
  | succ k => exact Nat.le_add_right ..

theorem floodBound_mono (degree : Nat) {j k : Nat} (le : j ≤ k) : floodBound degree j ≤ floodBound degree k := by
  induction k generalizing j with
  | zero => rw [Nat.le_zero.mp le]
  | succ k ih =>
    cases j with
    | zero => exact floodBound_pos degree (k + 1)
    | succ j =>
      have less := Nat.mul_le_mul_left degree (ih (Nat.le_of_succ_le_succ le))
      exact Nat.add_le_add_left less 1

def degree (s : Collection D U) : Nat :=
  Finset.univ.sup (fun d => (s.node d).blocklistSnapshot.length)

variable {start s s' : Collection D U} {actions : List (CollectAction D U)}

def weight (start : Collection D U) (inFlight : List (ObDeadLockCollectInfoMessage U)) : Nat :=
  (inFlight.map (fun msg =>
    floodBound start.degree (card D - msg.collectedInfo.length))).sum

omit [DecidableEq D] in
theorem length_le_weight (start : Collection D U) (inFlight : List (ObDeadLockCollectInfoMessage U)) :
    inFlight.length ≤ start.weight inFlight := by
  induction inFlight with
  | nil => exact Nat.le_refl 0
  | cons msg rest ih =>
    have pos := floodBound_pos start.degree (card D - msg.collectedInfo.length)
    simp only [weight, map_cons, sum_cons, length_cons] at ih ⊢
    omega

omit [DecidableEq D] in
theorem weight_eraseIdx (start : Collection D U)
    {inFlight : List (ObDeadLockCollectInfoMessage U)} {index : Nat}
    {msg : ObDeadLockCollectInfoMessage U} (found : inFlight[index]? = some msg) :
    start.weight (inFlight.eraseIdx index) + floodBound start.degree (card D - msg.collectedInfo.length) =
        start.weight inFlight := by
  obtain ⟨inRange, rfl⟩ := List.getElem?_eq_some_iff.mp found
  have perm := List.getElem_cons_eraseIdx_perm inRange
  have sums := (perm.map (fun msg : ObDeadLockCollectInfoMessage U =>
    floodBound start.degree (card D - msg.collectedInfo.length))).sum_nat
  rw [map_cons, sum_cons] at sums
  rw [weight, weight, ← sums, Nat.add_comm]

omit [DecidableEq D] in
theorem weight_posted {d : D} {path : List D} {infos : List (ObDetectorInnerReportInfo U)}
    (sound : Sound start s) (registered : Registered start) (fixed : SameGraph start s)
    (leads : Leads start path infos d) (answers : CallbackAnswers U) :
    start.weight ((s.collector d).processCollectInfoMessage answers infos).posted + 1 ≤
      floodBound start.degree (card D - infos.length) := by
  obtain ⟨-, ⟨quiet, -⟩ | ⟨new, -, user, posted⟩⟩ := leads.process_cases sound.same registered fixed answers
  · rw [quiet]
    exact floodBound_pos ..
  · have length : infos.length = path.length := by
      simpa using congrArg List.length leads.described
    have room : path.length + 1 ≤ card D := by
      have nodup : (d :: path).Nodup := nodup_cons.mpr ⟨new, leads.nodup⟩
      simpa using nodup.length_le_card
    have left : card D - infos.length = card D - (infos.length + 1) + 1 := by omega
    have atMost : (start.node d).blocklistSnapshot.length ≤ start.degree :=
      Finset.le_sup (f := fun e => (start.node e).blocklistSnapshot.length) (Finset.mem_univ d)
    have weights := Nat.mul_le_mul_right (floodBound start.degree (card D - (infos.length + 1))) atMost
    rw [left, floodBound, posted, weight, map_map]
    simp only [Function.comp_def, length_append, length_singleton, map_const', sum_replicate_nat]
    omega

omit [DecidableEq D] in
theorem weight_append (first second : List (ObDeadLockCollectInfoMessage U)) :
    start.weight (first ++ second) = start.weight first + start.weight second := by
  simp [weight]

/-- An action that uses a message up leaves less to come; the others add at most a full flood. -/
theorem weight_step (sound : Sound start s) (registered : Registered start)
    (fixed : SameGraph start s) {action : CollectAction D U} (done : s.step action = some s') :
    start.weight s'.inFlight + (if action.consumes then 1 else 0) ≤ start.weight s.inFlight +
        if action.creates then floodBound start.degree (card D) else 0 := by
  have pos (msg : ObDeadLockCollectInfoMessage U) := floodBound_pos start.degree (card D - msg.collectedInfo.length)
  cases acts_of_step done with
  | detect d answers =>
    have posted := weight_posted sound registered fixed (.nil start d) answers
    rw [length_nil, Nat.sub_zero] at posted
    simp only [Collection.process, weight_append, consumes, creates, false_eq_true, if_false, if_true]
    omega
  | @deliver d index msg answers found dest =>
    obtain ⟨path, carries⟩ := sound.messages msg (mem_of_getElem? found)
    rw [selfResource_of_identity (sound.same d)] at dest
    have posted := weight_posted sound registered fixed (carries.leads dest) answers
    have erased := start.weight_eraseIdx found
    simp only [Collection.process, weight_append, consumes, creates, false_eq_true, if_false, if_true]
    omega
  | @unregistered index msg found nobody =>
    have erased := start.weight_eraseIdx found
    grind
  | @duplicate index msg found =>
    have less := floodBound_mono start.degree (Nat.sub_le (card D) msg.collectedInfo.length)
    simp only [consumes, creates, false_eq_true, if_false, if_true, weight, map_cons, sum_cons]
    omega
  | @lose index msg found =>
    have erased := start.weight_eraseIdx found
    grind

theorem Run.weight_le (run : Run start actions s) (registered : Registered start) (quiet : Quiet start) :
    start.weight s.inFlight + actions.countP consumes ≤ floodBound start.degree (card D) * actions.countP creates := by
  induction run with
  | nil => simp [quiet.inFlight, weight]
  | @step actions s s' action before fixed done ih =>
    have step := weight_step (before.sound registered quiet) registered fixed done
    rw [countP_cons, countP_cons, Nat.mul_add]
    grind

end Finite

/-! ### A cycle is found -/

section Found

variable {start s s' : Collection D U} {actions : List (CollectAction D U)} {x : D}
  {others : List D}

/-- The detector has reported something, or a message from it is on its way around the cycle: the
detectors `visited` have added their reports, and it goes to the next one. -/
def Circulates (start s : Collection D U) (x : D) (others : List D) : Prop :=
  (∃ list, (x, list) ∈ s.called) ∨
    ∃ visited after, visited ≠ [] ∧ x :: others = visited ++ after ∧ ∃ msg ∈ s.inFlight,
      msg.collectedInfo.map ObDetectorInnerReportInfo.signature = visited.map start.signature ∧
      msg.dest = (start.node ((after ++ [x]).head (by simp))).selfResource

/-- On the cycle `x` has the lowest label, and its priority is below the maximal one. -/
structure LowestOn (start : Collection D U) (x : D) (others : List D) : Prop where
  cycle : SimpleCycle start.WaitsFor x others
  lowest : ∀ other ∈ others, start.label x ≤ start.label other
  below : (start.label x).priority.less .maximal = true

omit [DecidableEq D] [Fintype D] in
theorem LowestOn.not_less (low : LowestOn start x others) {other : D} (member : other ∈ others) :
    (start.label other).priority.less (start.label x).priority = false := by
  have notLess : ¬ start.label other < start.label x := not_lt.mpr (low.lowest other member)
  rw [← ObLCLLabel.less_eq_true] at notLess
  rw [eq_false_iff]
  intro less
  exact notLess (by simp [ObLCLLabel.less, less])

variable {infos : List (ObDetectorInnerReportInfo U)} {answers : CallbackAnswers U} {d : D}

omit [DecidableEq D] [Fintype D] in
theorem LowestOn.ifSelfHasLowestPriority (low : LowestOn start x others)
    (described : infos.map ObDetectorInnerReportInfo.signature = (x :: others).map start.signature) :
    ifSelfHasLowestPriority infos = true := by
  obtain ⟨first, rest, rfl, firstEq, restEq⟩ := map_eq_cons_iff.mp described
  simp only [ObDetectorInnerReportInfo.signature, signature, Prod.mk.injEq] at firstEq
  rw [ifSelfHasLowestPriority_cons, firstEq.2.2]
  refine ⟨low.below, fun info isInfo => ?_⟩
  have member := mem_map_of_mem (f := ObDetectorInnerReportInfo.signature) isInfo
  rw [restEq] at member
  obtain ⟨other, isOther, describes⟩ := mem_map.mp member
  simp only [ObDetectorInnerReportInfo.signature, signature, Prod.mk.injEq] at describes
  rw [← describes.2.2]
  exact low.not_less isOther

theorem mem_eraseIdx_of_ne {α : Type} {list : List α} {index : Nat} {a b : α}
    (found : list[index]? = some a) (member : b ∈ list) (ne : b ≠ a) : b ∈ list.eraseIdx index := by
  obtain ⟨position, isAt⟩ := mem_iff_getElem?.mp member
  refine mem_eraseIdx_iff_getElem?.mpr ⟨position, ?_, isAt⟩
  grind

omit [DecidableEq D] [Fintype D] in
theorem Circulates.mono (circulates : Circulates start s x others) (called : s.called ⊆ s'.called)
    (inFlight : s.inFlight ⊆ s'.inFlight) : Circulates start s' x others := by
  rcases circulates with ⟨list, member⟩ | ⟨visited, after, some, split, msg, member, rest⟩
  · exact .inl ⟨list, called member⟩
  · exact .inr ⟨visited, after, some, split, msg, inFlight member, rest⟩

omit [DecidableEq D] [Fintype D] in
theorem posted_next (low : LowestOn start x others) (same : SameDetectors start s) (registered : Registered start)
    (fixed : SameGraph start s) (reports : answers.collected.isSome) {visited after : List D}
    (split : x :: others = visited ++ d :: after)
    (described : infos.map ObDetectorInnerReportInfo.signature = visited.map start.signature) :
    ∃ msg ∈ ((s.collector d).processCollectInfoMessage answers infos).posted,
      msg.collectedInfo.map ObDetectorInnerReportInfo.signature = (visited ++ [d]).map start.signature ∧
      msg.dest = (start.node ((after ++ [x]).head (by simp))).selfResource := by
  have nodup := low.cycle.2.1
  rw [split, nodup_middle, nodup_cons] at nodup
  have unvisited : d ∉ visited := fun member => nodup.1 (mem_append_left _ member)
  have new : (s.collector d).checkDeadLoop infos = false := by
    rw [eq_false_iff]
    exact fun loop => unvisited ((same.checkDeadLoop_iff registered described).mp loop)
  obtain ⟨user, collected⟩ := Option.isSome_iff_exists.mp reports
  rw [Collector.process_of_new answers new, collected]
  have waits : (start.node ((after ++ [x]).head (by simp))).selfResource ∈ (s.collector d).node.blocklistSnapshot := by
    have edge := low.cycle.edge_next split
    rwa [WaitsFor, ← fixed d] at edge
  refine ⟨_, mem_map_of_mem waits, ?_, rfl⟩
  rw [map_append, map_append, described, map_singleton, map_singleton, reportInfo_signature same]

omit [Fintype D] in
theorem mem_inFlight_process {msg : ObDeadLockCollectInfoMessage U}
    (posted : msg ∈ ((s.collector d).processCollectInfoMessage answers infos).posted) :
    msg ∈ (s.process d answers infos).inFlight :=
  mem_append_right _ posted

omit [Fintype D] in
theorem circulates_detect (low : LowestOn start x others) (same : SameDetectors start s)
    (registered : Registered start) (fixed : SameGraph start s) (reports : answers.collected.isSome) :
    Circulates start (s.process x answers []) x others := by
  obtain ⟨msg, posted, described, dest⟩ := posted_next low same registered fixed reports (nil_append (x :: others)).symm
      (map_nil (f := ObDetectorInnerReportInfo.signature))
  exact .inr ⟨[x], others, by simp, rfl, msg, mem_inFlight_process posted, described, dest⟩

omit [Fintype D] in
theorem circulates_deliver (low : LowestOn start x others) (same : SameDetectors start s)
    (registered : Registered start) (fixed : SameGraph start s) (reports : answers.collected.isSome)
    {visited after : List D} (some : visited ≠ []) (split : x :: others = visited ++ after)
    (described : infos.map ObDetectorInnerReportInfo.signature = visited.map start.signature)
    (next : d = (after ++ [x]).head (by simp)) : Circulates start (s.process d answers infos) x others := by
  cases after with
  | nil =>
    obtain rfl : visited = x :: others := by simpa using split.symm
    obtain rfl : d = x := by simpa using next
    have lowest := low.ifSelfHasLowestPriority described
    obtain ⟨first, rest, rfl, firstEq, -⟩ := map_eq_cons_iff.mp described
    have called := (Collector.process_of_isSelf answers rest ((same.isSelf_iff registered firstEq).mpr rfl)).2.2
    rw [if_pos lowest] at called
    exact .inl ⟨first :: rest, by simp [Collection.process, called]⟩
  | cons y after =>
    obtain rfl : d = y := by simpa using next
    obtain ⟨msg, posted, described, dest⟩ := posted_next low same registered fixed reports split described
    exact .inr ⟨visited ++ [d], after, by simp, by simp [split], msg, mem_inFlight_process posted, described, dest⟩

theorem Circulates.step (circulates : Circulates start s x others) (low : LowestOn start x others)
    (sound : Sound start s) (registered : Registered start) (fixed : SameGraph start s)
    {action : CollectAction D U} (reports : action.Reports) (kept : action.isLose = false)
    (done : s.step action = some s') : Circulates start s' x others := by
  cases acts_of_step done with
  | detect => exact circulates.mono (subset_append_right ..) (subset_append_left ..)
  | @deliver d index handled answers found dest =>
    rcases circulates with ⟨list, member⟩ | ⟨visited, after, some, split, msg, member, described, goes⟩
    · exact .inl ⟨list, mem_append_right _ member⟩
    by_cases eq : handled = msg
    · subst eq
      rw [goes, selfResource_of_identity (sound.same d)] at dest
      have next := registered.resource _ _ dest
      exact circulates_deliver (s := { s with inFlight := s.inFlight.eraseIdx index }) low
        sound.same registered fixed reports some split described next.symm
    · have remains := mem_eraseIdx_of_ne found member (Ne.symm eq)
      exact .inr ⟨visited, after, some, split, msg, mem_append_left _ remains, described, goes⟩
  | @unregistered index handled found nobody =>
    rcases circulates with ⟨list, member⟩ | ⟨visited, after, some, split, msg, member, described, goes⟩
    · exact .inl ⟨list, member⟩
    refine .inr ⟨visited, after, some, split, msg, ?_, described, goes⟩
    refine mem_eraseIdx_of_ne found member ?_
    rintro rfl
    have detector := selfResource_of_identity (sound.same ((after ++ [x]).head (by simp)))
    exact nobody _ (goes.trans detector.symm)
  | duplicate => exact circulates.mono (List.Subset.refl _) (subset_cons_self ..)
  | lose => cases kept

/-- In a run without losses a detection at `x` is reported in the end, or its message is still on the
way. -/
theorem Run.circulates (run : Run start actions s) (registered : Registered start) (quiet : Quiet start)
    (low : LowestOn start x others) (reports : ∀ action ∈ actions, action.Reports)
    (lossless : ∀ action ∈ actions, action.isLose = false) (detected : CollectAction.detect x answers ∈ actions) :
    Circulates start s x others := by
  induction run with
  | nil => cases detected
  | @step actions s s' action before fixed done ih =>
    have sound := before.sound registered quiet
    have now := reports action mem_cons_self
    rcases mem_cons.mp detected with rfl | earlier
    · cases done
      exact circulates_detect low sound.same registered fixed now
    have circulates := ih (fun other member => reports other (mem_cons_of_mem _ member))
      (fun other member => lossless other (mem_cons_of_mem _ member)) earlier
    exact circulates.step low sound registered fixed now (lossless action mem_cons_self) done

end Found

/-! ### Together -/

section Exact

variable {start s : Collection D U} {actions : List (CollectAction D U)}

structure CollectionExact (start : Collection D U) (actions : List (CollectAction D U))
    (s : Collection D U) : Prop where
  genuine : ∀ x infos, (x, infos) ∈ s.called → start.ReportsCycle x infos
  duplicateFree : ∀ msg ∈ s.inFlight,
    (msg.collectedInfo.map (fun info => (info.addr, info.detectorId))).Nodup
  finite : s.inFlight.length + actions.countP consumes ≤
    floodBound start.degree (card D) * actions.countP creates
  found : (∀ action ∈ actions, action.Reports) → (∀ action ∈ actions, action.isLose = false) →
    s.inFlight = [] → ∀ x y answers, CollectAction.detect x answers ∈ actions →
    Relation.ReflTransGen (fun a b => start.WaitsFor a b ∧ start.label x ≤ start.label b) x y →
    start.WaitsFor y x → (start.label x).priority.less .maximal = true →
    ∃ infos, (x, infos) ∈ s.called

omit [DecidableEq D] [Fintype D] in
theorem Carries.nodup_reports {path : List D} {msg : ObDeadLockCollectInfoMessage U}
    (carries : Carries start path msg) (registered : Registered start) :
    (msg.collectedInfo.map (fun info => (info.addr, info.detectorId))).Nodup := by
  have eq : msg.collectedInfo.map (fun info => (info.addr, info.detectorId)) =
      path.map (fun d => ((start.node d).selfAddr, (start.label d).id)) := by
    have pairs := congrArg (map (fun key => (key.1, key.2.1))) carries.described
    simpa [ObDetectorInnerReportInfo.signature, signature, Function.comp_def] using pairs
  rw [eq]
  refine carries.nodup.map ?_
  intro d e same
  obtain ⟨addr, id⟩ := Prod.mk.inj same
  exact registered.distinct d e addr id

/-- What is reported is a cycle with the reporting detector as one of lowest priority, messages are
free of duplicates and finitely many, and if all are delivered the cycle is reported. -/
theorem run_exact (run : Run start actions s) (registered : Registered start) (quiet : Quiet start) :
    CollectionExact start actions s where
  genuine x infos called := (run.sound registered quiet).reports (x, infos) called
  duplicateFree msg member := by
    obtain ⟨path, carries⟩ := (run.sound registered quiet).messages msg member
    exact carries.nodup_reports registered
  finite := by
    have bound := run.weight_le registered quiet
    have length := start.length_le_weight s.inFlight
    omega
  found := by
    intro reports lossless empty x y answers detected walk back below
    obtain ⟨others, cycle, lowest⟩ := exists_simpleCycle walk back
    have circulates := run.circulates registered quiet ⟨cycle, lowest, below⟩ reports lossless detected
    rcases circulates with called | ⟨_, _, _, _, msg, member, _⟩
    · exact called
    · rw [empty] at member
      cases member

/-! Two detectors on one server that wait for each other. -/

def twoWaiting : Collection (Fin 2) Unit where
  collector d :=
    { node :=
        { create 1 (d.val + 1) d.val ⟨0, d.val⟩ 0 with
          blockList := [⟨1, 2 - d.val⟩] }
      createdTime := 0
      allowDetectTime := 0
      eventHash := 7
      autoActivateWhenDetected := true }
  inFlight := []
  called := []

def reporting : CallbackAnswers Unit := ⟨5, some (), true⟩

local instance neZero_two : NeZero 2 := inferInstance

def twoActions : List (CollectAction (Fin 2) Unit) :=
  [.deliver 0 0 reporting, .deliver 1 0 reporting, .detect 0 reporting]

theorem twoWaiting_reported :
    ∃ s, CollectionExact twoWaiting twoActions s ∧ ∃ infos, ((0 : Fin 2), infos) ∈ s.called := by
  have detected : Run twoWaiting [.detect 0 reporting] _ := .step .nil (by decide) rfl
  have forwarded : Run twoWaiting [.deliver 1 0 reporting, .detect 0 reporting] _ :=
    .step detected (by decide) rfl
  have returned : Run twoWaiting twoActions _ := .step forwarded (by decide) rfl
  have registered : Registered twoWaiting := ⟨by decide, by decide⟩
  have exact' := run_exact returned registered ⟨rfl, rfl⟩
  refine ⟨_, exact', exact'.found ?_ ?_ rfl 0 1 reporting ?_ ?_ ?_ ?_⟩
  · simp [twoActions, Reports, reporting]
  · simp [twoActions, isLose]
  · simp [twoActions]
  · exact .single (by decide)
  · decide
  · decide

end Exact

end IMBridge.Deadlock.Collection
