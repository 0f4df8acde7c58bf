import IMBridge.PythonUdf.Adaptation
import Mathlib.Algebra.Order.Ring.Pow
import Mathlib.Data.Rat.Floor

/-!
Whether the adaptation settles. An improvement uses up one of the eleven rounds or raises the
reference throughput by a tenth. A sharp slowdown lowers the reference by up to a quarter and uses
up no round, so if they keep coming the prediction size grows without bound.
-/

namespace IMBridge.PythonUdf

structure Observation where
  evalSize : Nat
  tps : Rat

namespace UdfInfo

section

variable (info : UdfInfo)

def observe (obs : Observation) : UdfInfo :=
  info.modifyDesirable obs.tps obs.evalSize

def observeAll (observations : List Observation) : UdfInfo :=
  observations.foldl observe info

theorem observeAll_cons (obs : Observation) (rest : List Observation) :
    info.observeAll (obs :: rest) = (info.observe obs).observeAll rest :=
  rfl

theorem observeAll_append (before after : List Observation) :
    info.observeAll (before ++ after) = (info.observeAll before).observeAll after :=
  List.foldl_append ..

instance (info : UdfInfo) (evalSize : Nat) : Decidable (info.Ignores evalSize) :=
  inferInstanceAs (Decidable (_ ∨ _))

def Slows (obs : Observation) : Prop :=
  info.tpsS ≠ 0 ∧ ¬ info.Ignores obs.evalSize ∧ obs.tps ≤ info.tpsS ∧
    obs.tps ≤ (1 - info.lambda) * (info.observe obs).tpsS

end

instance (info : UdfInfo) (obs : Observation) : Decidable (info.Slows obs) :=
  inferInstanceAs (Decidable (_ ∧ _))

def slowdowns : UdfInfo → List Observation → Nat
  | _, [] => 0
  | info, obs :: rest =>
    (if info.Slows obs then 1 else 0) + slowdowns (info.observe obs) rest

/-- After its first observation and then `small` improvements of less than a tenth, `big` other
ones and `counted` slowdowns that used up a round. -/
def steered (small big counted : Nat) (tpsS : Rat) : UdfInfo :=
  ⟨512 + 256 * (small + big), tpsS, 1 / 10, 1 / 4, small + counted, 10, 256⟩

section Cases

variable {small big counted : Nat} {tpsS : Rat} (started : tpsS ≠ 0) {obs : Observation}
  (taken : ¬ (steered small big counted tpsS).Ignores obs.evalSize)

include started taken

theorem steered_faster (faster : tpsS < obs.tps) : (steered small big counted tpsS).observe obs =
      ⟨512 + 256 * (small + big) + 256, obs.tps, 1 / 10, 1 / 4,
        if obs.tps < (1 + 1 / 10) * tpsS then small + counted + 1 else small + counted,
        10, 256⟩ :=
  modifyDesirable_faster started taken faster

theorem steered_small (faster : tpsS < obs.tps) (little : obs.tps < (1 + 1 / 10) * tpsS) :
    (steered small big counted tpsS).observe obs = steered (small + 1) big counted obs.tps := by
  rw [steered_faster started taken faster, if_pos little, steered, UdfInfo.mk.injEq]
  grind

theorem steered_big (faster : tpsS < obs.tps) (much : (1 + 1 / 10) * tpsS ≤ obs.tps) :
    (steered small big counted tpsS).observe obs = steered small (big + 1) counted obs.tps := by
  rw [steered_faster started taken faster, if_neg (not_lt.mpr much), steered, UdfInfo.mk.injEq]
  grind

variable (slower : obs.tps ≤ tpsS)
include slower

theorem steered_lowered : (steered small big counted tpsS).observe obs =
      ⟨512 + 256 * (small + big), (1 - 1 / 4) * tpsS + 1 / 4 * obs.tps, 1 / 10, 1 / 4,
        if (1 - 1 / 10) * ((1 - 1 / 4) * tpsS + 1 / 4 * obs.tps) < obs.tps then
          small + counted + 1
        else small + counted, 10, 256⟩ :=
  modifyDesirable_slower started taken slower

theorem steered_slows_iff : (steered small big counted tpsS).Slows obs ↔ obs.tps ≤
      (1 - 1 / 10) * ((1 - 1 / 4) * tpsS + 1 / 4 * obs.tps) := by
  rw [Slows, steered_lowered started taken slower]
  exact ⟨fun slows => slows.2.2.2, fun sharp => ⟨started, taken, slower, sharp⟩⟩

theorem steered_slower : (steered small big counted tpsS).observe obs = steered small big
        (if (steered small big counted tpsS).Slows obs then counted else counted + 1)
        ((1 - 1 / 4) * tpsS + 1 / 4 * obs.tps) := by
  have slows := steered_slows_iff started taken slower
  rw [steered_lowered started taken slower]
  by_cases sharp : (steered small big counted tpsS).Slows obs
  · rw [if_pos sharp, if_neg (not_lt.mpr (slows.mp sharp)), steered]
  · rw [if_neg sharp, if_pos (not_le.mp (mt slows.mpr sharp)), steered, Nat.cast_succ, Int.add_assoc]

end Cases

/-- The reference throughput has not fallen further below the first one than the slowdowns
explain. -/
structure Steered (M first : Rat) (slow : Nat) (small big counted : Nat) (tpsS : Rat) : Prop where
  positive : 0 < tpsS
  bounded : tpsS ≤ M
  rounds : small + counted ≤ 11
  reference : first * (11 / 10) ^ big * (3 / 4) ^ (counted + slow) ≤ tpsS

variable {M first tpsS : Rat} {slow small big counted : Nat}

section

variable (steered : Steered M first slow small big counted tpsS)
include steered

theorem Steered.slower {tps : Rat} {slow' counted' : Nat}
    (pos : 0 < tps) (slower : tps ≤ tpsS) (one : counted' + slow' = counted + slow + 1)
    (rounds : small + counted' ≤ 11) : Steered M first slow' small big counted' ((1 - 1 / 4) * tpsS + 1 / 4 * tps) where
  positive := by
    linarith
  bounded := by
    have := steered.bounded
    linarith
  rounds := rounds
  reference := by
    have reference := steered.reference
    rw [one, pow_succ]
    linarith

/-- An observation is ignored, or moves exactly one of the counts. -/
theorem Steered.observe (obs : Observation) (pos : 0 < obs.tps) (bounded : obs.tps ≤ M) :
    ∃ (small' big' counted' : Nat) (tpsS' : Rat), (UdfInfo.steered small big counted tpsS).observe obs =
        UdfInfo.steered small' big' counted' tpsS' ∧
      Steered M first (slow + if (UdfInfo.steered small big counted tpsS).Slows obs then 1 else 0)
        small' big' counted' tpsS' := by
  have started : tpsS ≠ 0 := steered.positive.ne'
  by_cases ignored : (UdfInfo.steered small big counted tpsS).Ignores obs.evalSize
  · refine ⟨small, big, counted, tpsS, modifyDesirable_ignored started ignored _, ?_⟩
    rwa [if_neg fun slows => slows.2.1 ignored]
  have room : small + counted ≤ 10 := by
    have inTime := (not_or.mp ignored).1
    dsimp only [UdfInfo.steered] at inTime
    omega
  rcases lt_or_ge tpsS obs.tps with faster | slower
  · rw [if_neg fun slows => absurd slows.2.2.1 (not_le.mpr faster)]
    rcases lt_or_ge obs.tps ((1 + 1 / 10) * tpsS) with little | much
    · exact ⟨_, _, _, _, steered_small started ignored faster little, pos, bounded, by omega,
        steered.reference.trans faster.le⟩
    refine ⟨_, _, _, _, steered_big started ignored faster much, pos, bounded, steered.rounds, ?_⟩
    have reference := steered.reference
    calc first * (11 / 10) ^ (big + 1) * (3 / 4) ^ (counted + slow)
        = (1 + 1 / 10) * (first * (11 / 10) ^ big * (3 / 4) ^ (counted + slow)) := by ring
      _ ≤ (1 + 1 / 10) * tpsS := by linarith
      _ ≤ obs.tps := much
  · refine ⟨_, _, _, _, steered_slower started ignored slower, ?_⟩
    split
    · exact steered.slower pos slower (by omega) steered.rounds
    · exact steered.slower pos slower (by omega) (by omega)

theorem Steered.observeAll {observations : List Observation} (range : ∀ obs ∈ observations, 0 < obs.tps ∧ obs.tps ≤ M) :
    ∃ (small' big' counted' : Nat) (tpsS' : Rat), (UdfInfo.steered small big counted tpsS).observeAll observations =
        UdfInfo.steered small' big' counted' tpsS' ∧
      Steered M first (slow + slowdowns (UdfInfo.steered small big counted tpsS) observations)
        small' big' counted' tpsS' := by
  induction observations generalizing slow small big counted tpsS with
  | nil => exact ⟨small, big, counted, tpsS, rfl, steered⟩
  | cons obs rest ih =>
    obtain ⟨here, later⟩ := List.forall_mem_cons.mp range
    obtain ⟨small₁, big₁, counted₁, tpsS₁, step, next⟩ := steered.observe obs here.1 here.2
    obtain ⟨small₂, big₂, counted₂, tpsS₂, run, last⟩ := ih next later
    refine ⟨small₂, big₂, counted₂, tpsS₂, ?_, ?_⟩
    · rw [observeAll_cons, step, run]
    · rwa [slowdowns, step, ← Nat.add_assoc]

/-- The size that a throughput of at most `M` can lead to, after a first observation of `first` and
with `slow` sharp slowdowns. -/
def settledSize (M first : Rat) (slow : Nat) : Int :=
  256 * (13 + ⌈10 * M / (first * (3 / 4) ^ (11 + slow))⌉₊)

theorem Steered.predictSize_le (pos : 0 < first) :
    (UdfInfo.steered small big counted tpsS).predictSize ≤ settledSize M first slow := by
  have base : 0 < first * (3 / 4 : Rat) ^ (11 + slow) := by positivity
  have fewer : (3 / 4 : Rat) ^ (11 + slow) ≤ (3 / 4) ^ (counted + slow) :=
    pow_le_pow_of_le_one (by norm_num) (by norm_num) (by have := steered.rounds; omega)
  -- Bernoulli's inequality bounds the number of big improvements.
  have growth : (big : Rat) * (1 / 10) * (first * (3 / 4) ^ (11 + slow)) ≤ M := by
    calc (big : Rat) * (1 / 10) * (first * (3 / 4) ^ (11 + slow))
        ≤ (1 + 1 / 10) ^ big * (first * (3 / 4) ^ (11 + slow)) := by
          have bernoulli := one_add_mul_le_pow (show (-2 : Rat) ≤ 1 / 10 by norm_num) big
          exact mul_le_mul_of_nonneg_right (by linarith) base.le
      _ ≤ (1 + 1 / 10) ^ big * (first * (3 / 4) ^ (counted + slow)) := by gcongr
      _ = first * (11 / 10) ^ big * (3 / 4) ^ (counted + slow) := by
          rw [show (1 + 1 / 10 : Rat) = 11 / 10 by norm_num]
          ring
      _ ≤ tpsS := steered.reference
      _ ≤ M := steered.bounded
  have many : (big : Rat) ≤ 10 * M / (first * (3 / 4) ^ (11 + slow)) := by
    rw [le_div_iff₀ base]
    linarith
  have ceiling : big ≤ ⌈10 * M / (first * (3 / 4 : Rat) ^ (11 + slow))⌉₊ := by
    exact_mod_cast many.trans (Nat.le_ceil _)
  have rounds := steered.rounds
  rw [UdfInfo.steered, settledSize]
  dsimp only
  omega

end

theorem predictSize_le_observeAll {info : UdfInfo} (growing : 0 ≤ info.delta) (observations : List Observation) :
    info.predictSize ≤ (info.observeAll observations).predictSize := by
  induction observations generalizing info with
  | nil => exact Int.le_refl _
  | cons obs rest ih =>
    have step := info.predictSize_le_modifyDesirable obs.tps obs.evalSize growing
    have still : 0 ≤ (info.observe obs).delta := by
      rwa [show (info.observe obs).delta = info.delta from info.modifyDesirable_delta _ _]
    exact step.trans (ih still)

theorem observeAll_delta (info : UdfInfo) (observations : List Observation) :
    (info.observeAll observations).delta = info.delta := by
  induction observations generalizing info with
  | nil => rfl
  | cons obs rest ih =>
    exact (ih (info.observe obs)).trans (info.modifyDesirable_delta _ _)

/-- The prediction size never decreases, and it stays below a bound that depends on the greatest
throughput, on the first one and on the number of sharp slowdowns. -/
theorem predictSize_settles {M : Rat} {first : Observation} {rest : List Observation}
    (range : ∀ observation ∈ first :: rest, 0 < observation.tps ∧ observation.tps ≤ M) :
    (∀ before after, first :: rest = before ++ after → (fromRawExpr.observeAll before).predictSize ≤
        (fromRawExpr.observeAll (first :: rest)).predictSize) ∧
    (fromRawExpr.observeAll (first :: rest)).predictSize ≤
      settledSize M first.tps (fromRawExpr.slowdowns (first :: rest)) := by
  constructor
  · intro before after split
    rw [split, observeAll_append]
    refine predictSize_le_observeAll ?_ after
    rw [observeAll_delta]
    decide
  · obtain ⟨⟨positive, bounded⟩, later⟩ := List.forall_mem_cons.mp range
    have begun : fromRawExpr.observe first = steered 0 0 0 first.tps := modifyDesirable_first rfl _ _
    have start : Steered M first.tps 0 0 0 0 first.tps := ⟨positive, bounded, by decide, by simp⟩
    obtain ⟨small, big, counted, tpsS, run, last⟩ := start.observeAll later
    have none : ¬ fromRawExpr.Slows first := fun slows => slows.1 rfl
    rw [observeAll_cons, slowdowns, if_neg none, begun, run]
    exact last.predictSize_le positive

theorem predictSize_settles_two :
    (fromRawExpr.observeAll [⟨256, 1⟩, ⟨512, 1 / 5⟩]).predictSize ≤ settledSize 1 1 1 := by
  have slow : fromRawExpr.slowdowns [⟨256, 1⟩, ⟨512, 1 / 5⟩] = 1 := by decide +kernel
  have range : ∀ obs ∈ [⟨256, 1⟩, (⟨512, 1 / 5⟩ : Observation)],
      0 < obs.tps ∧ obs.tps ≤ 1 := by norm_num
  have settles := (predictSize_settles range).2
  rwa [slow] at settles

def swinging : Nat → List Observation
  | 0 => [⟨256, 1⟩]
  | n + 1 => swinging n ++ [⟨512 + 256 * n, 1 / 5⟩, ⟨512 + 256 * n, 1⟩]

variable (n : Nat)

theorem steered_takes (tpsS : Rat) : ¬ (steered 0 n 0 tpsS).Ignores (512 + 256 * n) := by
  rintro (late | other)
  · exact absurd late (show ¬ (10 : Int) < (0 : Nat) + (0 : Nat) by decide)
  · exact other (by simp [steered])

theorem observeAll_swinging : fromRawExpr.observeAll (swinging n) = steered 0 n 0 1 := by
  induction n with
  | zero => rfl
  | succ n ih =>
    have slower : (steered 0 n 0 1).observe ⟨512 + 256 * n, 1 / 5⟩ = steered 0 n 0 (4 / 5) := by
      have less : (1 / 5 : Rat) ≤ 1 := by norm_num
      rw [steered_slower one_ne_zero (steered_takes n 1) less,
        if_pos ((steered_slows_iff one_ne_zero (steered_takes n 1) less).mpr (by norm_num))]
      norm_num
    have faster : (steered 0 n 0 (4 / 5)).observe ⟨512 + 256 * n, 1⟩ = steered 0 (n + 1) 0 1 :=
      steered_big (by norm_num) (steered_takes n _) (by norm_num) (by norm_num)
    rw [swinging, observeAll_append, ih, observeAll_cons, slower, observeAll_cons, faster]
    rfl

def Whole : UdfInfo → List Observation → Prop
  | _, [] => True
  | info, obs :: rest =>
    (obs.evalSize : Int) = info.predictSize ∧ (info.observe obs).Whole rest

theorem whole_append {info : UdfInfo} {before after : List Observation} (first : info.Whole before)
    (second : (info.observeAll before).Whole after) : info.Whole (before ++ after) := by
  induction before generalizing info with
  | nil => exact second
  | cons obs rest ih => exact ⟨first.1, ih first.2 second⟩

theorem whole_swinging : fromRawExpr.Whole (swinging n) := by
  induction n with
  | zero => exact ⟨rfl, trivial⟩
  | succ n ih =>
    have size : ((512 + 256 * n : Nat) : Int) = (steered 0 n 0 1).predictSize := by simp [steered]
    have same : ((steered 0 n 0 1).observe ⟨512 + 256 * n, 1 / 5⟩).predictSize = (steered 0 n 0 1).predictSize := by
      rw [steered_slower one_ne_zero (steered_takes n 1) (show (1 / 5 : Rat) ≤ 1 by norm_num)]
      rfl
    refine whole_append ih ?_
    rw [observeAll_swinging]
    exact ⟨size, size.trans same.symm, trivial⟩

theorem exists_swinging_eq : ∃ rest, swinging n = ⟨256, 1⟩ :: rest := by
  induction n with
  | zero => exact ⟨[], rfl⟩
  | succ n ih =>
    obtain ⟨rest, head⟩ := ih
    rw [swinging, head, List.cons_append]
    exact ⟨_, rfl⟩

theorem swinging_range : ∀ obs ∈ swinging n, 0 < obs.tps ∧ obs.tps ≤ 1 := by
  induction n with
  | zero => simp [swinging]
  | succ n ih =>
    intro obs member
    rcases List.mem_append.mp member with early | late
    · exact ih obs early
    · rcases List.mem_pair.mp late with rfl | rfl <;> norm_num

/-- Throughputs of at most 1 and a first one of 1 do not bound the prediction size. -/
theorem swinging_not_settled : ¬ ∃ bound : Int, ∀ rest : List Observation,
      (∀ observation ∈ ⟨256, 1⟩ :: rest, 0 < observation.tps ∧ observation.tps ≤ 1) →
      fromRawExpr.Whole (⟨256, 1⟩ :: rest) →
      (fromRawExpr.observeAll (⟨256, 1⟩ :: rest)).predictSize ≤ bound := by
  rintro ⟨bound, settles⟩
  obtain ⟨rest, same⟩ := exists_swinging_eq bound.toNat
  have below := settles rest (same ▸ swinging_range _) (same ▸ whole_swinging _)
  rw [← same, observeAll_swinging, steered] at below
  dsimp only at below
  omega

end UdfInfo

end IMBridge.PythonUdf
