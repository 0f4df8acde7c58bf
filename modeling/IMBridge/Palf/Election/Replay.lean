import IMBridge.Palf.Election.System

/-!
Runs that can be computed: on integer time, with all clocks showing it and the servers taking turns.
-/

namespace IMBridge.Palf.Election

variable {n : Nat} {interval : Int}

/-- What a server does next: it takes up a message that `sender` sent to it, counted from the latest
one, or one of its own tasks. -/
inductive Turn (n : Nat) where
  | deliver (self sender : Fin n) (index : Nat)
  | devote (self : Fin n)
  | closeWindow (self : Fin n)

namespace Turn

def server : Turn n → Fin n
  | deliver self _ _ => self
  | devote self => self
  | closeWindow self => self

def event (system : System Int n) : Turn n → Option (Event n)
  | deliver self sender index =>
    ((system.server sender).sent.filter (fun sent => sent.receiver = self))[index]?.map
      (fun sent => .message sent.message)
  | devote _ => some .devoteTask
  | closeWindow _ => some .timeWindowTask

end Turn

def Surroundings.calm : Surroundings where
  preparedRecently := false
  rescheduled := true
  windowElapsed := true
  requestHigher := false
  higherThanLeader := false
  higherThanCached := false
  cacheExpired := false
  fatalFailure := false

instance System.decidableReady (system : System Int n) (self : Fin n) (time : Int) :
    (event : Event n) → Decidable (system.Ready self time event)
  | .message msg => inferInstanceAs (Decidable (msg.isValid = true ∧ ∃ sender, ∃ sent ∈ (system.server sender).sent,
      sent.receiver = self ∧ sent.message = msg ∧ sent.instant ≤ time))
  | .renewLeaseTask => isTrue trivial
  | .devoteTask => isTrue trivial
  | .timeWindowTask => isTrue trivial
  | .changeLeaderTo _ => isTrue trivial

namespace System

def replay (interval time : Int) (system : System Int n) : List (Turn n) → Option (System Int n)
  | [] => some system
  | turn :: turns =>
    match turn.event system with
    | none => none
    | some event =>
      if system.finished turn.server ≤ time ∧ 0 ≤ time ∧ system.Ready turn.server time event then
        replay interval (time + lastMoment)
          { server := Function.update system.server turn.server
              ((system.server turn.server).handle .calm interval (watch 0 (fun k => time + k)) event)
            finished := Function.update system.finished turn.server (time + lastMoment) } turns
      else none

theorem Reached.replay {setup : Setup n} {turns : List (Turn n)} {system last : System Int n}
    {time : Int} (reached : Reached (fun _ => 0) interval setup system)
    (result : system.replay interval time turns = some last) :
    Reached (fun _ => 0) interval setup last := by
  induction turns generalizing system time with
  | nil =>
    cases result
    exact reached
  | cons turn turns ih =>
    simp only [System.replay] at result
    split at result
    · cases result
    rename_i event _
    split at result
    · rename_i allowed
      obtain ⟨after, nonneg, ready⟩ := allowed
      refine ih (reached.step ?_) result
      have forward : StrictMono (fun k : Nat => time + (k : Int)) := by
        intro k l less
        dsimp only
        omega
      exact .handle turn.server event .calm _ forward (by simpa using after) (by simpa using nonneg)
        (by simpa using ready)
    · cases result

def atZero (setup : Setup n) : System Int n where
  server self := .initial self (setup.membershipVersion self) (setup.restartCounter self)
    (setup.proposerBallot self) (setup.acceptorBallot self) (setup.windowBallot self)
  finished _ := 0

theorem exists_reached_of_replay {setup : Setup n} {turns : List (Turn n)}
    {test : System Int n → Bool} (passes : ((atZero setup).replay interval 0 turns).any test = true) :
    ∃ system, Reached (fun _ => 0) interval setup system ∧ test system = true := by
  obtain ⟨system, result, passed⟩ := (Option.any_eq_true ..).mp passes
  exact ⟨system, (Reached.start _).replay result, passed⟩

end System

end IMBridge.Palf.Election
