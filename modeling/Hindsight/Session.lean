import Hindsight.Timeline.Cursor
import Hindsight.Timeline.Recording

/-!
# Sessions

A session runs programs and moves through the last run.  It is empty at first, after
`Session.clear` and after every run that fails; otherwise it holds a cursor into the
timeline of the last run.  An empty session shows step 0 of 0 and has nothing to read.

## Main definitions

* `Session σ` — sessions over an engine with states `σ`.
* `Session.run` — runs a program and places the cursor at its start.
* `Session.next`, `Session.prev`, `Session.goTo`, `Session.toStart`, `Session.toEnd` — moves.
* `Session.state`, `Session.previousState`, `Session.delta?` — reads.
-/

namespace Hindsight

/-- A session over an engine with states `σ`. -/
structure Session (σ : Type) where
  /-- The engine's state. -/
  engine : σ
  config : Config := {}
  /-- The name under which programs are assembled. -/
  moduleName : String := "main"
  /-- The place in the last run. -/
  cursor : Option Cursor := none
  deriving DecidableEq

namespace Session

variable {σ φ : Type}

/-- Forgets the last run. -/
def clear (s : Session σ) : Session σ := { s with cursor := none }

/-- Runs a program.  The last run is forgotten whether or not this one succeeds. -/
def run [ToString φ] (tools : Toolchain σ φ) (cancel : CancelSignal σ) (source : String)
    (s : Session σ) : Except RunError Timeline × Session σ :=
  let (result, engine) := runProgram tools s.config cancel s.moduleName source s.engine
  (result, { s with engine, cursor := result.toOption.map Cursor.start })

/-- The timeline of the last run. -/
def timeline? (s : Session σ) : Option Timeline := s.cursor.map (·.timeline)

/-- The current step. -/
def currentStep (s : Session σ) : Nat := s.cursor.elim 0 (·.current)

/-- The number of steps of the last run. -/
def totalSteps (s : Session σ) : Nat := s.cursor.elim 0 (·.totalSteps)

/-- Whether there is a later step. -/
def canStepForward (s : Session σ) : Bool := s.cursor.any (·.canStepForward)

/-- Whether there is an earlier step. -/
def canStepBackward (s : Session σ) : Bool := s.cursor.any (·.canStepBackward)

/-! ### Moves -/

/-- Moves one step on and says whether there was one. -/
def next (s : Session σ) : Bool × Session σ :=
  match s.cursor with
  | none => (false, s)
  | some c =>
    let (moved, c) := c.next
    (moved, { s with cursor := some c })

/-- Moves one step back and says whether there was one. -/
def prev (s : Session σ) : Bool × Session σ :=
  match s.cursor with
  | none => (false, s)
  | some c =>
    let (moved, c) := c.prev
    (moved, { s with cursor := some c })

/-- Moves to a step.  A step that does not exist is an error and no move. -/
def goTo (step : Nat) (s : Session σ) : Except StepError Unit × Session σ :=
  match s.cursor with
  | none => (.error .noTimeline, s)
  | some c =>
    let (result, c) := c.goTo step
    (result, { s with cursor := some c })

/-- Moves to step 0. -/
def toStart (s : Session σ) : Session σ := { s with cursor := s.cursor.map (·.toStart) }

/-- Moves to the last step. -/
def toEnd (s : Session σ) : Session σ := { s with cursor := s.cursor.map (·.toEnd) }

/-! ### Reads -/

/-- The machine at the current step. -/
def state (s : Session σ) : Option Machine × Session σ :=
  match s.cursor with
  | none => (none, s)
  | some c =>
    let (machine, c) := c.state
    (some machine, { s with cursor := some c })

/-- The machine one step before the current one. -/
def previousState (s : Session σ) : Option Machine := s.cursor.bind (·.previousState)

/-- The delta that leads into the current step. -/
def delta? (s : Session σ) : Option Delta := s.cursor.bind (·.delta?)

end Session

end Hindsight
