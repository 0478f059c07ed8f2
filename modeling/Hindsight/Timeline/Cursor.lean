import Hindsight.Timeline.Basic

/-!
# Cursors

A cursor is a place in a timeline.  It remembers the last machine it reconstructed, so
that reading one step again costs nothing and reading a later one continues from there.
The memory is not observable: `Cursor.state` gives the machine at the current step,
whatever was read before.

## Main definitions

* `Cursor`, `Cursor.start` — a place, and the start of a timeline.
* `Cursor.goTo`, `Cursor.next`, `Cursor.prev`, `Cursor.toStart`, `Cursor.toEnd` — moves.
* `Cursor.state`, `Cursor.previousState`, `Cursor.delta?` — reads.
-/

namespace Hindsight

/-- A reconstructed machine and its step. -/
structure Memo where
  step : Nat
  machine : Machine
  deriving DecidableEq

/-- A place in a timeline, with the machine reconstructed last. -/
structure Cursor where
  timeline : Timeline
  current : Nat
  memo : Memo
  deriving DecidableEq

namespace Cursor

/-- The cursor at the start of a timeline. -/
def start (t : Timeline) : Cursor := ⟨t, 0, ⟨0, t.initial⟩⟩

/-- The number of steps of the timeline. -/
def totalSteps (c : Cursor) : Nat := c.timeline.totalSteps

/-- Whether there is a later step. -/
def canStepForward (c : Cursor) : Bool := c.current < c.totalSteps

/-- Whether there is an earlier step. -/
def canStepBackward (c : Cursor) : Bool := 0 < c.current

/-! ### Moves -/

/-- Moves to a step.  A step that does not exist is an error and no move. -/
def goTo (c : Cursor) (step : Nat) : Except StepError Unit × Cursor :=
  if step ≤ c.totalSteps then (.ok (), { c with current := step })
  else (.error (c.timeline.outOfRange step), c)

/-- Moves one step on and says whether there was one. -/
def next (c : Cursor) : Bool × Cursor :=
  if c.canStepForward then (true, { c with current := c.current + 1 }) else (false, c)

/-- Moves one step back and says whether there was one. -/
def prev (c : Cursor) : Bool × Cursor :=
  if c.canStepBackward then (true, { c with current := c.current - 1 }) else (false, c)

/-- Moves to step 0. -/
def toStart (c : Cursor) : Cursor := { c with current := 0 }

/-- Moves to the last step. -/
def toEnd (c : Cursor) : Cursor := { c with current := c.totalSteps }

/-! ### Reads -/

/-- Brings the remembered machine to the current step: forward from where it is, or else from the
start in its own storage. -/
def refresh (c : Cursor) : Cursor :=
  if c.memo.step = c.current then c
  else
    -- Taken apart so that the remembered machine has no second owner.
    let ⟨timeline, current, ⟨step, machine⟩⟩ := c
    let machine :=
      if step < current then timeline.continueTo step current machine
      else timeline.continueTo 0 current (machine.copyFrom timeline.initial)
    ⟨timeline, current, ⟨current, machine⟩⟩

/-- The machine at the current step. -/
def state (c : Cursor) : Machine × Cursor :=
  let c := c.refresh
  (c.memo.machine, c)

/-- The machine one step before the current one; `none` at step 0. -/
def previousState (c : Cursor) : Option Machine :=
  match c.current with
  | 0 => none
  | k + 1 => if c.memo.step = k then some c.memo.machine else (c.timeline.stateAt k).toOption

/-- The delta that leads into the current step; `none` at step 0. -/
def delta? (c : Cursor) : Option Delta := c.timeline.deltaInto? c.current

end Cursor

end Hindsight
