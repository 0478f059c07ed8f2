import Hindsight.Delta
import Hindsight.Engine

/-!
# Timelines

A timeline is the record of one run: the machine it started from and a delta for each
step.  Step `k` is the machine after `k` instructions, so step 0 is the start and the
delta with index `k - 1` leads into step `k`.  The machine at any step is found by
replaying deltas.

## Main definitions

* `Ending` — why a run ended.
* `Timeline` — the record.
* `Timeline.stateAt`, `Timeline.stateInto` — the machine at a step, fresh or in a buffer.
* `Timeline.deltaInto?`, `Timeline.sourceLine?` — what led into a step.
* `replay` — redoes a list of deltas.
-/

namespace Hindsight

/-! ### Endings -/

/-- Why a run ended. -/
inductive Ending
  /-- The program asked to halt. -/
  | halted
  /-- The program waits on input that was never given. -/
  | blocked
  /-- The permitted number of steps was reached. -/
  | stepCap
  /-- The engine could not execute the next instruction. -/
  | faulted (message : String)
  /-- The run was cancelled between two steps. -/
  | cancelled
  deriving DecidableEq, Inhabited

/-- Whether the program came to a stop of its own. -/
def Ending.isComplete : Ending → Bool
  | halted | blocked => true
  | stepCap | faulted _ | cancelled => false

/-- The ending in words. -/
def Ending.text : Ending → String
  | halted => "halted"
  | blocked => "blocked on input"
  | stepCap => "stopped at step cap"
  | faulted message => "faulted: " ++ message
  | cancelled => "cancelled"

/-! ### Timelines -/

/-- Why a step cannot be shown. -/
inductive StepError
  /-- The run has fewer steps. -/
  | outOfRange (step totalSteps : Nat)
  /-- There is no run. -/
  | noTimeline
  deriving DecidableEq, Inhabited

/-- The message of an error. -/
def StepError.message : StepError → String
  | outOfRange step totalSteps =>
    "step " ++ toString step ++ " is out of range (timeline has " ++ toString totalSteps ++
      " steps)"
  | noTimeline => "no timeline has been recorded"

/-- The record of one run. -/
structure Timeline where
  /-- The machine before the first step. -/
  initial : Machine
  /-- What each step changed. -/
  deltas : List Delta
  ending : Ending
  /-- What the assembler said about the program. -/
  diagnostics : List Diagnostic := []
  lineMap : LineMap := ∅
  deriving DecidableEq

/-- Redoes steps in order. -/
def replay (m : Machine) (deltas : List Delta) : Machine := deltas.foldl (fun m d => d.apply m) m

@[simp] theorem replay_nil (m : Machine) : replay m [] = m := rfl

@[simp] theorem replay_cons (m : Machine) (d : Delta) (deltas : List Delta) :
    replay m (d :: deltas) = replay (d.apply m) deltas := rfl

theorem replay_append (m : Machine) (ds es : List Delta) :
    replay m (ds ++ es) = replay (replay m ds) es :=
  List.foldl_append

namespace Timeline

/-- The number of steps recorded. -/
def totalSteps (t : Timeline) : Nat := t.deltas.length

/-- The delta that leads into a step; step 0 has none. -/
def deltaInto? (t : Timeline) : (step : Nat) → Option Delta
  | 0 => none
  | k + 1 => t.deltas[k]?

/-- The source line of the instruction executed to reach a step, if it is known. -/
def sourceLine? (t : Timeline) (step : Nat) : Option Nat :=
  (t.deltaInto? step).bind fun d => t.lineMap.find? d.origin

/-- The error for a step behind the last one. -/
def outOfRange (t : Timeline) (step : Nat) : StepError := .outOfRange step t.totalSteps

/-- The machine at a step. -/
def stateAt (t : Timeline) (step : Nat) : Except StepError Machine :=
  if step ≤ t.totalSteps then .ok (replay t.initial (t.deltas.take step))
  else .error (t.outOfRange step)

/-- Brings a buffer to the machine at a step, reusing its storage.  A failing request leaves the
buffer alone. -/
def stateInto (t : Timeline) (step : Nat) (buffer : Machine) : Except StepError Unit × Machine :=
  if step ≤ t.totalSteps then (.ok (), replay (buffer.copyFrom t.initial) (t.deltas.take step))
  else (.error (t.outOfRange step), buffer)

/-- Continues replay of a timeline from the machine at step `k` to a later step. -/
def continueTo (t : Timeline) (k step : Nat) (m : Machine) : Machine :=
  replay m ((t.deltas.drop k).take (step - k))

@[simp] theorem deltaInto?_zero (t : Timeline) : t.deltaInto? 0 = none := rfl

@[simp] theorem deltaInto?_succ (t : Timeline) (k : Nat) : t.deltaInto? (k + 1) = t.deltas[k]? :=
  rfl

theorem stateAt_of_le {t : Timeline} {step : Nat} (h : step ≤ t.totalSteps) :
    t.stateAt step = .ok (replay t.initial (t.deltas.take step)) :=
  if_pos h

theorem stateAt_of_lt {t : Timeline} {step : Nat} (h : t.totalSteps < step) :
    t.stateAt step = .error (.outOfRange step t.totalSteps) :=
  if_neg (Nat.not_le.2 h)

end Timeline

end Hindsight
