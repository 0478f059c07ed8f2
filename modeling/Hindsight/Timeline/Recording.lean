import Hindsight.Timeline.Basic

/-!
# Recording a run

A recording drives an engine and keeps, beside the engine's machine, a replica that is
advanced by the recorded deltas alone.  Each delta is the difference between the replica
and the engine's machine, so a delta log always replays to the replica, whatever the
engine reports.

Between two steps the recording looks, in this order, whether the machine has halted,
whether the step cap is reached, and whether the run has been cancelled.

## Main definitions

* `Config` — step cap and memory scan.
* `CancelSignal` — what a cancel flag shows in the course of a run.
* `record` — records the program that a machine holds.
* `RunError`, `runProgram` — assembles, loads and records a source text.
-/

namespace Hindsight

/-- How to record. -/
structure Config where
  /-- The number of steps after which a recording ends. -/
  stepCap : Nat := 100000
  scan : MemoryScan := .writeSet
  deriving DecidableEq, Inhabited

/-- What a cancel flag shows after a number of steps.  The engine may raise the flag itself, so
its state is consulted as well. -/
abbrev CancelSignal (σ : Type) := (steps : Nat) → σ → Bool

/-- The flag that is never raised. -/
def CancelSignal.never {σ : Type} : CancelSignal σ := fun _ _ => false

variable {σ φ : Type} [ToString φ]

/-- Records at most `fuel` further steps.  `m` is the engine's machine, `replica` its image under
the deltas in `log`. -/
def recordFrom (engine : Engine σ φ) (scan : MemoryScan) (cancel : CancelSignal σ) (fuel : Nat)
    (s : σ) (m replica : Machine) (log : Array Delta) : Array Delta × Ending × σ :=
  if engine.isHalted s m then (log, if m.blocked then .blocked else .halted, s)
  else
    match fuel with
    -- The cap comes before the flag: a run that is over is not cancelled.
    | 0 => (log, .stepCap, s)
    | fuel + 1 =>
      if cancel log.size s then (log, .cancelled, s)
      else
        match engine.step s m with
        | (.error fault, s, _) => (log, .faulted (toString fault), s)
        | (.ok access, s, m) =>
          -- The engine's machine is not copied into the replica, so what the delta
          -- misses is still a difference at the next step.
          let delta := Delta.between scan replica m access
          recordFrom engine scan cancel fuel s m (delta.apply replica) (log.push delta)

/-- Records the execution of the program that `initial` holds, and gives the engine's state at
the end. -/
def record (engine : Engine σ φ) (config : Config) (cancel : CancelSignal σ) (s : σ)
    (initial : Machine) : Timeline × σ :=
  let (log, ending, s) := recordFrom engine config.scan cancel config.stepCap s initial initial #[]
  ({ initial, deltas := log.toList, ending }, s)

/-! ### Running a source text -/

/-- Why a run could not be recorded. -/
inductive RunError
  /-- The source of a module has errors.  Nothing was executed. -/
  | assembly (moduleName : String) (errorCount : Nat) (diagnostics : List Diagnostic)
  /-- The object code is longer than the memory. -/
  | programTooLarge (words : Nat)
  deriving DecidableEq, Inhabited

/-- The message of an error. -/
def RunError.message : RunError → String
  | assembly moduleName errorCount _ =>
    moduleName ++ ": assembly failed with " ++ toString errorCount ++ " error(s)"
  | programTooLarge words =>
    "object code of " ++ toString words ++ " words does not fit in memory"

/-- Assembles a source text, loads it into a reset machine and records its execution.  Errors of
the assembler leave the engine untouched. -/
def runProgram (tools : Toolchain σ φ) (config : Config) (cancel : CancelSignal σ)
    (moduleName source : String) (s : σ) : Except RunError Timeline × σ :=
  let output := tools.assemble moduleName source
  if 0 < output.errorCount then
    (.error (.assembly moduleName output.errorCount output.diagnostics), s)
  else
    let (s, machine) := tools.engine.reset s
    match machine.load? output.objectCode with
    | none => (.error (.programTooLarge output.objectCode.length), s)
    | some initial =>
      let (timeline, s) := record tools.engine config cancel s initial
      (.ok { timeline with diagnostics := output.diagnostics, lineMap := output.lineMap }, s)

end Hindsight
