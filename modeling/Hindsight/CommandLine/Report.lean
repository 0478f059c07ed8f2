import Hindsight.CommandLine.Options
import Hindsight.Emulator.Toolchain
import Hindsight.Session

/-!
# The report of a run

The command assembles and records a program and reports one step of the recording: the
instruction that led into it, what the instruction changed in memory, and the machine
with the changed registers marked.  The ending of the run and the tally of opcodes
follow.

## Main definitions

* `Outcome` — exit code and printed lines.
* `Machine.report` — the lines that show a machine.
* `Session.report` — the lines that show a session's current step.
* `Options.execute` — what the command does with a source text.
-/

namespace Hindsight

/-- What the command prints, and its exit code. -/
structure Outcome where
  exitCode : UInt8
  /-- The messages for the standard output, which are lines. -/
  output : List String
  /-- The messages for the standard error.  They name the module, so they may hold line ends. -/
  errors : List String
  deriving DecidableEq

/-- The lines of the standard output. -/
def Outcome.outputLines (o : Outcome) : List String := printed o.output

/-- The lines of the standard error. -/
def Outcome.errorLines (o : Outcome) : List String := printed o.errors

/-- The outcome of a command line that is not accepted. -/
def Outcome.usage : Outcome := ⟨2, [], []⟩

/-! ### Showing a machine -/

/-- A register's cell, with an asterisk if its word differs from the one before. -/
def Machine.registerCell (m : Machine) (previous : Option Machine) (r : Reg) : String :=
  let name := Reg.text r
  let changed := previous.any fun p => p.reg r ≠ m.reg r
  let marker := if changed then "*" else " "
  name ++ "".pushn ' ' (3 - name.length) ++ " " ++ Word.hex (m.reg r) ++ marker

/-- The registers in four rows. -/
def Machine.registerRows (m : Machine) (previous : Option Machine) : List String :=
  [[0, 1, 2, 3], [4, 5, 6, 7], [8, 9, 10, 11], [12, 13, 14, 15]].map fun row : List Reg =>
    "  " ++ "  ".intercalate (row.map (m.registerCell previous))

/-- What the machine does next. -/
def Machine.nextRows (m : Machine) : List String :=
  if m.halted then ["  halted"]
  else if m.blocked then ["  blocked on input"]
  else
    match Instruction.fetch? m m.pc with
    | some i => ["  next: " ++ i.text]
    | none => []

/-- The lines that show a machine, compared with the one before. -/
def Machine.report (m : Machine) (previous : Option Machine) : List String :=
  m.registerRows previous ++
    ["  pc " ++ Word.hex m.pc ++ "  ir " ++ Word.hex m.ir ++ "  adr " ++ Word.hex m.control.adr ++
      "  dat " ++ Word.hex m.control.dat ++ "  status " ++ Word.hex m.control.status ++
      "  flags " ++ m.flags.text] ++
    m.nextRows

/-! ### Showing a step -/

/-- The instruction executed in a step from `previous`. -/
def Delta.instructionText (d : Delta) (previous : Option Machine) : String :=
  match previous.bind fun p => Instruction.fetch? p d.origin with
  | some i => i.text
  | none => Word.hex d.after.ir

/-- The memory words that a step from `previous` changed, a line each. -/
def Delta.memoryRows (d : Delta) (previous : Option Machine) : List String :=
  d.memory.entries.map fun (a, w) =>
    "  mem[" ++ Word.hex a ++ "] " ++ Word.hex (previous.elim 0 (·.mem a)) ++ " -> " ++ Word.hex w

/-- The lines that show how a step was reached. -/
def Delta.report (d : Delta) (previous : Option Machine) (line : Option Nat) : List String :=
  let place := line.elim "" fun n => " (line " ++ toString n ++ ")"
  ("executed " ++ Word.hex d.origin ++ ": " ++ d.instructionText previous ++ place) ::
    d.memoryRows previous

/-- The lines that show a session's current step. -/
def Session.report {σ : Type} (s : Session σ) : List String :=
  let step := s.currentStep
  let heading := "step " ++ toString step ++ " of " ++ toString s.totalSteps
  let machine := s.state.1.elim []
  match s.delta? with
  | none => heading :: machine fun m => m.report none
  | some d =>
    let previous := s.previousState
    let line := s.timeline?.bind (·.sourceLine? step)
    heading :: d.report previous line ++ machine fun m => m.report previous

/-! ### The command -/

/-- The last component of a path. -/
def fileName (path : String) : List Char := (pieces '/' path.toList).getLast?.getD []

/-- The name of a module: the file's name up to its last dot, unless that is at its start. -/
def moduleNameOf (path : String) : String :=
  let name := fileName path
  let stem := (name.reverse.dropWhile (· ≠ '.')).tail.reverse
  String.ofList (if stem = [] then name else stem)

/-- How to record. -/
def Options.config (o : Options) : Config where
  stepCap := o.stepCap
  scan := if o.fullScan then .full else .writeSet

/-- Moves a session to the step to show. -/
def Options.position {σ : Type} (o : Options) (s : Session σ) : Except StepError Unit × Session σ :=
  if o.atEnd then (.ok (), s.toEnd)
  else
    match o.step with
    | some step => s.goTo step
    | none => (.ok (), s)

/-- The outcome of a run that failed. -/
def RunError.outcome (e : RunError) : Outcome :=
  let details := match e with
    | .assembly moduleName _ diagnostics => diagnostics.map fun d => moduleName ++ ": " ++ d.text
    | .programTooLarge _ => []
  ⟨1, [], details ++ ["Error: " ++ e.message]⟩

/-- Runs the program with a source text and reports the step asked for. -/
def Options.execute (wording : SyntaxWording) (o : Options) (source : String) : Outcome :=
  let session : Session Emulator :=
    { engine := .ofInput o.input, config := o.config, moduleName := moduleNameOf o.file }
  match session.run (machineTools wording) .never source with
  | (.error e, _) => e.outcome
  | (.ok timeline, session) =>
    match o.position session with
    | (.error e, _) => ⟨1, [], ["Error: " ++ e.message]⟩
    | (.ok _, session) =>
      let ending :=
        timeline.ending.text ++ " (" ++ toString timeline.totalSteps ++ " steps)"
      ⟨0, session.report ++ ending :: session.engine.tally.rows, []⟩

end Hindsight
