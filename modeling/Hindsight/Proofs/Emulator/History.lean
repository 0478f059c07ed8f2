import Hindsight.Emulator.Toolchain
import Hindsight.Proofs.Assembly.Diagnostics
import Hindsight.Proofs.Assembly.TwoPasses
import Hindsight.Proofs.Emulator.FastScan
import Hindsight.Proofs.Timeline.Minimality
import Hindsight.Proofs.Timeline.Stopping

/-!
# What the emulator has executed

A timeline does not say which instructions were executed: a delta holds the address that its
instruction was fetched from, and the instruction is decoded again in the machine before it.
For a recording on the emulator this gives back what was executed, and the step from the machine
before to the one after is the effect of that instruction.

## Main definitions

* `Machine.loaded` — the machine that a program starts on.
* `Timeline.instructionInto?` — the instruction executed to reach a step, as decoded again.
* `Timeline.Executes` — a step of a timeline, with the machines around it.

## Main results

* `runProgram_of_ofSource`, `runProgram_of_ofSource_eq_error` — a source that assembles gives the
  recording of its words, and any other its messages.
* `Emulator.exists_step_of_lt_totalSteps` — every recorded step is one of the emulator.
* `Emulator.exists_executes` — and is decoded again as it was executed.
-/

namespace Hindsight

/-! ### The start of a run -/

/-- The zero machine with words in memory from address 0 on. -/
def Machine.loaded (words : List Word) : Machine :=
  { Machine.zero with memory := Memory.zero.load words }

theorem Machine.mem_loaded (words : List Word) (a : Address) :
    (loaded words).mem a = (words[a.toNat]?).getD 0 := by
  have hzero : Memory.zero.get a = 0 := Memory.get_zero a
  rw [mem, loaded, Memory.get_load, hzero]

/-- **A source that assembles gives a timeline**, the recording that starts from its words on an
emulator that has read nothing. -/
theorem runProgram_of_ofSource {source : String} {p : Program} (h : Program.ofSource source = .ok p)
    (wording : SyntaxWording) (config : Config) (cancel : CancelSignal Emulator)
    (moduleName : String) (e : Emulator) :
    runProgram (machineTools wording) config cancel moduleName source e
      = (.ok ((record Emulator.engine config cancel e.rewind (.loaded p.words)).1.annotated
            (assemble wording moduleName source)),
          (record Emulator.engine config cancel e.rewind (.loaded p.words)).2) := by
  -- what has been assembled fits in memory, so that loading succeeds
  have hfits : p.words.length ≤ memorySize := by
    obtain ⟨items, -, hwf, rfl⟩ := Program.ofSource_eq_ok_iff.mp h
    exact (Program.isImage_ofEmitted hwf).length_words_le
  have hassemble := Program.assemble_of_ofSource h wording moduleName
  have herrors : (assemble wording moduleName source).errorCount = 0 := by rw [hassemble]
  have hload : Machine.zero.load? (assemble wording moduleName source).objectCode
      = some (.loaded p.words) := by
    rw [hassemble]
    exact if_pos hfits
  exact runProgram_eq_ok_iff.mpr ⟨herrors, _, hload, rfl, rfl⟩

/-- A source that does not assemble gives its messages, and leaves the emulator alone. -/
theorem runProgram_of_ofSource_eq_error {source : String} {issues : List Issue}
    (h : Program.ofSource source = .error issues) (wording : SyntaxWording) (config : Config)
    (cancel : CancelSignal Emulator) (moduleName : String) (e : Emulator) :
    runProgram (machineTools wording) config cancel moduleName source e
      = (.error (.assembly moduleName issues.length (issues.map (Issue.diagnostic wording))),
          e) := by
  have hassemble : assemble wording moduleName source
      = { errorCount := issues.length, diagnostics := issues.map (Issue.diagnostic wording) } := by
    rw [assemble, h]
  have hpos : 0 < issues.length :=
    List.length_pos_of_ne_nil (ne_nil_of_ofSource_eq_error h)
  have herrors : 0 < ((machineTools wording).assemble moduleName source).errorCount := by
    show 0 < (assemble wording moduleName source).errorCount
    rw [hassemble]
    exact hpos
  rw [runProgram, if_pos herrors]
  show (Except.error (RunError.assembly moduleName (assemble wording moduleName source).errorCount
    (assemble wording moduleName source).diagnostics), e) = _
  rw [hassemble]

/-! ### Instructions, decoded again -/

namespace Timeline

/-- The instruction executed to reach a step, as it is decoded in the machine before it; step 0
has none. -/
def instructionInto? (t : Timeline) : (step : Nat) → Option Instruction
  | 0 => none
  | k + 1 => (t.deltaInto? (k + 1)).bind fun d => Instruction.fetch? (t.machineAt k) d.origin

/-- Step `k + 1` of a timeline: its delta, the machines around it, and the instruction that is
decoded at the delta's address. -/
structure Executes (t : Timeline) (k : Nat) (d : Delta) (before after : Machine)
    (i : Instruction) : Prop where
  delta_eq : t.deltaInto? (k + 1) = some d
  before_eq : t.stateAt k = .ok before
  after_eq : t.stateAt (k + 1) = .ok after
  origin_eq : d.origin = before.pc
  /-- The scalars that the delta keeps are those of the machine after it. -/
  scalars_eq : d.after = after.toProcessor
  fetch_eq : Instruction.fetch? before d.origin = some i

variable {t : Timeline} {k : Nat} {d : Delta} {before after : Machine} {i : Instruction}

theorem le_totalSteps_of_stateAt (h : t.stateAt k = .ok before) : k ≤ t.totalSteps := by
  refine Nat.not_lt.mp fun hlt => ?_
  rw [stateAt_of_lt hlt] at h
  cases h

theorem machineAt_eq_of_stateAt (h : t.stateAt k = .ok before) : t.machineAt k = before :=
  Except.ok.inj ((stateAt_eq_ok (le_totalSteps_of_stateAt h)).symm.trans h)

/-- A fetch from the program counter finds the same instruction. -/
theorem Executes.eq_of_fetch? {i' : Instruction} (h : t.Executes k d before after i)
    (hfetch : Instruction.fetch? before before.pc = some i') : i = i' := by
  rw [← h.origin_eq, h.fetch_eq] at hfetch
  exact Option.some.inj hfetch

theorem Executes.instructionInto?_eq (h : t.Executes k d before after i) :
    t.instructionInto? (k + 1) = some i := by
  rw [instructionInto?, h.delta_eq, Option.bind_some, machineAt_eq_of_stateAt h.before_eq,
    h.fetch_eq]

/-- What the assembler said about the program is no part of its steps. -/
theorem executes_annotated_iff (output : AssemblyOutput) :
    (t.annotated output).Executes k d before after i ↔ t.Executes k d before after i := by
  constructor <;> rintro ⟨hdelta, hbefore, hafter, horigin, hscalars, hfetch⟩
  · exact ⟨hdelta, hbefore, hafter, horigin, hscalars, hfetch⟩
  · exact ⟨hdelta, hbefore, hafter, horigin, hscalars, hfetch⟩

theorem Executes.annotated (h : t.Executes k d before after i) (output : AssemblyOutput) :
    (t.annotated output).Executes k d before after i :=
  (executes_annotated_iff output).mpr h

end Timeline

/-! ### Recorded steps -/

namespace Emulator

variable {config : Config} {cancel : CancelSignal Emulator} {e : Emulator} {m : Machine} {k : Nat}

/-- The machine at a step of a recording is the emulator's own. -/
theorem stateAt_record_engine (hk : k ≤ (record engine config cancel e m).1.totalSteps) :
    (record engine config cancel e m).1.stateAt k = .ok (engine.machineAfter e m k) :=
  stateAt_record_of_reportsStores reportsStores_engine hk

theorem machineAt_record_engine (hk : k ≤ (record engine config cancel e m).1.totalSteps) :
    (record engine config cancel e m).1.machineAt k = engine.machineAfter e m k :=
  Timeline.machineAt_eq_of_stateAt (stateAt_record_engine hk)

/-- The emulator at the end of a recording is the one after its steps: a call that faulted has
left it alone. -/
theorem state_record_engine (config : Config) (cancel : CancelSignal Emulator) (e : Emulator)
    (m : Machine) : (record engine config cancel e m).2
      = engine.stateAfter e m (record engine config cancel e m).1.totalSteps := by
  obtain ⟨-, -, -, hends, hstate⟩ := isRecording_record engine config cancel e m
  generalize (record engine config cancel e m).1.ending = ending at hends hstate
  cases Engine.endsWith_of_endingAfter? hends with
  | blocked _ _ | halted _ _ | stepCap _ _ | cancelled _ _ _ => exact hstate
  | faulted fault _ _ _ hreport => exact hstate.trans (step_error (step_of_reportAfter hreport)).1

/-- **Every recorded step is one of the emulator.** -/
theorem exists_step_of_lt_totalSteps
    (hk : k < (record engine config cancel e m).1.totalSteps) :
    ∃ access, (engine.stateAfter e m k).step (engine.machineAfter e m k)
      = (.ok access, engine.stateAfter e m (k + 1), engine.machineAfter e m (k + 1)) := by
  obtain ⟨access, hreport⟩ := exists_report_of_lt_totalSteps hk
  exact ⟨access, step_of_reportAfter hreport⟩

/-- Before a recorded step the machine has not stopped. -/
theorem isHalted_eq_false_of_lt_totalSteps
    (hk : k < (record engine config cancel e m).1.totalSteps) :
    isHalted (engine.machineAfter e m k) = false := by
  have hgoes := (isRecording_record engine config cancel e m).goes_on k (Nat.zero_le k) hk
  exact (Engine.endingAfter?_eq_none_iff.mp hgoes).1

/-- So it does not wait either. -/
theorem blocked_eq_false_of_lt_totalSteps
    (hk : k < (record engine config cancel e m).1.totalSteps) :
    (engine.machineAfter e m k).blocked = false :=
  (Bool.or_eq_false_iff.mp (isHalted_eq_false_of_lt_totalSteps hk)).2

/-- **What was executed is decoded again**, between the emulator's own machines. -/
theorem exists_executes (hk : k < (record engine config cancel e m).1.totalSteps) :
    ∃ d i, (record engine config cancel e m).1.Executes k d (engine.machineAfter e m k)
      (engine.machineAfter e m (k + 1)) i := by
  obtain ⟨access, hstep⟩ := exists_step_of_lt_totalSteps hk
  obtain ⟨i, effect, hfetch, -⟩ := step_eq_ok_iff.mp hstep
  -- the delta is the difference of two reconstructed machines, and these are the ones of the step
  obtain ⟨d, before, after, hd, hbefore, hafter, hdiff⟩ :=
    (isMinimal_record engine config cancel e m).isDifference k hk
  obtain rfl := Except.ok.inj (hbefore.symm.trans (stateAt_record_engine (Nat.le_of_lt hk)))
  obtain rfl := Except.ok.inj (hafter.symm.trans (stateAt_record_engine hk))
  exact ⟨d, i, hd, hbefore, hafter, hdiff.origin_eq, hdiff.after_eq,
    hdiff.origin_eq ▸ hfetch⟩

end Emulator

end Hindsight
