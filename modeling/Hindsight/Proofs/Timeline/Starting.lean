import Hindsight.Proofs.Timeline.Stopping

/-!
# How a run starts

Between a source text and the first step of its run stand the assembler, the engine's reset and
the loading of the object code.  Errors of the assembler end the run before the engine is called
at all, and object code that is too long ends it right after the reset.  Otherwise the run starts
from the reset machine with nothing changed but the memory that the object code covers.

Which calls an engine gets is said about a *logged* engine, which does the same and keeps every
reset and every step that is asked of it.

## Main definitions

* `Machine.Loads` — what a machine is after object code has been put into its memory.
* `Engine.Call`, `Engine.logged` — the calls that change an engine, and the engine that keeps
  them.

## Main results

* `runProgram_starts_loaded` — **a run fails before its first step, or starts from exactly the
  loaded program.**
-/

namespace Hindsight

/-! ### Loading -/

/-- A machine becomes another one by putting words into its memory from address 0 on. -/
structure Machine.Loads (m : Machine) (code : List Word) (loaded : Machine) : Prop where
  toProcessor_eq : loaded.toProcessor = m.toProcessor
  reg_eq : ∀ r, loaded.reg r = m.reg r
  /-- The words are at their addresses. -/
  mem_of_lt : ∀ a, (h : a.toNat < code.length) → loaded.mem a = code[a.toNat]
  /-- Behind them nothing has changed. -/
  mem_of_le : ∀ a, code.length ≤ a.toNat → loaded.mem a = m.mem a

theorem Machine.load?_eq_none {m : Machine} {code : List Word} (h : memorySize < code.length) :
    m.load? code = none :=
  if_neg (Nat.not_le.mpr h)

theorem Machine.exists_load?_eq_some (m : Machine) {code : List Word}
    (h : code.length ≤ memorySize) :
    ∃ loaded, m.load? code = some loaded ∧ m.Loads code loaded := by
  refine ⟨_, if_pos h, rfl, fun _ => rfl, fun a ha => ?_, fun a ha => ?_⟩
  · show (m.memory.load code).get a = _
    rw [Memory.get_load, List.getElem?_eq_getElem ha, Option.getD_some]
  · show (m.memory.load code).get a = _
    rw [Memory.get_load, List.getElem?_eq_none ha, Option.getD_none]
    rfl

/-! ### The logged engine -/

/-- A call that changes an engine, with the state and the machine it is made on. -/
inductive Engine.Call (σ : Type)
  | reset (s : σ)
  | step (s : σ) (m : Machine)
  deriving DecidableEq

namespace Engine

variable {σ φ : Type} (engine : Engine σ φ)

/-- The engine that also keeps every reset and every step that is asked of it, in order. -/
def logged : Engine (σ × List (Call σ)) φ where
  reset w := (((engine.reset w.1).1, w.2 ++ [.reset w.1]), (engine.reset w.1).2)
  step w m :=
    let (result, s, m') := engine.step w.1 m
    (result, (s, w.2 ++ [.step w.1 m]), m')
  isHalted w m := engine.isHalted w.1 m

/-- The first `n` steps asked of an engine, as calls. -/
def stepCalls (s : σ) (m : Machine) (n : Nat) : List (Call σ) :=
  (engine.calls s m n).map fun call => .step call.1 call.2

theorem stepCalls_zero (s : σ) (m : Machine) : engine.stepCalls s m 0 = [] := rfl

theorem stepCalls_succ (s : σ) (m : Machine) (n : Nat) :
    engine.stepCalls s m (n + 1)
      = engine.stepCalls s m n
        ++ [.step (engine.stateAfter s m n) (engine.machineAfter s m n)] := by
  rw [stepCalls, calls_succ, List.map_append]
  rfl

theorem logged_wraps : engine.logged.Wraps engine Prod.fst where
  reset_eq _ := rfl
  step_eq _ _ := rfl
  isHalted_eq _ _ := rfl

theorem after_logged (s : σ) (log : List (Call σ)) (m : Machine) (n : Nat) :
    engine.logged.after (s, log) m n
      = ((engine.stateAfter s m n, log ++ engine.stepCalls s m n), engine.machineAfter s m n) := by
  induction n with
  | zero =>
    rw [stepCalls_zero, List.append_nil]
    rfl
  | succ n ih =>
    rw [after, ih, stepCalls_succ, ← List.append_assoc]
    rfl

end Engine

/-- The log behind a recording: one step for each step recorded, and one more if that faulted. -/
theorem log_record_logged {σ φ : Type} [ToString φ] (engine : Engine σ φ) (config : Config)
    (cancel : CancelSignal (σ × List (Engine.Call σ))) (s : σ) (log : List (Engine.Call σ))
    (initial : Machine) :
    (record engine.logged config cancel (s, log) initial).2.2
      = log ++ engine.stepCalls s initial
          ((record engine.logged config cancel (s, log) initial).1.totalSteps
            + (record engine.logged config cancel (s, log) initial).1.ending.isFault.toNat) := by
  have hstate := (isRecording_record engine.logged config cancel (s, log) initial).state_eq
  rw [Engine.stateAfter, Engine.after_logged] at hstate
  rw [hstate]
  rfl

/-! ### Runs -/

/-- **A run fails before its first step, or starts from exactly the loaded program**, for every
engine, assembler, cap, scan and cancel flag.  Errors of the assembler are handed on as they are
and the engine is left alone.  Object code that is longer than the memory is reported with its
length, after one reset and no step.  Otherwise there is a timeline, however the run ends: it
starts from the reset machine with the object code in its memory, it carries what the assembler
said, and the engine is reset once and then called for its steps only. -/
theorem runProgram_starts_loaded {σ φ : Type} [ToString φ] (tools : Toolchain σ φ)
    (config : Config) (cancel : CancelSignal σ) (moduleName source : String) (s : σ) :
    let output := tools.assemble moduleName source
    let reset := tools.engine.reset s
    let run := runProgram tools config cancel moduleName source s
    let logged := runProgram ⟨tools.engine.logged, tools.assemble⟩ config
      (cancel.through Prod.fst) moduleName source (s, [])
    -- keeping the calls makes no difference
    run = (logged.1, logged.2.1) ∧
      (0 < output.errorCount →
        run = (.error (.assembly moduleName output.errorCount output.diagnostics), s) ∧
          logged.2.2 = []) ∧
      (output.errorCount = 0 → memorySize < output.objectCode.length →
        run = (.error (.programTooLarge output.objectCode.length), reset.1) ∧
          logged.2.2 = [.reset s]) ∧
      (output.errorCount = 0 → output.objectCode.length ≤ memorySize →
        ∃ t, run.1 = .ok t ∧ reset.2.Loads output.objectCode t.initial ∧
          t.diagnostics = output.diagnostics ∧ t.lineMap = output.lineMap ∧
          logged.2.2 = .reset s :: tools.engine.stepCalls reset.1 t.initial
            (t.totalSteps + t.ending.isFault.toNat)) := by
  intro output reset run logged
  have hwraps : run = (logged.1, logged.2.1) :=
    tools.engine.logged_wraps.runProgram_eq (s, []) tools.assemble config cancel moduleName source
  refine ⟨hwraps, fun herrors => ?_, fun herrors hlong => ?_, fun herrors hfits => ?_⟩
  · -- errors: the engine has not been called
    have hlogged : logged
        = (.error (.assembly moduleName output.errorCount output.diagnostics), (s, [])) :=
      runProgram_of_errors herrors
    rw [hwraps, hlogged]
    exact ⟨rfl, rfl⟩
  · -- too long: the reset has shown the memory, and there was no step
    have hlogged : logged
        = (.error (.programTooLarge output.objectCode.length), (reset.1, [.reset s])) :=
      runProgram_of_load?_eq_none herrors (Machine.load?_eq_none hlong)
    rw [hwraps, hlogged]
    exact ⟨rfl, rfl⟩
  · -- a recording, whose calls are those behind the reset
    obtain ⟨initial, hload, hloads⟩ := reset.2.exists_load?_eq_some hfits
    have hlogged : logged
        = (.ok ((record tools.engine.logged config (cancel.through Prod.fst) (reset.1, [.reset s])
              initial).1.annotated output),
            (record tools.engine.logged config (cancel.through Prod.fst) (reset.1, [.reset s])
              initial).2) :=
      runProgram_of_load?_eq_some herrors hload
    rw [hwraps, hlogged]
    exact ⟨_, rfl, hloads, rfl, rfl, log_record_logged tools.engine config _ reset.1 _ initial⟩

/-- An engine whose machines start with a word in `R1` and one behind a short program, and whose
second step faults.  Its state counts the resets. -/
def wornOut : Engine Nat String where
  reset resets := (resets + 1, (Machine.zero.setReg 1 5).setMem 2 9)
  step resets m :=
    if m.pc = 0 then (.ok {}, resets, { m with pc := 1 }) else (.error "worn out", resets, m)
  isHalted _ _ := false

/-- An assembler that counts errors in one source without saying which, makes one word too many of
another, and warns about the rest. -/
def suspicious : Assembler
  | _, "wrong" => { errorCount := 2 }
  | _, "long" => { objectCode := .replicate (memorySize + 1) 1 }
  | _, _ => { objectCode := [3, 4], diagnostics := [⟨1, "be careful"⟩] }

/-- All three outcomes; the last run faults at its second step, with the warning kept and the
reset machine's own words around the program. -/
theorem runProgram_starts_loaded_wornOut :
    let run := fun source => runProgram ⟨wornOut, suspicious⟩ {} .never "main" source 7
    (0 < (suspicious "main" "wrong").errorCount ∧
        run "wrong" = (.error (.assembly "main" 2 []), 7)) ∧
      ((suspicious "main" "long").errorCount = 0 ∧
        memorySize < (suspicious "main" "long").objectCode.length ∧
        run "long" = (.error (.programTooLarge 65537), 8)) ∧
      ((suspicious "main" "right").errorCount = 0 ∧
        (suspicious "main" "right").objectCode.length ≤ memorySize ∧
        (run "right").1.toOption.map (·.ending) = some (.faulted "worn out") ∧
        ∃ t, (run "right").1 = .ok t ∧ t.initial.mem 0 = 3 ∧ t.initial.mem 1 = 4 ∧
          t.initial.mem 2 = 9 ∧ t.initial.reg 1 = 5 ∧ t.diagnostics = [⟨1, "be careful"⟩]) := by
  intro run
  have hwrong : 0 < (suspicious "main" "wrong").errorCount := by decide
  have hlong : memorySize < (suspicious "main" "long").objectCode.length := by
    show memorySize < (List.replicate (memorySize + 1) 1).length
    rw [List.length_replicate]
    exact Nat.lt_succ_self _
  have hfits : (suspicious "main" "right").objectCode.length ≤ memorySize := by
    rw [memorySize_eq]
    decide
  obtain ⟨-, herrors, -, -⟩ :=
    runProgram_starts_loaded ⟨wornOut, suspicious⟩ {} .never "main" "wrong" 7
  obtain ⟨-, -, htooLong, -⟩ :=
    runProgram_starts_loaded ⟨wornOut, suspicious⟩ {} .never "main" "long" 7
  obtain ⟨-, -, -, hstarts⟩ :=
    runProgram_starts_loaded ⟨wornOut, suspicious⟩ {} .never "main" "right" 7
  refine ⟨⟨hwrong, (herrors hwrong).1⟩, ⟨rfl, hlong, ?_⟩, rfl, hfits, by decide +kernel, ?_⟩
  · -- the size that is reported is that of a list too long to be written out
    refine (htooLong rfl hlong).1.trans ?_
    show (Except.error (RunError.programTooLarge (List.replicate (memorySize + 1) 1).length), 8) = _
    rw [List.length_replicate, memorySize_eq]
  · obtain ⟨t, hrun, hloads, hdiagnostics, -, -⟩ := hstarts rfl hfits
    refine ⟨t, hrun, ?_, ?_, ?_, ?_, hdiagnostics⟩
    · exact hloads.mem_of_lt 0 (by decide)
    · exact hloads.mem_of_lt 1 (by decide)
    · rw [hloads.mem_of_le 2 (by decide)]
      exact Machine.mem_setMem_self _ 2 9
    · exact (hloads.reg_eq 1).trans (Machine.reg_setReg_self _ 1 5)

end Hindsight
