import Hindsight.Proofs.Timeline.Recording

/-!
# Runs of source texts

A run ends in one of three ways.  The assembler finds errors, or its object code does not fit, or
there is a timeline: a recording, made from a reset engine and the program as it was loaded, with
what the assembler said about the source attached to it.

## Main results

* `runProgram_of_errors`, `runProgram_of_load?_eq_none`, `runProgram_of_load?_eq_some` — the
  three outcomes, and `runProgram_cases` — that there are no others.
* `runProgram_eq_ok_iff` — when a run gives a timeline, and which.
-/

namespace Hindsight

variable {σ φ : Type} [ToString φ]

/-- A recording with what the assembler said about its program. -/
def Timeline.annotated (t : Timeline) (output : AssemblyOutput) : Timeline :=
  { t with diagnostics := output.diagnostics, lineMap := output.lineMap }

variable {tools : Toolchain σ φ} {config : Config} {cancel : CancelSignal σ}
  {moduleName source : String} {s s' : σ}

/-! ### The three outcomes -/

theorem runProgram_of_errors (herrors : 0 < (tools.assemble moduleName source).errorCount) :
    runProgram tools config cancel moduleName source s
      = (.error (.assembly moduleName (tools.assemble moduleName source).errorCount
          (tools.assemble moduleName source).diagnostics), s) :=
  if_pos herrors

theorem runProgram_of_load?_eq_none
    (herrors : (tools.assemble moduleName source).errorCount = 0)
    (hload : (tools.engine.reset s).2.load? (tools.assemble moduleName source).objectCode
      = none) :
    runProgram tools config cancel moduleName source s
      = (.error (.programTooLarge (tools.assemble moduleName source).objectCode.length),
          (tools.engine.reset s).1) := by
  rw [runProgram, if_neg (Nat.not_lt.mpr (Nat.le_of_eq herrors))]
  simp only [hload]

theorem runProgram_of_load?_eq_some {initial : Machine}
    (herrors : (tools.assemble moduleName source).errorCount = 0)
    (hload : (tools.engine.reset s).2.load? (tools.assemble moduleName source).objectCode
      = some initial) :
    runProgram tools config cancel moduleName source s
      = (.ok ((record tools.engine config cancel (tools.engine.reset s).1 initial).1.annotated
            (tools.assemble moduleName source)),
          (record tools.engine config cancel (tools.engine.reset s).1 initial).2) := by
  rw [runProgram, if_neg (Nat.not_lt.mpr (Nat.le_of_eq herrors))]
  simp only [hload]
  rfl

variable (tools config cancel moduleName source s) in
/-- There is no fourth outcome. -/
theorem runProgram_cases :
    (0 < (tools.assemble moduleName source).errorCount ∧
        runProgram tools config cancel moduleName source s
          = (.error (.assembly moduleName (tools.assemble moduleName source).errorCount
              (tools.assemble moduleName source).diagnostics), s)) ∨
      (tools.assemble moduleName source).errorCount = 0 ∧
        (((tools.engine.reset s).2.load? (tools.assemble moduleName source).objectCode = none ∧
            runProgram tools config cancel moduleName source s
              = (.error (.programTooLarge
                  (tools.assemble moduleName source).objectCode.length),
                (tools.engine.reset s).1)) ∨
          ∃ initial,
            (tools.engine.reset s).2.load? (tools.assemble moduleName source).objectCode
              = some initial ∧
            runProgram tools config cancel moduleName source s
              = (.ok ((record tools.engine config cancel (tools.engine.reset s).1
                    initial).1.annotated (tools.assemble moduleName source)),
                (record tools.engine config cancel (tools.engine.reset s).1 initial).2)) := by
  rcases Nat.eq_zero_or_pos (tools.assemble moduleName source).errorCount with herrors | herrors
  · refine .inr ⟨herrors, ?_⟩
    cases hload : (tools.engine.reset s).2.load?
        (tools.assemble moduleName source).objectCode with
    | none => exact .inl ⟨rfl, runProgram_of_load?_eq_none herrors hload⟩
    | some initial => exact .inr ⟨initial, rfl, runProgram_of_load?_eq_some herrors hload⟩
  · exact .inl ⟨herrors, runProgram_of_errors herrors⟩

/-- **When a run gives a timeline**: the source has no errors, its object code fits, and the
timeline is the recording that starts from the loaded program. -/
theorem runProgram_eq_ok_iff {t : Timeline} :
    runProgram tools config cancel moduleName source s = (.ok t, s') ↔
      (tools.assemble moduleName source).errorCount = 0 ∧
        ∃ initial, (tools.engine.reset s).2.load? (tools.assemble moduleName source).objectCode
            = some initial ∧
          t = (record tools.engine config cancel (tools.engine.reset s).1 initial).1.annotated
            (tools.assemble moduleName source) ∧
          s' = (record tools.engine config cancel (tools.engine.reset s).1 initial).2 := by
  constructor
  · intro h
    -- of the three outcomes, only the last one is a timeline
    rcases runProgram_cases tools config cancel moduleName source s with
      ⟨-, hrun⟩ | ⟨herrors, ⟨-, hrun⟩ | ⟨initial, hload, hrun⟩⟩
    · cases h.symm.trans hrun
    · cases h.symm.trans hrun
    · cases h.symm.trans hrun
      exact ⟨herrors, initial, hload, rfl, rfl⟩
  · rintro ⟨herrors, initial, hload, rfl, rfl⟩
    exact runProgram_of_load?_eq_some herrors hload

end Hindsight
