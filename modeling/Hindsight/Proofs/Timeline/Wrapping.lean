import Hindsight.Proofs.Timeline.Programs

/-!
# Engines around engines

An engine may keep more in its state than another and do the same on the part they share.  Its
recordings are then those of the other engine, and so are its runs of source texts: whatever it
keeps beside, to count its calls or to log them, is not seen in a timeline.

## Main definitions

* `Engine.Wraps` — an engine that does the same as another underneath.
* `CancelSignal.through` — a cancel flag that looks underneath.

## Main results

* `Engine.Wraps.record_eq`, `Engine.Wraps.runProgram_eq` — recordings and runs do not tell the
  two apart.
-/

namespace Hindsight

/-- An engine wraps another if it does the same on the part of its state that `f` gives. -/
structure Engine.Wraps {τ σ φ : Type} (outer : Engine τ φ) (inner : Engine σ φ) (f : τ → σ) :
    Prop where
  reset_eq (w : τ) : inner.reset (f w) = (f (outer.reset w).1, (outer.reset w).2)
  step_eq (w : τ) (m : Machine) :
    inner.step (f w) m = ((outer.step w m).1, f (outer.step w m).2.1, (outer.step w m).2.2)
  isHalted_eq (w : τ) (m : Machine) : inner.isHalted (f w) m = outer.isHalted w m

/-- The cancel flag of an engine, for one that wraps it. -/
def CancelSignal.through {τ σ : Type} (f : τ → σ) (cancel : CancelSignal σ) : CancelSignal τ :=
  fun n w => cancel n (f w)

namespace Engine.Wraps

variable {τ σ φ : Type} {outer : Engine τ φ} {inner : Engine σ φ} {f : τ → σ}
  (h : outer.Wraps inner f) (w : τ) (m : Machine)

include h

/-! ### Execution -/

theorem after_eq (n : Nat) :
    inner.after (f w) m n = (f (outer.stateAfter w m n), outer.machineAfter w m n) := by
  induction n with
  | zero => rfl
  | succ n ih =>
    rw [after, ih, h.step_eq]
    rfl

theorem stateAfter_eq (n : Nat) : inner.stateAfter (f w) m n = f (outer.stateAfter w m n) :=
  congrArg Prod.fst (h.after_eq w m n)

theorem machineAfter_eq (n : Nat) : inner.machineAfter (f w) m n = outer.machineAfter w m n :=
  congrArg Prod.snd (h.after_eq w m n)

theorem reportAfter_eq (n : Nat) : inner.reportAfter (f w) m n = outer.reportAfter w m n := by
  rw [reportAfter, h.stateAfter_eq, h.machineAfter_eq, h.step_eq]
  rfl

theorem accessInto_eq (n : Nat) : inner.accessInto (f w) m n = outer.accessInto w m n := by
  cases n with
  | zero => rfl
  | succ n => rw [accessInto, h.reportAfter_eq, accessInto]

theorem deltaLog_eq (scan : MemoryScan) (n : Nat) :
    inner.deltaLog scan (f w) m n = outer.deltaLog scan w m n := by
  induction n with
  | zero => rfl
  | succ n ih => rw [deltaLog, ih, h.machineAfter_eq, h.accessInto_eq, deltaLog]

variable [ToString φ]

theorem endingAfter?_eq (cap : Nat) (cancel : CancelSignal σ) (n : Nat) :
    inner.endingAfter? (f w) m cap cancel n
      = outer.endingAfter? w m cap (cancel.through f) n := by
  rw [endingAfter?, h.stateAfter_eq, h.machineAfter_eq, h.reportAfter_eq, h.isHalted_eq]
  rfl

/-! ### Recordings and runs -/

/-- **A recording cannot tell a wrapped engine from the one around it**: the timeline is the same,
and the wrapped engine ends as it does underneath. -/
theorem record_eq (config : Config) (cancel : CancelSignal σ) :
    record inner config cancel (f w) m
      = ((record outer config (cancel.through f) w m).1,
          f (record outer config (cancel.through f) w m).2) := by
  have hrec := isRecording_record outer config (cancel.through f) w m
  refine Hindsight.record_eq ⟨?_, hrec.start_le, fun n hstart hn => ?_, ?_, ?_⟩
  · rw [h.deltaLog_eq]
    exact hrec.deltas_eq
  · rw [h.endingAfter?_eq]
    exact hrec.goes_on n hstart hn
  · rw [h.endingAfter?_eq]
    exact hrec.ends
  · rw [hrec.state_eq]
    exact (h.stateAfter_eq w m _).symm

/-- **Nor can a run of a source text.** -/
theorem runProgram_eq (assemble : Assembler) (config : Config) (cancel : CancelSignal σ)
    (moduleName source : String) :
    runProgram ⟨inner, assemble⟩ config cancel moduleName source (f w)
      = ((runProgram ⟨outer, assemble⟩ config (cancel.through f) moduleName source w).1,
          f (runProgram ⟨outer, assemble⟩ config (cancel.through f) moduleName source w).2) := by
  -- both resets give the same machine, so the program fits for both or for neither
  have hmachine : (inner.reset (f w)).2 = (outer.reset w).2 := congrArg Prod.snd (h.reset_eq w)
  have hstate : (inner.reset (f w)).1 = f (outer.reset w).1 := congrArg Prod.fst (h.reset_eq w)
  rcases Nat.eq_zero_or_pos (assemble moduleName source).errorCount with herrors | herrors
  · cases hload : (outer.reset w).2.load? (assemble moduleName source).objectCode with
    | none =>
      have hinner : (inner.reset (f w)).2.load? (assemble moduleName source).objectCode = none := by
        rw [hmachine, hload]
      rw [runProgram_of_load?_eq_none herrors hinner, runProgram_of_load?_eq_none herrors hload,
        hstate]
    | some initial =>
      have hinner : (inner.reset (f w)).2.load? (assemble moduleName source).objectCode
          = some initial := by
        rw [hmachine, hload]
      rw [runProgram_of_load?_eq_some herrors hinner, runProgram_of_load?_eq_some herrors hload,
        hstate, h.record_eq]
  · rw [runProgram_of_errors herrors, runProgram_of_errors herrors]

end Engine.Wraps

end Hindsight
