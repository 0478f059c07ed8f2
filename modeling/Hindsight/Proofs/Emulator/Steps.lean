import Hindsight.Emulator.Basic
import Hindsight.Proofs.Emulator.Effects

/-!
# Steps of the emulator

A step of the emulator either carries out the effect of the instruction that it decoded, or
faults.  What a successful step does is thus the effect's application, one more instruction
counted; a step that faults leaves the emulator alone, and of the machine it changes no more
than the program counter, the instruction register and the status word.

## Main results

* `Emulator.step_eq_ok_iff` — what a successful step consists of.
* `Emulator.step_error` — what a faulting one leaves.
-/

namespace Hindsight

/-- The machine with another program counter, instruction register and status word. -/
def Machine.withFetch (m : Machine) (pc : Address) (ir status : Word) : Machine :=
  { m with pc, ir, control := { m.control with status } }

namespace Emulator

/-- The effect of an instruction, counted as executed.  Its report is the same. -/
def counted (effect : Effect) : Effect :=
  { effect with after := { effect.after with count := effect.after.count + 1 } }

/-- Counting changes no flag. -/
theorem flags_apply_counted (effect : Effect) (m : Machine) :
    ((counted effect).apply m).flags = effect.after.flags := by
  rw [Effect.toProcessor_apply]
  rfl

variable {e e' : Emulator} {m m' : Machine}

/-- **A successful step** decodes an instruction, finds its effect, and carries it out. -/
theorem step_eq_ok_iff {access : Access} :
    e.step m = (.ok access, e', m') ↔
      ∃ i effect, Instruction.fetch? m m.pc = some i ∧
        i.effect m (fetched m i.opcode.size) e.input.peek = .ok effect ∧
        access = effect.access ∧ e' = e.note i.opcode effect.consumes ∧
        m' = (counted effect).apply m := by
  unfold step
  constructor
  · intro h
    cases hi : Instruction.fetch? m m.pc with
    | none => simp [hi] at h
    | some i =>
      simp only [hi] at h
      cases heffect : i.effect m (fetched m i.opcode.size) e.input.peek with
      | error fault => simp [heffect] at h
      | ok effect =>
        simp only [heffect] at h
        cases h
        exact ⟨i, effect, rfl, heffect, rfl, rfl, rfl⟩
  · rintro ⟨i, effect, hi, heffect, rfl, rfl, rfl⟩
    simp only [hi, heffect]
    rfl

/-- A call of the emulator as an engine is a step. -/
theorem step_stateAfter (n : Nat) :
    (engine.stateAfter e m n).step (engine.machineAfter e m n)
      = (engine.reportAfter e m n, engine.stateAfter e m (n + 1),
          engine.machineAfter e m (n + 1)) := rfl

/-- What a call answers, its step answers. -/
theorem step_of_reportAfter {n : Nat} {report : Except Fault Access}
    (h : engine.reportAfter e m n = report) :
    (engine.stateAfter e m n).step (engine.machineAfter e m n)
      = (report, engine.stateAfter e m (n + 1), engine.machineAfter e m (n + 1)) := by
  rw [step_stateAfter, h]

/-- A step that is made from where a run has come to is the next one of the run. -/
theorem after_succ_of_step {n : Nat} {report : Except Fault Access}
    (h : (engine.stateAfter e m n).step (engine.machineAfter e m n) = (report, e', m')) :
    engine.reportAfter e m n = report ∧ engine.stateAfter e m (n + 1) = e' ∧
      engine.machineAfter e m (n + 1) = m' := by
  rw [step_stateAfter] at h
  obtain ⟨hreport, hnext⟩ := Prod.mk.inj h
  exact ⟨hreport, Prod.mk.inj hnext⟩

/-- A fault leaves nothing but a status word. -/
theorem leaves_fault (fault : Fault) (p : Processor) :
    ∃ status, fault.leaves p = p.withStatus status := by
  cases fault with
  | unknownTrap code address => exact ⟨code, rfl⟩
  | invalidInstruction word address => exact ⟨p.control.status, rfl⟩
  | divisionByZero address => exact ⟨p.control.status, rfl⟩

/-- **A faulting step** leaves the emulator as it was, and the machine but for its program
counter, instruction register and status word. -/
theorem step_error {fault : Fault} (h : e.step m = (.error fault, e', m')) :
    e' = e ∧ ∃ pc ir status, m' = m.withFetch pc ir status := by
  unfold step at h
  cases hi : Instruction.fetch? m m.pc with
  | none =>
    simp only [hi] at h
    cases h
    exact ⟨rfl, _, _, m.control.status, rfl⟩
  | some i =>
    simp only [hi] at h
    cases heffect : i.effect m (fetched m i.opcode.size) e.input.peek with
    | ok effect => simp [heffect] at h
    | error fault' =>
      simp only [heffect] at h
      cases h
      -- the fetch has moved the program counter on and set the instruction register
      obtain ⟨status, hleaves⟩ := leaves_fault fault (fetched m i.opcode.size)
      rw [hleaves]
      exact ⟨rfl, _, _, status, rfl⟩

end Emulator

end Hindsight
