import Hindsight.Engine

/-!
# Execution without a recording

What an engine does when its step is called again and again on one machine, the state of
the engine being handed from call to call.  A recording is measured against this: nothing
here knows of deltas or of a reason to stop.

Calls are counted from 0, steps from 1: the call made after `n` calls leads into step
`n + 1`.

## Main definitions

* `Engine.after` — the engine's state and machine after a number of calls.
* `Engine.reportAfter` — what the next call answers.
* `Engine.accessInto` — the report of the call that leads into a step.
* `Access.Covers` — a report that lists every memory word that was changed.

## Main results

* `Engine.after_add` — execution can be cut in two.
-/

namespace Hindsight

/-- A report covers a step if it lists every memory word that the step changed. -/
def Access.Covers (access : Access) (before after : Machine) : Prop :=
  ∀ a, before.mem a ≠ after.mem a → a ∈ access.addresses

namespace Engine

variable {σ φ : Type} (engine : Engine σ φ) (s : σ) (m : Machine)

/-- The engine's state and machine after exactly `n` calls of its step.  A call that faults
counts too, with whatever it had changed by then. -/
def after : (n : Nat) → σ × Machine
  | 0 => (s, m)
  | n + 1 => (engine.step (after n).1 (after n).2).2

/-- The engine's state after `n` calls. -/
def stateAfter (n : Nat) : σ := (engine.after s m n).1

/-- The machine after `n` calls. -/
def machineAfter (n : Nat) : Machine := (engine.after s m n).2

/-- What the call made after `n` calls answers: a report, or a fault. -/
def reportAfter (n : Nat) : Except φ Access :=
  (engine.step (engine.stateAfter s m n) (engine.machineAfter s m n)).1

/-- The report of the call that leads into a step.  There is nothing to report for step 0, nor
for a call that faults. -/
def accessInto : (step : Nat) → Access
  | 0 => {}
  | n + 1 =>
    match engine.reportAfter s m n with
    | .ok access => access
    | .error _ => {}

@[simp] theorem machineAfter_zero : engine.machineAfter s m 0 = m := rfl

variable {engine s m}

/-- One call splits into its answer and the next state and machine. -/
theorem step_after (n : Nat) :
    engine.step (engine.stateAfter s m n) (engine.machineAfter s m n)
      = (engine.reportAfter s m n, engine.stateAfter s m (n + 1),
          engine.machineAfter s m (n + 1)) := rfl

theorem accessInto_succ {n : Nat} {access : Access} (h : engine.reportAfter s m n = .ok access) :
    engine.accessInto s m (n + 1) = access := by
  rw [accessInto, h]

/-! ### Going on from a later call -/

variable (engine s m)

/-- **The calls made after `k` calls are those of the engine as it then stands.** -/
theorem after_add (k n : Nat) :
    engine.after s m (k + n)
      = engine.after (engine.stateAfter s m k) (engine.machineAfter s m k) n := by
  induction n with
  | zero => rfl
  | succ n ih => rw [← Nat.add_assoc, after, ih, after]

theorem stateAfter_add (k n : Nat) :
    engine.stateAfter s m (k + n)
      = engine.stateAfter (engine.stateAfter s m k) (engine.machineAfter s m k) n :=
  congrArg Prod.fst (engine.after_add s m k n)

theorem machineAfter_add (k n : Nat) :
    engine.machineAfter s m (k + n)
      = engine.machineAfter (engine.stateAfter s m k) (engine.machineAfter s m k) n :=
  congrArg Prod.snd (engine.after_add s m k n)

theorem reportAfter_add (k n : Nat) :
    engine.reportAfter s m (k + n)
      = engine.reportAfter (engine.stateAfter s m k) (engine.machineAfter s m k) n := by
  rw [reportAfter, stateAfter_add, machineAfter_add, reportAfter]

theorem accessInto_add_succ (k n : Nat) :
    engine.accessInto s m (k + n + 1)
      = engine.accessInto (engine.stateAfter s m k) (engine.machineAfter s m k) (n + 1) := by
  rw [accessInto, reportAfter_add, accessInto]

end Engine

end Hindsight
