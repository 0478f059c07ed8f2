import Hindsight.Proofs.Timeline.Wrapping
import Mathlib.Order.Bounds.Defs

/-!
# When and why a recording stops

Between two steps there are four reasons to end a recording: the machine has halted, the cap is
reached, the cancel flag is up, or the engine cannot execute the next instruction.  A recording
has as many steps as it takes for the first of them to come up, and of several that come up at
once the first in this order is its ending.

That the engine is not called needlessly is said about a *watched* engine, which does the same
and keeps the calls it gets.  A recording cannot tell it from the engine itself, and the calls
kept in the end are one for each step, and one more if that call faulted.

## Main definitions

* `Engine.Stops` — there is a reason to end after a number of steps.
* `Engine.EndsWith` — the ending that the reasons amount to.
* `Engine.watched`, `Engine.calls` — the engine that keeps its calls, and the calls.

## Main results

* `record_watched` — watching the engine makes no difference to a recording.
* `record_stops` — **when a recording stops, with which ending, and after which calls.**
-/

namespace Hindsight
namespace Engine

variable {σ φ : Type} (engine : Engine σ φ) (s : σ) (m : Machine)

/-! ### Reasons and endings -/

section Reasons

variable (cap : Nat) (cancel : CancelSignal σ)

/-- There is a reason to end a recording after `n` steps. -/
inductive Stops (n : Nat) : Prop
  | halted : engine.isHalted (engine.stateAfter s m n) (engine.machineAfter s m n) = true → Stops n
  | capReached : cap ≤ n → Stops n
  | cancelled : cancel n (engine.stateAfter s m n) = true → Stops n
  | faulted (fault : φ) : engine.reportAfter s m n = .error fault → Stops n

/-- The ending of a recording that stops after `n` steps: that of the first reason that there is,
in the order of the constructors. -/
inductive EndsWith [ToString φ] (n : Nat) : Ending → Prop
  | blocked :
    engine.isHalted (engine.stateAfter s m n) (engine.machineAfter s m n) = true →
      (engine.machineAfter s m n).blocked = true → EndsWith n .blocked
  | halted :
    engine.isHalted (engine.stateAfter s m n) (engine.machineAfter s m n) = true →
      (engine.machineAfter s m n).blocked = false → EndsWith n .halted
  | stepCap :
    engine.isHalted (engine.stateAfter s m n) (engine.machineAfter s m n) = false →
      cap ≤ n → EndsWith n .stepCap
  | cancelled :
    engine.isHalted (engine.stateAfter s m n) (engine.machineAfter s m n) = false →
      n < cap → cancel n (engine.stateAfter s m n) = true → EndsWith n .cancelled
  | faulted (fault : φ) :
    engine.isHalted (engine.stateAfter s m n) (engine.machineAfter s m n) = false →
      n < cap → cancel n (engine.stateAfter s m n) = false →
      engine.reportAfter s m n = .error fault → EndsWith n (.faulted (toString fault))

variable {engine s m cap cancel} [ToString φ] {n : Nat} {ending : Ending}

theorem endsWith_of_endingAfter? (h : engine.endingAfter? s m cap cancel n = some ending) :
    engine.EndsWith s m cap cancel n ending := by
  -- the five cases have the order in which the loop looks for reasons
  rcases engine.endingAfter?_cases s m cap cancel n with
    ⟨hhalt, hend⟩ | ⟨hhalt, ⟨hle, hend⟩ | ⟨hlt, ⟨hcancel, hend⟩ |
      ⟨hcancel, ⟨fault, hreport, hend⟩ | ⟨access, -, hend⟩⟩⟩⟩
  · obtain rfl := Option.some.inj (h.symm.trans hend)
    cases hblocked : (engine.machineAfter s m n).blocked with
    | true => exact .blocked hhalt hblocked
    | false => exact .halted hhalt hblocked
  · obtain rfl := Option.some.inj (h.symm.trans hend)
    exact .stepCap hhalt hle
  · obtain rfl := Option.some.inj (h.symm.trans hend)
    exact .cancelled hhalt hlt hcancel
  · obtain rfl := Option.some.inj (h.symm.trans hend)
    exact .faulted fault hhalt hlt hcancel hreport
  · cases h.symm.trans hend

/-- An ending has its reason. -/
theorem EndsWith.stops (h : engine.EndsWith s m cap cancel n ending) :
    engine.Stops s m cap cancel n := by
  cases h with
  | blocked hhalt _ => exact .halted hhalt
  | halted hhalt _ => exact .halted hhalt
  | stepCap _ hle => exact .capReached hle
  | cancelled _ _ hcancel => exact .cancelled hcancel
  | faulted fault _ _ _ hreport => exact .faulted fault hreport

/-- Before a call that faults, no other reason was found. -/
theorem EndsWith.of_isFault (h : engine.EndsWith s m cap cancel n ending)
    (hfault : ending.isFault = true) :
    engine.isHalted (engine.stateAfter s m n) (engine.machineAfter s m n) = false ∧ n < cap ∧
      cancel n (engine.stateAfter s m n) = false := by
  cases h with
  | faulted fault hhalt hlt hcancel _ => exact ⟨hhalt, hlt, hcancel⟩
  | blocked | halted | stepCap | cancelled => cases hfault

/-- Without an ending there is no reason for one. -/
theorem not_stops_of_endingAfter? (h : engine.endingAfter? s m cap cancel n = none) :
    ¬ engine.Stops s m cap cancel n := by
  obtain ⟨hhalt, hlt, hcancel, access, hreport⟩ := endingAfter?_eq_none_iff.mp h
  intro hstops
  cases hstops with
  | halted h => rw [hhalt] at h; cases h
  | capReached h => omega
  | cancelled h => rw [hcancel] at h; cases h
  | faulted fault h => rw [hreport] at h; cases h

end Reasons

/-! ### The watched engine -/

/-- The engine that also keeps the state and the machine of every call of its step, in order. -/
def watched : Engine (σ × List (σ × Machine)) φ where
  reset w := (((engine.reset w.1).1, w.2), (engine.reset w.1).2)
  step w m :=
    let (result, s, m') := engine.step w.1 m
    (result, (s, w.2 ++ [(w.1, m)]), m')
  isHalted w m := engine.isHalted w.1 m

/-- What the first `n` calls are made on. -/
def calls (n : Nat) : List (σ × Machine) := (List.range n).map (engine.after s m)

theorem calls_succ (n : Nat) :
    engine.calls s m (n + 1) = engine.calls s m n ++ [engine.after s m n] := by
  rw [calls, List.range_succ, List.map_append, calls]
  rfl

theorem after_watched (n : Nat) :
    engine.watched.after (s, []) m n
      = ((engine.stateAfter s m n, engine.calls s m n), engine.machineAfter s m n) := by
  induction n with
  | zero => rfl
  | succ n ih =>
    rw [after, ih, calls_succ]
    rfl

theorem stateAfter_watched (n : Nat) :
    engine.watched.stateAfter (s, []) m n = (engine.stateAfter s m n, engine.calls s m n) :=
  congrArg Prod.fst (engine.after_watched s m n)

theorem watched_wraps : engine.watched.Wraps engine Prod.fst where
  reset_eq _ := rfl
  step_eq _ _ := rfl
  isHalted_eq _ _ := rfl

end Engine

/-- The cancel flag of a watched engine. -/
def CancelSignal.watched {σ : Type} (cancel : CancelSignal σ) :
    CancelSignal (σ × List (σ × Machine)) :=
  fun n w => cancel n w.1

variable {σ φ : Type} [ToString φ]

/-- **Watching the engine makes no difference to a recording**: the timeline is the same, and so
is the engine's state in the end.  The calls are one for each step, and one more if it faults. -/
theorem record_watched (engine : Engine σ φ) (config : Config) (cancel : CancelSignal σ) (s : σ)
    (initial : Machine) :
    record engine.watched config cancel.watched (s, []) initial
      = ((record engine config cancel s initial).1, (record engine config cancel s initial).2,
          engine.calls s initial ((record engine config cancel s initial).1.totalSteps
            + (record engine config cancel s initial).1.ending.isFault.toNat)) := by
  have hwraps : record engine config cancel s initial
      = ((record engine.watched config cancel.watched (s, []) initial).1,
          (record engine.watched config cancel.watched (s, []) initial).2.1) :=
    engine.watched_wraps.record_eq (s, []) initial config cancel
  -- the watched engine's state at the end is what holds the calls
  have hstate := (isRecording_record engine.watched config cancel.watched (s, []) initial).state_eq
  rw [Engine.stateAfter_watched] at hstate
  rw [hwraps]
  refine Prod.ext rfl (Prod.ext rfl ?_)
  rw [hstate]
  rfl

/-- **When and why a recording stops**, for every engine, cap and cancel flag.  It has as many
steps as it takes until there is a reason to end, never more than the cap, and its ending is that
of the first reason.  The engine is called once for each step and once more if that call faults,
each time on a machine that has not halted, with steps left and the flag down. -/
theorem record_stops (engine : Engine σ φ) (config : Config) (cancel : CancelSignal σ) (s : σ)
    (initial : Machine) :
    let t := (record engine config cancel s initial).1
    let calls := t.totalSteps + t.ending.isFault.toNat
    IsLeast {n | engine.Stops s initial config.stepCap cancel n} t.totalSteps ∧
      t.totalSteps ≤ config.stepCap ∧
      engine.EndsWith s initial config.stepCap cancel t.totalSteps t.ending ∧
      record engine.watched config cancel.watched (s, []) initial
        = (t, (record engine config cancel s initial).2, engine.calls s initial calls) ∧
      ∀ n < calls,
        engine.isHalted (engine.stateAfter s initial n) (engine.machineAfter s initial n) = false ∧
          n < config.stepCap ∧ cancel n (engine.stateAfter s initial n) = false := by
  intro t calls
  have hrec := isRecording_record engine config cancel s initial
  have hends : engine.EndsWith s initial config.stepCap cancel t.totalSteps t.ending :=
    Engine.endsWith_of_endingAfter? hrec.ends
  have hleast : IsLeast {n | engine.Stops s initial config.stepCap cancel n} t.totalSteps := by
    refine ⟨hends.stops, fun n hstops => Nat.not_lt.mp fun hlt => ?_⟩
    exact Engine.not_stops_of_endingAfter? (hrec.goes_on n (Nat.zero_le n) hlt) hstops
  refine ⟨hleast, hleast.2 (.capReached (Nat.le_refl _)), hends,
    record_watched engine config cancel s initial, fun n hn => ?_⟩
  by_cases hlt : n < t.totalSteps
  · -- in front of a step, the loop has looked at everything and found nothing
    obtain ⟨hhalt, hcap, hcancel, -⟩ :=
      Engine.endingAfter?_eq_none_iff.mp (hrec.goes_on n (Nat.zero_le n) hlt)
    exact ⟨hhalt, hcap, hcancel⟩
  · -- the call behind the last step has been made only if it faulted
    replace hn : n < t.totalSteps + t.ending.isFault.toNat := hn
    have hfault : t.ending.isFault = true := by
      cases h : t.ending.isFault with
      | true => rfl
      | false =>
        rw [h] at hn
        exact absurd hn hlt
    rw [hfault, Bool.toNat_true] at hn
    obtain rfl : n = t.totalSteps := by omega
    exact hends.of_isFault hfault

/-- An engine whose first step halts the machine and raises the flag, and whose next one, if it
were made, would fault. -/
def signingOff : Engine Bool String where
  reset _ := (false, .zero)
  step
    | false, m => (.ok {}, true, { m with halted := true })
    | true, m => (.error "over", true, m)
  isHalted _ m := m.halted

/-- With the cap reached, the flag up and a fault to come, the run has still halted, after one
call on a machine that had not. -/
theorem record_stops_signingOff :
    let t := (record signingOff ⟨1, .writeSet⟩ (fun _ raised => raised) false .zero).1
    t.totalSteps = 1 ∧ t.ending = .halted ∧
      (record signingOff.watched ⟨1, .writeSet⟩ (CancelSignal.watched fun _ raised => raised)
        (false, []) .zero).2.2 = [(false, .zero)] ∧
      0 < t.totalSteps + t.ending.isFault.toNat ∧
      signingOff.isHalted (signingOff.stateAfter false .zero 0)
        (signingOff.machineAfter false .zero 0) = false := by
  intro t
  obtain ⟨-, -, -, hwatched, hcalls⟩ :=
    record_stops signingOff ⟨1, .writeSet⟩ (fun _ raised => raised) false .zero
  have hsteps : t.totalSteps = 1 := by decide
  have hending : t.ending = .halted := by decide
  have hpos : 0 < t.totalSteps + t.ending.isFault.toNat := by rw [hsteps]; decide
  refine ⟨hsteps, hending, ?_, hpos, (hcalls 0 hpos).1⟩
  rw [hwatched]
  show signingOff.calls false .zero (t.totalSteps + t.ending.isFault.toNat) = _
  rw [hsteps, hending]
  rfl

end Hindsight
