import Hindsight.Proofs.Interaction
import Hindsight.Proofs.Timeline.Replay

/-!
# Reusing a buffer

A machine is large, and so somebody who looks at many steps brings one buffer to each of them in
turn.  The buffer is overwritten in its own storage, by a copy of the initial snapshot and the
deltas behind it.  Nothing of what it held before is left: after a call that succeeds it is the
machine of the step asked for, on whichever timeline, and a call that fails does not touch it.  So
the buffer always holds what the last call that succeeded has asked for.

## Main definitions

* `StepRequest`, `StepRequest.serve` — a call, and what it does to the buffer.
* `StepRequest.Fills` — what a call has to do.
* `lastShown?` — the machine that the last successful call of a list has asked for.

## Main results

* `Timeline.stateInto_eq` — a call is a fresh reconstruction, put into the buffer.
* `after_serve_eq` — what a buffer holds after a list of calls.
* `stateInto_forgets` — **reusing a buffer changes nothing.**
-/

namespace Hindsight

/-- **A call is a fresh reconstruction**, put into the buffer if there is such a step. -/
theorem Timeline.stateInto_eq (t : Timeline) (step : Nat) (buffer : Machine) :
    t.stateInto step buffer
      = match t.stateAt step with
        | .ok m => (.ok (), m)
        | .error e => (.error e, buffer) := by
  rw [stateInto, stateAt]
  split
  · rw [Machine.copyFrom_eq]
  · rfl

/-- A call: a timeline and one of its steps, which need not exist. -/
structure StepRequest where
  timeline : Timeline
  step : Nat

namespace StepRequest

/-- The machine that the call asks for, if there is such a step. -/
def machine? (r : StepRequest) : Option Machine := (r.timeline.stateAt r.step).toOption

/-- Makes the call on a buffer. -/
def serve (buffer : Machine) (r : StepRequest) : Except StepError Unit × Machine :=
  r.timeline.stateInto r.step buffer

/-- What a call has to do. -/
structure Fills (r : StepRequest) (before : Machine) (result : Except StepError Unit)
    (after : Machine) : Prop where
  /-- A step that exists is shown, whatever the buffer held before. -/
  shown : r.step ≤ r.timeline.totalSteps →
    result = .ok () ∧ r.timeline.stateAt r.step = .ok after
  /-- A step that does not exist is refused, and the buffer is left alone. -/
  refused : r.timeline.totalSteps < r.step →
    result = .error (.outOfRange r.step r.timeline.totalSteps) ∧ after = before

theorem fills_serve (r : StepRequest) (buffer : Machine) :
    r.Fills buffer (serve buffer r).1 (serve buffer r).2 := by
  rw [serve, Timeline.stateInto_eq]
  constructor
  · intro hle
    rw [Timeline.stateAt_of_le hle]
    exact ⟨rfl, rfl⟩
  · intro hlt
    rw [Timeline.stateAt_of_lt hlt]
    exact ⟨rfl, rfl⟩

/-- The buffer keeps its machine unless it gets another one. -/
theorem serve_snd (buffer : Machine) (r : StepRequest) :
    (serve buffer r).2 = r.machine?.getD buffer := by
  rw [serve, Timeline.stateInto_eq, machine?]
  cases r.timeline.stateAt r.step <;> rfl

end StepRequest

open StepRequest

/-- The machine that the last successful call of a list has asked for. -/
def lastShown? (requests : List StepRequest) : Option Machine :=
  requests.reverse.findSome? machine?

theorem lastShown?_cons (r : StepRequest) (requests : List StepRequest) :
    lastShown? (r :: requests) = (lastShown? requests).or r.machine? := by
  rw [lastShown?, List.reverse_cons, List.findSome?_append, lastShown?]
  cases h : r.machine? <;> simp [h]

/-- **What a buffer holds after a list of calls**: the machine of the last one that succeeded, or
what it held at first. -/
theorem after_serve_eq (buffer : Machine) (requests : List StepRequest) :
    Interaction.after serve buffer requests = (lastShown? requests).getD buffer := by
  induction requests generalizing buffer with
  | nil => rfl
  | cons r requests ih =>
    rw [Interaction.after_cons, ih, serve_snd, lastShown?_cons]
    cases lastShown? requests <;> rfl

/-- **Reusing a buffer changes nothing.**  In a sequence of calls on one buffer, whatever that held
at first and whichever timelines and steps are asked for, every call for a step that exists succeeds
and leaves the buffer equal to the machine that a fresh reconstruction gives, and every other call
is refused with the step and the number of steps and leaves the buffer as it was.  At the end it
holds the machine of the last call that succeeded. -/
theorem stateInto_forgets (buffer : Machine) (requests : List StepRequest) :
    (∀ (i : Nat) (r : StepRequest), requests[i]? = some r →
      ∃ result, (Interaction.answers serve buffer requests)[i]? = some result ∧
        r.Fills (Interaction.after serve buffer (requests.take i)) result
          (Interaction.after serve buffer (requests.take (i + 1)))) ∧
      Interaction.after serve buffer requests = (lastShown? requests).getD buffer := by
  refine ⟨fun i r hr => ?_, after_serve_eq buffer requests⟩
  refine ⟨_, Interaction.getElem?_answers hr buffer, ?_⟩
  rw [Interaction.after_take_add_one hr]
  exact r.fills_serve _

/-- A step that writes a register. -/
def writingStep : Delta where
  origin := 0
  after := { pc := 1, count := 1 }
  registers := ⟨[(1, 11)], List.pairwise_singleton _ _⟩
  memory := ∅
  fetched := ∅
  stored := ∅

/-- A timeline of this one step. -/
def oneStep : Timeline where
  initial := Machine.zero.setMem 128 3
  deltas := [writingStep]
  ending := .halted

/-- A timeline without steps. -/
def atRest : Timeline where
  initial := Machine.zero.setReg 2 7
  deltas := []
  ending := .blocked

/-- A buffer with something in it is brought to a step that exists, to one that does not, and then
to the start of another timeline. -/
theorem stateInto_forgets_dirty :
    let buffer := (Machine.zero.setReg 5 99).setMem 9 9
    let requests : List StepRequest := [⟨oneStep, 1⟩, ⟨oneStep, 2⟩, ⟨atRest, 0⟩]
    let held := fun n => Interaction.after serve buffer (requests.take n)
    oneStep.stateAt 1 = .ok (held 1) ∧
      (held 1).reg 1 = 11 ∧ (held 1).reg 5 = 0 ∧ (held 1).mem 9 = 0 ∧ (held 1).mem 128 = 3 ∧
      (Interaction.answers serve buffer requests)[1]? = some (.error (.outOfRange 2 1)) ∧
      held 2 = held 1 ∧ held 3 = atRest.initial := by
  intro buffer requests held
  obtain ⟨hcalls, hlast⟩ := stateInto_forgets buffer requests
  obtain ⟨first, -, hfirst⟩ := hcalls 0 ⟨oneStep, 1⟩ rfl
  obtain ⟨second, hsecond, hrefused⟩ := hcalls 1 ⟨oneStep, 2⟩ rfl
  have hshown : oneStep.stateAt 1 = .ok (held 1) := (hfirst.shown (by decide)).2
  obtain ⟨hresult, hkept⟩ := hrefused.refused (by decide)
  -- the machine is that of one delta, whatever was in the buffer
  have hstep : held 1 = writingStep.apply oneStep.initial :=
    Except.ok.inj (hshown.symm.trans (Timeline.stateAt_eq_ok (by decide)))
  have hreg : ∀ r, (held 1).reg r = if r = 1 then 11 else 0 := by
    intro r
    have hlisted : writingStep.registers.find? r = if r = 1 then some 11 else none := by
      revert r
      decide
    rw [hstep, Delta.reg_apply, hlisted]
    split
    · rfl
    · exact Machine.reg_zero r
  have hmem : ∀ a, (held 1).mem a = if 128 = a then 3 else 0 := by
    intro a
    rw [hstep, Delta.mem_apply, ← Machine.mem_zero a]
    exact Machine.mem_setMem Machine.zero 128 a 3
  exact ⟨hshown, hreg 1, hreg 5, hmem 9, hmem 128, hsecond.trans (congrArg some hresult), hkept,
    hlast⟩

end Hindsight
