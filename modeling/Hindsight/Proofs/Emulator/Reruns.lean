import Hindsight.Emulator.Toolchain
import Hindsight.Proofs.Emulator.Steps
import Hindsight.Proofs.Timeline.Reruns

/-!
# Runs on the emulator can be repeated

The emulator carries two things from run to run: how far the input has been read, and the tally.
Every reset rewinds the one and clears the other, and a step never changes the words that there
are to be read.  Whatever a session over it has been asked, a run gives what the first run of a
fresh session gives.

## Main results

* `Emulator.rewinds_engine` — a reset takes back all steps.
* `rerun_eq_first_run` — **no run depends on what a session did before.**
-/

namespace Hindsight
namespace Emulator

/-- Taking note of an instruction keeps what there is to be rewound to. -/
@[simp] theorem rewind_note (e : Emulator) (op : Opcode) (consumes : Bool) :
    (e.note op consumes).rewind = e.rewind := by
  cases consumes <;> rfl

theorem rewind_step (e : Emulator) (m : Machine) : (e.step m).2.1.rewind = e.rewind := by
  cases h : e.step m with
  | mk result rest =>
    obtain ⟨e', m'⟩ := rest
    cases result with
    | error fault => rw [(step_error h).1]
    | ok access =>
      obtain ⟨i, effect, -, -, -, rfl, -⟩ := step_eq_ok_iff.mp h
      exact rewind_note e i.opcode effect.consumes

/-- **A reset takes back all steps.** -/
theorem rewinds_engine : engine.Rewinds where
  reset_step e m := congrArg (·, Machine.zero) (e.rewind_step m)
  reset_reset _ := rfl

end Emulator

/-- **No run depends on what a session did before.**  After any requests, runs that halted,
blocked, faulted, reached the cap, were cancelled or did not assemble among them, a run gives the
same timeline or the same error as the first run of a fresh session with the same input, module
name and configuration.  If it is a timeline, the sessions are the same from then on, with their
tallies and what is left of the input. -/
theorem rerun_eq_first_run (wording : SyntaxWording) (words : List Word) (config : Config)
    (moduleName : String) (requests : List (Session.Request Emulator))
    (cancel : CancelSignal Emulator) (source : String) :
    let s := Interaction.after (Session.serve (machineTools wording))
      { engine := .ofInput words, config, moduleName } requests
    let fresh : Session Emulator := { engine := .ofInput words, config := s.config, moduleName }
    (s.run (machineTools wording) cancel source).1
        = (fresh.run (machineTools wording) cancel source).1 ∧
      ∀ t, (s.run (machineTools wording) cancel source).1 = .ok t →
        (s.run (machineTools wording) cancel source).2
          = (fresh.run (machineTools wording) cancel source).2 := by
  -- the toolchain is named, so that no unifier has to find it by unfolding the engine
  have hrewinds : (machineTools wording).engine.Rewinds := Emulator.rewinds_engine
  exact Session.run_after hrewinds (.ofInput words) config moduleName requests cancel source

/-- Reads a word and halts. -/
def readOnce : String := "lea R1,1[R0]\ntrap R1,R2,R0\ntrap R0,R0,R0"

/-- Reads a word after the other. -/
def readForever : String := "lea R1,1[R0]\nagain: trap R1,R2,R0\njump again"

/-- The session after a run that blocked, one that did not assemble, and a move. -/
def spentSession : Session Emulator :=
  Interaction.after (Session.serve (machineTools plainWording)) { engine := .ofInput [42] }
    [.run .never readForever, .run .never "bogus", .cursor .next]

/-- The input has been used up, and is there again for the next run. -/
theorem rerun_eq_first_run_spentSession :
    spentSession.engine.input.remaining = 0 ∧
      ∃ t, (spentSession.run (machineTools plainWording) .never readOnce).1 = .ok t ∧
        t.totalSteps = 3 ∧ t.ending = .halted ∧
        (spentSession.run (machineTools plainWording) .never readOnce).2
          = (({ engine := .ofInput [42], config := spentSession.config } : Session Emulator).run
              (machineTools plainWording) .never readOnce).2 := by
  obtain ⟨-, hsession⟩ := rerun_eq_first_run plainWording [42] {} "main"
    [.run .never readForever, .run .never "bogus", .cursor .next] .never readOnce
  have hspent : spentSession.engine.input.remaining = 0 := by decide +kernel
  have hresult : (spentSession.run (machineTools plainWording) .never readOnce).1.toOption.map
      (fun t => (t.totalSteps, t.ending)) = some (3, .halted) := by decide +kernel
  refine ⟨hspent, ?_⟩
  cases ht : (spentSession.run (machineTools plainWording) .never readOnce).1 with
  | error e => rw [ht] at hresult; cases hresult
  | ok t =>
    rw [ht] at hresult
    obtain ⟨hsteps, hending⟩ := Prod.mk.inj (Option.some.inj hresult)
    exact ⟨t, rfl, hsteps, hending, hsession t ht⟩

end Hindsight
