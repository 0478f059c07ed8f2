import Hindsight.Proofs.Emulator.FastScan

/-!
# Running with and without a recording

`Emulator.run` executes without keeping deltas.  Its loop looks at the bound before it looks
at the machine, and it ends on a fault with whatever the step had left.  It still makes the
calls that a recording makes: both go on exactly while the recording finds no ending.

## Main results

* `Emulator.runFrom_of_isRecording` — the loop in lockstep with a recording.
* `run_agrees_with_record` — **running and recording have the same outcome.**
-/

namespace Hindsight
namespace Emulator

variable {e e' : Emulator} {initial : Machine} {scan : MemoryScan} {limit fuel n : Nat}
  {deltas : List Delta} {ending : Ending}

/-- What the direct loop answers where a recording ends: the number of steps, or the fault of the
call that would have made the next one. -/
def Answers (e : Emulator) (initial : Machine) (n : Nat) (ending : Ending)
    (result : Except Fault Nat) : Prop :=
  ((∀ message, ending ≠ .faulted message) ∧ result = .ok n) ∨
    ∃ fault, engine.reportAfter e initial n = .error fault ∧ ending = .faulted fault.message ∧
      result = .error fault

/-- Where a recording goes on, so does the direct loop. -/
theorem runFrom_of_none (h : engine.endingAfter? e initial limit .never n = none) :
    runFrom n (fuel + 1) (engine.stateAfter e initial n) (engine.machineAfter e initial n)
      = runFrom (n + 1) fuel (engine.stateAfter e initial (n + 1))
          (engine.machineAfter e initial (n + 1)) := by
  obtain ⟨hhalt, -, -, access, hreport⟩ := Engine.endingAfter?_eq_none_iff.mp h
  replace hhalt : isHalted (engine.machineAfter e initial n) = false := hhalt
  rw [runFrom, if_neg (by simp [hhalt]), step_stateAfter, hreport]

/-- Where a recording ends, so does the direct loop.  It has made the same calls. -/
theorem runFrom_of_some (hlimit : n + fuel = limit)
    (h : engine.endingAfter? e initial limit .never n = some ending) :
    ∃ result, Answers e initial n ending result ∧
      runFrom n fuel (engine.stateAfter e initial n) (engine.machineAfter e initial n)
        = (result, engine.after e initial (n + ending.isFault.toNat)) := by
  rcases engine.endingAfter?_cases e initial limit .never n with
    ⟨hhalt, hend⟩ | ⟨hhalt, ⟨hle, hend⟩ | ⟨hlt, ⟨hcancel, -⟩ |
      ⟨-, ⟨fault, hreport, hend⟩ | ⟨access, -, hend⟩⟩⟩⟩
  · -- halted: the direct loop may have reached its bound as well, to the same effect
    obtain rfl := Option.some.inj (h.symm.trans hend)
    replace hhalt : isHalted (engine.machineAfter e initial n) = true := hhalt
    have hrun : runFrom n fuel (engine.stateAfter e initial n) (engine.machineAfter e initial n)
        = (.ok n, engine.after e initial n) := by
      cases fuel with
      | zero => rfl
      | succ fuel => rw [runFrom, if_pos hhalt]; rfl
    cases (engine.machineAfter e initial n).blocked <;>
      exact ⟨.ok n, .inl ⟨by simp, rfl⟩, hrun⟩
  · obtain rfl := Option.some.inj (h.symm.trans hend)
    obtain rfl : fuel = 0 := by omega
    exact ⟨.ok n, .inl ⟨by simp, rfl⟩, rfl⟩
  · -- the flag that is never raised
    cases hcancel
  · obtain rfl := Option.some.inj (h.symm.trans hend)
    obtain ⟨fuel, rfl⟩ : ∃ k, fuel = k + 1 := ⟨fuel - 1, by omega⟩
    refine ⟨.error fault, .inr ⟨fault, hreport, rfl, rfl⟩, ?_⟩
    replace hhalt : isHalted (engine.machineAfter e initial n) = false := hhalt
    rw [runFrom, if_neg (by simp [hhalt]), step_stateAfter, hreport]
    rfl
  · cases h.symm.trans hend

/-- **The two loops in lockstep.**  From the machine of any recorded step on, the direct loop
makes the calls that the recording makes, and answers with the number of steps or the fault. -/
theorem runFrom_of_isRecording
    (h : IsRecording engine ⟨limit, scan⟩ .never e initial 0 deltas ending e')
    (hlimit : n + fuel = limit) (hn : n ≤ deltas.length) :
    ∃ result, Answers e initial deltas.length ending result ∧
      runFrom n fuel (engine.stateAfter e initial n) (engine.machineAfter e initial n)
        = (result, engine.after e initial (deltas.length + ending.isFault.toNat)) := by
  induction fuel generalizing n with
  | zero =>
    rcases Nat.lt_or_eq_of_le hn with hlt | rfl
    · -- no calls are left, but the recording goes on only below the cap
      have hcap : n < limit := Engine.lt_of_endingAfter?_eq_none (h.goes_on n (Nat.zero_le n) hlt)
      omega
    · exact runFrom_of_some hlimit h.ends
  | succ fuel ih =>
    rcases Nat.lt_or_eq_of_le hn with hlt | rfl
    · rw [runFrom_of_none (h.goes_on n (Nat.zero_le n) hlt)]
      exact ih (by omega) hlt
    · exact runFrom_of_some hlimit h.ends

/-- What a faulting call leaves of the machine it was given. -/
theorem machineAfter_succ_of_error {fault : Fault}
    (h : engine.reportAfter e initial n = .error fault) :
    ∃ pc ir status, engine.machineAfter e initial (n + 1)
      = (engine.machineAfter e initial n).withFetch pc ir status :=
  (step_error (step_of_reportAfter h)).2

end Emulator

/-- **Running and recording have the same outcome**, for every emulator, machine, bound and scan.
Without a fault the run answers with the number of recorded steps and leaves the machine of the
last one.  With a fault it answers with the recorded one, and the machine it leaves differs from
the last recorded one in the program counter, the instruction register and the status word at
most.  The emulators end equal, input and tally included. -/
theorem run_agrees_with_record (e : Emulator) (initial : Machine) (limit : Nat)
    (scan : MemoryScan) :
    let t := (record Emulator.engine ⟨limit, scan⟩ .never e initial).1
    let run := e.run initial limit
    (((∀ message, t.ending ≠ .faulted message) ∧ run.1 = .ok t.totalSteps ∧
          t.stateAt t.totalSteps = .ok run.2.2) ∨
        ∃ fault last pc ir status, t.ending = .faulted (Fault.message fault) ∧
          run.1 = .error fault ∧ t.stateAt t.totalSteps = .ok last ∧
          run.2.2 = last.withFetch pc ir status) ∧
      run.2.1 = (record Emulator.engine ⟨limit, scan⟩ .never e initial).2 := by
  intro t run
  have hrec := isRecording_record Emulator.engine ⟨limit, scan⟩ .never e initial
  have hlast : t.stateAt t.totalSteps
      = .ok (Emulator.engine.machineAfter e initial t.totalSteps) :=
    stateAt_record_of_reportsStores Emulator.reportsStores_engine (Nat.le_refl _)
  obtain ⟨result, hanswers, hrun⟩ :=
    Emulator.runFrom_of_isRecording hrec (Nat.zero_add limit) (Nat.zero_le _)
  replace hrun : run = (result,
    Emulator.engine.after e initial (t.totalSteps + t.ending.isFault.toNat)) := hrun
  constructor
  · rcases hanswers with ⟨hending, hresult⟩ | ⟨fault, hreport, hending, hresult⟩
    · -- without a fault there is no call behind the last step
      have hcalls : t.ending.isFault = false := by
        cases hcase : t.ending with
        | faulted message => exact absurd hcase (hending message)
        | halted | blocked | stepCap | cancelled => rfl
      refine .inl ⟨hending, by rw [hrun, hresult]; rfl, ?_⟩
      rw [hlast, hrun, hcalls]
      rfl
    · replace hending : t.ending = .faulted fault.message := hending
      obtain ⟨pc, ir, status, hleft⟩ := Emulator.machineAfter_succ_of_error hreport
      refine .inr ⟨fault, _, pc, ir, status, hending, by rw [hrun, hresult], hlast, ?_⟩
      rw [hrun, hending]
      exact hleft
  · rw [hrun, hrec.state_eq]
    rfl

/-- A word that is no instruction stops both, and leaves the counter behind it. -/
example : ((Emulator.ofInput []).run (Machine.zero.setMem 0 0x8000) 3).1
      = .error (.invalidInstruction 0x8000 0) ∧
    ((Emulator.ofInput []).run (Machine.zero.setMem 0 0x8000) 3).2.2.pc = 1 := by
  decide +kernel

end Hindsight
