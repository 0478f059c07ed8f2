import Hindsight.Proofs.Emulator.FastScan
import Hindsight.Proofs.Timeline.StepCap

/-!
# A recording on the emulator can be resumed

A recording that stopped at its cap can be taken up again from the machine that is reconstructed
at its last step.  The emulator reports every word that it stores, so that this machine is its
own, under either memory scan; and all that it keeps besides the machine is the input and the
tally, which the second recording takes over from the first.  A cancel flag goes on to show what
it would have shown.

## Main results

* `record_resume` — **two recordings in a row are one**.
-/

namespace Hindsight

/-- **Two recordings in a row are one.**  If a recording on the emulator ends at its cap `m`, the
machine at step `m` can be reconstructed, and a recording with cap `n` that starts from it, with
the emulator as it then stands, completes the first one: a single recording with cap `m + n` has
the deltas of both, the ending of the second, and leaves the same emulator, with its tally and
what is left of the input.  This is so whatever a cancel flag shows, or if there is none, since
`CancelSignal.never` shows the same at all times. -/
theorem record_resume (cancel : CancelSignal Emulator) (e : Emulator) (initial : Machine)
    (scan : MemoryScan) (m n : Nat) :
    let first := record Emulator.engine ⟨m, scan⟩ cancel e initial
    first.1.ending = .stepCap →
      ∃ seam, first.1.stateAt m = .ok seam ∧
        let rest := record Emulator.engine ⟨n, scan⟩ (cancel.later m) first.2 seam
        record Emulator.engine ⟨m + n, scan⟩ cancel e initial
          = ({ initial, deltas := first.1.deltas ++ rest.1.deltas, ending := rest.1.ending },
              rest.2) := by
  intro first hending
  have hfirst := isRecording_record Emulator.engine ⟨m, scan⟩ cancel e initial
  replace hfirst : IsRecording Emulator.engine ⟨m, scan⟩ cancel e initial 0 first.1.deltas
      .stepCap first.2 := hending ▸ hfirst
  obtain ⟨hsteps, -⟩ := hfirst.of_stepCap
  replace hsteps : m ≤ first.1.totalSteps := Nat.le_of_eq hsteps.symm
  have hseam : first.1.stateAt m = .ok (Emulator.engine.machineAfter e initial m) :=
    stateAt_record_of_reportsStores Emulator.reportsStores_engine hsteps
  have hexact : Emulator.engine.replica scan e initial m
      = Emulator.engine.machineAfter e initial m := by
    have hreplica := stateAt_record hsteps
    exact Except.ok.inj (hreplica.symm.trans hseam)
  refine ⟨_, hseam, ?_⟩
  intro rest
  have hrest := isRecording_record Emulator.engine ⟨n, scan⟩ (cancel.later m) first.2
    (Emulator.engine.machineAfter e initial m)
  exact record_eq (hfirst.resume hexact hrest)

/-- A machine that reads words for ever and stores each of them at address 50. -/
def keepingLast : Machine :=
  { Machine.zero with
    memory := Memory.zero.load [0xf100, 1, 0xd120, 0xf202, 50, 0xf003, 2] }

/-- Cut off after the first word has been stored, and taken up again until it waits for a third
one. -/
theorem record_resume_keepingLast :
    let first := record Emulator.engine ⟨4, .writeSet⟩ .never (.ofInput [7, 8]) keepingLast
    let whole := record Emulator.engine ⟨4 + 10, .writeSet⟩ .never (.ofInput [7, 8]) keepingLast
    first.1.ending = .stepCap ∧ first.2.input.remaining = 1 ∧
      whole.1.totalSteps = 8 ∧ whole.1.ending = .blocked ∧ whole.2.input.remaining = 0 ∧
      ∃ seam, first.1.stateAt 4 = .ok seam ∧
        whole.1.deltas = first.1.deltas
          ++ (record Emulator.engine ⟨10, .writeSet⟩ .never first.2 seam).1.deltas ∧
        whole.2 = (record Emulator.engine ⟨10, .writeSet⟩ .never first.2 seam).2 := by
  intro first whole
  have hending : first.1.ending = .stepCap := by decide +kernel
  obtain ⟨seam, hseam, hwhole⟩ :=
    record_resume .never (.ofInput [7, 8]) keepingLast .writeSet 4 10 hending
  refine ⟨hending, by decide +kernel, by decide +kernel, by decide +kernel, by decide +kernel,
    seam, hseam, ?_, ?_⟩
  · exact congrArg (fun r => r.1.deltas) hwhole
  · exact congrArg (fun r => r.2) hwhole

end Hindsight
