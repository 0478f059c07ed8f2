import Hindsight.Emulator.Toolchain
import Hindsight.Proofs.Emulator.Steps
import Hindsight.Proofs.Timeline.Programs
import Hindsight.Proofs.Timeline.Reconstruction

/-!
# The emulator reports truthfully

Whatever a step of the emulator changes is in its report, and the report is short.  So the
write-set scan, which looks at the reported words only, records the same timelines as the full
scan, and their deltas are sparse.

## Main results

* `Emulator.access_step` — what is changed is reported, and little is.
* `Emulator.sparse_of_mem_deltas` — every delta lists at most two registers and one word.
* `emulator_scans_agree` — **nothing is lost by the write-set scan.**
-/

namespace Hindsight
namespace Emulator

/-- **A truthful and short report.** -/
theorem access_step {e e' : Emulator} {m m' : Machine} {access : Access}
    (h : e.step m = (.ok access, e', m')) :
    (∀ r, m.reg r ≠ m'.reg r → access.written.contains r = true) ∧
      (∀ a, m.mem a ≠ m'.mem a → a ∈ access.addresses) ∧
      access.addresses.length ≤ 1 ∧ access.written.size ≤ 2 ∧
      access.written.contains 0 = false ∧ m'.reg 0 = m.reg 0 := by
  obtain ⟨i, effect, hi, heffect, rfl, rfl, rfl⟩ := step_eq_ok_iff.mp h
  have hkeep : ∀ r : Reg, effect.access.written.contains r = false →
      ((counted effect).apply m).reg r = m.reg r :=
    fun r hr => (counted effect).reg_apply_of_contains_eq_false m hr
  have hzero : effect.access.written.contains (0 : Reg) = false := by
    rw [← Bool.not_eq_true, effect.contains_written_access]
    exact fun hcon => hcon.1 rfl
  refine ⟨fun r hne => ?_, (counted effect).covers_access m, effect.length_addresses_access_le,
    ?_, hzero, hkeep 0 hzero⟩
  · by_contra hcon
    exact hne (hkeep r (Bool.not_eq_true _ ▸ hcon)).symm
  · exact Nat.le_trans effect.size_written_access_le (Instruction.length_writes_le heffect)

theorem reportsStores_engine : engine.ReportsStores :=
  fun _ _ _ _ _ h => (access_step h).2.1

/-- One step's delta is sparse, under the write-set scan. -/
theorem sparse_deltaAfter {e : Emulator} {initial : Machine} {k : Nat}
    (hok : ∀ n ≤ k, ∃ access, engine.reportAfter e initial n = .ok access) :
    (engine.deltaAfter .writeSet e initial k).registers.size ≤ 2 ∧
      (engine.deltaAfter .writeSet e initial k).memory.size ≤ 1 := by
  obtain ⟨access, hreport⟩ := hok k (Nat.le_refl k)
  have hcovers : engine.CoversSteps e initial k :=
    reportsStores_engine.coversSteps fun n hn => hok n (Nat.le_of_lt hn)
  -- the replica is the machine itself, so the delta is the difference that the step made
  rw [Engine.deltaAfter, Engine.replica_writeSet_of_coversSteps hcovers,
    Engine.accessInto_succ hreport]
  obtain ⟨hregs, -, haddresses, hwritten, -, -⟩ := access_step (step_of_reportAfter hreport)
  exact ⟨Nat.le_trans (Delta.size_registers_between_le hregs) hwritten,
    Nat.le_trans (Delta.size_memory_between_writeSet_le _ _ _) haddresses⟩

/-- The deltas of a recording are sparse, under either scan. -/
theorem sparse_of_mem_deltas {cap : Nat} {scan : MemoryScan} {cancel : CancelSignal Emulator}
    {e : Emulator} {initial : Machine} {d : Delta}
    (hd : d ∈ (record engine ⟨cap, scan⟩ cancel e initial).1.deltas) :
    d.registers.size ≤ 2 ∧ d.memory.size ≤ 1 := by
  -- it is enough to look at the write-set scan, which records the same
  rw [record_scan reportsStores_engine cap scan .writeSet, deltas_record,
    Engine.mem_deltaLog] at hd
  obtain ⟨k, hk, rfl⟩ := hd
  exact sparse_deltaAfter fun n hn => exists_report_of_lt_totalSteps (Nat.lt_of_le_of_lt hn hk)

/-- The scan makes no difference to a run of a source text, whether it gives a timeline or not. -/
theorem runProgram_scan (wording : SyntaxWording) (cap : Nat) (scan scan' : MemoryScan)
    (cancel : CancelSignal Emulator) (moduleName source : String) (e : Emulator) :
    runProgram (machineTools wording) ⟨cap, scan⟩ cancel moduleName source e
      = runProgram (machineTools wording) ⟨cap, scan'⟩ cancel moduleName source e := by
  have hrecord : ∀ e initial,
      record (machineTools wording).engine ⟨cap, scan⟩ cancel e initial
        = record (machineTools wording).engine ⟨cap, scan'⟩ cancel e initial :=
    record_scan reportsStores_engine cap scan scan' cancel
  unfold runProgram
  simp only [hrecord]

end Emulator

/-- **Nothing is lost by the write-set scan.**  A step of the emulator reports every register and
every memory word that it changes, at most two of the one and one of the other, and never `R0`,
which it does not change either.  So both scans record one timeline, from any machine and from
any source text, and every delta of it is sparse. -/
theorem emulator_scans_agree :
    (∀ (e e' : Emulator) (m m' : Machine) (access : Access),
      e.step m = (.ok access, e', m') →
        (∀ r, m.reg r ≠ m'.reg r → access.written.contains r = true) ∧
        (∀ a, m.mem a ≠ m'.mem a → a ∈ access.addresses) ∧
        access.addresses.length ≤ 1 ∧ access.written.size ≤ 2 ∧
        access.written.contains 0 = false ∧ m'.reg 0 = m.reg 0) ∧
    (∀ cap cancel e initial,
      record Emulator.engine ⟨cap, .writeSet⟩ cancel e initial
          = record Emulator.engine ⟨cap, .full⟩ cancel e initial ∧
        ∀ d ∈ (record Emulator.engine ⟨cap, .writeSet⟩ cancel e initial).1.deltas,
          d.registers.size ≤ 2 ∧ d.memory.size ≤ 1) ∧
    (∀ wording cap cancel moduleName source e,
      runProgram (machineTools wording) ⟨cap, .writeSet⟩ cancel moduleName source e
          = runProgram (machineTools wording) ⟨cap, .full⟩ cancel moduleName source e ∧
        ∀ t, (runProgram (machineTools wording) ⟨cap, .writeSet⟩ cancel moduleName source e).1
            = .ok t →
          ∀ d ∈ t.deltas, d.registers.size ≤ 2 ∧ d.memory.size ≤ 1) := by
  refine ⟨fun e e' m m' access h => Emulator.access_step h, ?_, ?_⟩
  · intro cap cancel e initial
    exact ⟨record_scan Emulator.reportsStores_engine cap .writeSet .full cancel e initial,
      fun d hd => Emulator.sparse_of_mem_deltas hd⟩
  · intro wording cap cancel moduleName source e
    refine ⟨Emulator.runProgram_scan wording cap .writeSet .full cancel moduleName source e, ?_⟩
    intro t ht d hd
    obtain ⟨-, initial, -, rfl, -⟩ := runProgram_eq_ok_iff.mp (Prod.ext ht rfl)
    exact Emulator.sparse_of_mem_deltas hd

/-- A machine that is about to store the word in `R1` at address 5. -/
def aboutToStore : Machine := ((Machine.zero.setMem 0 0xf102).setMem 1 5).setReg 1 7

/-- The stored word is reported, and the store makes a sparse delta, recorded from the machine or
from a source text. -/
theorem emulator_scans_agree_aboutToStore :
    (∃ access e' m', (Emulator.ofInput []).step aboutToStore = (.ok access, e', m') ∧
      aboutToStore.mem 5 ≠ m'.mem 5 ∧ 5 ∈ access.addresses) ∧
    (∃ d ∈ (record Emulator.engine ⟨1, .writeSet⟩ .never (.ofInput []) aboutToStore).1.deltas,
      d.registers.size ≤ 2 ∧ d.memory.size ≤ 1) ∧
    (∃ t, (runProgram (machineTools plainWording) ⟨1, .writeSet⟩ .never "main" "store R0,5[R0]"
        (.ofInput [])).1 = .ok t ∧ ∃ d ∈ t.deltas, d.registers.size ≤ 2 ∧ d.memory.size ≤ 1) := by
  obtain ⟨hstep, hrecord, hrun⟩ := emulator_scans_agree
  refine ⟨?_, ?_, ?_⟩
  · have hreport : ((Emulator.ofInput []).step aboutToStore).1 = .ok ⟨.ofList [0, 1], ∅, [5]⟩ := by
      decide +kernel
    have hchanged : aboutToStore.mem 5 ≠ ((Emulator.ofInput []).step aboutToStore).2.2.mem 5 := by
      decide +kernel
    exact ⟨_, _, _, Prod.ext hreport rfl, hchanged,
      (hstep _ _ _ _ _ (Prod.ext hreport rfl)).2.1 5 hchanged⟩
  · obtain ⟨d, hd⟩ := List.exists_mem_of_length_pos (l := (record Emulator.engine
      ⟨1, .writeSet⟩ .never (.ofInput []) aboutToStore).1.deltas) (by decide +kernel)
    exact ⟨d, hd, (hrecord 1 .never (.ofInput []) aboutToStore).2 d hd⟩
  · have hok : (runProgram (machineTools plainWording) ⟨1, .writeSet⟩ .never "main" "store R0,5[R0]"
        (.ofInput [])).1.toOption.any (0 < ·.totalSteps) = true := by decide +kernel
    cases ht : (runProgram (machineTools plainWording) ⟨1, .writeSet⟩ .never "main" "store R0,5[R0]"
        (.ofInput [])).1 with
    | error err => rw [ht] at hok; cases hok
    | ok t =>
      rw [ht] at hok
      obtain ⟨d, hd⟩ := List.exists_mem_of_length_pos (of_decide_eq_true hok)
      have hruns := hrun plainWording 1 .never "main" "store R0,5[R0]" (.ofInput [])
      exact ⟨t, rfl, d, hd, hruns.2 t ht d hd⟩

end Hindsight
