import Hindsight.Proofs.Timeline.Deltas
import Hindsight.Proofs.Timeline.Recording
import Mathlib.Data.Nat.Find

/-!
# Reconstruction is exact as far as the engine's reports go

What replaying a timeline gives is compared with what the engine did, for every engine, also
one that misreports.  Under the full scan the two agree at every step.  Under the write-set
scan they agree on scalars and registers, and each memory word is as old as the last report
of its address: the replica is not brought up to date behind the engine's back, so a missed
store stays a difference until some step reports the address.

## Main definitions

* `Engine.lastReport` — the last step that reports an address.
* `Engine.CoversSteps` — an engine that reported every store of its first steps.

## Main results

* `stateAt_record_full` — **under the full scan every step is reconstructed exactly.**
* `stateAt_record_writeSet` — **what the write-set scan reconstructs.**
-/

namespace Hindsight
namespace Engine

variable {σ φ : Type} (engine : Engine σ φ) (s : σ) (m : Machine)

/-- The last step up to `n` whose report lists an address, and 0 if there is none. -/
def lastReport (a : Address) (n : Nat) : Nat :=
  Nat.findGreatest (fun k => a ∈ (engine.accessInto s m k).addresses) n

/-- Each of the first `n` steps has reported all memory words it changed. -/
def CoversSteps (n : Nat) : Prop :=
  ∀ k < n, (engine.accessInto s m (k + 1)).Covers (engine.machineAfter s m k)
    (engine.machineAfter s m (k + 1))

/-- An engine every report of which lists all memory words that its step changed. -/
def ReportsStores (engine : Engine σ φ) : Prop :=
  ∀ s m access s' m', engine.step s m = (.ok access, s', m') → access.Covers m m'

theorem lastReport_succ (a : Address) (n : Nat) :
    engine.lastReport s m a (n + 1)
      = if a ∈ (engine.accessInto s m (n + 1)).addresses then n + 1
        else engine.lastReport s m a n := by
  unfold lastReport
  rw [Nat.findGreatest_succ]

/-! ### Scalars and registers -/

/-- The scalars of the replica are the machine's, under either scan. -/
theorem toProcessor_replica (scan : MemoryScan) (n : Nat) :
    (engine.replica scan s m n).toProcessor = (engine.machineAfter s m n).toProcessor := by
  cases n with
  | zero => rfl
  | succ n => rw [replica_succ, deltaAfter, Delta.toProcessor_apply_between]

/-- The registers of the replica are the machine's, under either scan. -/
theorem reg_replica (scan : MemoryScan) (n : Nat) (r : Reg) :
    (engine.replica scan s m n).reg r = (engine.machineAfter s m n).reg r := by
  cases n with
  | zero => rfl
  | succ n => rw [replica_succ, deltaAfter, Delta.reg_apply_between]

/-! ### Memory -/

/-- **The full scan keeps the replica equal to the machine**, whatever is reported. -/
theorem replica_full (n : Nat) : engine.replica .full s m n = engine.machineAfter s m n := by
  cases n with
  | zero => rfl
  | succ n => rw [replica_succ, deltaAfter, Delta.apply_between_full]

/-- **The write-set scan keeps each word as of the last report of its address.** -/
theorem mem_replica_writeSet (n : Nat) (a : Address) :
    (engine.replica .writeSet s m n).mem a
      = (engine.machineAfter s m (engine.lastReport s m a n)).mem a := by
  induction n with
  | zero => rfl
  | succ n ih =>
    rw [replica_succ, deltaAfter, Delta.mem_apply_between_writeSet, lastReport_succ]
    -- an address that is not reported keeps its last report, and the replica its word
    by_cases ha : a ∈ (engine.accessInto s m (n + 1)).addresses
    · rw [if_pos ha, if_pos ha]
    · rw [if_neg ha, if_neg ha, ih]

variable {engine s m}

/-- As long as all stores are reported, the scans keep the same deltas. -/
theorem deltaLog_writeSet {n : Nat} (h : engine.CoversSteps s m n) :
    engine.deltaLog .writeSet s m n = engine.deltaLog .full s m n := by
  induction n with
  | zero => rfl
  | succ n ih =>
    have hlog := ih fun k hk => h k (by omega)
    -- so far the replicas agree, and the one of the full scan is the machine itself
    have hreplica : engine.replica .writeSet s m n = engine.machineAfter s m n := by
      rw [replica, hlog, ← replica, replica_full]
    rw [deltaLog_succ, deltaLog_succ, hlog, deltaAfter, deltaAfter, hreplica, replica_full,
      Delta.between_writeSet_eq_full (h n (Nat.lt_succ_self n))]

theorem replica_writeSet_of_coversSteps {n : Nat} (h : engine.CoversSteps s m n) :
    engine.replica .writeSet s m n = engine.machineAfter s m n := by
  rw [replica, deltaLog_writeSet h, ← replica, replica_full]

theorem ReportsStores.coversSteps {n : Nat} (h : engine.ReportsStores)
    (hok : ∀ k < n, ∃ access, engine.reportAfter s m k = .ok access) :
    engine.CoversSteps s m n := by
  intro k hk
  obtain ⟨access, hreport⟩ := hok k hk
  rw [accessInto_succ hreport]
  exact h _ _ _ _ _ (by rw [step_after, hreport])

end Engine

/-! ### Recordings -/

/-- An engine that stores a word and does not say so, then reports the address without storing,
and then faults half-way through another store. -/
def forgetful : Engine Nat String where
  reset _ := (0, .zero)
  step n m :=
    match n with
    | 0 => (.ok {}, 1, m.setMem 5 7)
    | 1 => (.ok { addresses := [5] }, 2, m)
    | n => (.error "lost", n, m.setMem 6 1)
  isHalted _ _ := false

variable {σ φ : Type} [ToString φ]

/-- **Under the full scan every step is reconstructed exactly**, for every engine, cap and
cancel flag: step `k` is the machine after `k` calls of the engine, all of which it answered
with a report.  Step 0 is the start, and the last step is the machine on which the ending was
found, so nothing that a faulting call had changed is part of it. -/
theorem stateAt_record_full (engine : Engine σ φ) (cap : Nat) (cancel : CancelSignal σ) (s : σ)
    (initial : Machine) :
    let t := (record engine ⟨cap, .full⟩ cancel s initial).1
    (∀ k ≤ t.totalSteps, t.stateAt k = .ok (engine.machineAfter s initial k)) ∧
      (∀ n < t.totalSteps, ∃ access, engine.reportAfter s initial n = .ok access) ∧
      t.stateAt 0 = .ok initial ∧
      engine.endingAfter? s initial cap cancel t.totalSteps = some t.ending := by
  intro t
  have hstate : ∀ k ≤ t.totalSteps, t.stateAt k = .ok (engine.machineAfter s initial k) := by
    intro k hk
    rw [stateAt_record hk, Engine.replica_full]
  refine ⟨hstate, fun n hn => exists_report_of_lt_totalSteps hn, hstate 0 (Nat.zero_le _), ?_⟩
  exact (isRecording_record engine ⟨cap, .full⟩ cancel s initial).ends

/-- The store that was kept quiet is there, and what the faulting call did is not. -/
theorem stateAt_record_full_forgetful :
    2 ≤ (record forgetful ⟨5, .full⟩ .never 0 .zero).1.totalSteps ∧
      (record forgetful ⟨5, .full⟩ .never 0 .zero).1.stateAt 2
        = .ok (forgetful.machineAfter 0 .zero 2) ∧
      (∃ access, forgetful.reportAfter 0 .zero 1 = .ok access) ∧
      (forgetful.machineAfter 0 .zero 2).mem 5 = 7 ∧
      (forgetful.machineAfter 0 .zero 2).mem 6 = 0 := by
  have hsteps : 2 ≤ (record forgetful ⟨5, .full⟩ .never 0 .zero).1.totalSteps := by decide
  obtain ⟨hstate, hreport, -, -⟩ := stateAt_record_full forgetful 5 .never 0 .zero
  refine ⟨hsteps, hstate 2 hsteps, hreport 1 hsteps, ?_, ?_⟩
  · show (Machine.zero.setMem 5 7).mem 5 = 7
    exact Machine.mem_setMem_self _ _ _
  · show (Machine.zero.setMem 5 7).mem 6 = 0
    rw [Machine.mem_setMem, if_neg (by decide), Machine.mem_zero]

/-- **What the write-set scan reconstructs**, for every engine, cap and cancel flag.  Scalars and
registers are exact at every step; a memory word is the one after the last step that reported
its address, or the initial one.  So a word is right again at the next step that reports it,
and the whole machine is right as long as every change of memory is reported. -/
theorem stateAt_record_writeSet (engine : Engine σ φ) (cap : Nat) (cancel : CancelSignal σ)
    (s : σ) (initial : Machine) {k : Nat}
    (hk : k ≤ (record engine ⟨cap, .writeSet⟩ cancel s initial).1.totalSteps) :
    ∃ r, (record engine ⟨cap, .writeSet⟩ cancel s initial).1.stateAt k = .ok r ∧
      r.toProcessor = (engine.machineAfter s initial k).toProcessor ∧
      (∀ i, r.reg i = (engine.machineAfter s initial k).reg i) ∧
      (∀ a, r.mem a
        = (engine.machineAfter s initial (engine.lastReport s initial a k)).mem a) ∧
      (∀ a ∈ (engine.accessInto s initial k).addresses,
        r.mem a = (engine.machineAfter s initial k).mem a) ∧
      (engine.CoversSteps s initial k → r = engine.machineAfter s initial k) := by
  refine ⟨engine.replica .writeSet s initial k, stateAt_record hk,
    engine.toProcessor_replica s initial .writeSet k, engine.reg_replica s initial .writeSet k,
    engine.mem_replica_writeSet s initial k, fun a ha => ?_,
    Engine.replica_writeSet_of_coversSteps⟩
  cases k with
  | zero => rfl
  | succ k => rw [engine.mem_replica_writeSet, Engine.lastReport_succ, if_pos ha]

/-- The word that was kept quiet is missing after the first step and there after the second.
Started one step later, the engine has nothing to keep quiet. -/
theorem stateAt_record_writeSet_forgetful :
    (1 ≤ (record forgetful ⟨5, .writeSet⟩ .never 0 .zero).1.totalSteps ∧
      ∃ r, (record forgetful ⟨5, .writeSet⟩ .never 0 .zero).1.stateAt 1 = .ok r ∧ r.mem 5 = 0) ∧
    (2 ≤ (record forgetful ⟨5, .writeSet⟩ .never 0 .zero).1.totalSteps ∧
      ∃ r, (record forgetful ⟨5, .writeSet⟩ .never 0 .zero).1.stateAt 2 = .ok r ∧ r.mem 5 = 7) ∧
    (1 ≤ (record forgetful ⟨5, .writeSet⟩ .never 1 .zero).1.totalSteps ∧
      (record forgetful ⟨5, .writeSet⟩ .never 1 .zero).1.stateAt 1
        = .ok (forgetful.machineAfter 1 .zero 1)) := by
  refine ⟨⟨by decide, ?_⟩, ⟨by decide, ?_⟩, by decide, ?_⟩
  · obtain ⟨r, hr, -, -, hmem, -⟩ :=
      stateAt_record_writeSet forgetful 5 .never 0 .zero (k := 1) (by decide)
    have hlast : forgetful.lastReport 0 .zero 5 1 = 0 := by decide
    exact ⟨r, hr, by rw [hmem, hlast, Engine.machineAfter_zero, Machine.mem_zero]⟩
  · obtain ⟨r, hr, -, -, -, hreported, -⟩ :=
      stateAt_record_writeSet forgetful 5 .never 0 .zero (k := 2) (by decide)
    refine ⟨r, hr, ?_⟩
    rw [hreported 5 (by decide)]
    show (Machine.zero.setMem 5 7).mem 5 = 7
    exact Machine.mem_setMem_self _ _ _
  · obtain ⟨r, hr, -, -, -, -, hexact⟩ :=
      stateAt_record_writeSet forgetful 5 .never 1 .zero (k := 1) (by decide)
    have hcovers : forgetful.CoversSteps 1 .zero 1 := by
      intro k hk a hne
      obtain rfl : k = 0 := by omega
      exact absurd rfl hne
    rw [hr, hexact hcovers]

/-! ### Engines that report every store -/

theorem record_writeSet_eq_full {engine : Engine σ φ} (h : engine.ReportsStores) (cap : Nat)
    (cancel : CancelSignal σ) (s : σ) (initial : Machine) :
    record engine ⟨cap, .writeSet⟩ cancel s initial
      = record engine ⟨cap, .full⟩ cancel s initial := by
  have hrec := isRecording_record engine ⟨cap, .writeSet⟩ cancel s initial
  have hcovers : engine.CoversSteps s initial
      (record engine ⟨cap, .writeSet⟩ cancel s initial).1.deltas.length :=
    h.coversSteps fun k hk => exists_report_of_lt_totalSteps hk
  -- the scan is no part of the endings, so only the deltas are left to compare
  have hfull : IsRecording engine ⟨cap, .full⟩ cancel s initial 0
      (record engine ⟨cap, .writeSet⟩ cancel s initial).1.deltas
      (record engine ⟨cap, .writeSet⟩ cancel s initial).1.ending
      (record engine ⟨cap, .writeSet⟩ cancel s initial).2 := by
    refine ⟨?_, hrec.start_le, hrec.goes_on, hrec.ends, hrec.state_eq⟩
    exact hrec.deltas_eq.trans (Engine.deltaLog_writeSet hcovers)
  rw [record_eq hfull]
  rfl

/-- **The scan does not matter when every store is reported**: there is one timeline, whatever
the cap and the cancel flag are. -/
theorem record_scan {engine : Engine σ φ} (h : engine.ReportsStores) (cap : Nat)
    (scan scan' : MemoryScan) (cancel : CancelSignal σ) (s : σ) (initial : Machine) :
    record engine ⟨cap, scan⟩ cancel s initial = record engine ⟨cap, scan'⟩ cancel s initial := by
  have heq := record_writeSet_eq_full h cap cancel s initial
  cases scan <;> cases scan'
  · rfl
  · exact heq
  · exact heq.symm
  · rfl

/-- Then every step is reconstructed exactly, under either scan. -/
theorem stateAt_record_of_reportsStores {engine : Engine σ φ} (h : engine.ReportsStores)
    {cap : Nat} {scan : MemoryScan} {cancel : CancelSignal σ} {s : σ} {initial : Machine} {k : Nat}
    (hk : k ≤ (record engine ⟨cap, scan⟩ cancel s initial).1.totalSteps) :
    (record engine ⟨cap, scan⟩ cancel s initial).1.stateAt k
      = .ok (engine.machineAfter s initial k) := by
  rw [record_scan h cap scan .full] at hk ⊢
  rw [stateAt_record hk, Engine.replica_full]

end Hindsight
