import Hindsight.CommandLine.Report
import Hindsight.Proofs.Emulator.Reads

/-!
# Tallies, instruction counts and timelines

The emulator counts the opcodes that it executes, the machine counts its instructions, and a
timeline lets both be counted afterwards, by decoding the instruction of each step in the machine
before it.  The three agree.  They might not: the code of an instruction may be gone once it has
been executed, its second word may lie at the other end of memory, and a fault may come after an
instruction has been decoded.

## Main definitions

* `Timeline.executions` — how many steps were reached by an instruction with a given opcode.
* `Timeline.KeepsCount` — a timeline whose steps decode, and count themselves.

## Main results

* `Tally.sum_record` — every execution that is counted is one of the total.
* `Emulator.count_tally_stateAfter` — the tally counts the steps made so far.
* `tally_ofSource` — **tallies, instruction counts and timelines tell the same story.**
-/

namespace Hindsight

/-! ### Counting one execution -/

/-- The total as a sum over the opcodes. -/
theorem Tally.sum_eq (t : Tally) : t.sum = (Opcode.all.map t.count).sum := by
  rw [sum, ← List.foldl_map, List.sum_eq_foldl]

/-- Over a list of opcodes, one more execution counts as often as its opcode is listed. -/
theorem Tally.sum_map_count_record (t : Tally) (op : Opcode) (ops : List Opcode) :
    (ops.map (t.record op).count).sum = (ops.map t.count).sum + ops.count op := by
  induction ops with
  | nil => rfl
  | cons op' ops ih =>
    rw [List.map_cons, List.sum_cons, ih, List.map_cons, List.sum_cons, count_record]
    by_cases h : op = op'
    · rw [if_pos h, h, List.count_cons_self]
      omega
    · rw [if_neg h, List.count_cons_of_ne (Ne.symm h)]
      omega

/-- **Every execution that is counted is one of the total**, since its opcode is listed once. -/
theorem Tally.sum_record (t : Tally) (op : Opcode) : (t.record op).sum = t.sum + 1 := by
  have hnodup : Opcode.all.Nodup := by decide
  rw [sum_eq, sum_map_count_record, List.count_eq_one_of_mem hnodup op.mem_all, ← sum_eq]

@[simp] theorem Tally.sum_zero : zero.sum = 0 := by
  rw [sum_eq, List.map_congr_left fun op _ => count_zero op]
  rfl

/-! ### One step -/

namespace Emulator

variable {e e' : Emulator} {m m' : Machine} {access : Access}

/-- What a successful step counts: an instruction in the machine, and its opcode in the tally. -/
theorem counts_step (h : e.step m = (.ok access, e', m')) :
    ∃ i, Instruction.fetch? m m.pc = some i ∧ e'.tally = e.tally.record i.opcode ∧
      m'.ir = m.mem m.pc ∧ m'.count = m.count + 1 := by
  obtain ⟨i, effect, hfetch, heffect, -, rfl, rfl⟩ := step_eq_ok_iff.mp h
  -- the word is put there by the fetch, the count goes up around the effect
  obtain ⟨hir, hcount, -⟩ := Instruction.frame_effect heffect
  refine ⟨i, hfetch, rfl, ?_, ?_⟩
  · rw [Effect.toProcessor_apply]
    exact hir
  · rw [Effect.toProcessor_apply]
    exact congrArg (· + 1) hcount

end Emulator

/-! ### Counting the steps of a timeline -/

namespace Timeline

/-- The number of steps, up to one, that were reached by an instruction with a given opcode. -/
def executionsUpTo (t : Timeline) (op : Opcode) (step : Nat) : Nat :=
  (List.range' 1 step).countP fun k => (t.instructionInto? k).map Instruction.opcode = some op

/-- The number of steps that were reached by an instruction with a given opcode. -/
def executions (t : Timeline) (op : Opcode) : Nat := t.executionsUpTo op t.totalSteps

variable {t : Timeline} {op : Opcode} {k : Nat} {d : Delta} {before after : Machine}
  {i : Instruction}

theorem executionsUpTo_succ (h : t.instructionInto? (k + 1) = some i) :
    t.executionsUpTo op (k + 1)
      = t.executionsUpTo op k + if i.opcode = op then 1 else 0 := by
  rw [executionsUpTo, List.range'_1_concat, List.countP_append, Nat.add_comm 1 k,
    List.countP_singleton, h, executionsUpTo]
  simp

/-- The instruction of a step is shown as decoded, and not as the word that it started with. -/
theorem Executes.instructionText_eq (h : t.Executes k d before after i) :
    d.instructionText (some before) = i.text := by
  rw [Delta.instructionText, Option.bind_some, h.fetch_eq]

/-- Every step of the timeline decodes to an instruction, whose first word is kept as the
instruction register, and counts itself. -/
def KeepsCount (t : Timeline) : Prop :=
  ∀ k < t.totalSteps, ∃ d before after i, t.Executes k d before after i ∧
    d.instructionText (some before) = i.text ∧ before.mem d.origin = d.after.ir ∧
    d.after.count = .ofNat (k + 1) ∧ after.count = .ofNat (k + 1) ∧
    (k + 1 < UInt64.size → d.after.count.toNat = k + 1)

end Timeline

namespace Emulator

variable {config : Config} {cancel : CancelSignal Emulator} {e : Emulator} {m : Machine} {n : Nat}

/-- The machine counts its steps. -/
theorem count_machineAfter (hn : n ≤ (record engine config cancel e m).1.totalSteps) :
    (engine.machineAfter e m n).count = m.count + .ofNat n := by
  induction n with
  | zero => simp
  | succ n ih =>
    obtain ⟨access, hstep⟩ := exists_step_of_lt_totalSteps hn
    obtain ⟨-, -, -, -, hcount⟩ := counts_step hstep
    rw [hcount, ih (Nat.le_of_succ_le hn), UInt64.ofNat_add, UInt64.add_assoc]
    rfl

/-- **The tally counts the steps made so far**, each by the instruction that is decoded again. -/
theorem count_tally_stateAfter (op : Opcode)
    (hn : n ≤ (record engine config cancel e m).1.totalSteps) :
    (engine.stateAfter e m n).tally.count op
      = e.tally.count op + (record engine config cancel e m).1.executionsUpTo op n := by
  induction n with
  | zero => rfl
  | succ n ih =>
    obtain ⟨d, i, hexec⟩ := exists_executes hn
    obtain ⟨access, hstep⟩ := exists_step_of_lt_totalSteps hn
    obtain ⟨i', hfetch, htally, -⟩ := counts_step hstep
    obtain rfl := hexec.eq_of_fetch? hfetch
    rw [htally, Tally.count_record, Timeline.executionsUpTo_succ hexec.instructionInto?_eq,
      ← Nat.add_assoc, ← ih (Nat.le_of_succ_le hn)]
    -- the step adds one to the opcode that it decodes to, on both sides
    by_cases hop : i.opcode = op
    · rw [if_pos hop, if_pos hop, hop]
    · rw [if_neg hop, if_neg hop, Nat.add_zero]

/-- The total counts the steps too. -/
theorem sum_tally_stateAfter (hn : n ≤ (record engine config cancel e m).1.totalSteps) :
    (engine.stateAfter e m n).tally.sum = e.tally.sum + n := by
  induction n with
  | zero => rfl
  | succ n ih =>
    obtain ⟨access, hstep⟩ := exists_step_of_lt_totalSteps hn
    obtain ⟨i, -, htally, -⟩ := counts_step hstep
    rw [htally, Tally.sum_record, ih (Nat.le_of_succ_le hn), Nat.add_assoc]

/-- **A recording keeps count**, from a machine that has executed nothing. -/
theorem keepsCount_record (config : Config) (cancel : CancelSignal Emulator) (e : Emulator)
    (hm : m.count = 0) : (record engine config cancel e m).1.KeepsCount := by
  intro k hk
  obtain ⟨d, i, hexec⟩ := exists_executes hk
  obtain ⟨access, hstep⟩ := exists_step_of_lt_totalSteps hk
  obtain ⟨-, -, -, hir, -⟩ := counts_step hstep
  have hcount : (engine.machineAfter e m (k + 1)).count = .ofNat (k + 1) := by
    rw [count_machineAfter hk, hm, UInt64.zero_add]
  refine ⟨d, _, _, i, hexec, hexec.instructionText_eq, ?_, ?_, hcount, fun hlt => ?_⟩
  · rw [hexec.scalars_eq, hexec.origin_eq, hir]
  · rw [hexec.scalars_eq, hcount]
  · rw [hexec.scalars_eq, hcount]
    exact UInt64.toNat_ofNat_of_lt' hlt

end Emulator

/-- What the assembler said about the program is no part of what is counted. -/
theorem Timeline.KeepsCount.annotated {t : Timeline} (h : t.KeepsCount)
    (output : AssemblyOutput) : (t.annotated output).KeepsCount := by
  intro k hk
  obtain ⟨d, before, after, i, hexec, hrest⟩ := h k hk
  exact ⟨d, before, after, i, hexec.annotated output, hrest⟩

/-- **Tallies, instruction counts and timelines tell the same story.**  In the timeline of a source
that assembles, for every input, configuration and cancel flag and however the run ends, each step
decodes to an instruction in the machine before it, and its count is its own number.  The tally
that the run leaves has, for every opcode, the number of steps that decode to it, and its total is
the number of steps.  So a call that faulted is not counted, and the read that a run is blocked on
is. -/
theorem tally_ofSource {source : String} {p : Program} (h : Program.ofSource source = .ok p)
    (wording : SyntaxWording) (config : Config) (cancel : CancelSignal Emulator)
    (moduleName : String) (e : Emulator) :
    ∃ t e', runProgram (machineTools wording) config cancel moduleName source e = (.ok t, e') ∧
      t.KeepsCount ∧ (∀ op, e'.tally.count op = t.executions op) ∧
      e'.tally.sum = t.totalSteps ∧
      (t.ending = .blocked →
        (t.instructionInto? t.totalSteps).map Instruction.opcode = some (.register .trap)) := by
  refine ⟨_, _, runProgram_of_ofSource h wording config cancel moduleName e, ?_⟩
  have hcounts := Emulator.keepsCount_record config cancel e.rewind (m := .loaded p.words) rfl
  refine ⟨hcounts.annotated _, fun op => ?_, ?_, fun hending => ?_⟩
  · rw [Emulator.state_record_engine, Emulator.count_tally_stateAfter op le_rfl]
    exact (congrArg (· + _) (Tally.count_zero op)).trans (Nat.zero_add _)
  · rw [Emulator.state_record_engine, Emulator.sum_tally_stateAfter le_rfl]
    exact (congrArg (· + _) Tally.sum_zero).trans (Nat.zero_add _)
  · -- a run is blocked in a step that asks for a word, and only a trap does
    obtain ⟨k, d, i, a, hk, hexec, hrequest, -⟩ :=
      Emulator.exists_waits_of_blocked (m := .loaded p.words) rfl hending
    have hopcode := (Instruction.effect_of_readRequest?_eq_some hrequest default).1
    have hlast := hexec.instructionInto?_eq
    rw [← hk] at hlast
    exact (congrArg (Option.map Instruction.opcode) hlast).trans (congrArg some hopcode)

/-- Overwrites its first instruction, once that has been executed, and divides by zero. -/
def erasingSource : String := "lea R1,7[R0]\nstore R1,0[R0]\ndiv R2,R1,R0"

/-- The instruction that was overwritten is found, and the one that faulted is not counted. -/
theorem tally_ofSource_erasing :
    ∃ p t e, Program.ofSource erasingSource = .ok p ∧
      runProgram (machineTools plainWording) ⟨10, .writeSet⟩ .never "main" erasingSource
        (.ofInput []) = (.ok t, e) ∧
      t.ending = .faulted "Division by zero at 0x0004" ∧ t.totalSteps = 2 ∧ t.KeepsCount ∧
      e.tally.count (.memory .lea) = 1 ∧ e.tally.count (.memory .store) = 1 ∧
      e.tally.count (.register .div) = 0 ∧ e.tally.sum = 2 := by
  have hok : (Program.ofSource erasingSource).toOption.isSome = true := by decide +kernel
  have hresult : (runProgram (machineTools plainWording) ⟨10, .writeSet⟩ .never "main" erasingSource
      (.ofInput [])).1.toOption.map (fun t => (t.ending, t.totalSteps,
        [.memory .lea, .memory .store, .register .div].map t.executions))
        = some (.faulted "Division by zero at 0x0004", 2, [1, 1, 0]) := by decide +kernel
  cases hp : Program.ofSource erasingSource with
  | error issues =>
    rw [hp] at hok
    cases hok
  | ok p =>
    obtain ⟨t, e, ht, hcounts, htally, hsum, -⟩ :=
      tally_ofSource hp plainWording ⟨10, .writeSet⟩ .never "main" (.ofInput [])
    rw [ht] at hresult
    have hseen := Option.some.inj hresult
    simp only [Prod.mk.injEq, List.map_cons, List.map_nil, List.cons.injEq, and_true] at hseen
    obtain ⟨hending, hsteps, hlea, hstore, hdiv⟩ := hseen
    refine ⟨p, t, e, rfl, ht, hending, hsteps, hcounts, ?_, ?_, ?_, hsum.trans hsteps⟩
    · rw [htally, hlea]
    · rw [htally, hstore]
    · rw [htally, hdiv]

end Hindsight
