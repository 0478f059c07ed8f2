import Hindsight.Proofs.Emulator.Reads

/-!
# What holds at every step of a run

Whatever a program does, there are things about the machine that stay as they are from the start
on.  Register `R0` holds zero, since a write to it is dropped; the three comparison flags are all
clear until an instruction compares, and from then on exactly one of them is set; and a machine
does not halt and wait for input at once, since a trap does one or the other and nothing is
executed behind it.

A step keeps these, whichever instruction it executes, and so does a run.  What a timeline shows
of the run is the same, and how the run ended can be told from the machine at its last step.

## Main definitions

* `Flags.comparisons` — how many of the comparison flags are set.
* `Opcode.compares`, `Timeline.HasCompared` — the instructions that set them, and whether one of
  the first steps has executed one.
* `Machine.Consistent` — the invariant.
* `Timeline.StaysConsistent` — a timeline that keeps it.

## Main results

* `Machine.Consistent.step` — one step keeps the invariant.
* `Emulator.consistent_machineAfter` — a run keeps it.
* `staysConsistent_ofSource` — **the invariant holds along every run from a reset.**
-/

namespace Hindsight

/-! ### Comparison flags -/

/-- The number of comparison flags that are set. -/
def Flags.comparisons (f : Flags) : Nat := [f.lt, f.eq, f.gt].count true

/-- A comparison sets one of the three flags and clears the others. -/
@[simp] theorem Flags.comparisons_compared (f : Flags) (x y : Int) :
    (f.compared x y).comparisons = 1 := by
  unfold comparisons
  rw [lt_compared, eq_compared, gt_compared]
  rcases Int.lt_trichotomy x y with hlt | heq | hgt
  · simp [hlt, Int.ne_of_lt hlt, Int.not_lt.mpr (Int.le_of_lt hlt)]
  · simp [heq]
  · simp [hgt, Int.ne_of_gt hgt, Int.not_lt.mpr (Int.le_of_lt hgt)]

/-- Whether an instruction with this opcode compares, be it its operands or its result with
zero. -/
def Opcode.compares : Opcode → Bool
  | register .add | register .sub | register .mul | register .div => true
  | register .cmp => true
  | register .and | register .or | register .xor => true
  | register .trap => false
  | memory _ => false

/-! ### One instruction -/

namespace Instruction

variable {i : Instruction} {m : Machine} {p : Processor} {input : Option Word} {effect : Effect}

/-- **An instruction that compares sets one comparison flag**, and any other leaves the flags
alone. -/
theorem comparisons_effect (h : i.effect m p input = .ok effect) :
    effect.after.flags.comparisons
      = if i.opcode.compares = true then 1 else p.flags.comparisons := by
  cases yields_of_effect h with
  | arithmetic d a b hop | bitwise d a b hop =>
    rename_i op _
    cases op <;> cases hop <;> exact Flags.comparisons_compared _ _ _
  | division d a b hdivisor => exact Flags.comparisons_compared _ _ _
  | comparison d a b => exact Flags.comparisons_compared _ _ _
  | halt d a b hcode => rfl
  | read d a b w hcode hinput => rfl
  | wait d a b hcode hinput => rfl
  | memory op d a disp =>
    cases op <;> simp [MemoryOp.effect, jumpEffect_eq, opcode, Opcode.compares]

/-- No instruction both halts the machine and leaves it waiting. -/
theorem not_halted_and_blocked_effect (h : i.effect m p input = .ok effect)
    (hhalted : p.halted = false) (hblocked : p.blocked = false) :
    ¬ (effect.after.halted = true ∧ effect.after.blocked = true) := by
  rintro ⟨hhalts, hwaits⟩
  cases hrequest : i.readRequest? m with
  | none =>
    obtain ⟨-, -, hframe⟩ := frame_effect h
    rw [(hframe hrequest).2, hblocked] at hwaits
    cases hwaits
  | some a =>
    -- a request for a word does not halt, whether it is served or not
    obtain ⟨-, reads, hread, hwait⟩ := effect_of_readRequest?_eq_some hrequest p
    have hkept : effect.after.halted = p.halted := by
      cases input with
      | none =>
        rw [hwait] at h
        cases h
        rfl
      | some w =>
        rw [hread] at h
        cases h
        rfl
    rw [hkept, hhalted] at hhalts
    cases hhalts

end Instruction

/-! ### The invariant -/

/-- What holds of a machine at every step of a run, where `compared` says that one of the steps
so far has compared. -/
structure Machine.Consistent (m : Machine) (compared : Prop) : Prop where
  reg_zero : m.reg 0 = 0
  /-- The comparison flags do not contradict each other. -/
  comparisons_le : m.flags.comparisons ≤ 1
  /-- They say something as soon as something has been compared, and not before. -/
  comparisons_eq_zero_iff : m.flags.comparisons = 0 ↔ ¬ compared
  not_both : ¬ (m.halted = true ∧ m.blocked = true)

variable {e e' : Emulator} {m m' : Machine} {access : Access} {compared compared' : Prop}

theorem Machine.Consistent.congr (h : m.Consistent compared) (hiff : compared ↔ compared') :
    m.Consistent compared' :=
  ⟨h.reg_zero, h.comparisons_le, h.comparisons_eq_zero_iff.trans (not_congr hiff), h.not_both⟩

/-- **One step keeps the invariant**, if it is made by a machine that goes on. -/
theorem Machine.Consistent.step (h : m.Consistent compared) (hgoes : Emulator.isHalted m = false)
    (hstep : e.step m = (.ok access, e', m')) :
    ∃ i, Instruction.fetch? m m.pc = some i ∧
      m'.Consistent (compared ∨ i.opcode.compares = true) := by
  obtain ⟨-, -, -, -, -, hzero⟩ := Emulator.access_step hstep
  obtain ⟨i, effect, hfetch, heffect, -, -, rfl⟩ := Emulator.step_eq_ok_iff.mp hstep
  obtain ⟨hhalted, hblocked⟩ := Bool.or_eq_false_iff.mp hgoes
  have hflags := Instruction.comparisons_effect heffect
  have hboth := Instruction.not_halted_and_blocked_effect heffect hhalted hblocked
  refine ⟨i, hfetch, hzero.trans h.reg_zero, ?_, ?_, ?_⟩
  · -- at most one flag: just one if the instruction compares, else as before
    rw [Emulator.flags_apply_counted, hflags]
    split
    · exact Nat.le_refl 1
    · exact h.comparisons_le
  · rw [Emulator.flags_apply_counted, hflags]
    -- none as long as nothing has compared
    by_cases hcompares : i.opcode.compares = true
    · simp [hcompares]
    · rw [if_neg hcompares, or_iff_left hcompares]
      exact h.comparisons_eq_zero_iff
  · rw [Effect.toProcessor_apply]
    exact hboth

/-! ### Timelines -/

namespace Timeline

/-- One of the first `k` steps has executed an instruction that compares. -/
def HasCompared (t : Timeline) (k : Nat) : Prop :=
  ∃ j < k, ∃ d before after i, t.Executes j d before after i ∧ i.opcode.compares = true

variable {t : Timeline} {k : Nat} {d : Delta} {before after : Machine} {i : Instruction}

theorem not_hasCompared_zero : ¬ t.HasCompared 0 := by
  rintro ⟨j, hj, -⟩
  exact absurd hj (Nat.not_lt_zero j)

/-- The step behind the first `k` adds its own instruction. -/
theorem Executes.hasCompared_succ_iff (h : t.Executes k d before after i) :
    t.HasCompared (k + 1) ↔ t.HasCompared k ∨ i.opcode.compares = true := by
  constructor
  · rintro ⟨j, hj, d', before', after', i', hexec, hcompares⟩
    rcases Nat.lt_succ_iff_lt_or_eq.mp hj with hlt | rfl
    · exact .inl ⟨j, hlt, d', before', after', i', hexec, hcompares⟩
    · -- one step executes one instruction
      have hsame : i' = i :=
        Option.some.inj (hexec.instructionInto?_eq.symm.trans h.instructionInto?_eq)
      exact .inr (hsame ▸ hcompares)
  · rintro (⟨j, hj, hrest⟩ | hcompares)
    · exact ⟨j, Nat.lt_succ_of_lt hj, hrest⟩
    · exact ⟨k, Nat.lt_succ_self k, d, before, after, i, h, hcompares⟩

theorem hasCompared_annotated_iff (output : AssemblyOutput) :
    (t.annotated output).HasCompared k ↔ t.HasCompared k := by
  simp only [HasCompared, executes_annotated_iff]

/-- A timeline at each step of which the invariant holds. -/
structure StaysConsistent (t : Timeline) : Prop where
  /-- Every step has executed an instruction. -/
  executes : ∀ k < t.totalSteps, ∃ d before after i, t.Executes k d before after i
  /-- The machine is consistent at every step, and stops at the last one only. -/
  consistent : ∀ k ≤ t.totalSteps, ∃ m, t.stateAt k = .ok m ∧ m.Consistent (t.HasCompared k) ∧
    (k < t.totalSteps → m.halted = false ∧ m.blocked = false)
  /-- The run ended halted if the last machine has halted. -/
  halted_iff : t.ending = .halted ↔ ∃ m, t.stateAt t.totalSteps = .ok m ∧ m.halted = true
  /-- The run ended blocked if the last machine waits. -/
  blocked_iff : t.ending = .blocked ↔ ∃ m, t.stateAt t.totalSteps = .ok m ∧ m.blocked = true

/-- What the assembler said about the program is no part of it. -/
theorem StaysConsistent.annotated (h : t.StaysConsistent) (output : AssemblyOutput) :
    (t.annotated output).StaysConsistent where
  executes k hk := by
    obtain ⟨d, before, after, i, hexec⟩ := h.executes k hk
    exact ⟨d, before, after, i, hexec.annotated output⟩
  consistent k hk := by
    obtain ⟨m, hm, hconsistent, hgoes⟩ := h.consistent k hk
    exact ⟨m, hm, hconsistent.congr (hasCompared_annotated_iff output).symm, hgoes⟩
  halted_iff := h.halted_iff
  blocked_iff := h.blocked_iff

end Timeline

/-! ### Recordings -/

namespace Emulator

variable {config : Config} {cancel : CancelSignal Emulator} {k : Nat}

/-- **A run keeps the invariant**, by induction on the number of its steps. -/
theorem consistent_machineAfter (hm : m.Consistent False)
    (hk : k ≤ (record engine config cancel e m).1.totalSteps) :
    (engine.machineAfter e m k).Consistent
      ((record engine config cancel e m).1.HasCompared k) := by
  induction k with
  | zero => exact hm.congr (iff_false_intro Timeline.not_hasCompared_zero).symm
  | succ k ih =>
    obtain ⟨access, hstep⟩ := exists_step_of_lt_totalSteps hk
    obtain ⟨d, i, hexec⟩ := exists_executes hk
    obtain ⟨i', hfetch, hnext⟩ :=
      (ih (Nat.le_of_succ_le hk)).step (isHalted_eq_false_of_lt_totalSteps hk) hstep
    obtain rfl := hexec.eq_of_fetch? hfetch
    exact hnext.congr hexec.hasCompared_succ_iff.symm

/-- A run ends halted if the machine has halted after its last step and does not wait. -/
theorem ending_eq_halted_iff
    (hboth : ¬ ((engine.machineAfter e m
        (record engine config cancel e m).1.totalSteps).halted = true ∧
      (engine.machineAfter e m (record engine config cancel e m).1.totalSteps).blocked = true)) :
    (record engine config cancel e m).1.ending = .halted ↔
      (engine.machineAfter e m (record engine config cancel e m).1.totalSteps).halted = true := by
  have hends := (isRecording_record engine config cancel e m).ends
  constructor
  · intro hending
    rw [hending] at hends
    cases Engine.endsWith_of_endingAfter? hends with
    | halted hstops hblocked =>
      -- the loop stops for either reason, and the ending tells that it was not the other
      have hor := Bool.or_eq_true_iff.mp hstops
      exact hor.resolve_right fun hcon => by rw [hblocked] at hcon; cases hcon
  · intro hhalted
    have hstops : isHalted (engine.machineAfter e m
        (record engine config cancel e m).1.totalSteps) = true := by
      rw [isHalted, hhalted, Bool.true_or]
    have hblocked := fun hcon => hboth ⟨hhalted, hcon⟩
    exact Option.some.inj
      (hends.symm.trans ((if_pos hstops).trans (congrArg some (if_neg hblocked))))

/-- **A recording stays consistent**, if it starts from a consistent machine that has compared
nothing. -/
theorem staysConsistent_record (config : Config) (cancel : CancelSignal Emulator) (e : Emulator)
    (hm : m.Consistent False) : (record engine config cancel e m).1.StaysConsistent := by
  set t := (record engine config cancel e m).1
  have hstate : ∀ k ≤ t.totalSteps, t.stateAt k = .ok (engine.machineAfter e m k) :=
    fun k hk => stateAt_record_engine hk
  -- there is one machine at the last step, so that "some" and "the" are the same
  have hlast : ∀ P : Machine → Prop, P (engine.machineAfter e m t.totalSteps) ↔
      ∃ m, t.stateAt t.totalSteps = .ok m ∧ P m := by
    intro P
    constructor
    · exact fun hP => ⟨_, hstate _ le_rfl, hP⟩
    · rintro ⟨m', hm', hP⟩
      rw [hstate _ le_rfl] at hm'
      exact Except.ok.inj hm' ▸ hP
  refine ⟨fun k hk => ?_, fun k hk => ?_, ?_, ?_⟩
  · obtain ⟨d, i, hexec⟩ := exists_executes hk
    exact ⟨d, _, _, i, hexec⟩
  · refine ⟨_, hstate k hk, consistent_machineAfter hm hk, fun hlt => ?_⟩
    exact Bool.or_eq_false_iff.mp (isHalted_eq_false_of_lt_totalSteps hlt)
  · rw [← hlast fun m => m.halted = true]
    exact ending_eq_halted_iff (consistent_machineAfter hm le_rfl).not_both
  · rw [← hlast fun m => m.blocked = true]
    exact ending_eq_blocked_iff

end Emulator

/-- A machine that has just been loaded is consistent. -/
theorem Machine.consistent_loaded (words : List Word) : (loaded words).Consistent False where
  reg_zero := reg_zero 0
  comparisons_le := Nat.zero_le 1
  comparisons_eq_zero_iff := iff_of_true rfl not_false
  not_both := fun h => Bool.false_ne_true h.1

/-- **The invariant holds along every run from a reset.**  In the timeline of a source that
assembles, for every input, configuration and cancel flag, the machine at each step has zero in
`R0`, and at most one comparison flag set, and none just as long as no instruction has been
executed that compares.  It never has halted and waits as well, and before the last step it does
neither; the run has halted if the last machine has, and is blocked if that one waits. -/
theorem staysConsistent_ofSource {source : String} {p : Program}
    (h : Program.ofSource source = .ok p) (wording : SyntaxWording) (config : Config)
    (cancel : CancelSignal Emulator) (moduleName : String) (e : Emulator) :
    ∃ t e', runProgram (machineTools wording) config cancel moduleName source e = (.ok t, e') ∧
      t.StaysConsistent := by
  refine ⟨_, _, runProgram_of_ofSource h wording config cancel moduleName e, ?_⟩
  have hrecord := Emulator.staysConsistent_record config cancel e.rewind
    (Machine.consistent_loaded p.words)
  exact hrecord.annotated _

/-- Writes to `R0`, compares, reads a word into `R0`, and halts. -/
def comparingSource : String :=
  "lea R0,9[R0]\nlea R1,1[R0]\ncmp R1,R0\ntrap R1,R0,R0\ntrap R0,R0,R0"

/-- No comparison flag is set after two steps, and one after three; the words written to `R0` are
not there, and the run has halted. -/
theorem staysConsistent_ofSource_comparing :
    ∃ p t e, Program.ofSource comparingSource = .ok p ∧
      runProgram (machineTools plainWording) ⟨10, .writeSet⟩ .never "main" comparingSource
        (.ofInput [7]) = (.ok t, e) ∧
      t.totalSteps = 5 ∧ t.StaysConsistent ∧ ¬ t.HasCompared 2 ∧ t.HasCompared 3 ∧
      ∃ m, t.stateAt 5 = .ok m ∧ m.reg 0 = 0 ∧ m.halted = true := by
  obtain ⟨p, hp⟩ : ∃ p, Program.ofSource comparingSource = .ok p :=
    exists_eq_ok_of_isSome (by decide +kernel)
  have hresult : (runProgram (machineTools plainWording) ⟨10, .writeSet⟩ .never "main"
      comparingSource (.ofInput [7])).1.toOption.map (fun t => (t.totalSteps, t.ending,
        (t.machineAt 2).flags.comparisons, (t.machineAt 3).flags.comparisons))
        = some (5, .halted, 0, 1) := by decide +kernel
  obtain ⟨t, e, ht, hstays⟩ :=
    staysConsistent_ofSource hp plainWording ⟨10, .writeSet⟩ .never "main" (.ofInput [7])
  rw [ht] at hresult
  have hseen := Option.some.inj hresult
  simp only [Prod.mk.injEq] at hseen
  obtain ⟨hsteps, hending, htwo, hthree⟩ := hseen
  obtain ⟨m₂, hm₂, hconsistent₂, -⟩ := hstays.consistent 2 (by omega)
  obtain ⟨m₃, hm₃, hconsistent₃, -⟩ := hstays.consistent 3 (by omega)
  obtain ⟨m₅, hm₅, hconsistent₅, -⟩ := hstays.consistent 5 (by omega)
  rw [Timeline.machineAt_eq_of_stateAt hm₂] at htwo
  rw [Timeline.machineAt_eq_of_stateAt hm₃] at hthree
  refine ⟨p, t, e, hp, ht, hsteps, hstays, hconsistent₂.comparisons_eq_zero_iff.mp htwo, ?_,
    m₅, hm₅, hconsistent₅.reg_zero, ?_⟩
  · by_contra hnot
    rw [hconsistent₃.comparisons_eq_zero_iff.mpr hnot] at hthree
    cases hthree
  · obtain ⟨m, hm, hhalted⟩ := hstays.halted_iff.mp hending
    rw [hsteps, hm₅] at hm
    exact Except.ok.inj hm ▸ hhalted

end Hindsight
