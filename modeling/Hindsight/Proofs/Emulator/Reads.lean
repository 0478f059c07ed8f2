import Hindsight.Proofs.Emulator.History

/-!
# Reading input

The input is not part of the machine, and no delta mentions it.  What a program has read is told
from its steps: a step asks for a word if its instruction is a trap for the reading service, and
it has been given one unless the machine waits after it.  The words are given in order and each
of them once, so that the number of requests served so far is the place of the next word.

## Main definitions

* `Instruction.readRequest?` — the register that a word of input is asked for.
* `Machine.ReadsWord`, `Machine.WaitsForInput` — what a request does to the machine.
* `Emulator.UsesInput` — the three things that a step can do with the input.
* `Timeline.readsUpTo`, `Timeline.reads` — the steps that have been given a word.
* `Timeline.DeliversInput` — a timeline that delivers its input in order.

## Main results

* `Emulator.exists_usesInput` — what a successful step does with the input.
* `Emulator.pending_stateAfter` — the requests served are the place in the input.
* `deliversInput_ofSource` — **input is delivered in order, once, and blocking is exhaustion.**
-/

namespace Hindsight

/-! ### Requests -/

/-- The register that an instruction asks a word of input for, if it is a trap for the reading
service. -/
def Instruction.readRequest? (i : Instruction) (m : Machine) : Option Reg :=
  match i with
  | .register .trap d a _ => if m.operand (fieldReg d) = 1 then some (fieldReg a) else none
  | _ => none

/-- The machine takes a word into a register, or discards it if that is `R0`, and goes on. -/
structure Machine.ReadsWord (before after : Machine) (a : Reg) (w : Word) : Prop where
  pc_eq : after.pc = before.pc + 1
  reg_eq : ∀ r, after.reg r = if a = r ∧ r ≠ 0 then w else before.reg r
  mem_eq : ∀ x, after.mem x = before.mem x
  blocked_eq : after.blocked = before.blocked

/-- The machine stays where it is, with all its cells, and waits. -/
structure Machine.WaitsForInput (before after : Machine) : Prop where
  pc_eq : after.pc = before.pc
  reg_eq : ∀ r, after.reg r = before.reg r
  mem_eq : ∀ x, after.mem x = before.mem x
  blocked_eq : after.blocked = true

namespace Instruction

variable {i : Instruction} {m : Machine} {p : Processor} {input : Option Word} {effect : Effect}

/-- A trap for any other service asks for no word. -/
theorem readRequest?_trap_eq_none_iff {d a b : UInt8} :
    (register .trap d a b).readRequest? m = none ↔ m.operand (fieldReg d) ≠ 1 := by
  rw [readRequest?, ite_eq_right_iff]
  exact forall_congr' fun _ => iff_of_false (Option.some_ne_none _) not_false

/-- A request is a trap for the reading service. -/
theorem readRequest?_eq_some_iff {r : Reg} :
    i.readRequest? m = some r ↔
      ∃ d a b, i = register .trap d a b ∧ m.operand (fieldReg d) = 1 ∧ fieldReg a = r := by
  constructor
  · intro h
    unfold readRequest? at h
    split at h
    · next d a b =>
      obtain ⟨hcode, hr⟩ := Option.ite_none_right_eq_some.mp h
      exact ⟨d, a, b, rfl, hcode, Option.some.inj hr⟩
    · cases h
  · rintro ⟨d, a, b, rfl, hcode, rfl⟩
    exact if_pos hcode

/-- Only a request looks at the input. -/
theorem effect_congr (h : i.readRequest? m = none) (p : Processor) (input input' : Option Word) :
    i.effect m p input = i.effect m p input' := by
  cases i with
  | memory op d a disp => rfl
  | register op d a b =>
    cases op with
    | trap =>
      have hcode := readRequest?_trap_eq_none_iff.mp h
      simp only [Instruction.effect, RegisterOp.effect, trapEffect, if_neg hcode]
    | add | sub | mul | div | cmp | and | or | xor => rfl

/-- **What an instruction leaves alone**: its own word, the count and, unless it is a request, the
input and whether the machine waits. -/
theorem frame_effect (h : i.effect m p input = .ok effect) :
    effect.after.ir = p.ir ∧ effect.after.count = p.count ∧
      (i.readRequest? m = none → effect.consumes = false ∧ effect.after.blocked = p.blocked) := by
  cases yields_of_effect h with
  | arithmetic d a b hop => exact ⟨rfl, rfl, fun _ => ⟨rfl, rfl⟩⟩
  | division d a b hdivisor => exact ⟨rfl, rfl, fun _ => ⟨rfl, rfl⟩⟩
  | comparison d a b => exact ⟨rfl, rfl, fun _ => ⟨rfl, rfl⟩⟩
  | bitwise d a b hop => exact ⟨rfl, rfl, fun _ => ⟨rfl, rfl⟩⟩
  | halt d a b hcode => exact ⟨rfl, rfl, fun _ => ⟨rfl, rfl⟩⟩
  -- only a request takes a word or waits
  | read d a b w hcode hinput =>
    exact ⟨rfl, rfl, fun hnone => absurd hcode (readRequest?_trap_eq_none_iff.mp hnone)⟩
  | wait d a b hcode hinput =>
    exact ⟨rfl, rfl, fun hnone => absurd hcode (readRequest?_trap_eq_none_iff.mp hnone)⟩
  | memory op d a disp =>
    cases op <;> simp [MemoryOp.effect, jumpEffect_eq]

/-- A trap for the reading service takes the next word, or waits at its own address. -/
theorem effect_of_service {d : UInt8} (h : m.operand (fieldReg d) = 1) (a b : UInt8)
    (p : Processor) :
    (∀ w, (register .trap d a b).effect m p (some w)
        = .ok { reads := .ofList [fieldReg d], writes := [(fieldReg a, w)], after := p.withStatus 1,
                consumes := true }) ∧
      (register .trap d a b).effect m p none
        = .ok { reads := .ofList [fieldReg d],
                after := { p.withStatus 1 with blocked := true, pc := m.pc } } := by
  refine ⟨fun w => ?_, ?_⟩ <;>
    simp [Instruction.effect, RegisterOp.effect, trapEffect, h, Processor.withStatus]

/-- A request is made by a trap.  It takes the next word, or waits at its own address. -/
theorem effect_of_readRequest?_eq_some {a : Reg} (h : i.readRequest? m = some a) (p : Processor) :
    i.opcode = .register .trap ∧ ∃ reads,
      (∀ w, i.effect m p (some w)
        = .ok { reads, writes := [(a, w)], after := p.withStatus 1, consumes := true }) ∧
      i.effect m p none
        = .ok { reads, after := { p.withStatus 1 with blocked := true, pc := m.pc } } := by
  obtain ⟨d, a', b, rfl, hcode, rfl⟩ := readRequest?_eq_some_iff.mp h
  exact ⟨rfl, _, effect_of_service hcode a' b p⟩

end Instruction

/-! ### One step -/

namespace Emulator

/-- What a step that executes an instruction does with the input: nothing, if it asks for none;
else it takes the next word, or waits since there is none. -/
inductive UsesInput (i : Instruction) (e e' : Emulator) (m m' : Machine) : Prop
  | nothing (hrequest : i.readRequest? m = none) (hinput : e'.input = e.input)
    (hblocked : m'.blocked = m.blocked)
  | reads (a : Reg) (w : Word) (hrequest : i.readRequest? m = some a)
    (hpeek : e.input.peek = some w) (hinput : e'.input = e.input.advance)
    (hreads : m.ReadsWord m' a w)
  | waits (a : Reg) (hrequest : i.readRequest? m = some a) (hpeek : e.input.peek = none)
    (hinput : e'.input = e.input) (hwaits : m.WaitsForInput m')

variable {e e' : Emulator} {m m' : Machine}

/-- Taking a word into a register, as an effect. -/
theorem readsWord_apply (m : Machine) (reads : RegisterSet) (a : Reg) (w : Word) :
    m.ReadsWord ((counted
      { reads, writes := [(a, w)], after := (fetched m 1).withStatus 1, consumes := true }).apply m)
      a w where
  pc_eq := by rw [Effect.toProcessor_apply]; rfl
  reg_eq r := by
    rw [Effect.reg_apply]
    exact Effect.reg_writeReg _ (a, w) r
  mem_eq x := by rw [Effect.mem_apply]; rfl
  blocked_eq := by rw [Effect.toProcessor_apply]; rfl

/-- Waiting, as an effect. -/
theorem waitsForInput_apply (m : Machine) (reads : RegisterSet) (p : Processor) :
    m.WaitsForInput ((counted { reads, after := { p with blocked := true, pc := m.pc } }).apply m)
    where
  pc_eq := by rw [Effect.toProcessor_apply]; rfl
  reg_eq r := by rw [Effect.reg_apply]; rfl
  mem_eq x := by rw [Effect.mem_apply]; rfl
  blocked_eq := by rw [Effect.toProcessor_apply]; rfl

/-- **What a successful step does with the input.** -/
theorem exists_usesInput {access : Access} (h : e.step m = (.ok access, e', m')) :
    ∃ i, Instruction.fetch? m m.pc = some i ∧ UsesInput i e e' m m' := by
  obtain ⟨i, effect, hfetch, heffect, -, rfl, rfl⟩ := step_eq_ok_iff.mp h
  refine ⟨i, hfetch, ?_⟩
  cases hrequest : i.readRequest? m with
  | none =>
    obtain ⟨-, -, hframe⟩ := Instruction.frame_effect heffect
    obtain ⟨hconsumes, hblocked⟩ := hframe hrequest
    refine .nothing hrequest ?_ ?_
    · rw [note, hconsumes]
      rfl
    · rw [Effect.toProcessor_apply]
      exact hblocked
  | some a =>
    obtain ⟨hopcode, reads, hread, hwait⟩ :=
      Instruction.effect_of_readRequest?_eq_some hrequest (fetched m i.opcode.size)
    have hsize : i.opcode.size = 1 := by rw [hopcode]; rfl
    cases hpeek : e.input.peek with
    | some w =>
      rw [hpeek, hread w] at heffect
      obtain rfl := Except.ok.inj heffect
      rw [hsize]
      exact .reads a w hrequest hpeek rfl (readsWord_apply m reads a w)
    | none =>
      rw [hpeek, hwait] at heffect
      obtain rfl := Except.ok.inj heffect
      exact .waits a hrequest hpeek rfl (waitsForInput_apply m reads _)

end Emulator

/-! ### The requests of a timeline -/

namespace Timeline

/-- The register that the step asks a word of input for, if it does. -/
def requestInto? (t : Timeline) : (step : Nat) → Option Reg
  | 0 => none
  | k + 1 => (t.instructionInto? (k + 1)).bind fun i => i.readRequest? (t.machineAt k)

/-- Whether the step has asked for a word and been given one. -/
def readsInto (t : Timeline) (step : Nat) : Bool :=
  (t.requestInto? step).isSome && !(t.machineAt step).blocked

/-- The first steps, up to one, that have been given a word, in order. -/
def readsUpTo (t : Timeline) (step : Nat) : List Nat := (List.range' 1 step).filter t.readsInto

/-- All steps that have been given a word, in order. -/
def reads (t : Timeline) : List Nat := t.readsUpTo t.totalSteps

variable {t : Timeline} {k : Nat} {d : Delta} {before after : Machine} {i : Instruction}

theorem readsUpTo_succ (k : Nat) :
    t.readsUpTo (k + 1) = t.readsUpTo k ++ if t.readsInto (k + 1) then [k + 1] else [] := by
  rw [readsUpTo, List.range'_1_concat, List.filter_append, Nat.add_comm 1 k, readsUpTo,
    List.filter_singleton]
  cases t.readsInto (k + 1) <;> rfl

/-- A step that reads is found behind the reads in front of it. -/
theorem exists_of_getElem?_readsUpTo {n j step : Nat} (h : (t.readsUpTo n)[j]? = some step) :
    ∃ k < n, step = k + 1 ∧ t.readsInto (k + 1) = true ∧ (t.readsUpTo k).length = j := by
  induction n with
  | zero => cases h
  | succ n ih =>
    rw [readsUpTo_succ] at h
    -- it is among the earlier ones, or it is the step at the end
    rcases Nat.lt_or_ge j (t.readsUpTo n).length with hlt | hge
    · rw [List.getElem?_append_left hlt] at h
      obtain ⟨k, hk, hrest⟩ := ih h
      exact ⟨k, Nat.lt_succ_of_lt hk, hrest⟩
    · rw [List.getElem?_append_right hge] at h
      by_cases hreads : t.readsInto (n + 1) = true
      · rw [if_pos hreads, List.getElem?_singleton] at h
        split at h
        · exact ⟨n, Nat.lt_succ_self n, (Option.some.inj h).symm, hreads, by omega⟩
        · cases h
      · rw [if_neg hreads] at h
        cases h

theorem mem_reads_iff {step : Nat} :
    step ∈ t.reads ↔ 1 ≤ step ∧ step ≤ t.totalSteps ∧ t.readsInto step = true := by
  rw [reads, readsUpTo, List.mem_filter, List.mem_range'_1, and_assoc]
  refine and_congr_right fun _ => and_congr_left fun _ => ?_
  omega

theorem Executes.requestInto?_eq (h : t.Executes k d before after i) :
    t.requestInto? (k + 1) = i.readRequest? before := by
  rw [requestInto?, h.instructionInto?_eq, Option.bind_some, machineAt_eq_of_stateAt h.before_eq]

theorem Executes.readsInto_eq (h : t.Executes k d before after i) :
    t.readsInto (k + 1) = ((i.readRequest? before).isSome && !after.blocked) := by
  rw [readsInto, h.requestInto?_eq, machineAt_eq_of_stateAt h.after_eq]

/-- A timeline that delivers the words of its input to the steps that ask for them. -/
structure DeliversInput (t : Timeline) (words : List Word) : Prop where
  /-- Only the last step may ask in vain. -/
  served : ∀ step < t.totalSteps, t.requestInto? step ≠ none → step ∈ t.reads
  /-- Who is served as the `j`-th is given the `j`-th word, in the register asked for. -/
  reads_word : ∀ (j step : Nat), t.reads[j]? = some step → ∃ k d before after i a w,
    step = k + 1 ∧ t.Executes k d before after i ∧ i.readRequest? before = some a ∧
      words[j]? = some w ∧ before.ReadsWord after a w
  length_reads_le : t.reads.length ≤ words.length
  /-- The run ends blocked if its last step asks when all words have been read. -/
  blocked_iff : t.ending = .blocked ↔ ∃ k, t.totalSteps = k + 1 ∧ t.requestInto? (k + 1) ≠ none ∧
    (t.readsUpTo k).length = words.length
  /-- That step leaves the machine at the trap, with all its cells. -/
  waits : t.ending = .blocked → ∃ k d before after i a, t.totalSteps = k + 1 ∧
    t.Executes k d before after i ∧ i.readRequest? before = some a ∧
      before.WaitsForInput after ∧ after.pc = d.origin

/-- What the assembler said about the program is no part of what was read. -/
theorem DeliversInput.annotated {words : List Word} (h : t.DeliversInput words)
    (output : AssemblyOutput) : (t.annotated output).DeliversInput words where
  served := h.served
  reads_word j step hj := by
    obtain ⟨k, d, before, after, i, a, w, hstep, hexec, hread⟩ := h.reads_word j step hj
    exact ⟨k, d, before, after, i, a, w, hstep, hexec.annotated output, hread⟩
  length_reads_le := h.length_reads_le
  blocked_iff := h.blocked_iff
  waits hending := by
    obtain ⟨k, d, before, after, i, a, hk, hexec, hwait⟩ := h.waits hending
    exact ⟨k, d, before, after, i, a, hk, hexec.annotated output, hwait⟩

end Timeline

/-! ### The requests of a recording -/

namespace Emulator

variable {config : Config} {cancel : CancelSignal Emulator} {e : Emulator} {m : Machine} {k : Nat}

/-- A recorded step uses the input as its instruction says, and was not made by a machine that
waits. -/
theorem exists_executes_usesInput (hk : k < (record engine config cancel e m).1.totalSteps) :
    ∃ d i, (record engine config cancel e m).1.Executes k d (engine.machineAfter e m k)
        (engine.machineAfter e m (k + 1)) i ∧
      UsesInput i (engine.stateAfter e m k) (engine.stateAfter e m (k + 1))
        (engine.machineAfter e m k) (engine.machineAfter e m (k + 1)) ∧
      (engine.machineAfter e m k).blocked = false := by
  obtain ⟨d, i, hexec⟩ := exists_executes hk
  obtain ⟨access, hstep⟩ := exists_step_of_lt_totalSteps hk
  obtain ⟨i', hfetch, huses⟩ := exists_usesInput hstep
  obtain rfl := hexec.eq_of_fetch? hfetch
  exact ⟨d, i, hexec, huses, blocked_eq_false_of_lt_totalSteps hk⟩

/-- **The requests served are the place in the input**, and there was a word for each of them. -/
theorem pending_stateAfter {n : Nat} (hn : n ≤ (record engine config cancel e m).1.totalSteps) :
    (engine.stateAfter e m n).input.pending
        = e.input.pending.drop ((record engine config cancel e m).1.readsUpTo n).length ∧
      ((record engine config cancel e m).1.readsUpTo n).length ≤ e.input.pending.length := by
  set t := (record engine config cancel e m).1
  induction n with
  | zero => exact ⟨rfl, Nat.zero_le _⟩
  | succ n ih =>
    obtain ⟨hpending, hle⟩ := ih (Nat.le_of_succ_le hn)
    obtain ⟨d, i, hexec, huses, hblocked⟩ := exists_executes_usesInput hn
    have hreads := hexec.readsInto_eq
    rw [Timeline.readsUpTo_succ]
    -- the place moves on with a word that is taken, and with nothing else
    cases huses with
    | nothing hrequest hinput _ =>
      rw [hrequest] at hreads
      rw [hreads, hinput]
      simpa using ⟨hpending, hle⟩
    | waits a _ _ hinput hwaits =>
      rw [hwaits.blocked_eq, Bool.not_true, Bool.and_false] at hreads
      rw [hreads, hinput]
      simpa using ⟨hpending, hle⟩
    | reads a w hrequest hpeek hinput hread =>
      rw [hrequest, hread.blocked_eq, hblocked] at hreads
      rw [hreads, hinput, Input.pending_advance, hpending, List.tail_drop]
      -- a word was there, so the place is not behind the last one
      have hlt : (t.readsUpTo n).length < e.input.pending.length := by
        refine Nat.lt_of_not_le fun hge => ?_
        rw [Input.peek, hpending, List.drop_of_length_le hge] at hpeek
        cases hpeek
      simpa using Nat.succ_le_of_lt hlt

/-- The next word is the one whose place is the number of requests served. -/
theorem peek_stateAfter {n : Nat} (hn : n ≤ (record engine config cancel e m).1.totalSteps) :
    (engine.stateAfter e m n).input.peek
      = e.input.pending[((record engine config cancel e m).1.readsUpTo n).length]? := by
  rw [Input.peek, (pending_stateAfter hn).1, List.head?_drop]

/-- A request was served if the machine went on. -/
theorem exists_readsWord (hk : k < (record engine config cancel e m).1.totalSteps)
    (hreads : (record engine config cancel e m).1.readsInto (k + 1) = true) :
    ∃ d i a w, (record engine config cancel e m).1.Executes k d (engine.machineAfter e m k)
        (engine.machineAfter e m (k + 1)) i ∧
      i.readRequest? (engine.machineAfter e m k) = some a ∧
      (engine.stateAfter e m k).input.peek = some w ∧
      (engine.machineAfter e m k).ReadsWord (engine.machineAfter e m (k + 1)) a w := by
  obtain ⟨d, i, hexec, huses, -⟩ := exists_executes_usesInput hk
  rw [hexec.readsInto_eq] at hreads
  cases huses with
  | nothing hrequest _ _ =>
    rw [hrequest] at hreads
    cases hreads
  | waits a _ _ _ hwaits =>
    rw [hwaits.blocked_eq, Bool.not_true, Bool.and_false] at hreads
    cases hreads
  | reads a w hrequest hpeek _ hread => exact ⟨d, i, a, w, hexec, hrequest, hpeek, hread⟩

/-- A run ends blocked if the machine waits after its last step. -/
theorem ending_eq_blocked_iff :
    (record engine config cancel e m).1.ending = .blocked ↔
      (engine.machineAfter e m (record engine config cancel e m).1.totalSteps).blocked = true := by
  have hends := (isRecording_record engine config cancel e m).ends
  constructor
  · intro hending
    rw [hending] at hends
    cases Engine.endsWith_of_endingAfter? hends with
    | blocked _ hblocked => exact hblocked
  · intro hblocked
    have hhalt : isHalted (engine.machineAfter e m
        (record engine config cancel e m).1.totalSteps) = true := by
      rw [isHalted, hblocked, Bool.or_true]
    exact Option.some.inj
      (hends.symm.trans ((if_pos hhalt).trans (congrArg some (if_pos hblocked))))

/-- A run from a machine that does not wait blocks in a step that asks for a word when there is
none. -/
theorem exists_waits_of_blocked (hm : m.blocked = false)
    (hending : (record engine config cancel e m).1.ending = .blocked) :
    ∃ k d i a, (record engine config cancel e m).1.totalSteps = k + 1 ∧
      (record engine config cancel e m).1.Executes k d (engine.machineAfter e m k)
        (engine.machineAfter e m (k + 1)) i ∧
      i.readRequest? (engine.machineAfter e m k) = some a ∧
      (engine.stateAfter e m k).input.peek = none ∧
      (engine.machineAfter e m k).WaitsForInput (engine.machineAfter e m (k + 1)) := by
  have hlast := ending_eq_blocked_iff.mp hending
  obtain ⟨k, hk⟩ : ∃ k, (record engine config cancel e m).1.totalSteps = k + 1 := by
    refine Nat.exists_eq_succ_of_ne_zero fun hzero => ?_
    rw [hzero, Engine.machineAfter_zero, hm] at hlast
    cases hlast
  have hlt : k < (record engine config cancel e m).1.totalSteps := by omega
  obtain ⟨d, i, hexec, huses, hblocked⟩ := exists_executes_usesInput hlt
  rw [hk] at hlast
  -- the machine did not wait before the last step, and only a request in vain changes that
  cases huses with
  | nothing _ _ hsame =>
    rw [hsame, hblocked] at hlast
    cases hlast
  | reads a w _ _ _ hread =>
    rw [hread.blocked_eq, hblocked] at hlast
    cases hlast
  | waits a hrequest hpeek _ hwaits => exact ⟨k, d, i, a, hk, hexec, hrequest, hpeek, hwaits⟩

/-- A request that is not the last step was served, since the machine went on. -/
theorem mem_reads_of_lt {step : Nat} (hstep : step < (record engine config cancel e m).1.totalSteps)
    (hrequest : (record engine config cancel e m).1.requestInto? step ≠ none) :
    step ∈ (record engine config cancel e m).1.reads := by
  obtain ⟨k, rfl⟩ : ∃ k, step = k + 1 := by
    refine Nat.exists_eq_succ_of_ne_zero fun hzero => ?_
    rw [hzero] at hrequest
    exact hrequest rfl
  have hreads : (record engine config cancel e m).1.readsInto (k + 1) = true := by
    rw [Timeline.readsInto, machineAt_record_engine (Nat.le_of_lt hstep),
      blocked_eq_false_of_lt_totalSteps hstep, Option.isSome_iff_ne_none.mpr hrequest]
    rfl
  exact Timeline.mem_reads_iff.mpr ⟨Nat.succ_pos k, Nat.le_of_lt hstep, hreads⟩

/-- If the last step is a request that is made when all words have been read, the run is blocked. -/
theorem ending_eq_blocked_of_request
    (hk : (record engine config cancel e m).1.totalSteps = k + 1)
    (hrequest : (record engine config cancel e m).1.requestInto? (k + 1) ≠ none)
    (hlength : ((record engine config cancel e m).1.readsUpTo k).length = e.input.pending.length) :
    (record engine config cancel e m).1.ending = .blocked := by
  have hlt : k < (record engine config cancel e m).1.totalSteps := hk ▸ Nat.lt_succ_self k
  obtain ⟨d, i, hexec, huses, -⟩ := exists_executes_usesInput hlt
  -- the place in the input is behind its last word
  have hpeek : (engine.stateAfter e m k).input.peek = none := by
    rw [peek_stateAfter (Nat.le_of_lt hlt), List.getElem?_eq_none_iff]
    exact Nat.le_of_eq hlength.symm
  rw [hexec.requestInto?_eq] at hrequest
  refine ending_eq_blocked_iff.mpr ?_
  rw [hk]
  cases huses with
  | nothing hnone _ _ => exact absurd hnone hrequest
  | reads a w _ hsome _ _ =>
    rw [hpeek] at hsome
    cases hsome
  | waits a _ _ _ hwaits => exact hwaits.blocked_eq

/-- **A recording delivers its input**, if it starts from a machine that does not wait. -/
theorem deliversInput_record (config : Config) (cancel : CancelSignal Emulator) (e : Emulator)
    (hm : m.blocked = false) :
    (record engine config cancel e m).1.DeliversInput e.input.pending := by
  set t := (record engine config cancel e m).1
  refine ⟨fun step => mem_reads_of_lt, fun j step hj => ?_, (pending_stateAfter le_rfl).2,
    ⟨fun hending => ?_, ?_⟩, fun hending => ?_⟩
  · -- the word given is the one at the place, which is the number of reads before
    obtain ⟨k, hk, rfl, hreads, hlength⟩ := Timeline.exists_of_getElem?_readsUpTo hj
    obtain ⟨d, i, a, w, hexec, hrequest, hpeek, hread⟩ := exists_readsWord hk hreads
    refine ⟨k, d, _, _, i, a, w, rfl, hexec, hrequest, ?_, hread⟩
    rw [← hlength, ← peek_stateAfter (Nat.le_of_lt hk), hpeek]
  · obtain ⟨k, d, i, a, hk, hexec, hrequest, hpeek, -⟩ := exists_waits_of_blocked hm hending
    refine ⟨k, hk, ?_, ?_⟩
    · rw [hexec.requestInto?_eq, hrequest]
      exact Option.some_ne_none a
    · -- no word is left, so that as many have been read as there were
      have hle : k ≤ t.totalSteps := hk ▸ Nat.le_succ k
      rw [peek_stateAfter hle, List.getElem?_eq_none_iff] at hpeek
      exact Nat.le_antisymm (pending_stateAfter hle).2 hpeek
  · rintro ⟨k, hk, hrequest, hlength⟩
    exact ending_eq_blocked_of_request hk hrequest hlength
  · obtain ⟨k, d, i, a, hk, hexec, hrequest, -, hwaits⟩ := exists_waits_of_blocked hm hending
    exact ⟨k, d, _, _, i, a, hk, hexec, hrequest, hwaits,
      hwaits.pc_eq.trans hexec.origin_eq.symm⟩

end Emulator

/-- **Input is delivered in order, once, and blocking is exhaustion.**  In the timeline of a source
that assembles, for every input, configuration and cancel flag, the steps that ask for a word are
served one after the other, and only the last step may ask in vain; the run is then blocked, with
all words read, and the machine is left at the trap as it was.  At every step, and at the end, the
words still to be read are those behind as many as have been delivered. -/
theorem deliversInput_ofSource {source : String} {p : Program}
    (h : Program.ofSource source = .ok p) (wording : SyntaxWording) (config : Config)
    (cancel : CancelSignal Emulator) (moduleName : String) (words : List Word) :
    ∃ t e, runProgram (machineTools wording) config cancel moduleName source (.ofInput words)
        = (.ok t, e) ∧
      t.DeliversInput words ∧
      (∀ step ≤ t.totalSteps,
        (Emulator.engine.stateAfter (.ofInput words) t.initial step).input.pending
          = words.drop (t.readsUpTo step).length) ∧
      e.input.pending = words.drop t.reads.length ∧
      e.input.remaining + t.reads.length = words.length := by
  refine ⟨_, _, runProgram_of_ofSource h wording config cancel moduleName (.ofInput words), ?_⟩
  have hdelivers := Emulator.deliversInput_record config cancel (.ofInput words)
    (m := .loaded p.words) rfl
  have hleft : (record Emulator.engine config cancel (.ofInput words)
      (.loaded p.words)).2.input.pending = words.drop (record Emulator.engine config cancel
        (.ofInput words) (.loaded p.words)).1.reads.length := by
    rw [Emulator.state_record_engine]
    exact (Emulator.pending_stateAfter le_rfl).1
  refine ⟨hdelivers.annotated _, fun step hstep => (Emulator.pending_stateAfter hstep).1, hleft, ?_⟩
  have hlength := congrArg List.length hleft
  rw [List.length_drop] at hlength
  exact (congrArg (· + _) hlength).trans (Nat.sub_add_cancel hdelivers.length_reads_le)

/-- Reads a word, discards one, and asks for a third. -/
def readThrice : String := "lea R1,1[R0]\ntrap R1,R2,R0\ntrap R1,R0,R0\ntrap R1,R3,R0"

/-- Two words serve the first two requests, and the third one waits. -/
theorem deliversInput_ofSource_readThrice :
    ∃ p t e, Program.ofSource readThrice = .ok p ∧
      runProgram (machineTools plainWording) ⟨10, .writeSet⟩ .never "main" readThrice
        (.ofInput [7, 8]) = (.ok t, e) ∧
      t.ending = .blocked ∧ t.totalSteps = 4 ∧ t.reads = [2, 3] ∧ t.DeliversInput [7, 8] ∧
      e.input.pending = [] := by
  have hok : (Program.ofSource readThrice).toOption.isSome = true := by decide +kernel
  have hresult : (runProgram (machineTools plainWording) ⟨10, .writeSet⟩ .never "main" readThrice
      (.ofInput [7, 8])).1.toOption.map (fun t => (t.ending, t.totalSteps, t.reads))
        = some (.blocked, 4, [2, 3]) := by decide +kernel
  cases hp : Program.ofSource readThrice with
  | error issues =>
    rw [hp] at hok
    cases hok
  | ok p =>
    obtain ⟨t, e, ht, hdelivers, -, hleft, -⟩ :=
      deliversInput_ofSource hp plainWording ⟨10, .writeSet⟩ .never "main" [7, 8]
    rw [ht] at hresult
    have hseen := Option.some.inj hresult
    simp only [Prod.mk.injEq] at hseen
    obtain ⟨hending, hsteps, hreads⟩ := hseen
    refine ⟨p, t, e, rfl, ht, hending, hsteps, hreads, hdelivers, ?_⟩
    rw [hleft, hreads]
    rfl

end Hindsight
