import Hindsight.Proofs.Emulator.Steps
import Hindsight.Proofs.Isa.Sweep

/-!
# Faults

There are three ways for an instruction to fail, and each of them can be told from the machine
before the step: the word at the program counter is no instruction, a division has a zero divisor,
or a trap asks for a service that there is not.  Nothing else goes wrong.  In particular what has
been decoded is always of the family that its word marks, and the fields of it that are taken for
registers are numbers of registers.

A fault is found out after the fetch, so that the program counter has passed the word by then and
the instruction register holds it.  An unknown service has been latched as well.  All else is as it
was, the emulator included.

## Main definitions

* `Instruction.registerFields`, `Instruction.IsHeldBy` — the fields that name registers, and what
  execution relies on in an instruction and its word.
* `Machine.Raises` — the machine is about to fault.
* `Fault.latched` — the status word after a fault.

## Main results

* `Instruction.isHeldBy_of_decode` — every instruction that is decoded can be carried out.
* `Emulator.step_of_raises`, `Emulator.raises_of_step` — a step faults as it is foreseen, and only
  then.
* `Emulator.faults_as_raised` — **exactly when a step faults, and what it leaves.**
-/

namespace Hindsight

/-! ### What has been decoded -/

namespace Instruction

/-- The fields of an instruction that name registers. -/
def registerFields : Instruction → List UInt8
  | register _ d a b => [d, a, b]
  | memory _ d a _ => [d, a]

/-- The instruction is the one in a word: of the family that the word marks, with the opcode of
its fields, and with numbers of registers where it names registers. -/
structure IsHeldBy (i : Instruction) (word : Word) : Prop where
  opcode_eq : Opcode.ofFields? (Fields.ofWord word).op (Fields.ofWord word).b = some i.opcode
  /-- A second word belongs to it just if the word is marked. -/
  size_eq : i.opcode.size = if (Fields.ofWord word).op = Opcode.memoryMark then 2 else 1
  names_registers : ∀ f ∈ i.registerFields, (fieldReg f).val = f.toNat

variable {word next : Word} {i : Instruction}

theorem Narrow.val_fieldReg (h : i.Narrow) {f : UInt8} (hf : f ∈ i.registerFields) :
    (fieldReg f).val = f.toNat := by
  have hlt : f.toNat < 16 := by
    cases i with
    | register op d a b =>
      obtain ⟨hd, ha, hb⟩ := h
      simp only [registerFields, List.mem_cons, List.not_mem_nil, or_false] at hf
      rcases hf with rfl | rfl | rfl
      · exact hd
      · exact ha
      · exact hb
    | memory op d a disp =>
      obtain ⟨hd, ha⟩ := h
      simp only [registerFields, List.mem_cons, List.not_mem_nil, or_false] at hf
      rcases hf with rfl | rfl
      · exact hd
      · exact ha
  exact Nat.mod_eq_of_lt hlt

/-- **Every instruction that is decoded can be carried out**: the family and the registers that
execution relies on are there. -/
theorem isHeldBy_of_decode (h : decode word next = some i) : i.IsHeldBy word := by
  obtain ⟨hnarrow, -⟩ := decode_eq_some_iff.mp h
  have hopcode : Opcode.ofFields? (Fields.ofWord word).op (Fields.ofWord word).b
      = some i.opcode := by
    unfold decode at h
    dsimp only at h
    split at h
    · next hop => cases h; exact hop
    · next hop => cases h; exact hop
    · cases h
  refine ⟨hopcode, ?_, fun f hf => hnarrow.val_fieldReg hf⟩
  cases i with
  | register op d a b =>
    -- the code of a register instruction is never the mark
    have hmark : (Fields.ofWord word).op ≠ Opcode.memoryMark := by
      rw [Opcode.ofFields?_eq_register_iff.mp hopcode]
      cases op <;> decide
    rw [if_neg hmark]
    rfl
  | memory op d a disp =>
    rw [if_pos (Opcode.ofFields?_eq_memory_iff.mp hopcode).1]
    rfl

end Instruction

/-! ### Foreseeing a fault -/

/-- The machine is about to fault. -/
inductive Machine.Raises (m : Machine) : Fault → Prop
  /-- The word at the program counter is no instruction, whatever stands behind it. -/
  | invalidInstruction (h : ∀ next, Instruction.decode (m.mem m.pc) next = none) :
    Raises m (.invalidInstruction (m.mem m.pc) m.pc)
  /-- The instruction is a division, and its divisor is zero, as `R0` always is. -/
  | divisionByZero (d a b : UInt8)
    (h : Instruction.fetch? m m.pc = some (.register .div d a b))
    (hzero : m.operand (fieldReg b) = 0) : Raises m (.divisionByZero m.pc)
  /-- The instruction is a trap for a service other than halting and reading. -/
  | unknownTrap (d a b : UInt8)
    (h : Instruction.fetch? m m.pc = some (.register .trap d a b))
    (hhalt : m.operand (fieldReg d) ≠ 0) (hread : m.operand (fieldReg d) ≠ 1) :
    Raises m (.unknownTrap (m.operand (fieldReg d)) m.pc)

/-- The status word after a fault: an unknown service is there, or what was there before. -/
def Fault.latched (status : Word) : Fault → Word
  | unknownTrap code _ => code
  | invalidInstruction _ _ | divisionByZero _ => status

/-- **An effect that cannot be found** is that of a division by zero or of an unknown service. -/
theorem Instruction.effect_eq_error {i : Instruction} {m : Machine} {p : Processor}
    {input : Option Word} {fault : Fault} (h : i.effect m p input = .error fault) :
    (∃ d a b, i = register .div d a b ∧ m.operand (fieldReg b) = 0 ∧
        fault = .divisionByZero m.pc) ∨
      ∃ d a b, i = register .trap d a b ∧ m.operand (fieldReg d) ≠ 0 ∧
        m.operand (fieldReg d) ≠ 1 ∧ fault = .unknownTrap (m.operand (fieldReg d)) m.pc := by
  cases i with
  | memory op d a disp => cases h
  | register op d a b =>
    cases op with
    | div =>
      simp only [effect, RegisterOp.effect] at h
      split at h
      · next hzero => exact .inl ⟨d, a, b, rfl, hzero, (Except.error.inj h).symm⟩
      · cases h
    | trap =>
      simp only [effect, RegisterOp.effect, trapEffect] at h
      split at h
      · cases h
      · next hhalt =>
        split at h
        · split at h <;> cases h
        · next hread => exact .inr ⟨d, a, b, rfl, hhalt, hread, (Except.error.inj h).symm⟩
    | add | sub | mul | cmp | and | or | xor => cases h

/-! ### Faulting steps -/

namespace Emulator

variable {e : Emulator} {m : Machine} {fault : Fault}

/-- **A step that faults has been foreseen.** -/
theorem raises_of_step (h : (e.step m).1 = .error fault) : m.Raises fault := by
  unfold step at h
  cases hi : Instruction.fetch? m m.pc with
  | none =>
    simp only [hi] at h
    -- nothing is decoded, and the second word has no part in that
    obtain rfl := Except.error.inj h
    exact .invalidInstruction (Instruction.decode_eq_none_of_decode hi)
  | some i =>
    simp only [hi] at h
    cases heffect : i.effect m (fetched m i.opcode.size) e.input.peek with
    | ok effect =>
      simp only [heffect] at h
      cases h
    | error fault' =>
      simp only [heffect] at h
      obtain rfl := Except.error.inj h
      rcases Instruction.effect_eq_error heffect with
        ⟨d, a, b, rfl, hzero, rfl⟩ | ⟨d, a, b, rfl, hhalt, hread, rfl⟩
      · exact .divisionByZero d a b hi hzero
      · exact .unknownTrap d a b hi hhalt hread

/-- **A fault that is foreseen comes**, and leaves the emulator, and of the machine all but the
program counter, the instruction register and the status word. -/
theorem step_of_raises (e : Emulator) (h : m.Raises fault) :
    e.step m
      = (.error fault, e,
          m.withFetch (m.pc + 1) (m.mem m.pc) (fault.latched m.control.status)) := by
  cases h with
  | invalidInstruction h =>
    have hi : Instruction.fetch? m m.pc = none := h _
    simp only [step, hi]
    rfl
  | divisionByZero d a b h hzero =>
    have heffect : ∀ p input, (Instruction.register .div d a b).effect m p input
        = .error (.divisionByZero m.pc) := fun p input => if_pos hzero
    simp only [step, h, heffect]
    rfl
  | unknownTrap d a b h hhalt hread =>
    have heffect : ∀ p input, (Instruction.register .trap d a b).effect m p input
        = .error (.unknownTrap (m.operand (fieldReg d)) m.pc) := fun p input =>
      (if_neg hhalt).trans (if_neg hread)
    simp only [step, h, heffect]
    rfl

/-- **Exactly when a step faults, and what it leaves.**  Whatever is decoded at the program counter
can be carried out.  A step faults if the machine is about to, with the same fault: the word there
is no instruction, a divisor is zero, or a service is unknown.  The program counter has then passed
that one word, the instruction register holds it, and the status word holds an unknown service;
registers, memory, flags, the other scalars, the input and the tally are as they were. -/
theorem faults_as_raised (e : Emulator) (m : Machine) :
    (∀ i, Instruction.fetch? m m.pc = some i → i.IsHeldBy (m.mem m.pc)) ∧
      (∀ fault, (e.step m).1 = .error fault ↔ m.Raises fault) ∧
      ∀ fault, m.Raises fault → e.step m
        = (.error fault, e,
            m.withFetch (m.pc + 1) (m.mem m.pc) (fault.latched m.control.status)) := by
  refine ⟨fun i hi => Instruction.isHeldBy_of_decode hi, fun fault => ⟨raises_of_step, fun h => ?_⟩,
    fun fault h => step_of_raises e h⟩
  rw [step_of_raises e h]

/-- A machine about to execute `div R1,R2,R0` at the last address, with a word stored in `R0`. -/
def dividingLast : Machine :=
  { (Machine.zero.setMem 0xffff 0x3120).setReg 0 5 with pc := 0xffff }

/-- A machine about to execute `trap R1,R2,R0` for service 9. -/
def trappingNine : Machine := (Machine.zero.setMem 0 0xd120).setReg 1 9

/-- The word stored in `R0` is no divisor, and the program counter goes on at the first address; an
unknown service is latched, and a division leaves the status word alone. -/
theorem faults_as_raised_dividingLast :
    (∃ i, Instruction.fetch? dividingLast dividingLast.pc = some i ∧ i.IsHeldBy 0x3120) ∧
      dividingLast.Raises (.divisionByZero 0xffff) ∧
      (ofInput [7]).step dividingLast
        = (.error (.divisionByZero 0xffff), ofInput [7], dividingLast.withFetch 0 0x3120 0) ∧
      trappingNine.Raises (.unknownTrap 9 0) ∧
      (ofInput [7]).step trappingNine
        = (.error (.unknownTrap 9 0), ofInput [7], trappingNine.withFetch 1 0xd120 9) := by
  obtain ⟨hheld, -, hdivision⟩ := faults_as_raised (ofInput [7]) dividingLast
  obtain ⟨-, -, htrap⟩ := faults_as_raised (ofInput [7]) trappingNine
  have hword : dividingLast.mem dividingLast.pc = 0x3120 :=
    Machine.mem_setMem_self Machine.zero 0xffff 0x3120
  have hword' : trappingNine.mem trappingNine.pc = 0xd120 :=
    Machine.mem_setMem_self Machine.zero 0 0xd120
  have hfetch : Instruction.fetch? dividingLast dividingLast.pc = some (.register .div 1 2 0) := by
    rw [Instruction.fetch?, hword]
    rfl
  have hfetch' : Instruction.fetch? trappingNine trappingNine.pc
      = some (.register .trap 1 2 0) := by
    rw [Instruction.fetch?, hword']
    rfl
  have hraises : dividingLast.Raises (.divisionByZero 0xffff) := .divisionByZero 1 2 0 hfetch rfl
  have hraises' : trappingNine.Raises (.unknownTrap 9 0) :=
    .unknownTrap 1 2 0 hfetch' (by decide) (by decide)
  refine ⟨⟨_, hfetch, hword ▸ hheld _ hfetch⟩, hraises, ?_, hraises', ?_⟩
  · rw [hdivision _ hraises, hword]
    rfl
  · rw [htrap _ hraises', hword']
    rfl

end Emulator

end Hindsight
