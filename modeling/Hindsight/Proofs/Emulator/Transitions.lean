import Hindsight.Proofs.Emulator.Invariants
import Hindsight.Proofs.Emulator.Noninterference

/-!
# What a step does to each part of the machine

The instruction set says for every instruction what it does.  Read the other way, it says for every
part of the machine which instructions change it, and to what: the program counter, the control
words, the flags, the registers and memory each have a rule, and nothing is changed that no rule
names.  All operands are those of the machine before the step, whatever is written over them.

## Main definitions

* `Instruction.address?`, `Instruction.jumps` — where a memory instruction points, and which jumps
  are taken.
* `Instruction.moved?`, `Instruction.service?`, `Instruction.stored?` — the words that are moved,
  latched and stored.
* `Instruction.comparison?`, `Opcode.isArithmetic` — what the flags are set from.
* `Instruction.result?`, `Instruction.destinations` — the registers that are written.
* `Machine.ScalarsAfter`, `Machine.Transition` — the rules, scalar by scalar and for all parts.

## Main results

* `Instruction.pc_effect`, `Instruction.control_effect`, `Instruction.flags_effect`,
  `Instruction.carry_effect`, `Instruction.stops_effect`, `Instruction.writes_effect`,
  `Instruction.store_effect`, `Instruction.consumes_effect` — the rules for an effect.
* `Emulator.transition_effect` — carrying an effect out obeys them.
* `Emulator.step_transition` — **every step that succeeds obeys them.**
-/

namespace Hindsight

/-! ### What an instruction concerns -/

/-- Whether an instruction with this opcode computes with numbers, and so sets all flags. -/
def Opcode.isArithmetic : Opcode → Bool
  | register .add | register .sub | register .mul | register .div => true
  | _ => false

namespace Instruction

/-- The effective address of a memory instruction, formed from the displacement and a register. -/
def address? (m : Machine) : Instruction → Option Address
  | memory _ _ a disp => some (disp + m.operand (fieldReg a))
  | register _ _ _ _ => none

/-- Whether an instruction is a jump that is taken. -/
def jumps (m : Machine) : Instruction → Bool
  | memory .jump _ _ _ | memory .jal _ _ _ => true
  | memory .jumpz d _ _ => m.operand (fieldReg d) = 0
  | memory .jumpnz d _ _ => m.operand (fieldReg d) ≠ 0
  | memory .jumplt _ _ _ => m.flags.lt
  | memory .jumpeq _ _ _ => m.flags.eq
  | memory .jumpgt _ _ _ => m.flags.gt
  | _ => false

/-- The word that a load or a store moves. -/
def moved? (m : Machine) : Instruction → Option Word
  | memory .load _ a disp => some (m.mem (disp + m.operand (fieldReg a)))
  | memory .store d _ _ => some (m.operand (fieldReg d))
  | _ => none

/-- The address and the word of a store. -/
def stored? (m : Machine) : Instruction → Option (Address × Word)
  | memory .store d a disp => some (disp + m.operand (fieldReg a), m.operand (fieldReg d))
  | _ => none

/-- The service that a trap asks for. -/
def service? (m : Machine) : Instruction → Option Word
  | register .trap d _ _ => some (m.operand (fieldReg d))
  | _ => none

/-- The numbers that an instruction compares and does not compute: two operands, or the result of
a bitwise operation and zero. -/
def comparison? (m : Machine) : Instruction → Option (Int × Int)
  | register .cmp _ a b =>
    some (Word.signed (m.operand (fieldReg a)), Word.signed (m.operand (fieldReg b)))
  | register op _ a b =>
    (op.bitwise? (m.operand (fieldReg a)) (m.operand (fieldReg b))).map fun w => (Word.signed w, 0)
  | _ => none

/-- The register that an instruction sets without arithmetic, and the word it is set to: an address,
a word from memory or input, or the result of a bitwise operation. -/
def result? (m : Machine) (input : Option Word) : Instruction → Option (Reg × Word)
  | memory .lea d a disp => some (fieldReg d, disp + m.operand (fieldReg a))
  | memory .load d a disp => some (fieldReg d, m.mem (disp + m.operand (fieldReg a)))
  | memory .jal d _ _ => some (fieldReg d, m.pc + 2)
  | register .trap d a _ =>
    if m.operand (fieldReg d) = 1 then input.map fun w => (fieldReg a, w) else none
  | register op d a b =>
    (op.bitwise? (m.operand (fieldReg a)) (m.operand (fieldReg b))).map fun w => (fieldReg d, w)
  | _ => none

/-- The registers that an instruction sets, unless they are `R0`. -/
def destinations (m : Machine) (input : Option Word) : Instruction → List Reg
  | register .div d _ _ => [fieldReg d, remainderReg]
  | register .cmp _ _ _ => []
  | register .trap d a _ =>
    if m.operand (fieldReg d) = 1 ∧ input.isSome = true then [fieldReg a] else []
  | register _ d _ _ => [fieldReg d]
  | memory .lea d _ _ | memory .load d _ _ | memory .jal d _ _ => [fieldReg d]
  | memory _ _ _ _ => []

/-! ### The parts of an effect -/

variable {i : Instruction} {m : Machine} {p : Processor} {input : Option Word} {effect : Effect}

/-- The program counter behind a memory instruction. -/
theorem pc_memory (op : MemoryOp) (d a : UInt8) (disp : Word) (hflags : p.flags = m.flags) :
    (op.effect (fieldReg d) (fieldReg a) disp m p).after.pc
      = if (memory op d a disp).jumps m = true then disp + m.operand (fieldReg a) else p.pc := by
  cases op with
  | jumplt | jumpeq | jumpgt =>
    rw [MemoryOp.effect, jumpEffect_eq, hflags]
    rfl
  | lea | load | store | jump | jumpz | jumpnz | jal =>
    simp [MemoryOp.effect, jumpEffect_eq, jumps]

/-- **The program counter** goes to the effective address of a jump that is taken, back to a request
that has to wait, and stays behind any other instruction. -/
theorem pc_effect (h : i.effect m p input = .ok effect) (hflags : p.flags = m.flags) :
    (i.jumps m = true → i.address? m = some effect.after.pc) ∧
      (i.service? m = some 1 → input = none → effect.after.pc = m.pc) ∧
      (i.jumps m = false → ¬ (i.service? m = some 1 ∧ input = none) →
        effect.after.pc = p.pc) := by
  cases yields_of_effect h with
  | arithmetic d a b hop | bitwise d a b hop =>
    rename_i op _
    cases op <;> cases hop <;> exact ⟨nofun, nofun, fun _ _ => rfl⟩
  | division d a b hdivisor => exact ⟨nofun, nofun, fun _ _ => rfl⟩
  | comparison d a b => exact ⟨nofun, nofun, fun _ _ => rfl⟩
  | halt d a b hcode =>
    refine ⟨nofun, fun hread _ => ?_, fun _ _ => rfl⟩
    rw [service?, hcode] at hread
    cases hread
  | read d a b w hcode hinput =>
    refine ⟨nofun, fun _ hnone => ?_, fun _ _ => rfl⟩
    rw [hinput] at hnone
    cases hnone
  | wait d a b hcode hinput =>
    exact ⟨nofun, fun _ _ => rfl, fun _ hgoes => absurd ⟨congrArg some hcode, hinput⟩ hgoes⟩
  | memory op d a disp =>
    refine ⟨fun hjumps => ?_, nofun, fun hstays _ => ?_⟩
    · rw [pc_memory op d a disp hflags, if_pos hjumps]
      rfl
    · rw [pc_memory op d a disp hflags, hstays]
      rfl

/-- **The control words** are latched by a memory instruction, by a load or a store, and by a
trap. -/
theorem control_effect (h : i.effect m p input = .ok effect) :
    effect.after.control
      = { adr := (i.address? m).getD p.control.adr
          dat := (i.moved? m).getD p.control.dat
          status := (i.service? m).getD p.control.status } := by
  cases yields_of_effect h with
  | arithmetic d a b hop | bitwise d a b hop =>
    rename_i op _
    cases op <;> cases hop <;> rfl
  | division d a b hdivisor => rfl
  | comparison d a b => rfl
  | halt d a b hcode => rw [service?, hcode]; rfl
  | read d a b w hcode hinput => rw [service?, hcode]; rfl
  | wait d a b hcode hinput => rw [service?, hcode]; rfl
  | memory op d a disp =>
    cases op <;> simp [MemoryOp.effect, jumpEffect_eq, address?, moved?, service?]

/-- **The flags** are set by arithmetic and by comparisons, and by the latter only as far as they
compare. -/
theorem flags_effect (h : i.effect m p input = .ok effect) :
    (i.opcode.compares = false → effect.after.flags = p.flags) ∧
      ∀ x y, i.comparison? m = some (x, y) → effect.after.flags = p.flags.compared x y := by
  cases yields_of_effect h with
  | arithmetic d a b hop | bitwise d a b hop =>
    rename_i op _
    cases op <;> cases hop <;> refine ⟨nofun, fun x y hxy => ?_⟩ <;> cases hxy <;> rfl
  | division d a b hdivisor => exact ⟨nofun, nofun⟩
  | comparison d a b =>
    refine ⟨nofun, fun x y hxy => ?_⟩
    cases hxy
    rfl
  | halt d a b hcode => exact ⟨fun _ => rfl, nofun⟩
  | read d a b w hcode hinput => exact ⟨fun _ => rfl, nofun⟩
  | wait d a b hcode hinput => exact ⟨fun _ => rfl, nofun⟩
  | memory op d a disp =>
    refine ⟨fun _ => ?_, nofun⟩
    cases op <;> simp [MemoryOp.effect, jumpEffect_eq]

/-- **The stops**: a trap for service 0 halts, and a request waits if there is no word. -/
theorem stops_effect (h : i.effect m p input = .ok effect) :
    effect.after.halted = (p.halted || decide (i.service? m = some 0)) ∧
      effect.after.blocked
        = (p.blocked || decide (i.service? m = some 1 ∧ input = none)) := by
  cases yields_of_effect h with
  | arithmetic d a b hop | bitwise d a b hop =>
    rename_i op _
    cases op <;> cases hop <;> simp [service?, Arithmetic.effect, bitwiseEffect]
  | division d a b hdivisor => simp [service?, Arithmetic.effect]
  | comparison d a b => simp [service?]
  | halt d a b hcode => simp [service?, hcode, Processor.withStatus]
  | read d a b w hcode hinput => simp [service?, hcode, hinput, Processor.withStatus]
  | wait d a b hcode hinput => simp [service?, hcode, hinput, Processor.withStatus]
  | memory op d a disp => cases op <;> simp [MemoryOp.effect, jumpEffect_eq, service?]

/-- **Memory** is changed by a store. -/
theorem store_effect (h : i.effect m p input = .ok effect) : effect.store = i.stored? m := by
  cases yields_of_effect h with
  | arithmetic d a b hop | bitwise d a b hop =>
    rename_i op _
    cases op <;> cases hop <;> rfl
  | division d a b hdivisor => rfl
  | comparison d a b => rfl
  | halt d a b hcode => rfl
  | read d a b w hcode hinput => rfl
  | wait d a b hcode hinput => rfl
  | memory op d a disp => cases op <;> rfl

/-- **The registers** are written as far as they are destinations, and a result that is known is
the only word written. -/
theorem writes_effect (h : i.effect m p input = .ok effect)
    (hpc : p.pc = m.pc + .ofNat i.opcode.size) :
    effect.writes.map (·.1) = i.destinations m input ∧
      ∀ x, i.result? m input = some x → effect.writes = [x] := by
  cases yields_of_effect h with
  | arithmetic d a b hop | bitwise d a b hop =>
    rename_i op _
    cases op <;> cases hop <;> refine ⟨rfl, fun x hx => ?_⟩ <;> cases hx <;> rfl
  | division d a b hdivisor => exact ⟨rfl, nofun⟩
  | comparison d a b => exact ⟨rfl, nofun⟩
  | halt d a b hcode => simp [destinations, result?, hcode]
  | read d a b w hcode hinput => simp [destinations, result?, hcode, hinput]
  | wait d a b hcode hinput => simp [destinations, result?, hinput]
  | memory op d a disp =>
    cases op <;> refine ⟨rfl, fun x hx => ?_⟩ <;> cases hx
    · rfl
    · rfl
    · exact congrArg (fun w => [(fieldReg d, w)]) hpc

/-- **The input** gives a word to a request, if it has one. -/
theorem consumes_effect (h : i.effect m p input = .ok effect) :
    effect.consumes = decide (i.service? m = some 1 ∧ input.isSome = true) := by
  cases yields_of_effect h with
  | arithmetic d a b hop | bitwise d a b hop =>
    rename_i op _
    cases op <;> cases hop <;> rfl
  | division d a b hdivisor => rfl
  | comparison d a b => rfl
  | halt d a b hcode => simp [service?, hcode]
  | read d a b w hcode hinput => simp [service?, hcode, hinput]
  | wait d a b hcode hinput => simp [hinput]
  | memory op d a disp => cases op <;> simp [MemoryOp.effect, jumpEffect_eq, service?]

/-- An instruction that compares without arithmetic says what it compares. -/
theorem exists_comparison? (hcompares : i.opcode.compares = true)
    (harithmetic : i.opcode.isArithmetic = false) (m : Machine) :
    ∃ x y, i.comparison? m = some (x, y) := by
  cases i with
  | memory op d a disp => cases hcompares
  | register op d a b =>
    cases op with
    | add | sub | mul | div => cases harithmetic
    | trap => cases hcompares
    | cmp => exact ⟨_, _, rfl⟩
    | and | or | xor => exact ⟨_, _, rfl⟩

/-- Carry and overflow are left alone by everything but arithmetic. -/
theorem carry_effect (h : i.effect m p input = .ok effect)
    (harithmetic : i.opcode.isArithmetic = false) :
    effect.after.flags.carry = p.flags.carry ∧ effect.after.flags.overflow = p.flags.overflow := by
  obtain ⟨hflags, hcomparison⟩ := flags_effect h
  cases hcompares : i.opcode.compares with
  | false =>
    rw [hflags hcompares]
    exact ⟨rfl, rfl⟩
  | true =>
    obtain ⟨x, y, hxy⟩ := exists_comparison? hcompares harithmetic m
    rw [hcomparison x y hxy]
    exact ⟨Flags.carry_compared _ _ _, Flags.overflow_compared _ _ _⟩

end Instruction

/-! ### A step -/

/-- The scalars that a step with an instruction leaves, where `input` is the next word of input. -/
structure Machine.ScalarsAfter (m : Machine) (q : Processor) (i : Instruction)
    (input : Option Word) : Prop where
  /-- A jump that is taken leads to the effective address. -/
  pc_of_jumps : i.jumps m = true → i.address? m = some q.pc
  /-- A request for a word that is not there is made again. -/
  pc_of_waits : i.service? m = some 1 → input = none → q.pc = m.pc
  /-- Everything else is followed by what stands behind it. -/
  pc_of_goes_on : i.jumps m = false → ¬ (i.service? m = some 1 ∧ input = none) →
    q.pc = m.pc + .ofNat i.opcode.size
  ir_eq : q.ir = m.mem m.pc
  /-- A memory instruction latches its effective address, whether it uses it or not. -/
  adr_eq : q.control.adr = (i.address? m).getD m.control.adr
  dat_eq : q.control.dat = (i.moved? m).getD m.control.dat
  status_eq : q.control.status = (i.service? m).getD m.control.status
  flags_eq : i.opcode.compares = false → q.flags = m.flags
  carry_eq : i.opcode.isArithmetic = false →
    q.flags.carry = m.flags.carry ∧ q.flags.overflow = m.flags.overflow
  flags_of_comparison : ∀ x y, i.comparison? m = some (x, y) → q.flags = m.flags.compared x y
  count_eq : q.count = m.count + 1
  halted_eq : q.halted = (m.halted || decide (i.service? m = some 0))
  blocked_eq : q.blocked = (m.blocked || decide (i.service? m = some 1 ∧ input = none))

/-- What a step with an instruction does to each part of the machine. -/
structure Machine.Transition (m m' : Machine) (i : Instruction) (input : Option Word) : Prop
    extends m.ScalarsAfter m'.toProcessor i input where
  reg_of_result : ∀ d w, i.result? m input = some (d, w) → d ≠ 0 → m'.reg d = w
  /-- No other register is written than the instruction says. -/
  reg_of_notMem : ∀ r, r ∉ i.destinations m input → m'.reg r = m.reg r
  reg_zero : m'.reg 0 = m.reg 0
  mem_of_store : ∀ x w, i.stored? m = some (x, w) → m'.mem x = w
  /-- No other word is stored than the instruction says. -/
  mem_of_ne : ∀ x, (∀ w, i.stored? m ≠ some (x, w)) → m'.mem x = m.mem x

namespace Emulator

variable {i : Instruction} {effect : Effect} {m : Machine} {input : Option Word}

theorem scalarsAfter_effect (h : i.effect m (fetched m i.opcode.size) input = .ok effect) :
    m.ScalarsAfter { effect.after with count := effect.after.count + 1 } i input := by
  obtain ⟨hjumps, hwaits, hgoes⟩ := Instruction.pc_effect h rfl
  obtain ⟨hir, hcount, -⟩ := Instruction.frame_effect h
  have hcontrol := Instruction.control_effect h
  obtain ⟨hflags, hcomparison⟩ := Instruction.flags_effect h
  have hcarry := Instruction.carry_effect h
  obtain ⟨hhalted, hblocked⟩ := Instruction.stops_effect h
  exact ⟨hjumps, hwaits, hgoes, hir, congrArg Control.adr hcontrol, congrArg Control.dat hcontrol,
    congrArg Control.status hcontrol, hflags, hcarry, hcomparison, congrArg (· + 1) hcount, hhalted,
    hblocked⟩

/-- **Carrying out an effect**, and counting it, does to each part of the machine what the
instruction says. -/
theorem transition_effect (h : i.effect m (fetched m i.opcode.size) input = .ok effect) :
    m.Transition ((counted effect).apply m) i input := by
  have hscalars : ((counted effect).apply m).toProcessor
      = { effect.after with count := effect.after.count + 1 } := Effect.toProcessor_apply _ _
  obtain ⟨hdestinations, hresult⟩ := Instruction.writes_effect h rfl
  have hstore := Instruction.store_effect h
  have hreg : ∀ r, ((counted effect).apply m).reg r
      = (effect.writes.foldl Effect.writeReg
          { m with toProcessor := (counted effect).after }).reg r :=
    (counted effect).reg_apply m
  have hmem : ∀ x, ((counted effect).apply m).mem x
      = (effect.store.bind fun s => if s.1 = x then some s.2 else none).getD (m.mem x) :=
    (counted effect).mem_apply m
  refine ⟨hscalars ▸ scalarsAfter_effect h, fun d w hx hd => ?_, fun r hr => ?_,
    (counted effect).reg_zero_apply m, fun x w hx => ?_, fun x hne => ?_⟩
  · -- the result is the only word written
    rw [hreg, hresult _ hx]
    exact (Effect.reg_writeReg _ (d, w) d).trans (if_pos ⟨rfl, hd⟩)
  · -- what is no destination is in no write
    rw [hreg, Effect.reg_foldl_writeReg (.inr (hdestinations ▸ hr))]
    rfl
  · rw [hmem, hstore, hx, Option.bind_some, if_pos rfl, Option.getD_some]
  · rw [hmem, hstore]
    cases hs : i.stored? m with
    | none => rfl
    | some s =>
      have hs : s.1 ≠ x := fun heq => hne s.2 (hs.trans (congrArg some (Prod.ext heq rfl)))
      rw [Option.bind_some, if_neg hs, Option.getD_none]

/-- **Every step that succeeds** does to each part of the machine what its instruction says, told
from the machine before.  The program counter goes to the effective address of a jump that is taken,
back to a request that waits, and behind any other instruction.  The control words are latched and
the flags set by the instructions concerned only, a destination other than `R0` holds the address,
the word or the bitwise result that is meant for it, a store changes the one word it addresses; no
register, memory word or scalar changes besides.  The emulator has counted the instruction, and
given a word of input to a request that found one. -/
theorem step_transition {e e' : Emulator} {m m' : Machine} {access : Access}
    (h : e.step m = (.ok access, e', m')) :
    ∃ i, Instruction.fetch? m m.pc = some i ∧ m.Transition m' i e.input.peek ∧
      e' = e.note i.opcode (decide (i.service? m = some 1 ∧ e.input.peek.isSome = true)) := by
  obtain ⟨i, effect, hfetch, heffect, -, rfl, rfl⟩ := step_eq_ok_iff.mp h
  exact ⟨i, hfetch, transition_effect heffect,
    congrArg (e.note i.opcode) (Instruction.consumes_effect heffect)⟩

/-- A machine about to execute `jal R1,$0010[R1]`, whose displacement is at the other end of
memory. -/
def linking : Machine :=
  { ((Machine.zero.setMem 0xffff 0xf116).setMem 0 0x10).setReg 1 5 with pc := 0xffff }

/-- The target is formed with the word that the return address overwrites. -/
theorem step_transition_linking :
    ∃ access e' m', (ofInput [7]).step linking = (.ok access, e', m') ∧ m'.pc = 0x15 ∧
      m'.reg 1 = 1 ∧ m'.control.adr = 0x15 ∧ m'.control.dat = 0 ∧ m'.flags = linking.flags ∧
      (∀ r, r ≠ 1 → m'.reg r = linking.reg r) ∧ (∀ x, m'.mem x = linking.mem x) ∧
      e'.input.remaining = 1 := by
  have hword : linking.mem 0xffff = 0xf116 := by
    have hne : (0 : Address) ≠ 0xffff := by decide
    exact (Machine.mem_setMem _ _ _ _).trans
      ((if_neg hne).trans (Machine.mem_setMem_self Machine.zero _ _))
  have hnext : linking.mem 0 = 0x10 := Machine.mem_setMem_self _ _ _
  have hfetch : Instruction.fetch? linking linking.pc = some (.memory .jal 1 1 0x10) := by
    show Instruction.decode (linking.mem 0xffff) (linking.mem 0) = _
    rw [hword, hnext]
    rfl
  have hstep : ∃ access e' m', (ofInput [7]).step linking = (.ok access, e', m') :=
    ⟨_, _, _, step_eq_ok_iff.mpr ⟨_, _, hfetch, rfl, rfl, rfl, rfl⟩⟩
  obtain ⟨access, e', m', hstep⟩ := hstep
  obtain ⟨i, hi, ht, rfl⟩ := step_transition hstep
  obtain rfl := Option.some.inj (hfetch.symm.trans hi)
  have haddress : (Instruction.memory .jal 1 1 0x10).address? linking = some 0x15 := by decide
  refine ⟨access, _, m', hstep, ?_, ht.reg_of_result 1 1 (by decide) (by decide), ?_, ht.dat_eq,
    ht.flags_eq rfl, fun r hr => ?_, fun x => ht.mem_of_ne x nofun, rfl⟩
  · exact (Option.some.inj (haddress.symm.trans (ht.pc_of_jumps rfl))).symm
  · rw [ht.adr_eq, haddress]
    rfl
  · exact ht.reg_of_notMem r fun hmem => hr (List.mem_singleton.mp hmem)

end Emulator

end Hindsight
