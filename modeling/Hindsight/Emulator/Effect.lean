import Hindsight.Access
import Hindsight.Emulator.Arithmetic
import Hindsight.Isa.Instruction

/-!
# What an instruction does

The meaning of each instruction is a value, its `Effect`: what it reads, writes and
stores, and the scalars it leaves.  `Effect.apply` is the only place where an
instruction changes a machine, and `Effect.access` the only place where its report is
made, so the report cannot disagree with the change.

Register `R0` reads as zero.  A write to it is dropped and not reported.

## Main definitions

* `Fault` — why an instruction cannot be executed.
* `Effect`, `Effect.apply`, `Effect.access` — the description, carried out and reported.
* `RegisterOp.effect`, `MemoryOp.effect`, `Instruction.effect` — the instruction set.
-/

namespace Hindsight

/-! ### Faults -/

/-- Why an instruction cannot be executed. -/
inductive Fault
  /-- The word at an address begins no instruction. -/
  | invalidInstruction (word : Word) (address : Address)
  /-- A division at an address has a zero divisor. -/
  | divisionByZero (address : Address)
  /-- A trap at an address asks for an unknown service. -/
  | unknownTrap (code : Word) (address : Address)
  deriving DecidableEq

namespace Fault

/-- The message of a fault. -/
def message : Fault → String
  | invalidInstruction word address =>
    "Invalid instruction 0x" ++ Word.hex word ++ " at 0x" ++ Word.hex address
  | divisionByZero address => "Division by zero at 0x" ++ Word.hex address
  | unknownTrap code address =>
    "Unknown trap code " ++ Word.decimal code ++ " at 0x" ++ Word.hex address

instance : ToString Fault := ⟨message⟩

/-- The scalars that a fault leaves: an unknown trap code has been latched by then. -/
def leaves : Fault → Processor → Processor
  | unknownTrap code _, p => { p with control := { p.control with status := code } }
  | _, p => p

end Fault

/-! ### Effects -/

/-- What one instruction does. -/
structure Effect where
  /-- The registers it looks at. -/
  reads : RegisterSet
  /-- The registers it writes, in order. -/
  writes : List (Reg × Word) := []
  /-- The memory word it stores. -/
  store : Option (Address × Word) := none
  /-- The scalars it leaves. -/
  after : Processor
  /-- Whether it takes a word of input. -/
  consumes : Bool := false

namespace Effect

/-- Writes a register, unless it is `R0`. -/
def writeReg (m : Machine) (e : Reg × Word) : Machine :=
  if e.1 = 0 then m else m.setReg e.1 e.2

/-- Carries out an effect on the machine it was found for. -/
def apply (e : Effect) (m : Machine) : Machine :=
  let m := e.writes.foldl writeReg { m with toProcessor := e.after }
  match e.store with
  | none => m
  | some (a, w) => m.setMem a w

/-- Reports an effect. -/
def access (e : Effect) : Access where
  read := e.reads
  written := .ofList ((e.writes.map (·.1.val)).filter (· ≠ 0))
  addresses := (e.store.map (·.1)).toList

end Effect

/-- A register as an operand: `R0` reads as zero. -/
def Machine.operand (m : Machine) (r : Reg) : Word := if r = 0 then 0 else m.reg r

@[simp] theorem Machine.operand_zero (m : Machine) : m.operand 0 = 0 := rfl

/-! ### Register instructions -/

/-- The register that takes the remainder of a division. -/
def remainderReg : Reg := 15

/-- The effect of an arithmetic instruction with result `r`. -/
def Arithmetic.effect (r : Arithmetic) (d a b : Reg) (p : Processor) : Effect where
  reads := .ofList [a, b]
  writes := [(d, r.value)]
  after := { p with flags := r.flags }

/-- The effect of a bitwise instruction with result `w`. -/
def bitwiseEffect (w : Word) (d a b : Reg) (p : Processor) : Effect where
  reads := .ofList [a, b]
  writes := [(d, w)]
  after := { p with flags := p.flags.compared (Word.signed w) 0 }

/-- The effect of a trap, whose service code is in `Rd`: 0 halts, and 1 reads a word of input
into `Ra` or blocks at the same instruction until there is one. -/
def trapEffect (d a : Reg) (m : Machine) (p : Processor) (input : Option Word) :
    Except Fault Effect :=
  let code := m.operand d
  let p' := { p with control := { p.control with status := code } }
  if code = 0 then
    .ok { reads := .ofList [d], after := { p' with halted := true } }
  else if code = 1 then
    match input with
    | some w => .ok { reads := .ofList [d], writes := [(a, w)], after := p', consumes := true }
    -- The trap is executed again once there is input.
    | none => .ok { reads := .ofList [d], after := { p' with blocked := true, pc := m.pc } }
  else
    .error (.unknownTrap code m.pc)

/-- The effect of a register instruction on `m`, where `p` holds the scalars after the fetch and
`input` the next word of input. -/
def RegisterOp.effect (op : RegisterOp) (d a b : Reg) (m : Machine) (p : Processor)
    (input : Option Word) : Except Fault Effect :=
  let x := m.operand a
  let y := m.operand b
  match op with
  | .add => .ok ((Arithmetic.add x y).effect d a b p)
  | .sub => .ok ((Arithmetic.sub x y).effect d a b p)
  | .mul => .ok ((Arithmetic.mul x y).effect d a b p)
  | .div =>
    if y = 0 then .error (.divisionByZero m.pc)
    else
      -- The remainder is written last, so it wins when `Rd` is its register too.
      let e := (Arithmetic.div x y).effect d a b p
      .ok { e with writes := e.writes ++ [(remainderReg, Arithmetic.remainder x y)] }
  | .cmp => .ok
      { reads := .ofList [a, b]
        after := { p with flags := p.flags.compared (Word.signed x) (Word.signed y) } }
  | .and => .ok (bitwiseEffect (x &&& y) d a b p)
  | .or => .ok (bitwiseEffect (x ||| y) d a b p)
  | .xor => .ok (bitwiseEffect (x ^^^ y) d a b p)
  | .trap => trapEffect d a m p input

/-! ### Memory instructions -/

/-- The effect of a jump to `target` that is taken if `taken` holds. -/
def jumpEffect (reads : RegisterSet) (target : Address) (taken : Bool) (p : Processor) :
    Effect where
  reads := reads
  after := if taken then { p with pc := target } else p

/-- The effect of a memory instruction on `m`, where `p` holds the scalars after the fetch.
Every one latches its effective address, whether it uses it or not. -/
def MemoryOp.effect (op : MemoryOp) (d a : Reg) (disp : Word) (m : Machine) (p : Processor) :
    Effect :=
  let address := disp + m.operand a
  let p := { p with control := { p.control with adr := address } }
  let moved := fun w : Word => { p with control := { p.control with dat := w } }
  match op with
  | .lea => { reads := .ofList [a], writes := [(d, address)], after := p }
  | .load =>
    { reads := .ofList [a], writes := [(d, m.mem address)], after := moved (m.mem address) }
  | .store =>
    { reads := .ofList [a, d]
      store := some (address, m.operand d)
      after := moved (m.operand d) }
  | .jump => jumpEffect (.ofList [a]) address true p
  | .jumpz => jumpEffect (.ofList [d, a]) address (m.operand d = 0) p
  | .jumpnz => jumpEffect (.ofList [d, a]) address (m.operand d ≠ 0) p
  | .jal => { jumpEffect (.ofList [a]) address true p with writes := [(d, p.pc)] }
  | .jumplt => jumpEffect (.ofList [a]) address p.flags.lt p
  | .jumpeq => jumpEffect (.ofList [a]) address p.flags.eq p
  | .jumpgt => jumpEffect (.ofList [a]) address p.flags.gt p

/-- The effect of an instruction on `m`, where `p` holds the scalars after the fetch and `input`
the next word of input. -/
def Instruction.effect (i : Instruction) (m : Machine) (p : Processor) (input : Option Word) :
    Except Fault Effect :=
  match i with
  | .register op d a b => op.effect (fieldReg d) (fieldReg a) (fieldReg b) m p input
  | .memory op d a disp => .ok (op.effect (fieldReg d) (fieldReg a) disp m p)

end Hindsight
