import Hindsight.Emulator.Effect
import Hindsight.Emulator.Input
import Hindsight.Emulator.Tally
import Hindsight.Engine

/-!
# The emulator

The machine's own engine.  Besides the machine it keeps the input and a tally of the
opcodes executed; a reset rewinds the one and clears the other.

## Main definitions

* `Emulator` — input and tally.
* `Emulator.step` — executes the instruction at the program counter.
* `Emulator.run` — executes instructions without recording them.
* `Emulator.engine` — the emulator as an engine.
-/

namespace Hindsight

/-- What the emulator keeps besides the machine. -/
structure Emulator where
  input : Input
  tally : Tally
  deriving DecidableEq, Inhabited

namespace Emulator

/-- An emulator that serves the given words to read requests. -/
def ofInput (words : List Word) : Emulator := ⟨.ofList words, .zero⟩

/-- The emulator as it was made. -/
def rewind (e : Emulator) : Emulator := ⟨e.input.rewind, .zero⟩

/-- The scalars after fetching an instruction of `size` words. -/
def fetched (m : Machine) (size : Nat) : Processor :=
  { m.toProcessor with pc := m.pc + .ofNat size, ir := m.mem m.pc }

/-- Takes note of an executed instruction. -/
def note (e : Emulator) (op : Opcode) (consumes : Bool) : Emulator where
  input := if consumes then e.input.advance else e.input
  tally := e.tally.record op

/-- Executes the instruction at the program counter.  After a fault the machine keeps what the
fetch had changed, and the emulator is as before. -/
def step (e : Emulator) (m : Machine) : Except Fault Access × Emulator × Machine :=
  match Instruction.fetch? m m.pc with
  | none =>
    (.error (.invalidInstruction (m.mem m.pc) m.pc), e, { m with toProcessor := fetched m 1 })
  | some i =>
    -- Operands come from `m`, as it was before the fetch; scalars change from `p` on.
    let p := fetched m i.opcode.size
    match i.effect m p e.input.peek with
    | .error fault => (.error fault, e, { m with toProcessor := fault.leaves p })
    | .ok effect =>
      let after := { effect.after with count := effect.after.count + 1 }
      (.ok effect.access, e.note i.opcode effect.consumes, { effect with after }.apply m)

/-- Whether a machine has halted or waits on input. -/
def isHalted (m : Machine) : Bool := m.halted || m.blocked

/-- Executes until the machine halts or blocks, at most `fuel` instructions on top of the `steps`
executed before, and gives the number executed. -/
def runFrom (steps : Nat) :
    (fuel : Nat) → Emulator → Machine → Except Fault Nat × Emulator × Machine
  | 0, e, m => (.ok steps, e, m)
  | fuel + 1, e, m =>
    if isHalted m then (.ok steps, e, m)
    else
      match e.step m with
      | (.error fault, e, m) => (.error fault, e, m)
      | (.ok _, e, m) => runFrom (steps + 1) fuel e m

/-- Executes until the machine halts or blocks, at most `limit` instructions, and gives the number
executed. -/
def run (e : Emulator) (m : Machine) (limit : Nat) : Except Fault Nat × Emulator × Machine :=
  runFrom 0 limit e m

/-- The emulator as an engine.  A reset gives the zero machine. -/
def engine : Engine Emulator Fault where
  reset e := (e.rewind, .zero)
  step := step
  isHalted _ m := isHalted m

end Emulator

end Hindsight
