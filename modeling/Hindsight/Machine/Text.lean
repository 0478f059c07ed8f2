import Hindsight.Machine.Basic

/-!
# The one-line text of a machine

All scalars and registers, and of memory the cells that are not zero.
-/

namespace Hindsight

/-- The elements in brackets, separated by commas. -/
def bracketed (items : List String) : String := "[" ++ ", ".intercalate items ++ "]"

/-- `true` or `false`. -/
def boolText (b : Bool) : String := if b then "true" else "false"

/-- The control words with their names. -/
def Control.text (c : Control) : String :=
  "ControlRegisters \x7b adr: " ++ Word.decimal c.adr ++ ", dat: " ++ Word.decimal c.dat ++
    ", status: " ++ Word.decimal c.status ++ " \x7d"

/-- The whole machine on one line. -/
def Machine.text (m : Machine) : String :=
  let cell := fun (e : Address × Word) => "(" ++ Word.decimal e.1 ++ ", " ++ Word.decimal e.2 ++ ")"
  "MachineState \x7b pc: 0x" ++ Word.hex m.pc ++ ", ir: 0x" ++ Word.hex m.ir ++
    ", registers: " ++ bracketed (m.registers.toList.map Word.decimal) ++
    ", flags: " ++ m.flags.text ++
    ", control: " ++ m.control.text ++
    ", instr_count: " ++ toString m.count.toNat ++
    ", halted: " ++ boolText m.halted ++
    ", blocked: " ++ boolText m.blocked ++
    ", nonzero_memory: " ++ bracketed (m.memory.nonzero.map cell) ++ " \x7d"

end Hindsight
