import Hindsight.Assembly.Line
import Hindsight.Isa.Instruction

/-!
# Statements

What a command emits: an instruction whose displacement may still be a label, or a list
of data words.

## Main definitions

* `Statement`, `Statement.ofCommand` — statements, and what a command means.
* `Statement.size` — the words emitted.
* `Statement.text` — the written form, in which labels and defaults are spelled out.
* `Statement.words` — the words, once labels have addresses.
-/

namespace Hindsight

/-- What a command emits. -/
inductive Statement
  | register (op : RegisterOp) (d a b : Reg)
  | memory (op : MemoryOp) (d : Reg) (disp : Value) (index : Reg)
  | data (values : List Value)
  deriving DecidableEq, Inhabited

namespace Statement

/-- The directive that emits its operands as words. -/
def dataDirective : String := "data"

/-! ### The meaning of a command -/

/-- The statement of a data directive. -/
def ofData (operands : List Operand) : Except SourceError Statement :=
  match operands with
  | [] => .error (.wrongArgumentCount dataDirective 1 0)
  | _ =>
    match operands.mapM Operand.asValue with
    | .ok values => .ok (data values)
    | .error cause => .error (.badArgument cause)

/-- The statement of an instruction, unless it has the wrong number of operands.  A comparison
and a jump that looks at no register have zero in the field they do not name. -/
def ofOperands? (opcode : Opcode) (operands : List Operand) :
    Option (Except BadArgument Statement) :=
  match opcode with
  | .register op =>
    match op.hasDestination, operands with
    | false, [a, b] => some do
      let a ← a.asRegister
      let b ← b.asRegister
      return register op 0 a b
    | true, [d, a, b] => some do
      let d ← d.asRegister
      let a ← a.asRegister
      let b ← b.asRegister
      return register op d a b
    | _, _ => none
  | .memory op =>
    match op.namesRegister, operands with
    | false, [address] => some do
      let (disp, index) ← address.asAddress
      return memory op 0 disp index
    | true, [d, address] => some do
      let (disp, index) ← address.asAddress
      let d ← d.asRegister
      return memory op d disp index
    | _, _ => none

/-- The statement of an instruction. -/
def ofInstruction (opcode : Opcode) (operands : List Operand) : Except SourceError Statement :=
  match ofOperands? opcode operands with
  | some (.ok statement) => .ok statement
  | some (.error cause) => .error (.badArgument cause)
  | none => .error (.wrongArgumentCount opcode.mnemonic opcode.arity operands.length)

/-- The statement that a command stands for. -/
def ofCommand (c : Command) : Except SourceError Statement :=
  if Opcode.lowercase c.mnemonic = dataDirective then ofData c.operands
  else
    match Opcode.ofMnemonic? c.mnemonic with
    | some opcode => ofInstruction opcode c.operands
    | none => .error (.unknownInstruction c.mnemonic)

/-! ### Size and text -/

/-- The number of words emitted. -/
def size : Statement → Nat
  | register op .. => (Opcode.register op).size
  | memory op .. => (Opcode.memory op).size
  | data values => values.length

/-- The written form. -/
def text : Statement → String
  | register op d a b =>
    let destination := if op.hasDestination then Reg.text d ++ "," else ""
    op.mnemonic ++ " " ++ destination ++ Reg.text a ++ "," ++ Reg.text b
  | memory op d disp index =>
    let destination := if op.namesRegister then Reg.text d ++ "," else ""
    op.mnemonic ++ " " ++ destination ++ disp.text ++ "[" ++ Reg.text index ++ "]"
  | data values => dataDirective ++ " " ++ ",".intercalate (values.map Value.text)

/-! ### Emission -/

/-- A register as a field of an instruction word. -/
def regField (r : Reg) : UInt8 := .ofNat r.val

/-- The word that a value stands for, given the addresses of labels. -/
def resolve (address : String → Option Address) : Value → Except SourceError Word
  | .literal word => .ok word
  | .label name =>
    match address name with
    | some a => .ok a
    | none => .error (.undefinedLabel name)

/-- The words of a statement, given the addresses of labels. -/
def words (address : String → Option Address) : Statement → Except SourceError (List Word)
  | register op d a b => .ok (Instruction.register op (regField d) (regField a) (regField b)).encode
  | memory op d disp index => do
    let disp ← resolve address disp
    return (Instruction.memory op (regField d) (regField index) disp).encode
  | data values => values.mapM (resolve address)

end Statement

end Hindsight
