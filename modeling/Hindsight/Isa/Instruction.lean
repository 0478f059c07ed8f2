import Hindsight.Isa.Opcode
import Hindsight.Machine.Basic

/-!
# Instructions

An instruction word consists of four 4-bit fields `op d a b`.  A register instruction
has its code in `op` and registers in the others.  A memory instruction is marked in
`op`, has registers in `d` and `a`, a secondary code in `b`, and is followed by its
displacement.

Register fields are bytes here: encoding takes their low four bits, and decoding gives
values below 16.

## Main definitions

* `Instruction` — a decoded instruction.
* `Instruction.encode`, `Instruction.decode` — to words and back.
* `Instruction.fetch?` — the instruction in memory at an address.
* `Instruction.text` — the assembly form.
-/

namespace Hindsight

/-! ### Instruction words -/

/-- The four fields of an instruction word. -/
structure Fields where
  op : UInt8
  d : UInt8
  a : UInt8
  b : UInt8
  deriving DecidableEq

/-- Splits a word into its fields, the operation being the highest. -/
def Fields.ofWord (w : Word) : Fields where
  op := .ofNat (w.toNat / 4096 % 16)
  d := .ofNat (w.toNat / 256 % 16)
  a := .ofNat (w.toNat / 16 % 16)
  b := .ofNat (w.toNat % 16)

/-- Joins the low four bits of each field into a word. -/
def Fields.toWord (f : Fields) : Word :=
  .ofNat (f.op.toNat % 16 * 4096 + f.d.toNat % 16 * 256 + f.a.toNat % 16 * 16 + f.b.toNat % 16)

/-- The register that a field names. -/
def fieldReg (f : UInt8) : Reg := Fin.ofNat 16 f.toNat

/-- An instruction, as decoded. -/
inductive Instruction
  | register (op : RegisterOp) (d a b : UInt8)
  | memory (op : MemoryOp) (d a : UInt8) (disp : Word)
  deriving DecidableEq

namespace Instruction

/-- The opcode. -/
def opcode : Instruction → Opcode
  | register op _ _ _ => .register op
  | memory op _ _ _ => .memory op

/-- The words of an instruction. -/
def encode : Instruction → List Word
  | register op d a b => [Fields.toWord ⟨op.code, d, a, b⟩]
  | memory op d a disp => [Fields.toWord ⟨Opcode.memoryMark, d, a, op.code⟩, disp]

/-- The instruction that starts with `word`; `next` is the word behind it, which only a
memory instruction has to itself. -/
def decode (word next : Word) : Option Instruction :=
  let f := Fields.ofWord word
  match Opcode.ofFields? f.op f.b with
  | some (.register op) => some (register op f.d f.a f.b)
  | some (.memory op) => some (memory op f.d f.a next)
  | none => none

/-- The instruction in memory at an address, whose second word may lie at address 0. -/
def fetch? (m : Machine) (a : Address) : Option Instruction := decode (m.mem a) (m.mem (a + 1))

theorem length_encode (i : Instruction) : i.encode.length = i.opcode.size := by
  cases i <;> rfl

/-! ### The assembly form -/

/-- A register field as written. -/
def fieldText (f : UInt8) : String := "R" ++ toString f.toNat

/-- The assembly form, with the displacement in hexadecimal. -/
def text : Instruction → String
  | register op d a b =>
    let destination := if op.hasDestination then fieldText d ++ "," else ""
    op.mnemonic ++ " " ++ destination ++ fieldText a ++ "," ++ fieldText b
  | memory op d a disp =>
    let destination := if op.namesRegister then fieldText d ++ "," else ""
    op.mnemonic ++ " " ++ destination ++ "$" ++ Word.hex disp ++ "[" ++ fieldText a ++ "]"

end Instruction

end Hindsight
