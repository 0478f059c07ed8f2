/-!
# Opcodes

There are two families of instructions.  A register instruction is one word and works
on registers alone; a memory instruction is two words, the second being a
displacement, and loads, stores, forms an address or jumps.

## Main definitions

* `RegisterOp`, `MemoryOp`, `Opcode` — the families and their union.
* `Opcode.mnemonic`, `Opcode.ofMnemonic?` — the names in assembly source.
* `Opcode.ofFields?` — which opcode an instruction word holds.
* `Opcode.arity`, `Opcode.size` — operands in source and words in memory.

## Main statements

* `Opcode.ofFields?_register`, `Opcode.ofFields?_memory` — the code tables and their
  inverses agree.
* `Opcode.ofMnemonic?_mnemonic` — every mnemonic names its opcode.
-/

namespace Hindsight

/-- Operations of the one-word instructions. -/
inductive RegisterOp
  | add | sub | mul | div | cmp | and | or | xor | trap
  deriving DecidableEq, Inhabited

/-- Operations of the two-word instructions. -/
inductive MemoryOp
  | lea | load | store | jump | jumpz | jumpnz | jal | jumplt | jumpeq | jumpgt
  deriving DecidableEq, Inhabited

/-- The operation of any instruction. -/
inductive Opcode
  | register (op : RegisterOp)
  | memory (op : MemoryOp)
  deriving DecidableEq, Inhabited

/-! ### Register operations -/

namespace RegisterOp

/-- All register operations. -/
def all : List RegisterOp := [add, sub, mul, div, cmp, and, or, xor, trap]

/-- The name in assembly source. -/
def mnemonic : RegisterOp → String
  | add => "add"
  | sub => "sub"
  | mul => "mul"
  | div => "div"
  | cmp => "cmp"
  | and => "and"
  | or => "or"
  | xor => "xor"
  | trap => "trap"

/-- The operation field of the instruction word. -/
def code : RegisterOp → UInt8
  | add => 0x0
  | sub => 0x1
  | mul => 0x2
  | div => 0x3
  | cmp => 0x4
  | and => 0x5
  | or => 0x6
  | xor => 0x7
  | trap => 0xd

/-- The operation with a given code. -/
def ofCode? : UInt8 → Option RegisterOp
  | 0x0 => some add
  | 0x1 => some sub
  | 0x2 => some mul
  | 0x3 => some div
  | 0x4 => some cmp
  | 0x5 => some and
  | 0x6 => some or
  | 0x7 => some xor
  | 0xd => some trap
  | _ => none

@[simp] theorem ofCode?_code (op : RegisterOp) : ofCode? op.code = some op := by
  cases op <;> rfl

/-- Whether the source form names a destination; a comparison has none. -/
def hasDestination : RegisterOp → Bool
  | cmp => false
  | _ => true

theorem mem_all (op : RegisterOp) : op ∈ all := by cases op <;> decide

end RegisterOp

/-! ### Memory operations -/

namespace MemoryOp

/-- All memory operations. -/
def all : List MemoryOp := [lea, load, store, jump, jumpz, jumpnz, jal, jumplt, jumpeq, jumpgt]

/-- The name in assembly source. -/
def mnemonic : MemoryOp → String
  | lea => "lea"
  | load => "load"
  | store => "store"
  | jump => "jump"
  | jumpz => "jumpz"
  | jumpnz => "jumpnz"
  | jal => "jal"
  | jumplt => "jumplt"
  | jumpeq => "jumpeq"
  | jumpgt => "jumpgt"

/-- The secondary code, in the last field of the instruction word. -/
def code : MemoryOp → UInt8
  | lea => 0x0
  | load => 0x1
  | store => 0x2
  | jump => 0x3
  | jumpz => 0x4
  | jumpnz => 0x5
  | jal => 0x6
  | jumplt => 0x7
  | jumpeq => 0x8
  | jumpgt => 0x9

/-- The operation with a given secondary code. -/
def ofCode? : UInt8 → Option MemoryOp
  | 0x0 => some lea
  | 0x1 => some load
  | 0x2 => some store
  | 0x3 => some jump
  | 0x4 => some jumpz
  | 0x5 => some jumpnz
  | 0x6 => some jal
  | 0x7 => some jumplt
  | 0x8 => some jumpeq
  | 0x9 => some jumpgt
  | _ => none

@[simp] theorem ofCode?_code (op : MemoryOp) : ofCode? op.code = some op := by
  cases op <;> rfl

/-- Whether the source form names a register besides the address; jumps that look at no
register do not. -/
def namesRegister : MemoryOp → Bool
  | jump | jumplt | jumpeq | jumpgt => false
  | _ => true

theorem mem_all (op : MemoryOp) : op ∈ all := by cases op <;> decide

end MemoryOp

/-! ### Opcodes -/

namespace Opcode

/-- All opcodes, the register operations first. -/
def all : List Opcode := RegisterOp.all.map register ++ MemoryOp.all.map memory

/-- The number of opcodes. -/
def total : Nat := 19

/-- The place of an opcode in `Opcode.all`. -/
def index (op : Opcode) : Nat := all.idxOf op

/-- The operation field that marks a memory instruction. -/
def memoryMark : UInt8 := 0xf

/-- The name in assembly source. -/
def mnemonic : Opcode → String
  | register op => op.mnemonic
  | memory op => op.mnemonic

/-- The code of the operation within its family. -/
def code : Opcode → UInt8
  | register op => op.code
  | memory op => op.code

/-- The opcode of an instruction word with operation field `op` and last field `b`. -/
def ofFields? (op b : UInt8) : Option Opcode :=
  if op = memoryMark then (MemoryOp.ofCode? b).map memory else (RegisterOp.ofCode? op).map register

/-- A text with its ASCII letters in lower case. -/
def lowercase (s : String) : String := String.ofList (s.toList.map Char.toLower)

/-- The opcode with a given name, in any case of its letters. -/
def ofMnemonic? (name : String) : Option Opcode :=
  all.find? fun op => op.mnemonic = lowercase name

/-- The number of operands in assembly source. -/
def arity : Opcode → Nat
  | register op => if op.hasDestination then 3 else 2
  | memory op => if op.namesRegister then 2 else 1

/-- The number of words of an instruction. -/
def size : Opcode → Nat
  | register _ => 1
  | memory _ => 2

theorem mem_all (op : Opcode) : op ∈ all := by
  cases op with
  | register op => exact List.mem_append_left _ (List.mem_map_of_mem op.mem_all)
  | memory op => exact List.mem_append_right _ (List.mem_map_of_mem op.mem_all)

theorem length_all : all.length = total := rfl

theorem index_lt (op : Opcode) : op.index < total := by
  rw [← length_all]
  exact List.idxOf_lt_length_of_mem op.mem_all

theorem getElem?_index (op : Opcode) : all[op.index]? = some op := by
  cases op with
  | register op => cases op <;> rfl
  | memory op => cases op <;> rfl

/-- No two opcodes have one place. -/
theorem index_inj {op op' : Opcode} : op.index = op'.index ↔ op = op' := by
  refine ⟨fun h => ?_, congrArg index⟩
  have hop := op.getElem?_index
  rw [h, op'.getElem?_index] at hop
  exact (Option.some.inj hop).symm

theorem ofMnemonic?_mnemonic (op : Opcode) : ofMnemonic? op.mnemonic = some op := by
  cases op with
  | register op => cases op <;> decide
  | memory op => cases op <;> decide

theorem ofFields?_register (op : RegisterOp) (b : UInt8) :
    ofFields? op.code b = some (register op) := by
  cases op <;> rfl

theorem ofFields?_memory (op : MemoryOp) : ofFields? memoryMark op.code = some (memory op) := by
  cases op <;> rfl

end Opcode

end Hindsight
