import Hindsight.Machine.Flags
import Hindsight.Machine.Memory

/-!
# The machine

A machine is its sixteen registers, its memory and its processor, the handful of
scalars that every instruction may touch.  Register `R0` is an ordinary cell here;
that it reads as zero is a rule of the instruction set.

## Main definitions

* `Control`, `Processor`, `Machine` — the parts and the whole.
* `Machine.reg`, `Machine.setReg`, `Machine.mem`, `Machine.setMem` — single cells.
* `Machine.load?` — puts object code at address 0.
* `Machine.copyFrom` — turns one machine into another, cell by cell.

## Main statements

* `Machine.ext_cells` — machines with equal processors and equal cells are equal.
* `Machine.copyFrom_eq` — copying leaves nothing of the old contents.
-/

namespace Hindsight

/-- The control words, a trace of what the last instructions did. -/
structure Control where
  /-- Effective address of the last two-word instruction. -/
  adr : Word := 0
  /-- Last word moved between a register and memory. -/
  dat : Word := 0
  /-- Code of the last trap. -/
  status : Word := 0
  deriving DecidableEq, Inhabited

/-- The scalars of the machine. -/
structure Processor where
  /-- Address of the next instruction. -/
  pc : Address := 0
  /-- First word of the last instruction fetched. -/
  ir : Word := 0
  flags : Flags := {}
  control : Control := {}
  /-- Instructions executed since the machine was reset. -/
  count : UInt64 := 0
  /-- Set by the halt request. -/
  halted : Bool := false
  /-- Set when the machine waits on input that is not there. -/
  blocked : Bool := false
  deriving DecidableEq, Inhabited

/-- A machine: its processor, registers and memory. -/
structure Machine extends Processor where
  registers : Vector Word 16
  memory : Memory
  deriving DecidableEq

namespace Machine

/-- The machine with every cell and scalar zero. -/
def zero : Machine := { registers := .replicate 16 0, memory := .zero }

instance : Inhabited Machine := ⟨zero⟩

/-- The word in a register. -/
def reg (m : Machine) (r : Reg) : Word := m.registers[r]

/-- Replaces the word in a register. -/
def setReg (m : Machine) (r : Reg) (w : Word) : Machine :=
  { m with registers := m.registers.set r w }

/-- The word at an address. -/
def mem (m : Machine) (a : Address) : Word := m.memory.get a

/-- Replaces the word at an address. -/
def setMem (m : Machine) (a : Address) (w : Word) : Machine :=
  { m with memory := m.memory.set a w }

/-! ### What the setters change -/

@[simp] theorem reg_zero (r : Reg) : zero.reg r = 0 := by simp [reg, zero]

@[simp] theorem mem_zero (a : Address) : zero.mem a = 0 := Memory.get_zero a

theorem reg_setReg (m : Machine) (r s : Reg) (w : Word) :
    (m.setReg r w).reg s = if r = s then w else m.reg s := by
  simp [reg, setReg, Vector.getElem_set, Fin.ext_iff]

@[simp] theorem reg_setReg_self (m : Machine) (r : Reg) (w : Word) : (m.setReg r w).reg r = w := by
  simp [reg_setReg]

@[simp] theorem mem_setReg (m : Machine) (r : Reg) (w : Word) (a : Address) :
    (m.setReg r w).mem a = m.mem a := rfl

@[simp] theorem toProcessor_setReg (m : Machine) (r : Reg) (w : Word) :
    (m.setReg r w).toProcessor = m.toProcessor := rfl

theorem mem_setMem (m : Machine) (a b : Address) (w : Word) :
    (m.setMem a w).mem b = if a = b then w else m.mem b :=
  Memory.get_set _ _ _ _

@[simp] theorem mem_setMem_self (m : Machine) (a : Address) (w : Word) :
    (m.setMem a w).mem a = w := by
  simp [mem_setMem]

@[simp] theorem reg_setMem (m : Machine) (a : Address) (w : Word) (r : Reg) :
    (m.setMem a w).reg r = m.reg r := rfl

@[simp] theorem toProcessor_setMem (m : Machine) (a : Address) (w : Word) :
    (m.setMem a w).toProcessor = m.toProcessor := rfl

/-- Machines with equal processors and equal cells are equal. -/
theorem ext_cells {m n : Machine} (hp : m.toProcessor = n.toProcessor)
    (hr : ∀ r, m.reg r = n.reg r) (hm : ∀ a, m.mem a = n.mem a) : m = n := by
  obtain ⟨p, rs, ms⟩ := m
  obtain ⟨p', rs', ms'⟩ := n
  obtain rfl : p = p' := hp
  obtain rfl : rs = rs' := Vector.ext fun i hi => hr ⟨i, hi⟩
  obtain rfl : ms = ms' := Memory.ext_get hm
  rfl

/-! ### Loading and copying -/

/-- Puts object code into memory from address 0 on; `none` if it does not fit. -/
def load? (m : Machine) (words : List Word) : Option Machine :=
  if words.length ≤ memorySize then some { m with memory := m.memory.load words } else none

/-- Overwrites the registers below `n` of `target`. -/
def copyRegistersBelow (target source : Vector Word 16) : (n : Nat) → n ≤ 16 → Vector Word 16
  | 0, _ => target
  | n + 1, h => copyRegistersBelow (target.set n source[n]) source n (Nat.le_of_succ_le h)

theorem getElem_copyRegistersBelow (target source : Vector Word 16) (n : Nat) (h : n ≤ 16)
    (i : Nat) (hi : i < 16) :
    (copyRegistersBelow target source n h)[i] = if i < n then source[i] else target[i] := by
  induction n generalizing target with
  | zero => simp [copyRegistersBelow]
  | succ n ih =>
    rw [copyRegistersBelow, ih]
    by_cases hlt : i < n
    · rw [if_pos hlt, if_pos (by omega)]
    · by_cases heq : n = i
      · subst heq; simp
      · rw [if_neg hlt, if_neg (by omega)]
        simp [heq]

/-- Turns `target` into a copy of `source` by overwriting every register, every memory cell
and every scalar in the storage of `target`. -/
def copyFrom (target source : Machine) : Machine :=
  { target with
    toProcessor := source.toProcessor
    registers := copyRegistersBelow target.registers source.registers 16 (Nat.le_refl _)
    memory := target.memory.copyFrom source.memory }

/-- Copying leaves nothing of the old contents. -/
theorem copyFrom_eq (target source : Machine) : target.copyFrom source = source := by
  refine ext_cells (by simp [copyFrom]) (fun r => ?_) fun a => ?_
  · exact (getElem_copyRegistersBelow _ _ _ _ _ _).trans (if_pos r.isLt)
  · exact congrArg (Memory.get · a) (Memory.copyFrom_eq _ _)

end Machine

end Hindsight
