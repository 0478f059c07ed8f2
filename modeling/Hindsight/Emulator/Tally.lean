import Hindsight.Isa.Opcode

/-!
# Tallies

How often each opcode has been executed, and the table that shows it.

## Main definitions

* `Tally` — a count per opcode.
* `Tally.count`, `Tally.record`, `Tally.sum` — reading and counting.
* `Tally.rows` — the table.
-/

namespace Hindsight

/-- A count per opcode. -/
structure Tally where
  /-- The counts in the order of `Opcode.all`. -/
  counts : Vector Nat Opcode.total
  deriving DecidableEq

namespace Tally

/-- Nothing executed yet. -/
def zero : Tally := ⟨.replicate Opcode.total 0⟩

instance : Inhabited Tally := ⟨zero⟩

/-- How often an opcode has been executed. -/
def count (t : Tally) (op : Opcode) : Nat :=
  have := op.index_lt
  t.counts[op.index]

/-- Counts one more execution. -/
def record (t : Tally) (op : Opcode) : Tally :=
  ⟨t.counts.set op.index (t.count op + 1) op.index_lt⟩

/-- The number of executions counted. -/
def sum (t : Tally) : Nat := Opcode.all.foldl (fun n op => n + t.count op) 0

/-- The opcodes executed at least once, with their counts, in the order of `Opcode.all`. -/
def executed (t : Tally) : List (Opcode × Nat) :=
  (Opcode.all.map fun op => (op, t.count op)).filter fun e => 0 < e.2

@[simp] theorem count_zero (op : Opcode) : zero.count op = 0 := by
  simp [count, zero]

theorem count_record (t : Tally) (op op' : Opcode) :
    (t.record op).count op' = if op = op' then t.count op + 1 else t.count op' := by
  simp [count, record, Vector.getElem_set, Opcode.index_inj]

/-! ### The table -/

/-- A name at the left and a number at the right of two columns of eight. -/
def row (name : String) (n : Nat) : String :=
  let number := toString n
  name ++ "".pushn ' ' (8 - name.length) ++ "".pushn ' ' (8 - number.length) ++ number

/-- A row for each opcode executed, then the total. -/
def rows (t : Tally) : List String :=
  t.executed.map (fun e => row e.1.mnemonic e.2) ++ [row "total" t.sum]

/-- The rows, a line each. -/
def text (t : Tally) : String := "\n".intercalate t.rows

end Tally

end Hindsight
