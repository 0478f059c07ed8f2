import Hindsight.Access
import Hindsight.SortedMap
import Hindsight.Machine.Basic

/-!
# Deltas

A delta is the record of one step: the registers and memory words whose value the
step changed, with their new values, and all scalars of the machine after it.  The
scalars are few, so they are kept whether they changed or not.

## Main definitions

* `MemoryScan` — whether a comparison trusts the reported addresses.
* `Delta.between` — the delta that leads from one machine to another.
* `Delta.apply` — redoes the step on a machine.

## Main statements

* `Delta.find?_registers_between`, `Delta.find?_memory_between_full`,
  `Delta.find?_memory_between_writeSet` — which cells a delta lists.
* `Delta.reg_apply`, `Delta.mem_apply`, `Delta.toProcessor_apply` — what applying does.
-/

namespace Hindsight

/-- Which memory words are compared to find the ones a step changed. -/
inductive MemoryScan
  /-- Only the addresses that the engine reports as written. -/
  | writeSet
  /-- Every address. -/
  | full
  deriving DecidableEq, Inhabited

/-- What one step changed. -/
structure Delta where
  /-- Address that the instruction was fetched from. -/
  origin : Address
  /-- The scalars after the step. -/
  after : Processor
  /-- The registers that changed, with their new values. -/
  registers : SortedMap Reg Word
  /-- The memory words that changed, with their new values. -/
  memory : SortedMap Address Word
  /-- The registers reported as read. -/
  fetched : RegisterSet
  /-- The registers reported as written, changed or not. -/
  stored : RegisterSet
  deriving DecidableEq

namespace Delta

/-! ### Computing a delta -/

/-- The registers in which `after` differs from `before`, with their later values. -/
def changedRegisters (before after : Machine) : List (Reg × Word) :=
  (List.finRange 16).filterMap fun r =>
    if before.reg r = after.reg r then none else some (r, after.reg r)

/-- Those of the given addresses at which `after` differs from `before`, with their later
words. -/
def changedAmong (before after : Machine) (addresses : List Address) : List (Address × Word) :=
  addresses.filterMap fun a => if before.mem a = after.mem a then none else some (a, after.mem a)

/-- The delta that leads from `before` to `after`.  The report supplies the annotations and,
under `MemoryScan.writeSet`, the memory words to compare. -/
def between (scan : MemoryScan) (before after : Machine) (access : Access) : Delta where
  origin := before.pc
  after := after.toProcessor
  registers := .ofEntries (changedRegisters before after)
  memory := .ofEntries <| match scan with
    | .writeSet => changedAmong before after access.addresses
    | .full => before.memory.changes after.memory
  fetched := access.read
  stored := access.written

/-- The number of registers and memory words listed. -/
def changedCells (d : Delta) : Nat := d.registers.size + d.memory.size

theorem registers_between (scan : MemoryScan) (before after : Machine) (access : Access) :
    (between scan before after access).registers = .ofEntries (changedRegisters before after) :=
  rfl

theorem find?_registers_between (scan : MemoryScan) (before after : Machine) (access : Access)
    (r : Reg) :
    (between scan before after access).registers.find? r =
      if before.reg r = after.reg r then none else some (after.reg r) := by
  rw [registers_between, SortedMap.find?_ofEntries_of_forall (f := after.reg)]
  · by_cases h : before.reg r = after.reg r
    · rw [if_pos h, if_neg]
      simp only [changedRegisters, List.mem_map, List.mem_filterMap, not_exists, not_and]
      rintro e ⟨s, -, hs⟩ rfl
      split at hs
      · simp at hs
      · next hne => obtain rfl := Option.some.inj hs; exact hne h
    · rw [if_neg h, if_pos]
      exact List.mem_map.2 ⟨_, List.mem_filterMap.2 ⟨r, List.mem_finRange r, if_neg h⟩, rfl⟩
  · simp only [changedRegisters, List.mem_filterMap]
    rintro e ⟨s, -, hs⟩
    split at hs
    · simp at hs
    · obtain rfl := Option.some.inj hs; rfl

theorem memory_between_full (before after : Machine) (access : Access) :
    (between .full before after access).memory = .ofEntries (before.memory.changes after.memory) :=
  rfl

theorem memory_between_writeSet (before after : Machine) (access : Access) :
    (between .writeSet before after access).memory =
      .ofEntries (changedAmong before after access.addresses) :=
  rfl

theorem find?_memory_between_full (before after : Machine) (access : Access) (a : Address) :
    (between .full before after access).memory.find? a =
      if before.mem a = after.mem a then none else some (after.mem a) := by
  rw [memory_between_full, SortedMap.find?_ofEntries_of_forall (f := after.mem)]
  · by_cases h : before.mem a = after.mem a
    · rw [if_pos h, if_neg]
      simp only [List.mem_map, not_exists, not_and]
      rintro e he rfl
      exact (Memory.mem_changes.1 he).1 h
    · rw [if_neg h, if_pos]
      exact List.mem_map.2 ⟨(a, after.mem a), Memory.mem_changes.2 ⟨h, rfl⟩, rfl⟩
  · exact fun e he => (Memory.mem_changes.1 he).2

theorem find?_memory_between_writeSet (before after : Machine) (access : Access) (a : Address) :
    (between .writeSet before after access).memory.find? a =
      if a ∈ access.addresses ∧ before.mem a ≠ after.mem a then some (after.mem a) else none := by
  rw [memory_between_writeSet, SortedMap.find?_ofEntries_of_forall (f := after.mem)]
  · refine ite_congr (propext ⟨?_, fun ⟨ha, hne⟩ => ?_⟩) (fun _ => rfl) fun _ => rfl
    · simp only [changedAmong, List.mem_map, List.mem_filterMap]
      rintro ⟨e, ⟨b, hb, hs⟩, rfl⟩
      split at hs
      · simp at hs
      · next hne => obtain rfl := Option.some.inj hs; exact ⟨hb, hne⟩
    · exact List.mem_map.2 ⟨_, List.mem_filterMap.2 ⟨a, ha, if_neg hne⟩, rfl⟩
  · simp only [changedAmong, List.mem_filterMap]
    rintro e ⟨b, -, hs⟩
    split at hs
    · simp at hs
    · obtain rfl := Option.some.inj hs; rfl

/-! ### Applying a delta -/

/-- Writes a list of registers. -/
def setRegs (m : Machine) (l : List (Reg × Word)) : Machine :=
  l.foldl (fun m e => m.setReg e.1 e.2) m

/-- Writes a list of memory words. -/
def setMems (m : Machine) (l : List (Address × Word)) : Machine :=
  l.foldl (fun m e => m.setMem e.1 e.2) m

/-- Redoes the recorded step: the scalars are replaced, the listed cells written, and all
other cells kept. -/
def apply (d : Delta) (m : Machine) : Machine :=
  setMems (setRegs { m with toProcessor := d.after } d.registers.entries) d.memory.entries

@[simp] theorem toProcessor_setRegs (m : Machine) (l : List (Reg × Word)) :
    (setRegs m l).toProcessor = m.toProcessor := by
  induction l generalizing m with
  | nil => rfl
  | cons e rest ih => exact (ih _).trans (Machine.toProcessor_setReg m e.1 e.2)

@[simp] theorem mem_setRegs (m : Machine) (l : List (Reg × Word)) (a : Address) :
    (setRegs m l).mem a = m.mem a := by
  induction l generalizing m with
  | nil => rfl
  | cons e rest ih => exact (ih _).trans (Machine.mem_setReg m e.1 e.2 a)

@[simp] theorem toProcessor_setMems (m : Machine) (l : List (Address × Word)) :
    (setMems m l).toProcessor = m.toProcessor := by
  induction l generalizing m with
  | nil => rfl
  | cons e rest ih => exact (ih _).trans (Machine.toProcessor_setMem m e.1 e.2)

@[simp] theorem reg_setMems (m : Machine) (l : List (Address × Word)) (r : Reg) :
    (setMems m l).reg r = m.reg r := by
  induction l generalizing m with
  | nil => rfl
  | cons e rest ih => exact (ih _).trans (Machine.reg_setMem m e.1 e.2 r)

theorem reg_setRegs (m : Machine) {l : List (Reg × Word)}
    (h : l.Pairwise fun x y => x.1 < y.1) (r : Reg) :
    (setRegs m l).reg r = (l.lookup r).getD (m.reg r) := by
  induction l generalizing m with
  | nil => rfl
  | cons e rest ih =>
    obtain ⟨hhead, htail⟩ := List.pairwise_cons.1 h
    rw [show setRegs m (e :: rest) = setRegs (m.setReg e.1 e.2) rest from rfl, ih _ htail,
      Machine.reg_setReg, SortedMap.lookup_cons_ite]
    by_cases hr : r = e.1
    · rw [if_pos hr, if_pos hr.symm, hr, SortedMap.lookup_eq_none_of_lt hhead]; rfl
    · rw [if_neg hr, if_neg (Ne.symm hr)]

theorem mem_setMems (m : Machine) {l : List (Address × Word)}
    (h : l.Pairwise fun x y => x.1 < y.1) (a : Address) :
    (setMems m l).mem a = (l.lookup a).getD (m.mem a) := by
  induction l generalizing m with
  | nil => rfl
  | cons e rest ih =>
    obtain ⟨hhead, htail⟩ := List.pairwise_cons.1 h
    rw [show setMems m (e :: rest) = setMems (m.setMem e.1 e.2) rest from rfl, ih _ htail,
      Machine.mem_setMem, SortedMap.lookup_cons_ite]
    by_cases ha : a = e.1
    · rw [if_pos ha, if_pos ha.symm, ha, SortedMap.lookup_eq_none_of_lt hhead]; rfl
    · rw [if_neg ha, if_neg (Ne.symm ha)]

@[simp] theorem toProcessor_apply (d : Delta) (m : Machine) :
    (d.apply m).toProcessor = d.after := by
  simp [apply]

/-- A listed register gets its listed value, any other keeps its own. -/
theorem reg_apply (d : Delta) (m : Machine) (r : Reg) :
    (d.apply m).reg r = (d.registers.find? r).getD (m.reg r) := by
  rw [apply, reg_setMems, reg_setRegs _ d.registers.ascending]; rfl

/-- A listed memory word gets its listed value, any other keeps its own. -/
theorem mem_apply (d : Delta) (m : Machine) (a : Address) :
    (d.apply m).mem a = (d.memory.find? a).getD (m.mem a) := by
  rw [apply, mem_setMems _ d.memory.ascending, mem_setRegs]; rfl

end Delta

end Hindsight
