import Hindsight.Delta
import Hindsight.Proofs.Timeline.Execution

/-!
# Redoing the step that a delta was computed from

A delta between two machines, applied to the first one, restores every scalar and every
register of the second one, under either memory scan.  The full scan restores memory too.
The write-set scan restores the words that the report lists and leaves the others as they
were, so the two scans agree exactly when the report covers the step.

## Main results

* `Delta.apply_between_full` — the full scan loses nothing.
* `Delta.mem_apply_between_writeSet` — what the write-set scan does to each memory word.
* `Delta.between_writeSet_eq_full` — under a covering report the scans agree.
* `Delta.size_registers_between_le`, `Delta.size_memory_between_writeSet_le` — a delta lists no
  more than was reported.
-/

namespace Hindsight

namespace Delta

/-! ### Either scan -/

@[simp] theorem toProcessor_apply_between (scan : MemoryScan) (before after : Machine)
    (access : Access) :
    ((between scan before after access).apply before).toProcessor = after.toProcessor :=
  toProcessor_apply _ _

/-- A register that is not listed is one that did not change. -/
@[simp] theorem reg_apply_between (scan : MemoryScan) (before after : Machine) (access : Access)
    (r : Reg) :
    ((between scan before after access).apply before).reg r = after.reg r := by
  rw [reg_apply, find?_registers_between]
  by_cases h : before.reg r = after.reg r
  · rw [if_pos h]; exact h
  · rw [if_neg h]; rfl

/-- Deltas between the same machines, from reports of the same registers, are equal if they list
the same memory words: the words are all that a scan and the addresses of a report decide. -/
theorem between_eq_of_find? {scan scan' : MemoryScan} {before after : Machine}
    {access access' : Access} (hread : access.read = access'.read)
    (hwritten : access.written = access'.written)
    (h : ∀ a, (between scan before after access).memory.find? a
      = (between scan' before after access').memory.find? a) :
    between scan before after access = between scan' before after access' := by
  have hmem := SortedMap.ext_find? h
  unfold between at hmem ⊢
  rw [mk.injEq]
  exact ⟨rfl, rfl, rfl, hmem, hread, hwritten⟩

/-! ### The full scan -/

/-- **The full scan is exact**: its delta turns the first machine into the second, whatever
the report says. -/
theorem apply_between_full (before after : Machine) (access : Access) :
    (between .full before after access).apply before = after := by
  refine Machine.ext_cells (toProcessor_apply_between _ _ _ _)
    (reg_apply_between _ _ _ _) fun a => ?_
  rw [mem_apply, find?_memory_between_full]
  by_cases h : before.mem a = after.mem a
  · rw [if_pos h]; exact h
  · rw [if_neg h]; rfl

/-! ### The write-set scan -/

/-- The write-set scan brings the reported words up to date and leaves all others alone. -/
theorem mem_apply_between_writeSet (before after : Machine) (access : Access) (a : Address) :
    ((between .writeSet before after access).apply before).mem a
      = if a ∈ access.addresses then after.mem a else before.mem a := by
  rw [mem_apply, find?_memory_between_writeSet]
  by_cases ha : a ∈ access.addresses
  · by_cases h : before.mem a = after.mem a
    · rw [if_pos ha, if_neg fun hne => hne.2 h]; exact h
    · rw [if_pos ha, if_pos ⟨ha, h⟩]; rfl
  · rw [if_neg ha, if_neg fun h => ha h.1]; rfl

/-- Under a covering report the two scans compute the same delta. -/
theorem between_writeSet_eq_full {before after : Machine} {access : Access}
    (h : access.Covers before after) :
    between .writeSet before after access = between .full before after access := by
  refine between_eq_of_find? rfl rfl fun a => ?_
  rw [find?_memory_between_writeSet, find?_memory_between_full]
  by_cases ha : before.mem a = after.mem a
  · rw [if_pos ha, if_neg fun hne => hne.2 ha]
  · rw [if_neg ha, if_pos ⟨h a ha, ha⟩]

/-! ### How much is listed -/

/-- No more registers are listed than reported, if all that changed are reported. -/
theorem size_registers_between_le {scan : MemoryScan} {before after : Machine} {access : Access}
    (h : ∀ r, before.reg r ≠ after.reg r → access.written.contains r = true) :
    (between scan before after access).registers.size ≤ access.written.size := by
  refine Nat.le_trans (SortedMap.size_ofEntries_le _) ?_
  rw [changedRegisters, List.length_filterMap_eq_countP, access.written.size_eq_countP]
  refine List.countP_mono_left fun r _ hr => h r ?_
  split at hr
  · cases hr
  · assumption

/-- The write-set scan lists no more memory words than are reported. -/
theorem size_memory_between_writeSet_le (before after : Machine) (access : Access) :
    (between .writeSet before after access).memory.size ≤ access.addresses.length :=
  Nat.le_trans (SortedMap.size_ofEntries_le _) (List.length_filterMap_le _ _)

end Delta
end Hindsight
