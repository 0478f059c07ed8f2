import Hindsight.Proofs.Timeline.Deltas

/-!
# Reports that cover a step

A delta is computed from two machines and a report, and none of the three is known to be good: the
machines need not be one step apart, and the report may leave out a word that changed, list one that
did not, or list one several times.  The full scan takes no notice of the addresses reported.  The
write-set scan loses just the changes that were left out, so that it is exact for a report that
covers the step, and for no other.

## Main definitions

* `Machine.LagsBehind` — a machine that has missed the changes left out of a report.

## Main results

* `Delta.apply_apply` — redoing a step twice is redoing it once.
* `Delta.between_congr` — a report counts as the set of its addresses.
* `Delta.apply_between_writeSet_eq_iff`, `Delta.between_writeSet_eq_full_iff` — what the write-set
  scan needs to be exact.
* `Delta.between_reproduces` — **a delta reproduces its step as far as it was reported.**
-/

namespace Hindsight

/-- The machine `m` is `after`, except that it lags behind in every word that changed and was not
reported. -/
structure Machine.LagsBehind (m before after : Machine) (access : Access) : Prop where
  toProcessor_eq : m.toProcessor = after.toProcessor
  reg_eq : ∀ r, m.reg r = after.reg r
  mem_eq : ∀ a, m.mem a
    = if before.mem a ≠ after.mem a ∧ a ∉ access.addresses then before.mem a else after.mem a

namespace Delta

variable {before after : Machine} {access : Access}

/-- **Redoing a step twice is redoing it once**: the same cells get the same words again. -/
theorem apply_apply (d : Delta) (m : Machine) : d.apply (d.apply m) = d.apply m := by
  refine Machine.ext_cells ?_ (fun r => ?_) fun a => ?_
  · rw [toProcessor_apply, toProcessor_apply]
  · rw [reg_apply, reg_apply]
    cases d.registers.find? r <;> rfl
  · rw [mem_apply, mem_apply]
    cases d.memory.find? a <;> rfl

/-- **A report counts as the set of its addresses**, under either scan: their order does not matter,
nor does it if one is repeated. -/
theorem between_congr {addresses : List Address} (h : ∀ a, a ∈ addresses ↔ a ∈ access.addresses)
    (scan : MemoryScan) (before after : Machine) :
    between scan before after { access with addresses } = between scan before after access := by
  refine between_eq_of_find? rfl rfl fun a => ?_
  cases scan with
  | full => rfl
  | writeSet => simp only [find?_memory_between_writeSet, h]

/-- The write-set scan misses the changes that are left out of the report, and no others. -/
theorem lagsBehind_apply_between_writeSet (before after : Machine) (access : Access) :
    ((between .writeSet before after access).apply before).LagsBehind before after access where
  toProcessor_eq := toProcessor_apply_between _ _ _ _
  reg_eq := reg_apply_between _ _ _ _
  mem_eq a := by
    rw [mem_apply_between_writeSet]
    by_cases ha : a ∈ access.addresses
    · rw [if_pos ha, if_neg fun h => h.2 ha]
    · by_cases heq : before.mem a = after.mem a
      · rw [if_neg ha, if_neg fun h => h.1 heq, heq]
      · rw [if_neg ha, if_pos ⟨heq, ha⟩]

/-- **The write-set scan is exact just for the reports that cover the step.** -/
theorem apply_between_writeSet_eq_iff :
    (between .writeSet before after access).apply before = after ↔ access.Covers before after := by
  constructor
  · intro h a hne
    by_cases ha : a ∈ access.addresses
    · exact ha
    · -- a word left out is still the old one, which is not the word of `after`
      have hmem := mem_apply_between_writeSet before after access a
      rw [h, if_neg ha] at hmem
      exact absurd hmem.symm hne
  · intro h
    rw [between_writeSet_eq_full h, apply_between_full]

/-- It is then that it computes the delta of the full scan. -/
theorem between_writeSet_eq_full_iff :
    between .writeSet before after access = between .full before after access ↔
      access.Covers before after := by
  constructor
  · intro h
    rw [← apply_between_writeSet_eq_iff, h, apply_between_full]
  · exact between_writeSet_eq_full

/-- **A delta reproduces its step as far as it was reported**, for any two machines and any report.
The delta of the full scan turns the first machine into the second.  That of the write-set scan does
so but for the words that changed and were left out of the report, which it leaves alone; it is the
same delta, and leads to the same machine, just if the report covers every change.  Neither depends
on the order of the addresses reported or on repetitions among them, and applying a delta once more
changes nothing. -/
theorem between_reproduces (before after : Machine) (access : Access) :
    (between .full before after access).apply before = after ∧
      ((between .writeSet before after access).apply before).LagsBehind before after access ∧
      (between .writeSet before after access = between .full before after access ↔
        access.Covers before after) ∧
      ((between .writeSet before after access).apply before = after ↔
        access.Covers before after) ∧
      (∀ scan addresses, (∀ a, a ∈ addresses ↔ a ∈ access.addresses) →
        between scan before after { access with addresses } = between scan before after access) ∧
      ∀ (d : Delta) (m : Machine), d.apply (d.apply m) = d.apply m :=
  ⟨apply_between_full before after access, lagsBehind_apply_between_writeSet before after access,
    between_writeSet_eq_full_iff, apply_between_writeSet_eq_iff,
    fun scan _ h => between_congr h scan before after, apply_apply⟩

/-- A machine after two stores, one of which is reported between an address that did not change. -/
def twoStores : Machine := (Machine.zero.setMem 5 7).setMem 6 1

/-- The report of one of the stores, which repeats an address that was not stored to. -/
def halfReport : Access := { addresses := [9, 5, 9] }

/-- The word that is reported arrives and the other one does not, so that the scans disagree.  What
the report repeats does not matter. -/
theorem between_reproduces_halfReport :
    ((between .writeSet .zero twoStores halfReport).apply .zero).mem 5 = 7 ∧
      ((between .writeSet .zero twoStores halfReport).apply .zero).mem 6 = 0 ∧
      twoStores.mem 6 = 1 ∧
      between .writeSet .zero twoStores halfReport ≠ between .full .zero twoStores halfReport ∧
      between .writeSet .zero twoStores { halfReport with addresses := [5, 9] }
        = between .writeSet .zero twoStores halfReport := by
  obtain ⟨-, hlags, hscans, -, hcongr, -⟩ := between_reproduces .zero twoStores halfReport
  have hfive : twoStores.mem 5 = 7 := by
    rw [twoStores, Machine.mem_setMem, if_neg (by decide), Machine.mem_setMem_self]
  have hsix : twoStores.mem 6 = 1 := Machine.mem_setMem_self _ _ _
  have hchanged : Machine.zero.mem 6 ≠ twoStores.mem 6 := by
    rw [Machine.mem_zero, hsix]
    decide
  refine ⟨?_, ?_, hsix, fun h => ?_, hcongr .writeSet [5, 9] fun a => ?_⟩
  · rw [hlags.mem_eq, if_neg fun h => h.2 (by decide), hfive]
  · rw [hlags.mem_eq, if_pos ⟨hchanged, by decide⟩, Machine.mem_zero]
  · exact absurd (hscans.mp h 6 hchanged) (by decide)
  · rw [halfReport]
    grind

end Delta

end Hindsight
