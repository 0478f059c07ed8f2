import Hindsight.Timeline.Basic

/-!
# Replaying a timeline

The machine at a step as a function of the step alone, and replay that goes on from a machine
reconstructed before.

## Main definitions

* `Timeline.machineAt` — the machine that the first deltas lead to.

## Main results

* `Timeline.continueTo_machineAt` — going on from an earlier step reaches the later one.
-/

namespace Hindsight
namespace Timeline

variable {t : Timeline}

/-- The machine that the first `k` deltas lead to.  Behind the last step this is the machine at
the last one. -/
def machineAt (t : Timeline) (k : Nat) : Machine := replay t.initial (t.deltas.take k)

@[simp] theorem machineAt_zero : t.machineAt 0 = t.initial := by simp [machineAt]

theorem stateAt_eq_ok {k : Nat} (h : k ≤ t.totalSteps) : t.stateAt k = .ok (t.machineAt k) :=
  stateAt_of_le h

/-- The machine at a step is the one before it under the delta between them. -/
theorem machineAt_succ {k : Nat} {d : Delta} (h : t.deltas[k]? = some d) :
    t.machineAt (k + 1) = d.apply (t.machineAt k) := by
  rw [machineAt, List.take_add_one, h, replay_append, machineAt]
  rfl

/-- Replay from the start is replay from step 0. -/
theorem continueTo_zero (k : Nat) (m : Machine) :
    t.continueTo 0 k m = replay m (t.deltas.take k) := by
  rw [continueTo, List.drop_zero, Nat.sub_zero]

/-- **Replay can be cut in two**: going on from step `j` reaches step `k`. -/
theorem continueTo_machineAt {j k : Nat} (h : j ≤ k) :
    t.continueTo j k (t.machineAt j) = t.machineAt k := by
  rw [continueTo, machineAt, ← replay_append, ← List.take_add, Nat.add_sub_of_le h, machineAt]

end Timeline
end Hindsight
