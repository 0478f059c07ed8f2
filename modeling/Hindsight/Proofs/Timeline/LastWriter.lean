import Hindsight.Proofs.Timeline.Recording
import Hindsight.Proofs.Timeline.Replay
import Mathlib.Data.List.Induction

/-!
# The last writer wins

Replay redoes one delta after the other on one machine.  Seen from a single cell it is a search: the
last delta that lists the cell has written the word that is in it, and if there is none the word is
the one of the initial snapshot.  A word that is written back is no exception, since the delta that
does so lists it.  The scalars are listed by every delta, so that theirs are those of the last one.

What the deltas of a log list for one cell is a column of words, with gaps where a delta does not
list the cell.

## Main definitions

* `settled` — the word that a column leaves in its cell.
* `LastListed` — the last word listed in a column, or the old one.

## Main results

* `settled_eq_iff` — what is left is the last word listed.
* `mem_replay`, `reg_replay` — replay as seen from one cell.
* `Timeline.stateAt_lastListed` — **every cell holds what its last writer left.**
-/

namespace Hindsight

/-! ### Columns -/

/-- The word that a column leaves in a cell that held `old`. -/
def settled (old : Word) (column : List (Option Word)) : Word :=
  column.foldl (fun w listed => listed.getD w) old

/-- The last word listed in a column, or the old one if none is listed. -/
inductive LastListed (old : Word) : List (Option Word) → Word → Prop
  | listed (earlier later : List (Option Word)) (w : Word) (hlater : ∀ x ∈ later, x = none) :
    LastListed old (earlier ++ some w :: later) w
  | carried (column : List (Option Word)) (hnone : ∀ x ∈ column, x = none) :
    LastListed old column old

variable {old w : Word} {column : List (Option Word)}

@[simp] theorem settled_nil (old : Word) : settled old [] = old := rfl

@[simp] theorem settled_cons (old : Word) (x : Option Word) (column : List (Option Word)) :
    settled old (x :: column) = settled (x.getD old) column := rfl

theorem settled_append (old : Word) (earlier later : List (Option Word)) :
    settled old (earlier ++ later) = settled (settled old earlier) later :=
  List.foldl_append

/-- Gaps carry the word forward. -/
theorem settled_of_none (h : ∀ x ∈ column, x = none) (old : Word) : settled old column = old := by
  induction column with
  | nil => rfl
  | cons x column ih =>
    obtain ⟨rfl, hcolumn⟩ := List.forall_mem_cons.mp h
    exact ih hcolumn

theorem LastListed.settled_eq (h : LastListed old column w) : settled old column = w := by
  cases h with
  | listed earlier later w hlater =>
    rw [settled_append, settled_cons]
    exact settled_of_none hlater w
  | carried column hnone => exact settled_of_none hnone old

theorem lastListed_settled (old : Word) (column : List (Option Word)) :
    LastListed old column (settled old column) := by
  -- a further entry is the last one that lists a word, or leaves that one where it is
  induction column using List.reverseRecOn with
  | nil => exact .carried [] (List.forall_mem_nil _)
  | append_singleton column x ih =>
    rw [settled_append, settled_cons, settled_nil]
    cases x with
    | some w => exact .listed column [] w (List.forall_mem_nil _)
    | none =>
      generalize settled old column = w at ih
      cases ih with
      | listed earlier later w hlater =>
        rw [List.append_assoc, List.cons_append]
        exact .listed earlier (later ++ [none]) w
          (List.forall_mem_append.mpr ⟨hlater, by simp⟩)
      | carried column hnone =>
        exact .carried (column ++ [none]) (List.forall_mem_append.mpr ⟨hnone, by simp⟩)

/-- **What is left is the last word listed.** -/
theorem settled_eq_iff : settled old column = w ↔ LastListed old column w :=
  ⟨fun h => h ▸ lastListed_settled old column, LastListed.settled_eq⟩

/-! ### Replay seen from one cell -/

/-- A cell that a delta changes to the word listed for it, if there is one, ends up with the last
one. -/
theorem cell_replay (cell : Machine → Word) (listed : Delta → Option Word)
    (h : ∀ d m, cell (d.apply m) = (listed d).getD (cell m)) (m : Machine) (log : List Delta) :
    cell (replay m log) = settled (cell m) (log.map listed) := by
  induction log generalizing m with
  | nil => rfl
  | cons d log ih => rw [replay_cons, ih, h, List.map_cons, settled_cons]

theorem mem_replay (m : Machine) (log : List Delta) (a : Address) :
    (replay m log).mem a = settled (m.mem a) (log.map (·.memory.find? a)) :=
  cell_replay (·.mem a) (·.memory.find? a) (fun d m => d.mem_apply m a) m log

theorem reg_replay (m : Machine) (log : List Delta) (r : Reg) :
    (replay m log).reg r = settled (m.reg r) (log.map (·.registers.find? r)) :=
  cell_replay (·.reg r) (·.registers.find? r) (fun d m => d.reg_apply m r) m log

/-! ### Timelines -/

namespace Timeline

variable {t : Timeline} {k : Nat}

/-- The scalars at a step are those of the delta that leads into it. -/
theorem exists_deltaInto?_of_le (hpos : 1 ≤ k) (hk : k ≤ t.totalSteps) :
    ∃ d, t.deltaInto? k = some d ∧ (t.machineAt k).toProcessor = d.after := by
  cases k with
  | zero => exact absurd hpos (by decide)
  | succ k =>
    have hd : t.deltas[k]? = some t.deltas[k] := List.getElem?_eq_getElem hk
    refine ⟨t.deltas[k], hd, ?_⟩
    rw [machineAt_succ hd, Delta.toProcessor_apply]

/-- **Every cell holds what its last writer left.**  At step `k` of a timeline a memory word and a
register are those that the last of the first `k` deltas to list them gives, or those of the initial
snapshot if none lists them, and from step 1 on the scalars are those of the delta that leads into
the step.  Going on from the machine at an earlier step, with the deltas in between, leads to the
same machine. -/
theorem stateAt_lastListed (t : Timeline) {k : Nat} (hk : k ≤ t.totalSteps) :
    ∃ m, t.stateAt k = .ok m ∧
      (∀ a w, m.mem a = w ↔
        LastListed (t.initial.mem a) ((t.deltas.take k).map (·.memory.find? a)) w) ∧
      (∀ r w, m.reg r = w ↔
        LastListed (t.initial.reg r) ((t.deltas.take k).map (·.registers.find? r)) w) ∧
      (1 ≤ k → ∃ d, t.deltaInto? k = some d ∧ m.toProcessor = d.after) ∧
      ∀ j ≤ k, ∃ earlier, t.stateAt j = .ok earlier ∧ t.continueTo j k earlier = m := by
  refine ⟨t.machineAt k, stateAt_eq_ok hk, fun a w => ?_, fun r w => ?_, fun hpos => ?_,
    fun j hj => ?_⟩
  · rw [machineAt, mem_replay, settled_eq_iff]
  · rw [machineAt, reg_replay, settled_eq_iff]
  · exact exists_deltaInto?_of_le hpos hk
  · exact ⟨t.machineAt j, stateAt_eq_ok (Nat.le_trans hj hk), continueTo_machineAt hj⟩

end Timeline

/-- An engine that stores a word, then writes a register, and then stores the old word again. -/
def revising : Engine Nat String where
  reset _ := (0, .zero)
  step n m :=
    match n with
    | 0 => (.ok { addresses := [128] }, 1, m.setMem 128 3)
    | 1 => (.ok {}, 2, m.setReg 1 11)
    | n => (.ok { addresses := [128] }, n, m.setMem 128 0)
  isHalted _ _ := false

/-- The recording of three steps of it. -/
def revision : Timeline := (record revising ⟨3, .writeSet⟩ .never 0 .zero).1

/-- The word is carried forward over the step that writes the register, and the last step writes the
initial word back. -/
theorem Timeline.stateAt_lastListed_revision :
    2 ≤ revision.totalSteps ∧
      (∃ m, revision.stateAt 2 = .ok m ∧ m.mem 128 = 3 ∧ m.reg 1 = 11) ∧
      ∃ m, revision.stateAt 3 = .ok m ∧ m.mem 128 = 0 ∧ m.reg 1 = 11 := by
  have hsteps : revision.totalSteps = 3 := by decide
  -- what the three deltas list for the word, and for the register
  have hmemory : ∀ k, (revision.deltas.take k).map (·.memory.find? 128)
      = [some 3, none, some 0].take k := by
    intro k
    rw [List.map_take]
    exact congrArg (List.take k) (by decide +kernel)
  have hregister : ∀ k, (revision.deltas.take k).map (·.registers.find? 1)
      = [none, some 11, none].take k := by
    intro k
    rw [List.map_take]
    exact congrArg (List.take k) (by decide +kernel)
  have htwo : 2 ≤ revision.totalSteps := by omega
  obtain ⟨m, hm, hmem, hreg, -⟩ := stateAt_lastListed revision htwo
  obtain ⟨m', hm', hmem', hreg', -⟩ := stateAt_lastListed revision (Nat.le_of_eq hsteps.symm)
  refine ⟨htwo, ⟨m, hm, (hmem 128 3).mpr ?_, (hreg 1 11).mpr ?_⟩, m', hm', (hmem' 128 0).mpr ?_,
    (hreg' 1 11).mpr ?_⟩
  · rw [hmemory]
    exact .listed [] [none] 3 (by simp)
  · rw [hregister]
    exact .listed [none] [] 11 (by simp)
  · rw [hmemory]
    exact .listed [some 3, none] [] 0 (by simp)
  · rw [hregister]
    exact .listed [none] [none] 11 (by simp)

end Hindsight
