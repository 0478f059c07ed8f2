import Hindsight.Proofs.Timeline.Programs
import Hindsight.Proofs.Timeline.Reconstruction
import Hindsight.Proofs.Timeline.Replay

/-!
# Deltas are minimal

A recorded delta is the difference of the two machines that are reconstructed around it: it
lists the cells in which they differ and no others.  This does not ask for truthful reports.
Under the write-set scan the engine's machine and the reconstructed one may drift apart, but a
delta is taken from the reconstructed one and leads to the next reconstructed one, so it is
sparse with respect to these two.  A word reported twice, a word stored in silence and a word
overwritten with itself all make no difference to that.

## Main definitions

* `Delta.IsDifference` — a delta that lists exactly what differs between two machines.
* `Delta.unannotated` — a delta without the registers reported.
* `Timeline.IsMinimal` — a timeline that consists of such differences.

## Main results

* `Delta.isDifference_apply` — a delta that lists no cell with its old value is the difference
  that it makes.
* `timeline_isMinimal` — **every recorded timeline is minimal.**
-/

namespace Hindsight

/-! ### Differences -/

namespace Delta

/-- The delta is exactly the difference of two machines. -/
structure IsDifference (d : Delta) (before after : Machine) : Prop where
  origin_eq : d.origin = before.pc
  /-- All scalars are the later ones. -/
  after_eq : d.after = after.toProcessor
  /-- The registers listed are those that differ. -/
  mem_registers : ∀ r, r ∈ d.registers.keys ↔ before.reg r ≠ after.reg r
  register_eq : ∀ e ∈ d.registers.entries, e.2 = after.reg e.1
  /-- The memory words listed are those that differ. -/
  mem_memory : ∀ a, a ∈ d.memory.keys ↔ before.mem a ≠ after.mem a
  word_eq : ∀ e ∈ d.memory.entries, e.2 = after.mem e.1

/-- The delta without the registers reported as read and as written. -/
def unannotated (d : Delta) : Delta := { d with fetched := ∅, stored := ∅ }

variable {d : Delta} {before after m : Machine}

/-- The difference as look-ups: a cell is listed if it differs, with its later value. -/
theorem isDifference_iff :
    d.IsDifference before after ↔
      d.origin = before.pc ∧ d.after = after.toProcessor ∧
        (∀ r, d.registers.find? r
          = if before.reg r = after.reg r then none else some (after.reg r)) ∧
        ∀ a, d.memory.find? a
          = if before.mem a = after.mem a then none else some (after.mem a) := by
  rw [SortedMap.find?_eq_ite_iff, SortedMap.find?_eq_ite_iff]
  constructor
  · rintro ⟨horigin, hafter, hkeys, hvalues, hkeys', hvalues'⟩
    exact ⟨horigin, hafter, ⟨hkeys, hvalues⟩, hkeys', hvalues'⟩
  · rintro ⟨horigin, hafter, ⟨hkeys, hvalues⟩, hkeys', hvalues'⟩
    exact ⟨horigin, hafter, hkeys, hvalues, hkeys', hvalues'⟩

/-- Up to its annotations, the difference of two machines is what the full scan computes. -/
theorem isDifference_iff_unannotated :
    d.IsDifference before after ↔ d.unannotated = between .full before after {} := by
  rw [isDifference_iff]
  constructor
  · rintro ⟨horigin, hafter, hregs, hmem⟩
    -- a map is determined by what look-up finds in it
    have hregs : d.registers = (between .full before after {}).registers :=
      SortedMap.ext_find? fun r => by rw [hregs, find?_registers_between]
    have hmem : d.memory = (between .full before after {}).memory :=
      SortedMap.ext_find? fun a => by rw [hmem, find?_memory_between_full]
    rw [unannotated, horigin, hafter, hregs, hmem]
    rfl
  · intro h
    refine ⟨congrArg origin h, congrArg Delta.after h, fun r => ?_, fun a => ?_⟩
    · rw [← find?_registers_between .full before after {} r, ← h]
      rfl
    · rw [← find?_memory_between_full before after {} a, ← h]
      rfl

/-- **A delta that lists no cell with its old value is the difference that it makes.** -/
theorem isDifference_apply (horigin : d.origin = m.pc)
    (hregs : ∀ r w, d.registers.find? r = some w → m.reg r ≠ w)
    (hmem : ∀ a w, d.memory.find? a = some w → m.mem a ≠ w) :
    d.IsDifference m (d.apply m) := by
  refine isDifference_iff.mpr ⟨horigin, (toProcessor_apply d m).symm, fun r => ?_, fun a => ?_⟩
  · rw [reg_apply]
    cases h : d.registers.find? r with
    | none => exact (if_pos rfl).symm
    | some w => exact (if_neg (hregs r w h)).symm
  · rw [mem_apply]
    cases h : d.memory.find? a with
    | none => exact (if_pos rfl).symm
    | some w => exact (if_neg (hmem a w h)).symm

/-- A computed delta lists no cell with its old value, under either scan. -/
theorem isDifference_between (scan : MemoryScan) (before after : Machine) (access : Access) :
    (between scan before after access).IsDifference before
      ((between scan before after access).apply before) := by
  refine isDifference_apply rfl (fun r w hw => ?_) fun a w hw => ?_
  · rw [find?_registers_between] at hw
    split at hw
    · cases hw
    · next hne => exact Option.some.inj hw ▸ hne
  · cases scan with
    | full =>
      rw [find?_memory_between_full] at hw
      split at hw
      · cases hw
      · next hne => exact Option.some.inj hw ▸ hne
    | writeSet =>
      rw [find?_memory_between_writeSet] at hw
      split at hw
      · next hlisted => exact Option.some.inj hw ▸ hlisted.2
      · cases hw

end Delta

/-! ### Timelines -/

/-- A timeline whose deltas are the differences of the machines around them. -/
structure Timeline.IsMinimal (t : Timeline) : Prop where
  /-- Every delta is the difference of the machine at its step and the one at the next. -/
  isDifference : ∀ k < t.totalSteps, ∃ d before after, t.deltas[k]? = some d ∧
    t.stateAt k = .ok before ∧ t.stateAt (k + 1) = .ok after ∧ d.IsDifference before after
  /-- Comparing all cells of consecutive machines, without any report, gives back the whole log
  but for the annotations. -/
  recomputed : t.deltas.map Delta.unannotated
    = (List.range t.totalSteps).map fun k =>
        .between .full (t.machineAt k) (t.machineAt (k + 1)) {}

/-- The comparison of consecutive machines is another way to say that every delta is their
difference. -/
theorem Timeline.isMinimal_of_isDifference {t : Timeline}
    (h : ∀ k (hk : k < t.totalSteps),
      t.deltas[k].IsDifference (t.machineAt k) (t.machineAt (k + 1))) : t.IsMinimal where
  isDifference k hk := ⟨t.deltas[k], t.machineAt k, t.machineAt (k + 1),
    List.getElem?_eq_getElem hk, stateAt_eq_ok (Nat.le_of_lt hk), stateAt_eq_ok hk, h k hk⟩
  recomputed := by
    refine List.ext_getElem (by simp [totalSteps]) fun k hk hk' => ?_
    rw [List.getElem_map, List.getElem_map, List.getElem_range]
    exact Delta.isDifference_iff_unannotated.mp (h k (by simpa [totalSteps] using hk))

/-- What the assembler said is not part of the machines. -/
theorem Timeline.IsMinimal.annotated {t : Timeline} (h : t.IsMinimal) (output : AssemblyOutput) :
    (t.annotated output).IsMinimal :=
  ⟨h.isDifference, h.recomputed⟩

namespace Engine

variable {σ φ : Type} (engine : Engine σ φ) (scan : MemoryScan) (s : σ) (m : Machine)

theorem getElem?_deltaLog {k n : Nat} (h : k < n) :
    (engine.deltaLog scan s m n)[k]? = some (engine.deltaAfter scan s m k) := by
  rw [← List.getElem?_take_of_lt (Nat.lt_succ_self k), take_deltaLog _ _ _ _ h, deltaLog_succ,
    List.getElem?_append_right (Nat.le_of_eq (length_deltaLog _ _ _ _ k)), length_deltaLog,
    Nat.sub_self]
  rfl

end Engine

variable {σ φ : Type} [ToString φ]

theorem isMinimal_record (engine : Engine σ φ) (config : Config) (cancel : CancelSignal σ) (s : σ)
    (initial : Machine) : (record engine config cancel s initial).1.IsMinimal := by
  refine Timeline.isMinimal_of_isDifference fun k hk => ?_
  -- the machines and the deltas of a recording are those of the loop
  have hmachine : ∀ j ≤ (record engine config cancel s initial).1.totalSteps,
      (record engine config cancel s initial).1.machineAt j
        = engine.replica config.scan s initial j :=
    fun j hj => Except.ok.inj ((Timeline.stateAt_eq_ok hj).symm.trans (stateAt_record hj))
  have hdelta : (record engine config cancel s initial).1.deltas[k]
      = engine.deltaAfter config.scan s initial k := by
    refine Option.some.inj ((List.getElem?_eq_getElem hk).symm.trans ?_)
    rw [deltas_record]
    exact engine.getElem?_deltaLog _ _ _ hk
  rw [hmachine k (Nat.le_of_lt hk), hmachine (k + 1) hk, hdelta, Engine.replica_succ]
  exact Delta.isDifference_between _ _ _ _

/-- **Every recorded timeline is minimal**, for every engine, truthful or not, and under either
scan: those of `record`, and those of a source text with any assembler. -/
theorem timeline_isMinimal (tools : Toolchain σ φ) (config : Config) (cancel : CancelSignal σ)
    (s : σ) :
    (∀ initial, (record tools.engine config cancel s initial).1.IsMinimal) ∧
      ∀ moduleName source t,
        (runProgram tools config cancel moduleName source s).1 = .ok t → t.IsMinimal := by
  refine ⟨fun initial => isMinimal_record tools.engine config cancel s initial, ?_⟩
  intro moduleName source t ht
  obtain ⟨-, initial, -, rfl, -⟩ := runProgram_eq_ok_iff.mp (Prod.ext ht rfl)
  exact (isMinimal_record tools.engine config cancel (tools.engine.reset s).1 initial).annotated _

/-- The forgetful engine, with an assembler that leaves memory alone. -/
def forgetfulTools : Toolchain Nat String := ⟨forgetful, fun _ _ => {}⟩

/-- The word that is kept quiet in the first step is missing from the first delta.  The second
step stores nothing, but its delta lists the word: there the reconstructed machine gets it. -/
theorem timeline_isMinimal_forgetful :
    ∃ t d before after,
      (runProgram forgetfulTools ⟨2, .writeSet⟩ .never "main" "" 0).1 = .ok t ∧
        1 < t.totalSteps ∧ t.deltas[1]? = some d ∧ t.stateAt 1 = .ok before ∧
        t.stateAt 2 = .ok after ∧ d.IsDifference before after ∧ d.memory.entries = [(5, 7)] := by
  have hlog : (runProgram forgetfulTools ⟨2, .writeSet⟩ .never "main" "" 0).1.toOption.map
      (fun t => t.deltas.map (·.memory.entries)) = some [[], [(5, 7)]] := by
    decide +kernel
  cases ht : (runProgram forgetfulTools ⟨2, .writeSet⟩ .never "main" "" 0).1 with
  | error e => rw [ht] at hlog; cases hlog
  | ok t =>
    rw [ht] at hlog
    replace hlog : t.deltas.map (·.memory.entries) = [[], [(5, 7)]] := Option.some.inj hlog
    have hsteps : 1 < t.totalSteps := by
      have hlength := congrArg List.length hlog
      rw [List.length_map] at hlength
      exact Nat.le_of_eq hlength.symm
    have hminimal : t.IsMinimal :=
      (timeline_isMinimal forgetfulTools ⟨2, .writeSet⟩ .never 0).2 "main" "" t ht
    obtain ⟨d, before, after, hd, hbefore, hafter, hdiff⟩ := hminimal.isDifference 1 hsteps
    refine ⟨t, d, before, after, rfl, hsteps, hd, hbefore, hafter, hdiff, ?_⟩
    have hentries : (t.deltas.map (·.memory.entries))[1]? = some d.memory.entries := by
      rw [List.getElem?_map, hd]
      rfl
    rw [hlog] at hentries
    exact (Option.some.inj hentries).symm

end Hindsight
