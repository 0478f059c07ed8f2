import Hindsight.Proofs.Timeline.Minimality
import Hindsight.Proofs.Timeline.Stopping

/-!
# What the step cap does to a recording

The cap is looked at between two steps and nowhere else, so it has no part in what a step does.
With a smaller cap a recording is the same one, only cut off; and a recording that was cut off
can be taken up again where it stopped, as long as the reconstructed machine is the engine's own.
Both are facts about the endings that are found after each number of steps: below the cap they
do not depend on it, and after some steps they are those of the engine as it then stands.

## Main definitions

* `Timeline.cut` — a timeline as a smaller cap leaves it.
* `CancelSignal.later` — what a cancel flag shows from some step on.

## Main results

* `record_of_le` — a recording with a smaller cap is the recording, cut off.
* `record_cap_truncates` — **the cap only truncates**, for every engine and cancel flag.
* `IsRecording.resume` — a recording that stopped at its cap, and one that takes it up again.
-/

namespace Hindsight

/-! ### Endings below the cap, at it, and behind it -/

namespace Engine

variable {σ φ : Type} [ToString φ] {engine : Engine σ φ} {s : σ} {m : Machine} {cap cap' : Nat}
  {cancel : CancelSignal σ} {n : Nat}

/-- Below two caps the same endings are found. -/
theorem endingAfter?_of_lt (h : n < cap) (h' : n < cap') :
    engine.endingAfter? s m cap cancel n = engine.endingAfter? s m cap' cancel n := by
  rw [endingAfter?, endingAfter?, if_neg (Nat.not_le.mpr h), if_neg (Nat.not_le.mpr h')]

/-- From the cap on an ending is always found, and a program that came to a stop of its own is
not said to have been stopped. -/
theorem endingAfter?_of_le (h : cap ≤ n) :
    engine.endingAfter? s m cap cancel n
      = some (if engine.isHalted (engine.stateAfter s m n) (engine.machineAfter s m n) then
          if (engine.machineAfter s m n).blocked then .blocked else .halted
        else .stepCap) := by
  rw [endingAfter?, if_pos h]
  split <;> rfl

/-- A complete ending is one that was found on a machine that had halted. -/
theorem isComplete_of_endingAfter? {ending : Ending}
    (h : engine.endingAfter? s m cap cancel n = some ending) :
    ending.isComplete
      = engine.isHalted (engine.stateAfter s m n) (engine.machineAfter s m n) := by
  cases endsWith_of_endingAfter? h with
  | blocked hhalt _ | halted hhalt _ => exact hhalt.symm
  | stepCap hhalt _ | cancelled hhalt _ _ | faulted fault hhalt _ _ _ => exact hhalt.symm

end Engine

/-! ### Truncation -/

section Truncation

/-- A timeline as a cap leaves it.  The ending stays if the run ended below the cap, or came to a
stop of its own right at it. -/
def Timeline.cut (t : Timeline) (cap : Nat) : Timeline :=
  { t with
    deltas := t.deltas.take cap
    ending :=
      if t.totalSteps < cap ∨ t.totalSteps = cap ∧ t.ending.isComplete then t.ending
      else .stepCap }

namespace Timeline

variable {t : Timeline} {cap : Nat}

theorem totalSteps_cut (t : Timeline) (cap : Nat) :
    (t.cut cap).totalSteps = min cap t.totalSteps :=
  List.length_take

theorem ending_cut_of_lt (h : t.totalSteps < cap) : (t.cut cap).ending = t.ending :=
  if_pos (.inl h)

theorem ending_cut_of_complete (h : t.totalSteps = cap) (hend : t.ending.isComplete = true) :
    (t.cut cap).ending = t.ending :=
  if_pos (.inr ⟨h, hend⟩)

theorem ending_cut_of_incomplete (h : t.totalSteps = cap) (hend : t.ending.isComplete = false) :
    (t.cut cap).ending = .stepCap := by
  refine if_neg ?_
  rintro (hlt | ⟨-, hcomplete⟩)
  · omega
  · rw [hend] at hcomplete
    cases hcomplete

theorem ending_cut_of_gt (h : cap < t.totalSteps) : (t.cut cap).ending = .stepCap := by
  refine if_neg ?_
  rintro (hlt | ⟨heq, -⟩)
  · omega
  · omega

end Timeline

variable {σ φ : Type} [ToString φ] {engine : Engine σ φ} {scan : MemoryScan}
  {cancel : CancelSignal σ} {s : σ} {m : Machine} {cap cap' : Nat}

/-- After the steps that a smaller cap leaves, the ending of the cut timeline is found. -/
theorem endingAfter?_min (hcap : cap ≤ cap') :
    let t := (record engine ⟨cap', scan⟩ cancel s m).1
    engine.endingAfter? s m cap cancel (min cap t.totalSteps) = some (t.cut cap).ending := by
  intro t
  have hrec := isRecording_record engine ⟨cap', scan⟩ cancel s m
  have hends : engine.endingAfter? s m cap' cancel t.totalSteps = some t.ending := hrec.ends
  rcases Nat.lt_trichotomy t.totalSteps cap with hlt | heq | hgt
  · -- the run ended before the cap could be looked at
    rw [Nat.min_eq_right (Nat.le_of_lt hlt), Timeline.ending_cut_of_lt hlt,
      Engine.endingAfter?_of_lt hlt (Nat.lt_of_lt_of_le hlt hcap)]
    exact hends
  · -- right at the cap, only a machine that has halted is asked before the cap is
    have hcomplete := Engine.isComplete_of_endingAfter? hends
    rw [heq] at hcomplete hends
    rw [heq, Nat.min_self, Engine.endingAfter?_of_le (Nat.le_refl cap), ← hcomplete]
    cases hend : t.ending.isComplete with
    | false =>
      rw [Timeline.ending_cut_of_incomplete heq hend]
      rfl
    | true =>
      rw [Timeline.ending_cut_of_complete heq hend, ← hends, Engine.endingAfter?,
        if_pos (hcomplete.symm.trans hend)]
      rfl
  · -- there was a further step, so the machine has not halted
    have hnone := hrec.goes_on cap (Nat.zero_le cap) hgt
    obtain ⟨hhalt, -⟩ := Engine.endingAfter?_eq_none_iff.mp hnone
    rw [Nat.min_eq_left (Nat.le_of_lt hgt), Timeline.ending_cut_of_gt hgt,
      Engine.endingAfter?_of_le (Nat.le_refl cap), hhalt]
    rfl

/-- A recording with a smaller cap is the recording, cut off. -/
theorem record_of_le (hcap : cap ≤ cap') :
    (record engine ⟨cap, scan⟩ cancel s m).1
      = (record engine ⟨cap', scan⟩ cancel s m).1.cut cap := by
  have hrec := isRecording_record engine ⟨cap', scan⟩ cancel s m
  let t := (record engine ⟨cap', scan⟩ cancel s m).1
  have hlength : (t.deltas.take cap).length = min cap t.totalSteps := List.length_take
  have hdeltas : t.deltas.take cap = engine.deltaLog scan s m (min cap t.totalSteps) := by
    rw [List.take_eq_take_min]
    exact (congrArg (List.take _) hrec.deltas_eq).trans
      (Engine.take_deltaLog _ _ _ _ (Nat.min_le_right _ _))
  -- below the smaller cap neither loop can tell the caps apart
  have hcut : IsRecording engine ⟨cap, scan⟩ cancel s m 0 (t.deltas.take cap) (t.cut cap).ending
      (engine.stateAfter s m (min cap t.totalSteps + (t.cut cap).ending.isFault.toNat)) := by
    refine ⟨?_, Nat.zero_le _, fun n hstart hn => ?_, ?_, ?_⟩
    · rw [hlength]
      exact hdeltas
    · rw [hlength] at hn
      have hlt : n < cap := Nat.lt_of_lt_of_le hn (Nat.min_le_left _ _)
      have hstep : n < t.totalSteps := Nat.lt_of_lt_of_le hn (Nat.min_le_right _ _)
      rw [Engine.endingAfter?_of_lt hlt (Nat.lt_of_lt_of_le hlt hcap)]
      exact hrec.goes_on n hstart hstep
    · rw [hlength]
      exact endingAfter?_min hcap
    · rw [hlength]
  rw [record_eq hcut]
  rfl

/-- A run of a source text with a smaller cap fails for the same reason, or gives the timeline, cut
off. -/
theorem runProgram_of_le (tools : Toolchain σ φ) (moduleName source : String)
    (hcap : cap ≤ cap') :
    (runProgram tools ⟨cap, scan⟩ cancel moduleName source s).1
      = (runProgram tools ⟨cap', scan⟩ cancel moduleName source s).1.map (Timeline.cut · cap) := by
  rcases runProgram_cases tools ⟨cap', scan⟩ cancel moduleName source s with
    ⟨herrors, hrun⟩ | ⟨herrors, ⟨hload, hrun⟩ | ⟨initial, hload, hrun⟩⟩
  · rw [hrun, runProgram_of_errors herrors]
    rfl
  · rw [hrun, runProgram_of_load?_eq_none herrors hload]
    rfl
  · rw [hrun, runProgram_of_load?_eq_some herrors hload, record_of_le hcap]
    rfl

/-- **The cap only truncates**, for every engine, also one that raises the cancel flag itself, and
every memory scan.  A recording with a smaller cap is the one with a larger cap, cut off; a run of
a source text is so too, and fails for the same reasons whatever the cap is. -/
theorem record_cap_truncates (tools : Toolchain σ φ) (scan : MemoryScan) (cancel : CancelSignal σ)
    (s : σ) {m n : Nat} (h : m ≤ n) :
    (∀ initial,
      let short := (record tools.engine ⟨m, scan⟩ cancel s initial).1
      let long := (record tools.engine ⟨n, scan⟩ cancel s initial).1
      short = long.cut m ∧ short.totalSteps = min m long.totalSteps) ∧
      ∀ moduleName source,
        (runProgram tools ⟨m, scan⟩ cancel moduleName source s).1
          = (runProgram tools ⟨n, scan⟩ cancel moduleName source s).1.map (Timeline.cut · m) := by
  refine ⟨fun initial => ?_, fun moduleName source => runProgram_of_le tools moduleName source h⟩
  intro short long
  have hcut : short = long.cut m := record_of_le h
  refine ⟨hcut, ?_⟩
  rw [hcut, Timeline.totalSteps_cut]

/-- Right at the smaller cap, a program that has halted has halted, and a fault to come is not
found any more. -/
theorem record_cap_truncates_boundary :
    let flag : CancelSignal Bool := fun _ raised => raised
    let halting := fun cap => (record signingOff ⟨cap, .writeSet⟩ flag false .zero).1
    let faulting := fun cap => (record forgetful ⟨cap, .full⟩ .never 0 .zero).1
    1 ≤ 3 ∧ halting 1 = (halting 3).cut 1 ∧ (halting 3).totalSteps = 1 ∧
      (halting 1).ending = .halted ∧
      2 ≤ 5 ∧ faulting 2 = (faulting 5).cut 2 ∧ (faulting 5).totalSteps = 2 ∧
      (faulting 5).ending = .faulted "lost" ∧ (faulting 2).ending = .stepCap := by
  intro flag halting faulting
  obtain ⟨hhalting, -⟩ := record_cap_truncates ⟨signingOff, fun _ _ => {}⟩ .writeSet flag false
    (show 1 ≤ 3 by decide)
  obtain ⟨hfaulting, -⟩ := record_cap_truncates forgetfulTools .full .never 0
    (show 2 ≤ 5 by decide)
  exact ⟨by decide, (hhalting .zero).1, by decide, by decide, by decide, (hfaulting .zero).1,
    by decide, by decide, by decide⟩

end Truncation

/-! ### Continuation -/

/-- What a cancel flag shows from step `k` on. -/
def CancelSignal.later {σ : Type} (cancel : CancelSignal σ) (k : Nat) : CancelSignal σ :=
  fun n s => cancel (k + n) s

namespace Engine

variable {σ φ : Type} {engine : Engine σ φ} {scan : MemoryScan} {s : σ} {m : Machine} {k : Nat}

/-- Where the replica is the engine's machine, the log goes on as one that starts there. -/
theorem deltaLog_add (hexact : engine.replica scan s m k = engine.machineAfter s m k) (n : Nat) :
    engine.deltaLog scan s m (k + n)
      = engine.deltaLog scan s m k
        ++ engine.deltaLog scan (engine.stateAfter s m k) (engine.machineAfter s m k) n := by
  induction n with
  | zero => exact (List.append_nil _).symm
  | succ n ih =>
    -- from the seam on, both replicas take the same deltas
    have hreplica : engine.replica scan s m (k + n)
        = engine.replica scan (engine.stateAfter s m k) (engine.machineAfter s m k) n := by
      rw [replica, ih, replay_append, ← replica, hexact, replica]
    have hdelta : engine.deltaAfter scan s m (k + n)
        = engine.deltaAfter scan (engine.stateAfter s m k) (engine.machineAfter s m k) n := by
      rw [deltaAfter, hreplica, accessInto_add_succ, Nat.add_assoc, machineAfter_add, deltaAfter]
    rw [← Nat.add_assoc, deltaLog_succ, deltaLog_succ, ih, hdelta, List.append_assoc]

/-- The endings go on likewise, with what is left of the cap and what the flag shows later. -/
theorem endingAfter?_add [ToString φ] (cap : Nat) (cancel : CancelSignal σ) (n : Nat) :
    engine.endingAfter? s m (k + cap) cancel (k + n)
      = engine.endingAfter? (engine.stateAfter s m k) (engine.machineAfter s m k) cap
          (cancel.later k) n := by
  rw [endingAfter?, endingAfter?, stateAfter_add, machineAfter_add, reportAfter_add,
    CancelSignal.later]
  simp only [Nat.add_le_add_iff_left]

end Engine

section Continuation

variable {σ φ : Type} [ToString φ] {engine : Engine σ φ} {scan : MemoryScan}
  {cancel : CancelSignal σ} {s s₁ s₂ : σ} {m : Machine} {k cap : Nat} {first rest : List Delta}
  {ending : Ending}

/-- A recording that stopped at its cap has as many steps as that, and the engine was called no
more often. -/
theorem IsRecording.of_stepCap
    (h : IsRecording engine ⟨k, scan⟩ cancel s m 0 first .stepCap s₁) :
    first.length = k ∧ s₁ = engine.stateAfter s m k := by
  -- the cap was reached, and no step was made beyond it
  have hge : k ≤ first.length := by
    cases Engine.endsWith_of_endingAfter? h.ends with
    | stepCap _ hreached => exact hreached
  have hle : first.length ≤ k := by
    refine Nat.not_lt.mp fun hlt => ?_
    have hbelow : k < k := Engine.lt_of_endingAfter?_eq_none (h.goes_on k (Nat.zero_le k) hlt)
    omega
  have hlength : first.length = k := Nat.le_antisymm hle hge
  refine ⟨hlength, ?_⟩
  rw [h.state_eq, hlength]
  rfl

/-- **A recording that stopped at its cap can be taken up again.**  If the deltas so far lead to
the engine's own machine, a recording from there goes on as one with the sum of both caps would
have done. -/
theorem IsRecording.resume
    (hfirst : IsRecording engine ⟨k, scan⟩ cancel s m 0 first .stepCap s₁)
    (hexact : engine.replica scan s m k = engine.machineAfter s m k)
    (hrest : IsRecording engine ⟨cap, scan⟩ (cancel.later k) s₁ (engine.machineAfter s m k) 0
      rest ending s₂) :
    IsRecording engine ⟨k + cap, scan⟩ cancel s m 0 (first ++ rest) ending s₂ := by
  obtain ⟨hlength, rfl⟩ := hfirst.of_stepCap
  have htotal : (first ++ rest).length = k + rest.length := by
    rw [List.length_append, hlength]
  refine ⟨?_, Nat.zero_le _, fun n hstart hn => ?_, ?_, ?_⟩
  · have hfirstLog : first = engine.deltaLog scan s m k := hlength ▸ hfirst.deltas_eq
    have hrestLog := hrest.deltas_eq
    rw [htotal, Engine.deltaLog_add hexact, ← hfirstLog]
    exact congrArg (first ++ ·) hrestLog
  · rcases Nat.lt_or_ge n k with hlt | hge
    · -- a step of the first recording, which found no ending below its own cap either
      rw [Engine.endingAfter?_of_lt (Nat.lt_add_right cap hlt) hlt]
      exact hfirst.goes_on n hstart (hlength ▸ hlt)
    · -- a step of the second recording, counted from the seam
      obtain ⟨j, rfl⟩ := Nat.exists_eq_add_of_le hge
      rw [Engine.endingAfter?_add]
      exact hrest.goes_on j (Nat.zero_le j) (by omega)
  · rw [htotal, Engine.endingAfter?_add]
    exact hrest.ends
  · rw [htotal, Nat.add_assoc, Engine.stateAfter_add]
    exact hrest.state_eq

end Continuation

end Hindsight
