import Hindsight.Proofs.Timeline.Execution
import Hindsight.Timeline.Recording

/-!
# What a recording consists of

The recording loop holds the engine's machine, a replica that only the deltas advance,
and the deltas so far.  All three are determined by the number of steps made: the machine
is the one after that many calls, the deltas are `deltaLog`, and the replica is what they
replay to.  So a recording is known as soon as its number of steps is, and that number is
the first one after which the loop finds an ending.

## Main definitions

* `Engine.deltaLog`, `Engine.replica` — the deltas of a number of steps, and their replay.
* `Engine.endingAfter?` — the ending found after a number of steps, if one is.
* `IsRecording` — the outcome of a recording loop.

## Main results

* `isRecording_recordAfter` — the loop invariant, by induction on the fuel that is left.
* `isRecording_record` — what `record` gives.
* `IsRecording.length_eq` — the endings alone decide the number of steps.
* `record_eq` — there is no other recording.
-/

namespace Hindsight

/-- Whether the ending is a fault, so that the engine was called once more than there are
steps. -/
def Ending.isFault : Ending → Bool
  | faulted _ => true
  | halted | blocked | stepCap | cancelled => false

namespace Engine

variable {σ φ : Type} (engine : Engine σ φ) (scan : MemoryScan) (s : σ) (m : Machine)

/-! ### Deltas and their replay -/

/-- The deltas of the first `n` steps.  Each leads from the replay of those before it to the
engine's machine. -/
def deltaLog : (n : Nat) → List Delta
  | 0 => []
  | n + 1 => deltaLog n ++ [.between scan (replay m (deltaLog n))
      (engine.machineAfter s m (n + 1)) (engine.accessInto s m (n + 1))]

/-- The machine that the deltas of the first `n` steps reconstruct. -/
def replica (n : Nat) : Machine := replay m (engine.deltaLog scan s m n)

/-- The delta that leads into step `n + 1`. -/
def deltaAfter (n : Nat) : Delta :=
  .between scan (engine.replica scan s m n) (engine.machineAfter s m (n + 1))
    (engine.accessInto s m (n + 1))

@[simp] theorem deltaLog_zero : engine.deltaLog scan s m 0 = [] := rfl

theorem deltaLog_succ (n : Nat) :
    engine.deltaLog scan s m (n + 1)
      = engine.deltaLog scan s m n ++ [engine.deltaAfter scan s m n] := rfl

theorem replica_succ (n : Nat) :
    engine.replica scan s m (n + 1)
      = (engine.deltaAfter scan s m n).apply (engine.replica scan s m n) := by
  rw [replica, deltaLog_succ, replay_append, replay_cons, replay_nil, replica]

@[simp] theorem length_deltaLog (n : Nat) : (engine.deltaLog scan s m n).length = n := by
  induction n with
  | zero => rfl
  | succ n ih => rw [deltaLog_succ, List.length_append, ih, List.length_singleton]

/-- A longer log starts with the shorter one. -/
theorem take_deltaLog {k n : Nat} (h : k ≤ n) :
    (engine.deltaLog scan s m n).take k = engine.deltaLog scan s m k := by
  induction n with
  | zero =>
    obtain rfl : k = 0 := by omega
    rfl
  | succ n ih =>
    rcases Nat.lt_or_ge n k with hlt | hge
    · obtain rfl : k = n + 1 := by omega
      exact List.take_of_length_le (Nat.le_of_eq (length_deltaLog engine scan s m (n + 1)))
    · rw [deltaLog_succ, List.take_append_of_le_length (by rw [length_deltaLog]; exact hge),
        ih hge]

variable {engine scan s m} in
theorem size_of_toList_eq {log : Array Delta} {n : Nat}
    (h : log.toList = engine.deltaLog scan s m n) : log.size = n := by
  rw [← Array.length_toList, h, length_deltaLog]

theorem mem_deltaLog {n : Nat} {d : Delta} :
    d ∈ engine.deltaLog scan s m n ↔ ∃ k < n, d = engine.deltaAfter scan s m k := by
  induction n with
  | zero => simp
  | succ n ih =>
    rw [deltaLog_succ, List.mem_append, ih, List.mem_singleton]
    constructor
    · rintro (⟨k, hk, hd⟩ | hd)
      · exact ⟨k, by omega, hd⟩
      · exact ⟨n, Nat.lt_succ_self n, hd⟩
    · rintro ⟨k, hk, hd⟩
      rcases Nat.lt_succ_iff_lt_or_eq.mp hk with hlt | rfl
      · exact .inl ⟨k, hlt, hd⟩
      · exact .inr hd

/-! ### Endings -/

/-- The ending that a recording finds after `n` steps, if it finds one.  It looks at the
machine, the cap and the cancel flag, in this order, and only then calls the engine. -/
def endingAfter? [ToString φ] (cap : Nat) (cancel : CancelSignal σ) (n : Nat) : Option Ending :=
  if engine.isHalted (engine.stateAfter s m n) (engine.machineAfter s m n) then
    some (if (engine.machineAfter s m n).blocked then .blocked else .halted)
  else if cap ≤ n then some .stepCap
  else if cancel n (engine.stateAfter s m n) then some .cancelled
  else
    match engine.reportAfter s m n with
    | .error fault => some (.faulted (toString fault))
    | .ok _ => none

/-- **The four reasons to end, in order, and what is left when none of them holds.** -/
theorem endingAfter?_cases [ToString φ] (cap : Nat) (cancel : CancelSignal σ) (n : Nat) :
    (engine.isHalted (engine.stateAfter s m n) (engine.machineAfter s m n) = true ∧
        engine.endingAfter? s m cap cancel n
          = some (if (engine.machineAfter s m n).blocked then .blocked else .halted)) ∨
      engine.isHalted (engine.stateAfter s m n) (engine.machineAfter s m n) = false ∧
        ((cap ≤ n ∧ engine.endingAfter? s m cap cancel n = some .stepCap) ∨
          n < cap ∧
            ((cancel n (engine.stateAfter s m n) = true ∧
                engine.endingAfter? s m cap cancel n = some .cancelled) ∨
              cancel n (engine.stateAfter s m n) = false ∧
                ((∃ fault, engine.reportAfter s m n = .error fault ∧
                    engine.endingAfter? s m cap cancel n = some (.faulted (toString fault))) ∨
                  ∃ access, engine.reportAfter s m n = .ok access ∧
                    engine.endingAfter? s m cap cancel n = none))) := by
  unfold endingAfter?
  by_cases hhalt : engine.isHalted (engine.stateAfter s m n) (engine.machineAfter s m n) = true
  · exact .inl ⟨hhalt, if_pos hhalt⟩
  rw [if_neg hhalt]
  refine .inr ⟨Bool.eq_false_iff.mpr hhalt, ?_⟩
  by_cases hcap : cap ≤ n
  · exact .inl ⟨hcap, if_pos hcap⟩
  rw [if_neg hcap]
  refine .inr ⟨Nat.not_le.mp hcap, ?_⟩
  by_cases hcancel : cancel n (engine.stateAfter s m n) = true
  · exact .inl ⟨hcancel, if_pos hcancel⟩
  rw [if_neg hcancel]
  refine .inr ⟨Bool.eq_false_iff.mpr hcancel, ?_⟩
  cases engine.reportAfter s m n with
  | error fault => exact .inl ⟨fault, rfl, rfl⟩
  | ok access => exact .inr ⟨access, rfl, rfl⟩

variable [ToString φ] {engine s m} {cap : Nat} {cancel : CancelSignal σ} {n : Nat}

theorem endingAfter?_eq_none_iff :
    engine.endingAfter? s m cap cancel n = none ↔
      engine.isHalted (engine.stateAfter s m n) (engine.machineAfter s m n) = false ∧ n < cap ∧
        cancel n (engine.stateAfter s m n) = false ∧
        ∃ access, engine.reportAfter s m n = .ok access := by
  rcases engine.endingAfter?_cases s m cap cancel n with
    ⟨hhalt, h⟩ | ⟨hhalt, ⟨hcap, h⟩ | ⟨hcap, ⟨hcancel, h⟩ |
      ⟨hcancel, ⟨fault, hreport, h⟩ | ⟨access, hreport, h⟩⟩⟩⟩
  · simp [h, hhalt]
  · simp [h, Nat.not_lt.mpr hcap]
  · simp [h, hcancel]
  · simp [h, hreport]
  · simp [h, hhalt, hcap, hcancel, hreport]

theorem lt_of_endingAfter?_eq_none (h : engine.endingAfter? s m cap cancel n = none) : n < cap :=
  (endingAfter?_eq_none_iff.mp h).2.1

end Engine

/-! ### One turn of the loop -/

variable {σ φ : Type} [ToString φ] {engine : Engine σ φ} {config : Config}
  {cancel : CancelSignal σ} {s : σ} {m : Machine}

/-- The recording loop as it stands after `n` steps. -/
abbrev recordAfter (engine : Engine σ φ) (config : Config) (cancel : CancelSignal σ) (s : σ)
    (m : Machine) (fuel n : Nat) (log : Array Delta) : Array Delta × Ending × σ :=
  recordFrom engine config.scan cancel fuel (engine.stateAfter s m n) (engine.machineAfter s m n)
    (engine.replica config.scan s m n) log

/-- With an ending the loop is left, before anything else is recorded. -/
theorem recordAfter_of_some {fuel n : Nat} {log : Array Delta} {ending : Ending}
    (hcap : n + fuel = config.stepCap)
    (hlog : log.toList = engine.deltaLog config.scan s m n)
    (h : engine.endingAfter? s m config.stepCap cancel n = some ending) :
    recordAfter engine config cancel s m fuel n log
      = (log, ending, engine.stateAfter s m (n + ending.isFault.toNat)) := by
  unfold recordAfter recordFrom
  rcases engine.endingAfter?_cases s m config.stepCap cancel n with
    ⟨hhalt, hend⟩ | ⟨hhalt, hrest⟩
  · -- the machine has halted
    obtain rfl := Option.some.inj (h.symm.trans hend)
    rw [if_pos hhalt]
    cases (engine.machineAfter s m n).blocked <;> rfl
  rw [if_neg (by simp [hhalt])]
  rcases hrest with ⟨hle, hend⟩ | ⟨hlt, hrest⟩
  · -- the cap is reached just when the fuel is gone
    obtain rfl := Option.some.inj (h.symm.trans hend)
    obtain rfl : fuel = 0 := by omega
    rfl
  obtain ⟨fuel, rfl⟩ : ∃ k, fuel = k + 1 := ⟨fuel - 1, by omega⟩
  simp only [Engine.size_of_toList_eq hlog]
  rcases hrest with ⟨hcancel, hend⟩ | ⟨hcancel, hrest⟩
  · -- the flag is up
    obtain rfl := Option.some.inj (h.symm.trans hend)
    rw [if_pos hcancel]
    rfl
  rw [if_neg (by simp [hcancel]), Engine.step_after]
  rcases hrest with ⟨fault, hreport, hend⟩ | ⟨access, -, hend⟩
  · -- the call faults, and the state behind it is kept
    obtain rfl := Option.some.inj (h.symm.trans hend)
    rw [hreport]
    rfl
  · cases h.symm.trans hend

/-- Without one the loop makes the next step and keeps its delta. -/
theorem recordAfter_of_none {fuel n : Nat} {log : Array Delta}
    (hlog : log.toList = engine.deltaLog config.scan s m n)
    (h : engine.endingAfter? s m config.stepCap cancel n = none) :
    recordAfter engine config cancel s m (fuel + 1) n log
      = recordAfter engine config cancel s m fuel (n + 1)
          (log.push (engine.deltaAfter config.scan s m n)) := by
  obtain ⟨hhalt, -, hcancel, access, hreport⟩ := Engine.endingAfter?_eq_none_iff.mp h
  rw [recordAfter, recordFrom, if_neg (by simp [hhalt]), Engine.size_of_toList_eq hlog,
    if_neg (by simp [hcancel])]
  simp only [Engine.step_after, hreport]
  rw [recordAfter, Engine.replica_succ, Engine.deltaAfter, Engine.accessInto_succ hreport]

/-! ### The whole loop -/

/-- The outcome of a recording loop that was entered after `start` steps: its deltas, its
ending and the engine's state. -/
structure IsRecording (engine : Engine σ φ) (config : Config) (cancel : CancelSignal σ) (s : σ)
    (m : Machine) (start : Nat) (deltas : List Delta) (ending : Ending) (s' : σ) : Prop where
  /-- The deltas are those of their number of steps. -/
  deltas_eq : deltas = engine.deltaLog config.scan s m deltas.length
  /-- None of the steps made before is lost. -/
  start_le : start ≤ deltas.length
  /-- Before every step that the loop made, there was no reason to end. -/
  goes_on : ∀ n, start ≤ n → n < deltas.length →
    engine.endingAfter? s m config.stepCap cancel n = none
  /-- After the last one there was the one it ended for. -/
  ends : engine.endingAfter? s m config.stepCap cancel deltas.length = some ending
  /-- The engine was called once for each step, and once more if that call faulted. -/
  state_eq : s' = engine.stateAfter s m (deltas.length + ending.isFault.toNat)

/-- A loop that finds an ending records nothing more. -/
theorem IsRecording.of_some {n : Nat} {ending : Ending}
    (h : engine.endingAfter? s m config.stepCap cancel n = some ending) :
    IsRecording engine config cancel s m n (engine.deltaLog config.scan s m n) ending
      (engine.stateAfter s m (n + ending.isFault.toNat)) where
  deltas_eq := by rw [Engine.length_deltaLog]
  start_le := Nat.le_of_eq (Engine.length_deltaLog engine config.scan s m n).symm
  goes_on := by
    intro k hk hlt
    rw [Engine.length_deltaLog] at hlt
    omega
  ends := by rw [Engine.length_deltaLog]; exact h
  state_eq := by rw [Engine.length_deltaLog]

/-- A loop that finds none records what the loop after the next step does. -/
theorem IsRecording.of_none {n : Nat} {deltas : List Delta} {ending : Ending} {s' : σ}
    (h : engine.endingAfter? s m config.stepCap cancel n = none)
    (hrec : IsRecording engine config cancel s m (n + 1) deltas ending s') :
    IsRecording engine config cancel s m n deltas ending s' where
  deltas_eq := hrec.deltas_eq
  start_le := Nat.le_of_succ_le hrec.start_le
  goes_on := by
    intro k hk hlt
    rcases Nat.eq_or_lt_of_le hk with rfl | hk
    · exact h
    · exact hrec.goes_on k hk hlt
  ends := hrec.ends
  state_eq := hrec.state_eq

/-- **The loop invariant.**  A loop that stands after `n` steps, with the machine, the replica
and the deltas of those steps, ends as a recording. -/
theorem isRecording_recordAfter {fuel n : Nat} {log : Array Delta}
    (hcap : n + fuel = config.stepCap) (hlog : log.toList = engine.deltaLog config.scan s m n) :
    IsRecording engine config cancel s m n
      (recordAfter engine config cancel s m fuel n log).1.toList
      (recordAfter engine config cancel s m fuel n log).2.1
      (recordAfter engine config cancel s m fuel n log).2.2 := by
  induction fuel generalizing n log with
  | zero =>
    cases h : engine.endingAfter? s m config.stepCap cancel n with
    | none =>
      -- the cap is an ending
      have hlt := Engine.lt_of_endingAfter?_eq_none h
      omega
    | some ending =>
      rw [recordAfter_of_some hcap hlog h, hlog]
      exact .of_some h
  | succ fuel ih =>
    cases h : engine.endingAfter? s m config.stepCap cancel n with
    | none =>
      rw [recordAfter_of_none hlog h]
      refine .of_none h (ih (by omega) ?_)
      rw [Array.toList_push, hlog, Engine.deltaLog_succ]
    | some ending =>
      rw [recordAfter_of_some hcap hlog h, hlog]
      exact .of_some h

/-- **What `record` gives**: the recording of all steps from the first on. -/
theorem isRecording_record (engine : Engine σ φ) (config : Config) (cancel : CancelSignal σ)
    (s : σ) (m : Machine) :
    IsRecording engine config cancel s m 0 (record engine config cancel s m).1.deltas
      (record engine config cancel s m).1.ending (record engine config cancel s m).2 :=
  isRecording_recordAfter (Nat.zero_add _) rfl

theorem deltas_record :
    (record engine config cancel s m).1.deltas
      = engine.deltaLog config.scan s m (record engine config cancel s m).1.totalSteps :=
  (isRecording_record engine config cancel s m).deltas_eq

/-- The machine at a step of a recording is the replica after that many steps. -/
theorem stateAt_record {k : Nat} (hk : k ≤ (record engine config cancel s m).1.totalSteps) :
    (record engine config cancel s m).1.stateAt k = .ok (engine.replica config.scan s m k) := by
  rw [Timeline.stateAt_of_le hk, deltas_record, Engine.take_deltaLog _ _ _ _ hk]
  rfl

/-- Every step of a recording is a call that the engine answered. -/
theorem exists_report_of_lt_totalSteps {n : Nat}
    (hn : n < (record engine config cancel s m).1.totalSteps) :
    ∃ access, engine.reportAfter s m n = .ok access :=
  (Engine.endingAfter?_eq_none_iff.mp
    ((isRecording_record engine config cancel s m).goes_on n (Nat.zero_le n) hn)).2.2.2

/-- **The number of steps is the first one with an ending**, so recordings that find the same
endings have equally many steps. -/
theorem IsRecording.length_eq {config' : Config} {start : Nat} {deltas deltas' : List Delta}
    {ending ending' : Ending} {s₁ s₂ : σ} (hcap : config.stepCap = config'.stepCap)
    (h : IsRecording engine config cancel s m start deltas ending s₁)
    (h' : IsRecording engine config' cancel s m start deltas' ending' s₂) :
    deltas.length = deltas'.length := by
  rcases Nat.lt_trichotomy deltas.length deltas'.length with hlt | heq | hgt
  · -- the shorter one ended where the other one found no ending
    have hnone := h'.goes_on _ h.start_le hlt
    rw [← hcap, h.ends] at hnone
    cases hnone
  · exact heq
  · have hnone := h.goes_on _ h'.start_le hgt
    rw [hcap, h'.ends] at hnone
    cases hnone

/-- A loop has one outcome only. -/
theorem IsRecording.unique {start : Nat} {deltas deltas' : List Delta} {ending ending' : Ending}
    {s₁ s₂ : σ} (h : IsRecording engine config cancel s m start deltas ending s₁)
    (h' : IsRecording engine config cancel s m start deltas' ending' s₂) :
    deltas = deltas' ∧ ending = ending' ∧ s₁ = s₂ := by
  have hlen := h.length_eq rfl h'
  have hending : ending = ending' := by
    have hends := h.ends
    rw [hlen, h'.ends] at hends
    exact (Option.some.inj hends).symm
  refine ⟨?_, hending, ?_⟩
  · rw [h.deltas_eq, hlen, ← h'.deltas_eq]
  · rw [h.state_eq, h'.state_eq, hlen, hending]

/-- Whatever is a recording of all steps is what `record` gives. -/
theorem record_eq {deltas : List Delta} {ending : Ending} {s' : σ}
    (h : IsRecording engine config cancel s m 0 deltas ending s') :
    record engine config cancel s m = ({ initial := m, deltas, ending }, s') := by
  obtain ⟨rfl, rfl, rfl⟩ := h.unique (isRecording_record engine config cancel s m)
  rfl

end Hindsight
