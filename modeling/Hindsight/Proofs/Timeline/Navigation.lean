import Hindsight.Timeline.Cursor
import Hindsight.Proofs.Interaction
import Hindsight.Proofs.Timeline.Replay

/-!
# The memo of a cursor is invisible

A cursor is compared with a bare step number.  Whatever it is asked, in whatever order, it
answers as if every machine had been replayed from the start: the memo may lie behind the
current step, on it or in front of it, and always holds the machine of its own step.

## Main definitions

* `Cursor.Request`, `Cursor.Answer`, `Cursor.serve` — what a cursor can be asked.
* `Timeline.serve` — the same requests, answered from a step number.
* `Cursor.At` — the invariant.
* `Cursor.Shows` — what a cursor shows of a step.

## Main results

* `Cursor.answers_start` — **cursor and step number cannot be told apart.**
-/

namespace Hindsight
namespace Cursor

/-! ### Requests -/

/-- What a cursor can be asked. -/
inductive Request
  | next
  | prev
  | goTo (step : Nat)
  | toStart
  | toEnd
  | currentStep
  | totalSteps
  | canStepForward
  | canStepBackward
  | state
  | previousState
  | delta
  deriving DecidableEq

/-- Whether a request may move the cursor. -/
def Request.isMove : Request → Bool
  | next | prev | goTo _ | toStart | toEnd => true
  | currentStep | totalSteps | canStepForward | canStepBackward => false
  | state | previousState | delta => false

/-- What a cursor can answer. -/
inductive Answer
  /-- Nothing but that it has been done. -/
  | done
  | flag (b : Bool)
  | number (n : Nat)
  /-- How a move to a step went. -/
  | placed (result : Except StepError Unit)
  | machine (m : Option Machine)
  | delta (d : Option Delta)

/-- The cursor's answer to a request, and the cursor behind it. -/
def serve (c : Cursor) : Request → Answer × Cursor
  | .next => (.flag c.next.1, c.next.2)
  | .prev => (.flag c.prev.1, c.prev.2)
  | .goTo step => (.placed (c.goTo step).1, (c.goTo step).2)
  | .toStart => (.done, c.toStart)
  | .toEnd => (.done, c.toEnd)
  | .currentStep => (.number c.current, c)
  | .totalSteps => (.number c.totalSteps, c)
  | .canStepForward => (.flag c.canStepForward, c)
  | .canStepBackward => (.flag c.canStepBackward, c)
  | .state => (.machine (some c.state.1), c.state.2)
  | .previousState => (.machine c.previousState, c)
  | .delta => (.delta c.delta?, c)

end Cursor

namespace Timeline

/-- The answer at step `k` of a timeline, and the step moved to.  There is no memo: each machine
is replayed from the start. -/
def serve (t : Timeline) (k : Nat) : Cursor.Request → Cursor.Answer × Nat
  | .next => if k < t.totalSteps then (.flag true, k + 1) else (.flag false, k)
  | .prev => if 0 < k then (.flag true, k - 1) else (.flag false, k)
  | .goTo step =>
    if step ≤ t.totalSteps then (.placed (.ok ()), step)
    else (.placed (.error (.outOfRange step t.totalSteps)), k)
  | .toStart => (.done, 0)
  | .toEnd => (.done, t.totalSteps)
  | .currentStep => (.number k, k)
  | .totalSteps => (.number t.totalSteps, k)
  | .canStepForward => (.flag (k < t.totalSteps), k)
  | .canStepBackward => (.flag (0 < k), k)
  | .state => (.machine (t.stateAt k).toOption, k)
  | .previousState => (.machine (if k = 0 then none else (t.stateAt (k - 1)).toOption), k)
  | .delta => (.delta (if k = 0 then none else t.deltas[k - 1]?), k)

/-- A request that only reads stays where it is. -/
theorem serve_of_isMove_eq_false {t : Timeline} {k : Nat} {r : Cursor.Request}
    (h : r.isMove = false) : (t.serve k r).2 = k := by
  cases r with
  | next | prev | goTo step | toStart | toEnd => cases h
  | currentStep | totalSteps | canStepForward | canStepBackward => rfl
  | state | previousState | delta => rfl

end Timeline

/-! ### The invariant -/

namespace Cursor

/-- A cursor that stands at step `k` of a timeline and remembers the machine of some step. -/
structure At (c : Cursor) (t : Timeline) (k : Nat) : Prop where
  timeline_eq : c.timeline = t
  current_eq : c.current = k
  /-- The step exists. -/
  le_totalSteps : k ≤ t.totalSteps
  /-- The memo holds the machine of its own step, wherever that lies. -/
  memo_eq : c.memo.machine = t.machineAt c.memo.step

variable {c : Cursor} {t : Timeline} {k : Nat}

theorem at_start (t : Timeline) : (start t).At t 0 :=
  ⟨rfl, rfl, Nat.zero_le _, Timeline.machineAt_zero.symm⟩

/-- A move touches nothing but the current step. -/
theorem At.move (h : c.At t k) {j : Nat} (hj : j ≤ t.totalSteps) :
    ({ c with current := j } : Cursor).At t j :=
  ⟨h.timeline_eq, rfl, hj, h.memo_eq⟩

theorem refresh_of_ne (h : c.memo.step ≠ c.current) :
    c.refresh = { c with memo := ⟨c.current,
      if c.memo.step < c.current then
        c.timeline.continueTo c.memo.step c.current c.memo.machine
      else
        c.timeline.continueTo 0 c.current (c.memo.machine.copyFrom c.timeline.initial)⟩ } := by
  unfold refresh
  rw [if_neg h]

/-- A refreshed memo is the one of the current step, from behind it or from in front of it. -/
theorem At.refresh (h : c.At t k) : c.refresh.At t k ∧ c.refresh.memo.step = k := by
  obtain ⟨rfl, rfl, hle, hmemo⟩ := h
  by_cases hstep : c.memo.step = c.current
  · -- the memo is that of the current step already
    rw [Cursor.refresh, if_pos hstep]
    exact ⟨⟨rfl, rfl, hle, hmemo⟩, hstep⟩
  · rw [refresh_of_ne hstep]
    refine ⟨⟨rfl, rfl, hle, ?_⟩, rfl⟩
    by_cases hlt : c.memo.step < c.current
    · -- the deltas in between carry the memo forward
      simp only [if_pos hlt]
      rw [hmemo, Timeline.continueTo_machineAt (Nat.le_of_lt hlt)]
    · -- the buffer is overwritten, so nothing of the later machine is left in it
      simp only [if_neg hlt]
      rw [Machine.copyFrom_eq, Timeline.continueTo_zero]
      rfl

theorem At.state (h : c.At t k) : c.state.1 = t.machineAt k ∧ c.state.2.At t k := by
  obtain ⟨hat, hstep⟩ := h.refresh
  refine ⟨?_, hat⟩
  rw [Cursor.state, hat.memo_eq, hstep]

/-- The shortcut through the memo gives what a replay gives. -/
theorem At.previousState (h : c.At t k) :
    c.previousState = if k = 0 then none else (t.stateAt (k - 1)).toOption := by
  obtain ⟨rfl, rfl, hle, hmemo⟩ := h
  unfold Cursor.previousState
  cases hk : c.current with
  | zero => rfl
  | succ k =>
    rw [if_neg (Nat.succ_ne_zero k), Nat.add_sub_cancel]
    dsimp only
    -- if the memo is that of the step before, no replay is needed
    by_cases hstep : c.memo.step = k
    · rw [if_pos hstep, hmemo, hstep, Timeline.stateAt_eq_ok (by omega)]
      rfl
    · rw [if_neg hstep]

theorem At.delta? (h : c.At t k) : c.delta? = if k = 0 then none else t.deltas[k - 1]? := by
  obtain ⟨rfl, rfl, -, -⟩ := h
  unfold Cursor.delta?
  cases c.current with
  | zero => rfl
  | succ k => rfl

/-! ### One request -/

/-- **One request**: the cursor answers as the step number does, and goes where it goes. -/
theorem At.serve (h : c.At t k) (r : Request) :
    (c.serve r).1 = (t.serve k r).1 ∧ (c.serve r).2.At t (t.serve k r).2 := by
  -- what the cursor looks at is what is known of the step number
  have htotal : c.totalSteps = t.totalSteps := congrArg Timeline.totalSteps h.timeline_eq
  have hforward : c.canStepForward = decide (k < t.totalSteps) := by
    rw [Cursor.canStepForward, htotal, h.current_eq]
  have hbackward : c.canStepBackward = decide (0 < k) := by
    rw [Cursor.canStepBackward, h.current_eq]
  have hle := h.le_totalSteps
  cases r with
  | next =>
    simp only [Cursor.serve, Timeline.serve, Cursor.next, hforward, decide_eq_true_eq,
      h.current_eq]
    by_cases hlt : k < t.totalSteps
    · rw [if_pos hlt, if_pos hlt]
      exact ⟨rfl, h.move hlt⟩
    · rw [if_neg hlt, if_neg hlt]
      exact ⟨rfl, h⟩
  | prev =>
    simp only [Cursor.serve, Timeline.serve, Cursor.prev, hbackward, decide_eq_true_eq,
      h.current_eq]
    by_cases hpos : 0 < k
    · rw [if_pos hpos, if_pos hpos]
      exact ⟨rfl, h.move (by omega)⟩
    · rw [if_neg hpos, if_neg hpos]
      exact ⟨rfl, h⟩
  | goTo step =>
    -- out of range, the step number stays, and so does the memo
    simp only [Cursor.serve, Timeline.serve, Cursor.goTo, htotal]
    by_cases hstep : step ≤ t.totalSteps
    · rw [if_pos hstep, if_pos hstep]
      exact ⟨rfl, h.move hstep⟩
    · rw [if_neg hstep, if_neg hstep, h.timeline_eq]
      exact ⟨rfl, h⟩
  | toStart => exact ⟨rfl, h.move (Nat.zero_le _)⟩
  | toEnd =>
    refine ⟨rfl, ?_⟩
    simp only [Cursor.serve, Cursor.toEnd, htotal]
    exact h.move (Nat.le_refl _)
  | currentStep => exact ⟨congrArg Answer.number h.current_eq, h⟩
  | totalSteps => exact ⟨congrArg Answer.number htotal, h⟩
  | canStepForward => exact ⟨congrArg Answer.flag hforward, h⟩
  | canStepBackward => exact ⟨congrArg Answer.flag hbackward, h⟩
  | state =>
    obtain ⟨hmachine, hat⟩ := h.state
    refine ⟨?_, hat⟩
    simp only [Cursor.serve, Timeline.serve, hmachine, Timeline.stateAt_eq_ok hle]
    rfl
  | previousState => exact ⟨congrArg Answer.machine h.previousState, h⟩
  | delta => exact ⟨congrArg Answer.delta h.delta?, h⟩

/-! ### All requests -/

/-- What a cursor shows of step `k` of a timeline. -/
structure Shows (c : Cursor) (t : Timeline) (k : Nat) : Prop where
  timeline_eq : c.timeline = t
  current_eq : c.current = k
  le_totalSteps : k ≤ t.totalSteps
  /-- The machine is the one that a replay from the start gives. -/
  state_eq : t.stateAt k = .ok c.state.1
  /-- In front of the start there is nothing to show. -/
  of_zero : k = 0 → c.previousState = none ∧ c.delta? = none
  /-- Behind it there are the machine before and the delta that leads on from there. -/
  of_succ : ∀ j, k = j + 1 →
    (∃ m, t.stateAt j = .ok m ∧ c.previousState = some m) ∧
      ∃ d, t.deltas[j]? = some d ∧ c.delta? = some d

theorem At.shows (h : c.At t k) : c.Shows t k where
  timeline_eq := h.timeline_eq
  current_eq := h.current_eq
  le_totalSteps := h.le_totalSteps
  state_eq := by rw [h.state.1, Timeline.stateAt_eq_ok h.le_totalSteps]
  of_zero := fun hk => ⟨by rw [h.previousState, if_pos hk], by rw [h.delta?, if_pos hk]⟩
  of_succ := by
    rintro j rfl
    have hle : j + 1 ≤ t.totalSteps := h.le_totalSteps
    have hdelta : t.deltas[j]? = some t.deltas[j] := List.getElem?_eq_getElem hle
    refine ⟨⟨t.machineAt j, Timeline.stateAt_eq_ok (by omega), ?_⟩, t.deltas[j], hdelta, ?_⟩
    · rw [h.previousState, if_neg (Nat.succ_ne_zero j), Nat.add_sub_cancel,
        Timeline.stateAt_eq_ok (by omega)]
      rfl
    · rw [h.delta?, if_neg (Nat.succ_ne_zero j), Nat.add_sub_cancel, hdelta]

theorem at_after (t : Timeline) (requests : List Request) :
    (Interaction.after serve (start t) requests).At t (Interaction.after t.serve 0 requests) :=
  Interaction.after_rel (fun (c : Cursor) k => c.At t k) (fun _ _ r h => (h.serve r).2)
    (at_start t) requests

/-- **Cursor and step number cannot be told apart.**  From the start of any timeline, any list
of requests gets the same answers from the cursor as from a step number without a memo.  After
it the cursor shows the step that the number has come to, and its next answer is the one it
would give if only the moves had been asked. -/
theorem answers_start (t : Timeline) (requests : List Request) :
    Interaction.answers serve (start t) requests = Interaction.answers t.serve 0 requests ∧
      (Interaction.after serve (start t) requests).Shows t
        (Interaction.after t.serve 0 requests) ∧
      ∀ r, ((Interaction.after serve (start t) requests).serve r).1
        = ((Interaction.after serve (start t) (requests.filter Request.isMove)).serve r).1 := by
  refine ⟨?_, (at_after t requests).shows, fun r => ?_⟩
  · exact Interaction.answers_eq (fun (c : Cursor) k => c.At t k) (fun _ _ r h => (h.serve r).1)
      (fun _ _ r h => (h.serve r).2) (at_start t) requests
  · -- both cursors answer as the one step number does
    rw [((at_after t requests).serve r).1, ((at_after t _).serve r).1,
      Interaction.after_filter t.serve fun _ _ => Timeline.serve_of_isMove_eq_false]

end Cursor
end Hindsight
