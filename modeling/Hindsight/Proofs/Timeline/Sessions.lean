import Hindsight.Session
import Hindsight.Proofs.Timeline.Navigation

/-!
# A session as a state machine

A session is compared with a machine that has no cursor and no memo: beside the engine and the
configuration it has a place, which is either nothing or a timeline and a step of it.  A run
that succeeds puts the place at the start of its timeline, a run that fails and a `clear` leave
none, and everything else moves within the timeline at most.

## Main definitions

* `Session.Request`, `Session.Answer`, `Session.serve` — what a session can be asked.
* `Session.Standing`, `Standing.serve` — the state machine.
* `Standing.Of` — the relation between the two.

## Main results

* `Session.answers_fresh` — **session and state machine cannot be told apart.**
-/

namespace Hindsight
namespace Session

variable {σ φ : Type} [ToString φ]

/-! ### Requests -/

/-- What a session can be asked. -/
inductive Request (σ : Type)
  /-- A run, with a flag to cancel it. -/
  | run (cancel : CancelSignal σ) (source : String)
  | clear
  | configure (config : Config)
  | timeline
  /-- A move or a read within the last run. -/
  | cursor (request : Cursor.Request)

/-- What a session can answer. -/
inductive Answer
  | done
  | ran (result : Except RunError Timeline)
  | timeline (t : Option Timeline)
  | cursor (answer : Cursor.Answer)

/-- The answer to a move or a read. -/
def serveCursor (s : Session σ) : Cursor.Request → Cursor.Answer × Session σ
  | .next => (.flag s.next.1, s.next.2)
  | .prev => (.flag s.prev.1, s.prev.2)
  | .goTo step => (.placed (s.goTo step).1, (s.goTo step).2)
  | .toStart => (.done, s.toStart)
  | .toEnd => (.done, s.toEnd)
  | .currentStep => (.number s.currentStep, s)
  | .totalSteps => (.number s.totalSteps, s)
  | .canStepForward => (.flag s.canStepForward, s)
  | .canStepBackward => (.flag s.canStepBackward, s)
  | .state => (.machine s.state.1, s.state.2)
  | .previousState => (.machine s.previousState, s)
  | .delta => (.delta s.delta?, s)

/-- The session's answer to a request, and the session behind it. -/
def serve (tools : Toolchain σ φ) (s : Session σ) : Request σ → Answer × Session σ
  | .run cancel source =>
    (.ran (s.run tools cancel source).1, (s.run tools cancel source).2)
  | .clear => (.done, s.clear)
  | .configure config => (.done, { s with config })
  | .timeline => (.timeline s.timeline?, s)
  | .cursor request => (.cursor (s.serveCursor request).1, (s.serveCursor request).2)

/-! ### The state machine -/

/-- What a session amounts to: an engine, a configuration, and a step of the last run if there is
one. -/
structure Standing (σ : Type) where
  engine : σ
  config : Config
  place : Option (Timeline × Nat)

/-- The answer to a move or a read when there is no last run: step 0 of 0, nothing to read,
and no move. -/
def emptyAnswer : Cursor.Request → Cursor.Answer
  | .next | .prev | .canStepForward | .canStepBackward => .flag false
  | .goTo _ => .placed (.error .noTimeline)
  | .toStart | .toEnd => .done
  | .currentStep | .totalSteps => .number 0
  | .state | .previousState => .machine none
  | .delta => .delta none

/-- The answer of the state machine, and where it stands then. -/
def Standing.serve (tools : Toolchain σ φ) (moduleName : String) (v : Standing σ) :
    Request σ → Answer × Standing σ
  | .run cancel source =>
    match runProgram tools v.config cancel moduleName source v.engine with
    | (.ok t, engine) => (.ran (.ok t), { v with engine, place := some (t, 0) })
    | (.error e, engine) => (.ran (.error e), { v with engine, place := none })
  | .clear => (.done, { v with place := none })
  | .configure config => (.done, { v with config })
  | .timeline => (.timeline (v.place.map (·.1)), v)
  | .cursor request =>
    match v.place with
    | none => (.cursor (emptyAnswer request), v)
    | some (t, k) =>
      (.cursor (t.serve k request).1, { v with place := some (t, (t.serve k request).2) })

/-! ### The relation -/

/-- A session that stands where the state machine does. -/
structure Standing.Of (v : Standing σ) (moduleName : String) (s : Session σ) : Prop where
  engine_eq : s.engine = v.engine
  config_eq : s.config = v.config
  moduleName_eq : s.moduleName = moduleName
  /-- There is a cursor if there is a place, and it is there. -/
  cursor_rel : Option.Rel (fun (c : Cursor) p => c.At p.1 p.2) s.cursor v.place

variable {s : Session σ} {v : Standing σ} {moduleName : String} {t : Timeline} {k : Nat}
  {c : Cursor}

/-- Without a cursor, every move and read has the answer of an empty session and changes
nothing. -/
theorem serveCursor_of_none (h : s.cursor = none) (request : Cursor.Request) :
    s.serveCursor request = (emptyAnswer request, s) := by
  obtain ⟨engine, config, moduleName, cursor⟩ := s
  obtain rfl : cursor = none := h
  cases request with
  | next | prev | goTo step | toStart | toEnd => rfl
  | currentStep | totalSteps | canStepForward | canStepBackward => rfl
  | state | previousState | delta => rfl

/-- With one, the cursor answers, and nothing else changes. -/
theorem serveCursor_of_some (h : s.cursor = some c) (request : Cursor.Request) :
    s.serveCursor request
      = ((c.serve request).1, { s with cursor := some (c.serve request).2 }) := by
  obtain ⟨engine, config, moduleName, cursor⟩ := s
  obtain rfl : cursor = some c := h
  cases request with
  | next | prev | goTo step | toStart | toEnd => rfl
  | currentStep | totalSteps | canStepForward | canStepBackward => rfl
  | state | previousState | delta => rfl

/-- A session is empty, or it has a cursor at its place. -/
theorem Standing.Of.empty_or_live (h : v.Of moduleName s) :
    (s.cursor = none ∧ v.place = none) ∨
      ∃ c t k, s.cursor = some c ∧ v.place = some (t, k) ∧ c.At t k := by
  obtain ⟨-, -, -, hrel⟩ := h
  generalize s.cursor = cursor, v.place = place at hrel ⊢
  cases hrel with
  | none => exact .inl ⟨rfl, rfl⟩
  | @some c p hat => exact .inr ⟨c, p.1, p.2, rfl, rfl, hat⟩

/-! ### One request -/

/-- A run gives both the same result and the same place, whatever place they had. -/
theorem Standing.Of.run {tools : Toolchain σ φ} (h : v.Of moduleName s)
    (cancel : CancelSignal σ) (source : String) :
    (s.serve tools (.run cancel source)).1 = (v.serve tools moduleName (.run cancel source)).1 ∧
      (v.serve tools moduleName (.run cancel source)).2.Of moduleName
        (s.serve tools (.run cancel source)).2 := by
  obtain ⟨engine, config, name, cursor⟩ := s
  obtain ⟨_, _, place⟩ := v
  obtain ⟨rfl, rfl, rfl, -⟩ := h
  simp only [Session.serve, Session.run, Standing.serve]
  -- the old cursor is gone in either case
  rcases runProgram tools config cancel name source engine with ⟨_ | t, engine'⟩
  · exact ⟨rfl, rfl, rfl, rfl, .none⟩
  · exact ⟨rfl, rfl, rfl, rfl, .some (Cursor.at_start t)⟩

/-- **One request**: the session answers as the state machine does and stands where it does. -/
theorem Standing.Of.serve (tools : Toolchain σ φ) (h : v.Of moduleName s) (r : Request σ) :
    (s.serve tools r).1 = (v.serve tools moduleName r).1 ∧
      (v.serve tools moduleName r).2.Of moduleName (s.serve tools r).2 := by
  cases r with
  | run cancel source => exact h.run cancel source
  | clear => exact ⟨rfl, h.engine_eq, h.config_eq, h.moduleName_eq, .none⟩
  | configure config => exact ⟨rfl, h.engine_eq, rfl, h.moduleName_eq, h.cursor_rel⟩
  | timeline =>
    refine ⟨?_, h⟩
    simp only [Session.serve, Standing.serve, timeline?]
    rcases h.empty_or_live with ⟨hcursor, hplace⟩ | ⟨c, t, k, hcursor, hplace, hat⟩
    · rw [hcursor, hplace]
      rfl
    · rw [hcursor, hplace, ← hat.timeline_eq]
      rfl
  | cursor request =>
    rcases h.empty_or_live with ⟨hcursor, hplace⟩ | ⟨c, t, k, hcursor, hplace, hat⟩
    · -- there is nothing to move, and nothing to read
      simp only [Session.serve, Standing.serve, serveCursor_of_none hcursor, hplace, true_and]
      exact h
    · obtain ⟨hanswer, hat⟩ := hat.serve request
      simp only [Session.serve, Standing.serve, serveCursor_of_some hcursor, hplace]
      exact ⟨congrArg Answer.cursor hanswer, h.engine_eq, h.config_eq, h.moduleName_eq,
        .some hat⟩

/-! ### All requests -/

/-- **Session and state machine cannot be told apart.**  For any engine and assembler, and from
any configuration, a new session answers any list of requests as the state machine does.  After
it the session has the engine and the configuration of the state machine, and a cursor that
shows its place if there is one. -/
theorem answers_fresh (tools : Toolchain σ φ) (engine : σ) (config : Config) (moduleName : String)
    (requests : List (Request σ)) :
    let fresh : Session σ := { engine, config, moduleName }
    let start : Standing σ := { engine, config, place := none }
    let s := Interaction.after (serve tools) fresh requests
    let v := Interaction.after (Standing.serve tools moduleName) start requests
    Interaction.answers (serve tools) fresh requests
        = Interaction.answers (Standing.serve tools moduleName) start requests ∧
      s.engine = v.engine ∧ s.config = v.config ∧
      Option.Rel (fun (c : Cursor) p => c.Shows p.1 p.2) s.cursor v.place := by
  intro fresh start s v
  have hfresh : start.Of moduleName fresh := ⟨rfl, rfl, rfl, .none⟩
  have hafter : v.Of moduleName s :=
    Interaction.after_rel (fun (s : Session σ) (v : Standing σ) => v.Of moduleName s)
      (fun _ _ r h => (h.serve tools r).2) hfresh requests
  refine ⟨?_, hafter.engine_eq, hafter.config_eq, ?_⟩
  · exact Interaction.answers_eq (fun (s : Session σ) (v : Standing σ) => v.Of moduleName s)
      (fun _ _ r h => (h.serve tools r).1) (fun _ _ r h => (h.serve tools r).2) hfresh requests
  · rcases hafter.empty_or_live with ⟨hcursor, hplace⟩ | ⟨c, t, k, hcursor, hplace, hat⟩
    · rw [hcursor, hplace]
      exact .none
    · rw [hcursor, hplace]
      exact .some hat.shows

end Session
end Hindsight
