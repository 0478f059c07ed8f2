import Hindsight.Proofs.Timeline.Programs
import Hindsight.Proofs.Timeline.Sessions

/-!
# Runs on an engine that rewinds

All that a run takes from an engine's state is what a reset makes of it.  An engine *rewinds* if
its steps do not change that, and then neither does anything that a session can be asked: a
recording leaves the engine a number of steps on, a source that does not assemble leaves it as it
was, and the rest of a session does not touch it.  So every run starts from the same state, as
far as it can see.

## Main definitions

* `Engine.Rewinds` — a reset takes back all steps.

## Main results

* `runProgram_congr` — what a run takes from the engine's state.
* `Engine.Rewinds.reset_runProgram` — what a run leaves of it.
* `Session.run_after` — **a run in a session does not depend on what was asked before.**
-/

namespace Hindsight

variable {σ φ : Type}

/-- A reset takes back every step, whether it succeeded or faulted, and every earlier reset. -/
structure Engine.Rewinds (engine : Engine σ φ) : Prop where
  reset_step : ∀ s m, engine.reset (engine.step s m).2.1 = engine.reset s
  reset_reset : ∀ s, engine.reset (engine.reset s).1 = engine.reset s

variable [ToString φ]

/-- **What a run takes from the engine's state**: if resets make the same of two states, the
results are the same, and so is the engine's state if there is a timeline. -/
theorem runProgram_congr {tools : Toolchain σ φ} {s s' : σ}
    (h : tools.engine.reset s = tools.engine.reset s') (config : Config) (cancel : CancelSignal σ)
    (moduleName source : String) :
    let here := runProgram tools config cancel moduleName source s
    let there := runProgram tools config cancel moduleName source s'
    here.1 = there.1 ∧ ∀ t, here.1 = .ok t → here.2 = there.2 := by
  intro here there
  by_cases herrors : 0 < (tools.assemble moduleName source).errorCount
  · have hhere : here.1 = .error _ := congrArg Prod.fst (if_pos herrors)
    have hthere : there.1 = .error _ := congrArg Prod.fst (if_pos herrors)
    refine ⟨hhere.trans hthere.symm, fun t ht => ?_⟩
    rw [hhere] at ht
    cases ht
  · -- from the reset on, the states are one
    have heq : here = there := by
      simp only [here, there, runProgram, if_neg herrors, h]
    exact ⟨congrArg Prod.fst heq, fun _ _ => congrArg Prod.snd heq⟩

/-! ### What is left of the engine's state -/

namespace Engine.Rewinds

variable {engine : Engine σ φ}

omit [ToString φ] in
theorem reset_stateAfter (h : engine.Rewinds) (s : σ) (m : Machine) (n : Nat) :
    engine.reset (engine.stateAfter s m n) = engine.reset s := by
  induction n with
  | zero => rfl
  | succ n ih => exact (h.reset_step _ _).trans ih

theorem reset_record (h : engine.Rewinds) (config : Config) (cancel : CancelSignal σ) (s : σ)
    (initial : Machine) :
    engine.reset (record engine config cancel s initial).2 = engine.reset s := by
  rw [(isRecording_record engine config cancel s initial).state_eq]
  exact h.reset_stateAfter s initial _

/-- **What a run leaves of the engine's state**: the next reset finds nothing of the run. -/
theorem reset_runProgram {tools : Toolchain σ φ} (h : tools.engine.Rewinds) (config : Config)
    (cancel : CancelSignal σ) (moduleName source : String) (s : σ) :
    tools.engine.reset (runProgram tools config cancel moduleName source s).2
      = tools.engine.reset s := by
  rcases runProgram_cases tools config cancel moduleName source s with
    ⟨-, hrun⟩ | ⟨-, ⟨-, hrun⟩ | ⟨initial, -, hrun⟩⟩
  · rw [hrun]
  · rw [hrun]
    exact h.reset_reset s
  · rw [hrun]
    exact (h.reset_record config cancel _ initial).trans (h.reset_reset s)

end Engine.Rewinds

/-! ### Sessions -/

namespace Session

variable {tools : Toolchain σ φ}

omit [ToString φ] in
/-- Moves and reads change nothing but the cursor. -/
theorem serveCursor_snd (s : Session σ) (request : Cursor.Request) :
    (s.serveCursor request).2.engine = s.engine ∧
      (s.serveCursor request).2.moduleName = s.moduleName := by
  cases hcursor : s.cursor with
  | none => rw [serveCursor_of_none hcursor]; exact ⟨rfl, rfl⟩
  | some c => rw [serveCursor_of_some hcursor]; exact ⟨rfl, rfl⟩

/-- One request changes neither the module name nor what a reset makes of the engine's state. -/
theorem serve_keeps (h : tools.engine.Rewinds) (s : Session σ) (r : Request σ) :
    tools.engine.reset (s.serve tools r).2.engine = tools.engine.reset s.engine ∧
      (s.serve tools r).2.moduleName = s.moduleName := by
  cases r with
  | run cancel source =>
    exact ⟨h.reset_runProgram s.config cancel s.moduleName source s.engine, rfl⟩
  | clear | configure | timeline => exact ⟨rfl, rfl⟩
  | cursor request =>
    obtain ⟨hengine, hname⟩ := s.serveCursor_snd request
    exact ⟨congrArg tools.engine.reset hengine, hname⟩

/-- **A run in a session does not depend on what was asked before**, if the engine rewinds: after
any requests it gives what it gives in a fresh session with the configuration of the moment.  If
that is a timeline, the sessions behind it are the same. -/
theorem run_after (h : tools.engine.Rewinds) (engine : σ) (config : Config) (moduleName : String)
    (requests : List (Request σ)) (cancel : CancelSignal σ) (source : String) :
    let s := Interaction.after (serve tools) { engine, config, moduleName } requests
    let fresh : Session σ := { engine, config := s.config, moduleName }
    (s.run tools cancel source).1 = (fresh.run tools cancel source).1 ∧
      ∀ t, (s.run tools cancel source).1 = .ok t →
        (s.run tools cancel source).2 = (fresh.run tools cancel source).2 := by
  intro s fresh
  -- no request changes what the next reset finds
  have hkept : tools.engine.reset s.engine = tools.engine.reset engine ∧
      s.moduleName = moduleName :=
    Interaction.after_of_forall (serve tools)
      (P := fun s => tools.engine.reset s.engine = tools.engine.reset engine ∧
        s.moduleName = moduleName)
      (fun s r hs => ⟨(serve_keeps h s r).1.trans hs.1, (serve_keeps h s r).2.trans hs.2⟩)
      ⟨rfl, rfl⟩ requests
  obtain ⟨hreset, hname⟩ := hkept
  obtain ⟨hresult, hengine⟩ := runProgram_congr hreset s.config cancel moduleName source
  -- of the session, a run takes all but the cursor, and of the engine what a reset leaves
  have hrun : s.run tools cancel source
      = ((runProgram tools s.config cancel moduleName source s.engine).1,
        { engine := (runProgram tools s.config cancel moduleName source s.engine).2,
          config := s.config, moduleName,
          cursor := (runProgram tools s.config cancel moduleName source
            s.engine).1.toOption.map Cursor.start }) := by
    rw [run, hname]
  rw [hrun]
  refine ⟨hresult, fun t ht => ?_⟩
  rw [hresult, hengine t ht]
  rfl

end Session
end Hindsight
