import Hindsight.Proofs.Emulator.Reads

/-!
# More input never rewrites history

Two runs of one program, where the second has some more input behind the words of the first.  As
long as the first run does not wait, the two make the same steps: an emulator with more input is
the other one, extended, and a step that is not left waiting leads from extension to extension.
The steps part where the first run waits, and there the second is given the first of the
additional words.

## Main definitions

* `Emulator.extend` — an emulator with more input.
* `Emulator.GoesOn` — a run that is not left waiting.

## Main results

* `Emulator.error_step_iff` — whether a step faults has nothing to do with the input.
* `Emulator.step_extend`, `Emulator.after_extend` — steps and runs that do not wait.
* `Emulator.record_extend`, `Emulator.exists_parting` — recordings that do not block, and the
  first request on which another one does.
* `more_input_keeps_history` — **more input never rewrites history.**
-/

namespace Hindsight

/-! ### More input -/

namespace Input

/-- The input with more words behind all others. -/
def extend (i : Input) (extra : List Word) : Input where
  words := i.words ++ extra
  pending := i.pending ++ extra
  pending_suffix := by
    obtain ⟨read, hread⟩ := i.pending_suffix
    exact ⟨read, by rw [← List.append_assoc, hread]⟩

variable {i : Input} {w : Word} (extra : List Word)

/-- A word that is there is still the next one. -/
theorem peek_extend (h : i.peek = some w) : (i.extend extra).peek = some w := by
  rw [peek, extend, List.head?_append, ← peek, h]
  rfl

/-- Where there was none, the next one is the first of the additional ones. -/
theorem peek_extend_of_none (h : i.peek = none) : (i.extend extra).peek = extra.head? := by
  rw [peek, extend, List.head?_append, ← peek, h]
  rfl

/-- Taking a word that is there and adding others can be done in either order. -/
theorem advance_extend (h : i.peek = some w) :
    (i.extend extra).advance = i.advance.extend extra := by
  obtain ⟨words, pending, hsuffix⟩ := i
  cases pending with
  | nil => cases h
  | cons w' pending => rfl

end Input

namespace Emulator

/-- The emulator with more input. -/
def extend (e : Emulator) (extra : List Word) : Emulator := { e with input := e.input.extend extra }

/-! ### One step -/

section Step

variable {e e' : Emulator} {m m' : Machine} {access : Access} {fault : Fault}

/-- A fault is not due to the input. -/
theorem error_step (h : (e.step m).1 = .error fault) (e' : Emulator) :
    (e'.step m).1 = .error fault := by
  unfold step at h ⊢
  cases hi : Instruction.fetch? m m.pc with
  | none =>
    simp only [hi] at h ⊢
    exact h
  | some i =>
    simp only [hi] at h ⊢
    cases hrequest : i.readRequest? m with
    | none =>
      rw [Instruction.effect_congr hrequest _ e'.input.peek e.input.peek]
      cases heffect : i.effect m (fetched m i.opcode.size) e.input.peek with
      | error fault' =>
        simp only [heffect] at h ⊢
        exact h
      | ok effect =>
        simp only [heffect] at h
        cases h
    | some a =>
      -- a request is answered, one way or the other
      obtain ⟨-, reads, hread, hwait⟩ :=
        Instruction.effect_of_readRequest?_eq_some hrequest (fetched m i.opcode.size)
      cases hpeek : e.input.peek with
      | none =>
        simp only [hpeek, hwait] at h
        cases h
      | some w =>
        simp only [hpeek, hread] at h
        cases h

/-- **Whether a step faults, and how, has nothing to do with the input.** -/
theorem error_step_iff (e e' : Emulator) :
    (e.step m).1 = .error fault ↔ (e'.step m).1 = .error fault :=
  ⟨fun h => error_step h e', fun h => error_step h e⟩

/-- **A step that is not left waiting** is the same with more input. -/
theorem step_extend (h : e.step m = (.ok access, e', m')) (hgoes : m'.blocked = false)
    (extra : List Word) : (e.extend extra).step m = (.ok access, e'.extend extra, m') := by
  obtain ⟨i, effect, hfetch, heffect, rfl, rfl, rfl⟩ := step_eq_ok_iff.mp h
  cases hrequest : i.readRequest? m with
  | none =>
    -- the input is not looked at, so that it may as well be the longer one
    obtain ⟨-, -, hframe⟩ := Instruction.frame_effect heffect
    obtain ⟨hconsumes, -⟩ := hframe hrequest
    rw [Instruction.effect_congr hrequest _ _ (e.extend extra).input.peek] at heffect
    refine step_eq_ok_iff.mpr ⟨i, effect, hfetch, heffect, rfl, ?_, rfl⟩
    rw [note, note, hconsumes]
    rfl
  | some a =>
    obtain ⟨-, reads, hread, hwait⟩ :=
      Instruction.effect_of_readRequest?_eq_some hrequest (fetched m i.opcode.size)
    cases hpeek : e.input.peek with
    | none =>
      -- a request that finds no word waits, and this step does not
      rw [hpeek, hwait] at heffect
      obtain rfl := Except.ok.inj heffect
      rw [(waitsForInput_apply m reads _).blocked_eq] at hgoes
      cases hgoes
    | some w =>
      have hpeek' : (e.extend extra).input.peek = some w := Input.peek_extend extra hpeek
      rw [hpeek, ← hpeek'] at heffect
      refine step_eq_ok_iff.mpr ⟨i, effect, hfetch, heffect, rfl, ?_, rfl⟩
      rw [hpeek', hread] at heffect
      obtain rfl := Except.ok.inj heffect
      exact congrArg (Emulator.mk · _) (Input.advance_extend extra hpeek).symm

end Step

/-! ### Runs -/

section Runs

variable {e : Emulator} {m : Machine} {n : Nat} (extra : List Word)

/-- So many calls in a row succeed, and none of them is left waiting. -/
def GoesOn (e : Emulator) (m : Machine) (n : Nat) : Prop :=
  ∀ k < n, (∃ access, engine.reportAfter e m k = .ok access) ∧
    (engine.machineAfter e m (k + 1)).blocked = false

theorem GoesOn.mono {k : Nat} (h : GoesOn e m n) (hk : k ≤ n) : GoesOn e m k := by
  intro j hj
  exact h j (Nat.lt_of_lt_of_le hj hk)

/-- **A run that is not left waiting** is the same with more input. -/
theorem after_extend (h : GoesOn e m n) :
    engine.stateAfter (e.extend extra) m n = (engine.stateAfter e m n).extend extra ∧
      engine.machineAfter (e.extend extra) m n = engine.machineAfter e m n ∧
      ∀ k < n, engine.reportAfter (e.extend extra) m k = engine.reportAfter e m k := by
  induction n with
  | zero => exact ⟨rfl, rfl, fun k hk => absurd hk (Nat.not_lt_zero k)⟩
  | succ n ih =>
    obtain ⟨hstate, hmachine, hreports⟩ := ih (h.mono (Nat.le_succ n))
    obtain ⟨⟨access, hreport⟩, hgoes⟩ := h n (Nat.lt_succ_self n)
    -- by now the other emulator is the extension of this one, on the same machine
    have hextended := step_extend (step_of_reportAfter hreport) hgoes extra
    rw [← hstate, ← hmachine] at hextended
    obtain ⟨hreport', hstate', hmachine'⟩ := after_succ_of_step hextended
    refine ⟨hstate', hmachine', fun k hk => ?_⟩
    rcases Nat.lt_succ_iff_lt_or_eq.mp hk with hlt | rfl
    · exact hreports k hlt
    · rw [hreport', hreport]

/-- The endings depend on the machine only, if the flag does not look at the emulator. -/
theorem endingAfter?_congr {e' : Emulator} (cap : Nat) (flag : Nat → Bool)
    (h : engine.machineAfter e m n = engine.machineAfter e' m n) :
    engine.endingAfter? e m cap (fun k _ => flag k) n
      = engine.endingAfter? e' m cap (fun k _ => flag k) n := by
  have hhalt : engine.isHalted (engine.stateAfter e m n) (engine.machineAfter e m n)
      = engine.isHalted (engine.stateAfter e' m n) (engine.machineAfter e' m n) := by
    rw [h]
    rfl
  have hfault : ∀ fault, engine.reportAfter e m n = .error fault ↔
      engine.reportAfter e' m n = .error fault := by
    intro fault
    rw [Engine.reportAfter, Engine.reportAfter, h]
    exact error_step_iff _ _
  rw [Engine.endingAfter?, Engine.endingAfter?, hhalt, h]
  -- the reports may differ if both are successes, and then neither of them ends the run
  cases hreport : engine.reportAfter e m n with
  | error fault => rw [(hfault fault).mp hreport]
  | ok access =>
    cases hreport' : engine.reportAfter e' m n with
    | error fault =>
      rw [(hfault fault).mpr hreport'] at hreport
      cases hreport
    | ok access' => rfl

end Runs

end Emulator

/-! ### Recordings -/

/-- The deltas depend on what the steps lead to and report. -/
theorem Engine.deltaLog_congr {σ φ : Type} {engine : Engine σ φ} {s s' : σ} {m : Machine} {n : Nat}
    (scan : MemoryScan)
    (h : ∀ k < n, engine.machineAfter s m (k + 1) = engine.machineAfter s' m (k + 1) ∧
      engine.reportAfter s m k = engine.reportAfter s' m k) :
    engine.deltaLog scan s m n = engine.deltaLog scan s' m n := by
  induction n with
  | zero => rfl
  | succ n ih =>
    obtain ⟨hmachine, hreport⟩ := h n (Nat.lt_succ_self n)
    have hlog := ih fun k hk => h k (Nat.lt_succ_of_lt hk)
    rw [deltaLog, deltaLog, hlog, hmachine, accessInto, accessInto, hreport]

namespace Emulator

variable {config : Config} {flag : Nat → Bool} {e : Emulator} {m : Machine} {n : Nat}

/-- In front of the last step, a recording goes on. -/
theorem goesOn_of_lt_totalSteps {cancel : CancelSignal Emulator}
    (hn : n < (record engine config cancel e m).1.totalSteps) : GoesOn e m n := by
  intro k hk
  have hsucc : k + 1 < (record engine config cancel e m).1.totalSteps := by omega
  exact ⟨exists_report_of_lt_totalSteps (Nat.lt_of_succ_lt hsucc),
    blocked_eq_false_of_lt_totalSteps hsucc⟩

/-- If it does not end blocked, it goes on to its end. -/
theorem goesOn_totalSteps {cancel : CancelSignal Emulator}
    (h : (record engine config cancel e m).1.ending ≠ .blocked) :
    GoesOn e m (record engine config cancel e m).1.totalSteps := by
  intro k hk
  refine ⟨exists_report_of_lt_totalSteps hk, ?_⟩
  rcases Nat.lt_or_eq_of_le (Nat.succ_le_of_lt hk) with hlt | heq
  · exact blocked_eq_false_of_lt_totalSteps hlt
  · rw [show k + 1 = _ from heq, ← Bool.not_eq_true]
    intro hblocked
    exact h (ending_eq_blocked_iff.mpr hblocked)

/-- The deltas of steps that are not left waiting are the same with more input. -/
theorem deltaLog_extend (scan : MemoryScan) (extra : List Word) (h : GoesOn e m n) :
    engine.deltaLog scan (e.extend extra) m n = engine.deltaLog scan e m n := by
  refine Engine.deltaLog_congr scan fun k hk => ?_
  obtain ⟨-, hmachine, hreports⟩ := after_extend extra (h.mono (Nat.succ_le_of_lt hk))
  exact ⟨hmachine, hreports k (Nat.lt_succ_self k)⟩

/-- And so is whether the run ends there, and how. -/
theorem endingAfter?_extend (cap : Nat) (flag : Nat → Bool) (extra : List Word)
    (h : GoesOn e m n) :
    engine.endingAfter? (e.extend extra) m cap (fun k _ => flag k) n
      = engine.endingAfter? e m cap (fun k _ => flag k) n := by
  obtain ⟨-, hmachine, -⟩ := after_extend extra h
  exact endingAfter?_congr cap flag hmachine

/-- **A recording that does not block** is the same with more input. -/
theorem record_extend (extra : List Word)
    (h : (record engine config (fun k _ => flag k) e m).1.ending ≠ .blocked) :
    (record engine config (fun k _ => flag k) (e.extend extra) m).1
      = (record engine config (fun k _ => flag k) e m).1 := by
  have hgoes := goesOn_totalSteps h
  set t := (record engine config (fun k _ => flag k) e m).1
  obtain ⟨hdeltas, hstart, hgoesOn, hends, -⟩ :=
    isRecording_record engine config (fun k _ => flag k) e m
  -- what was recorded is a recording of the other run, and there is only one
  have hrec : IsRecording engine config (fun k _ => flag k) (e.extend extra) m 0 t.deltas t.ending
      (engine.stateAfter (e.extend extra) m (t.deltas.length + t.ending.isFault.toNat)) := by
    refine ⟨?_, hstart, fun k hk hlt => ?_, ?_, rfl⟩
    · exact hdeltas.trans (deltaLog_extend config.scan extra hgoes).symm
    · rw [endingAfter?_extend config.stepCap flag extra (hgoes.mono (Nat.le_of_lt hlt))]
      exact hgoesOn k hk hlt
    · exact (endingAfter?_extend config.stepCap flag extra hgoes).trans hends
  rw [record_eq hrec]
  rfl

/-- A step that a recording makes, the one with more input makes too. -/
theorem lt_totalSteps_extend (extra : List Word)
    (hn : n < (record engine config (fun k _ => flag k) e m).1.totalSteps) :
    n < (record engine config (fun k _ => flag k) (e.extend extra) m).1.totalSteps := by
  set t' := (record engine config (fun k _ => flag k) (e.extend extra) m).1
  refine Nat.not_le.mp fun hle => ?_
  -- an earlier ending would be one of the other recording, too
  have hgoes := goesOn_of_lt_totalSteps (Nat.lt_of_le_of_lt hle hn)
  have hends := (isRecording_record engine config (fun k _ => flag k) (e.extend extra) m).ends
  have hgoesOn := (isRecording_record engine config (fun k _ => flag k) e m).goes_on
    t'.totalSteps (Nat.zero_le _) (Nat.lt_of_le_of_lt hle hn)
  have hnone := (endingAfter?_extend config.stepCap flag extra hgoes).trans hgoesOn
  cases hends.symm.trans hnone

/-- Up to the last step of the one, the two have the same deltas. -/
theorem take_deltas_extend (extra : List Word)
    (hn : n < (record engine config (fun k _ => flag k) e m).1.totalSteps) :
    (record engine config (fun k _ => flag k) (e.extend extra) m).1.deltas.take n
      = (record engine config (fun k _ => flag k) e m).1.deltas.take n := by
  rw [deltas_record, deltas_record,
    Engine.take_deltaLog _ _ _ _ (Nat.le_of_lt (lt_totalSteps_extend extra hn)),
    Engine.take_deltaLog _ _ _ _ (Nat.le_of_lt hn)]
  exact deltaLog_extend config.scan extra (goesOn_of_lt_totalSteps hn)

/-- **Where a recording is blocked, the one with more input goes on.**  Up to its last step the
blocked recording is the beginning of the other one, which makes the same request there and is
given the first additional word. -/
theorem exists_parting (first : Word) (rest : List Word) (hm : m.blocked = false)
    (h : (record engine config (fun k _ => flag k) e m).1.ending = .blocked) :
    let t := (record engine config (fun k _ => flag k) e m).1
    let t' := (record engine config (fun k _ => flag k) (e.extend (first :: rest)) m).1
    ∃ n, t.totalSteps = n + 1 ∧ n + 1 ≤ t'.totalSteps ∧ t'.deltas.take n = t.deltas.take n ∧
      ∃ d d' before after after' i a, t.Executes n d before after i ∧
        t'.Executes n d' before after' i ∧ i.readRequest? before = some a ∧
        before.WaitsForInput after ∧ before.ReadsWord after' a first := by
  intro t t'
  obtain ⟨n, d, i, a, hn, hexec, hrequest, hpeek, hwaits⟩ := exists_waits_of_blocked hm h
  have hlt : n < t.totalSteps := Nat.lt_of_lt_of_eq (Nat.lt_succ_self n) hn.symm
  have hlt' : n < t'.totalSteps := lt_totalSteps_extend (first :: rest) hlt
  refine ⟨n, hn, hlt', take_deltas_extend (first :: rest) hlt, ?_⟩
  obtain ⟨hstate, hmachine, -⟩ := after_extend (first :: rest) (goesOn_of_lt_totalSteps hlt)
  obtain ⟨d', i', hexec', huses, -⟩ := exists_executes_usesInput hlt'
  rw [hmachine] at hexec' huses
  obtain rfl : i = i' := hexec.eq_of_fetch? (hexec'.origin_eq ▸ hexec'.fetch_eq)
  have hfirst : (engine.stateAfter (e.extend (first :: rest)) m n).input.peek = some first := by
    rw [hstate]
    exact Input.peek_extend_of_none (first :: rest) hpeek
  refine ⟨d, d', _, _, _, i, a, hexec, hexec', hrequest, hwaits, ?_⟩
  -- the same request, but now there is a word
  cases huses with
  | nothing hnone _ _ =>
    rw [hrequest] at hnone
    cases hnone
  | waits a' _ hnone _ _ =>
    rw [hfirst] at hnone
    cases hnone
  | reads a' w hrequest' hpeek' _ hread =>
    obtain rfl := Option.some.inj (hrequest.symm.trans hrequest')
    obtain rfl := Option.some.inj (hfirst.symm.trans hpeek')
    exact hread

end Emulator

/-! ### Runs of source texts -/

/-- **More input never rewrites history**, for every source text, configuration and input, and
every cancel flag that does not look at the emulator.  Unless the run is blocked, adding input
changes nothing, not even how it fails.  If it is blocked in its last step, then the run with more
input makes all the steps before, and there the same trap at the same address, which is given the
first of the additional words. -/
theorem more_input_keeps_history (wording : SyntaxWording) (config : Config) (flag : Nat → Bool)
    (moduleName source : String) (words extra : List Word) :
    let run := fun input => (runProgram (machineTools wording) config (fun k _ => flag k)
      moduleName source (.ofInput input)).1
    ((∀ t, run words = .ok t → t.ending ≠ .blocked) → run (words ++ extra) = run words) ∧
      ∀ t first rest, run words = .ok t → t.ending = .blocked → extra = first :: rest →
        ∃ t' n, run (words ++ extra) = .ok t' ∧ t.totalSteps = n + 1 ∧ n + 1 ≤ t'.totalSteps ∧
          t'.deltas.take n = t.deltas.take n ∧
          ∃ d d' before after after' i a, t.Executes n d before after i ∧
            t'.Executes n d' before after' i ∧ d'.origin = d.origin ∧
            i.readRequest? before = some a ∧
            before.WaitsForInput after ∧ before.ReadsWord after' a first := by
  intro run
  cases hp : Program.ofSource source with
  | error issues =>
    -- the source is refused before any input is looked at
    have hrun : ∀ input, run input = .error _ := fun input =>
      congrArg Prod.fst
        (runProgram_of_ofSource_eq_error hp wording config _ moduleName (.ofInput input))
    refine ⟨fun _ => (hrun _).trans (hrun _).symm, fun t first rest ht => ?_⟩
    rw [hrun] at ht
    cases ht
  | ok p =>
    -- both runs are recordings from the same words, each with its own input
    have hrun : ∀ input, run input
        = .ok ((record Emulator.engine config (fun k _ => flag k) (.ofInput input)
            (.loaded p.words)).1.annotated (assemble wording moduleName source)) := fun input =>
      congrArg Prod.fst (runProgram_of_ofSource hp wording config _ moduleName (.ofInput input))
    constructor
    · intro hending
      have hne : ((record Emulator.engine config (fun k _ => flag k) (.ofInput words)
          (.loaded p.words)).1.annotated (assemble wording moduleName source)).ending ≠ .blocked :=
        hending _ (hrun words)
      have hsame := Emulator.record_extend (e := .ofInput words) extra hne
      rw [hrun, hrun]
      exact congrArg
        (fun t : Timeline => Except.ok (t.annotated (assemble wording moduleName source))) hsame
    · rintro t first rest ht hending rfl
      rw [hrun] at ht
      obtain rfl := Except.ok.inj ht
      obtain ⟨n, hn, hle, htake, d, d', before, after, after', i, a, hexec, hexec', hrequest,
        hwaits, hread⟩ := Emulator.exists_parting first rest
          (m := .loaded p.words) rfl hending
      refine ⟨_, n, hrun _, hn, hle, htake, d, d', before, after, after', i, a,
        hexec.annotated _, hexec'.annotated _, ?_, hrequest, hwaits, hread⟩
      rw [hexec.origin_eq, hexec'.origin_eq]

/-- Copies a word to the end of memory, and asks for the next one. -/
def copyingSource : String := "lea R1,1[R0]\ntrap R1,R2,R0\nstore R2,$ffff\ntrap R1,R3,R0"

/-- With one word the last request is blocked, and a second word is given to it.  A third one makes
no difference. -/
theorem more_input_keeps_history_copying :
    let run := fun input => (runProgram (machineTools plainWording) ⟨4, .writeSet⟩ .never "main"
      copyingSource (.ofInput input)).1
    ∃ t t' d d' before after after' i a, run [7] = .ok t ∧ t.ending = .blocked ∧
      t.totalSteps = 4 ∧ run [7, 8] = .ok t' ∧ 4 ≤ t'.totalSteps ∧
      t'.deltas.take 3 = t.deltas.take 3 ∧ t.Executes 3 d before after i ∧
      t'.Executes 3 d' before after' i ∧ d'.origin = d.origin ∧
      i.readRequest? before = some a ∧ before.WaitsForInput after ∧ before.ReadsWord after' a 8 ∧
      run [7, 8, 9] = .ok t' := by
  intro run
  have hshort : (run [7]).toOption.map (fun t => (t.ending, t.totalSteps))
      = some (.blocked, 4) := by decide +kernel
  have hlong : (run [7, 8]).toOption.map Timeline.ending = some .stepCap := by decide +kernel
  cases ht : run [7] with
  | error e =>
    rw [ht] at hshort
    cases hshort
  | ok t =>
    rw [ht] at hshort
    obtain ⟨hending, hsteps⟩ := Prod.mk.inj (Option.some.inj hshort)
    obtain ⟨-, hparts⟩ := more_input_keeps_history plainWording ⟨4, .writeSet⟩
      (fun _ => false) "main" copyingSource [7] [8]
    obtain ⟨t', n, ht', hn, hle, htake, d, d', before, after, after', i, a, hexec, hexec', horigin,
      hrequest, hwaits, hread⟩ := hparts t 8 [] ht hending rfl
    obtain rfl : n = 3 := by
      replace hsteps : t.totalSteps = 4 := hsteps
      omega
    obtain ⟨hsame, -⟩ := more_input_keeps_history plainWording ⟨4, .writeSet⟩
      (fun _ => false) "main" copyingSource [7, 8] [9]
    refine ⟨t, t', d, d', before, after, after', i, a, rfl, hending, hsteps, ht', hle, htake, hexec,
      hexec', horigin, hrequest, hwaits, hread, ?_⟩
    -- the run with two words ends at the cap, so that a third one is not missed
    refine (hsame fun t₂ ht₂ hblocked => ?_).trans ht'
    replace ht₂ : run [7, 8] = .ok t₂ := ht₂
    rw [ht₂] at hlong
    rw [show t₂.ending = .stepCap from Option.some.inj hlong] at hblocked
    cases hblocked

end Hindsight
