import Hindsight.Proofs.Emulator.Tallies
import Hindsight.Proofs.Timeline.Navigation

/-!
# What the command shows of a step

The command finds what it prints in four ways: the marks by comparing the machine with the one
before it, the memory words in the delta, the instruction executed by decoding the machine before,
and the instruction to come by decoding the machine itself.  Here the parts of a page are kept
apart from their printed form, and compared with the recording and with the page before.

## Main definitions

* `Page`, `Page.lines` — what is shown of a step, and its printed form.
* `Timeline.page` — the page of a step, with every machine replayed from the start.
* `Timeline.PagesAgree` — pages that agree with the deltas and with their neighbours.

## Main results

* `Session.report_eq` — a session prints the page of its current step.
* `Options.execute_eq` — and so does the command.
* `execute_shows_pages` — **the pages of a source that assembles agree with its recording.**
-/

namespace Hindsight

/-! ### Pages -/

/-- How a step was reached. -/
structure Arrival where
  /-- Where the instruction was executed. -/
  address : Address
  instruction : String
  line? : Option Nat
  /-- The memory words that are listed, each with its old and its new word. -/
  stores : List (Address × Word × Word)
  deriving DecidableEq

/-- What a machine is about to do. -/
inductive Outlook
  | halted
  | blocked
  /-- It executes an instruction. -/
  | next (instruction : String)
  /-- There is no instruction at its program counter. -/
  | nothing
  deriving DecidableEq

/-- What is shown of a step. -/
structure Page where
  step : Nat
  totalSteps : Nat
  /-- How the step was reached; nothing is said about step 0. -/
  arrival? : Option Arrival
  word : Reg → Word
  /-- Whether a register's cell has an asterisk. -/
  marked : Reg → Bool
  processor : Processor
  outlook : Outlook

/-- The printed form of an arrival. -/
def Arrival.lines (a : Arrival) : List String :=
  ("executed " ++ Word.hex a.address ++ ": " ++ a.instruction ++
      a.line?.elim "" fun n => " (line " ++ toString n ++ ")") ::
    a.stores.map fun (address, old, new) =>
      "  mem[" ++ Word.hex address ++ "] " ++ Word.hex old ++ " -> " ++ Word.hex new

/-- The printed form of an outlook. -/
def Outlook.lines : Outlook → List String
  | halted => ["  halted"]
  | blocked => ["  blocked on input"]
  | next instruction => ["  next: " ++ instruction]
  | nothing => []

namespace Page

/-- A register's cell. -/
def cell (p : Page) (r : Reg) : String :=
  Reg.text r ++ "".pushn ' ' (3 - (Reg.text r).length) ++ " " ++ Word.hex (p.word r) ++
    if p.marked r then "*" else " "

/-- The registers in four rows. -/
def registerLines (p : Page) : List String :=
  [[0, 1, 2, 3], [4, 5, 6, 7], [8, 9, 10, 11], [12, 13, 14, 15]].map fun row : List Reg =>
    "  " ++ "  ".intercalate (row.map p.cell)

/-- The line of scalars. -/
def processorLine (p : Page) : String :=
  "  pc " ++ Word.hex p.processor.pc ++ "  ir " ++ Word.hex p.processor.ir ++
    "  adr " ++ Word.hex p.processor.control.adr ++ "  dat " ++ Word.hex p.processor.control.dat ++
    "  status " ++ Word.hex p.processor.control.status ++ "  flags " ++ p.processor.flags.text

/-- The printed form of a page. -/
def lines (p : Page) : List String :=
  ("step " ++ toString p.step ++ " of " ++ toString p.totalSteps) ::
    (p.arrival?.elim [] Arrival.lines ++
      (p.registerLines ++ [p.processorLine] ++ p.outlook.lines))

end Page

/-! ### The page of a step -/

/-- What a machine is about to do. -/
def Machine.outlook (m : Machine) : Outlook :=
  if m.halted then .halted
  else if m.blocked then .blocked
  else
    match Instruction.fetch? m m.pc with
    | some i => .next i.text
    | none => .nothing

/-- How a step from `before` was reached. -/
def Delta.arrival (d : Delta) (before : Machine) (line? : Option Nat) : Arrival where
  address := d.origin
  instruction := d.instructionText (some before)
  line?
  stores := d.memory.entries.map fun (a, w) => (a, before.mem a, w)

/-- The page of a step: its machine is compared with the one before it, if there is one. -/
def Timeline.page (t : Timeline) (k : Nat) : Page where
  step := k
  totalSteps := t.totalSteps
  arrival? := (t.deltaInto? k).map fun d => d.arrival (t.machineAt (k - 1)) (t.sourceLine? k)
  word := (t.machineAt k).reg
  marked r := k ≠ 0 ∧ (t.machineAt (k - 1)).reg r ≠ (t.machineAt k).reg r
  processor := (t.machineAt k).toProcessor
  outlook := (t.machineAt k).outlook

theorem Machine.nextRows_eq (m : Machine) : m.nextRows = m.outlook.lines := by
  unfold nextRows outlook
  cases m.halted with
  | true => rfl
  | false =>
    cases m.blocked with
    | true => rfl
    | false => cases Instruction.fetch? m m.pc <;> rfl

theorem Delta.report_eq (d : Delta) (before : Machine) (line? : Option Nat) :
    d.report (some before) line? = (d.arrival before line?).lines := by
  rw [Arrival.lines, arrival, List.map_map]
  rfl

/-- A machine is printed as a page is whose marks are the differences from the machine before. -/
theorem Machine.report_eq {m : Machine} {previous : Option Machine} {p : Page}
    (hword : p.word = m.reg) (hprocessor : p.processor = m.toProcessor)
    (houtlook : p.outlook = m.outlook)
    (hmarked : ∀ r, p.marked r = previous.any fun b => b.reg r ≠ m.reg r) :
    m.report previous = p.registerLines ++ [p.processorLine] ++ p.outlook.lines := by
  have hcell : m.registerCell previous = p.cell := by
    funext r
    rw [Page.cell, hword, hmarked]
    rfl
  unfold report registerRows Page.processorLine
  rw [hcell, nextRows_eq, houtlook, hprocessor]
  rfl

/-! ### What is printed -/

theorem Timeline.lines_page_zero (t : Timeline) :
    (t.page 0).lines
      = ("step " ++ toString 0 ++ " of " ++ toString t.totalSteps) :: t.initial.report none := by
  have hmarked : ∀ r, (t.page 0).marked r = false := fun r => by simp [page]
  have hmachine : t.initial.report none
      = (t.page 0).registerLines ++ [(t.page 0).processorLine] ++ (t.page 0).outlook.lines :=
    Machine.report_eq (congrArg Machine.reg machineAt_zero)
      (congrArg Machine.toProcessor machineAt_zero) (congrArg Machine.outlook machineAt_zero)
      hmarked
  rw [hmachine]
  rfl

theorem Timeline.lines_page_succ {t : Timeline} {k : Nat} {d : Delta}
    (hd : t.deltaInto? (k + 1) = some d) :
    (t.page (k + 1)).lines
      = ("step " ++ toString (k + 1) ++ " of " ++ toString t.totalSteps) ::
          (d.report (some (t.machineAt k)) (t.sourceLine? (k + 1)) ++
            (t.machineAt (k + 1)).report (some (t.machineAt k))) := by
  have hmarked : ∀ r, (t.page (k + 1)).marked r
      = decide ((t.machineAt k).reg r ≠ (t.machineAt (k + 1)).reg r) := fun r => by simp [page]
  have harrival : (t.page (k + 1)).arrival?
      = some (d.arrival (t.machineAt k) (t.sourceLine? (k + 1))) := by
    rw [page, hd]
    rfl
  have hmachine : (t.machineAt (k + 1)).report (some (t.machineAt k))
      = (t.page (k + 1)).registerLines ++ [(t.page (k + 1)).processorLine]
          ++ (t.page (k + 1)).outlook.lines :=
    Machine.report_eq rfl rfl rfl hmarked
  rw [Page.lines, harrival, Delta.report_eq, hmachine]
  rfl

/-- **A session prints the page of its current step.** -/
theorem Session.report_eq {σ : Type} {s : Session σ} {c : Cursor} {t : Timeline} {k : Nat}
    (hcursor : s.cursor = some c) (hat : c.At t k) : s.report = (t.page k).lines := by
  have hstep : s.currentStep = k := by
    rw [currentStep, hcursor]
    exact hat.current_eq
  have htotal : s.totalSteps = t.totalSteps := by
    rw [totalSteps, hcursor]
    exact congrArg Timeline.totalSteps hat.timeline_eq
  have hstate : s.state.1 = some (t.machineAt k) := by
    rw [state, hcursor]
    exact congrArg some hat.state.1
  have hdelta : s.delta? = t.deltaInto? k := by
    rw [delta?, hcursor, Option.bind_some, Cursor.delta?, hat.timeline_eq, hat.current_eq]
  have hprevious : s.previousState = if k = 0 then none else (t.stateAt (k - 1)).toOption := by
    rw [previousState, hcursor, Option.bind_some, hat.previousState]
  have htimeline : s.timeline? = some t := by
    rw [timeline?, hcursor, Option.map_some, hat.timeline_eq]
  -- all that a session is asked for is now told of the timeline
  unfold report
  rw [hstep, htotal, hstate, hdelta, hprevious, htimeline]
  cases k with
  | zero =>
    rw [Timeline.lines_page_zero, Timeline.machineAt_zero]
    rfl
  | succ j =>
    have hle : j + 1 ≤ t.totalSteps := hat.le_totalSteps
    have hd : t.deltaInto? (j + 1) = some t.deltas[j] := List.getElem?_eq_getElem hle
    have hbefore : (t.stateAt j).toOption = some (t.machineAt j) := by
      rw [Timeline.stateAt_eq_ok (Nat.le_of_succ_le hle)]
      rfl
    rw [Timeline.lines_page_succ hd, hd, if_neg (Nat.succ_ne_zero j), Nat.add_sub_cancel, hbefore]
    rfl

/-- The step that the options ask for. -/
def Options.shownStep (o : Options) (t : Timeline) : Nat :=
  if o.atEnd then t.totalSteps else o.step.getD 0

/-- A new session moves to the step that the options ask for, if there is one. -/
theorem Options.position_eq {σ : Type} (o : Options) {s : Session σ} {c : Cursor} {t : Timeline}
    (hcursor : s.cursor = some c) (hat : c.At t 0) (hstep : o.shownStep t ≤ t.totalSteps) :
    o.position s = (.ok (), { s with cursor := some { c with current := o.shownStep t } }) := by
  have htotal : c.totalSteps = t.totalSteps := congrArg Timeline.totalSteps hat.timeline_eq
  unfold shownStep at hstep ⊢
  unfold position
  cases hend : o.atEnd with
  | true =>
    rw [if_pos rfl, if_pos rfl, Session.toEnd, hcursor, Option.map_some, Cursor.toEnd, htotal]
  | false =>
    rw [hend, if_neg (by decide)] at hstep
    rw [if_neg (by decide), if_neg (by decide)]
    cases ho : o.step with
    | none =>
      -- without a step the session stays where it is, which is the start
      obtain ⟨engine, config, moduleName, cursor⟩ := s
      obtain rfl : cursor = some c := hcursor
      rw [Option.getD_none, ← hat.current_eq]
    | some step =>
      rw [ho, Option.getD_some, ← htotal] at hstep
      show s.goTo step = _
      unfold Session.goTo
      rw [hcursor]
      dsimp only
      rw [Cursor.goTo, if_pos hstep, Option.getD_some]

/-- The lines behind the page: how the run ended, and the tally of its opcodes. -/
def Timeline.closingLines (t : Timeline) (tally : Tally) : List String :=
  (t.ending.text ++ " (" ++ toString t.totalSteps ++ " steps)") :: tally.rows

/-- **The command prints the page of the step that its options ask for**, if there is one. -/
theorem Options.execute_eq {wording : SyntaxWording} {o : Options} {source : String} {t : Timeline}
    {e : Emulator}
    (hrun : runProgram (machineTools wording) o.config .never (moduleNameOf o.file) source
      (.ofInput o.input) = (.ok t, e))
    (hstep : o.shownStep t ≤ t.totalSteps) :
    o.execute wording source
      = ⟨0, (t.page (o.shownStep t)).lines ++ t.closingLines e.tally, []⟩ := by
  have hat := (Cursor.at_start t).move hstep
  unfold execute
  simp only [Session.run, hrun]
  rw [o.position_eq rfl (Cursor.at_start t) hstep]
  dsimp only
  rw [Session.report_eq rfl hat]
  rfl

/-! ### Agreement -/

/-- The pages of a timeline agree with its deltas and with their neighbours. -/
structure Timeline.PagesAgree (t : Timeline) : Prop where
  /-- A page shows the machine at its step. -/
  shows_machine : ∀ k ≤ t.totalSteps, ∃ m, t.stateAt k = .ok m ∧ (t.page k).step = k ∧
    (t.page k).word = m.reg ∧ (t.page k).processor = m.toProcessor
  /-- At the start nothing is marked, and nothing led there. -/
  at_start : (∀ r, (t.page 0).marked r = false) ∧ (t.page 0).arrival? = none
  /-- Behind it, the marks are the delta's registers.  The memory words listed are the delta's, in
  ascending order and each with two different words, those of the machines before and after.  The
  instruction executed is the one that the page before was about to execute, and its address is
  the program counter shown there. -/
  at_succ : ∀ k < t.totalSteps, ∃ d before after i, t.Executes k d before after i ∧
    (∀ r, (t.page (k + 1)).marked r = true ↔ r ∈ d.registers.keys) ∧
    (t.page (k + 1)).arrival? = some {
      address := (t.page k).processor.pc
      instruction := i.text
      line? := t.sourceLine? (k + 1)
      stores := d.memory.keys.map fun a => (a, before.mem a, after.mem a) } ∧
    d.memory.keys.Pairwise (· < ·) ∧ (∀ a ∈ d.memory.keys, before.mem a ≠ after.mem a) ∧
    (t.page k).outlook = .next i.text

/-- A machine that goes on is about to execute the instruction at its program counter. -/
theorem Machine.outlook_of_fetch? {m : Machine} {i : Instruction}
    (hhalt : Emulator.isHalted m = false) (hfetch : Instruction.fetch? m m.pc = some i) :
    m.outlook = .next i.text := by
  obtain ⟨hhalted, hblocked⟩ := Bool.or_eq_false_iff.mp hhalt
  unfold outlook
  rw [hhalted, hblocked, hfetch]
  rfl

/-- The memory words that a difference lists have their old and their new words. -/
theorem Delta.IsDifference.stores_arrival {d : Delta} {before after : Machine}
    (h : d.IsDifference before after) (line? : Option Nat) :
    (d.arrival before line?).stores
      = d.memory.keys.map fun a => (a, before.mem a, after.mem a) := by
  rw [Delta.arrival, SortedMap.keys, List.map_map]
  refine List.map_congr_left fun e he => ?_
  show (e.1, before.mem e.1, e.2) = (e.1, before.mem e.1, after.mem e.1)
  rw [h.word_eq e he]

/-- What a decoded step says about how it was reached. -/
theorem Timeline.Executes.arrival_eq {t : Timeline} {k : Nat} {d : Delta}
    {before after : Machine} {i : Instruction} (h : t.Executes k d before after i)
    (hdiff : d.IsDifference before after) (line? : Option Nat) :
    d.arrival before line? = {
      address := before.pc
      instruction := i.text
      line?
      stores := d.memory.keys.map fun a => (a, before.mem a, after.mem a) } := by
  rw [← hdiff.stores_arrival line?, ← h.instructionText_eq, ← h.origin_eq]
  rfl

/-- **Pages agree** if the deltas are differences and every step is decoded, from a machine that
had not stopped. -/
theorem Timeline.IsMinimal.pagesAgree {t : Timeline} (h : t.IsMinimal)
    (hexec : ∀ k < t.totalSteps, ∃ d before after i, t.Executes k d before after i ∧
      Emulator.isHalted before = false) : t.PagesAgree where
  shows_machine k hk := ⟨t.machineAt k, stateAt_eq_ok hk, rfl, rfl, rfl⟩
  at_start := ⟨fun r => by simp [page], rfl⟩
  at_succ k hk := by
    obtain ⟨d, before, after, i, hstep, hhalt⟩ := hexec k hk
    obtain ⟨d', before', after', hd, hbefore, hafter, hdiff⟩ := h.isDifference k hk
    -- the difference and the decoded step are told of the same delta and the same machines
    obtain rfl : d' = d := Option.some.inj (hd.symm.trans hstep.delta_eq)
    obtain rfl : before' = before := Except.ok.inj (hbefore.symm.trans hstep.before_eq)
    obtain rfl : after' = after := Except.ok.inj (hafter.symm.trans hstep.after_eq)
    have hmachine : t.machineAt k = before' := machineAt_eq_of_stateAt hbefore
    have hmachine' : t.machineAt (k + 1) = after' := machineAt_eq_of_stateAt hafter
    refine ⟨d', before', after', i, hstep, fun r => ?_, ?_, ?_, fun a ha => ?_, ?_⟩
    · rw [hdiff.mem_registers, ← hmachine, ← hmachine']
      simp [page]
    · show (t.deltaInto? (k + 1)).map _ = _
      rw [hstep.delta_eq, Option.map_some, Nat.add_sub_cancel, hmachine, hstep.arrival_eq hdiff]
      rw [← hmachine]
      rfl
    · exact List.pairwise_map.mpr d'.memory.ascending
    · exact (hdiff.mem_memory a).mp ha
    · show (t.machineAt k).outlook = _
      rw [hmachine]
      exact Machine.outlook_of_fetch? hhalt (hstep.origin_eq ▸ hstep.fetch_eq)

theorem Emulator.pagesAgree_record (config : Config) (cancel : CancelSignal Emulator)
    (e : Emulator) (m : Machine) (output : AssemblyOutput) :
    ((record engine config cancel e m).1.annotated output).PagesAgree := by
  refine ((isMinimal_record engine config cancel e m).annotated output).pagesAgree fun k hk => ?_
  replace hk : k < (record engine config cancel e m).1.totalSteps := hk
  obtain ⟨d, i, hexec⟩ := exists_executes hk
  exact ⟨d, _, _, i, hexec.annotated output, isHalted_eq_false_of_lt_totalSteps hk⟩

/-- **What the command shows of a step agrees with the recording and with the pages around it.**
A source that assembles has, for every input, cap and scan, one timeline, whatever its file is
called.  Its pages agree with its deltas and with their neighbours, and every command line with
that input, cap and scan that asks for a step of it prints the page of that step. -/
theorem execute_shows_pages {source : String} {p : Program} (h : Program.ofSource source = .ok p)
    (input : List Word) (config : Config) :
    ∃ t e, (∀ wording moduleName,
        runProgram (machineTools wording) config .never moduleName source (.ofInput input)
          = (.ok t, e)) ∧
      t.PagesAgree ∧
      ∀ (wording : SyntaxWording) (o : Options),
        o.input = input → o.config = config → o.shownStep t ≤ t.totalSteps →
          o.execute wording source
            = ⟨0, (t.page (o.shownStep t)).lines ++ t.closingLines e.tally, []⟩ := by
  have hrun : ∀ wording moduleName,
      runProgram (machineTools wording) config .never moduleName source (.ofInput input)
        = (.ok ((record Emulator.engine config .never (Emulator.ofInput input).rewind
              (.loaded p.words)).1.annotated { objectCode := p.words, lineMap := p.lineMap }),
            (record Emulator.engine config .never (Emulator.ofInput input).rewind
              (.loaded p.words)).2) := by
    intro wording moduleName
    rw [runProgram_of_ofSource h, Program.assemble_of_ofSource h]
  refine ⟨_, _, hrun, Emulator.pagesAgree_record config .never _ _ _, ?_⟩
  rintro wording o rfl rfl hstep
  exact Options.execute_eq (hrun wording _) hstep

/-- The second instruction overwrites its own first word. -/
def overwritingSource : String := "lea R1,7[R0]\nstore R1,2[R0]"

/-- A command line that asks for the second of three steps. -/
def secondStep : Options :=
  { file := "overwriting.asm", stepCap := 3, step := some 2, atEnd := false, input := [],
    fullScan := false }

/-- The instruction that is gone by then is still shown, and the page before was about to execute
it; nothing is marked that was set a step earlier. -/
theorem execute_shows_pages_overwriting :
    ∃ p t tail, Program.ofSource overwritingSource = .ok p ∧
      (runProgram (machineTools plainWording) secondStep.config .never "overwriting"
        overwritingSource (.ofInput [])).1 = .ok t ∧
      secondStep.shownStep t = 2 ∧ 2 ≤ t.totalSteps ∧ t.PagesAgree ∧
      secondStep.execute plainWording overwritingSource = ⟨0, (t.page 2).lines ++ tail, []⟩ ∧
      (t.page 2).lines.take 4 = [
        "step 2 of 3",
        "executed 0002: store R1,$0002[R0] (line 2)",
        "  mem[0002] f102 -> 0007",
        "  R0  0000   R1  0007   R2  0000   R3  0000 "] ∧
      (t.page 1).outlook = .next "store R1,$0002[R0]" := by
  obtain ⟨p, hp⟩ : ∃ p, Program.ofSource overwritingSource = .ok p :=
    exists_eq_ok_of_isSome (by decide +kernel)
  have hresult : (runProgram (machineTools plainWording) secondStep.config .never "overwriting"
      overwritingSource (.ofInput [])).1.toOption.map (fun t =>
        (t.totalSteps, (t.page 2).lines.take 4, (t.page 1).outlook))
      = some (3, [
        "step 2 of 3",
        "executed 0002: store R1,$0002[R0] (line 2)",
        "  mem[0002] f102 -> 0007",
        "  R0  0000   R1  0007   R2  0000   R3  0000 "], .next "store R1,$0002[R0]") := by
    decide +kernel
  obtain ⟨t, e, hrun, hpages, hexecute⟩ := execute_shows_pages hp [] secondStep.config
  rw [hrun] at hresult
  have hseen := Option.some.inj hresult
  simp only [Prod.mk.injEq] at hseen
  obtain ⟨hsteps, hlines, houtlook⟩ := hseen
  have htwo : 2 ≤ t.totalSteps := by omega
  exact ⟨p, t, t.closingLines e.tally, hp, congrArg Prod.fst (hrun _ _), rfl, htwo, hpages,
    hexecute _ secondStep rfl rfl htwo, hlines, houtlook⟩

end Hindsight
