import Hindsight.Proofs.Assembly.TwoPasses
import Mathlib.Data.List.Sort

/-!
# Diagnostics

A source that does not assemble is diagnosed at one of three stages: lines that do not read,
labels and words that have no place, or labels that are used and never defined.  Each stage goes
over all lines before it gives up, so what is reported is nothing less than all faults of the
first stage that finds any, one for each faulty line, in line order.  Faults are said here of the
lines alone, and not of a pass that finds them.

## Main definitions

* `ListsFaults` — errors that are the faults of the lines, one after the other.
* `MisreadAt`, `Misplaced`, `Unresolved` — what can be wrong with a line at each of the stages.
* `Diagnosis` — the errors that a source has to be reported with.
* `AssemblyOutput.Diagnoses` — an output that reports them.

## Main results

* `listsFaults_readIssues`, `listsFaults_layoutIssues`, `listsFaults_linkIssues` — each pass keeps
  the faults of the lines.
* `diagnosis_iff` — a source has one diagnosis.
* `assemble_diagnoses` — **the assembler reports all faults, and nothing else.**
-/

namespace Hindsight

/-! ### Faults in line order -/

/-- The errors are the faults of the lines.  A line is known by its index here, and in an error by
its number, which is one more. -/
structure ListsFaults (fault : Nat → SourceError → Prop) (issues : List Issue) : Prop where
  /-- Errors come in line order, and none is the second one of its line. -/
  ascending : issues.Pairwise (·.line < ·.line)
  /-- No fault is missed, and none is made up. -/
  mem_iff : ∀ issue, issue ∈ issues ↔ ∃ i, issue.line = i + 1 ∧ fault i issue.error

section ListsFaults

variable {fault : Nat → SourceError → Prop} {issues issues' : List Issue}

/-- There is one list of the same faults. -/
theorem ListsFaults.unique (h : ListsFaults fault issues) (h' : ListsFaults fault issues') :
    issues = issues' := by
  have hirrefl : Std.Irrefl fun a b : Issue => a.line < b.line := ⟨fun a => Nat.lt_irrefl a.line⟩
  have hantisymm : Std.Antisymm fun a b : Issue => a.line < b.line :=
    ⟨fun a b hab hba => absurd hab (Nat.lt_asymm hba)⟩
  refine h.ascending.eq_of_mem_iff h'.ascending fun issue => ?_
  rw [h.mem_iff, h'.mem_iff]

/-- The list is empty if no line has a fault. -/
theorem ListsFaults.eq_nil_iff (h : ListsFaults fault issues) :
    issues = [] ↔ ∀ i error, ¬ fault i error := by
  rw [List.eq_nil_iff_forall_not_mem]
  constructor
  · intro hnone i error hfault
    exact hnone ⟨i + 1, error⟩ ((h.mem_iff _).mpr ⟨i, rfl, hfault⟩)
  · intro hnone issue hissue
    obtain ⟨i, -, hfault⟩ := (h.mem_iff issue).mp hissue
    exact hnone i issue.error hfault

/-- A pass that goes from line to line lists the faults if it keeps, of each faulty line, the fault
with the number of the line. -/
theorem listsFaults_filterMap {α : Type} {l : List α} {f : α → Option Issue}
    (h : ∀ i issue, l[i]?.bind f = some issue ↔ issue.line = i + 1 ∧ fault i issue.error) :
    ListsFaults fault (l.filterMap f) := by
  have hget : ∀ i (hi : i < l.length), l[i]?.bind f = f l[i] := by
    intro i hi
    rw [List.getElem?_eq_getElem hi, Option.bind_some]
  constructor
  · -- the order is that of the lines, and no line is there twice
    refine List.pairwise_filterMap.mpr (List.pairwise_iff_getElem.mpr ?_)
    intro i j hi hj hij a ha b hb
    have hline : a.line = i + 1 := ((h i a).mp ((hget i hi).trans ha)).1
    have hline' : b.line = j + 1 := ((h j b).mp ((hget j hj).trans hb)).1
    omega
  · intro issue
    rw [List.mem_filterMap]
    constructor
    · rintro ⟨x, hx, hissue⟩
      obtain ⟨i, hi, rfl⟩ := List.getElem_of_mem hx
      exact ⟨i, (h i issue).mp ((hget i hi).trans hissue)⟩
    · rintro ⟨i, hfault⟩
      obtain ⟨x, hx, hissue⟩ := Option.bind_eq_some_iff.mp ((h i issue).mpr hfault)
      exact ⟨x, List.mem_of_getElem? hx, hissue⟩

/-- A check of numbered lines lists what it finds wrong with them. -/
theorem listsFaults_failures {α β : Type} {l : List α} {line : α → Nat}
    {check : α → Except SourceError β} (hline : ∀ i a, l[i]? = some a → line a = i + 1)
    (hfault : ∀ i error, (∃ a, l[i]? = some a ∧ check a = .error error) ↔ fault i error) :
    ListsFaults fault (failures (l.map fun a => (line a, check a))) := by
  rw [failures, List.filterMap_map]
  refine listsFaults_filterMap fun i issue => ?_
  rw [Option.bind_eq_some_iff, ← hfault]
  constructor
  · rintro ⟨a, ha, hissue⟩
    cases hcheck : check a with
    | ok b =>
      simp only [Function.comp_apply, hcheck] at hissue
      cases hissue
    | error error =>
      simp only [Function.comp_apply, hcheck] at hissue
      cases hissue
      exact ⟨hline i a ha, a, ha, hcheck⟩
  · rintro ⟨hi, a, ha, hcheck⟩
    refine ⟨a, ha, ?_⟩
    simp only [Function.comp_apply, hcheck, hline i a ha, ← hi]

end ListsFaults

/-! ### Lines that do not read -/

/-- What is wrong with the text of a line: it does not have the form of a line, or its command is
none of the machine's. -/
inductive Misread (text : List Char) : SourceError → Prop
  /-- The line does not parse. -/
  | unparsed {error : SourceError} (h : SourceLine.parse text = .error error) :
    Misread text error
  /-- The line parses, but its command does not convert to a statement. -/
  | unconverted {s : SourceLine} {command : Command} {error : SourceError}
    (hparse : SourceLine.parse text = .ok s) (hcommand : s.command = some command)
    (h : Statement.ofCommand command = .error error) : Misread text error

/-- What is wrong with the text of a line of the source. -/
def MisreadAt (source : String) (i : Nat) (error : SourceError) : Prop :=
  ∃ text, (textLines source.toList)[i]? = some text ∧ Misread text error

/-- Only a command can be without a meaning. -/
theorem Item.ofSourceLine_eq_error_iff {line : Nat} {s : SourceLine} {error : SourceError} :
    Item.ofSourceLine line s = .error error ↔
      ∃ command, s.command = some command ∧ Statement.ofCommand command = .error error := by
  unfold Item.ofSourceLine
  cases s.command with
  | none =>
    constructor
    · intro h
      cases h
    · rintro ⟨_, h, -⟩
      cases h
  | some command =>
    constructor
    · intro h
      rcases bind_eq_error_iff.mp h with h | ⟨statement, -, h⟩
      · exact ⟨command, rfl, h⟩
      · cases h
    · rintro ⟨_, heq, h⟩
      cases heq
      exact bind_eq_error_iff.mpr (.inl h)

theorem Item.parse_eq_error_iff {line : Nat} {text : List Char} {error : SourceError} :
    Item.parse line text = .error error ↔ Misread text error := by
  unfold Item.parse
  rw [bind_eq_error_iff]
  simp only [Item.ofSourceLine_eq_error_iff]
  constructor
  · rintro (h | ⟨s, hparse, command, hcommand, h⟩)
    · exact .unparsed h
    · exact .unconverted hparse hcommand h
  · rintro (h | ⟨hparse, hcommand, h⟩)
    · exact .inl h
    · exact .inr ⟨_, hparse, _, hcommand, h⟩

/-- The errors of reading. -/
def readIssues (source : String) : List Issue :=
  failures (((textLines source.toList).zipIdx 1).map fun e => (e.2, Item.parse e.2 e.1))

/-- **Reading keeps what is wrong with each line.** -/
theorem listsFaults_readIssues (source : String) :
    ListsFaults (MisreadAt source) (readIssues source) := by
  -- the numbered lines, which are counted from 1
  have hget : ∀ (i : Nat) (e : List Char × Nat),
      ((textLines source.toList).zipIdx 1)[i]? = some e ↔
        (textLines source.toList)[i]? = some e.1 ∧ e.2 = i + 1 := by
    rintro i ⟨text, line⟩
    rw [List.getElem?_zipIdx, Option.map_eq_some_iff, Nat.add_comm 1 i]
    constructor
    · rintro ⟨_, htext, heq⟩
      cases heq
      exact ⟨htext, rfl⟩
    · rintro ⟨htext, rfl⟩
      exact ⟨text, htext, rfl⟩
  refine listsFaults_failures (fun i e he => ((hget i e).mp he).2) fun i error => ?_
  simp only [hget, Item.parse_eq_error_iff]
  constructor
  · rintro ⟨e, ⟨htext, -⟩, hmisread⟩
    exact ⟨e.1, htext, hmisread⟩
  · rintro ⟨text, htext, hmisread⟩
    exact ⟨(text, i + 1), ⟨htext, rfl⟩, hmisread⟩

theorem readItems_eq_error_iff {source : String} {issues : List Issue} :
    readItems source = .error issues ↔ readIssues source = issues ∧ issues ≠ [] :=
  gather_eq_error_iff

/-- Lines read unless there is something wrong with one of them. -/
theorem exists_reads_of_readIssues_eq_nil {source : String} (h : readIssues source = []) :
    ∃ items, Reads source items := by
  cases hread : readItems source with
  | ok items => exact ⟨items, readItems_eq_ok_iff.mp hread⟩
  | error issues =>
    obtain ⟨hissues, hne⟩ := readItems_eq_error_iff.mp hread
    exact absurd (hissues.symm.trans h) hne

variable {source : String} {items : List Item}

/-! ### Lines without a place -/

/-- What is wrong with the place of a line, as far as the lines in front of it tell. -/
inductive Misplaced (items : List Item) : Nat → SourceError → Prop
  /-- The line defines a label behind the end of memory.  The error names its address, and nothing
  is said about other definitions of the label. -/
  | behind {i : Nat} {item : Item} {name : String} (hitem : items[i]? = some item)
    (hlabel : item.label = some name) (hbehind : memorySize ≤ addressOf items i) :
    Misplaced items i (.programTooLarge (addressOf items i))
  /-- The line defines a label that an earlier one defines already. -/
  | again {i j : Nat} {item earlier : Item} {name : String} (hitem : items[i]? = some item)
    (hlabel : item.label = some name) (hplace : addressOf items i < memorySize)
    (hearlier : items[j]? = some earlier) (hj : j < i) (hagain : earlier.label = some name) :
    Misplaced items i (.duplicateLabel name)

theorem Misplaced.exists_item {i : Nat} {error : SourceError} (h : Misplaced items i error) :
    ∃ item, items[i]? = some item := by
  cases h with
  | behind hitem => exact ⟨_, hitem⟩
  | again hitem => exact ⟨_, hitem⟩

/-- The error of a program that is longer than memory, which is about no line. -/
def overflow (items : List Item) : List Issue :=
  if memorySize < totalSize items then [⟨0, .programTooLarge (totalSize items)⟩] else []

/-- A label is known at line `i` if an earlier line defines it. -/
theorem mem_labelDefs_take_iff {name : String} {i : Nat} :
    name ∈ labelDefs (items.take i) ↔
      ∃ (j : Nat) (item : Item), items[j]? = some item ∧ j < i ∧ item.label = some name := by
  rw [labelDefs, List.mem_filterMap]
  constructor
  · rintro ⟨item, hmem, hlabel⟩
    obtain ⟨j, hj⟩ := List.mem_iff_getElem?.mp hmem
    rw [List.getElem?_take] at hj
    split at hj
    · next hlt => exact ⟨j, item, hj, hlt, hlabel⟩
    · cases hj
  · rintro ⟨j, item, hitem, hlt, hlabel⟩
    refine ⟨item, List.mem_of_getElem? (i := j) ?_, hlabel⟩
    rw [List.getElem?_take_of_lt hlt, hitem]

/-- The first pass looks at a line and the lines in front of it. -/
theorem issueOf_take_eq_some_iff {i : Nat} {item : Item} (hitem : items[i]? = some item)
    {issue : Issue} :
    issueOf (items.take i) item = some issue ↔
      issue.line = item.line ∧ Misplaced items i issue.error := by
  have haddr : totalSize (items.take i) = addressOf items i := rfl
  rw [issueOf, haddr]
  -- the two constructors are the two errors of `issueOf`, in the order of its tests
  constructor
  · intro h
    obtain ⟨name, hlabel, hissue⟩ := Option.bind_eq_some_iff.mp h
    split at hissue
    · next hbehind =>
      cases hissue
      exact ⟨rfl, .behind hitem hlabel hbehind⟩
    · next hplace =>
      split at hissue
      · next hmem =>
        cases hissue
        obtain ⟨j, earlier, hearlier, hj, hagain⟩ := mem_labelDefs_take_iff.mp hmem
        exact ⟨rfl, .again hitem hlabel (Nat.not_le.mp hplace) hearlier hj hagain⟩
      · cases hissue
  · obtain ⟨line, error⟩ := issue
    rintro ⟨rfl, hfault⟩
    cases hfault with
    | behind hitem' hlabel hbehind =>
      obtain rfl := Option.some.inj (hitem.symm.trans hitem')
      rw [hlabel, Option.bind_some, if_pos hbehind]
    | again hitem' hlabel hplace hearlier hj hagain =>
      obtain rfl := Option.some.inj (hitem.symm.trans hitem')
      have hmem := mem_labelDefs_take_iff.mpr ⟨_, _, hearlier, hj, hagain⟩
      rw [hlabel, Option.bind_some, if_neg (Nat.not_le.mpr hplace), if_pos hmem]

/-- **The first pass keeps what is wrong with each line.** -/
theorem listsFaults_layoutIssues (hreads : Reads source items) :
    ListsFaults (Misplaced items) (layoutIssues items) := by
  refine listsFaults_filterMap fun i issue => ?_
  rw [Option.bind_eq_some_iff]
  constructor
  · rintro ⟨j, hj, hissue⟩
    -- the list of the positions has each of them in its own place
    obtain rfl : j = i := by
      rw [List.getElem?_eq_some_iff] at hj
      obtain ⟨_, hj⟩ := hj
      rw [List.getElem_range] at hj
      exact hj.symm
    obtain ⟨item, hitem, hissue⟩ := Option.bind_eq_some_iff.mp hissue
    rw [← hreads.line_eq hitem]
    exact (issueOf_take_eq_some_iff hitem).mp hissue
  · rintro ⟨hline, hfault⟩
    obtain ⟨item, hitem⟩ := hfault.exists_item
    have hi : i < items.length := (List.getElem?_eq_some_iff.mp hitem).1
    refine ⟨i, List.getElem?_range hi, ?_⟩
    rw [hitem, Option.bind_some, issueOf_take_eq_some_iff hitem, hreads.line_eq hitem]
    exact ⟨hline, hfault⟩

theorem overflow_eq_nil_iff : overflow items = [] ↔ totalSize items ≤ memorySize := by
  rw [← Nat.not_lt, overflow]
  by_cases h : memorySize < totalSize items
  · rw [if_pos h]
    exact ⟨fun hnil => absurd hnil (List.cons_ne_nil _ _), fun hfits => absurd h hfits⟩
  · rw [if_neg h]
    exact ⟨fun _ => h, fun _ => rfl⟩

theorem issues_ofItems_eq_empty_iff_nil :
    (Layout.ofItems items).issues = #[] ↔ layoutIssues items ++ overflow items = [] := by
  rw [← Array.toList_eq_nil_iff, Layout.issues_ofItems, overflow]

/-- The first pass finds no errors if no line is misplaced and all words fit. -/
theorem issues_ofItems_eq_empty_iff_placed (hreads : Reads source items) :
    (Layout.ofItems items).issues = #[] ↔
      (∀ i error, ¬ Misplaced items i error) ∧ totalSize items ≤ memorySize := by
  rw [issues_ofItems_eq_empty_iff_nil, List.append_eq_nil_iff,
    (listsFaults_layoutIssues hreads).eq_nil_iff, overflow_eq_nil_iff]

/-! ### Labels without a definition -/

/-- What is wrong with the labels that a line uses: one of them is not defined.  The error is
about the first such label. -/
inductive Unresolved (items : List Item) : Nat → SourceError → Prop
  | undefined {i : Nat} {item : Item} {before rest : List String} {name : String}
    (hitem : items[i]? = some item) (hrefs : item.references = before ++ name :: rest)
    (hbefore : ∀ other ∈ before, other ∈ labelDefs items) (hname : name ∉ labelDefs items) :
    Unresolved items i (.undefinedLabel name)

/-- The errors of emission. -/
def linkIssues (items : List Item) : List Issue :=
  failures (items.map fun item =>
    (item.line, Program.emit (Layout.ofItems items).labels item))

/-- **The second pass keeps what is wrong with each line.** -/
theorem listsFaults_linkIssues (hreads : Reads source items)
    (hissues : (Layout.ofItems items).issues = #[]) :
    ListsFaults (Unresolved items) (linkIssues items) := by
  obtain ⟨hnodup, hplaced, -⟩ := issues_ofItems_eq_empty_iff.mp hissues
  -- the first pass has given an address to all labels that are defined, and to no others
  have hdefined : ∀ name, ((Layout.ofItems items).labels[name]?).isSome ↔ name ∈ labelDefs items :=
    fun _ => isSome_labels_ofItems_iff hnodup hplaced
  refine listsFaults_failures (fun i item hitem => hreads.line_eq hitem) fun i error => ?_
  simp only [Program.emit_eq_error_iff, hdefined]
  constructor
  · rintro ⟨item, hitem, before, name, rest, hrefs, ⟨hname, rfl⟩, hbefore⟩
    exact .undefined hitem hrefs hbefore hname
  · rintro ⟨hitem, hrefs, hbefore, hname⟩
    exact ⟨_, hitem, _, _, _, hrefs, ⟨hname, rfl⟩, hbefore⟩

/-! ### The three stages -/

/-- The errors that a source has to be reported with: all faults of the first stage that finds
any. -/
inductive Diagnosis (source : String) : List Issue → Prop
  /-- Some lines do not read. -/
  | reading {issues : List Issue} (hfaults : ListsFaults (MisreadAt source) issues)
    (hne : issues ≠ []) : Diagnosis source issues
  /-- All lines read, and some have no place.  A program that is longer than memory is one more
  error, behind those of its lines. -/
  | layout {items : List Item} {issues : List Issue} (hreads : Reads source items)
    (hfaults : ListsFaults (Misplaced items) issues) (hne : issues ++ overflow items ≠ []) :
    Diagnosis source (issues ++ overflow items)
  /-- All lines read and have a place.  Some of them, or none, use labels that are not defined. -/
  | linking {items : List Item} {issues : List Issue} (hreads : Reads source items)
    (hplaced : ∀ i error, ¬ Misplaced items i error) (hfits : totalSize items ≤ memorySize)
    (hfaults : ListsFaults (Unresolved items) issues) : Diagnosis source issues

/-- The errors that the assembler finds. -/
def sourceIssues (source : String) : List Issue := errorsOf (Program.ofSource source)

/-- Lines that do not read stop the assembler. -/
theorem sourceIssues_of_readIssues (h : readIssues source ≠ []) :
    sourceIssues source = readIssues source := by
  have hread : readItems source = .error (readIssues source) :=
    readItems_eq_error_iff.mpr ⟨rfl, h⟩
  rw [sourceIssues, Program.ofSource, hread]
  rfl

/-- Lines that read go through both passes, unless the first one finds errors. -/
theorem ofSource_of_reads (hreads : Reads source items) :
    Program.ofSource source
      = if (Layout.ofItems items).issues.isEmpty then
          gather (items.map fun item =>
              (item.line, Program.emit (Layout.ofItems items).labels item)) >>= fun emitted =>
            pure (Program.ofEmitted (Layout.ofItems items).labels emitted.flatten)
        else .error (Layout.ofItems items).issues.toList := by
  rw [Program.ofSource, readItems_eq_ok_iff.mpr hreads]
  rfl

/-- Errors of the first pass stop the assembler; otherwise the errors are those of the second. -/
theorem sourceIssues_of_reads (hreads : Reads source items) :
    sourceIssues source
      = if (Layout.ofItems items).issues.isEmpty then linkIssues items
        else (Layout.ofItems items).issues.toList := by
  rw [sourceIssues, ofSource_of_reads hreads]
  split
  · rw [errorsOf_bind_pure, errorsOf_gather, linkIssues]
  · rfl

theorem sourceIssues_of_layout (hreads : Reads source items)
    (h : layoutIssues items ++ overflow items ≠ []) :
    sourceIssues source = layoutIssues items ++ overflow items := by
  have hempty : ¬ (Layout.ofItems items).issues.isEmpty := fun hempty =>
    h (issues_ofItems_eq_empty_iff_nil.mp (Array.isEmpty_iff.mp hempty))
  rw [sourceIssues_of_reads hreads, if_neg hempty]
  exact Layout.issues_ofItems items

theorem sourceIssues_of_link (hreads : Reads source items)
    (h : (Layout.ofItems items).issues = #[]) : sourceIssues source = linkIssues items := by
  rw [sourceIssues_of_reads hreads, if_pos (Array.isEmpty_iff.mpr h)]

/-- **A source has one diagnosis**: the errors that the assembler finds. -/
theorem diagnosis_iff (source : String) (issues : List Issue) :
    Diagnosis source issues ↔ issues = sourceIssues source := by
  constructor
  · intro h
    cases h with
    | reading hfaults hne =>
      obtain rfl := hfaults.unique (listsFaults_readIssues source)
      exact (sourceIssues_of_readIssues hne).symm
    | layout hreads hfaults hne =>
      obtain rfl := hfaults.unique (listsFaults_layoutIssues hreads)
      exact (sourceIssues_of_layout hreads hne).symm
    | linking hreads hplaced hfits hfaults =>
      have hissues := (issues_ofItems_eq_empty_iff_placed hreads).mpr ⟨hplaced, hfits⟩
      obtain rfl := hfaults.unique (listsFaults_linkIssues hreads hissues)
      exact (sourceIssues_of_link hreads hissues).symm
  · rintro rfl
    -- the stages in their order: the first one with a fault gives the diagnosis
    by_cases hread : readIssues source = []
    · obtain ⟨items, hreads⟩ := exists_reads_of_readIssues_eq_nil hread
      by_cases hissues : (Layout.ofItems items).issues = #[]
      · obtain ⟨hplaced, hfits⟩ := (issues_ofItems_eq_empty_iff_placed hreads).mp hissues
        rw [sourceIssues_of_link hreads hissues]
        exact .linking hreads hplaced hfits (listsFaults_linkIssues hreads hissues)
      · have hne : layoutIssues items ++ overflow items ≠ [] :=
          mt issues_ofItems_eq_empty_iff_nil.mpr hissues
        rw [sourceIssues_of_layout hreads hne]
        exact .layout hreads (listsFaults_layoutIssues hreads) hne
    · rw [sourceIssues_of_readIssues hread]
      exact .reading (listsFaults_readIssues source) hread

/-- What an assembler says about a source. -/
structure AssemblyOutput.Diagnoses (output : AssemblyOutput) (wording : SyntaxWording)
    (source : String) : Prop where
  /-- Every error has a message. -/
  errorCount_eq : output.errorCount = output.diagnostics.length
  /-- With errors there is no program. -/
  empty_of_pos : 0 < output.errorCount → output.objectCode = [] ∧ output.lineMap = ∅
  /-- The messages are those of the errors that the source has to be reported with. -/
  exists_diagnosis : ∃ issues, (∀ other, Diagnosis source other ↔ other = issues) ∧
    output.diagnostics = issues.map (Issue.diagnostic wording)
  /-- Nothing is said about a source that assembles, and about no other one. -/
  nil_iff : output.diagnostics = [] ↔ ∃ p, Program.ofSource source = .ok p ∧
    output.objectCode = p.words ∧ output.lineMap = p.lineMap

/-- A source that does not assemble has an error. -/
theorem ne_nil_of_ofSource_eq_error {issues : List Issue}
    (h : Program.ofSource source = .error issues) : issues ≠ [] := by
  rcases bind_eq_error_iff.mp h with hread | ⟨items, hread, -⟩
  · -- a line that does not read
    exact (readItems_eq_error_iff.mp hread).2
  · rw [ofSource_of_reads (readItems_eq_ok_iff.mp hread)] at h
    split at h
    · -- a label without a definition, found by the second pass
      rcases bind_eq_error_iff.mp h with hemit | ⟨emitted, -, hpure⟩
      · exact (gather_eq_error_iff.mp hemit).2
      · cases hpure
    · -- an error of the first pass, which stops only if it has one
      next hempty =>
      obtain rfl := Except.error.inj h
      intro hnil
      exact hempty (Array.isEmpty_iff.mpr (Array.toList_eq_nil_iff.mp hnil))

theorem sourceIssues_eq_nil_iff :
    sourceIssues source = [] ↔ ∃ p, Program.ofSource source = .ok p := by
  rw [sourceIssues]
  cases h : Program.ofSource source with
  | ok p => exact ⟨fun _ => ⟨p, rfl⟩, fun _ => rfl⟩
  | error issues =>
    have hne : issues ≠ [] := ne_nil_of_ofSource_eq_error h
    constructor
    · intro hnil
      exact absurd hnil hne
    · rintro ⟨p, hp⟩
      cases hp

/-- The messages are those of the errors that are found. -/
theorem diagnostics_assemble (wording : SyntaxWording) (moduleName source : String) :
    (assemble wording moduleName source).diagnostics
      = (sourceIssues source).map (Issue.diagnostic wording) := by
  rw [assemble, sourceIssues]
  cases Program.ofSource source with
  | ok p => rfl
  | error issues => rfl

theorem errorCount_assemble (wording : SyntaxWording) (moduleName source : String) :
    (assemble wording moduleName source).errorCount = (sourceIssues source).length := by
  rw [assemble, sourceIssues]
  cases Program.ofSource source with
  | ok p => rfl
  | error issues => rfl

/-- **The assembler reports all faults, and nothing else.**  Whatever is wrong with a source, its
diagnostics are the messages of the one diagnosis that there is: no faulty line is missed, none is
named twice, and a later stage is silent as long as an earlier one has found something. -/
theorem assemble_diagnoses (wording : SyntaxWording) (moduleName source : String) :
    (assemble wording moduleName source).Diagnoses wording source := by
  refine ⟨?_, fun hpos => ?_, ⟨sourceIssues source, diagnosis_iff source, ?_⟩, ?_⟩
  · rw [errorCount_assemble, diagnostics_assemble, List.length_map]
  · rw [errorCount_assemble] at hpos
    rw [assemble]
    cases h : Program.ofSource source with
    | ok p =>
      have hnil : sourceIssues source = [] := sourceIssues_eq_nil_iff.mpr ⟨p, h⟩
      rw [hnil] at hpos
      cases hpos
    | error issues => exact ⟨rfl, rfl⟩
  · exact diagnostics_assemble wording moduleName source
  · rw [diagnostics_assemble, List.map_eq_nil_iff, sourceIssues_eq_nil_iff]
    refine exists_congr fun p => ?_
    constructor
    · intro h
      rw [assemble, h]
      exact ⟨rfl, rfl, rfl⟩
    · rintro ⟨h, -⟩
      exact h

/-- As long as a label is defined twice, nothing is said about those that are not defined. -/
example : (assemble plainWording "main" "x: data y\nx: load R1,z").diagnostics
    = [⟨2, "Duplicate label: x"⟩] := by
  decide +kernel

end Hindsight
