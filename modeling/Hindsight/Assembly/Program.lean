import Hindsight.Assembly.Statement
import Hindsight.Engine
import Std.Data.TreeMap

/-!
# Assembling a program

Assembly goes over the lines three times.  First every line is read.  Then the labels get
their addresses, which are known because a statement's size does not depend on labels.
Last the words are emitted.  Each time goes on to the end and gathers the errors of all
lines, and the next one begins only if there were none.

## Main definitions

* `Item` — a line that has been read.
* `Layout` — the addresses of the labels.
* `Program`, `Program.ofSource` — the assembled program.
* `assemble` — the assembler.
-/

namespace Hindsight

/-! ### Errors of all lines -/

/-- An error and its line, or line 0 for the whole program. -/
structure Issue where
  line : Nat
  error : SourceError
  deriving DecidableEq, Inhabited

/-- An error as a message. -/
def Issue.diagnostic (wording : SyntaxWording) (i : Issue) : Diagnostic :=
  ⟨i.line, i.error.message wording⟩

/-- The results of all lines, or else the errors of all lines, in line order. -/
def gather {α : Type} (results : List (Nat × Except SourceError α)) :
    Except (List Issue) (List α) :=
  let issues := results.filterMap fun (line, result) =>
    match result with
    | .ok _ => none
    | .error error => some ⟨line, error⟩
  if issues.isEmpty then .ok (results.filterMap fun e => e.2.toOption) else .error issues

/-! ### Reading -/

/-- A line that has been read. -/
structure Item where
  /-- The line's number, counted from 1. -/
  line : Nat
  label : Option String
  statement : Option Statement
  deriving DecidableEq, Inhabited

/-- The number of words that a line emits. -/
def Item.size (i : Item) : Nat := i.statement.elim 0 Statement.size

/-- The meaning of a line with a given number. -/
def Item.ofSourceLine (line : Nat) (s : SourceLine) : Except SourceError Item :=
  match s.command with
  | none => .ok ⟨line, s.label, none⟩
  | some command => do
    let statement ← Statement.ofCommand command
    return ⟨line, s.label, some statement⟩

/-- Reads a line with a given number. -/
def Item.parse (line : Nat) (text : List Char) : Except SourceError Item := do
  let s ← SourceLine.parse text
  Item.ofSourceLine line s

/-- Reads all lines of a source text. -/
def readItems (source : String) : Except (List Issue) (List Item) :=
  let lines := (textLines source.toList).zipIdx 1
  gather (lines.map fun (text, line) => (line, Item.parse line text))

/-! ### Layout -/

/-- The addresses of labels. -/
abbrev Labels := Std.TreeMap String Address

/-- The layout of the lines up to some point. -/
structure Layout where
  /-- The address of the next word. -/
  address : Nat := 0
  labels : Labels := ∅
  issues : Array Issue := #[]

namespace Layout

/-- Adds an error. -/
def report (l : Layout) (line : Nat) (error : SourceError) : Layout :=
  { l with issues := l.issues.push ⟨line, error⟩ }

/-- Gives a label the address of the next word. -/
def define (l : Layout) (line : Nat) (label : String) : Layout :=
  -- A label behind memory is not recorded, so it is no duplicate of a later one either.
  if memorySize ≤ l.address then l.report line (.programTooLarge l.address)
  else if l.labels.contains label then l.report line (.duplicateLabel label)
  else { l with labels := l.labels.insert label (.ofNat l.address) }

/-- Goes past a line. -/
def advance (l : Layout) (words : Nat) : Layout := { l with address := l.address + words }

/-- Lays out one more line. -/
def add (l : Layout) (item : Item) : Layout :=
  (item.label.elim l (l.define item.line)).advance item.size

/-- Lays out a program, which has to fit in memory. -/
def ofItems (items : List Item) : Layout :=
  let l := items.foldl add {}
  if memorySize < l.address then l.report 0 (.programTooLarge l.address) else l

end Layout

/-! ### Emission -/

/-- An assembled program. -/
structure Program where
  /-- The words from address 0 on. -/
  words : List Word
  labels : Labels
  lineMap : LineMap

namespace Program

/-- The address of a label, if the program defines it. -/
def label? (p : Program) (name : String) : Option Address := p.labels[name]?

/-- The words of a line, each with the number of the line. -/
def emit (labels : Labels) (item : Item) : Except SourceError (List (Word × Nat)) :=
  match item.statement with
  | none => .ok []
  | some statement => do
    let words ← statement.words (labels[·]?)
    return words.map fun word => (word, item.line)

/-- The program of a list of words with their lines, in address order. -/
def ofEmitted (labels : Labels) (emitted : List (Word × Nat)) : Program where
  words := emitted.map (·.1)
  labels := labels
  lineMap := .ofEntries (emitted.zipIdx.map fun ((_, line), address) => (.ofNat address, line))

/-- Assembles a source text. -/
def ofSource (source : String) : Except (List Issue) Program := do
  let items ← readItems source
  let layout := Layout.ofItems items
  if layout.issues.isEmpty then
    let emitted ← gather (items.map fun item => (item.line, emit layout.labels item))
    return ofEmitted layout.labels emitted.flatten
  else
    .error layout.issues.toList

end Program

/-- The assembler of the machine.  The name of the module plays no part. -/
def assemble (wording : SyntaxWording) : Assembler := fun _ source =>
  match Program.ofSource source with
  | .ok program => { objectCode := program.words, lineMap := program.lineMap }
  | .error issues =>
    { errorCount := issues.length, diagnostics := issues.map (Issue.diagnostic wording) }

end Hindsight
