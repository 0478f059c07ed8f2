import Hindsight.Access
import Hindsight.Machine.Basic
import Hindsight.SortedMap

/-!
# Engines and assemblers

A recording works over any engine and any assembler.  An engine executes a machine's
program one instruction at a time.  Nothing else is known about it: it may keep a state
of its own, refuse a step with a fault, and report what it touched truthfully or not.
An assembler turns source text into object code and a map from addresses to lines.

## Main definitions

* `Engine σ φ` — an engine with states `σ` and faults `φ`.
* `Diagnostic`, `LineMap`, `AssemblyOutput`, `Assembler` — assemblers and what they give.
* `Toolchain` — an engine and an assembler for it.
-/

namespace Hindsight

/-- An engine with states `σ` and faults `φ`. -/
structure Engine (σ φ : Type) where
  /-- Rewinds the engine and gives the machine as it is before a program is loaded. -/
  reset : σ → σ × Machine
  /-- Executes one instruction and reports what it touched.  After a fault, engine and machine
  are as far as the instruction got. -/
  step : σ → Machine → Except φ Access × σ × Machine
  /-- Whether the machine can make no further progress. -/
  isHalted : σ → Machine → Bool

/-- A message of an assembler about a source line. -/
structure Diagnostic where
  /-- The line, counted from 1, or 0 for a message about the whole module. -/
  line : Nat
  message : String
  deriving DecidableEq, Inhabited

/-- The message with its line in front, if it is about one. -/
def Diagnostic.text (d : Diagnostic) : String :=
  if d.line = 0 then d.message else "line " ++ toString d.line ++ ": " ++ d.message

/-- The source line that emitted the word at each address. -/
abbrev LineMap := SortedMap Address Nat

/-- What an assembler makes of a source text. -/
structure AssemblyOutput where
  /-- The words to load from address 0 on. -/
  objectCode : List Word := []
  errorCount : Nat := 0
  diagnostics : List Diagnostic := []
  lineMap : LineMap := ∅
  deriving DecidableEq, Inhabited

/-- Turns the source text of a named module into object code. -/
abbrev Assembler := (moduleName source : String) → AssemblyOutput

/-- An engine and an assembler whose object code it executes. -/
structure Toolchain (σ φ : Type) where
  engine : Engine σ φ
  assemble : Assembler

end Hindsight
