/-!
# Errors in source text

What can be wrong with a line, or with the program as a whole, and the wording of each
message.  What is said about a line that does not have the form of a source line is left open: it
comes with the tool that has looked at the line, and may be any text that the line determines.
-/

namespace Hindsight

/-- Why an operand is not acceptable. -/
inductive BadArgument
  /-- A register number above 15. -/
  | invalidRegister (text : String)
  /-- A number that is no word, or something else in the place of a data value. -/
  | invalidLiteral (text : String)
  | expectedRegister (found : String)
  | expectedAddress (found : String)
  deriving DecidableEq, Inhabited

/-- The message about an operand. -/
def BadArgument.message : BadArgument → String
  | invalidRegister text => "Invalid register: " ++ text
  | invalidLiteral text => "Invalid literal: " ++ text
  | expectedRegister found => "Expected a register, found " ++ found
  | expectedAddress found => "Expected an address, found " ++ found

/-- What is said about a line that does not have the form of a source line. -/
abbrev SyntaxWording := (line : List Char) → String

/-- The same is said about all such lines. -/
def plainWording : SyntaxWording := fun _ => "expected a label, a statement or a comment"

/-- What is wrong with a source text. -/
inductive SourceError
  /-- The line does not have the form of a source line. -/
  | malformed (line : List Char)
  | unknownInstruction (name : String)
  | wrongArgumentCount (instruction : String) (expected found : Nat)
  | badArgument (cause : BadArgument)
  | duplicateLabel (label : String)
  | undefinedLabel (label : String)
  /-- A label behind the end of memory, or a program longer than it. -/
  | programTooLarge (words : Nat)
  deriving DecidableEq, Inhabited

/-- The message of an error. -/
def SourceError.message (wording : SyntaxWording) : SourceError → String
  | malformed line => "Syntax error: " ++ wording line
  | unknownInstruction name => "Unknown instruction: " ++ name
  | wrongArgumentCount instruction expected found =>
    "Wrong number of arguments for " ++ instruction ++ ": expected " ++ toString expected ++
      ", found " ++ toString found
  | badArgument cause => "Bad argument: " ++ cause.message
  | duplicateLabel label => "Duplicate label: " ++ label
  | undefinedLabel label => "Undefined label: " ++ label
  | programTooLarge words =>
    "Program does not fit in memory (" ++ toString words ++ " words)"

end Hindsight
