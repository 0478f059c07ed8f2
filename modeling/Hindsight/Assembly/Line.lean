import Hindsight.Assembly.Operand
import Hindsight.Lines

/-!
# Source lines

A source line holds, all of them optional, a label with a colon, a statement and a
comment:

    name: mnemonic operand, operand, ... ; comment

Spaces and tabs may stand between the parts.  Reading a line goes in two steps.  The
first finds its parts as texts and fails if the line does not have this form; the
second reads the operands, which may name registers or numbers that do not exist.

## Main definitions

* `LineText`, `LineText.scan?` — the parts of a line, as texts.
* `Command`, `SourceLine`, `SourceLine.parse` — the parts of a line, read.
-/

namespace Hindsight

/-! ### Scanning -/

/-- Spaces and tabs separate the parts of a line. -/
def isBlank (c : Char) : Bool := c = ' ' || c = '\t'

/-- The characters that end a line. -/
def isLineEnd (c : Char) : Bool := c = '\n' || c = '\r'

/-- The characters that begin a name. -/
def isNameStart (c : Char) : Bool := c.isAlpha || c = '_'

/-- The characters of a name. -/
def isNameChar (c : Char) : Bool := c.isAlphanum || c = '_'

/-- Hexadecimal digits in either case. -/
def isHexDigit (c : Char) : Bool := (Numeral.digit? 16 c).isSome

/-- What a scanner finds: the text at the front, and the rest. -/
abbrev Scanned (α : Type) := Option (α × List Char)

/-- Drops leading blanks. -/
def skipBlanks (s : List Char) : List Char := s.dropWhile isBlank

/-- The longest non-empty run of characters of a class. -/
def scanRun (p : Char → Bool) (s : List Char) : Scanned (List Char) :=
  match s.takeWhile p with
  | [] => none
  | cs => some (cs, s.dropWhile p)

/-- A name: a letter or underscore, then letters, digits and underscores. -/
def scanName (s : List Char) : Scanned (List Char) :=
  if s.head?.any isNameStart then scanRun isNameChar s else none

/-- A register: `r` or `R` and digits, no part of a longer name. -/
def scanRegister : List Char → Scanned (List Char)
  | c :: s =>
    if c = 'r' ∨ c = 'R' then
      match scanRun Char.isDigit s with
      | some (digits, rest) => if rest.head?.any isNameChar then none else some (c :: digits, rest)
      | none => none
    else none
  | [] => none

/-- A value: a hexadecimal or decimal numeral, or a name. -/
def scanValue : List Char → Scanned (List Char)
  | '$' :: s => (scanRun isHexDigit s).map fun (digits, rest) => ('$' :: digits, rest)
  | '-' :: s => (scanRun Char.isDigit s).map fun (digits, rest) => ('-' :: digits, rest)
  | s => scanRun Char.isDigit s <|> scanName s

/-- An operand as a text. -/
inductive OperandText
  | register (text : List Char)
  | value (text : List Char)
  | indexed (disp index : List Char)
  deriving DecidableEq, Inhabited

/-- A value with an index register in brackets. -/
def scanIndexed (s : List Char) : Option (OperandText × List Char) := do
  let (disp, rest) ← scanValue s
  let '[' :: rest := skipBlanks rest | none
  let (index, rest) ← scanRegister (skipBlanks rest)
  let ']' :: rest := skipBlanks rest | none
  return (.indexed disp index, rest)

/-- An operand.  The first form that fits is taken, so a name in the shape of a register is a
label in front of a bracket and a register elsewhere. -/
def scanOperand (s : List Char) : Scanned OperandText :=
  scanIndexed s
    <|> (scanRegister s).map (fun (text, rest) => (.register text, rest))
    <|> (scanValue s).map (fun (text, rest) => (.value text, rest))

/-- A text that is one operand with blanks around it. -/
def OperandText.scan? (piece : List Char) : Option OperandText :=
  match scanOperand (skipBlanks piece) with
  -- A shorter form is not tried when something is left behind the first one that fits.
  | some (operand, rest) => if rest.all isBlank then some operand else none
  | none => none

/-- A text that is a list of operands with commas between them, or is blank. -/
def scanOperands (s : List Char) : Option (List OperandText) :=
  -- No operand holds a comma, so the commas can be found first.
  if s.all isBlank then some [] else (pieces ',' s).mapM OperandText.scan?

/-- A mnemonic: letters that are no part of a longer name. -/
def scanMnemonic (s : List Char) : Scanned (List Char) :=
  match scanRun Char.isAlpha s with
  | some (letters, rest) => if rest.head?.any isNameChar then none else some (letters, rest)
  | none => none

/-- A label with its colon, if there is one, and the rest. -/
def scanLabel (s : List Char) : Option (List Char) × List Char :=
  match scanName s with
  | some (name, ':' :: rest) => (some name, rest)
  | _ => (none, s)

/-- The parts of a line, as texts. -/
structure LineText where
  label : Option (List Char)
  /-- The mnemonic and the operands. -/
  command : Option (List Char × List OperandText)
  deriving DecidableEq, Inhabited

/-- Finds the parts of a line.  A comment reaches from the first semicolon to the end and may not
contain the end of a line. -/
def LineText.scan? (line : List Char) : Option LineText :=
  let code := line.takeWhile (· ≠ ';')
  let comment := line.dropWhile (· ≠ ';')
  if comment.any isLineEnd then none
  else
    let (label, rest) := scanLabel (skipBlanks code)
    match skipBlanks rest with
    | [] => some ⟨label, none⟩
    | rest => do
      let (mnemonic, rest) ← scanMnemonic rest
      let operands ← scanOperands rest
      return ⟨label, some (mnemonic, operands)⟩

/-! ### Reading -/

/-- Reads an operand. -/
def OperandText.read : OperandText → Except BadArgument Operand
  | register text => .register <$> Operand.registerOfText text
  | value text => .value <$> Value.ofText text
  | indexed disp index => do
    let disp ← Value.ofText disp
    let index ← Operand.registerOfText index
    return .indexed disp index

/-- A mnemonic with its operands. -/
structure Command where
  mnemonic : String
  operands : List Operand
  deriving DecidableEq, Inhabited

/-- A source line. -/
structure SourceLine where
  label : Option String
  command : Option Command
  deriving DecidableEq, Inhabited

/-- Reads a mnemonic with its operands. -/
def Command.read (mnemonic : List Char) (operands : List OperandText) :
    Except SourceError Command :=
  match operands.mapM OperandText.read with
  | .ok operands => .ok ⟨String.ofList mnemonic, operands⟩
  | .error cause => .error (.badArgument cause)

/-- Reads a line without its end. -/
def SourceLine.parse (line : List Char) : Except SourceError SourceLine :=
  match LineText.scan? line with
  | none => .error (.malformed line)
  | some ⟨label, none⟩ => .ok ⟨label.map String.ofList, none⟩
  | some ⟨label, some (mnemonic, operands)⟩ => do
    let command ← Command.read mnemonic operands
    return ⟨label.map String.ofList, some command⟩

end Hindsight
