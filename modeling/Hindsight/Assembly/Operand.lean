import Hindsight.Assembly.Error
import Hindsight.Assembly.Numeral

/-!
# Operands

An operand is a register, a value, or a value with an index register.  A value is a word
or a label that stands for one.

## Main definitions

* `Value`, `Operand` — operands, before labels are resolved.
* `Value.ofText`, `Operand.registerOfText` — what the text of an operand means.
* `Operand.register`, `Operand.address`, `Operand.value` — an operand in a place that
  takes only some operands.
-/

namespace Hindsight

/-- A word, or a label that stands for one. -/
inductive Value
  | literal (word : Word)
  | label (name : String)
  deriving DecidableEq, Inhabited

namespace Value

/-- The written form: a word is written in unsigned decimal. -/
def text : Value → String
  | literal word => Word.decimal word
  | label name => name

/-- The value with a given text: a dollar sign begins a hexadecimal numeral, a minus sign or a
digit a decimal one, and everything else is a label. -/
def ofText (text : List Char) : Except BadArgument Value :=
  let word := fun (w : Option Word) =>
    match w with
    | some w => .ok (literal w)
    | none => .error (.invalidLiteral (String.ofList text))
  match text with
  | '$' :: digits => word (Numeral.hexWord? digits)
  | '-' :: _ => word (Numeral.decimalWord? text)
  | c :: _ =>
    if c.isDigit then word (Numeral.decimalWord? text) else .ok (label (String.ofList text))
  | [] => .ok (label "")

end Value

/-- An operand. -/
inductive Operand
  | register (r : Reg)
  | value (v : Value)
  /-- A displacement and the register it is added to. -/
  | indexed (disp : Value) (index : Reg)
  deriving DecidableEq, Inhabited

namespace Operand

/-- The written form. -/
def text : Operand → String
  | register r => Reg.text r
  | value v => v.text
  | indexed disp index => disp.text ++ "[" ++ Reg.text index ++ "]"

/-- The register with a given text, a letter and a number that may have leading zeros. -/
def registerOfText (text : List Char) : Except BadArgument Reg :=
  match Numeral.ofDigits? 10 text.tail with
  | some n =>
    if h : n < 16 then .ok ⟨n, h⟩ else .error (.invalidRegister (String.ofList text))
  | none => .error (.invalidRegister (String.ofList text))

/-- An operand where a register has to stand. -/
def asRegister : Operand → Except BadArgument Reg
  | register r => .ok r
  | o => .error (.expectedRegister o.text)

/-- An operand where an address has to stand.  A value alone is indexed by `R0`. -/
def asAddress : Operand → Except BadArgument (Value × Reg)
  | indexed disp index => .ok (disp, index)
  | value disp => .ok (disp, 0)
  | o => .error (.expectedAddress o.text)

/-- An operand where a data value has to stand. -/
def asValue : Operand → Except BadArgument Value
  | value v => .ok v
  | o => .error (.invalidLiteral o.text)

end Operand

end Hindsight
