import Hindsight.Assembly.Numeral

/-!
# Command-line options

The command takes the name of a source file and long options.  An option's value is the
next argument, which may not begin with a dash, or follows an equals sign.  Only
`--input` may be repeated, and `--step` and `--end` exclude each other.

## Main definitions

* `Options` — what to record and what to show.
* `Options.ofArguments?` — reads a command line.
* `wordOfText?` — an input word, in hexadecimal or signed or unsigned decimal.
-/

namespace Hindsight

/-- What to record and what to show. -/
structure Options where
  /-- The source file. -/
  file : String
  /-- The number of steps after which the recording ends. -/
  stepCap : Nat
  /-- The step to show, if one was asked for. -/
  step : Option Nat
  /-- Show the last step. -/
  atEnd : Bool
  /-- The words served to read requests. -/
  input : List Word
  /-- Compare all of memory after every step. -/
  fullScan : Bool
  deriving DecidableEq

/-! ### Values -/

/-- A word in a text: hexadecimal behind a dollar sign, or else decimal, as a signed word if it
is one and as an unsigned word otherwise. -/
def wordOfText? (text : List Char) : Option Word :=
  match text with
  | '$' :: digits => Numeral.hexWord? digits
  | _ =>
    let asSigned := (Numeral.signed? text).filter fun i => -32768 ≤ i && i ≤ 32767
    let asUnsigned := (Numeral.unsigned? 10 text).filter (· < 65536)
    asSigned.map Word.ofSigned <|> asUnsigned.map UInt16.ofNat

/-- A number of steps, which fits in 64 bits. -/
def stepsOfText? (text : List Char) : Option Nat :=
  (Numeral.unsigned? 10 text).filter (· < 18446744073709551616)

/-! ### Arguments -/

/-- An argument that has been recognised. -/
inductive Argument
  | file (name : String)
  | stepCap (steps : Nat)
  | step (step : Nat)
  | atEnd
  | input (word : Word)
  | fullScan
  deriving DecidableEq

namespace Argument

/-- An option without a value. -/
def ofFlag? (name : String) : Option Argument :=
  if name = "end" then some atEnd
  else if name = "full-scan" then some fullScan
  else none

/-- Whether a name belongs to an option with a value. -/
def takesValue (name : String) : Bool :=
  name = "step-cap" || name = "step" || name = "input"

/-- An option with a value. -/
def ofOption? (name : String) (value : List Char) : Option Argument :=
  if name = "step-cap" then (stepsOfText? value).map stepCap
  else if name = "step" then (stepsOfText? value).map step
  else if name = "input" then (wordOfText? value).map input
  else none

/-- The name of a source file, which is not empty. -/
def ofFile? (name : String) : Option Argument :=
  if name = "" then none else some (file name)

/-- Recognises the arguments of a command line, from left to right.  Two dashes alone end the
options. -/
def recognise? : List String → Option (List Argument)
  | [] => some []
  | argument :: rest =>
    match argument.toList with
    | ['-', '-'] => rest.mapM ofFile?
    | '-' :: '-' :: body =>
      let name := String.ofList (body.takeWhile (· ≠ '='))
      match body.dropWhile (· ≠ '=') with
      -- Behind an equals sign a value may begin with a dash.
      | _ :: value => do
        let option ← ofOption? name value
        let others ← recognise? rest
        return option :: others
      | [] =>
        if takesValue name then
          match rest with
          | value :: rest =>
            if value.toList.head? = some '-' then none
            else do
              let option ← ofOption? name value.toList
              let others ← recognise? rest
              return option :: others
          | [] => none
        else do
          let flag ← ofFlag? name
          let others ← recognise? rest
          return flag :: others
    -- There are no short options; a dash alone is a name.
    | '-' :: _ :: _ => none
    | _ => do
      let file ← ofFile? argument
      let others ← recognise? rest
      return file :: others

end Argument

/-! ### Options -/

namespace Options

/-- The single element of a list, if there is any; more than one is an error. -/
def atMostOne? {α : Type} : List α → Option (Option α)
  | [] => some none
  | [a] => some (some a)
  | _ => none

/-- The options that a list of arguments stands for. -/
def ofRecognised? (arguments : List Argument) : Option Options := do
  let file ← (← atMostOne? (arguments.filterMap fun
    | .file name => some name
    | _ => none))
  let stepCap ← atMostOne? (arguments.filterMap fun
    | .stepCap steps => some steps
    | _ => none)
  let step ← atMostOne? (arguments.filterMap fun
    | .step step => some step
    | _ => none)
  let atEnd ← atMostOne? (arguments.filter (· = .atEnd))
  let fullScan ← atMostOne? (arguments.filter (· = .fullScan))
  let input := arguments.filterMap fun
    | .input word => some word
    | _ => none
  if step.isSome && atEnd.isSome then none
  else
    return {
      file
      stepCap := stepCap.getD 100000
      step
      atEnd := atEnd.isSome
      input
      fullScan := fullScan.isSome }

/-- Reads a command line; `none` if it is not one the command accepts. -/
def ofArguments? (arguments : List String) : Option Options := do
  let recognised ← Argument.recognise? arguments
  ofRecognised? recognised

end Options

end Hindsight
