/-!
# Lines of a text

A line ends with a line feed, or with a carriage return and a line feed.  A carriage
return anywhere else is a character like any other.

## Main definitions

* `pieces` — a text split at a separator.
* `textLines` — a text split into lines.
* `printed` — the lines that come out when messages are printed one after the other.
-/

namespace Hindsight

/-- The pieces of a text between separators.  There is one more piece than separators. -/
def pieces (separator : Char) (text : List Char) : List (List Char) :=
  let (first, others) := text.foldr (fun c (first, others) =>
    if c = separator then ([], first :: others) else (c :: first, others)) ([], [])
  first :: others

/-- A line without the carriage return that belongs to its line feed. -/
def dropReturn (line : List Char) : List Char :=
  if line.getLast? = some '\r' then line.dropLast else line

/-- The lines of a text.  Only the last may end with the text, and keeps a carriage return
then. -/
def textLines (text : List Char) : List (List Char) :=
  let lines := pieces '\n' text
  let terminated := lines.dropLast.map dropReturn
  match lines.getLast? with
  | some (c :: cs) => terminated ++ [c :: cs]
  | _ => terminated

/-- The lines that come out when messages are printed, each with a line feed behind it.  A
message that holds line feeds itself comes out as several lines. -/
def printed (messages : List String) : List String :=
  (textLines (messages.flatMap fun m => m.toList ++ ['\n'])).map String.ofList

end Hindsight
