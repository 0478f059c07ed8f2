import Hindsight.Word

/-!
# Input

The words that a program can read, in order.  Reading keeps the words it has passed,
so that a run can be repeated from the start.
-/

namespace Hindsight

/-- A list of input words and how far it has been read. -/
structure Input where
  /-- All words, read or not. -/
  words : List Word
  /-- The words not yet read. -/
  pending : List Word
  /-- What is pending is the end of what there was. -/
  pending_suffix : pending <:+ words
  deriving DecidableEq

namespace Input

/-- Input of which nothing has been read. -/
def ofList (words : List Word) : Input := ⟨words, words, List.suffix_rfl⟩

instance : Inhabited Input := ⟨ofList []⟩

/-- The word that the next read gives. -/
def peek (i : Input) : Option Word := i.pending.head?

/-- The input after one read; reading past the end changes nothing. -/
def advance (i : Input) : Input :=
  { i with
    pending := i.pending.tail
    pending_suffix := (List.tail_suffix _).trans i.pending_suffix }

/-- The number of words not yet read. -/
def remaining (i : Input) : Nat := i.pending.length

/-- Makes every word available again. -/
def rewind (i : Input) : Input := ofList i.words

@[simp] theorem pending_ofList (words : List Word) : (ofList words).pending = words := rfl

@[simp] theorem words_advance (i : Input) : i.advance.words = i.words := rfl

@[simp] theorem pending_advance (i : Input) : i.advance.pending = i.pending.tail := rfl

@[simp] theorem rewind_advance (i : Input) : i.advance.rewind = i.rewind := rfl

@[simp] theorem rewind_ofList (words : List Word) : (ofList words).rewind = ofList words := rfl

end Input

end Hindsight
