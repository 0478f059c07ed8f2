import Hindsight.Machine.Flags
import Hindsight.Word

/-!
# Word arithmetic

The arithmetic operations on words and the flags they set.  Sums and differences are
formed on words, and their carry and overflow are told from the operands and the
wrapped result; products and quotients are formed on the signed readings.

## Main definitions

* `Arithmetic` — a result word with its carry and overflow.
* `Arithmetic.add`, `Arithmetic.sub`, `Arithmetic.mul`, `Arithmetic.div` — the operations.
* `Arithmetic.remainder` — what a division leaves.
* `Arithmetic.flags` — all five flags of a result.
-/

namespace Hindsight

/-- The outcome of an arithmetic operation. -/
structure Arithmetic where
  value : Word
  carry : Bool
  overflow : Bool
  deriving DecidableEq

namespace Arithmetic

/-- The wrapped sum.  It carried if it is below an operand; it overflowed if the operands
have one sign and the sum the other. -/
def add (x y : Word) : Arithmetic where
  value := x + y
  carry := x + y < x
  overflow := Word.isNegative x == Word.isNegative y &&
    Word.isNegative (x + y) != Word.isNegative x

/-- The wrapped difference.  It borrowed if the unsigned operands ascend; it overflowed if the
operands differ in sign and the difference has the sign of the second. -/
def sub (x y : Word) : Arithmetic where
  value := x - y
  carry := x < y
  overflow := Word.isNegative x != Word.isNegative y &&
    Word.isNegative (x - y) == Word.isNegative y

/-- The word that denotes an exact signed result, which overflowed if the word reads as another
number. -/
def ofExact (i : Int) : Arithmetic where
  value := .ofSigned i
  carry := false
  overflow := Word.signed (.ofSigned i) ≠ i

/-- The signed product. -/
def mul (x y : Word) : Arithmetic := ofExact (Word.signed x * Word.signed y)

/-- The signed quotient, rounded toward zero. -/
def div (x y : Word) : Arithmetic := ofExact ((Word.signed x).tdiv (Word.signed y))

/-- The remainder of the signed division, which has the sign of `x`. -/
def remainder (x y : Word) : Word := .ofSigned ((Word.signed x).tmod (Word.signed y))

/-- All five flags: the result's carry and overflow, and its comparison with zero. -/
def flags (r : Arithmetic) : Flags :=
  ({ carry := r.carry, overflow := r.overflow } : Flags).compared (Word.signed r.value) 0

end Arithmetic

end Hindsight
