import Hindsight.Word

/-!
# Numerals

Reading digit strings of any length as exact numbers; the range a number must lie in is
decided afterwards.

## Main definitions

* `Numeral.ofDigits?` — a non-empty run of digits.
* `Numeral.unsigned?`, `Numeral.signed?` — with an optional sign in front.
* `Numeral.hexWord?`, `Numeral.decimalWord?` — numerals that denote a word.
-/

namespace Hindsight

namespace Numeral

/-- The value of a hexadecimal digit in either case. -/
def digitValue? (c : Char) : Option Nat :=
  if '0' ≤ c ∧ c ≤ '9' then some (c.toNat - '0'.toNat)
  else if 'a' ≤ c ∧ c ≤ 'f' then some (c.toNat - 'a'.toNat + 10)
  else if 'A' ≤ c ∧ c ≤ 'F' then some (c.toNat - 'A'.toNat + 10)
  else none

/-- The value of a digit of the given base. -/
def digit? (base : Nat) (c : Char) : Option Nat :=
  (digitValue? c).filter (· < base)

/-- The number that digits continue, when `n` has been read before them. -/
def continueDigits? (base : Nat) : (n : Nat) → List Char → Option Nat
  | n, [] => some n
  | n, c :: cs =>
    match digit? base c with
    | some d => continueDigits? base (base * n + d) cs
    | none => none

/-- The number denoted by a non-empty run of digits. -/
def ofDigits? (base : Nat) : List Char → Option Nat
  | [] => none
  | c :: cs => continueDigits? base 0 (c :: cs)

/-- Digits with an optional plus sign. -/
def unsigned? (base : Nat) : List Char → Option Nat
  | '+' :: digits => ofDigits? base digits
  | digits => ofDigits? base digits

/-- Decimal digits with an optional sign. -/
def signed? : List Char → Option Int
  | '-' :: digits => (ofDigits? 10 digits).map fun n => -(n : Int)
  | text => (unsigned? 10 text).map fun n => (n : Int)

/-- The word with a hexadecimal numeral. -/
def hexWord? (digits : List Char) : Option Word :=
  (unsigned? 16 digits).bind fun n => if n < 65536 then some (.ofNat n) else none

/-- The word with a decimal numeral, which may be the signed or the unsigned reading. -/
def decimalWord? (text : List Char) : Option Word :=
  (signed? text).bind fun i => if -32768 ≤ i ∧ i < 65536 then some (.ofSigned i) else none

end Numeral

end Hindsight
