/-!
# Words, addresses and registers

The machine computes on 16-bit words.  A word is at the same time an unsigned
number, a two's complement number and an address, since memory holds exactly one
word per address.

## Main definitions

* `Word`, `Address`, `Reg` — the machine's words, memory addresses and registers.
* `Word.signed`, `Word.ofSigned` — the two's complement reading and its inverse.
* `Word.isNegative` — the sign bit.
* `Word.hex`, `Word.decimal` — the written forms of a word.
* `Reg.text` — a register's name in a listing.
-/

namespace Hindsight

/-- A machine word. -/
abbrev Word := UInt16

/-- A memory address.  Every word is an address. -/
abbrev Address := UInt16

/-- A general register, `R0` to `R15`. -/
abbrev Reg := Fin 16

/-- There is a register, so that numerals name registers. -/
instance Reg.neZero : @NeZero Nat Zero.ofOfNat0 16 := ⟨by decide⟩

/-- Number of words of memory.  Proofs go by `memorySize_eq`, so that no term unfolds a
recursion over all of memory. -/
@[irreducible] def memorySize : Nat := 65536

theorem memorySize_eq : memorySize = 65536 := by unfold memorySize; rfl

/-- Every address is one of memory's. -/
theorem toNat_lt_memorySize (a : Address) : a.toNat < memorySize := by
  rw [memorySize_eq]; exact a.toNat_lt

theorem toNat_ofNat_of_lt_memorySize {n : Nat} (h : n < memorySize) :
    (UInt16.ofNat n).toNat = n :=
  UInt16.toNat_ofNat_of_lt' (by rwa [memorySize_eq] at h)

/-! ### Two's complement -/

/-- The two's complement reading of a word, from `-32768` to `32767`. -/
def Word.signed (w : Word) : Int := w.toBitVec.toInt

/-- The word whose two's complement reading is `i` modulo `2 ^ 16`. -/
def Word.ofSigned (i : Int) : Word := .ofBitVec (BitVec.ofInt 16 i)

/-- Whether the sign bit of a word is set. -/
def Word.isNegative (w : Word) : Bool := w.toBitVec.msb

theorem Word.signed_ofSigned (i : Int) : (Word.ofSigned i).signed = i.bmod 65536 := by
  simp [Word.signed, Word.ofSigned, BitVec.toInt_ofInt]

@[simp] theorem Word.ofSigned_signed (w : Word) : Word.ofSigned w.signed = w := by
  simp [Word.signed, Word.ofSigned]

theorem Word.signed_lt (w : Word) : w.signed < 32768 := by
  have := BitVec.toInt_lt (x := w.toBitVec)
  simpa [Word.signed] using this

theorem Word.neg_le_signed (w : Word) : -32768 ≤ w.signed := by
  have := BitVec.le_toInt (x := w.toBitVec)
  simpa [Word.signed] using this

/-! ### Written forms -/

/-- The lower-case hexadecimal digit for the low four bits of `n`. -/
def hexDigit (n : Nat) : Char := Nat.digitChar (n % 16)

/-- Four lower-case hexadecimal digits, most significant first. -/
def Word.hex (w : Word) : String :=
  let n := w.toNat
  String.ofList [hexDigit (n / 4096), hexDigit (n / 256), hexDigit (n / 16), hexDigit n]

/-- The unsigned decimal numeral of a word. -/
def Word.decimal (w : Word) : String := toString w.toNat

/-- A register's name in a listing: `R` and its number. -/
def Reg.text (r : Reg) : String := "R" ++ toString r.val

end Hindsight
