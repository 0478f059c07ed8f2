/-!
# Condition flags

Arithmetic sets all five flags; comparisons and bitwise operations set the three
comparison flags only.  A byte of flags has three more bits, which have no name and which no
operation sets or reads; they are not kept.

## Main definitions

* `Flags` — the five flags.
* `Flags.toBits`, `Flags.ofBits` — their packed form, bit 0 being the carry.
* `Flags.names`, `Flags.text` — the names of the flags that are set.
-/

namespace Hindsight

/-- The condition flags, which are five Booleans and not a byte.  The bits of a byte of flags that
have no name are dropped: states that differ in these alone are one state here. -/
structure Flags where
  /-- Unsigned carry, or borrow for a subtraction. -/
  carry : Bool := false
  /-- The exact signed result did not fit in a word. -/
  overflow : Bool := false
  /-- Signed less-than. -/
  lt : Bool := false
  /-- Equal. -/
  eq : Bool := false
  /-- Signed greater-than. -/
  gt : Bool := false
  deriving DecidableEq, Inhabited, Repr

namespace Flags

/-- No flag set. -/
def clear : Flags := {}

/-- The flags packed into five bits, the carry lowest. -/
def toBits (f : Flags) : Nat :=
  f.carry.toNat + 2 * f.overflow.toNat + 4 * f.lt.toNat + 8 * f.eq.toNat + 16 * f.gt.toNat

/-- Unpacks five bits; higher bits, which stand for no flag, are dropped. -/
def ofBits (n : Nat) : Flags where
  carry := n.testBit 0
  overflow := n.testBit 1
  lt := n.testBit 2
  eq := n.testBit 3
  gt := n.testBit 4

@[simp] theorem ofBits_toBits (f : Flags) : ofBits f.toBits = f := by
  obtain ⟨c, o, l, e, g⟩ := f
  cases c <;> cases o <;> cases l <;> cases e <;> cases g <;> rfl

/-- Replaces the comparison flags by the comparison of `x` with `y`. -/
def compared (f : Flags) (x y : Int) : Flags :=
  { f with lt := x < y, eq := x = y, gt := y < x }

@[simp] theorem carry_compared (f : Flags) (x y : Int) : (f.compared x y).carry = f.carry := rfl

@[simp] theorem overflow_compared (f : Flags) (x y : Int) :
    (f.compared x y).overflow = f.overflow := rfl

@[simp] theorem lt_compared (f : Flags) (x y : Int) : (f.compared x y).lt = decide (x < y) := rfl

@[simp] theorem eq_compared (f : Flags) (x y : Int) : (f.compared x y).eq = decide (x = y) := rfl

@[simp] theorem gt_compared (f : Flags) (x y : Int) : (f.compared x y).gt = decide (y < x) := rfl

/-- The names of the flags that are set, from the lowest bit. -/
def names (f : Flags) : List String :=
  [(f.carry, "CARRY"), (f.overflow, "OVERFLOW"), (f.lt, "LT"), (f.eq, "EQ"), (f.gt, "GT")].filterMap
    fun (isSet, name) => if isSet then some name else none

/-- `Flags(CARRY | LT)`; without a flag, `Flags(0x0)`. -/
def text (f : Flags) : String :=
  match f.names with
  | [] => "Flags(0x0)"
  | names => "Flags(" ++ " | ".intercalate names ++ ")"

end Flags

end Hindsight
