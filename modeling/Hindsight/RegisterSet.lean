import Hindsight.Word

/-!
# Sets of registers

A set of registers is a 16-bit mask, bit `i` standing for `Ri`.  Indices from 16 on
name no register and are ignored: each operation looks at the index before it shifts by it.

## Main definitions

* `RegisterSet.insert`, `RegisterSet.insertAll`, `RegisterSet.ofList` — building sets.
* `RegisterSet.contains`, `RegisterSet.members`, `RegisterSet.size` — looking at them.
* `RegisterSet.text` — the members in braces.

## Main statements

* `RegisterSet.contains_eq_getLsbD`, `RegisterSet.mask_insert` — the operations without the look at
  the index, which a shift that loses the bit makes unnecessary.
* `RegisterSet.contains_insert`, `RegisterSet.contains_ofList` — what a set holds.
* `RegisterSet.size_eq_countP` — the ones in the mask are counted register by register.
* `RegisterSet.ext_contains` — sets with the same members are equal.
-/

namespace Hindsight

/-- A set of registers. -/
structure RegisterSet where
  /-- Bit `i` is set when `Ri` is a member. -/
  mask : BitVec 16
  deriving DecidableEq

namespace RegisterSet

/-- The set without members. -/
def empty : RegisterSet := ⟨0⟩

instance : EmptyCollection RegisterSet := ⟨empty⟩

instance : Inhabited RegisterSet := ⟨empty⟩

/-- Whether `Ri` is a member. -/
def contains (s : RegisterSet) (i : Nat) : Bool :=
  decide (i < 16) && decide (s.mask &&& 1#16 <<< i ≠ 0#16)

/-- Adds `Ri`, if there is such a register. -/
def insert (s : RegisterSet) (i : Nat) : RegisterSet :=
  if i < 16 then ⟨s.mask ||| 1#16 <<< i⟩ else s

/-- Adds every register of a list. -/
def insertAll (s : RegisterSet) (is : List Nat) : RegisterSet := is.foldl insert s

/-- The set of the registers of a list. -/
def ofList (is : List Nat) : RegisterSet := empty.insertAll is

/-- The members in ascending order. -/
def members (s : RegisterSet) : List Reg := (List.finRange 16).filter fun r => s.contains r

/-- The number of members, which is the number of ones in the mask. -/
def size (s : RegisterSet) : Nat := s.mask.cpop.toNat

/-- Whether there are no members. -/
def isEmpty (s : RegisterSet) : Bool := s.mask = 0

/-! ### The mask -/

/-- The test of a shifted one is the bit, which is clear from 16 on. -/
theorem contains_eq_getLsbD (s : RegisterSet) (i : Nat) : s.contains i = s.mask.getLsbD i := by
  rw [contains, ← BitVec.twoPow_eq, BitVec.and_twoPow]
  by_cases hi : i < 16
  · -- the shifted one is not lost, so that it differs from the empty mask
    have hone : BitVec.twoPow 16 i ≠ 0#16 := by
      intro hzero
      have hbit := congrArg (BitVec.getLsbD · i) hzero
      simp [hi] at hbit
    cases s.mask.getLsbD i with
    | true => simp [hi, hone]
    | false => simp
  · rw [decide_eq_false hi, Bool.false_and, BitVec.getLsbD_of_ge s.mask i (Nat.le_of_not_lt hi)]

/-- A one that is shifted out of the mask adds nothing. -/
theorem mask_insert (s : RegisterSet) (i : Nat) :
    (s.insert i).mask = s.mask ||| BitVec.twoPow 16 i := by
  rw [insert, BitVec.twoPow_eq]
  split
  · rfl
  · next hi => rw [BitVec.shiftLeft_eq_zero (Nat.le_of_not_lt hi), BitVec.or_zero]

/-- The ones among the lowest bits, counted bit by bit from the top. -/
theorem cpopNatRec_eq_countP {w : Nat} (m : BitVec w) (k : Nat) :
    m.cpopNatRec k 0 = (List.range k).countP m.getLsbD := by
  induction k with
  | zero => rfl
  | succ k ih =>
    rw [BitVec.cpopNatRec_succ, BitVec.cpopNatRec_add, ih, List.range_succ, List.countP_append,
      List.countP_singleton]
    cases m.getLsbD k <;> rfl

/-- The ones in the mask are counted register by register. -/
theorem size_eq_countP (s : RegisterSet) :
    s.size = (List.finRange 16).countP fun r : Reg => s.contains r := by
  have hrange : List.range 16 = (List.finRange 16).map Fin.val := rfl
  rw [size, BitVec.toNat_cpop, cpopNatRec_eq_countP, hrange, List.countP_map]
  refine List.countP_congr fun r _ => ?_
  rw [contains_eq_getLsbD]
  rfl

/-! ### Members -/

@[simp] theorem contains_empty (i : Nat) : empty.contains i = false := by
  rw [contains_eq_getLsbD, empty]
  exact BitVec.getLsbD_zero

/-- After inserting `i`, the members are the old ones and `i`, if it is a register. -/
theorem contains_insert (s : RegisterSet) (i j : Nat) :
    (s.insert i).contains j = (s.contains j || (decide (i < 16) && decide (i = j))) := by
  rw [contains_eq_getLsbD, contains_eq_getLsbD, mask_insert, BitVec.getLsbD_or,
    BitVec.getLsbD_twoPow]

theorem contains_insertAll (s : RegisterSet) (is : List Nat) (j : Nat) :
    (s.insertAll is).contains j = (s.contains j || (decide (j < 16) && decide (j ∈ is))) := by
  induction is generalizing s with
  | nil => simp [insertAll]
  | cons i is ih =>
    rw [show s.insertAll (i :: is) = (s.insert i).insertAll is from rfl, ih, contains_insert]
    by_cases h : i = j
    · subst h
      simp +contextual
    · simp [h, Ne.symm h]

/-- The members of the set of a list are the registers in the list. -/
theorem contains_ofList (is : List Nat) (j : Nat) :
    (ofList is).contains j = (decide (j < 16) && decide (j ∈ is)) := by
  simp [ofList, contains_insertAll]

theorem contains_eq_false_of_le {s : RegisterSet} {i : Nat} (h : 16 ≤ i) :
    s.contains i = false := by
  rw [contains, decide_eq_false (Nat.not_lt.mpr h), Bool.false_and]

/-- Sets with the same members are equal. -/
theorem ext_contains {s t : RegisterSet} (h : ∀ r : Reg, s.contains r = t.contains r) : s = t := by
  obtain ⟨m⟩ := s
  obtain ⟨n⟩ := t
  congr 1
  refine BitVec.eq_of_getLsbD_eq fun i hi => ?_
  rw [← contains_eq_getLsbD ⟨m⟩, ← contains_eq_getLsbD ⟨n⟩]
  exact h ⟨i, hi⟩

@[simp] theorem mem_members {s : RegisterSet} {r : Reg} : r ∈ s.members ↔ s.contains r := by
  simp [members]

/-- The members in braces, as `\x7b1, 3\x7d`. -/
def text (s : RegisterSet) : String :=
  "\x7b" ++ ", ".intercalate (s.members.map fun r => toString r.val) ++ "\x7d"

end RegisterSet

end Hindsight
