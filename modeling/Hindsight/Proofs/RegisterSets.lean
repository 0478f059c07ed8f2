import Hindsight.RegisterSet
import Mathlib.Data.Fintype.Basic
import Mathlib.Data.Finset.Card

/-!
# Register sets as finite sets

A set of registers is kept as a mask, and it is compared by its mask.  That is sound because a mask
has nothing in it but the members: one bit for each of the sixteen registers, and none for an index
that names no register.  So there is one mask for each finite set of registers, whichever way that
set has come about.

The finite set behind a mask is `RegisterSet.toFinset`.  What a set answers is read off it, and what
is added to a set is added to it; all else is said about finite sets.

## Main definitions

* `RegisterSet.toFinset` — the finite set behind a mask.
* `RegisterSet.Represents` — what a set of registers answers when it stands for a finite set.
* `RegisterSet.Addition`, `RegisterSet.Gathering` — the ways to come by a set of registers.

## Main results

* `RegisterSet.toFinset_inj` — a set of registers is its finite set.
* `RegisterSet.represents_toFinset` — every mask answers for its finite set.
* `RegisterSet.Gathering.toFinset_result` — a gathering amounts to the registers it was given.
* `RegisterSet.Gathering.result_represents` — **a set of registers is the finite set of what it was
  given.**
-/

namespace Hindsight
namespace RegisterSet

/-! ### The finite set behind a mask -/

/-- The finite set of the members. -/
def toFinset (s : RegisterSet) : Finset Reg := {r | s.contains r}

@[simp] theorem mem_toFinset {s : RegisterSet} {r : Reg} : r ∈ s.toFinset ↔ s.contains r := by
  simp [toFinset]

/-- **A set of registers is its finite set**: no two masks have the same members. -/
theorem toFinset_inj {s t : RegisterSet} : s.toFinset = t.toFinset ↔ s = t := by
  refine ⟨fun h => ext_contains fun r => ?_, congrArg toFinset⟩
  rw [Bool.eq_iff_iff, ← mem_toFinset, ← mem_toFinset, h]

@[simp] theorem toFinset_empty : empty.toFinset = ∅ := by
  ext r
  simp

/-- What is not a register is in no set. -/
theorem contains_iff_exists {s : RegisterSet} {i : Nat} :
    s.contains i ↔ ∃ r ∈ s.toFinset, r.val = i := by
  constructor
  · intro h
    have hlt : i < 16 := by
      by_contra hle
      rw [contains_eq_false_of_le (Nat.le_of_not_lt hle)] at h
      cases h
    exact ⟨⟨i, hlt⟩, mem_toFinset.mpr h, rfl⟩
  · rintro ⟨r, hr, rfl⟩
    exact mem_toFinset.mp hr

/-! ### Reading the mask -/

/-- A bit of the mask is found by shifting a one under it. -/
theorem and_shiftLeft_ne_zero_iff {s : RegisterSet} {r : Reg} :
    s.mask &&& 1#16 <<< r.val ≠ 0#16 ↔ s.contains r := by
  rw [contains, decide_eq_true r.isLt, Bool.true_and, decide_eq_true_iff]

/-! ### Listing the members -/

theorem pairwise_members (s : RegisterSet) : s.members.Pairwise (· < ·) :=
  (List.pairwise_lt_finRange 16).filter _

theorem size_eq_card (s : RegisterSet) : s.size = s.toFinset.card := by
  have hlength : s.size = s.members.length :=
    s.size_eq_countP.trans List.countP_eq_length_filter
  have hlisted : s.members.toFinset = s.toFinset := by
    ext r
    rw [List.mem_toFinset, mem_members, mem_toFinset]
  -- an ascending list repeats nothing, so that its length is the number of its members
  have hnodup : s.members.Nodup := s.pairwise_members.imp fun h => h.ne
  rw [hlength, ← hlisted, List.toFinset_card_of_nodup hnodup]

theorem isEmpty_iff {s : RegisterSet} : s.isEmpty ↔ s.toFinset = ∅ := by
  rw [← toFinset_empty, toFinset_inj, isEmpty, decide_eq_true_iff]
  exact ⟨fun h => by rw [empty, ← h], fun h => by rw [h, empty]⟩

/-- What the set `s` answers when it stands for the finite set `t`. -/
structure Represents (s : RegisterSet) (t : Finset Reg) : Prop where
  /-- It holds the registers of `t`, and no index that names no register. -/
  contains_iff : ∀ i, s.contains i ↔ ∃ r ∈ t, r.val = i
  /-- Its mask has the bits of these registers. -/
  bit_iff : ∀ r : Reg, s.mask &&& 1#16 <<< r.val ≠ 0#16 ↔ r ∈ t
  /-- It lists them in ascending order, and each of them once. -/
  ascending : s.members.Pairwise (· < ·)
  mem_members_iff : ∀ r, r ∈ s.members ↔ r ∈ t
  /-- Its size is their number, which is the number of ones in the mask. -/
  size_eq : s.size = t.card
  popCount_eq : s.mask.cpop.toNat = t.card
  isEmpty_iff : s.isEmpty ↔ t = ∅

/-- **Every mask answers for its finite set.** -/
theorem represents_toFinset (s : RegisterSet) : s.Represents s.toFinset where
  contains_iff _ := contains_iff_exists
  bit_iff _ := and_shiftLeft_ne_zero_iff.trans mem_toFinset.symm
  ascending := s.pairwise_members
  mem_members_iff _ := mem_members.trans mem_toFinset.symm
  size_eq := s.size_eq_card
  popCount_eq := s.size_eq_card
  isEmpty_iff := RegisterSet.isEmpty_iff

/-! ### Adding to a set -/

/-- The registers among some indices. -/
def named (is : List Nat) : Finset Reg := {r | r.val ∈ is}

@[simp] theorem mem_named {is : List Nat} {r : Reg} : r ∈ named is ↔ r.val ∈ is := by
  simp [named]

theorem named_append (is js : List Nat) : named (is ++ js) = named is ∪ named js := by
  ext r
  simp

theorem toFinset_insertAll (s : RegisterSet) (is : List Nat) :
    (s.insertAll is).toFinset = s.toFinset ∪ named is := by
  ext r
  simp [contains_insertAll]

theorem toFinset_ofList (is : List Nat) : (ofList is).toFinset = named is := by
  rw [ofList, toFinset_insertAll, toFinset_empty, Finset.empty_union]

/-- A set that is collected from a list has at most as many members as the list. -/
theorem size_ofList_le (is : List Nat) : (ofList is).size ≤ is.length := by
  rw [size_eq_card, toFinset_ofList]
  have hmaps : ∀ r ∈ named is, r.val ∈ is.toFinset := fun r hr =>
    List.mem_toFinset.mpr (mem_named.mp hr)
  calc (named is).card ≤ is.toFinset.card :=
        Finset.card_le_card_of_injOn Fin.val hmaps Fin.val_injective.injOn
    _ ≤ is.length := List.toFinset_card_le is

/-- Something that is added to a set.  The indices are any numbers. -/
inductive Addition where
  /-- One index. -/
  | insert (i : Nat)
  /-- Several indices, one after the other. -/
  | extend (is : List Nat)

/-- The indices that are given. -/
def Addition.indices : Addition → List Nat
  | .insert i => [i]
  | .extend is => is

/-- Makes the addition. -/
def add (s : RegisterSet) : Addition → RegisterSet
  | .insert i => s.insert i
  | .extend is => s.insertAll is

/-- An addition adds the registers that it names. -/
theorem toFinset_add (s : RegisterSet) (a : Addition) :
    (s.add a).toFinset = s.toFinset ∪ named a.indices := by
  cases a with
  | insert i => exact toFinset_insertAll s [i]
  | extend is => exact toFinset_insertAll s is

/-- After a list of additions there are the registers of all of them. -/
theorem toFinset_foldl_add (s : RegisterSet) (as : List Addition) :
    (as.foldl add s).toFinset = s.toFinset ∪ named (as.flatMap Addition.indices) := by
  induction as generalizing s with
  | nil => simp [named]
  | cons a as ih =>
    -- the set changes with the first addition, so the others are made to an arbitrary set
    rw [List.foldl_cons, ih, toFinset_add, List.flatMap_cons, named_append, Finset.union_assoc]

/-- A way to come by a set of registers: it is collected from a list, and then added to. -/
structure Gathering where
  start : List Nat
  additions : List Addition := []

namespace Gathering

/-- The set that is gathered. -/
def result (g : Gathering) : RegisterSet := g.additions.foldl add (ofList g.start)

/-- The indices that were given at some point. -/
def given (g : Gathering) : List Nat := g.start ++ g.additions.flatMap Addition.indices

/-- **A gathering amounts to the registers it was given.** -/
theorem toFinset_result (g : Gathering) : g.result.toFinset = named g.given := by
  rw [result, toFinset_foldl_add, toFinset_ofList, given, named_append]

/-- **A set of registers is the finite set of what it was given.**  Collected from any list and
added to in any way, it contains the indices below 16 that were given at some point, lists them in
ascending order, counts them, and is empty if there are none; the mask has their bits and no others.
Two sets are equal just if they have the same members, and so it is only the registers given that
count: not their order, nor repetitions, nor indices from 16 on. -/
theorem result_represents (g : Gathering) :
    g.result.Represents (named g.given) ∧
      (∀ i, g.result.contains i ↔ i < 16 ∧ i ∈ g.given) ∧
      ∀ g' : Gathering,
        (g.result = g'.result ↔ ∀ i, g.result.contains i = g'.result.contains i) ∧
          (g.result = g'.result ↔ ∀ r : Reg, r.val ∈ g.given ↔ r.val ∈ g'.given) := by
  have hrep : g.result.Represents (named g.given) := toFinset_result g ▸ represents_toFinset _
  refine ⟨hrep, fun i => ?_, fun g' => ⟨?_, ?_⟩⟩
  · rw [hrep.contains_iff]
    constructor
    · rintro ⟨r, hr, rfl⟩
      exact ⟨r.isLt, mem_named.mp hr⟩
    · rintro ⟨hlt, hi⟩
      exact ⟨⟨i, hlt⟩, mem_named.mpr hi, rfl⟩
  · exact ⟨fun h i => h ▸ rfl, fun h => ext_contains fun r => h r⟩
  · rw [← toFinset_inj, toFinset_result, toFinset_result, Finset.ext_iff]
    simp only [mem_named]

/-- Register 15 is the last one, and 3 counts once. -/
example : (Gathering.mk [3, 1, 3] [.insert 15, .extend [16, 255]]).result.members = [1, 3, 15] := by
  decide

end Gathering
end RegisterSet
end Hindsight
