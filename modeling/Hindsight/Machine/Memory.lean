import Hindsight.Word

/-!
# Memory

One word per address.  Loading and comparing walk the cells in order;
everything else reads or writes a single cell.

## Main definitions

* `Memory.get`, `Memory.set` — one cell.
* `Memory.load` — copies words to the cells from address 0 on.
* `Memory.copyFrom` — overwrites every cell with another memory's.
* `Memory.changes` — the cells in which two memories differ, in address order.

## Main statements

* `Memory.ext_get` — memories with equal cells are equal.
* `Memory.get_set`, `Memory.get_load` — what a cell holds afterwards.
* `Memory.copyFrom_eq`, `Memory.mem_changes` — copying and comparing are complete.
-/

namespace Hindsight

/-- The machine's memory: a word per address. -/
structure Memory where
  /-- The cells in address order. -/
  cells : Vector Word memorySize
  deriving DecidableEq

namespace Memory

/-- All cells zero. -/
def zero : Memory := ⟨.replicate memorySize 0⟩

instance : Inhabited Memory := ⟨zero⟩

/-- The word at an address. -/
def get (m : Memory) (a : Address) : Word :=
  have := toNat_lt_memorySize a
  m.cells[a.toNat]

/-- Replaces the word at an address. -/
def set (m : Memory) (a : Address) (w : Word) : Memory :=
  { m with cells := m.cells.set a.toNat w (toNat_lt_memorySize a) }

theorem get_set (m : Memory) (a b : Address) (w : Word) :
    (m.set a w).get b = if a = b then w else m.get b := by
  simp [get, set, Vector.getElem_set, UInt16.toNat_inj]

@[simp] theorem get_set_self (m : Memory) (a : Address) (w : Word) : (m.set a w).get a = w := by
  simp [get_set]

@[simp] theorem get_zero (a : Address) : zero.get a = 0 := by
  simp [get, zero]

/-- Memories with equal cells are equal. -/
theorem ext_get {m n : Memory} (h : ∀ a, m.get a = n.get a) : m = n := by
  obtain ⟨c⟩ := m
  obtain ⟨d⟩ := n
  congr 1
  refine Vector.ext fun i hi => ?_
  have := h (UInt16.ofNat i)
  simpa [get, toNat_ofNat_of_lt_memorySize hi] using this

/-! ### Loading -/

/-- Copies words into consecutive cells from index `i` on, as far as the memory goes. -/
def loadAt (m : Memory) (i : Nat) : List Word → Memory
  | [] => m
  | w :: ws =>
    if h : i < memorySize then loadAt { m with cells := m.cells.set i w h } (i + 1) ws else m

/-- Copies words into the cells from address 0 on, leaving the cells behind them alone. -/
def load (m : Memory) (words : List Word) : Memory := m.loadAt 0 words

theorem get_loadAt (m : Memory) (i : Nat) (words : List Word) (a : Address) :
    (m.loadAt i words).get a =
      if i ≤ a.toNat then (words[a.toNat - i]?).getD (m.get a) else m.get a := by
  induction words generalizing m i with
  | nil => simp [loadAt]
  | cons w ws ih =>
    have ha : a.toNat < memorySize := toNat_lt_memorySize a
    rw [loadAt]
    split
    · rw [ih]
      by_cases hlt : i < a.toNat
      · have hsub : a.toNat - i = (a.toNat - (i + 1)) + 1 := by omega
        rw [if_pos (by omega), if_pos (by omega), hsub, List.getElem?_cons_succ]
        simp [get, Nat.ne_of_lt hlt]
      · by_cases heq : i = a.toNat
        · subst heq
          rw [if_neg (Nat.not_succ_le_self _), if_pos (Nat.le_refl _)]
          simp [get]
        · rw [if_neg (by omega), if_neg (by omega)]
          simp [get, heq]
    · rw [if_neg (by omega)]

/-- After loading, a cell holds the word with its number, or its old word behind the last. -/
theorem get_load (m : Memory) (words : List Word) (a : Address) :
    (m.load words).get a = (words[a.toNat]?).getD (m.get a) := by
  simp [load, get_loadAt]

/-! ### Copying -/

/-- Overwrites the cells below `n` with those of `source`. -/
def copyBelow (target source : Memory) : (n : Nat) → n ≤ memorySize → Memory
  | 0, _ => target
  | n + 1, h => copyBelow { target with cells := target.cells.set n source.cells[n] } source n
      (Nat.le_of_succ_le h)

/-- Overwrites every cell of `target` with the one of `source`, in the storage of `target`. -/
def copyFrom (target source : Memory) : Memory := target.copyBelow source memorySize (Nat.le_refl _)

theorem get_copyBelow (target source : Memory) (n : Nat) (h : n ≤ memorySize) (a : Address) :
    (target.copyBelow source n h).get a = if a.toNat < n then source.get a else target.get a := by
  induction n generalizing target with
  | zero => simp [copyBelow]
  | succ n ih =>
    rw [copyBelow, ih]
    by_cases hlt : a.toNat < n
    · rw [if_pos hlt, if_pos (by omega)]
    · by_cases heq : n = a.toNat
      · subst heq; simp [get]
      · rw [if_neg hlt, if_neg (by omega)]
        simp [get, heq]

theorem copyFrom_eq (target source : Memory) : target.copyFrom source = source :=
  ext_get fun a => by simp [copyFrom, get_copyBelow, toNat_lt_memorySize a]

/-! ### Comparing -/

/-- Puts the cells below `n` whose words differ, with the later words, in front of `found`. -/
def changesBelow (before after : Memory) :
    (n : Nat) → n ≤ memorySize → List (Address × Word) → List (Address × Word)
  | 0, _, found => found
  | n + 1, h, found =>
    changesBelow before after n (Nat.le_of_succ_le h)
      (if before.cells[n] = after.cells[n] then found
        else (UInt16.ofNat n, after.cells[n]) :: found)

/-- The cells in which `after` differs from `before`, with their words in `after`, in
address order. -/
def changes (before after : Memory) : List (Address × Word) :=
  changesBelow before after memorySize (Nat.le_refl _) []

theorem mem_changesBelow {before after : Memory} {n : Nat} {h : n ≤ memorySize}
    {found : List (Address × Word)} {x : Address × Word} :
    x ∈ changesBelow before after n h found ↔
      x ∈ found ∨ (x.1.toNat < n ∧ before.get x.1 ≠ after.get x.1 ∧ x.2 = after.get x.1) := by
  induction n generalizing found with
  | zero => simp [changesBelow]
  | succ n ih =>
    obtain ⟨a, w⟩ := x
    have hn : (UInt16.ofNat n).toNat = n := toNat_ofNat_of_lt_memorySize h
    rw [changesBelow, ih]
    split
    · next heq =>
      refine or_congr_right (and_congr_left fun hne => ⟨fun _ => by omega, fun hlt => ?_⟩)
      refine Nat.lt_of_le_of_ne (Nat.lt_succ_iff.1 hlt) fun han => hne.1 ?_
      simpa [get, han] using heq
    · next hne =>
      rw [List.mem_cons, Prod.mk.injEq, or_assoc, or_left_comm]
      refine or_congr_right ⟨?_, fun ⟨hlt, hdiff, hw⟩ => ?_⟩
      · rintro (⟨rfl, rfl⟩ | ⟨hlt, hrest⟩)
        · exact ⟨by simp [hn], by simpa [get, hn] using hne, by simp [get, hn]⟩
        · exact ⟨by omega, hrest⟩
      · by_cases han : a.toNat = n
        · exact .inl ⟨UInt16.toNat_inj.1 (han.trans hn.symm), by simpa [get, han] using hw⟩
        · exact .inr ⟨Nat.lt_of_le_of_ne (Nat.lt_succ_iff.1 hlt) han, hdiff, hw⟩

/-- A listed change is exactly a cell that differs, with its later word. -/
theorem mem_changes {before after : Memory} {x : Address × Word} :
    x ∈ before.changes after ↔ before.get x.1 ≠ after.get x.1 ∧ x.2 = after.get x.1 := by
  simp [changes, mem_changesBelow, toNat_lt_memorySize x.1]

/-- The cells that are not zero, in address order. -/
def nonzero (m : Memory) : List (Address × Word) := zero.changes m

end Memory

end Hindsight
