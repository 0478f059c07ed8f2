import Hindsight.Assembly.Program
import Mathlib.Algebra.GroupWithZero.Nat
import Mathlib.Data.List.Induction
import Mathlib.Data.List.Nodup

/-!
# The layout of a program

The first pass goes over the lines once, from the first to the last, and knows of each line
only the size.  What it has found out after some lines is said here about these lines as a list:
the address of the next word is the sum of their sizes, a label has the address of the first
line that defines it, and an error is kept for every line that defines one a second time or
behind the end of memory.

## Main definitions

* `totalSize`, `addressOf`, `labelDefs` — sizes, addresses and labels of a list of lines.
* `DefinesAt` — a line of the list defines a label at an address.
* `Layout.after` — the layout after some lines.
* `layoutIssues` — the errors of the lines, as a function of the list.

## Main results

* `Layout.address_after`, `Layout.exists_of_labels_after`, `Layout.labels_after_of_definesAt`,
  `Layout.issues_after` — the loop invariant, one fact for each field.
* `layoutIssues_eq_nil_iff` — when there are no errors.
-/

namespace Hindsight

/-! ### Lines as a list -/

/-- The number of words of several lines. -/
def totalSize (items : List Item) : Nat := (items.map Item.size).sum

/-- The address of line `i`: the sum of the sizes of the lines before it. -/
def addressOf (items : List Item) (i : Nat) : Nat := totalSize (items.take i)

/-- The labels that lines define, in line order. -/
def labelDefs (items : List Item) : List String := items.filterMap Item.label

/-- Some line defines the label, and its address is the given one. -/
def DefinesAt (items : List Item) (name : String) (address : Nat) : Prop :=
  ∃ i item, items[i]? = some item ∧ item.label = some name ∧ addressOf items i = address

variable {items : List Item} {item : Item} {name : String}

@[simp] theorem totalSize_nil : totalSize [] = 0 := rfl

@[simp] theorem totalSize_append (xs ys : List Item) :
    totalSize (xs ++ ys) = totalSize xs + totalSize ys := by
  simp [totalSize]

@[simp] theorem totalSize_singleton (x : Item) : totalSize [x] = x.size := by
  simp [totalSize]

theorem addressOf_le (items : List Item) (i : Nat) : addressOf items i ≤ totalSize items := by
  have h : totalSize items = addressOf items i + totalSize (items.drop i) := by
    rw [addressOf, ← totalSize_append, List.take_append_drop]
  omega

theorem addressOf_append_of_le {i : Nat} (h : i ≤ items.length) (rest : List Item) :
    addressOf (items ++ rest) i = addressOf items i := by
  rw [addressOf, List.take_append_of_le_length h, addressOf]

theorem addressOf_length (items rest : List Item) :
    addressOf (items ++ rest) items.length = totalSize items := by
  rw [addressOf_append_of_le (Nat.le_refl _), addressOf, List.take_length]

theorem addressOf_succ {i : Nat} (h : items[i]? = some item) :
    addressOf items (i + 1) = addressOf items i + item.size := by
  rw [addressOf, List.take_add_one, h, Option.toList_some, totalSize_append, totalSize_singleton,
    addressOf]

theorem addressOf_mono (items : List Item) {i j : Nat} (h : i ≤ j) :
    addressOf items i ≤ addressOf items j := by
  have htake : items.take i = (items.take j).take i := by
    rw [List.take_take, Nat.min_eq_left h]
  rw [addressOf, htake]
  exact addressOf_le (items.take j) i

/-- Every address that words are emitted for is that of a word of some line. -/
theorem exists_line_of_lt_totalSize {n : Nat} (h : n < totalSize items) :
    ∃ i item j, items[i]? = some item ∧ j < item.size ∧ n = addressOf items i + j := by
  induction items using List.reverseRecOn with
  | nil => exact absurd h (Nat.not_lt_zero n)
  | append_singleton items last ih =>
    rw [totalSize_append, totalSize_singleton] at h
    rcases Nat.lt_or_ge n (totalSize items) with hlt | hge
    · -- a word of the lines in front of the last one
      obtain ⟨i, item, j, hitem, hj, rfl⟩ := ih hlt
      have hi : i < items.length := (List.getElem?_eq_some_iff.mp hitem).1
      refine ⟨i, item, j, ?_, hj, ?_⟩
      · rw [List.getElem?_append_left hi, hitem]
      · rw [addressOf_append_of_le (Nat.le_of_lt hi)]
    · -- a word of the last line
      refine ⟨items.length, last, n - totalSize items, List.getElem?_concat_length, ?_, ?_⟩
      · omega
      · rw [addressOf_length]
        omega

section FlatMap

variable {β : Type} {f : Item → List β} (hsize : ∀ item, (f item).length = item.size)

include hsize

/-- What the lines give, one after the other, is as long as their sizes say. -/
theorem length_flatMap_of_size (items : List Item) :
    (items.flatMap f).length = totalSize items := by
  simp only [List.length_flatMap, hsize]
  rfl

/-- What a line gives stands where the sizes of the lines before it end. -/
theorem exists_flatMap_eq_append {i : Nat} (h : items[i]? = some item) :
    ∃ before rest, items.flatMap f = before ++ (f item ++ rest) ∧
      before.length = addressOf items i := by
  obtain ⟨hi, rfl⟩ := List.getElem?_eq_some_iff.mp h
  refine ⟨(items.take i).flatMap f, (items.drop (i + 1)).flatMap f, ?_, ?_⟩
  · rw [← List.flatMap_cons, ← List.drop_eq_getElem_cons hi, ← List.flatMap_append,
      List.take_append_drop]
  · rw [length_flatMap_of_size hsize, addressOf]

end FlatMap

@[simp] theorem labelDefs_nil : labelDefs [] = [] := rfl

theorem labelDefs_concat (items : List Item) (item : Item) :
    labelDefs (items ++ [item]) = labelDefs items ++ item.label.toList := by
  rw [labelDefs, List.filterMap_append, labelDefs]
  cases h : item.label with
  | none => rw [List.filterMap_cons_none h]; rfl
  | some name => rw [List.filterMap_cons_some h]; rfl

theorem not_definesAt_nil {n : Nat} : ¬ DefinesAt [] name n := by
  rintro ⟨i, item, h, -⟩
  simp at h

/-- One more line defines its own label, at the address where the others end. -/
theorem definesAt_concat {n : Nat} :
    DefinesAt (items ++ [item]) name n ↔
      DefinesAt items name n ∨ item.label = some name ∧ totalSize items = n := by
  constructor
  · rintro ⟨i, x, hx, hlabel, haddr⟩
    rcases Nat.lt_or_ge i items.length with hlt | hge
    · rw [List.getElem?_append_left hlt] at hx
      rw [addressOf_append_of_le (Nat.le_of_lt hlt)] at haddr
      exact .inl ⟨i, x, hx, hlabel, haddr⟩
    · have hi : i < (items ++ [item]).length := (List.getElem?_eq_some_iff.mp hx).1
      rw [List.length_append, List.length_singleton] at hi
      obtain rfl : i = items.length := by omega
      rw [List.getElem?_concat_length] at hx
      obtain rfl := Option.some.inj hx
      rw [addressOf_length] at haddr
      exact .inr ⟨hlabel, haddr⟩
  · rintro (⟨i, x, hx, hlabel, haddr⟩ | ⟨hlabel, haddr⟩)
    · have hlt : i < items.length := (List.getElem?_eq_some_iff.mp hx).1
      refine ⟨i, x, ?_, hlabel, ?_⟩
      · rw [List.getElem?_append_left hlt, hx]
      · rw [addressOf_append_of_le (Nat.le_of_lt hlt), haddr]
    · exact ⟨items.length, item, List.getElem?_concat_length, hlabel,
        (addressOf_length items [item]).trans haddr⟩

theorem mem_labelDefs_iff : name ∈ labelDefs items ↔ ∃ n, DefinesAt items name n := by
  constructor
  · intro h
    obtain ⟨item, hmem, hlabel⟩ := List.mem_filterMap.mp h
    obtain ⟨i, hi⟩ := List.mem_iff_getElem?.mp hmem
    exact ⟨addressOf items i, i, item, hi, hlabel, rfl⟩
  · rintro ⟨n, i, item, hi, hlabel, -⟩
    exact List.mem_filterMap.mpr ⟨item, List.mem_of_getElem? hi, hlabel⟩

theorem DefinesAt.le_totalSize {n : Nat} (h : DefinesAt items name n) : n ≤ totalSize items := by
  obtain ⟨i, item, -, -, rfl⟩ := h
  exact addressOf_le items i

/-- A label that is defined once has one address. -/
theorem DefinesAt.unique {n n' : Nat} (hnodup : (labelDefs items).Nodup)
    (h : DefinesAt items name n) (h' : DefinesAt items name n') : n = n' := by
  induction items using List.reverseRecOn with
  | nil => exact absurd h not_definesAt_nil
  | append_singleton items item ih =>
    rw [labelDefs_concat] at hnodup
    obtain ⟨hitems, -, hdisj⟩ := List.nodup_append.mp hnodup
    -- the last line defines no label of the ones before it
    have hnew : item.label = some name → ∀ m, ¬ DefinesAt items name m := fun hlabel m hm =>
      hdisj name (mem_labelDefs_iff.mpr ⟨m, hm⟩) name (by rw [hlabel]; simp) rfl
    rcases definesAt_concat.mp h with hold | ⟨hlabel, rfl⟩
    · rcases definesAt_concat.mp h' with hold' | ⟨hlabel, -⟩
      · exact ih hitems hold hold'
      · exact absurd hold (hnew hlabel n)
    · rcases definesAt_concat.mp h' with hold' | ⟨-, rfl⟩
      · exact absurd hold' (hnew hlabel n')
      · rfl

/-! ### Errors as a function of the list -/

/-- The error of a line that comes after others, if it defines a label that has no place or is
there already. -/
def issueOf (before : List Item) (item : Item) : Option Issue :=
  item.label.bind fun name =>
    if memorySize ≤ totalSize before then some ⟨item.line, .programTooLarge (totalSize before)⟩
    else if name ∈ labelDefs before then some ⟨item.line, .duplicateLabel name⟩
    else none

/-- The errors of all lines, in line order. -/
def layoutIssues (items : List Item) : List Issue :=
  (List.range items.length).filterMap fun i => items[i]?.bind (issueOf (items.take i))

@[simp] theorem layoutIssues_nil : layoutIssues [] = [] := rfl

theorem layoutIssues_concat (items : List Item) (item : Item) :
    layoutIssues (items ++ [item]) = layoutIssues items ++ (issueOf items item).toList := by
  rw [layoutIssues, List.length_append, List.length_singleton, List.range_succ,
    List.filterMap_append]
  congr 1
  · -- the lines in front of each old line are still the same
    refine List.filterMap_congr fun i hi => ?_
    have hlt : i < items.length := List.mem_range.mp hi
    rw [List.getElem?_append_left hlt, List.take_append_of_le_length (Nat.le_of_lt hlt)]
  · -- and all of them are in front of the new one
    rw [List.filterMap_cons, List.filterMap_nil, List.getElem?_concat_length,
      List.take_append_of_le_length (Nat.le_refl _), List.take_length, Option.bind_some]
    cases issueOf items item <;> rfl

theorem issueOf_eq_none_iff :
    issueOf items item = none ↔
      ∀ name, item.label = some name → totalSize items < memorySize ∧ name ∉ labelDefs items := by
  unfold issueOf
  cases item.label with
  | none => simp
  | some name =>
    simp only [Option.bind_some, Option.some.injEq, forall_eq']
    by_cases hsize : memorySize ≤ totalSize items
    · simp [hsize, Nat.not_lt.mpr hsize]
    · by_cases hdef : name ∈ labelDefs items
      · simp [hsize, hdef]
      · simp [hsize, hdef, Nat.not_le.mp hsize]

/-- **There are no errors** when no label is defined twice and none lies behind memory. -/
theorem layoutIssues_eq_nil_iff :
    layoutIssues items = [] ↔
      (labelDefs items).Nodup ∧ ∀ name n, DefinesAt items name n → n < memorySize := by
  induction items using List.reverseRecOn with
  | nil => simp [not_definesAt_nil]
  | append_singleton items item ih =>
    rw [layoutIssues_concat, List.append_eq_nil_iff, ih, Option.toList_eq_nil_iff,
      issueOf_eq_none_iff, labelDefs_concat]
    simp only [definesAt_concat]
    cases hlabel : item.label with
    | none => simp
    | some label =>
      -- the line adds one label, with the number of words so far as its address
      simp only [Option.some.injEq, forall_eq', Option.toList_some, List.nodup_append,
        List.nodup_singleton, true_and, List.mem_singleton]
      constructor
      · rintro ⟨⟨hnodup, hplaced⟩, hsize, hnew⟩
        refine ⟨⟨hnodup, ?_⟩, ?_⟩
        · rintro a ha b rfl rfl
          exact hnew ha
        · rintro name n (hold | ⟨-, rfl⟩)
          · exact hplaced name n hold
          · exact hsize
      · rintro ⟨⟨hnodup, hnew⟩, hplaced⟩
        exact ⟨⟨hnodup, fun name n hold => hplaced name n (.inl hold)⟩,
          hplaced label _ (.inr ⟨rfl, rfl⟩), fun hmem => hnew label hmem label rfl rfl⟩

/-! ### The loop -/

namespace Layout

/-- The layout after some lines. -/
def after (items : List Item) : Layout := items.foldl add {}

@[simp] theorem after_nil : after [] = {} := rfl

theorem after_concat (items : List Item) (item : Item) :
    after (items ++ [item]) = (after items).add item := by
  rw [after, List.foldl_append]
  rfl

theorem ofItems_eq (items : List Item) :
    ofItems items
      = if memorySize < (after items).address then
          (after items).report 0 (.programTooLarge (after items).address)
        else after items := rfl

/-- The three cases of a definition: behind memory, there already, or new. -/
theorem define_eq (l : Layout) (line : Nat) (label : String) :
    l.define line label
      = if memorySize ≤ l.address then l.report line (.programTooLarge l.address)
        else if l.labels[label]?.isSome then l.report line (.duplicateLabel label)
        else { l with labels := l.labels.insert label (.ofNat l.address) } := by
  rw [define, Std.TreeMap.contains_eq_isSome_getElem?]

theorem add_of_none (l : Layout) (h : item.label = none) : l.add item = l.advance item.size := by
  rw [add, h]
  rfl

theorem add_of_some (l : Layout) (h : item.label = some name) :
    l.add item = (l.define item.line name).advance item.size := by
  rw [add, h]
  rfl

/-- The address of the next word is the number of words so far. -/
theorem address_after (items : List Item) : (after items).address = totalSize items := by
  induction items using List.reverseRecOn with
  | nil => rfl
  | append_singleton items item ih =>
    rw [after_concat, totalSize_append, totalSize_singleton, ← ih]
    cases hlabel : item.label with
    | none => rw [add_of_none _ hlabel]; rfl
    | some label =>
      rw [add_of_some _ hlabel, define_eq]
      split
      · rfl
      · split <;> rfl

/-- A label that has an address was defined there. -/
theorem exists_of_labels_after {a : Address} (h : (after items).labels[name]? = some a) :
    DefinesAt items name a.toNat := by
  induction items using List.reverseRecOn with
  | nil => simp at h
  | append_singleton items item ih =>
    rw [after_concat] at h
    rw [definesAt_concat]
    cases hlabel : item.label with
    | none =>
      rw [add_of_none _ hlabel] at h
      exact .inl (ih h)
    | some label =>
      rw [add_of_some _ hlabel, define_eq, address_after] at h
      split at h
      · exact .inl (ih h)
      · next hsize =>
        split at h
        · exact .inl (ih h)
        · simp only [advance, Std.TreeMap.getElem?_insert, Std.compare_eq_iff_eq] at h
          split at h
          · next heq =>
            -- the label has just been added, and its address fits in a word
            obtain rfl := Option.some.inj h
            exact .inr ⟨congrArg some heq,
              (toNat_ofNat_of_lt_memorySize (Nat.not_le.mp hsize)).symm⟩
          · exact .inl (ih h)

/-- A label that is defined in front of the end of memory has an address. -/
theorem labels_after_of_definesAt {n : Nat} (h : DefinesAt items name n) (hn : n < memorySize) :
    ((after items).labels[name]?).isSome := by
  induction items using List.reverseRecOn with
  | nil => exact absurd h not_definesAt_nil
  | append_singleton items item ih =>
    rw [after_concat]
    rw [definesAt_concat] at h
    cases hlabel : item.label with
    | none =>
      rw [hlabel] at h
      rw [add_of_none _ hlabel]
      exact ih (h.resolve_right fun h => nomatch h.1)
    | some label =>
      rw [add_of_some _ hlabel, define_eq, address_after]
      rcases h with hold | ⟨hnew, rfl⟩
      · -- what has been found before is kept
        split
        · exact ih hold
        · split
          · exact ih hold
          · simp only [advance, Std.TreeMap.getElem?_insert]
            split
            · rfl
            · exact ih hold
      · -- there is a place for the new label, unless it had one before
        obtain rfl := Option.some.inj (hlabel.symm.trans hnew)
        rw [if_neg (Nat.not_le.mpr hn)]
        split
        · assumption
        · simp [advance]

/-- As long as memory is not full, the labels with an address are those defined so far. -/
theorem isSome_labels_after_iff (h : totalSize items < memorySize) :
    ((after items).labels[name]?).isSome ↔ name ∈ labelDefs items := by
  rw [mem_labelDefs_iff]
  constructor
  · intro hsome
    obtain ⟨a, ha⟩ := Option.isSome_iff_exists.mp hsome
    exact ⟨_, exists_of_labels_after ha⟩
  · rintro ⟨n, hn⟩
    exact labels_after_of_definesAt hn (Nat.lt_of_le_of_lt hn.le_totalSize h)

/-- The errors kept are those of the lines, in line order. -/
theorem issues_after (items : List Item) :
    (after items).issues.toList = layoutIssues items := by
  induction items using List.reverseRecOn with
  | nil => rfl
  | append_singleton items item ih =>
    rw [after_concat, layoutIssues_concat, ← ih, issueOf]
    cases hlabel : item.label with
    | none =>
      rw [add_of_none _ hlabel]
      exact (List.append_nil _).symm
    | some label =>
      rw [add_of_some _ hlabel, define_eq, address_after, Option.bind_some]
      by_cases hsize : memorySize ≤ totalSize items
      · rw [if_pos hsize, if_pos hsize]
        exact Array.toList_push
      · -- in front of the end of memory, the table knows just the labels that are defined
        have hiff : ((after items).labels[label]?).isSome ↔ label ∈ labelDefs items :=
          isSome_labels_after_iff (Nat.not_le.mp hsize)
        rw [if_neg hsize, if_neg hsize]
        by_cases hdef : label ∈ labelDefs items
        · rw [if_pos (hiff.mpr hdef), if_pos hdef]
          exact Array.toList_push
        · rw [if_neg (mt hiff.mp hdef), if_neg hdef]
          exact (List.append_nil _).symm

/-! ### The whole pass -/

/-- The pass ends with an error for the whole program if that is too long. -/
theorem issues_ofItems (items : List Item) :
    (ofItems items).issues.toList
      = layoutIssues items
        ++ if memorySize < totalSize items then [⟨0, .programTooLarge (totalSize items)⟩]
          else [] := by
  rw [ofItems_eq, address_after, ← issues_after]
  by_cases h : memorySize < totalSize items
  · rw [if_pos h, if_pos h]
    exact Array.toList_push
  · rw [if_neg h, if_neg h, List.append_nil]

theorem labels_ofItems (items : List Item) : (ofItems items).labels = (after items).labels := by
  rw [ofItems_eq]
  split <;> rfl

end Layout

end Hindsight
