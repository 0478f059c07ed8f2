/-!
# Finite maps in key order

A `SortedMap κ α` is a list of entries in strictly ascending key order.  The order
makes the representation canonical: two maps with the same look-ups are equal, so
maps can be compared, and listing one gives its entries in key order.

## Main definitions

* `SortedMap κ α` — the maps, with `SortedMap.entries` as their view.
* `SortedMap.find?` — look-up.
* `SortedMap.insertNew` — adds an entry unless its key is present.
* `SortedMap.ofEntries` — the map of a list of entries, the last of several for one
  key winning.

## Main statements

* `SortedMap.find?_insertNew`, `SortedMap.find?_ofEntries_cons` — look-up equations.
* `SortedMap.ext_find?` — equal look-ups make equal maps.
* `SortedMap.entries_ofEntries`, `SortedMap.size_ofEntries_le` — the entries that a list gives.
* `SortedMap.mem_entries_iff`, `SortedMap.mem_keys_iff` — entries and keys as look-ups.
* `SortedMap.find?_eq_ite_iff` — a map that lists where a function changes.
-/

namespace Hindsight

universe u v

/-- A finite map, kept as its entries in strictly ascending key order. -/
structure SortedMap (κ : Type u) (α : Type v) [LT κ] where
  /-- The entries, in ascending key order. -/
  entries : List (κ × α)
  /-- No key repeats and the keys ascend. -/
  ascending : entries.Pairwise fun x y => x.1 < y.1
  deriving DecidableEq

namespace SortedMap

variable {κ : Type u} {α : Type v}

section Basic

variable [LT κ]

@[ext] theorem ext {m n : SortedMap κ α} (h : m.entries = n.entries) : m = n := by
  cases m; cases n; cases h; rfl

/-- The map without entries. -/
def empty : SortedMap κ α := ⟨[], .nil⟩

instance : EmptyCollection (SortedMap κ α) := ⟨empty⟩

instance : Inhabited (SortedMap κ α) := ⟨empty⟩

/-- The number of entries. -/
def size (m : SortedMap κ α) : Nat := m.entries.length

/-- The value at a key. -/
def find? [DecidableEq κ] (m : SortedMap κ α) (k : κ) : Option α := m.entries.lookup k

/-- The keys, in ascending order. -/
def keys (m : SortedMap κ α) : List κ := m.entries.map (·.1)

@[simp] theorem entries_empty : (empty : SortedMap κ α).entries = [] := rfl

@[simp] theorem find?_empty [DecidableEq κ] (k : κ) : (empty : SortedMap κ α).find? k = none := rfl

end Basic

/-! ### Insertion -/

section Insertion

variable [LE κ] [LT κ] [DecidableLT κ] [Std.IsLinearOrder κ] [Std.LawfulOrderLT κ]

/-- Puts `(k, a)` in its place in an ascending list, unless `k` is there already. -/
def insertEntry (k : κ) (a : α) : List (κ × α) → List (κ × α)
  | [] => [(k, a)]
  | (k', a') :: rest =>
    if k < k' then (k, a) :: (k', a') :: rest
    else if k' < k then (k', a') :: insertEntry k a rest
    else (k', a') :: rest

omit [LE κ] [Std.IsLinearOrder κ] [Std.LawfulOrderLT κ] in
theorem mem_insertEntry {k : κ} {a : α} {x : κ × α} {l : List (κ × α)} :
    x ∈ insertEntry k a l → x = (k, a) ∨ x ∈ l := by
  induction l with
  | nil => simp [insertEntry]
  | cons e rest ih =>
    obtain ⟨k', a'⟩ := e
    rw [insertEntry]
    split
    · simp
    · split
      · simp only [List.mem_cons]
        rintro (h | h)
        · exact .inr (.inl h)
        · exact (ih h).imp id .inr
      · simp only [List.mem_cons]
        exact .inr

theorem pairwise_insertEntry (k : κ) (a : α) {l : List (κ × α)}
    (h : l.Pairwise fun x y => x.1 < y.1) :
    (insertEntry k a l).Pairwise fun x y => x.1 < y.1 := by
  induction l with
  | nil => simp [insertEntry]
  | cons e rest ih =>
    obtain ⟨k', a'⟩ := e
    obtain ⟨hhead, htail⟩ := List.pairwise_cons.1 h
    rw [insertEntry]
    split
    · next hlt =>
      refine List.pairwise_cons.2 ⟨fun y hy => ?_, h⟩
      rcases List.mem_cons.1 hy with rfl | hy
      · exact hlt
      · exact Std.lt_trans hlt (hhead y hy)
    · split
      · next hgt =>
        refine List.pairwise_cons.2 ⟨fun y hy => ?_, ih htail⟩
        rcases mem_insertEntry hy with rfl | hy
        · exact hgt
        · exact hhead y hy
      · exact h

/-- Adds the entry `(k, a)`, unless there is one for `k` already. -/
def insertNew (m : SortedMap κ α) (k : κ) (a : α) : SortedMap κ α :=
  ⟨insertEntry k a m.entries, pairwise_insertEntry k a m.ascending⟩

/-- The map of a list of entries.  Of several entries for one key the last one wins. -/
def ofEntries (l : List (κ × α)) : SortedMap κ α :=
  l.foldr (fun e m => m.insertNew e.1 e.2) empty

omit [LE κ] [Std.IsLinearOrder κ] [Std.LawfulOrderLT κ] in
theorem length_insertEntry_le (k : κ) (a : α) (l : List (κ × α)) :
    (insertEntry k a l).length ≤ l.length + 1 := by
  induction l with
  | nil => exact Nat.le_refl 1
  | cons e rest ih =>
    rw [insertEntry]
    split
    · exact Nat.le_refl _
    · split
      · exact Nat.succ_le_succ ih
      · exact Nat.le_succ _

omit [LE κ] [Std.IsLinearOrder κ] [Std.LawfulOrderLT κ] in
/-- An entry in front of all others is put there. -/
theorem insertEntry_of_lt {k : κ} {a : α} {l : List (κ × α)} (h : ∀ x ∈ l, k < x.1) :
    insertEntry k a l = (k, a) :: l := by
  cases l with
  | nil => rfl
  | cons e rest => exact if_pos (h e List.mem_cons_self)

@[simp] theorem ofEntries_nil : ofEntries ([] : List (κ × α)) = empty := rfl

@[simp] theorem ofEntries_cons (e : κ × α) (l : List (κ × α)) :
    ofEntries (e :: l) = (ofEntries l).insertNew e.1 e.2 := rfl

/-- A map that is made from a list has at most as many entries as the list. -/
theorem size_ofEntries_le (l : List (κ × α)) : (ofEntries l).size ≤ l.length := by
  induction l with
  | nil => exact Nat.le_refl 0
  | cons e rest ih =>
    exact Nat.le_trans (length_insertEntry_le e.1 e.2 _) (Nat.succ_le_succ ih)

/-- A list of ascending entries is that of its map. -/
theorem entries_ofEntries {l : List (κ × α)} (h : l.Pairwise fun x y => x.1 < y.1) :
    (ofEntries l).entries = l := by
  induction l with
  | nil => rfl
  | cons e rest ih =>
    obtain ⟨hhead, htail⟩ := List.pairwise_cons.mp h
    have hinsert : (ofEntries (e :: rest)).entries
        = insertEntry e.1 e.2 (ofEntries rest).entries := rfl
    rw [hinsert, ih htail, insertEntry_of_lt hhead]

end Insertion

/-! ### Look-up equations -/

section Lookup

variable [DecidableEq κ]

theorem lookup_cons_ite (q : κ) (e : κ × α) (l : List (κ × α)) :
    (e :: l).lookup q = if q = e.1 then some e.2 else l.lookup q := by
  obtain ⟨k, a⟩ := e
  rw [List.lookup_cons]
  by_cases h : q = k
  · simp [h]
  · simp [h, beq_eq_false_iff_ne.2 h]

variable [LE κ] [LT κ] [Std.IsLinearOrder κ] [Std.LawfulOrderLT κ]

omit [Std.IsLinearOrder κ] in
theorem lookup_eq_none_of_lt {k : κ} {l : List (κ × α)} (h : ∀ x ∈ l, k < x.1) :
    l.lookup k = none := by
  induction l with
  | nil => rfl
  | cons e rest ih =>
    rw [lookup_cons_ite, if_neg, ih fun x hx => h x (List.mem_cons_of_mem _ hx)]
    exact fun he => Std.lt_irrefl (he ▸ h e List.mem_cons_self : e.1 < e.1)

/-- A key below the first of an ascending list is not in it. -/
theorem lookup_eq_none_of_lt_head {k : κ} {e : κ × α} {l : List (κ × α)} (hlt : k < e.1)
    (h : (e :: l).Pairwise fun x y => x.1 < y.1) : (e :: l).lookup k = none :=
  lookup_eq_none_of_lt fun x hx => by
    rcases List.mem_cons.1 hx with rfl | hx
    · exact hlt
    · exact Std.lt_trans hlt ((List.pairwise_cons.1 h).1 x hx)

theorem lookup_insertEntry [DecidableLT κ] (k q : κ) (a : α) {l : List (κ × α)}
    (h : l.Pairwise fun x y => x.1 < y.1) :
    (insertEntry k a l).lookup q =
      if q = k then some ((l.lookup k).getD a) else l.lookup q := by
  induction l with
  | nil => simp [insertEntry, lookup_cons_ite]
  | cons e rest ih =>
    obtain ⟨k', a'⟩ := e
    rw [insertEntry]
    split
    · next hlt => rw [lookup_eq_none_of_lt_head hlt h, lookup_cons_ite]; rfl
    · split
      · next hgt =>
        -- the entry goes somewhere behind the first one, which has another key
        have hne : k ≠ k' := fun he => Std.lt_irrefl (he ▸ hgt : k' < k')
        rw [lookup_cons_ite, ih (List.pairwise_cons.1 h).2]
        by_cases hq : q = k
        · simp [hq, hne, lookup_cons_ite]
        · simp [hq, lookup_cons_ite]
      · next hlt hgt =>
        -- the key is there already, and keeps its value
        obtain rfl : k = k' := Std.le_antisymm (Std.not_lt.1 hgt) (Std.not_lt.1 hlt)
        by_cases hq : q = k <;> simp [hq, lookup_cons_ite]

theorem find?_insertNew [DecidableLT κ] (m : SortedMap κ α) (k q : κ) (a : α) :
    (m.insertNew k a).find? q = if q = k then some ((m.find? k).getD a) else m.find? q :=
  lookup_insertEntry k q a m.ascending

/-- A later entry for the same key wins over the first one. -/
theorem find?_ofEntries_cons [DecidableLT κ] (e : κ × α) (l : List (κ × α)) (q : κ) :
    (ofEntries (e :: l)).find? q =
      if q = e.1 then some (((ofEntries l).find? e.1).getD e.2) else (ofEntries l).find? q :=
  find?_insertNew _ _ _ _

/-- When every listed value is given by its key, look-up asks only whether the key is listed. -/
theorem find?_ofEntries_of_forall [DecidableLT κ] {f : κ → α} {l : List (κ × α)}
    (h : ∀ e ∈ l, e.2 = f e.1) (q : κ) :
    (ofEntries l).find? q = if q ∈ l.map (·.1) then some (f q) else none := by
  induction l with
  | nil => simp
  | cons e rest ih =>
    have ih := ih fun x hx => h x (List.mem_cons_of_mem _ hx)
    rw [find?_ofEntries_cons, h e List.mem_cons_self, List.map_cons]
    by_cases hq : q = e.1
    · subst hq
      rw [if_pos rfl, if_pos List.mem_cons_self, ih]
      split <;> rfl
    · rw [if_neg hq, ih]
      exact ite_congr (by simp [hq]) (fun _ => rfl) fun _ => rfl

/-- Maps with the same look-ups are equal. -/
theorem ext_find? {m n : SortedMap κ α} (h : ∀ k, m.find? k = n.find? k) : m = n := by
  obtain ⟨l, hl⟩ := m
  obtain ⟨l', hl'⟩ := n
  suffices l = l' by subst this; rfl
  replace h : ∀ k, l.lookup k = l'.lookup k := h
  induction l generalizing l' with
  | nil =>
    cases l' with
    | nil => rfl
    | cons e' rest' => simpa [lookup_cons_ite] using h e'.1
  | cons e rest ih =>
    cases l' with
    | nil => simpa [lookup_cons_ite] using h e.1
    | cons e' rest' =>
      -- the smaller one of two first keys would be found in one of the lists only
      have hkey : e.1 = e'.1 := by
        refine Std.le_antisymm (Std.not_lt.1 fun hlt => ?_) (Std.not_lt.1 fun hlt => ?_)
        · simpa [lookup_eq_none_of_lt_head hlt hl, lookup_cons_ite] using h e'.1
        · simpa [lookup_eq_none_of_lt_head hlt hl', lookup_cons_ite] using h e.1
      have hval : e.2 = e'.2 := by simpa [lookup_cons_ite, hkey] using h e.1
      obtain rfl : e = e' := Prod.ext hkey hval
      obtain ⟨hhead, htail⟩ := List.pairwise_cons.1 hl
      obtain ⟨hhead', htail'⟩ := List.pairwise_cons.1 hl'
      refine congrArg _ (ih htail rest' htail' fun q => ?_)
      by_cases hq : q = e.1
      · rw [hq, lookup_eq_none_of_lt hhead, lookup_eq_none_of_lt hhead']
      · simpa [lookup_cons_ite, hq] using h q

end Lookup

/-! ### Keys and entries -/

section Entries

variable [DecidableEq κ] [LE κ] [LT κ] [Std.LawfulOrderLT κ]

theorem lookup_eq_some_iff_mem {l : List (κ × α)} (h : l.Pairwise fun x y => x.1 < y.1) {k : κ}
    {a : α} : l.lookup k = some a ↔ (k, a) ∈ l := by
  induction l with
  | nil => simp
  | cons e rest ih =>
    obtain ⟨hhead, htail⟩ := List.pairwise_cons.mp h
    rw [lookup_cons_ite, List.mem_cons, Prod.ext_iff]
    by_cases hk : k = e.1
    · subst hk
      -- the keys behind the first one are greater
      have hrest : (e.1, a) ∉ rest := fun hmem => Std.lt_irrefl (hhead (e.1, a) hmem)
      simp [hrest, eq_comm]
    · simp [hk, ih htail]

/-- The entries are what look-up finds. -/
theorem mem_entries_iff {m : SortedMap κ α} {k : κ} {a : α} :
    (k, a) ∈ m.entries ↔ m.find? k = some a :=
  (lookup_eq_some_iff_mem m.ascending).symm

/-- The keys are those at which look-up finds something. -/
theorem mem_keys_iff {m : SortedMap κ α} {k : κ} : k ∈ m.keys ↔ ∃ a, m.find? k = some a := by
  simp only [keys, List.mem_map, Prod.exists, exists_and_right, exists_eq_right, mem_entries_iff]

/-- A map lists the keys at which a function changes, with its later values, if look-up finds
just these. -/
theorem find?_eq_ite_iff [DecidableEq α] {m : SortedMap κ α} {f g : κ → α} :
    (∀ k, m.find? k = if f k = g k then none else some (g k)) ↔
      (∀ k, k ∈ m.keys ↔ f k ≠ g k) ∧ ∀ e ∈ m.entries, e.2 = g e.1 := by
  constructor
  · intro h
    refine ⟨fun k => ?_, fun e he => ?_⟩
    · rw [mem_keys_iff, h]
      by_cases hk : f k = g k <;> simp [hk]
    · have hfind : m.find? e.1 = some e.2 := mem_entries_iff.mp he
      rw [h] at hfind
      split at hfind
      · cases hfind
      · exact (Option.some.inj hfind).symm
  · rintro ⟨hkeys, hentries⟩ k
    by_cases hk : f k = g k
    · rw [if_pos hk, Option.eq_none_iff_forall_ne_some]
      exact fun a ha => (hkeys k).mp (mem_keys_iff.mpr ⟨a, ha⟩) hk
    · obtain ⟨a, ha⟩ := mem_keys_iff.mp ((hkeys k).mpr hk)
      have hvalue : a = g k := hentries (k, a) (mem_entries_iff.mpr ha)
      rw [if_neg hk, ha, hvalue]

end Entries

end SortedMap

end Hindsight
