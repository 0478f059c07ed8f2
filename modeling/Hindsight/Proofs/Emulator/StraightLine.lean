import Hindsight.Proofs.Assembly.LineMap
import Hindsight.Proofs.Assembly.Printing
import Hindsight.Proofs.Emulator.History

/-!
# Straight-line programs run to their end

A straight-line program is a list of instructions that neither jump nor can fault, a halt, and
lines of data behind it, whose labels are the only addresses that are stored to.  It is followed
from its lines to the end of its run: the lines read and are well-formed, the words of a line are
found again by the fetch, the program counter goes through the addresses of the lines one after
the other, and as no store reaches a word in front of the data, the code stays what it was.

## Main definitions

* `Statement.IsStraight` — the instructions of a straight-line program.
* `StraightLine` — a straight-line program.
* `StraightLine.Stands` — the machine in front of an instruction of the program.

## Main results

* `StraightLine.wellFormed` — there is nothing wrong with a straight-line program.
* `Program.IsImage.fetch?_eq_some` — as long as the code is in memory, the fetch finds it.
* `StraightLine.exists_step`, `StraightLine.stands_machineAfter` — one step, and all of them.
* `StraightLine.runs_to_halt` — **a straight-line program runs to its end.**
-/

namespace Hindsight

/-! ### Straight-line programs -/

/-- An instruction that computes, or moves a word between a register and a labelled address. -/
inductive Statement.IsStraight (labels : List String) : Statement → Prop
  | compute (op : RegisterOp) (hop : op ∈ [.add, .sub, .mul, .and, .or, .xor]) (d a b : Reg) :
    IsStraight labels (.register op d a b)
  | compare (a b : Reg) : IsStraight labels (.register .cmp 0 a b)
  /-- An address, or any other word that is given. -/
  | address (d : Reg) (v : Value) (hv : ∀ name, v = .label name → name ∈ labels) :
    IsStraight labels (.memory .lea d v 0)
  | load (d : Reg) (name : String) (hname : name ∈ labels) :
    IsStraight labels (.memory .load d (.label name) 0)
  | store (d : Reg) (name : String) (hname : name ∈ labels) :
    IsStraight labels (.memory .store d (.label name) 0)

theorem Statement.IsStraight.size_pos {labels : List String} {statement : Statement}
    (h : statement.IsStraight labels) : 0 < statement.size := by
  cases h with
  | compute op hop d a b => exact Nat.one_pos
  | compare a b => exact Nat.one_pos
  | address d v hv => exact Nat.two_pos
  | load d name hname => exact Nat.two_pos
  | store d name hname => exact Nat.two_pos

/-- Instructions in a straight line, with a halt and words of data behind them. -/
structure StraightLine where
  /-- The instructions in front of the halt. -/
  body : List Statement
  /-- The lines of data, a label and a word each. -/
  data : List (String × Value)
  data_ne_nil : data ≠ []
  labels_nodup : (data.map Prod.fst).Nodup
  /-- Labels are names, and not in the shape of a register. -/
  isName : ∀ name ∈ data.map Prod.fst, IsName name.toList ∧ ¬ IsRegister name.toList
  isStraight : ∀ s ∈ body, s.IsStraight (data.map Prod.fst)
  /-- A label among the data is one of the data. -/
  resolved : ∀ x ∈ data, ∀ name, x.2 = .label name → name ∈ data.map Prod.fst
  fits : (body.map Statement.size).sum + 1 + data.length ≤ memorySize

namespace StraightLine

/-- The line that halts. -/
def halt : Statement := .register .trap 0 0 0

variable (s : StraightLine)

/-- The labels of the data. -/
def labels : List String := s.data.map Prod.fst

/-- The lines of the program. -/
def lines : List (Option String × Statement) :=
  s.body.map (none, ·) ++ (none, halt) :: s.data.map fun x => (some x.1, .data [x.2])

/-- The lines of the program, read. -/
def items : List Item := writtenItems s.lines

/-- The number of words in front of the data. -/
def codeSize : Nat := addressOf s.items (s.body.length + 1)

variable {s} {k : Nat}

/-- A line is an instruction, the halt, or data. -/
theorem getElem?_lines_of_lt (hk : k < s.body.length) :
    ∃ statement ∈ s.body, s.lines[k]? = some (none, statement) := by
  refine ⟨s.body[k], List.getElem_mem hk, ?_⟩
  rw [lines, List.getElem?_append_left (by rw [List.length_map]; exact hk), List.getElem?_map,
    List.getElem?_eq_getElem hk]
  rfl

theorem getElem?_lines_length : s.lines[s.body.length]? = some (none, halt) := by
  rw [lines, List.getElem?_append_right (by rw [List.length_map]), List.length_map, Nat.sub_self]
  rfl

theorem getElem?_items {x : Option String × Statement} (h : s.lines[k]? = some x) :
    s.items[k]? = some ⟨k + 1, x.1, some x.2⟩ := by
  rw [items, getElem?_writtenItems, h]
  rfl

theorem exists_of_mem_lines {x : Option String × Statement} (h : x ∈ s.lines) :
    (x.1 = none ∧ x.2.IsStraight s.labels) ∨ x = (none, halt) ∨
      ∃ y ∈ s.data, x = (some y.1, .data [y.2]) := by
  rw [lines, List.mem_append, List.mem_cons, List.mem_map, List.mem_map] at h
  rcases h with ⟨statement, hmem, rfl⟩ | rfl | ⟨y, hy, rfl⟩
  · exact .inl ⟨rfl, s.isStraight statement hmem⟩
  · exact .inr (.inl rfl)
  · exact .inr (.inr ⟨y, hy, rfl⟩)

/-- Only the lines behind the halt have labels. -/
theorem lt_of_label {name : String} {item : Item} (hitem : s.items[k]? = some item)
    (hlabel : item.label = some name) : s.body.length + 1 ≤ k := by
  rcases Nat.lt_trichotomy k s.body.length with hlt | rfl | hgt
  · obtain ⟨statement, -, hline⟩ := getElem?_lines_of_lt hlt
    rw [getElem?_items hline] at hitem
    obtain rfl := Option.some.inj hitem
    cases hlabel
  · rw [getElem?_items getElem?_lines_length] at hitem
    obtain rfl := Option.some.inj hitem
    cases hlabel
  · exact hgt

/-! ### Assembling -/

/-- Every line can be written. -/
theorem printable : ∀ x ∈ s.lines, (∀ name ∈ x.1, IsName name.toList) ∧ x.2.Printable := by
  have hnamed : ∀ v : Value, (∀ name, v = .label name → name ∈ s.labels) →
      v.IsNamed ∧ v.StandsAlone := by
    intro v hv
    exact ⟨fun name h => (s.isName name (hv name h)).1, fun name h => (s.isName name (hv name h)).2⟩
  intro x hx
  rcases exists_of_mem_lines hx with ⟨hlabel, hstraight⟩ | rfl | ⟨y, hy, rfl⟩
  · -- a line of the body has no label, and its operands are registers or labels of the data
    refine ⟨fun name hname => ?_, ?_⟩
    · rw [hlabel] at hname
      cases hname
    · generalize x.2 = statement at hstraight
      cases hstraight with
      | compute op hop d a b =>
        refine .inl ?_
        simp only [List.mem_cons, List.not_mem_nil, or_false] at hop
        rcases hop with rfl | rfl | rfl | rfl | rfl | rfl <;> rfl
      | compare a b => exact .inr rfl
      | address d v hv => exact ⟨.inl rfl, (hnamed v hv).1⟩
      | load d name hname =>
        exact ⟨.inl rfl, fun name' h => (s.isName name' (Value.label.inj h ▸ hname)).1⟩
      | store d name hname =>
        exact ⟨.inl rfl, fun name' h => (s.isName name' (Value.label.inj h ▸ hname)).1⟩
  · refine ⟨fun name hname => ?_, .inl rfl⟩
    cases hname
  · -- a line of the data is named by its own label
    have hmem : y.1 ∈ s.data.map Prod.fst := List.mem_map_of_mem hy
    refine ⟨fun name hname => ?_, List.cons_ne_nil _ _, fun v hv => ?_⟩
    · obtain rfl := Option.some.inj hname
      exact (s.isName _ hmem).1
    · obtain rfl := List.mem_singleton.mp hv
      exact hnamed y.2 (s.resolved y hy)

theorem totalSize_items :
    totalSize s.items = (s.body.map Statement.size).sum + 1 + s.data.length := by
  have hdata : (s.data.map fun x => (Statement.data [x.2]).size).sum = s.data.length := by
    rw [show (fun x : String × Value => (Statement.data [x.2]).size) = fun _ => 1 from rfl]
    simp
  rw [items, totalSize_writtenItems, lines, List.map_append, List.map_cons, List.map_map,
    List.map_map, List.sum_append, List.sum_cons, Nat.add_assoc]
  exact congrArg (_ + ·) (congrArg (1 + ·) hdata)

theorem labelDefs_items : labelDefs s.items = s.labels := by
  rw [items, labelDefs_writtenItems, lines, List.filterMap_append, List.filterMap_map,
    List.filterMap_cons_none rfl, List.filterMap_map, labels]
  simp

/-- The labels that a straight instruction uses are those of the data. -/
theorem mem_of_mem_references {labels : List String} {statement : Statement} {name : String}
    (h : statement.IsStraight labels) (hname : name ∈ statement.references) : name ∈ labels := by
  cases h with
  | compute op hop d a b => cases hname
  | compare a b => cases hname
  | address d v hv =>
    cases v with
    | literal w => cases hname
    | label name' =>
      obtain rfl := List.mem_singleton.mp hname
      exact hv name rfl
  | load d name' hname' =>
    obtain rfl := List.mem_singleton.mp hname
    exact hname'
  | store d name' hname' =>
    obtain rfl := List.mem_singleton.mp hname
    exact hname'

/-- Whatever label a line uses is one of the data. -/
theorem mem_labels_of_mem_references {x : Option String × Statement} (hx : x ∈ s.lines)
    {name : String} (hname : name ∈ x.2.references) : name ∈ s.labels := by
  rcases exists_of_mem_lines hx with ⟨-, hstraight⟩ | rfl | ⟨y, hy, rfl⟩
  · exact mem_of_mem_references hstraight hname
  · cases hname
  · obtain ⟨v, hv, hreference⟩ := List.mem_filterMap.mp hname
    obtain rfl := List.mem_singleton.mp hv
    refine s.resolved y hy name ?_
    cases hvalue : y.2 with
    | literal w =>
      rw [hvalue] at hreference
      cases hreference
    | label name' =>
      rw [hvalue] at hreference
      exact congrArg Value.label (Option.some.inj hreference)

/-- **There is nothing wrong with a straight-line program.** -/
theorem wellFormed (s : StraightLine) : WellFormed s.items := by
  have hfits : totalSize s.items ≤ memorySize := totalSize_items ▸ s.fits
  have hline : ∀ item ∈ s.items, ∃ x ∈ s.lines, item.label = x.1 ∧ item.statement = some x.2 := by
    intro item hitem
    obtain ⟨⟨x, line⟩, hx, rfl⟩ := List.mem_map.mp hitem
    exact ⟨x, List.fst_mem_of_mem_zipIdx hx, rfl, rfl⟩
  refine ⟨labelDefs_items ▸ s.labels_nodup, fun k item hitem hlabel => ?_, hfits,
    fun item hitem name hname => ?_⟩
  · obtain ⟨x, hx, hlabel', hstatement⟩ := hline item (List.mem_of_getElem? hitem)
    rcases exists_of_mem_lines hx with ⟨hnone, -⟩ | rfl | ⟨y, hy, rfl⟩
    · rw [hlabel', hnone] at hlabel
      cases hlabel
    · rw [hlabel'] at hlabel
      cases hlabel
    · -- a line of data has a word of its own
      have hsize : item.size = 1 := by rw [Item.size, hstatement]; rfl
      have hnext := addressOf_succ hitem
      have hle := addressOf_le s.items (k + 1)
      omega
  · obtain ⟨x, hx, -, hstatement⟩ := hline item hitem
    rw [Item.references, hstatement, Option.elim_some] at hname
    rw [labelDefs_items]
    exact mem_labels_of_mem_references hx hname

end StraightLine

/-! ### Fetching -/

/-- The words of a line are those of the program from its address on. -/
theorem Program.IsImage.getElem?_words {p : Program} {items : List Item} (h : p.IsImage items)
    {k j : Nat} {item : Item} (hitem : items[k]? = some item) (hj : j < item.size) :
    p.words[addressOf items k + j]? = (item.image p.address)[j]? := by
  rw [h.words_eq]
  exact getElem?_flatMap_of_size (Item.length_image p.address) hitem hj

/-- **As long as a line is in memory, the fetch finds it**: at the address of the line, the
instruction that its statement emits is decoded. -/
theorem Program.IsImage.fetch?_eq_some {p : Program} {items : List Item} (h : p.IsImage items)
    {k : Nat} {item : Item} (hitem : items[k]? = some item) {i : Instruction} (hi : i.Narrow)
    (himage : item.image p.address = i.encode) {m : Machine}
    (hpc : m.pc.toNat = addressOf items k)
    (hcode : ∀ a : Address, a.toNat < addressOf items (k + 1) →
      m.mem a = (Machine.loaded p.words).mem a) :
    Instruction.fetch? m m.pc = some i := by
  have hsize : item.size = i.opcode.size := by
    rw [← Item.length_image p.address, himage, Instruction.length_encode]
  have hnext : addressOf items (k + 1) = addressOf items k + i.opcode.size := by
    rw [addressOf_succ hitem, hsize]
  have hword : ∀ (j : Nat) (a : Address), j < i.opcode.size → a.toNat = addressOf items k + j →
      i.encode[j]? = some (m.mem a) := by
    intro j a hj ha
    have hget : p.words[a.toNat]? = i.encode[j]? := by
      rw [ha, h.getElem?_words hitem (hsize ▸ hj), himage]
    obtain ⟨w, hw⟩ : ∃ w, i.encode[j]? = some w :=
      ⟨_, List.getElem?_eq_getElem (by rw [Instruction.length_encode]; exact hj)⟩
    rw [hcode a (by omega), Machine.mem_loaded, hget, hw]
    rfl
  rw [Instruction.fetch?, Instruction.decode_eq_some_iff]
  refine ⟨hi, ?_⟩
  cases i with
  | register op d a b =>
    have hfirst := hword 0 m.pc Nat.one_pos hpc
    exact congrArg (fun w => [w]) (Option.some.inj hfirst)
  | memory op d a disp =>
    -- the second word does not lie at the other end of memory
    have hfits : m.pc.toNat + 1 < 65536 := by
      have hle := addressOf_le items (k + 1)
      have hlength := h.length_words
      have hmemory := h.length_words_le
      rw [memorySize_eq] at hmemory
      replace hnext : addressOf items (k + 1) = addressOf items k + 2 := hnext
      omega
    have hbehind : (m.pc + 1).toNat = addressOf items k + 1 := by
      rw [UInt16.toNat_add, ← hpc]
      exact Nat.mod_eq_of_lt hfits
    have hfirst := hword 0 m.pc Nat.two_pos hpc
    have hsecond := hword 1 (m.pc + 1) Nat.one_lt_two hbehind
    exact congrArg₂ (fun w n => [w, n]) (Option.some.inj hfirst) (Option.some.inj hsecond)

/-! ### Effects -/

/-- An effect after which execution goes on with the next instruction.  What it stores, it stores at
one of some addresses. -/
structure Effect.GoesOn (effect : Effect) (p : Processor) (stores : Address → Prop) : Prop where
  pc_eq : effect.after.pc = p.pc
  halted_eq : effect.after.halted = p.halted
  blocked_eq : effect.after.blocked = p.blocked
  stores : ∀ a w, effect.store = some (a, w) → stores a

/-- **A straight instruction goes on**, whatever the registers and the input are, and stores at
labels only. -/
theorem Statement.IsStraight.exists_effect {labels : List String} {statement : Statement}
    (h : statement.IsStraight labels) (address : String → Address) :
    ∃ i : Instruction, i.Narrow ∧ statement.image address = i.encode ∧
      ∀ (m : Machine) (p : Processor) (input : Option Word),
        ∃ effect, i.effect m p input = .ok effect ∧
          effect.GoesOn p fun a => ∃ name ∈ labels, a = address name := by
  have hlt := toNat_regField_lt
  cases h with
  | compute op hop d a b =>
    refine ⟨.register op (regField d) (regField a) (regField b), ⟨hlt d, hlt a, hlt b⟩, rfl,
      fun m p input => ?_⟩
    simp only [List.mem_cons, List.not_mem_nil, or_false] at hop
    rcases hop with rfl | rfl | rfl | rfl | rfl | rfl <;>
      exact ⟨_, rfl, rfl, rfl, rfl, fun a w hstore => nomatch hstore⟩
  | compare a b =>
    refine ⟨.register .cmp (regField 0) (regField a) (regField b), ⟨hlt 0, hlt a, hlt b⟩, rfl,
      fun m p input => ?_⟩
    exact ⟨_, rfl, rfl, rfl, rfl, fun a w hstore => nomatch hstore⟩
  | address d v hv =>
    refine ⟨.memory .lea (regField d) (regField 0) (v.word address), ⟨hlt d, hlt 0⟩, rfl,
      fun m p input => ?_⟩
    exact ⟨_, rfl, rfl, rfl, rfl, fun a w hstore => nomatch hstore⟩
  | load d name hname =>
    refine ⟨.memory .load (regField d) (regField 0) (address name), ⟨hlt d, hlt 0⟩, rfl,
      fun m p input => ?_⟩
    exact ⟨_, rfl, rfl, rfl, rfl, fun a w hstore => nomatch hstore⟩
  | store d name hname =>
    refine ⟨.memory .store (regField d) (regField 0) (address name), ⟨hlt d, hlt 0⟩, rfl,
      fun m p input => ?_⟩
    refine ⟨_, rfl, rfl, rfl, rfl, fun a w hstore => ⟨name, hname, ?_⟩⟩
    -- `R0` adds nothing to the label
    have haddress : a = address name + m.operand (fieldReg (regField 0)) :=
      (congrArg Prod.fst (Option.some.inj hstore)).symm
    rw [haddress, fieldReg_regField, Machine.operand_zero, UInt16.add_zero]

/-! ### The run -/

namespace StraightLine

open Emulator

variable {s : StraightLine} {p : Program} {k : Nat} {m : Machine}

/-- The machine stands in front of an instruction of the program, and the code is what it was. -/
structure Stands (s : StraightLine) (p : Program) (k : Nat) (m : Machine) : Prop where
  pc_eq : m.pc.toNat = addressOf s.items k
  goes_on : isHalted m = false
  code_eq : ∀ a : Address, a.toNat < s.codeSize → m.mem a = (Machine.loaded p.words).mem a

/-- The code is in front of the data, and the data are not empty. -/
theorem codeSize_lt (s : StraightLine) : s.codeSize < memorySize := by
  have hdata : 0 < s.data.length := List.length_pos_of_ne_nil s.data_ne_nil
  obtain ⟨x, hx⟩ : ∃ x, s.data[0]? = some x := ⟨_, List.getElem?_eq_getElem hdata⟩
  have hline : s.lines[s.body.length + 1]? = some (some x.1, .data [x.2]) := by
    rw [lines, List.getElem?_append_right (by rw [List.length_map]; omega), List.length_map,
      Nat.add_sub_cancel_left, List.getElem?_cons_succ, List.getElem?_map, hx]
    rfl
  have hnext : addressOf s.items (s.body.length + 1 + 1) = s.codeSize + 1 :=
    addressOf_succ (getElem?_items hline)
  have hle := addressOf_le s.items (s.body.length + 1 + 1)
  have hfits := s.wellFormed.fits
  omega

/-- No label is in the code. -/
theorem codeSize_le_address (himage : p.IsImage s.items) {name : String} (h : name ∈ s.labels) :
    s.codeSize ≤ (p.address name).toNat := by
  have hmem : name ∈ labelDefs s.items := labelDefs_items ▸ h
  obtain ⟨n, i, item, hitem, hlabel, rfl⟩ := mem_labelDefs_iff.mp hmem
  have hlt : addressOf s.items i < memorySize :=
    s.wellFormed.placed i item hitem (by rw [hlabel]; rfl)
  have haddress : p.label? name = some (.ofNat (addressOf s.items i)) :=
    (himage.label?_eq_some_iff name _).mpr
      ⟨i, item, hitem, hlabel, (toNat_ofNat_of_lt_memorySize hlt).symm⟩
  rw [Program.address, haddress, Option.getD_some, toNat_ofNat_of_lt_memorySize hlt]
  exact addressOf_mono s.items (lt_of_label hitem hlabel)

/-- The lines up to the halt are code. -/
theorem addressOf_succ_le_codeSize (hk : k ≤ s.body.length) :
    addressOf s.items (k + 1) ≤ s.codeSize :=
  addressOf_mono s.items (Nat.succ_le_succ hk)

/-- The fetch finds the line that the machine stands in front of. -/
theorem Stands.fetch?_eq_some (h : s.Stands p k m) (himage : p.IsImage s.items)
    (hk : k ≤ s.body.length) {item : Item} (hitem : s.items[k]? = some item) {i : Instruction}
    (hi : i.Narrow) (hencode : item.image p.address = i.encode) :
    Instruction.fetch? m m.pc = some i :=
  himage.fetch?_eq_some hitem hi hencode h.pc_eq fun a ha =>
    h.code_eq a (Nat.lt_of_lt_of_le ha (addressOf_succ_le_codeSize hk))

/-- An effect that goes on leads in front of the next line. -/
theorem Stands.apply (h : s.Stands p k m) (himage : p.IsImage s.items) (hk : k ≤ s.body.length)
    {item : Item} (hitem : s.items[k]? = some item) {effect : Effect}
    (heffect : effect.GoesOn (fetched m item.size) fun a => ∃ name ∈ s.labels, a = p.address name) :
    s.Stands p (k + 1) ((counted effect).apply m) where
  pc_eq := by
    have hnext := addressOf_succ hitem
    have hle := addressOf_succ_le_codeSize hk
    have hlt := s.codeSize_lt
    rw [memorySize_eq] at hlt
    rw [Effect.toProcessor_apply]
    show effect.after.pc.toNat = _
    -- the code ends in front of the end of memory, so that the addition does not wrap
    rw [heffect.pc_eq, fetched, UInt16.toNat_add, UInt16.toNat_ofNat', h.pc_eq, hnext]
    omega
  goes_on := by
    have hgoes := h.goes_on
    rw [isHalted, Effect.toProcessor_apply]
    show (effect.after.halted || effect.after.blocked) = false
    rw [heffect.halted_eq, heffect.blocked_eq]
    exact hgoes
  code_eq a ha := by
    rw [Effect.mem_apply]
    show (effect.store.bind fun x => if x.1 = a then some x.2 else none).getD (m.mem a) = _
    cases hstore : effect.store with
    | none => exact h.code_eq a ha
    | some x =>
      -- it is stored at a label, and no label is in the code
      obtain ⟨name, hname, hx⟩ := heffect.stores x.1 x.2 hstore
      have hne : x.1 ≠ a := by
        rintro rfl
        have hle := codeSize_le_address himage hname
        rw [← hx] at hle
        omega
      rw [Option.bind_some, if_neg hne]
      exact h.code_eq a ha

/-- **One step** leads from one line of the body in front of the next one. -/
theorem Stands.exists_step (h : s.Stands p k m) (himage : p.IsImage s.items)
    (hk : k < s.body.length) (e : Emulator) :
    ∃ access e' m', e.step m = (.ok access, e', m') ∧ s.Stands p (k + 1) m' := by
  obtain ⟨statement, hmem, hline⟩ := getElem?_lines_of_lt hk
  have hitem : s.items[k]? = some ⟨k + 1, none, some statement⟩ := getElem?_items hline
  obtain ⟨i, hi, hencode, heffects⟩ := (s.isStraight statement hmem).exists_effect p.address
  have hsize : i.opcode.size = (⟨k + 1, none, some statement⟩ : Item).size := by
    rw [← Instruction.length_encode, ← hencode]
    exact statement.length_image p.address
  obtain ⟨effect, heffect, hgoes⟩ := heffects m (fetched m i.opcode.size) e.input.peek
  have hfetch := h.fetch?_eq_some himage (Nat.le_of_lt hk) hitem hi hencode
  refine ⟨_, _, _, step_eq_ok_iff.mpr ⟨i, effect, hfetch, heffect, rfl, rfl, rfl⟩, ?_⟩
  rw [hsize] at hgoes
  exact h.apply himage (Nat.le_of_lt hk) hitem hgoes

/-- Behind the body, the machine halts. -/
theorem Stands.exists_halt (h : s.Stands p s.body.length m) (himage : p.IsImage s.items)
    (e : Emulator) :
    ∃ access e' m', e.step m = (.ok access, e', m') ∧ m'.halted = true ∧ m'.blocked = false ∧
      ∀ a, m'.mem a = m.mem a := by
  have hitem : s.items[s.body.length]? = some ⟨s.body.length + 1, none, some halt⟩ :=
    getElem?_items getElem?_lines_length
  have hnarrow : (Instruction.register .trap 0 0 0).Narrow := ⟨by decide, by decide, by decide⟩
  have hfetch := h.fetch?_eq_some himage le_rfl hitem hnarrow rfl
  have hblocked : m.blocked = false := (Bool.or_eq_false_iff.mp h.goes_on).2
  refine ⟨_, _, _, step_eq_ok_iff.mpr ⟨_, _, hfetch, rfl, rfl, rfl, rfl⟩, ?_, ?_, fun a => ?_⟩
  · rw [Effect.toProcessor_apply]
    rfl
  · rw [Effect.toProcessor_apply]
    exact hblocked
  · rw [Effect.mem_apply]
    rfl

/-- A loaded program stands in front of its first line. -/
theorem stands_loaded (s : StraightLine) (p : Program) : s.Stands p 0 (.loaded p.words) :=
  ⟨rfl, rfl, fun _ _ => rfl⟩

/-- **All steps of the body** are made, and lead from line to line. -/
theorem stands_machineAfter (himage : p.IsImage s.items) (e : Emulator) (hk : k ≤ s.body.length) :
    s.Stands p k (engine.machineAfter e (.loaded p.words) k) ∧
      ∀ j < k, ∃ access, engine.reportAfter e (.loaded p.words) j = .ok access := by
  induction k with
  | zero => exact ⟨s.stands_loaded p, fun j hj => absurd hj (Nat.not_lt_zero j)⟩
  | succ k ih =>
    obtain ⟨hstands, hreports⟩ := ih (Nat.le_of_succ_le hk)
    obtain ⟨access, e', m', hstep, hnext⟩ :=
      hstands.exists_step himage hk (engine.stateAfter e (.loaded p.words) k)
    obtain ⟨hreport, -, hmachine⟩ := after_succ_of_step hstep
    refine ⟨hmachine ▸ hnext, fun j hj => ?_⟩
    rcases Nat.lt_succ_iff_lt_or_eq.mp hj with hlt | rfl
    · exact hreports j hlt
    · exact ⟨access, hreport⟩

/-- **The last step** halts, and leaves memory alone. -/
theorem halted_machineAfter (himage : p.IsImage s.items) (e : Emulator) :
    (∃ access, engine.reportAfter e (.loaded p.words) s.body.length = .ok access) ∧
      (engine.machineAfter e (.loaded p.words) (s.body.length + 1)).halted = true ∧
      (engine.machineAfter e (.loaded p.words) (s.body.length + 1)).blocked = false ∧
      ∀ a, (engine.machineAfter e (.loaded p.words) (s.body.length + 1)).mem a
        = (engine.machineAfter e (.loaded p.words) s.body.length).mem a := by
  obtain ⟨hstands, -⟩ := stands_machineAfter himage e (k := s.body.length) le_rfl
  obtain ⟨access, e', m', hstep, hhalted, hblocked, hmem⟩ :=
    hstands.exists_halt himage (engine.stateAfter e (.loaded p.words) s.body.length)
  obtain ⟨hreport, -, rfl⟩ := after_succ_of_step hstep
  exact ⟨⟨access, hreport⟩, hhalted, hblocked, hmem⟩

/-- Up to the halt there is no reason to stop. -/
theorem endingAfter?_of_le (himage : p.IsImage s.items) {cap : Nat}
    (hcap : s.body.length + 1 ≤ cap) (e : Emulator) (hk : k ≤ s.body.length) :
    engine.endingAfter? e (.loaded p.words) cap .never k = none := by
  obtain ⟨hstands, -⟩ := stands_machineAfter himage e hk
  have hreport : ∃ access, engine.reportAfter e (.loaded p.words) k = .ok access := by
    rcases Nat.lt_or_eq_of_le hk with hlt | rfl
    · exact (stands_machineAfter himage e hlt).2 k (Nat.lt_succ_self k)
    · exact (halted_machineAfter himage e).1
  exact Engine.endingAfter?_eq_none_iff.mpr ⟨hstands.goes_on, by omega, rfl, hreport⟩

/-- And behind it the machine has halted. -/
theorem endingAfter?_length_succ (himage : p.IsImage s.items) (cap : Nat) (e : Emulator) :
    engine.endingAfter? e (.loaded p.words) cap .never (s.body.length + 1) = some .halted := by
  obtain ⟨-, hhalted, hblocked, -⟩ := halted_machineAfter himage e
  have hhalt : isHalted (engine.machineAfter e (.loaded p.words) (s.body.length + 1)) = true := by
    rw [isHalted, hhalted, Bool.true_or]
  refine (if_pos hhalt).trans ?_
  rw [hblocked]
  rfl

/-- **The recording** of a straight-line program makes all its steps and halts. -/
theorem record_halted (himage : p.IsImage s.items) {config : Config}
    (hcap : s.body.length + 1 ≤ config.stepCap) (e : Emulator) :
    (record engine config .never e (.loaded p.words)).1.ending = .halted ∧
      (record engine config .never e (.loaded p.words)).1.totalSteps = s.body.length + 1 := by
  have hrec : IsRecording engine config .never e (.loaded p.words) 0
      (engine.deltaLog config.scan e (.loaded p.words) (s.body.length + 1)) .halted
      (engine.stateAfter e (.loaded p.words) (s.body.length + 1)) := by
    refine ⟨?_, Nat.zero_le _, fun k _ hk => ?_, ?_, ?_⟩
    · rw [Engine.length_deltaLog]
    · rw [Engine.length_deltaLog] at hk
      exact endingAfter?_of_le himage hcap e (Nat.lt_succ_iff.mp hk)
    · rw [Engine.length_deltaLog]
      exact endingAfter?_length_succ himage config.stepCap e
    · rw [Engine.length_deltaLog]
      rfl
  rw [record_eq hrec]
  exact ⟨rfl, Engine.length_deltaLog _ _ _ _ _⟩

/-- A line of code has words. -/
theorem exists_item_of_le (hk : k ≤ s.body.length) :
    ∃ item, s.items[k]? = some item ∧ 0 < item.size := by
  rcases Nat.lt_or_eq_of_le hk with hlt | rfl
  · obtain ⟨statement, hmem, hline⟩ := getElem?_lines_of_lt hlt
    exact ⟨_, getElem?_items hline, (s.isStraight statement hmem).size_pos⟩
  · exact ⟨_, getElem?_items getElem?_lines_length, Nat.one_pos⟩

/-- The word in front of which the machine stands was emitted by the line. -/
theorem Stands.emits (h : s.Stands p k m) (himage : p.IsImage s.items) (hk : k ≤ s.body.length) :
    p.Emits s.items (k + 1) m.pc := by
  obtain ⟨item, hitem, hsize⟩ := exists_item_of_le hk
  refine ⟨k, item, 0, hitem, rfl, hsize, h.pc_eq, ?_⟩
  rw [h.pc_eq]
  exact himage.getElem?_words hitem hsize

/-- A timeline that goes through a straight-line program, line by line, and halts. -/
structure RunsToHalt (s : StraightLine) (t : Timeline) : Prop where
  ending_eq : t.ending = .halted
  totalSteps_eq : t.totalSteps = s.body.length + 1
  /-- Every step is the next line, fetched from the address behind those before it. -/
  steps : ∀ k < t.totalSteps, t.sourceLine? (k + 1) = some (k + 1) ∧
    ∃ d, t.deltaInto? (k + 1) = some d ∧ d.origin.toNat = addressOf s.items k
  /-- No step changes the code. -/
  code : ∀ k ≤ t.totalSteps, ∃ m, t.stateAt k = .ok m ∧
    ∀ a : Address, a.toNat < s.codeSize → m.mem a = t.initial.mem a

/-- **A straight-line program runs to its end.**  Written out, with a line feed behind each line, it
reads as the program, and so does any text with these lines; and whatever text does, in any
spelling, assembles.  Its run, with any
input, either scan and any cap that leaves room for the steps, executes one line after the other,
each at the address that the sizes of those before it add up to, and halts behind the body.  The
words in front of the data are at all steps what they were at the start. -/
theorem runs_to_halt (s : StraightLine) :
    Reads (writtenSource s.lines) s.items ∧
      (∀ source : String,
        textLines source.toList = s.lines.map (fun x => writtenLine x.1 x.2) →
          Reads source s.items) ∧
      ∀ source, Reads source s.items → ∃ p, Program.ofSource source = .ok p ∧
        ∀ (wording : SyntaxWording) (config : Config) (moduleName : String) (words : List Word),
          s.body.length + 1 ≤ config.stepCap →
            ∃ t e, runProgram (machineTools wording) config .never moduleName source
                (.ofInput words) = (.ok t, e) ∧ s.RunsToHalt t := by
  refine ⟨reads_writtenSource s.printable, fun source => reads_of_textLines s.printable,
    fun source hreads => ?_⟩
  have hp := Program.ofSource_eq_ok_iff.mpr ⟨s.items, hreads, s.wellFormed, rfl⟩
  have himage := Program.isImage_ofEmitted s.wellFormed
  have hmaps := Program.mapsLines_ofEmitted hreads s.wellFormed
  refine ⟨_, hp, fun wording config moduleName words hcap => ?_⟩
  -- from here on the program is known by its image and its line map only
  generalize Program.ofEmitted _ _ = p at hp himage hmaps
  obtain ⟨hending, hsteps⟩ := record_halted himage hcap (.ofInput words)
  have hlineMap : (assemble wording moduleName source).lineMap = p.lineMap := by rw [assemble, hp]
  have hfollows := hmaps.followsLines hlineMap config .never (.ofInput words) (.loaded p.words)
  refine ⟨_, _, runProgram_of_ofSource hp wording config .never moduleName (.ofInput words),
    hending, hsteps, fun k hk => ?_, fun k hk => ?_⟩
  · -- the step stands in front of the line, and the line map names the line that emitted it
    have hle : k ≤ s.body.length := Nat.lt_succ_iff.mp (Nat.lt_of_lt_of_eq hk hsteps)
    obtain ⟨hstands, -⟩ := stands_machineAfter himage (.ofInput words) hle
    obtain ⟨d, i, hexec⟩ := exists_executes hk
    obtain ⟨before, -, hbefore, -, hline, -⟩ := hfollows.sourceLine?_step k hk
    obtain rfl := Except.ok.inj (hexec.before_eq.symm.trans hbefore)
    refine ⟨(hline (k + 1)).mpr (hstands.emits himage hle), d, hexec.delta_eq, ?_⟩
    rw [hexec.origin_eq]
    exact hstands.pc_eq
  · -- the body keeps the code by the invariant, and the halt keeps all of memory
    refine ⟨_, stateAt_record_engine hk, fun a ha => ?_⟩
    rcases Nat.lt_or_eq_of_le (Nat.le_trans hk (Nat.le_of_eq hsteps)) with hlt | rfl
    · exact (stands_machineAfter himage _ (Nat.lt_succ_iff.mp hlt)).1.code_eq a ha
    · obtain ⟨-, -, -, hmem⟩ := halted_machineAfter himage (.ofInput words)
      exact (hmem a).trans ((stands_machineAfter himage _ le_rfl).1.code_eq a ha)

/-- A letter is a name, and there is no number behind it. -/
theorem isName_letter {c : Char} (h : isNameStart c) : IsName [c] ∧ ¬ IsRegister [c] := by
  refine ⟨.intro h (by simp), fun hreg => ?_⟩
  cases hreg with
  | intro _ hdigits => exact hdigits.1 rfl

/-- Computes, and stores a word over the first one of the data. -/
def doubling : StraightLine where
  body := [.memory .lea 1 (.literal 21) 0, .register .add 2 1 1, .memory .store 2 (.label "x") 0,
    .register .cmp 0 1 2]
  data := [("x", .literal 65535), ("y", .label "x")]
  data_ne_nil := by decide
  labels_nodup := by decide
  isName := by
    intro name hname
    simp only [List.map_cons, List.map_nil, List.mem_cons, List.not_mem_nil, or_false] at hname
    rcases hname with rfl | rfl
    · exact isName_letter (by decide)
    · exact isName_letter (by decide)
  isStraight := by
    intro s hs
    simp only [List.mem_cons, List.not_mem_nil, or_false] at hs
    rcases hs with rfl | rfl | rfl | rfl
    · exact .address 1 _ (fun name h => nomatch h)
    · exact .compute .add (by decide) 2 1 1
    · exact .store 2 "x" (by decide)
    · exact .compare 1 2
  resolved := by
    intro x hx name hname
    simp only [List.mem_cons, List.not_mem_nil, or_false] at hx
    rcases hx with rfl | rfl
    · cases hname
    · obtain rfl := Value.label.inj hname
      decide
  fits := by rw [memorySize_eq]; decide

/-- The program, as it may be written. -/
def doublingSource : String :=
  "lea R1,21[R0]\nadd R2,R1,R1\nstore R2,x[R0]\ncmp R1,R2\ntrap R0,R0,R0\n" ++
    "x: data 65535\ny: data x\n"

/-- With room for just its five steps, it makes all of them. -/
theorem runs_to_halt_doubling :
    ∃ p t e, Program.ofSource doublingSource = .ok p ∧
      runProgram (machineTools plainWording) ⟨5, .writeSet⟩ .never "main" doublingSource
        (.ofInput []) = (.ok t, e) ∧ doubling.RunsToHalt t ∧ t.totalSteps = 5 := by
  obtain ⟨-, hwritten, hassembles⟩ := doubling.runs_to_halt
  have hlines : textLines doublingSource.toList
      = doubling.lines.map (fun x => writtenLine x.1 x.2) := by decide +kernel
  obtain ⟨p, hp, hruns⟩ := hassembles doublingSource (hwritten doublingSource hlines)
  obtain ⟨t, e, ht, hhalts⟩ := hruns plainWording ⟨5, .writeSet⟩ "main" [] (by decide)
  exact ⟨p, t, e, hp, ht, hhalts, hhalts.totalSteps_eq⟩

end StraightLine

end Hindsight
