import Hindsight.Proofs.Assembly.Disassembly
import Hindsight.Proofs.Assembly.LineBreaks
import Hindsight.Proofs.Assembly.TwoPasses

/-!
# A listing reassembles

The listing of a program has the assembly form of each instruction on a line of its own.  It
defines no labels and uses none, so that both passes over it are trivial: it assembles to the words
of the canonical instructions.  Statements that are no data emit canonical instructions only, and
so a listing of the object code of a source without data gives the same object code again.

## Main definitions

* `IsListing`, `listing` — a text with the assembly forms of instructions as its lines, and one
  such text.
* `listingItems` — the lines of a listing, read.
* `Statement.instruction?` — the instruction that a statement emits.
* `Statement.Canonical` — a statement with zero in a field that it does not use.

## Main results

* `IsListing.reads`, `wellFormed_listingItems` — a listing reads, and there is nothing wrong with
  it.
* `Item.canonical_of_parse` — what is read from source is canonical.
* `Program.ofSource_listing` — **a disassembly listing reassembles**, and lists what the source of
  the object code says.
-/

namespace Hindsight

/-! ### Instructions and statements -/

theorem toNat_regField (r : Reg) : (Statement.regField r).toNat = r.val := by
  have hr := r.isLt
  rw [Statement.regField, UInt8.toNat_ofNat']
  omega

theorem toNat_regField_fieldReg (f : UInt8) :
    (Statement.regField (fieldReg f)).toNat = f.toNat % 16 := by
  rw [toNat_regField, fieldReg, Fin.val_ofNat]

namespace Instruction

/-- The words of the statement of an instruction are those of the instruction. -/
theorem image_statement (i : Instruction) (address : String → Address) :
    i.statement.image address = i.encode := by
  cases i with
  | register op d a b =>
    rw [statement, Statement.image, encode, encode, Fields.toWord, Fields.toWord]
    simp only [toNat_regField_fieldReg, Nat.mod_mod]
  | memory op d a disp =>
    rw [statement, Statement.image, encode, encode, Fields.toWord, Fields.toWord]
    simp only [toNat_regField_fieldReg, Nat.mod_mod, Value.word]

theorem references_statement (i : Instruction) : i.statement.references = [] := by
  cases i <;> rfl

theorem opcode_canonical (i : Instruction) : i.canonical.opcode = i.opcode := by
  cases i <;> rfl

/-- The assembly form is a single line. -/
theorem isLineEnd_of_mem_text {i : Instruction} (hi : i.Narrow) {c : Char}
    (hc : c ∈ i.text.toList) : isLineEnd c = false := by
  rw [toList_text] at hc
  exact isLineEnd_of_mem_written isName_of_mem_none i.opcode.isRun_mnemonic i.operands_ne_nil
    (fun o ho => (exists_denotes_of_mem_operands hi o ho).choose_spec.spells) hc

end Instruction

/-! ### Listings -/

/-- A text with the assembly forms of instructions as its lines.  The last line may end with the
text. -/
def IsListing (is : List Instruction) (text : String) : Prop :=
  textLines text.toList = is.map fun i => i.text.toList

/-- The assembly forms of instructions, each with a line feed behind it. -/
def listing (is : List Instruction) : String :=
  String.ofList (is.flatMap fun i => i.text.toList ++ ['\n'])

/-- The lines of a listing, read. -/
def listingItems (is : List Instruction) : List Item :=
  (is.zipIdx 1).map fun (i, line) => ⟨line, none, some i.canonical.statement⟩

variable {is : List Instruction}

theorem isListing_listing (h : ∀ i ∈ is, i.Narrow) : IsListing is (listing is) := by
  have hlines : (listing is).toList
      = (is.map fun i => i.text.toList).flatMap (· ++ ['\n']) := by
    rw [listing, String.toList_ofList, List.flatMap_map]
  rw [IsListing, hlines]
  refine textLines_terminated fun line hline c hc => ?_
  obtain ⟨i, hi, rfl⟩ := List.mem_map.mp hline
  exact Instruction.isLineEnd_of_mem_text (h i hi) hc

/-- A listing reads as the canonical instructions. -/
theorem IsListing.reads (h : ∀ i ∈ is, i.Narrow) {text : String} (htext : IsListing is text) :
    Reads text (listingItems is) := by
  unfold Reads listingItems
  rw [htext, List.zipIdx_map, List.map_map, List.map_map]
  refine List.map_congr_left fun e he => ?_
  obtain ⟨i, line⟩ := e
  have hi : i ∈ is := List.fst_mem_of_mem_zipIdx he
  exact Instruction.parse_text (h i hi) line

/-- The words of a listing do not depend on labels. -/
theorem flatMap_image_listingItems (is : List Instruction) (address : String → Address) :
    (listingItems is).flatMap (Item.image address) = is.flatMap fun i => i.canonical.encode := by
  have hitem : ∀ e : Instruction × Nat,
      Item.image address ⟨e.2, none, some e.1.canonical.statement⟩ = e.1.canonical.encode :=
    fun e => e.1.canonical.image_statement address
  rw [listingItems, List.flatMap_map]
  simp only [hitem]
  rw [← List.flatMap_map Prod.fst fun i : Instruction => i.canonical.encode, List.zipIdx_map_fst]

theorem length_flatMap_canonical (is : List Instruction) :
    (is.flatMap fun i => i.canonical.encode).length = (is.flatMap Instruction.encode).length := by
  simp only [List.length_flatMap, Instruction.length_encode, Instruction.opcode_canonical]

/-- There are no labels in a listing, so that it only has to fit. -/
theorem wellFormed_listingItems (hfits : (is.flatMap Instruction.encode).length ≤ memorySize) :
    WellFormed (listingItems is) := by
  -- no line of a listing defines a label or uses one
  have hitem : ∀ item ∈ listingItems is, item.label = none ∧ item.references = [] := by
    intro item hitem
    obtain ⟨e, -, rfl⟩ := List.mem_map.mp hitem
    exact ⟨rfl, e.1.canonical.references_statement⟩
  have hlabels : labelDefs (listingItems is) = [] :=
    List.filterMap_eq_nil_iff.mpr fun item h => (hitem item h).1
  refine ⟨?_, ?_, ?_, ?_⟩
  · rw [hlabels]
    exact List.nodup_nil
  · intro k item hk hlabel
    rw [(hitem item (List.mem_of_getElem? hk)).1] at hlabel
    cases hlabel
  · rw [← length_flatMap_image (fun _ => 0), flatMap_image_listingItems, length_flatMap_canonical]
    exact hfits
  · intro item h name hname
    rw [(hitem item h).2] at hname
    cases hname

/-- A listing assembles to the canonical instructions. -/
theorem IsListing.exists_program (h : ∀ i ∈ is, i.Narrow)
    (hfits : (is.flatMap Instruction.encode).length ≤ memorySize) {text : String}
    (htext : IsListing is text) :
    ∃ p, Program.ofSource text = .ok p ∧ p.words = is.flatMap fun i => i.canonical.encode := by
  have hwf := wellFormed_listingItems hfits
  have himage := Program.isImage_ofEmitted hwf
  refine ⟨_, Program.ofSource_eq_ok_iff.mpr ⟨_, htext.reads h, hwf, rfl⟩, ?_⟩
  rw [himage.words_eq, flatMap_image_listingItems]

/-! ### Statements that are instructions -/

namespace Statement

/-- A field that is not used is zero. -/
def Canonical : Statement → Prop
  | register op d _ _ => op.hasDestination ∨ d = 0
  | memory op d _ _ => op.namesRegister ∨ d = 0
  | data _ => True

/-- The instruction that a statement emits, when labels have addresses.  Data are none. -/
def instruction? (address : String → Address) : Statement → Option Instruction
  | register op d a b => some (.register op (regField d) (regField a) (regField b))
  | memory op d disp index =>
    some (.memory op (regField d) (regField index) (disp.word address))
  | data _ => none

variable {s : Statement} {opcode : Opcode} {operands : List Operand}

/-- **What operands of an instruction stand for.**  A field that no operand names is zero, and an
address is one of the operands. -/
theorem ofOperands?_eq_ok (h : ofOperands? opcode operands = some (.ok s)) :
    (∃ op d a b, s = register op d a b ∧ (op.hasDestination ∨ d = 0)) ∨
      ∃ op d disp index, s = memory op d disp index ∧ (op.namesRegister ∨ d = 0) ∧
        ∃ o ∈ operands, o.asAddress = .ok (disp, index) := by
  unfold ofOperands? at h
  split at h
  · split at h
    · -- two registers, and no destination
      obtain ⟨a, -, h⟩ := bind_eq_ok_iff.mp (Option.some.inj h)
      obtain ⟨b, -, h⟩ := bind_eq_ok_iff.mp h
      cases h
      exact .inl ⟨_, _, _, _, rfl, .inr rfl⟩
    · -- a destination and two registers
      next hdest =>
      obtain ⟨d, -, h⟩ := bind_eq_ok_iff.mp (Option.some.inj h)
      obtain ⟨a, -, h⟩ := bind_eq_ok_iff.mp h
      obtain ⟨b, -, h⟩ := bind_eq_ok_iff.mp h
      cases h
      exact .inl ⟨_, _, _, _, rfl, .inl hdest⟩
    · cases h
  · split at h
    · -- an address alone
      next address _ =>
      obtain ⟨⟨disp, index⟩, haddress, h⟩ := bind_eq_ok_iff.mp (Option.some.inj h)
      cases h
      exact .inr ⟨_, _, _, _, rfl, .inr rfl, address, by simp, haddress⟩
    · -- a register and an address
      next d address hnames =>
      obtain ⟨⟨disp, index⟩, haddress, h⟩ := bind_eq_ok_iff.mp (Option.some.inj h)
      obtain ⟨d, -, h⟩ := bind_eq_ok_iff.mp h
      cases h
      exact .inr ⟨_, _, _, _, rfl, .inl hnames, address, by simp, haddress⟩
    · cases h

/-- Data directives stand for the values of their operands. -/
theorem ofData_eq_ok (h : ofData operands = .ok s) :
    ∃ values, operands ≠ [] ∧ operands.mapM Operand.asValue = .ok values ∧ s = data values := by
  unfold ofData at h
  split at h
  · cases h
  · next hne =>
    split at h
    · next values hvalues =>
      cases h
      exact ⟨values, hne, hvalues, rfl⟩
    · cases h

/-- A command stands for data or for an instruction. -/
theorem ofCommand_eq_ok {c : Command} (h : ofCommand c = .ok s) :
    ofData c.operands = .ok s ∨ ∃ opcode, ofOperands? opcode c.operands = some (.ok s) := by
  unfold ofCommand at h
  split at h
  · exact .inl h
  · split at h
    · next opcode _ =>
      unfold ofInstruction at h
      split at h
      · next hoperands =>
        cases h
        exact .inr ⟨opcode, hoperands⟩
      · cases h
      · cases h
    · cases h

/-- What a command stands for is canonical. -/
theorem canonical_of_ofCommand {c : Command} (h : ofCommand c = .ok s) : s.Canonical := by
  rcases ofCommand_eq_ok h with hdata | ⟨opcode, hoperands⟩
  · obtain ⟨values, -, -, rfl⟩ := ofData_eq_ok hdata
    exact trivial
  · rcases ofOperands?_eq_ok hoperands with
      ⟨op, d, a, b, rfl, hfield⟩ | ⟨op, d, disp, index, rfl, hfield, -⟩
    · exact hfield
    · exact hfield

/-- A canonical statement that is no data emits a canonical instruction. -/
theorem exists_instruction (address : String → Address) (hs : s.Canonical)
    (hdata : ∀ values, s ≠ data values) :
    ∃ i, s.instruction? address = some i ∧ i.Narrow ∧ i.canonical = i ∧
      s.image address = i.encode := by
  have hlt : ∀ r : Reg, (regField r).toNat < 16 := by
    intro r
    rw [toNat_regField]
    exact r.isLt
  cases s with
  | register op d a b =>
    refine ⟨_, rfl, ⟨hlt d, hlt a, hlt b⟩, ?_, rfl⟩
    -- clearing the field changes nothing: it is in use, or zero already
    rcases hs with hdest | rfl
    · rw [Instruction.canonical, if_pos hdest]
    · rw [Instruction.canonical]
      split <;> rfl
  | memory op d disp index =>
    refine ⟨_, rfl, ⟨hlt d, hlt index⟩, ?_, rfl⟩
    rcases hs with hnames | rfl
    · rw [Instruction.canonical, if_pos hnames]
    · rw [Instruction.canonical]
      split <;> rfl
  | data values => exact absurd rfl (hdata values)

/-- Canonical statements without data emit canonical instructions, one for each. -/
theorem exists_instructions (address : String → Address) {ss : List Statement}
    (hs : ∀ s ∈ ss, s.Canonical) (hdata : ∀ s ∈ ss, ∀ values, s ≠ data values) :
    ∃ is : List Instruction, ss.map (instruction? address) = is.map some ∧ (∀ i ∈ is, i.Narrow) ∧
      (∀ i ∈ is, i.canonical = i) ∧
      ss.flatMap (image address) = is.flatMap Instruction.encode := by
  induction ss with
  | nil => exact ⟨[], rfl, by simp, by simp, rfl⟩
  | cons s ss ih =>
    rw [List.forall_mem_cons] at hs hdata
    obtain ⟨i, hi, hnarrow, hcanonical, himage⟩ := exists_instruction address hs.1 hdata.1
    obtain ⟨is, his, hnarrows, hcanonicals, himages⟩ := ih hs.2 hdata.2
    refine ⟨i :: is, ?_, List.forall_mem_cons.mpr ⟨hnarrow, hnarrows⟩,
      List.forall_mem_cons.mpr ⟨hcanonical, hcanonicals⟩, ?_⟩
    · rw [List.map_cons, List.map_cons, hi, his]
    · rw [List.flatMap_cons, List.flatMap_cons, himage, himages]

end Statement

/-! ### Items -/

/-- What a line is read as is canonical. -/
theorem Item.canonical_of_parse {line : Nat} {text : List Char} {item : Item} {s : Statement}
    (h : Item.parse line text = .ok item) (hs : item.statement = some s) : s.Canonical := by
  obtain ⟨parsed, -, -, -, hcommand⟩ := Item.parse_eq_ok_iff.mp h
  rw [hs] at hcommand
  generalize parsed.command = command at hcommand
  cases hcommand with
  | some hstatement => exact Statement.canonical_of_ofCommand hstatement

theorem Reads.canonical {source : String} {items : List Item} (h : Reads source items) :
    ∀ s ∈ items.filterMap Item.statement, s.Canonical := by
  intro s hs
  obtain ⟨item, hitem, hstatement⟩ := List.mem_filterMap.mp hs
  obtain ⟨line, text, hparse⟩ := h.exists_parse hitem
  exact Item.canonical_of_parse hparse hstatement

/-- Lines without a statement have no words. -/
theorem flatMap_image_eq (items : List Item) (address : String → Address) :
    items.flatMap (Item.image address)
      = (items.filterMap Item.statement).flatMap (Statement.image address) := by
  induction items with
  | nil => rfl
  | cons item items ih =>
    rw [List.flatMap_cons, ih, Item.image]
    -- a line with a label only has no words, and is left out on both sides
    cases h : item.statement with
    | none => rw [List.filterMap_cons_none h]; rfl
    | some s => rw [List.filterMap_cons_some h, List.flatMap_cons]; rfl

/-! ### The main result -/

namespace Program

/-- A listing of a sweep assembles to the canonical instructions. -/
theorem exists_of_sweep? {words : List Word} (hfits : words.length ≤ memorySize)
    (hsweep : Instruction.sweep? words = some is) :
    words = is.flatMap Instruction.encode ∧ IsListing is (listing is) ∧
      ∀ text, IsListing is text →
        ∃ p, ofSource text = .ok p ∧ p.words = is.flatMap fun i => i.canonical.encode := by
  obtain ⟨hnarrow, rfl⟩ := Instruction.sweep?_eq_some_iff.mp hsweep
  exact ⟨rfl, isListing_listing hnarrow, fun text htext => htext.exists_program hnarrow hfits⟩

/-- **A disassembly listing reassembles.**  Whatever words a linear sweep decodes completely, the
instructions printed one per line assemble to these words, with zero in a field that an
instruction does not use.  The sweep of the object code of a source without data gives one
instruction for each statement, in their order, and the listing of these assembles to the same
object code. -/
theorem ofSource_listing :
    (∀ words is, words.length ≤ memorySize → Instruction.sweep? words = some is →
      words = is.flatMap Instruction.encode ∧ IsListing is (listing is) ∧
        ∀ text, IsListing is text →
          ∃ p, ofSource text = .ok p ∧ p.words = is.flatMap fun i => i.canonical.encode) ∧
    ∀ source p, ofSource source = .ok p →
      ∃ items, Reads source items ∧
        ((∀ s ∈ items.filterMap Item.statement, ∀ values, s ≠ .data values) →
          ∃ is, Instruction.sweep? p.words = some is ∧
            (items.filterMap Item.statement).map (Statement.instruction? p.address)
              = is.map some ∧
            IsListing is (listing is) ∧
            ∀ text, IsListing is text → ∃ p', ofSource text = .ok p' ∧ p'.words = p.words) := by
  refine ⟨fun words is => exists_of_sweep?, fun source p h => ?_⟩
  obtain ⟨items, hreads, hwf, hp⟩ := ofSource_eq_ok_iff.mp h
  have himage : p.IsImage items := hp ▸ isImage_ofEmitted hwf
  refine ⟨items, hreads, fun hdata => ?_⟩
  obtain ⟨is, his, hnarrow, hcanonical, hwords⟩ :=
    Statement.exists_instructions p.address hreads.canonical hdata
  rw [← flatMap_image_eq, ← himage.words_eq] at hwords
  have hsweep : Instruction.sweep? p.words = some is :=
    Instruction.sweep?_eq_some_iff.mpr ⟨hnarrow, hwords⟩
  -- what the assembler has emitted is not changed by clearing fields
  have hsame : ∀ i ∈ is, i.canonical.encode = i.encode := by
    intro i hi
    rw [hcanonical i hi]
  obtain ⟨-, hlisting, hassembles⟩ := exists_of_sweep? himage.length_words_le hsweep
  refine ⟨is, hsweep, his, hlisting, fun text htext => ?_⟩
  obtain ⟨p', hp', hwords'⟩ := hassembles text htext
  refine ⟨p', hp', ?_⟩
  rw [hwords', hwords]
  exact List.flatMap_congr hsame

/-- A comparison and a jump with something in the field that they do not use. -/
def spareWords : List Word := [0x4f12, 0xf123, 0xbeef]

/-- An addition without end. -/
def loopSource : String := "top: add R1,R2,R3\njump top"

/-- The fields are cleared, and the listing of the loop has the address of its label. -/
theorem ofSource_listing_loopSource :
    (∃ is p, Instruction.sweep? spareWords = some is ∧ ofSource (listing is) = .ok p ∧
      p.words = [0x4012, 0xf023, 0xbeef]) ∧
    ∃ is p p', ofSource loopSource = .ok p ∧ Instruction.sweep? p.words = some is ∧
      listing is = "add R1,R2,R3\njump $0000[R0]\n" ∧ ofSource (listing is) = .ok p' ∧
      p'.words = p.words := by
  obtain ⟨hwords, hsource⟩ := ofSource_listing
  constructor
  · have hfits : spareWords.length ≤ memorySize := by rw [memorySize_eq]; decide
    have hsweep : Instruction.sweep? spareWords
        = some [.register .cmp 15 1 2, .memory .jump 1 2 0xbeef] := by decide
    obtain ⟨-, hlisting, hassembles⟩ := hwords spareWords _ hfits hsweep
    obtain ⟨p, hp, hcleared⟩ := hassembles _ hlisting
    exact ⟨_, p, hsweep, hp, hcleared.trans (by decide)⟩
  · have hresult : (ofSource loopSource).toOption.map (·.words) = some [0x0123, 0xf003, 0] := by
      decide +kernel
    have hreads : Reads loopSource [⟨1, some "top", some (.register .add 1 2 3)⟩,
        ⟨2, none, some (.memory .jump 0 (.label "top") 0)⟩] := by
      unfold Reads
      decide +kernel
    cases hp : ofSource loopSource with
    | error issues =>
      rw [hp] at hresult
      cases hresult
    | ok p =>
      rw [hp] at hresult
      have hpwords : p.words = [0x0123, 0xf003, 0] := Option.some.inj hresult
      obtain ⟨items, hitems, hlisting⟩ := hsource loopSource p hp
      obtain rfl := hitems.unique hreads
      obtain ⟨is, hsweep, -, hlisting, hassembles⟩ := hlisting (by simp)
      obtain ⟨p', hp', hsame⟩ := hassembles _ hlisting
      have his : is = [.register .add 1 2 3, .memory .jump 0 0 0] := by
        rw [hpwords] at hsweep
        exact (Option.some.inj hsweep).symm
      subst his
      exact ⟨_, p, p', rfl, hsweep, by decide, hp', hsame⟩

end Program

end Hindsight
