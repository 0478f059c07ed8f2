import Hindsight.Proofs.Assembly.Printing

/-!
# Printing what was read

Source leaves much to be understood: an address without an index register, numerals in two bases
and of two signs, a field that an instruction does not name, mnemonics in either case.  Whatever a
line is read as, the statement is printed in one form, and since what was read can be printed,
reading the print gives the statement again.  So the statements of a source can be replaced by
their prints, each in its place, and nothing that the assembler does depends on that.

## Main definitions

* `Operand.IsNamed` — an operand whose labels can be written.
* `Item.Reprints` — a line with the label of another one, and its statement in print.
* `reprinted` — a source in which every statement is printed.

## Main results

* `SourceLine.isNamed_of_parse` — what is read can be written.
* `Statement.printable_of_ofCommand` — so what it stands for can be printed.
* `Item.parse_of_reprints` — a reprinted line reads as the same.
* `Statement.text_rereads` — **printing a statement and reading it back changes nothing.**
-/

namespace Hindsight

/-! ### Labels that are read are names -/

namespace Value

variable {t : List Char} {name : String}

/-- A text that stands for a label is no numeral, and is the label. -/
theorem eq_of_meaning_eq_label (h : meaning t = label name) :
    literal? t = none ∧ name.toList = t := by
  unfold meaning at h
  split at h
  · cases h
  · next hnone =>
    cases h
    exact ⟨hnone, String.toList_ofList⟩

theorem isNamed_meaning (h : IsValue t) : (meaning t).IsNamed := by
  intro name hname
  obtain ⟨hnone, rfl⟩ := eq_of_meaning_eq_label hname
  generalize name.toList = t at h hnone
  cases h with
  | hex | negative =>
    rw [literal?] at hnone
    cases hnone
  | decimal hdigits =>
    rw [literal?_decimal hdigits] at hnone
    cases hnone
  | name hname => exact hname

theorem standsAlone_meaning (h : ¬ IsRegister t) : (meaning t).StandsAlone := by
  intro name hname
  obtain ⟨-, rfl⟩ := eq_of_meaning_eq_label hname
  exact h

end Value

/-- The labels in an operand can be written: they are names, and one that stands alone is not in
the shape of a register. -/
def Operand.IsNamed : Operand → Prop
  | register _ => True
  | value v => v.IsNamed ∧ v.StandsAlone
  | indexed disp _ => disp.IsNamed

theorem OperandText.Spells.isNamed_meaning {o : OperandText} {t : List Char} (h : o.Spells t) :
    o.meaning.IsNamed := by
  cases h with
  | register => exact trivial
  | value hv hn => exact ⟨Value.isNamed_meaning hv, Value.standsAlone_meaning hn⟩
  | indexed hv => exact Value.isNamed_meaning hv

namespace SourceLine

variable {line : List Char} {parsed : SourceLine}

/-- What a line is read as is what its parts stand for. -/
theorem exists_spells_of_parse (h : parse line = .ok parsed) :
    ∃ parts : LineText, parts.Spells line ∧ parts.meaning = parsed := by
  cases hscan : LineText.scan? line with
  | none =>
    rw [parse, hscan] at h
    cases h
  | some parts =>
    have hspells : parts.Spells line := LineText.scan?_eq_some_iff.mp hscan
    rw [parse_eq_verdict hscan hspells] at h
    exact ⟨parts, hspells, (verdict_eq_ok_iff.mp h).2⟩

/-- **What is read can be written.** -/
theorem isNamed_of_parse (h : parse line = .ok parsed) :
    (∀ name ∈ parsed.label, IsName name.toList) ∧
      ∀ command ∈ parsed.command, ∀ o ∈ command.operands, o.IsNamed := by
  obtain ⟨⟨label, command⟩, hspells, rfl⟩ := exists_spells_of_parse h
  cases hspells with
  | intro hb hl hc hb' hcomment =>
    constructor
    · intro name hname
      cases hl with
      | none => cases hname
      | some hn =>
        obtain rfl := Option.some.inj hname
        rwa [String.toList_ofList]
    · intro read hread o ho
      cases hc with
      | none => cases hread
      | some hm hstop hs =>
        obtain rfl := Option.some.inj hread
        obtain ⟨text, htext, rfl⟩ := List.mem_map.mp ho
        obtain ⟨t, ht⟩ := hs.exists_spells text htext
        exact ht.isNamed_meaning

end SourceLine

/-! ### Statements that are read can be printed -/

namespace Operand

variable {o : Operand} {operands : List Operand}

/-- An address has the labels of the operand. -/
theorem IsNamed.asAddress (h : o.IsNamed) {disp : Value} {index : Reg}
    (ho : o.asAddress = .ok (disp, index)) : disp.IsNamed := by
  cases o with
  | register r => cases ho
  | value v =>
    cases ho
    exact h.1
  | indexed disp index =>
    cases ho
    exact h

/-- Data values are operands that are values. -/
theorem eq_map_value_of_mapM_asValue {values : List Value}
    (h : operands.mapM asValue = .ok values) : operands = values.map value := by
  induction operands generalizing values with
  | nil =>
    cases h
    rfl
  | cons o operands ih =>
    rw [List.mapM_cons] at h
    obtain ⟨v, ho, h⟩ := bind_eq_ok_iff.mp h
    obtain ⟨vs, hoperands, h⟩ := bind_eq_ok_iff.mp h
    cases h
    cases o with
    | register r => cases ho
    | indexed disp index => cases ho
    | value w =>
      cases ho
      rw [List.map_cons, ih hoperands]

end Operand

namespace Statement

variable {s : Statement} {c : Command}

/-- **What a command stands for can be printed**, if its operands can be written. -/
theorem printable_of_ofCommand (h : ofCommand c = .ok s) (hc : ∀ o ∈ c.operands, o.IsNamed) :
    s.Printable := by
  rcases ofCommand_eq_ok h with hdata | ⟨opcode, hoperands⟩
  · -- data: each operand is one of the values
    obtain ⟨values, hne, hvalues, rfl⟩ := ofData_eq_ok hdata
    have hmap := Operand.eq_map_value_of_mapM_asValue hvalues
    rw [hmap] at hc hne
    constructor
    · intro hnil
      exact hne (List.map_eq_nil_iff.mpr hnil)
    · intro v hv
      exact hc (.value v) (List.mem_map_of_mem hv)
  · -- an instruction: a label can only stand in its address
    rcases ofOperands?_eq_ok hoperands with
      ⟨op, d, a, b, rfl, hfield⟩ | ⟨op, d, disp, index, rfl, hfield, o, ho, haddress⟩
    · exact hfield
    · exact ⟨hfield, (hc o ho).asAddress haddress⟩

/-- The command of the written form. -/
def command (s : Statement) : Command := ⟨s.mnemonic, s.operands.map OperandText.meaning⟩

/-- The written form is a command. -/
theorem spellsCommand_text (h : s.Printable) :
    SpellsCommand (some (s.mnemonic.toList, s.operands)) s.text.toList := by
  rw [toList_text]
  refine spellsCommand_written s.isRun_mnemonic (operands_ne_nil h) ?_
  intro o ho
  obtain ⟨operand, hdenotes⟩ := exists_denotes_of_mem_operands h o ho
  exact hdenotes.spells

/-- There is nothing wrong with its operands. -/
theorem findSome?_fault?_operands (h : s.Printable) :
    s.operands.findSome? OperandText.fault? = none := by
  rw [List.findSome?_eq_none_iff]
  intro o ho
  obtain ⟨operand, hdenotes⟩ := exists_denotes_of_mem_operands h o ho
  exact hdenotes.fault_eq

end Statement

/-! ### Lines in print -/

namespace Item

variable {item : Item} {line line' : List Char} {n : Nat}

/-- The written form of the statement of a line, if there is one. -/
def statementText (item : Item) : List Char := item.statement.elim [] fun s => s.text.toList

/-- A line with the label of an item and its statement in print, with any blanks around them and
any comment. -/
inductive Reprints (item : Item) : List Char → Prop
  | intro {b l b' comment : List Char} :
    Blank b → SpellsLabel (item.label.map String.toList) l → Blank b' → IsComment comment →
      Reprints item (b ++ (l ++ (item.statementText ++ (b' ++ comment))))

/-- A line that can be written: its label is a name, and its statement can be printed. -/
structure Writable (item : Item) : Prop where
  isName : ∀ name ∈ item.label, IsName name.toList
  printable : ∀ s ∈ item.statement, s.Printable

/-- What is read can be written. -/
theorem writable_of_parse (h : Item.parse n line = .ok item) : item.Writable := by
  obtain ⟨parsed, hparsed, -, hlabel, hcommand⟩ := parse_eq_ok_iff.mp h
  obtain ⟨hname, hoperands⟩ := SourceLine.isNamed_of_parse hparsed
  constructor
  · rwa [hlabel]
  · intro s hs
    rw [hs] at hcommand
    generalize parsed.command = command at hoperands hcommand
    cases hcommand with
    | some hstatement => exact Statement.printable_of_ofCommand hstatement (hoperands _ rfl)

/-- The parts of a line in print. -/
def parts (item : Item) : LineText where
  label := item.label.map String.toList
  command := item.statement.map fun s => (s.mnemonic.toList, s.operands)

/-- A line in print has these parts. -/
theorem Writable.spells (h : item.Writable) (hline : item.Reprints line) :
    item.parts.Spells line := by
  cases hline with
  | intro hb hl hb' hcomment =>
    refine .intro hb hl ?_ hb' hcomment
    rw [parts, statementText]
    cases hs : item.statement with
    | none => exact .none
    | some s => exact Statement.spellsCommand_text (h.printable s hs)

/-- **A line in print is read** as its label and the command of its statement. -/
theorem Writable.parse_sourceLine (h : item.Writable) (hline : item.Reprints line) :
    SourceLine.parse line = .ok ⟨item.label, item.statement.map Statement.command⟩ := by
  have hspells := h.spells hline
  -- no operand in print is at fault
  have hfault : item.parts.fault? = none := by
    rw [LineText.fault?, parts]
    cases hs : item.statement with
    | none => rfl
    | some s =>
      rw [Option.map_some, Option.bind_some]
      dsimp only
      rw [Statement.findSome?_fault?_operands (h.printable s hs)]
      rfl
  have hlabel : (item.label.map String.toList).map String.ofList = item.label := by
    rw [Option.map_map]
    simp [Function.comp_def]
  have hcommand : item.parts.meaning.command = item.statement.map Statement.command := by
    refine (Option.map_map _ _ _).trans ?_
    refine congrArg (item.statement.map ·) (funext fun s => ?_)
    exact congrArg (Command.mk · _) String.ofList_toList
  have hmeaning : item.parts.meaning = ⟨item.label, item.statement.map Statement.command⟩ := by
    rw [← hcommand]
    exact congrArg (SourceLine.mk · _) hlabel
  rw [SourceLine.parse_eq_verdict (LineText.scan?_eq_some_iff.mpr hspells) hspells, hfault,
    hmeaning, verdict_none]

/-- **A reprinted line reads as the same.** -/
theorem parse_of_reprints (h : Item.parse n line = .ok item) (hline : item.Reprints line') :
    Item.parse n line' = .ok item := by
  have hwritable := writable_of_parse h
  refine parse_eq_ok_iff.mpr ⟨_, hwritable.parse_sourceLine hline, line_of_parse h, rfl, ?_⟩
  cases hs : item.statement with
  | none => exact .none
  | some s => exact .some (Statement.ofCommand_operands (hwritable.printable s hs))

/-- The command of a line that is read can be replaced by the statement in print, in its place. -/
theorem exists_reprints_inPlace (h : Item.parse n line = .ok item) :
    ∃ (parts : LineText) (before command after : List Char), parts.Spells line ∧
      line = before ++ (command ++ after) ∧ SpellsCommand parts.command command ∧
        item.Reprints (before ++ (item.statementText ++ after)) := by
  obtain ⟨parsed, hparsed, -, hlabel, -⟩ := parse_eq_ok_iff.mp h
  obtain ⟨parts, hspells, rfl⟩ := SourceLine.exists_spells_of_parse hparsed
  have hname : item.label.map String.toList = parts.label := by
    rw [hlabel, LineText.meaning, Option.map_map]
    simp [Function.comp_def]
  refine ⟨parts, ?_⟩
  cases hspells with
  | @intro b l c b' comment hb hl hc hb' hcomment =>
    rw [← hname] at hl
    -- the label is in front of the command, blanks and the comment behind it
    refine ⟨b ++ l, c, b' ++ comment, .intro hb (hname ▸ hl) hc hb' hcomment, ?_, hc, ?_⟩
    · simp only [List.append_assoc]
    · have hline := Reprints.intro hb hl hb' hcomment
      simpa only [List.append_assoc] using hline

end Item

/-! ### Sources in print -/

/-- The line of an item, in print. -/
def Item.printedLine (item : Item) : List Char :=
  labelText (item.label.map String.toList) ++ item.statementText

/-- A source in print, with a line feed behind each line. -/
def reprinted (items : List Item) : String :=
  String.ofList (items.flatMap fun item => item.printedLine ++ ['\n'])

section Sources

variable {items : List Item} {source source' : String}

/-- Lines that reprint items read as these, with the numbers that these have. -/
theorem map_parse_of_reprints {lines lines' : List (List Char)} {k : Nat}
    (h : (lines.zipIdx k).map (fun (text, line) => Item.parse line text) = items.map .ok)
    (hlines : List.Forall₂ Item.Reprints items lines') :
    (lines'.zipIdx k).map (fun (text, line) => Item.parse line text) = items.map .ok := by
  induction hlines generalizing lines k with
  | nil => rfl
  | @cons item line' items lines' hline hlines ih =>
    cases lines with
    | nil => cases h
    | cons line lines =>
      rw [List.zipIdx_cons, List.map_cons, List.map_cons, List.cons.injEq] at h ⊢
      exact ⟨Item.parse_of_reprints h.1 hline, ih h.2⟩

/-- **A reprinted source reads as the same lines.** -/
theorem Reads.of_reprints (h : Reads source items)
    (hlines : List.Forall₂ Item.Reprints items (textLines source'.toList)) :
    Reads source' items :=
  map_parse_of_reprints h hlines

theorem Item.Writable.reprints_printedLine {item : Item} (h : item.Writable) :
    item.Reprints item.printedLine := by
  have hline : item.Reprints ([] ++ (labelText (item.label.map String.toList)
      ++ (item.statementText ++ ([] ++ [])))) :=
    .intro blank_nil (spellsLabel_labelText (isName_of_mem_map h.isName)) blank_nil .none
  rw [Item.printedLine]
  simpa only [List.nil_append, List.append_nil] using hline

/-- Every source that reads can be reprinted. -/
theorem forall₂_reprinted (h : Reads source items) :
    List.Forall₂ Item.Reprints items (textLines (reprinted items).toList) := by
  -- what has been read can be written
  have hitems : ∀ item ∈ items, item.Writable := by
    intro item hitem
    obtain ⟨line, text, hparse⟩ := h.exists_parse hitem
    exact Item.writable_of_parse hparse
  have hlines : (reprinted items).toList
      = (items.map Item.printedLine).flatMap (· ++ ['\n']) := by
    rw [reprinted, String.toList_ofList, List.flatMap_map]
  rw [hlines, textLines_terminated, List.forall₂_map_right_iff, List.forall₂_same]
  · exact fun item hitem => (hitems item hitem).reprints_printedLine
  · intro line hline
    obtain ⟨item, hitem, rfl⟩ := List.mem_map.mp hline
    exact ((hitems item hitem).spells (hitems item hitem).reprints_printedLine).isLineEnd

end Sources

/-! ### The main result -/

/-- **Printing a statement and reading it back changes nothing.**  The print of whatever a line
stands for is a line without a label that stands for the same.  On any line that reads, the print
can be put in the place of the command, between what stands around it.  A source all of whose lines
read assembles to the same output when every statement is replaced by its print and the labels are
kept, whichever blanks and comments there are, and there is such a source. -/
theorem Statement.text_rereads :
    (∀ line parsed command s, SourceLine.parse line = .ok parsed →
      parsed.command = some command → ofCommand command = .ok s →
        ∃ command', SourceLine.parse s.text.toList = .ok ⟨none, some command'⟩ ∧
          ofCommand command' = .ok s) ∧
    (∀ n line item, Item.parse n line = .ok item →
      ∃ (parts : LineText) (before command after : List Char), parts.Spells line ∧
        line = before ++ (command ++ after) ∧ SpellsCommand parts.command command ∧
          item.Reprints (before ++ (item.statementText ++ after))) ∧
    ∀ source items, Reads source items →
      (∀ source', List.Forall₂ Item.Reprints items (textLines source'.toList) →
        ∀ wording moduleName,
          assemble wording moduleName source' = assemble wording moduleName source) ∧
      List.Forall₂ Item.Reprints items (textLines (reprinted items).toList) := by
  refine ⟨?_, fun n line item h => Item.exists_reprints_inPlace h, ?_⟩
  · intro line parsed command s hparse hcommand hs
    obtain ⟨-, hoperands⟩ := SourceLine.isNamed_of_parse hparse
    have hprintable : s.Printable := printable_of_ofCommand hs (hoperands command hcommand)
    -- the print is the line of an item without a label
    have hwritable : Item.Writable ⟨0, none, some s⟩ := by
      refine ⟨fun _ hname => (nomatch hname), fun s' hs' => ?_⟩
      obtain rfl := Option.some.inj hs'
      exact hprintable
    exact ⟨s.command, hwritable.parse_sourceLine hwritable.reprints_printedLine,
      ofCommand_operands hprintable⟩
  · intro source items hreads
    -- the assembler sees of a source only what its lines are read as
    refine ⟨fun source' hlines => assemble_congr (ofSource_congr ?_), forall₂_reprinted hreads⟩
    rw [readItems_eq_ok_iff.mpr hreads, readItems_eq_ok_iff.mpr (hreads.of_reprints hlines)]

/-- A source that leaves much to be understood.  The label that it jumps to has the shape of a
register. -/
def terseSource : String :=
  "a: LOAD r01,$fF;x\nR2:  ; y\n CMP R1 , r2\n\n jump R2 [ R3 ]\nv:\tData -1,a"

/-- The lines of this source, read. -/
def terseItems : List Item :=
  [⟨1, some "a", some (.memory .load 1 (.literal 255) 0)⟩, ⟨2, some "R2", none⟩,
    ⟨3, none, some (.register .cmp 0 1 2)⟩, ⟨4, none, none⟩,
    ⟨5, none, some (.memory .jump 0 (.label "R2") 3)⟩,
    ⟨6, some "v", some (.data [.literal 65535, .label "a"])⟩]

/-- The jump reads the same in print, and the source assembles to the same words. -/
theorem Statement.text_rereads_terse :
    (∃ command, SourceLine.parse "jump R2[R3]".toList = .ok ⟨none, some command⟩ ∧
      ofCommand command = .ok (.memory .jump 0 (.label "R2") 3)) ∧
    reprinted terseItems
      = "a: load R1,255[R0]\nR2: \ncmp R1,R2\n\njump R2[R3]\nv: data 65535,a\n" ∧
    assemble plainWording "main" (reprinted terseItems)
      = assemble plainWording "main" terseSource ∧
    (assemble plainWording "main" terseSource).objectCode
      = [0xf101, 255, 0x4012, 0xf033, 2, 65535, 0] := by
  obtain ⟨hline, -, hsource⟩ := text_rereads
  have hreads : Reads terseSource terseItems := by
    unfold Reads
    decide +kernel
  obtain ⟨hsame, hlines⟩ := hsource terseSource terseItems hreads
  have hparse : SourceLine.parse " jump R2 [ R3 ]".toList
      = .ok ⟨none, some ⟨"jump", [.indexed (.label "R2") 3]⟩⟩ := by decide +kernel
  have hjump : ofCommand ⟨"jump", [.indexed (.label "R2") 3]⟩
      = .ok (.memory .jump 0 (.label "R2") 3) := by decide +kernel
  exact ⟨hline _ _ _ _ hparse rfl hjump, by decide +kernel, hsame _ hlines plainWording "main",
    by decide +kernel⟩

end Hindsight
