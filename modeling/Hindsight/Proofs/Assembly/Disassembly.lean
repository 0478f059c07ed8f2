import Hindsight.Proofs.Assembly.LineLanguage
import Hindsight.Proofs.Isa.Sweep

/-!
# A printed instruction reads as itself

The assembly form of an instruction is a source line, and the statement that it is read as has the
operation, the registers and the displacement of the instruction.  A comparison and a jump that
looks at no register do not show the field that they do not use, so that it is read as zero.

## Main definitions

* `OperandText.written`, `writtenOperands` — operands with nothing but commas between them.
* `labelText` — a label with its colon and a space.
* `Instruction.operands` — the operands of the assembly form.
* `Instruction.canonical` — the instruction with an unused field cleared.
* `Instruction.statement` — the statement with the parts of an instruction.

## Main results

* `spells_written`, `Item.parse_written` — a written line is one of the language, and reads as its
  label and its statement.
* `Instruction.parse_text` — **the assembly form reads as the canonical instruction.**
-/

namespace Hindsight

/-! ### Written operands -/

/-- The text of an operand without blanks in it. -/
def OperandText.written : OperandText → List Char
  | register text => text
  | value text => text
  | indexed disp index => disp ++ '[' :: (index ++ [']'])

/-- The text of operands with nothing but commas between them. -/
def writtenOperands : List OperandText → List Char
  | [] => []
  | o :: os => o.written ++ os.flatMap fun o => ',' :: o.written

theorem OperandText.spells_indexed {disp index : List Char} (hdisp : IsValue disp)
    (hindex : IsRegister index) : (indexed disp index).Spells (indexed disp index).written :=
  .indexed hdisp blank_nil blank_nil hindex blank_nil

theorem spellsMore_written {os : List OperandText} (h : ∀ o ∈ os, o.Spells o.written) :
    SpellsMore os (os.flatMap fun o => ',' :: o.written) := by
  induction os with
  | nil => exact .nil
  | cons o os ih =>
    obtain ⟨ho, hos⟩ := List.forall_mem_cons.mp h
    exact .cons blank_nil blank_nil ho (ih hos)

/-- Operands may follow a mnemonic behind one space. -/
theorem spellsOperands_written {os : List OperandText} (hne : os ≠ [])
    (h : ∀ o ∈ os, o.Spells o.written) : SpellsOperands os (' ' :: writtenOperands os) := by
  cases os with
  | nil => exact absurd rfl hne
  | cons o os =>
    obtain ⟨ho, hos⟩ := List.forall_mem_cons.mp h
    have hspace : Blank [' '] := by simp [Blank, isBlank]
    exact .cons hspace ho (spellsMore_written hos)

/-! ### Registers and words as operands -/

namespace Instruction

variable {f : UInt8}

theorem isRegister_fieldText (hf : f.toNat < 16) : IsRegister (fieldText f).toList := by
  have hscan : scanRegister (fieldText f).toList = some ((fieldText f).toList, []) := by
    refine forall_narrowField (p := fun f => scanRegister (fieldText f).toList
      = some ((fieldText f).toList, [])) ?_ hf
    decide
  exact (scanRegister_eq_some_iff.mp hscan).2.1

theorem registerNumber_fieldText (hf : f.toNat < 16) :
    Operand.registerNumber (fieldText f).toList = f.toNat := by
  refine forall_narrowField (p := fun f => Operand.registerNumber (fieldText f).toList = f.toNat)
    ?_ hf
  decide

end Instruction

/-- A digit is one, and has its value. -/
theorem digit_hexDigit (n : Nat) :
    isHexDigit (hexDigit n) ∧ Numeral.digitValue (hexDigit n) = n % 16 := by
  have h : ∀ d : Fin 16, isHexDigit (Nat.digitChar d.val) ∧
      Numeral.digitValue (Nat.digitChar d.val) = d.val := by decide
  exact h ⟨n % 16, Nat.mod_lt n (by decide)⟩

theorem toList_hex (w : Word) :
    (Word.hex w).toList = [hexDigit (w.toNat / 4096), hexDigit (w.toNat / 256),
      hexDigit (w.toNat / 16), hexDigit w.toNat] := by
  rw [Word.hex, String.toList_ofList]

theorem isRun_hex (w : Word) : IsRun isHexDigit (Word.hex w).toList := by
  rw [toList_hex]
  refine ⟨List.cons_ne_nil _ _, ?_⟩
  simp only [List.forall_mem_cons, (digit_hexDigit _).1, List.not_mem_nil, false_implies,
    implies_true, and_self]

/-- Four digits are enough for a word. -/
theorem value_hex (w : Word) : Numeral.value 16 (Word.hex w).toList = w.toNat := by
  have hw : w.toNat < 65536 := w.toNat_lt
  rw [toList_hex]
  simp only [Numeral.value_cons, (digit_hexDigit _).2, List.length_cons, List.length_nil]
  simp only [Numeral.value, List.map_nil, List.reverse_nil, Nat.ofDigits_nil]
  omega

/-- A displacement is printed as a numeral of that number. -/
theorem literal?_hex (w : Word) :
    Value.literal? ('$' :: (Word.hex w).toList) = some (w.toNat : Int) := by
  rw [Value.literal?, value_hex]

/-! ### Mnemonics -/

namespace Opcode

/-- A mnemonic consists of letters. -/
theorem isRun_mnemonic (op : Opcode) : IsRun Char.isAlpha op.mnemonic.toList := by
  have hne : op.mnemonic.toList ≠ [] := by
    cases op with
    | register op => cases op <;> decide
    | memory op => cases op <;> decide
  have hall : op.mnemonic.toList.all Char.isAlpha = true := by
    cases op with
    | register op => cases op <;> decide
    | memory op => cases op <;> decide
  exact ⟨hne, List.all_eq_true.mp hall⟩

/-- No mnemonic is the name of the data directive. -/
theorem lowercase_mnemonic_ne (op : Opcode) :
    lowercase op.mnemonic ≠ Statement.dataDirective := by
  cases op with
  | register op => cases op <;> decide
  | memory op => cases op <;> decide

end Opcode

/-- A mnemonic and operands stand for an instruction. -/
theorem Statement.ofCommand_mnemonic (op : Opcode) (operands : List Operand) :
    ofCommand ⟨op.mnemonic, operands⟩ = ofInstruction op operands := by
  rw [ofCommand, if_neg op.lowercase_mnemonic_ne]
  dsimp only
  rw [Opcode.ofMnemonic?_mnemonic]

/-- The registers of an instruction stand for its statement.  The destination is named if there is
one, and zero if not. -/
theorem Statement.ofOperands?_register (op : RegisterOp) (d a b : Reg) :
    ofOperands? (.register op)
        ((if op.hasDestination then [.register d] else []) ++ [.register a, .register b])
      = some (.ok (register op (if op.hasDestination then d else 0) a b)) := by
  unfold ofOperands?
  dsimp only
  cases op.hasDestination <;> rfl

/-- So do a register and an address, or an address alone. -/
theorem Statement.ofOperands?_memory (op : MemoryOp) (d : Reg) (disp : Value) (index : Reg) :
    ofOperands? (.memory op)
        ((if op.namesRegister then [.register d] else []) ++ [.indexed disp index])
      = some (.ok (memory op (if op.namesRegister then d else 0) disp index)) := by
  unfold ofOperands?
  dsimp only
  cases op.namesRegister <;> rfl

/-! ### The operands of an instruction -/

/-- An operand text without blanks that is read as an operand. -/
structure OperandText.Denotes (o : OperandText) (operand : Operand) : Prop where
  spells : o.Spells o.written
  fault_eq : o.fault? = none
  meaning_eq : o.meaning = operand

/-! ### Written lines -/

/-- The text of a label in front of a command. -/
def labelText (label : Option (List Char)) : List Char := label.elim [] (· ++ [':', ' '])

/-- Where there is no label, there is none that is not a name. -/
theorem isName_of_mem_none : ∀ name ∈ (none : Option (List Char)), IsName name :=
  fun _ h => nomatch h

section Written

variable {label : Option (List Char)} {mnemonic : List Char} {os : List OperandText}
  {statement : Statement}

/-- A mnemonic and operands are a command, with one space between them. -/
theorem spellsCommand_written (hm : IsRun Char.isAlpha mnemonic) (hne : os ≠ [])
    (h : ∀ o ∈ os, o.Spells o.written) :
    SpellsCommand (some (mnemonic, os)) (mnemonic ++ ' ' :: writtenOperands os) := by
  have hstop : Stops isNameChar (' ' :: writtenOperands os) := stops_cons.mpr (by decide)
  exact .some hm hstop (spellsOperands_written hne h)

/-- A label is spelled with one blank behind its colon. -/
theorem spellsLabel_labelText (hlabel : ∀ name ∈ label, IsName name) :
    SpellsLabel label (labelText label) := by
  cases label with
  | none => exact .none
  | some name => exact .some (hlabel name rfl) (by simp [Blank, isBlank])

/-- A label and a command are a line. -/
theorem spells_written (hlabel : ∀ name ∈ label, IsName name) (hm : IsRun Char.isAlpha mnemonic)
    (hne : os ≠ []) (h : ∀ o ∈ os, o.Spells o.written) :
    LineText.Spells ⟨label, some (mnemonic, os)⟩
      (labelText label ++ (mnemonic ++ ' ' :: writtenOperands os)) := by
  have hline : LineText.Spells ⟨label, some (mnemonic, os)⟩
      ([] ++ (labelText label ++ (mnemonic ++ ' ' :: writtenOperands os ++ ([] ++ [])))) :=
    .intro blank_nil (spellsLabel_labelText hlabel) (spellsCommand_written hm hne h) blank_nil .none
  simpa only [List.nil_append, List.append_nil] using hline

/-- A written line is a single line. -/
theorem isLineEnd_of_mem_written (hlabel : ∀ name ∈ label, IsName name)
    (hm : IsRun Char.isAlpha mnemonic) (hne : os ≠ []) (h : ∀ o ∈ os, o.Spells o.written)
    {c : Char} (hc : c ∈ labelText label ++ (mnemonic ++ ' ' :: writtenOperands os)) :
    isLineEnd c = false :=
  (spells_written hlabel hm hne h).isLineEnd c hc

/-- **A written line reads as its label and its command**, if each operand denotes one. -/
theorem SourceLine.parse_written (hlabel : ∀ name ∈ label, IsName name)
    (hm : IsRun Char.isAlpha mnemonic) (hne : os ≠ [])
    (h : ∀ o ∈ os, ∃ operand, o.Denotes operand) :
    SourceLine.parse (labelText label ++ (mnemonic ++ ' ' :: writtenOperands os))
      = .ok ⟨label.map String.ofList,
          some ⟨String.ofList mnemonic, os.map OperandText.meaning⟩⟩ := by
  have hspells := spells_written hlabel hm hne fun o ho => (h o ho).choose_spec.spells
  have hfault : os.findSome? OperandText.fault? = none := by
    rw [List.findSome?_eq_none_iff]
    intro o ho
    exact (h o ho).choose_spec.fault_eq
  rw [SourceLine.parse_eq_verdict (LineText.scan?_eq_some_iff.mpr hspells) hspells,
    LineText.fault?, LineText.meaning]
  simp only [Option.bind_some, hfault, Option.map_none, verdict_none, Option.map_some]

/-- It is the item of its statement, whichever line it stands on. -/
theorem Item.parse_written (hlabel : ∀ name ∈ label, IsName name)
    (hm : IsRun Char.isAlpha mnemonic) (hne : os ≠ [])
    (h : ∀ o ∈ os, ∃ operand, o.Denotes operand)
    (hcommand : Statement.ofCommand ⟨String.ofList mnemonic, os.map OperandText.meaning⟩
      = .ok statement) (line : Nat) :
    Item.parse line (labelText label ++ (mnemonic ++ ' ' :: writtenOperands os))
      = .ok ⟨line, label.map String.ofList, some statement⟩ := by
  have hparse := SourceLine.parse_written hlabel hm hne h
  exact Item.parse_eq_ok_iff.mpr ⟨_, hparse, rfl, rfl, .some hcommand⟩

end Written

namespace Instruction

variable {f : UInt8} {disp : Word} {i : Instruction}

/-- A register field as an operand. -/
def registerOperand (f : UInt8) : OperandText := .register (fieldText f).toList

/-- A displacement and an index register as an operand. -/
def addressOperand (disp : Word) (a : UInt8) : OperandText :=
  .indexed ('$' :: (Word.hex disp).toList) (fieldText a).toList

/-- The operands of the assembly form. -/
def operands : Instruction → List OperandText
  | register op d a b =>
    if op.hasDestination then [registerOperand d, registerOperand a, registerOperand b]
    else [registerOperand a, registerOperand b]
  | memory op d a disp =>
    if op.namesRegister then [registerOperand d, addressOperand disp a]
    else [addressOperand disp a]

theorem registerMeaning_fieldText (hf : f.toNat < 16) :
    Operand.registerMeaning (fieldText f).toList = fieldReg f := by
  rw [Operand.registerMeaning, registerNumber_fieldText hf, fieldReg]

theorem registerFault?_fieldText (hf : f.toNat < 16) :
    Operand.registerFault? (fieldText f).toList = none := by
  rw [Operand.registerFault?, registerNumber_fieldText hf, if_pos hf]

theorem denotes_registerOperand (hf : f.toNat < 16) :
    (registerOperand f).Denotes (.register (fieldReg f)) where
  spells := .register (isRegister_fieldText hf)
  fault_eq := registerFault?_fieldText hf
  meaning_eq := congrArg Operand.register (registerMeaning_fieldText hf)

theorem denotes_addressOperand (disp : Word) (hf : f.toNat < 16) :
    (addressOperand disp f).Denotes (.indexed (.literal disp) (fieldReg f)) := by
  have hdisp : disp.toNat < 65536 := disp.toNat_lt
  -- any four hexadecimal digits are the numeral of a word
  have hfault : Value.fault? ('$' :: (Word.hex disp).toList) = none := by
    rw [Value.fault?, literal?_hex, Option.bind_some, if_pos (by omega)]
  have hmeaning : Value.meaning ('$' :: (Word.hex disp).toList) = .literal disp := by
    rw [Value.meaning, literal?_hex]
    dsimp only
    rw [Numeral.ofSigned_natCast, UInt16.ofNat_toNat]
  refine ⟨OperandText.spells_indexed (.hex (isRun_hex disp)) (isRegister_fieldText hf), ?_, ?_⟩
  · rw [addressOperand, OperandText.fault?, hfault, registerFault?_fieldText hf]
    rfl
  · rw [addressOperand, OperandText.meaning, hmeaning, registerMeaning_fieldText hf]

/-- Every operand of a decoded instruction is read as one. -/
theorem exists_denotes_of_mem_operands (hi : i.Narrow) :
    ∀ o ∈ i.operands, ∃ operand, o.Denotes operand := by
  cases i with
  | register op d a b =>
    obtain ⟨hd, ha, hb⟩ := hi
    have hd' : ∃ operand, (registerOperand d).Denotes operand := ⟨_, denotes_registerOperand hd⟩
    have ha' : ∃ operand, (registerOperand a).Denotes operand := ⟨_, denotes_registerOperand ha⟩
    have hb' : ∃ operand, (registerOperand b).Denotes operand := ⟨_, denotes_registerOperand hb⟩
    cases h : op.hasDestination <;> simp [operands, h, hd', ha', hb']
  | memory op d a disp =>
    obtain ⟨hd, ha⟩ := hi
    have hd' : ∃ operand, (registerOperand d).Denotes operand := ⟨_, denotes_registerOperand hd⟩
    have ha' : ∃ operand, (addressOperand disp a).Denotes operand :=
      ⟨_, denotes_addressOperand disp ha⟩
    cases h : op.namesRegister <;> simp [operands, h, hd', ha']

theorem operands_ne_nil (i : Instruction) : i.operands ≠ [] := by
  cases i with
  | register op d a b => cases h : op.hasDestination <;> simp [operands, h]
  | memory op d a disp => cases h : op.namesRegister <;> simp [operands, h]

/-- The assembly form is the mnemonic and its operands, with a space between them. -/
theorem toList_text (i : Instruction) :
    i.text.toList = i.opcode.mnemonic.toList ++ ' ' :: writtenOperands i.operands := by
  cases i with
  | register op d a b =>
    cases h : op.hasDestination <;>
      simp [text, operands, h, writtenOperands, OperandText.written, registerOperand, opcode,
        Opcode.mnemonic]
  | memory op d a disp =>
    cases h : op.namesRegister <;>
      simp [text, operands, h, writtenOperands, OperandText.written, registerOperand,
        addressOperand, opcode, Opcode.mnemonic]

/-! ### The statement of an instruction -/

/-- The instruction with zero in a field that it does not use. -/
def canonical : Instruction → Instruction
  | register op d a b => register op (if op.hasDestination then d else 0) a b
  | memory op d a disp => memory op (if op.namesRegister then d else 0) a disp

/-- The statement with the parts of an instruction. -/
def statement : Instruction → Statement
  | register op d a b => .register op (fieldReg d) (fieldReg a) (fieldReg b)
  | memory op d a disp => .memory op (fieldReg d) (.literal disp) (fieldReg a)

/-- The operands stand for the parts of the instruction that are printed. -/
theorem ofOperands?_operands (hi : i.Narrow) :
    Statement.ofOperands? i.opcode (i.operands.map OperandText.meaning)
      = some (.ok i.canonical.statement) := by
  cases i with
  | register op d a b =>
    obtain ⟨hd, ha, hb⟩ := hi
    have hd' := (denotes_registerOperand hd).meaning_eq
    have ha' := (denotes_registerOperand ha).meaning_eq
    have hb' := (denotes_registerOperand hb).meaning_eq
    have hoperands : (register op d a b).operands.map OperandText.meaning
        = (if op.hasDestination then [.register (fieldReg d)] else [])
          ++ [.register (fieldReg a), .register (fieldReg b)] := by
      rw [operands]
      cases op.hasDestination <;> simp [hd', ha', hb']
    -- the field that is not printed is the one that has been cleared
    have hstatement : (register op d a b).canonical.statement
        = .register op (if op.hasDestination then fieldReg d else 0) (fieldReg a) (fieldReg b) := by
      rw [canonical, statement]
      cases op.hasDestination <;> rfl
    rw [hoperands, hstatement]
    exact Statement.ofOperands?_register op _ _ _
  | memory op d a disp =>
    obtain ⟨hd, ha⟩ := hi
    have hd' := (denotes_registerOperand hd).meaning_eq
    have ha' := (denotes_addressOperand disp ha).meaning_eq
    have hoperands : (memory op d a disp).operands.map OperandText.meaning
        = (if op.namesRegister then [.register (fieldReg d)] else [])
          ++ [.indexed (.literal disp) (fieldReg a)] := by
      rw [operands]
      cases op.namesRegister <;> simp [hd', ha']
    have hstatement : (memory op d a disp).canonical.statement
        = .memory op (if op.namesRegister then fieldReg d else 0) (.literal disp) (fieldReg a) := by
      rw [canonical, statement]
      cases op.namesRegister <;> rfl
    rw [hoperands, hstatement]
    exact Statement.ofOperands?_memory op _ _ _

/-- The command of the assembly form stands for the canonical instruction. -/
theorem ofCommand_operands (hi : i.Narrow) :
    Statement.ofCommand ⟨i.opcode.mnemonic, i.operands.map OperandText.meaning⟩
      = .ok i.canonical.statement := by
  rw [Statement.ofCommand_mnemonic, Statement.ofInstruction, ofOperands?_operands hi]

/-- **The assembly form reads as the canonical instruction**, whichever line it stands on. -/
theorem parse_text (hi : i.Narrow) (line : Nat) :
    Item.parse line i.text.toList = .ok ⟨line, none, some i.canonical.statement⟩ := by
  have hcommand : Statement.ofCommand ⟨String.ofList i.opcode.mnemonic.toList,
      i.operands.map OperandText.meaning⟩ = .ok i.canonical.statement := by
    rw [String.ofList_toList]
    exact ofCommand_operands hi
  rw [toList_text]
  exact Item.parse_written isName_of_mem_none i.opcode.isRun_mnemonic i.operands_ne_nil
    (exists_denotes_of_mem_operands hi) hcommand line

end Instruction

end Hindsight
