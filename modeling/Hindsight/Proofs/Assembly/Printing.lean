import Hindsight.Proofs.Assembly.Listing

/-!
# A printed statement reads as itself

The written form of a statement spells out what source may leave to be understood: an address has
its index register, words are unsigned decimal numerals, and a label is written as it is.  Behind
a label of its own, or alone, it is a line that reads as the statement, as long as its labels are
names, and names that stand alone are not in the shape of a register.

## Main definitions

* `Value.IsNamed`, `Value.StandsAlone` — values that can be written, and without an index.
* `Statement.Printable` — a statement whose written form can be read.
* `writtenLine`, `writtenSource` — a statement behind a label, and a program of such lines.
* `writtenItems` — the lines of a written program, read.

## Main results

* `Numeral.value_toDigits` — the decimal numeral of a number denotes it.
* `Statement.toList_text` — the written form is a mnemonic and operands.
* `Statement.parse_writtenLine` — **a printed statement reads as itself.**
* `reads_of_textLines`, `reads_writtenSource` — and so does a program.
-/

namespace Hindsight

/-! ### Decimal numerals -/

namespace Numeral

theorem digitValue_of_isDigit {c : Char} (h : c.isDigit) : digitValue c = c.toNat - '0'.toNat := by
  have hc := isDigit_iff.mp h
  have hrange : '0' ≤ c ∧ c ≤ '9' := ⟨char_le_iff.mpr hc.1, char_le_iff.mpr hc.2⟩
  rw [digitValue, digitValue?, if_pos hrange]
  rfl

/-- The positional value of digits is what the digits denote. -/
theorem value_eq_ofDigitChars {digits : List Char} (h : ∀ c ∈ digits, c.isDigit) :
    value 10 digits = Nat.ofDigitChars 10 digits 0 := by
  induction digits with
  | nil => rfl
  | cons c digits ih =>
    obtain ⟨hc, hdigits⟩ := List.forall_mem_cons.mp h
    have hfirst : Nat.ofDigitChars 10 digits (c.toNat - '0'.toNat)
        = 10 ^ digits.length * (c.toNat - '0'.toNat) + Nat.ofDigitChars 10 digits 0 :=
      Nat.ofDigitChars_eq_ofDigitChars_zero
    rw [value_cons, ih hdigits, digitValue_of_isDigit hc, Nat.ofDigitChars_cons, Nat.mul_zero,
      Nat.zero_add, hfirst, Nat.add_comm]

theorem isRun_toDigits (n : Nat) : IsRun Char.isDigit (Nat.toDigits 10 n) :=
  ⟨Nat.toDigits_ne_nil, fun _ hc => Nat.isDigit_of_mem_toDigits (by decide) (by decide) hc⟩

/-- **The decimal numeral of a number denotes it.** -/
theorem value_toDigits (n : Nat) : value 10 (Nat.toDigits 10 n) = n := by
  rw [value_eq_ofDigitChars (isRun_toDigits n).2, Nat.ofDigitChars_ten_toDigits]

end Numeral

theorem toList_decimal (w : Word) : (Word.decimal w).toList = Nat.toDigits 10 w.toNat := by
  rw [Word.decimal, Nat.toString_eq_ofList_toDigits, String.toList_ofList]

/-! ### Written values and registers -/

namespace Value

/-- A label in a value is a name. -/
def IsNamed (v : Value) : Prop := ∀ name, v = label name → IsName name.toList

/-- A label that stands alone must not be taken for a register. -/
def StandsAlone (v : Value) : Prop := ∀ name, v = label name → ¬ IsRegister name.toList

variable {v : Value}

theorem isValue_text (h : v.IsNamed) : IsValue v.text.toList := by
  cases v with
  | literal w =>
    rw [text, toList_decimal]
    exact .decimal (Numeral.isRun_toDigits w.toNat)
  | label name => exact .name (h name rfl)

/-- A numeral does not begin with a letter. -/
theorem not_isRegister_text (h : v.StandsAlone) : ¬ IsRegister v.text.toList := by
  cases v with
  | label name => exact h name rfl
  | literal w =>
    rw [text, toList_decimal]
    intro hreg
    obtain ⟨hne, hdigits⟩ := Numeral.isRun_toDigits w.toNat
    generalize Nat.toDigits 10 w.toNat = digits at hreg hne hdigits
    cases hreg with
    | intro hc _ =>
      have hdigit := hdigits _ List.mem_cons_self
      rcases hc with rfl | rfl <;> exact absurd hdigit (by decide)

/-- A written value is read as itself. -/
theorem fault?_meaning_text (h : v.IsNamed) :
    fault? v.text.toList = none ∧ meaning v.text.toList = v := by
  cases v with
  | literal w =>
    have hw : w.toNat < 65536 := w.toNat_lt
    -- the digits are those of a word, so that the number is in range
    have hliteral : literal? (text (literal w)).toList = some (w.toNat : Int) := by
      rw [text, toList_decimal, literal?_decimal (Numeral.isRun_toDigits w.toNat),
        Numeral.value_toDigits]
    constructor
    · rw [fault?, hliteral, Option.bind_some, if_pos (by omega)]
    · rw [meaning, hliteral]
      dsimp only
      rw [Numeral.ofSigned_natCast, UInt16.ofNat_toNat]
  | label name =>
    have hliteral : literal? (text (label name)).toList = none := literal?_name (h name rfl)
    constructor
    · rw [fault?, hliteral, Option.bind_none]
    · rw [meaning, hliteral]
      exact congrArg label String.ofList_toList

end Value

/-- A register is written as the field that holds it. -/
theorem Reg.text_eq (r : Reg) : Reg.text r = Instruction.fieldText (Statement.regField r) := by
  rw [text, Instruction.fieldText, toNat_regField]

theorem toNat_regField_lt (r : Reg) : (Statement.regField r).toNat < 16 := by
  rw [toNat_regField]
  exact r.isLt

@[simp] theorem fieldReg_regField (r : Reg) : fieldReg (Statement.regField r) = r := by
  rw [fieldReg, toNat_regField]
  exact Fin.ext (Nat.mod_eq_of_lt r.isLt)

namespace OperandText

/-- The texts of the operands that a statement can have. -/
def ofReg (r : Reg) : OperandText := Instruction.registerOperand (Statement.regField r)

def ofAddress (disp : Value) (index : Reg) : OperandText :=
  .indexed disp.text.toList (Reg.text index).toList

def ofValue (v : Value) : OperandText := .value v.text.toList

theorem denotes_ofReg (r : Reg) : (ofReg r).Denotes (.register r) := by
  have h := Instruction.denotes_registerOperand (toNat_regField_lt r)
  rwa [fieldReg_regField] at h

theorem denotes_ofAddress {disp : Value} (h : disp.IsNamed) (index : Reg) :
    (ofAddress disp index).Denotes (.indexed disp index) := by
  obtain ⟨hfault, hmeaning⟩ := Value.fault?_meaning_text h
  have hlt := toNat_regField_lt index
  rw [ofAddress, Reg.text_eq]
  refine ⟨spells_indexed (Value.isValue_text h) (Instruction.isRegister_fieldText hlt), ?_, ?_⟩
  · rw [fault?, hfault, Instruction.registerFault?_fieldText hlt]
    rfl
  · rw [meaning, hmeaning, Instruction.registerMeaning_fieldText hlt, fieldReg_regField]

theorem denotes_ofValue {v : Value} (h : v.IsNamed) (halone : v.StandsAlone) :
    (ofValue v).Denotes (.value v) := by
  obtain ⟨hfault, hmeaning⟩ := Value.fault?_meaning_text h
  exact ⟨.value (Value.isValue_text h) (Value.not_isRegister_text halone), hfault,
    congrArg Operand.value hmeaning⟩

end OperandText

/-! ### Written statements -/

namespace Statement

/-- The mnemonic, or the data directive. -/
def mnemonic : Statement → String
  | register op .. => op.mnemonic
  | memory op .. => op.mnemonic
  | data _ => dataDirective

/-- The operands of the written form. -/
def operands : Statement → List OperandText
  | register op d a b => (if op.hasDestination then [.ofReg d] else []) ++ [.ofReg a, .ofReg b]
  | memory op d disp index =>
    (if op.namesRegister then [.ofReg d] else []) ++ [.ofAddress disp index]
  | data values => values.map .ofValue

/-- The written form says everything, and can be read: a field that is not used is zero, labels
are names, and data are not taken for registers. -/
def Printable : Statement → Prop
  | register op d _ _ => op.hasDestination ∨ d = 0
  | memory op d disp _ => (op.namesRegister ∨ d = 0) ∧ disp.IsNamed
  | data values => values ≠ [] ∧ ∀ v ∈ values, v.IsNamed ∧ v.StandsAlone

variable {s : Statement}

theorem writtenOperands_cons_cons (o o' : OperandText) (os : List OperandText) :
    writtenOperands (o :: o' :: os) = o.written ++ ',' :: writtenOperands (o' :: os) := by
  simp [writtenOperands]

/-- Values with commas between them are written operands. -/
theorem toList_intercalate_text (values : List Value) :
    (",".intercalate (values.map Value.text)).toList
      = writtenOperands (values.map OperandText.ofValue) := by
  induction values with
  | nil => rfl
  | cons v values ih =>
    cases values with
    | nil => simp [writtenOperands, OperandText.written, OperandText.ofValue]
    | cons v' values =>
      simp only [List.map_cons] at ih ⊢
      rw [String.intercalate_cons_cons, String.toList_append, String.toList_append, ih,
        writtenOperands_cons_cons]
      simp [OperandText.written, OperandText.ofValue]

/-- **The written form is a mnemonic and operands**, with a space between them. -/
theorem toList_text (s : Statement) :
    s.text.toList = s.mnemonic.toList ++ ' ' :: writtenOperands s.operands := by
  cases s with
  | register op d a b =>
    cases h : op.hasDestination <;>
      simp [text, mnemonic, operands, h, writtenOperands, OperandText.written, OperandText.ofReg,
        Instruction.registerOperand, Reg.text_eq]
  | memory op d disp index =>
    cases h : op.namesRegister <;>
      simp [text, mnemonic, operands, h, writtenOperands, OperandText.written, OperandText.ofReg,
        OperandText.ofAddress, Instruction.registerOperand, Reg.text_eq]
  | data values =>
    rw [text, String.toList_append, String.toList_append, toList_intercalate_text,
      List.append_assoc]
    rfl

theorem isRun_mnemonic (s : Statement) : IsRun Char.isAlpha s.mnemonic.toList := by
  cases s with
  | register op d a b => exact (Opcode.register op).isRun_mnemonic
  | memory op d disp index => exact (Opcode.memory op).isRun_mnemonic
  | data values =>
    have hall : dataDirective.toList.all Char.isAlpha = true := by decide
    exact ⟨by simp [mnemonic, dataDirective], List.all_eq_true.mp hall⟩

theorem operands_ne_nil (h : s.Printable) : s.operands ≠ [] := by
  cases s with
  | register op d a b => simp [operands]
  | memory op d disp index => simp [operands]
  | data values => exact fun hnil => h.1 (List.map_eq_nil_iff.mp hnil)

/-- Every operand is read as one. -/
theorem exists_denotes_of_mem_operands (h : s.Printable) :
    ∀ o ∈ s.operands, ∃ operand, o.Denotes operand := by
  have hreg : ∀ r, ∃ operand, (OperandText.ofReg r).Denotes operand :=
    fun r => ⟨_, OperandText.denotes_ofReg r⟩
  cases s with
  | register op d a b => cases hdest : op.hasDestination <;> simp [operands, hdest, hreg]
  | memory op d disp index =>
    have haddress : ∃ operand, (OperandText.ofAddress disp index).Denotes operand :=
      ⟨_, OperandText.denotes_ofAddress h.2 index⟩
    cases hnames : op.namesRegister <;> simp [operands, hnames, hreg, haddress]
  | data values =>
    intro o ho
    obtain ⟨v, hv, rfl⟩ := List.mem_map.mp ho
    obtain ⟨hnamed, halone⟩ := h.2 v hv
    exact ⟨_, OperandText.denotes_ofValue hnamed halone⟩

/-- Values are what data are made of. -/
theorem mapM_asValue (values : List Value) :
    (values.map Operand.value).mapM Operand.asValue = .ok values := by
  induction values with
  | nil => rfl
  | cons v values ih =>
    rw [List.map_cons, List.mapM_cons, ih]
    rfl

/-- A data directive and values stand for data. -/
theorem ofCommand_dataDirective {values : List Value} (hne : values ≠ []) :
    ofCommand ⟨dataDirective, values.map Operand.value⟩ = .ok (data values) := by
  have hdirective : Opcode.lowercase dataDirective = dataDirective := by decide
  have hvalues := mapM_asValue values
  rw [ofCommand, if_pos hdirective]
  cases values with
  | nil => exact absurd rfl hne
  | cons v values =>
    simp only [List.map_cons] at hvalues ⊢
    simp only [ofData, hvalues]

/-- **The operands stand for the statement.** -/
theorem ofCommand_operands (h : s.Printable) :
    ofCommand ⟨s.mnemonic, s.operands.map OperandText.meaning⟩ = .ok s := by
  have hreg : ∀ r, (OperandText.ofReg r).meaning = .register r :=
    fun r => (OperandText.denotes_ofReg r).meaning_eq
  cases s with
  | register op d a b =>
    have hoperands : (register op d a b).operands.map OperandText.meaning
        = (if op.hasDestination then [.register d] else []) ++ [.register a, .register b] := by
      rw [operands]
      cases op.hasDestination <;> simp [hreg]
    -- a destination that is not named is zero
    have hdest : (if op.hasDestination then d else 0) = d := ite_eq_left_iff.mpr fun hnone =>
      (h.resolve_left hnone).symm
    refine (ofCommand_mnemonic (.register op) _).trans ?_
    rw [hoperands, ofInstruction, ofOperands?_register, hdest]
  | memory op d disp index =>
    have haddress := (OperandText.denotes_ofAddress h.2 index).meaning_eq
    have hoperands : (memory op d disp index).operands.map OperandText.meaning
        = (if op.namesRegister then [.register d] else []) ++ [.indexed disp index] := by
      rw [operands]
      cases op.namesRegister <;> simp [hreg, haddress]
    have hnamed : (if op.namesRegister then d else 0) = d := ite_eq_left_iff.mpr fun hnone =>
      (h.1.resolve_left hnone).symm
    refine (ofCommand_mnemonic (.memory op) _).trans ?_
    rw [hoperands, ofInstruction, ofOperands?_memory, hnamed]
  | data values =>
    have hvalues : (data values).operands.map OperandText.meaning = values.map Operand.value := by
      rw [operands, List.map_map]
      refine List.map_congr_left fun v hv => ?_
      obtain ⟨hnamed, halone⟩ := h.2 v hv
      exact (OperandText.denotes_ofValue hnamed halone).meaning_eq
    rw [hvalues]
    exact ofCommand_dataDirective h.1

end Statement

/-! ### Written lines -/

/-- A statement in its written form, behind a label if it has one. -/
def writtenLine (label : Option String) (s : Statement) : List Char :=
  labelText (label.map String.toList) ++ s.text.toList

section Lines

variable {label : Option String} {s : Statement}

theorem isName_of_mem_map (h : ∀ name ∈ label, IsName name.toList) :
    ∀ name ∈ label.map String.toList, IsName name := by
  intro name hname
  obtain ⟨name, hmem, rfl⟩ := Option.map_eq_some_iff.mp hname
  exact h name hmem

/-- **A printed statement reads as itself**, behind a label or without one, whichever line it
stands on. -/
theorem Statement.parse_writtenLine (hlabel : ∀ name ∈ label, IsName name.toList)
    (hs : s.Printable) (line : Nat) :
    Item.parse line (writtenLine label s) = .ok ⟨line, label, some s⟩ := by
  have hcommand : ofCommand ⟨String.ofList s.mnemonic.toList, s.operands.map OperandText.meaning⟩
      = .ok s := by
    rw [String.ofList_toList]
    exact ofCommand_operands hs
  have hparse := Item.parse_written (isName_of_mem_map hlabel) s.isRun_mnemonic (operands_ne_nil hs)
    (exists_denotes_of_mem_operands hs) hcommand line
  rw [writtenLine, toList_text, hparse]
  cases label <;> simp

/-- It is a single line. -/
theorem Statement.isLineEnd_of_mem_writtenLine (hlabel : ∀ name ∈ label, IsName name.toList)
    (hs : s.Printable) {c : Char} (hc : c ∈ writtenLine label s) : isLineEnd c = false := by
  rw [writtenLine, toList_text] at hc
  exact isLineEnd_of_mem_written (isName_of_mem_map hlabel) s.isRun_mnemonic (operands_ne_nil hs)
    (fun o ho => (exists_denotes_of_mem_operands hs o ho).choose_spec.spells) hc

end Lines

/-! ### Written programs -/

/-- The lines of a program, read: each with its number, its label and its statement. -/
def writtenItems (lines : List (Option String × Statement)) : List Item :=
  (lines.zipIdx 1).map fun (x, line) => ⟨line, x.1, some x.2⟩

/-- A program in its written form, with a line feed behind each line. -/
def writtenSource (lines : List (Option String × Statement)) : String :=
  String.ofList (lines.flatMap fun x => writtenLine x.1 x.2 ++ ['\n'])

section Programs

variable {lines : List (Option String × Statement)}

theorem getElem?_writtenItems (lines : List (Option String × Statement)) (k : Nat) :
    (writtenItems lines)[k]? = lines[k]?.map fun x => ⟨k + 1, x.1, some x.2⟩ := by
  rw [writtenItems, List.getElem?_map, List.getElem?_zipIdx, Option.map_map, Nat.add_comm k 1]
  rfl

theorem totalSize_writtenItems (lines : List (Option String × Statement)) :
    totalSize (writtenItems lines) = (lines.map fun x => x.2.size).sum := by
  rw [totalSize, writtenItems, List.map_map]
  show ((lines.zipIdx 1).map ((fun x => x.2.size) ∘ Prod.fst)).sum = _
  rw [← List.map_map, List.zipIdx_map_fst]

theorem labelDefs_writtenItems (lines : List (Option String × Statement)) :
    labelDefs (writtenItems lines) = lines.filterMap Prod.fst := by
  rw [labelDefs, writtenItems, List.filterMap_map]
  show (lines.zipIdx 1).filterMap (Prod.fst ∘ Prod.fst) = _
  rw [← List.filterMap_map, List.zipIdx_map_fst]

variable (h : ∀ x ∈ lines, (∀ name ∈ x.1, IsName name.toList) ∧ x.2.Printable)

include h

/-- **A program that is written line by line reads as its lines.**  The last line may end with the
text. -/
theorem reads_of_textLines {source : String}
    (hsource : textLines source.toList = lines.map fun x => writtenLine x.1 x.2) :
    Reads source (writtenItems lines) := by
  unfold Reads writtenItems
  rw [hsource, List.zipIdx_map, List.map_map, List.map_map]
  refine List.map_congr_left fun e he => ?_
  obtain ⟨x, line⟩ := e
  obtain ⟨hlabel, hprintable⟩ := h x (List.fst_mem_of_mem_zipIdx he)
  exact Statement.parse_writtenLine hlabel hprintable line

theorem textLines_writtenSource :
    textLines (writtenSource lines).toList = lines.map fun x => writtenLine x.1 x.2 := by
  have hlines : (writtenSource lines).toList
      = (lines.map fun x => writtenLine x.1 x.2).flatMap (· ++ ['\n']) := by
    rw [writtenSource, String.toList_ofList, List.flatMap_map]
  rw [hlines]
  -- no line is broken by what is written on it
  refine textLines_terminated fun line hline c hc => ?_
  obtain ⟨x, hx, rfl⟩ := List.mem_map.mp hline
  obtain ⟨hlabel, hprintable⟩ := h x hx
  exact Statement.isLineEnd_of_mem_writtenLine hlabel hprintable hc

/-- **A printed program reads as its lines.** -/
theorem reads_writtenSource : Reads (writtenSource lines) (writtenItems lines) :=
  reads_of_textLines h (textLines_writtenSource h)

end Programs

end Hindsight
