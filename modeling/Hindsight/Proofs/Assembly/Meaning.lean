import Hindsight.Proofs.Assembly.Grammar
import Hindsight.Proofs.Assembly.Results
import Mathlib.Data.Nat.Digits.Defs

/-!
# The meaning of a line

What the parts of a line stand for, and what can be wrong with them, each said on its own: a
numeral stands for a number by the values of its digits, and is wrong when that number is no
word.  Reading the parts that spell a line is the verdict of the two.

## Main definitions

* `Numeral.value` — the number of a digit string.
* `Value.literal?`, `Operand.registerNumber` — the number in a value and in a register.
* `fault?` and `meaning` of values, registers, operands and lines.

## Main results

* `Numeral.ofDigits?_eq` — digits of any length are read exactly.
* `OperandText.read_eq_verdict`, `SourceLine.parse_eq_verdict` — reading is a verdict: the first
  fault in reading order, or else the meaning.
-/

namespace Hindsight

/-! ### Numerals -/

namespace Numeral

/-- The value of a digit, or 0 for another character. -/
def digitValue (c : Char) : Nat := (digitValue? c).getD 0

/-- The number of a digit string, in which the last digit counts one. -/
def value (base : Nat) (digits : List Char) : Nat :=
  Nat.ofDigits base (digits.map digitValue).reverse

theorem value_cons (base : Nat) (c : Char) (digits : List Char) :
    value base (c :: digits) = value base digits + base ^ digits.length * digitValue c := by
  rw [value, List.map_cons, Nat.ofDigits_reverse_cons, List.length_map]
  rfl

variable {base : Nat} {c : Char} {digits : List Char}

theorem digit?_eq_some (h : (digit? base c).isSome) : digit? base c = some (digitValue c) := by
  obtain ⟨d, hd⟩ := Option.isSome_iff_exists.mp h
  have hvalue : digitValue? c = some d := (Option.filter_eq_some_iff.mp hd).1
  rw [hd, digitValue, hvalue]
  rfl

/-- The digits behind a number shift it to the left. -/
theorem continueDigits?_eq (h : ∀ c ∈ digits, (digit? base c).isSome) (n : Nat) :
    continueDigits? base n digits = some (base ^ digits.length * n + value base digits) := by
  induction digits generalizing n with
  | nil => simp [continueDigits?, value]
  | cons c digits ih =>
    have hc : digit? base c = some (digitValue c) := digit?_eq_some (h c (List.mem_cons_self))
    rw [continueDigits?, hc]
    dsimp only
    rw [ih (fun d hd => h d (List.mem_cons_of_mem c hd)), value_cons, List.length_cons, pow_succ]
    congr 1
    ring

theorem ofDigits?_eq (hne : digits ≠ []) (h : ∀ c ∈ digits, (digit? base c).isSome) :
    ofDigits? base digits = some (value base digits) := by
  cases digits with
  | nil => exact absurd rfl hne
  | cons c digits =>
    rw [ofDigits?, continueDigits?_eq h, Nat.mul_zero, Nat.zero_add]

theorem isSome_digit?_of_isDigit (h : c.isDigit) : (digit? 10 c).isSome := by
  have hc := isDigit_iff.mp h
  have h0 : '0'.toNat = 48 := rfl
  have h9 : '9'.toNat = 57 := rfl
  have hvalue : digitValue? c = some (c.toNat - '0'.toNat) :=
    if_pos ⟨char_le_iff.mpr (by omega), char_le_iff.mpr (by omega)⟩
  rw [digit?, hvalue, Option.filter_some, if_pos (decide_eq_true (by omega))]
  rfl

theorem ofDigits?_decimal (h : IsRun Char.isDigit digits) :
    ofDigits? 10 digits = some (value 10 digits) :=
  ofDigits?_eq h.1 fun c hc => isSome_digit?_of_isDigit (h.2 c hc)

theorem ofDigits?_hex (h : IsRun isHexDigit digits) :
    ofDigits? 16 digits = some (value 16 digits) :=
  ofDigits?_eq h.1 h.2

/-- Without a plus sign, the digits are all there is. -/
theorem unsigned?_eq_ofDigits? (h : Stops (fun c => decide (c = '+')) digits) :
    unsigned? base digits = ofDigits? base digits := by
  unfold unsigned?
  split
  · exact absurd (stops_cons.mp h) (by decide)
  · rfl

theorem signed?_neg (h : IsRun Char.isDigit digits) :
    signed? ('-' :: digits) = some (-(value 10 digits : Int)) := by
  rw [signed?, ofDigits?_decimal h]
  rfl

theorem plus_of_isNameChar (h : isNameChar c) : decide (c = '+') = false := by
  rw [decide_eq_false_iff_not]
  rintro rfl
  exact absurd h (by decide)

theorem signed?_decimal (h : IsRun Char.isDigit digits) :
    signed? digits = some (value 10 digits : Int) := by
  have hplus : Stops (fun c => decide (c = '+')) digits :=
    h.stops fun _ hc => plus_of_isNameChar (isNameChar_of_isDigit hc)
  have hmark : Stops isNumeralMark digits := h.stops fun _ => isNumeralMark_of_isDigit
  unfold signed?
  split
  · exact absurd (stops_cons.mp hmark) (by decide)
  · rw [unsigned?_eq_ofDigits? hplus, ofDigits?_decimal h]
    rfl

/-- The word of a number, which may be the signed or the unsigned reading. -/
def word? (i : Int) : Option Word :=
  if -32768 ≤ i ∧ i < 65536 then some (.ofSigned i) else none

theorem ofSigned_natCast (n : Nat) : Word.ofSigned n = .ofNat n := by
  rw [Word.ofSigned, BitVec.ofInt_natCast]
  rfl

theorem hexWord?_eq (h : IsRun isHexDigit digits) : hexWord? digits = word? (value 16 digits) := by
  have hplus : Stops (fun c => decide (c = '+')) digits :=
    h.stops fun _ hc => plus_of_isNameChar (isNameChar_of_isHexDigit hc)
  rw [hexWord?, unsigned?_eq_ofDigits? hplus, ofDigits?_hex h, Option.bind_some, word?,
    ofSigned_natCast]
  by_cases hn : value 16 digits < 65536
  · rw [if_pos hn, if_pos (by omega)]
  · rw [if_neg hn, if_neg (by omega)]

theorem decimalWord?_eq {text : List Char} {i : Int} (h : signed? text = some i) :
    decimalWord? text = word? i := by
  rw [decimalWord?, h, Option.bind_some, word?]

end Numeral

/-! ### Values and registers -/

namespace Value

/-- The number in a value, if it is a numeral. -/
def literal? : List Char → Option Int
  | '$' :: digits => some (Numeral.value 16 digits)
  | '-' :: digits => some (-(Numeral.value 10 digits : Int))
  | text => if text.head?.any Char.isDigit then some (Numeral.value 10 text) else none

/-- A numeral has to denote a word, as a signed or as an unsigned number. -/
def fault? (text : List Char) : Option BadArgument :=
  (literal? text).bind fun i =>
    if -32768 ≤ i ∧ i < 65536 then none else some (.invalidLiteral (String.ofList text))

/-- A numeral stands for its word, a name for a label. -/
def meaning (text : List Char) : Value :=
  match literal? text with
  | some i => literal (.ofSigned i)
  | none => label (String.ofList text)

variable {text : List Char}

theorem literal?_of_stops (h : Stops isNumeralMark text) :
    literal? text
      = if text.head?.any Char.isDigit then some (Numeral.value 10 text : Int) else none := by
  unfold literal?
  split
  · exact absurd (stops_cons.mp h) (by decide)
  · exact absurd (stops_cons.mp h) (by decide)
  · rfl

theorem literal?_decimal (h : IsRun Char.isDigit text) :
    literal? text = some (Numeral.value 10 text : Int) := by
  rw [literal?_of_stops (h.stops fun _ => isNumeralMark_of_isDigit)]
  cases text with
  | nil => exact absurd rfl h.1
  | cons c s => exact if_pos (h.2 c (List.mem_cons_self))

theorem literal?_name (h : IsName text) : literal? text = none := by
  rw [literal?_of_stops (h.isRun.stops fun _ => isNumeralMark_of_isNameChar)]
  cases h with
  | intro hc hs =>
    refine if_neg ?_
    simp [isDigit_of_isNameStart hc]

/-- The value of a numeral with a given text, if it denotes a word. -/
def ofWord? (text : List Char) : Option Word → Except BadArgument Value
  | some w => .ok (literal w)
  | none => .error (.invalidLiteral (String.ofList text))

theorem ofText_hex (digits : List Char) :
    ofText ('$' :: digits) = ofWord? ('$' :: digits) (Numeral.hexWord? digits) := rfl

theorem ofText_negative (digits : List Char) :
    ofText ('-' :: digits) = ofWord? ('-' :: digits) (Numeral.decimalWord? ('-' :: digits)) := rfl

theorem ofText_cons {c : Char} {s : List Char} (hc : isNumeralMark c = false) :
    ofText (c :: s)
      = if c.isDigit then ofWord? (c :: s) (Numeral.decimalWord? (c :: s))
        else .ok (label (String.ofList (c :: s))) := by
  unfold ofText
  split
  · next heq =>
    cases heq
    exact absurd hc (by decide)
  · next heq =>
    cases heq
    exact absurd hc (by decide)
  · next heq =>
    cases heq
    rfl
  · next heq => cases heq

/-- A numeral is the word of its number, or wrong. -/
theorem ofWord?_eq_verdict {i : Int} (hi : literal? text = some i) :
    ofWord? text (Numeral.word? i) = verdict (fault? text) (meaning text) := by
  rw [fault?, meaning, hi, Option.bind_some, Numeral.word?]
  split_ifs <;> rfl

/-- **Reading a value is a verdict.** -/
theorem ofText_eq_verdict (h : IsValue text) :
    ofText text = verdict (fault? text) (meaning text) := by
  cases h with
  | @hex digits h =>
    have hi : literal? ('$' :: digits) = some (Numeral.value 16 digits : Int) := by rw [literal?]
    rw [ofText_hex, Numeral.hexWord?_eq h, ofWord?_eq_verdict hi]
  | @negative digits h =>
    have hi : literal? ('-' :: digits) = some (-(Numeral.value 10 digits : Int)) := by
      rw [literal?]
    rw [ofText_negative, Numeral.decimalWord?_eq (Numeral.signed?_neg h), ofWord?_eq_verdict hi]
  | decimal h =>
    cases text with
    | nil => exact absurd rfl h.1
    | cons c s =>
      have hc : c.isDigit = true := h.2 c (List.mem_cons_self)
      rw [ofText_cons (isNumeralMark_of_isDigit hc), if_pos hc,
        Numeral.decimalWord?_eq (Numeral.signed?_decimal h),
        ofWord?_eq_verdict (literal?_decimal h)]
  | name h =>
    -- a name is not a numeral, so there is nothing wrong with it
    rw [fault?, meaning, literal?_name h]
    cases h with
    | intro hc hs =>
      rw [ofText_cons (isNumeralMark_of_isNameChar (isNameChar_of_isNameStart hc)),
        isDigit_of_isNameStart hc]
      rfl

end Value

namespace Operand

/-- The number of a register. -/
def registerNumber (text : List Char) : Nat := Numeral.value 10 text.tail

/-- There are sixteen registers. -/
def registerFault? (text : List Char) : Option BadArgument :=
  if registerNumber text < 16 then none else some (.invalidRegister (String.ofList text))

/-- The register with a number. -/
def registerMeaning (text : List Char) : Reg := Fin.ofNat 16 (registerNumber text)

/-- **Reading a register is a verdict.** -/
theorem registerOfText_eq_verdict {text : List Char} (h : IsRegister text) :
    registerOfText text = verdict (registerFault? text) (registerMeaning text) := by
  have hnumber : Numeral.ofDigits? 10 text.tail = some (registerNumber text) := by
    cases h with
    | intro hc hdigits => exact Numeral.ofDigits?_decimal hdigits
  rw [registerOfText, hnumber, registerFault?, registerMeaning]
  dsimp only
  split
  · next hlt =>
    rw [verdict_none]
    congr 1
    exact Fin.ext (Nat.mod_eq_of_lt hlt).symm
  · rfl

end Operand

/-! ### Operands and lines -/

namespace OperandText

/-- What is wrong with an operand, the displacement before the index. -/
def fault? : OperandText → Option BadArgument
  | register text => Operand.registerFault? text
  | value text => Value.fault? text
  | indexed disp index => Value.fault? disp <|> Operand.registerFault? index

/-- What an operand stands for. -/
def meaning : OperandText → Operand
  | register text => .register (Operand.registerMeaning text)
  | value text => .value (Value.meaning text)
  | indexed disp index => .indexed (Value.meaning disp) (Operand.registerMeaning index)

/-- **Reading an operand is a verdict.** -/
theorem read_eq_verdict {o : OperandText} {t : List Char} (h : o.Spells t) :
    o.read = verdict o.fault? o.meaning := by
  cases h with
  | register h =>
    rw [read, Operand.registerOfText_eq_verdict h, map_verdict]
    rfl
  | value h hn =>
    rw [read, Value.ofText_eq_verdict h, map_verdict]
    rfl
  | indexed hv h₁ h₂ hr h₃ =>
    rw [read, Value.ofText_eq_verdict hv, Operand.registerOfText_eq_verdict hr]
    exact verdict_bind _ _ (map_verdict _ _ _)

end OperandText

namespace LineText

/-- What is wrong with a line: the first fault of an operand. -/
def fault? (parts : LineText) : Option SourceError :=
  parts.command.bind fun (_, operands) =>
    (operands.findSome? OperandText.fault?).map .badArgument

/-- What a line stands for. -/
def meaning (parts : LineText) : SourceLine where
  label := parts.label.map String.ofList
  command := parts.command.map fun (mnemonic, operands) =>
    ⟨String.ofList mnemonic, operands.map OperandText.meaning⟩

/-- Whatever is wrong with parts is wrong with an operand. -/
theorem exists_badArgument_of_fault? {parts : LineText} {e : SourceError}
    (h : parts.fault? = some e) : ∃ cause, e = .badArgument cause := by
  obtain ⟨command, -, hfault⟩ := Option.bind_eq_some_iff.mp h
  obtain ⟨cause, -, rfl⟩ := Option.map_eq_some_iff.mp hfault
  exact ⟨cause, rfl⟩

end LineText

theorem Command.read_eq_verdict (mnemonic : List Char) {operands : List OperandText}
    (h : ∀ o ∈ operands, ∃ t, o.Spells t) :
    Command.read mnemonic operands
      = verdict ((operands.findSome? OperandText.fault?).map .badArgument)
          ⟨String.ofList mnemonic, operands.map OperandText.meaning⟩ := by
  have hread : operands.mapM OperandText.read
      = verdict (operands.findSome? OperandText.fault?) (operands.map OperandText.meaning) := by
    refine mapM_eq_verdict fun o ho => ?_
    obtain ⟨t, ht⟩ := h o ho
    exact OperandText.read_eq_verdict ht
  rw [Command.read, hread]
  cases operands.findSome? OperandText.fault? <;> rfl

/-- **Reading a line is a verdict** on the parts that spell it. -/
theorem SourceLine.parse_eq_verdict {line : List Char} {parts : LineText}
    (hscan : LineText.scan? line = some parts) (h : parts.Spells line) :
    parse line = verdict parts.fault? parts.meaning := by
  obtain ⟨label, command⟩ := parts
  rw [parse, hscan]
  cases h with
  | intro hb hl hc hb' hcomment =>
    cases hc with
    | none => rfl
    | @some m s os hm hstop hs =>
      dsimp only
      rw [Command.read_eq_verdict m hs.exists_spells]
      exact map_verdict _ _ fun command => (⟨label.map String.ofList, some command⟩ : SourceLine)

end Hindsight
