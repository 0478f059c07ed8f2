import Hindsight.Assembly.Line

/-!
# The language of source lines

The form of a line, said without a scanner: which texts are names, registers and values, and
which texts spell given operands, a given command and given parts of a line.  Blanks may stand
around every part, and nothing here says how far a part reaches; only a mnemonic, which may
touch its first operand, must not be followed by a character of a name.

## Main definitions

* `Blank`, `IsRun`, `Stops` — texts of a class of characters, and where they end.
* `IsName`, `IsRegister`, `IsValue` — the words of the language.
* `OperandText.Spells`, `SpellsOperands`, `SpellsLabel`, `SpellsCommand`, `IsComment` — the parts
  of a line.
* `LineText.Spells` — a line with given parts.

## Main results

* `OperandText.Spells.operandChars`, `SpellsCommand.commandChars` — no part holds a character
  that separates it from others.
* `LineText.Spells.isLineEnd` — a line that can be spelled is a single line.
-/

namespace Hindsight

/-! ### Texts of a class of characters -/

/-- A text of blanks. -/
def Blank (s : List Char) : Prop := ∀ c ∈ s, isBlank c

/-- A non-empty text of characters of a class. -/
def IsRun (p : Char → Bool) (s : List Char) : Prop := s ≠ [] ∧ ∀ c ∈ s, p c

/-- The text does not begin with a character of the class. -/
def Stops (p : Char → Bool) (s : List Char) : Prop := ∀ c ∈ s.head?, p c = false

variable {p q : Char → Bool} {c : Char} {b s t : List Char}

theorem blank_nil : Blank [] := fun _ h => absurd h (List.not_mem_nil)

theorem Blank.append (hs : Blank s) (ht : Blank t) : Blank (s ++ t) := by
  intro c hc
  rcases List.mem_append.mp hc with h | h
  · exact hs c h
  · exact ht c h

@[simp] theorem stops_nil : Stops p [] := by
  simp [Stops]

@[simp] theorem stops_cons : Stops p (c :: s) ↔ p c = false := by
  simp [Stops]

theorem Stops.mono (h : ∀ c, q c → p c) (hs : Stops p s) : Stops q s := by
  intro c hc
  cases hq : q c with
  | false => rfl
  | true => exact absurd (h c hq) (by rw [hs c hc]; exact Bool.false_ne_true)

theorem Stops.append (hs : Stops p s) (ht : Stops p t) : Stops p (s ++ t) := by
  cases s with
  | nil => exact ht
  | cons c s => exact stops_cons.mpr (stops_cons.mp hs)

theorem Stops.of_append (h : Stops p (s ++ t)) : Stops p s := by
  cases s with
  | nil => exact stops_nil
  | cons c s => exact stops_cons.mpr (stops_cons.mp h)

theorem Blank.stops (hb : Blank b) (hp : ∀ c, isBlank c → p c = false) : Stops p b := by
  cases b with
  | nil => exact stops_nil
  | cons c b => exact stops_cons.mpr (hp c (hb c (List.mem_cons_self)))

theorem IsRun.mono (h : ∀ c, q c → p c) (hs : IsRun q s) : IsRun p s :=
  ⟨hs.1, fun c hc => h c (hs.2 c hc)⟩

theorem IsRun.stops_append (hs : IsRun q s) (hp : ∀ c, q c → p c = false) (t : List Char) :
    Stops p (s ++ t) := by
  cases s with
  | nil => exact absurd rfl hs.1
  | cons c s => exact stops_cons.mpr (hp c (hs.2 c (List.mem_cons_self)))

theorem IsRun.stops (hs : IsRun q s) (hp : ∀ c, q c → p c = false) : Stops p s :=
  (hs.stops_append hp []).of_append

theorem IsRun.not_blank_append (hs : IsRun q s) (hq : ∀ c, q c → isBlank c = false)
    (t : List Char) : ¬ Blank (s ++ t) := by
  intro hblank
  cases s with
  | nil => exact hs.1 rfl
  | cons c s =>
    have hc : isBlank c = false := hq c (hs.2 c (List.mem_cons_self))
    rw [hblank c (List.mem_cons_self)] at hc
    cases hc

/-! ### Characters -/

theorem char_le_iff {d : Char} : c ≤ d ↔ c.toNat ≤ d.toNat := by
  rw [Char.le_def, UInt32.le_iff_toNat_le]
  rfl

theorem isDigit_iff : c.isDigit ↔ 48 ≤ c.toNat ∧ c.toNat ≤ 57 := by
  simp only [Char.isDigit, Bool.and_eq_true, decide_eq_true_eq, ge_iff_le, UInt32.le_iff_toNat_le]
  rfl

theorem isAlpha_iff :
    c.isAlpha ↔ (65 ≤ c.toNat ∧ c.toNat ≤ 90) ∨ (97 ≤ c.toNat ∧ c.toNat ≤ 122) := by
  have hupper : c.isUpper ↔ 65 ≤ c.toNat ∧ c.toNat ≤ 90 :=
    decide_eq_true_iff.trans (and_congr char_le_iff char_le_iff)
  have hlower : c.isLower ↔ 97 ≤ c.toNat ∧ c.toNat ≤ 122 :=
    (Bool.and_eq_true_iff.trans (and_congr decide_eq_true_iff decide_eq_true_iff)).trans
      (and_congr char_le_iff char_le_iff)
  exact Bool.or_eq_true_iff.trans (or_congr hupper hlower)

theorem isHexDigit_iff :
    isHexDigit c ↔
      c.isDigit ∨ (65 ≤ c.toNat ∧ c.toNat ≤ 70) ∨ (97 ≤ c.toNat ∧ c.toNat ≤ 102) := by
  unfold isHexDigit Numeral.digit? Numeral.digitValue?
  simp only [char_le_iff, isDigit_iff]
  have : '0'.toNat = 48 := rfl
  have : '9'.toNat = 57 := rfl
  have : 'a'.toNat = 97 := rfl
  have : 'f'.toNat = 102 := rfl
  have : 'A'.toNat = 65 := rfl
  have : 'F'.toNat = 70 := rfl
  split
  · simp
    omega
  · split
    · simp
      omega
    · split
      · simp
        omega
      · simp
        omega

theorem isBlank_iff : isBlank c ↔ c = ' ' ∨ c = '\t' := by
  simp [isBlank]

theorem isNameStart_iff : isNameStart c ↔ c.isAlpha ∨ c = '_' := by
  simp [isNameStart]

theorem isNameChar_iff : isNameChar c ↔ c.isAlpha ∨ c.isDigit ∨ c = '_' := by
  simp [isNameChar, Char.isAlphanum, or_assoc]

theorem isNameChar_of_isAlpha (h : c.isAlpha) : isNameChar c := isNameChar_iff.mpr (.inl h)

theorem isNameChar_of_isDigit (h : c.isDigit) : isNameChar c := isNameChar_iff.mpr (.inr (.inl h))

theorem isNameChar_of_isNameStart (h : isNameStart c) : isNameChar c := by
  rcases isNameStart_iff.mp h with h | h
  · exact isNameChar_of_isAlpha h
  · exact isNameChar_iff.mpr (.inr (.inr h))

theorem isNameChar_of_isHexDigit (h : isHexDigit c) : isNameChar c := by
  rcases isHexDigit_iff.mp h with h | h
  · exact isNameChar_of_isDigit h
  · refine isNameChar_of_isAlpha (isAlpha_iff.mpr ?_)
    omega

theorem isDigit_of_isNameStart (h : isNameStart c) : c.isDigit = false := by
  rcases isNameStart_iff.mp h with h | rfl
  · have h := isAlpha_iff.mp h
    rw [← Bool.not_eq_true, isDigit_iff]
    omega
  · decide

theorem isNameChar_of_isBlank (h : isBlank c) : isNameChar c = false := by
  rcases isBlank_iff.mp h with rfl | rfl <;> decide

theorem isBlank_of_isNameChar (h : isNameChar c) : isBlank c = false := by
  cases hb : isBlank c with
  | false => rfl
  | true => rw [isNameChar_of_isBlank hb] at h; cases h

theorem isBlank_of_isAlpha (h : c.isAlpha) : isBlank c = false :=
  isBlank_of_isNameChar (isNameChar_of_isAlpha h)

/-- The characters in front of the digits of a numeral. -/
def isNumeralMark (c : Char) : Bool := c = '$' || c = '-'

/-- The characters of names, registers and numerals. -/
def isWordChar (c : Char) : Bool := isNameChar c || isNumeralMark c

/-- The characters of operands. -/
def isOperandChar (c : Char) : Bool := isWordChar c || isBlank c || c = '[' || c = ']'

/-- The characters of commands. -/
def isCommandChar (c : Char) : Bool := isOperandChar c || c = ','

theorem isNumeralMark_iff : isNumeralMark c ↔ c = '$' ∨ c = '-' := by
  simp [isNumeralMark]

theorem isNumeralMark_of_isNameChar (h : isNameChar c) : isNumeralMark c = false := by
  cases hmark : isNumeralMark c with
  | false => rfl
  | true => rcases isNumeralMark_iff.mp hmark with rfl | rfl <;> exact absurd h (by decide)

theorem isNumeralMark_of_isDigit (h : c.isDigit) : isNumeralMark c = false :=
  isNumeralMark_of_isNameChar (isNameChar_of_isDigit h)

theorem isWordChar_of_isNameChar (h : isNameChar c) : isWordChar c := by
  simp [isWordChar, h]

theorem isOperandChar_of_isWordChar (h : isWordChar c) : isOperandChar c := by
  simp [isOperandChar, h]

theorem isOperandChar_of_isBlank (h : isBlank c) : isOperandChar c := by
  simp [isOperandChar, h]

theorem isCommandChar_of_isOperandChar (h : isOperandChar c) : isCommandChar c := by
  simp [isCommandChar, h]

theorem isBlank_of_isWordChar (h : isWordChar c) : isBlank c = false := by
  rw [isWordChar, Bool.or_eq_true, isNumeralMark_iff] at h
  rcases h with h | rfl | rfl
  · exact isBlank_of_isNameChar h
  · decide
  · decide

/-- A text of one class does not hold a character of no such class. -/
theorem notMem_of_class (hs : ∀ c ∈ s, p c) (hc : p c = false) : c ∉ s := by
  intro h
  rw [hs c h] at hc
  cases hc

/-- Nor do blanks around it. -/
theorem notMem_between (hb : Blank b) (hs : ∀ c ∈ s, p c) (ht : Blank t)
    (hblank : isBlank c = false) (hc : p c = false) : c ∉ b ++ (s ++ t) := by
  intro h
  rw [List.mem_append, List.mem_append] at h
  rcases h with h | h | h
  · exact notMem_of_class hb hblank h
  · exact notMem_of_class hs hc h
  · exact notMem_of_class ht hblank h

/-! ### Words -/

/-- A letter or underscore, then letters, digits and underscores. -/
inductive IsName : List Char → Prop
  | intro {c : Char} {s : List Char} : isNameStart c → (∀ d ∈ s, isNameChar d) → IsName (c :: s)

/-- The letter of registers in either case, then digits. -/
inductive IsRegister : List Char → Prop
  | intro {c : Char} {digits : List Char} :
    c = 'r' ∨ c = 'R' → IsRun Char.isDigit digits → IsRegister (c :: digits)

/-- A numeral or a name. -/
inductive IsValue : List Char → Prop
  | hex {digits : List Char} : IsRun isHexDigit digits → IsValue ('$' :: digits)
  | negative {digits : List Char} : IsRun Char.isDigit digits → IsValue ('-' :: digits)
  | decimal {digits : List Char} : IsRun Char.isDigit digits → IsValue digits
  | name {s : List Char} : IsName s → IsValue s

/-- Letters are a name. -/
theorem IsRun.isName (h : IsRun Char.isAlpha s) : IsName s := by
  cases s with
  | nil => exact absurd rfl h.1
  | cons c s =>
    exact .intro (isNameStart_iff.mpr (.inl (h.2 c List.mem_cons_self)))
      fun d hd => isNameChar_of_isAlpha (h.2 d (List.mem_cons_of_mem c hd))

theorem IsName.nameChars (h : IsName s) : ∀ c ∈ s, isNameChar c := by
  cases h with
  | intro hc hs =>
    intro d hd
    rcases List.mem_cons.mp hd with rfl | hd
    · exact isNameChar_of_isNameStart hc
    · exact hs d hd

theorem IsName.isRun (h : IsName s) : IsRun isNameChar s := by
  refine ⟨?_, h.nameChars⟩
  cases h with
  | intro hc hs => exact List.cons_ne_nil _ _

/-- A register has the shape of a name. -/
theorem IsRegister.isName (h : IsRegister s) : IsName s := by
  cases h with
  | intro hc hdigits =>
    refine .intro ?_ fun d hd => isNameChar_of_isDigit (hdigits.2 d hd)
    rcases hc with rfl | rfl <;> decide

theorem IsRegister.isValue (h : IsRegister s) : IsValue s := .name h.isName

theorem IsValue.ne_nil (h : IsValue s) : s ≠ [] := by
  cases h with
  | hex h => exact List.cons_ne_nil _ _
  | negative h => exact List.cons_ne_nil _ _
  | decimal h => exact h.1
  | name h => exact h.isRun.1

theorem IsValue.wordChars (h : IsValue s) : ∀ c ∈ s, isWordChar c := by
  intro c hc
  cases h with
  | hex h =>
    rcases List.mem_cons.mp hc with rfl | hc
    · decide
    · exact isWordChar_of_isNameChar (isNameChar_of_isHexDigit (h.2 c hc))
  | negative h =>
    rcases List.mem_cons.mp hc with rfl | hc
    · decide
    · exact isWordChar_of_isNameChar (isNameChar_of_isDigit (h.2 c hc))
  | decimal h => exact isWordChar_of_isNameChar (isNameChar_of_isDigit (h.2 c hc))
  | name h => exact isWordChar_of_isNameChar (h.nameChars c hc)

theorem IsName.isWordRun (h : IsName s) : IsRun isWordChar s :=
  h.isRun.mono fun _ => isWordChar_of_isNameChar

theorem IsValue.isRun (h : IsValue s) : IsRun isWordChar s := ⟨h.ne_nil, h.wordChars⟩

/-- A value followed by anything does not begin with a blank. -/
theorem IsValue.stops_append (h : IsValue s) (t : List Char) : Stops isBlank (s ++ t) :=
  h.isRun.stops_append (fun _ => isBlank_of_isWordChar) t

/-! ### Operands -/

/-- The texts of an operand.  A word in the shape of a register is a register where it stands
alone, and a label in front of a bracket. -/
inductive OperandText.Spells : OperandText → List Char → Prop
  | register {r : List Char} : IsRegister r → Spells (.register r) r
  | value {v : List Char} : IsValue v → ¬ IsRegister v → Spells (.value v) v
  | indexed {v r b₁ b₂ b₃ : List Char} :
    IsValue v → Blank b₁ → Blank b₂ → IsRegister r → Blank b₃ →
      Spells (.indexed v r) (v ++ (b₁ ++ '[' :: (b₂ ++ (r ++ (b₃ ++ [']'])))))

/-- The texts of operands that follow another one, each with a comma in front of it. -/
inductive SpellsMore : List OperandText → List Char → Prop
  | nil : SpellsMore [] []
  | cons {o : OperandText} {os : List OperandText} {b₁ b₂ t s : List Char} :
    Blank b₁ → Blank b₂ → o.Spells t → SpellsMore os s →
      SpellsMore (o :: os) (b₁ ++ ',' :: (b₂ ++ (t ++ s)))

/-- The texts of a list of operands. -/
inductive SpellsOperands : List OperandText → List Char → Prop
  | nil : SpellsOperands [] []
  | cons {o : OperandText} {os : List OperandText} {b t s : List Char} :
    Blank b → o.Spells t → SpellsMore os s → SpellsOperands (o :: os) (b ++ (t ++ s))

section Operands

variable {o : OperandText} {os : List OperandText}

/-- An operand begins with a value. -/
theorem OperandText.Spells.exists_value (h : o.Spells t) : ∃ v r, IsValue v ∧ t = v ++ r := by
  cases h with
  | register h => exact ⟨t, [], h.isValue, (List.append_nil t).symm⟩
  | value h hn => exact ⟨t, [], h, (List.append_nil t).symm⟩
  | indexed hv h₁ h₂ hr h₃ => exact ⟨_, _, hv, rfl⟩

theorem OperandText.Spells.stops_append (h : o.Spells t) (s : List Char) :
    Stops isBlank (t ++ s) := by
  obtain ⟨v, r, hv, rfl⟩ := h.exists_value
  rw [List.append_assoc]
  exact hv.stops_append _

theorem OperandText.Spells.not_blank (h : o.Spells t) : ¬ Blank t := by
  obtain ⟨v, r, hv, rfl⟩ := h.exists_value
  exact hv.isRun.not_blank_append (fun _ => isBlank_of_isWordChar) r

/-- An operand holds no comma, no semicolon and no colon. -/
theorem OperandText.Spells.operandChars (h : o.Spells t) : ∀ c ∈ t, isOperandChar c := by
  cases h with
  | register h => exact fun c hc => isOperandChar_of_isWordChar (h.isValue.wordChars c hc)
  | value h hn => exact fun c hc => isOperandChar_of_isWordChar (h.wordChars c hc)
  | indexed hv h₁ h₂ hr h₃ =>
    intro c hc
    simp only [List.mem_append, List.mem_cons, List.not_mem_nil, or_false] at hc
    rcases hc with hc | hc | rfl | hc | hc | hc | rfl
    · exact isOperandChar_of_isWordChar (hv.wordChars c hc)
    · exact isOperandChar_of_isBlank (h₁ c hc)
    · decide
    · exact isOperandChar_of_isBlank (h₂ c hc)
    · exact isOperandChar_of_isWordChar (hr.isValue.wordChars c hc)
    · exact isOperandChar_of_isBlank (h₃ c hc)
    · decide

theorem commandChars_of_blank (h : Blank b) : ∀ c ∈ b, isCommandChar c :=
  fun c hc => isCommandChar_of_isOperandChar (isOperandChar_of_isBlank (h c hc))

theorem SpellsMore.commandChars (h : SpellsMore os s) : ∀ c ∈ s, isCommandChar c := by
  induction h with
  | nil => exact fun c hc => absurd hc (List.not_mem_nil)
  | cons h₁ h₂ ho h ih =>
    intro c hc
    simp only [List.mem_append, List.mem_cons] at hc
    rcases hc with hc | rfl | hc | hc | hc
    · exact commandChars_of_blank h₁ c hc
    · decide
    · exact commandChars_of_blank h₂ c hc
    · exact isCommandChar_of_isOperandChar (ho.operandChars c hc)
    · exact ih c hc

theorem SpellsOperands.commandChars (h : SpellsOperands os s) : ∀ c ∈ s, isCommandChar c := by
  cases h with
  | nil => exact fun c hc => absurd hc (List.not_mem_nil)
  | cons hb ho h =>
    intro c hc
    simp only [List.mem_append] at hc
    rcases hc with hc | hc | hc
    · exact commandChars_of_blank hb c hc
    · exact isCommandChar_of_isOperandChar (ho.operandChars c hc)
    · exact h.commandChars c hc

theorem SpellsMore.exists_spells (h : SpellsMore os s) : ∀ o ∈ os, ∃ t, o.Spells t := by
  induction h with
  | nil => exact fun o ho => absurd ho (List.not_mem_nil)
  | cons h₁ h₂ ho h ih =>
    intro o' ho'
    rcases List.mem_cons.mp ho' with rfl | ho'
    · exact ⟨_, ho⟩
    · exact ih o' ho'

theorem SpellsOperands.exists_spells (h : SpellsOperands os s) : ∀ o ∈ os, ∃ t, o.Spells t := by
  cases h with
  | nil => exact fun o ho => absurd ho (List.not_mem_nil)
  | cons hb ho h =>
    intro o' ho'
    rcases List.mem_cons.mp ho' with rfl | ho'
    · exact ⟨_, ho⟩
    · exact h.exists_spells o' ho'

end Operands

/-! ### Lines -/

/-- The texts of a label, with its colon and the blanks behind that. -/
inductive SpellsLabel : Option (List Char) → List Char → Prop
  | none : SpellsLabel none []
  | some {n b : List Char} : IsName n → Blank b → SpellsLabel (some n) (n ++ ':' :: b)

/-- The texts of a command: a mnemonic, which no longer name continues, and its operands. -/
inductive SpellsCommand : Option (List Char × List OperandText) → List Char → Prop
  | none : SpellsCommand none []
  | some {m s : List Char} {os : List OperandText} :
    IsRun Char.isAlpha m → Stops isNameChar s → SpellsOperands os s →
      SpellsCommand (some (m, os)) (m ++ s)

/-- Comments, with their semicolon. -/
inductive IsComment : List Char → Prop
  | none : IsComment []
  | some {s : List Char} : (∀ c ∈ s, isLineEnd c = false) → IsComment (';' :: s)

/-- The lines with given parts: blanks, a label, a command, blanks and a comment. -/
inductive LineText.Spells (parts : LineText) : List Char → Prop
  | intro {b l c b' comment : List Char} :
    Blank b → SpellsLabel parts.label l → SpellsCommand parts.command c → Blank b' →
      IsComment comment → Spells parts (b ++ (l ++ (c ++ (b' ++ comment))))

theorem SpellsLabel.semicolon_notMem {label : Option (List Char)} (h : SpellsLabel label s) :
    ';' ∉ s := by
  cases h with
  | none => exact List.not_mem_nil
  | some hn hb =>
    intro h
    rw [List.mem_append, List.mem_cons] at h
    rcases h with h | h | h
    · exact notMem_of_class hn.nameChars (by decide) h
    · exact absurd h (by decide)
    · exact notMem_of_class hb (by decide) h

/-- A command holds no colon and no semicolon. -/
theorem SpellsCommand.commandChars {command : Option (List Char × List OperandText)}
    (h : SpellsCommand command s) : ∀ c ∈ s, isCommandChar c := by
  cases h with
  | none => exact fun c hc => absurd hc (List.not_mem_nil)
  | some hm hstop h =>
    intro c hc
    rcases List.mem_append.mp hc with hc | hc
    · exact isCommandChar_of_isOperandChar
        (isOperandChar_of_isWordChar (isWordChar_of_isNameChar (isNameChar_of_isAlpha (hm.2 c hc))))
    · exact h.commandChars c hc

/-- No character of a command ends a line. -/
theorem isLineEnd_of_isCommandChar (h : isCommandChar c) : isLineEnd c = false := by
  rw [isLineEnd, Bool.or_eq_false_iff, decide_eq_false_iff_not, decide_eq_false_iff_not]
  constructor
  · rintro rfl
    exact absurd h (by decide)
  · rintro rfl
    exact absurd h (by decide)

theorem Blank.isLineEnd (h : Blank b) : ∀ c ∈ b, isLineEnd c = false :=
  fun c hc => isLineEnd_of_isCommandChar (commandChars_of_blank h c hc)

theorem SpellsLabel.isLineEnd {label : Option (List Char)} (h : SpellsLabel label s) :
    ∀ c ∈ s, isLineEnd c = false := by
  cases h with
  | none => exact List.forall_mem_nil _
  | some hn hb =>
    intro c hc
    rw [List.mem_append, List.mem_cons] at hc
    rcases hc with hc | rfl | hc
    · exact isLineEnd_of_isCommandChar (isCommandChar_of_isOperandChar
        (isOperandChar_of_isWordChar (isWordChar_of_isNameChar (hn.nameChars c hc))))
    · decide
    · exact hb.isLineEnd c hc

theorem IsComment.stops (h : IsComment s) (hp : p ';' = false) : Stops p s := by
  cases h with
  | none => exact stops_nil
  | some h => exact stops_cons.mpr hp

theorem IsComment.isLineEnd (h : IsComment s) : ∀ c ∈ s, isLineEnd c = false := by
  cases h with
  | none => exact List.forall_mem_nil _
  | some h => exact List.forall_mem_cons.mpr ⟨by decide, h⟩

/-- **A line that can be spelled is a single line.** -/
theorem LineText.Spells.isLineEnd {parts : LineText} (h : parts.Spells s) :
    ∀ c ∈ s, isLineEnd c = false := by
  cases h with
  | intro hb hl hc hb' hcomment =>
    intro c hmem
    simp only [List.mem_append] at hmem
    rcases hmem with h | h | h | h | h
    · exact hb.isLineEnd c h
    · exact hl.isLineEnd c h
    · exact isLineEnd_of_isCommandChar (hc.commandChars c h)
    · exact hb'.isLineEnd c h
    · exact hcomment.isLineEnd c h

end Hindsight
