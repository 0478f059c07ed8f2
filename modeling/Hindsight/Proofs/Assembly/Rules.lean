import Hindsight.Proofs.Assembly.Scanning

/-!
# The rules of the line grammar

The language of source lines is given by a parsing expression grammar, and this is that grammar,
rule by rule.  A rule takes a front of a text or fails.  The first alternative that fits is taken
and never given back, and a repetition takes as much as it can.  Blanks and comments are skipped
wherever two parts of a rule meet, unless the rule is one of words, whose parts stand side by side.

The grammar may skip a comment in front of any part of a line, and the scanners never do.  This
makes no difference: a comment reaches to the end of its line, where no part begins.  So a rule
matches the words that its scanner finds, and the rule of a line the lines of the language.

## Main definitions

* `Rule`, `Rule.star`, `Rule.plus`, `Rule.option`, `Rule.starSkipping` — rules, and how they are
  put together.
* `Rule.skip` — what is skipped between the parts of a rule.
* `Rule.register`, `Rule.value`, `Rule.operand`, `Rule.label`, `Rule.statement`, `Rule.line` and
  others — the rules of the grammar.

## Main results

* `Rule.star_induction` — induction on the rounds of a repetition.
* `Rule.NeedsCode.skip_eq` — a part of a line may just as well begin behind the blanks.
* `Rule.register_eq`, `Rule.value_eq`, `Rule.operand_eq`, `Rule.mnemonic_eq` — the rules of words
  and operands are the scanners.
* `Rule.line_eq_some_iff` — **the grammar matches the lines of the language.**
-/

namespace Hindsight

/-- A rule takes a front of a text and leaves the rest, or fails. -/
abbrev Rule (α : Type) := List Char → Option (α × List Char)

namespace Rule

variable {α : Type} {p : Char → Bool} {c : Char} {b s t r x : List Char}

/-! ### Putting rules together -/

/-- One character of a class. -/
def char (p : Char → Bool) : Rule Char
  | c :: s => if p c then some (c, s) else none
  | [] => none

/-- The rule `e?`, which takes nothing where `e` fails. -/
def option (e : Rule α) (s : List Char) : Option α × List Char :=
  match e s with
  | some (a, r) => (some a, r)
  | none => (none, s)

/-- The rule `e*`, which takes as many rounds as there are. -/
def star (e : Rule α) (s : List Char) : List α × List Char :=
  match e s with
  | some (a, r) =>
    -- No rule that is repeated fits the empty text, so every round gets on.
    if r.length < s.length then (a :: (star e r).1, (star e r).2) else ([], s)
  | none => ([], s)
  termination_by s.length

/-- The rule `e+`, which takes one round at least. -/
def plus (e : Rule α) : Rule (List α) := fun s => do
  let (a, s) ← e s
  let (as, s) := star e s
  return (a :: as, s)

/-! ### What is skipped -/

/-- The rule `NEWLINE = "\n" | "\r\n" | "\r"`. -/
def newline : Rule Unit
  | '\n' :: s => some ((), s)
  | '\r' :: '\n' :: s => some ((), s)
  | '\r' :: s => some ((), s)
  | _ => none

/-- The rule `WHITESPACE = " " | "\t"`. -/
def whitespace : Rule Char := char isBlank

/-- The rule `!NEWLINE ~ ANY`, for a character of a comment. -/
def commentChar : Rule Char := fun s => if (newline s).isSome then none else char (fun _ => true) s

/-- The rule `COMMENT = ";" ~ (!NEWLINE ~ ANY)*`. -/
def comment : Rule (List Char) := fun s => do
  let (_, s) ← char (· = ';') s
  return star commentChar s

/-- The rule `COMMENT ~ WHITESPACE*`. -/
def commentBlanks : Rule (List Char) := fun s => do
  let (_, s) ← comment s
  return star whitespace s

/-- Drops what may stand between two parts: `WHITESPACE* ~ (COMMENT ~ WHITESPACE*)*`. -/
def skip (s : List Char) : List Char := (star commentBlanks (star whitespace s).2).2

/-- The rule `e*` where it may be skipped between the rounds. -/
def starSkipping (e : Rule α) (s : List Char) : List α × List Char :=
  match e s with
  | some (a, r) => (a :: (star (fun s => e (skip s)) r).1, (star (fun s => e (skip s)) r).2)
  | none => ([], s)

/-! ### Words -/

/-- The rule `identifier = (ASCII_ALPHA | "_") ~ (ASCII_ALPHANUMERIC | "_")*`. -/
def identifier : Rule (List Char) := fun s => do
  let (c, s) ← char isNameStart s
  let (cs, s) := star (char isNameChar) s
  return (c :: cs, s)

/-- The rule `register = ^"r" ~ ASCII_DIGIT+ ~ !(ASCII_ALPHANUMERIC | "_")`. -/
def register : Rule (List Char) := fun s => do
  let (c, s) ← char (fun c => c = 'r' || c = 'R') s
  let (digits, s) ← plus (char Char.isDigit) s
  if (char isNameChar s).isSome then none else return (c :: digits, s)

/-- The rule `hex_literal = "$" ~ ASCII_HEX_DIGIT+`. -/
def hexLiteral : Rule (List Char) := fun s => do
  let (c, s) ← char (· = '$') s
  let (digits, s) ← plus (char isHexDigit) s
  return (c :: digits, s)

/-- The rule `dec_literal = "-"? ~ ASCII_DIGIT+`. -/
def decLiteral : Rule (List Char) := fun s => do
  let (sign, s) := option (char (· = '-')) s
  let (digits, s) ← plus (char Char.isDigit) s
  return (sign.toList ++ digits, s)

/-- The rule `value = hex_literal | dec_literal | identifier`. -/
def value : Rule (List Char) := fun s => hexLiteral s <|> decLiteral s <|> identifier s

/-- The rule `mnemonic = ASCII_ALPHA+ ~ !(ASCII_DIGIT | "_")`. -/
def mnemonic : Rule (List Char) := fun s => do
  let (letters, s) ← plus (char Char.isAlpha) s
  if (char (fun c => c.isDigit || c = '_') s).isSome then none else return (letters, s)

/-- The rule `label = identifier ~ ":"`, of which the parts stand side by side. -/
def label : Rule (List Char) := fun s => do
  let (name, s) ← identifier s
  let (_, s) ← char (· = ':') s
  return (name, s)

/-! ### Parts of a line -/

/-- The rule `indexed = value ~ "[" ~ register ~ "]"`. -/
def indexed : Rule OperandText := fun s => do
  let (disp, s) ← value s
  let (_, s) ← char (· = '[') (skip s)
  let (index, s) ← register (skip s)
  let (_, s) ← char (· = ']') (skip s)
  return (.indexed disp index, s)

/-- The rule `operand = indexed | register | value`. -/
def operand : Rule OperandText := fun s =>
  indexed s
    <|> (register s).map (fun (text, s) => (.register text, s))
    <|> (value s).map (fun (text, s) => (.value text, s))

/-- The rule `"," ~ operand`. -/
def nextOperand : Rule OperandText := fun s => do
  let (_, s) ← char (· = ',') s
  operand (skip s)

/-- The rule `operand ~ ("," ~ operand)*`. -/
def operands : Rule (List OperandText) := fun s => do
  let (first, s) ← operand s
  let (others, s) := starSkipping nextOperand (skip s)
  return (first :: others, s)

/-- The rule `statement = mnemonic ~ (operand ~ ("," ~ operand)*)?`. -/
def statement : Rule (List Char × List OperandText) := fun s => do
  let (name, s) ← mnemonic s
  let (found, s) := option operands (skip s)
  return ((name, found.getD []), s)

/-- The rule `line = SOI ~ label? ~ statement? ~ EOI`, which is matched from the start of a text to
its end. -/
def line (s : List Char) : Option LineText :=
  let (label, s) := option label (skip s)
  let (command, s) := option statement (skip s)
  if skip s = [] then some ⟨label, command⟩ else none

/-! ### Repetitions -/

theorem star_of_none {e : Rule α} (h : e s = none) : star e s = ([], s) := by
  rw [star, h]

theorem star_of_some {e : Rule α} {a : α} (h : e s = some (a, r)) (hr : r.length < s.length) :
    star e s = (a :: (star e r).1, (star e r).2) := by
  rw [star, h]
  exact if_pos hr

/-- **Induction on the rounds of a repetition.** -/
theorem star_induction {e : Rule α} {motive : List Char → List α → List Char → Prop}
    (nil : ∀ s, motive s [] s)
    (cons : ∀ s a r as r', e s = some (a, r) → motive r as r' → motive s (a :: as) r')
    (s : List Char) : motive s (star e s).1 (star e s).2 := by
  rw [star]
  split
  · next a r h =>
    split
    · exact cons s a r _ _ h (star_induction nil cons r)
    · exact nil s
  · exact nil s
  termination_by s.length

@[simp] theorem char_nil : char p [] = none := rfl

@[simp] theorem char_cons : char p (c :: s) = if p c then some (c, s) else none := rfl

theorem char_cons_of_pos (hc : p c) (s : List Char) : char p (c :: s) = some (c, s) := if_pos hc

theorem char_cons_of_neg (hc : ¬ p c) (s : List Char) : char p (c :: s) = none := if_neg hc

theorem char_eq_none (h : Stops p s) : char p s = none := by
  cases s with
  | nil => rfl
  | cons c s => rw [char_cons, if_neg (Bool.eq_false_iff.mp (stops_cons.mp h))]

theorem char_eq_some_iff : char p s = some (c, r) ↔ s = c :: r ∧ p c := by
  cases s with
  | nil => simp
  | cons d s =>
    rw [char_cons]
    split
    · next hd =>
      simp only [Option.some.injEq, Prod.mk.injEq, List.cons.injEq]
      constructor
      · rintro ⟨rfl, rfl⟩
        exact ⟨⟨rfl, rfl⟩, hd⟩
      · exact fun h => h.1
    · next hd =>
      constructor
      · intro h
        cases h
      · rintro ⟨h, hc⟩
        cases h
        exact absurd hc hd

/-- Looking ahead for a character is looking at the first one. -/
theorem isSome_char : (char p s).isSome = s.head?.any p := by
  cases s with
  | nil => rfl
  | cons c s =>
    rw [char_cons, List.head?_cons, Option.any_some]
    cases p c <;> rfl

/-- A repeated character takes the longest front of its class. -/
theorem star_char (p : Char → Bool) (s : List Char) :
    star (char p) s = (s.takeWhile p, s.dropWhile p) := by
  induction s with
  | nil => exact star_of_none rfl
  | cons c s ih =>
    cases hc : p c with
    | true =>
      have hfirst : char p (c :: s) = some (c, s) := char_eq_some_iff.mpr ⟨rfl, hc⟩
      rw [star_of_some hfirst (Nat.lt_succ_self _), ih, List.takeWhile_cons_of_pos hc,
        List.dropWhile_cons_of_pos hc]
    | false =>
      have hnone : char p (c :: s) = none := char_eq_none (stops_cons.mpr hc)
      rw [star_of_none hnone, List.takeWhile_cons_of_neg (Bool.eq_false_iff.mp hc),
        List.dropWhile_cons_of_neg (Bool.eq_false_iff.mp hc)]

/-- A character of a class and then more of them are a run. -/
theorem plus_char (p : Char → Bool) (s : List Char) : plus (char p) s = scanRun p s := by
  unfold plus scanRun
  cases s with
  | nil => rfl
  | cons c s =>
    rw [char_cons]
    cases hc : p c with
    | true =>
      rw [List.takeWhile_cons_of_pos hc, List.dropWhile_cons_of_pos hc]
      simp only [star_char]
      rfl
    | false =>
      rw [List.takeWhile_cons_of_neg (Bool.eq_false_iff.mp hc)]
      rfl

/-! ### Skipping -/

theorem isSome_newline_cons (c : Char) (s : List Char) :
    (newline (c :: s)).isSome = isLineEnd c := by
  unfold newline
  split
  · next h =>
    cases h
    rfl
  · next h =>
    cases h
    rfl
  · next h =>
    cases h
    rfl
  · next hfeed _ hreturn =>
    have hne : c ≠ '\n' ∧ c ≠ '\r' := by
      constructor
      · rintro rfl
        exact hfeed s rfl
      · rintro rfl
        exact hreturn s rfl
    rw [isLineEnd, decide_eq_false hne.1, decide_eq_false hne.2]
    rfl

/-- A comment is made of the characters that do not end a line. -/
theorem commentChar_eq : commentChar = char fun c => !isLineEnd c := by
  funext s
  cases s with
  | nil => rfl
  | cons c s =>
    rw [commentChar, isSome_newline_cons, char_cons, char_cons]
    cases isLineEnd c <;> rfl

theorem comment_cons (s : List Char) :
    comment (';' :: s)
      = some (s.takeWhile fun c => !isLineEnd c, s.dropWhile fun c => !isLineEnd c) := by
  rw [comment, commentChar_eq]
  simp only [char_cons, star_char]
  rfl

theorem commentBlanks_eq_none (h : Stops (· = ';') s) : commentBlanks s = none := by
  rw [commentBlanks, comment, char_eq_none h]
  rfl

theorem star_whitespace (s : List Char) : (star whitespace s).2 = skipBlanks s := by
  rw [whitespace, star_char]
  rfl

/-- Only blanks are skipped where no comment begins behind them. -/
theorem skip_of_stops (h : Stops (· = ';') (skipBlanks s)) : skip s = skipBlanks s := by
  rw [skip, star_whitespace, star_of_none (commentBlanks_eq_none h)]

theorem skip_eq_self (hblank : Stops isBlank s) (hcomment : Stops (· = ';') s) : skip s = s := by
  have hblanks : skipBlanks s = s := skipBlanks_append blank_nil hblank
  rw [skip_of_stops (hblanks.symm ▸ hcomment), hblanks]

/-- The end of a line is neither a blank nor a comment. -/
theorem stops_of_isLineEnd (h : Stops (fun c => !isLineEnd c) s) :
    Stops isBlank s ∧ Stops (· = ';') s := by
  constructor
  · refine h.mono fun c hc => ?_
    rcases isBlank_iff.mp hc with rfl | rfl <;> decide
  · refine h.mono fun c hc => ?_
    obtain rfl : c = ';' := of_decide_eq_true hc
    decide

/-- A comment is skipped to the end of the line, and nothing behind it. -/
theorem skip_of_comment (h : skipBlanks s = ';' :: t) :
    skip s = t.dropWhile fun c => !isLineEnd c := by
  generalize hr : (t.dropWhile fun c => !isLineEnd c) = r
  obtain ⟨hblank, hcomment⟩ := stops_of_isLineEnd (hr ▸ stops_dropWhile _ t : Stops _ r)
  have hlength : r.length < (';' :: t).length :=
    hr ▸ Nat.lt_succ_of_le (List.dropWhile_suffix _).length_le
  -- one round takes the comment and no blanks, and there is no second one at the end of a line
  have hround : commentBlanks (';' :: t) = some ((star whitespace r).1, r) := by
    rw [commentBlanks, comment_cons, hr]
    exact congrArg some
      (Prod.ext rfl ((star_whitespace r).trans (skipBlanks_append blank_nil hblank)))
  rw [skip, star_whitespace, h, star_of_some hround hlength,
    star_of_none (commentBlanks_eq_none hcomment)]

/-- What is skipped is either blanks, or blanks and a comment. -/
theorem skip_cases (s : List Char) :
    (Stops (· = ';') (skipBlanks s) ∧ skip s = skipBlanks s) ∨
      ∃ t, skipBlanks s = ';' :: t ∧ skip s = t.dropWhile fun c => !isLineEnd c := by
  cases hs : skipBlanks s with
  | nil => exact .inl ⟨stops_nil, (skip_of_stops (hs ▸ stops_nil)).trans hs⟩
  | cons c t =>
    by_cases hc : c = ';'
    · subst hc
      exact .inr ⟨t, rfl, skip_of_comment hs⟩
    · have hstop : Stops (· = ';') (c :: t) := stops_cons.mpr (decide_eq_false hc)
      exact .inl ⟨hstop, (skip_of_stops (hs ▸ hstop)).trans hs⟩

theorem skip_skip (s : List Char) : skip (skip s) = skip s := by
  rcases skip_cases s with ⟨hcomment, hs⟩ | ⟨t, -, hs⟩
  · rw [hs]
    exact skip_eq_self (stops_dropWhile _ s) hcomment
  · obtain ⟨hblank, hcomment⟩ := stops_of_isLineEnd (stops_dropWhile (fun c => !isLineEnd c) t)
    rw [hs]
    exact skip_eq_self hblank hcomment

/-- The characters that are not skipped and do not end a line. -/
def isCode (c : Char) : Bool := !(isBlank c || c = ';' || isLineEnd c)

/-- Something stands at the front of the text that is not skipped. -/
def BeginsCode (s : List Char) : Prop := s.head?.any isCode

theorem not_beginsCode_nil : ¬ BeginsCode [] := Bool.false_ne_true

@[simp] theorem beginsCode_cons : BeginsCode (c :: s) ↔ isCode c := Iff.rfl

theorem not_beginsCode_dropWhile (t : List Char) :
    ¬ BeginsCode (t.dropWhile fun c => !isLineEnd c) := by
  have hend := stops_dropWhile (fun c => !isLineEnd c) t
  generalize (t.dropWhile fun c => !isLineEnd c) = r at hend
  cases r with
  | nil => exact not_beginsCode_nil
  | cons c r =>
    have hc : isLineEnd c = true := by simpa using stops_cons.mp hend
    rw [beginsCode_cons, isCode, hc, Bool.or_true]
    exact Bool.false_ne_true

/-- In front of a part of the line there are only blanks to skip. -/
theorem exists_of_beginsCode_skip (h : BeginsCode (skip s)) : ∃ b, Blank b ∧ s = b ++ skip s := by
  rcases skip_cases s with ⟨-, hs⟩ | ⟨t, -, hs⟩
  · rw [hs]
    exact exists_eq_append_skipBlanks s
  · rw [hs] at h
    exact absurd h (not_beginsCode_dropWhile t)

/-- At the end of a text there may be a comment as well. -/
theorem exists_of_skip_eq_nil (h : skip s = []) :
    ∃ b x, Blank b ∧ IsComment x ∧ s = b ++ x := by
  rcases skip_cases s with ⟨-, hs⟩ | ⟨t, hblanks, hs⟩
  · rw [h] at hs
    exact ⟨s, [], skipBlanks_eq_nil_iff.mp hs.symm, .none, (List.append_nil s).symm⟩
  · obtain ⟨b, hb, rfl⟩ := exists_eq_append_of_skipBlanks hblanks
    refine ⟨b, ';' :: t, hb, .some fun c hc => ?_, rfl⟩
    have hall := List.dropWhile_eq_nil_iff.mp (hs.symm.trans h) c hc
    simpa using hall

theorem skip_append (hb : Blank b) (hs : BeginsCode s) : skip (b ++ s) = s := by
  cases s with
  | nil => exact absurd hs not_beginsCode_nil
  | cons c s =>
    have hc : isBlank c = false ∧ decide (c = ';') = false := by
      simp only [beginsCode_cons, isCode, Bool.not_eq_true', Bool.or_eq_false_iff] at hs
      exact hs.1
    have hblanks : skipBlanks (b ++ c :: s) = c :: s := skipBlanks_append hb (stops_cons.mpr hc.1)
    have hstop : Stops (· = ';') (c :: s) := stops_cons.mpr hc.2
    rw [skip_of_stops (hblanks.symm ▸ hstop), hblanks]

/-- Blanks and a comment are skipped as a whole. -/
theorem skip_eq_nil (hb : Blank b) (hx : IsComment x) : skip (b ++ x) = [] := by
  cases hx with
  | none =>
    have hblanks : skipBlanks (b ++ []) = [] := skipBlanks_append hb stops_nil
    rw [skip_of_stops (hblanks.symm ▸ stops_nil), hblanks]
  | @some s hs =>
    rw [skip_of_comment (skipBlanks_append hb (stops_cons.mpr (by decide))),
      List.dropWhile_eq_nil_iff]
    intro c hc
    rw [hs c hc]
    rfl

/-! ### Parts that need code -/

/-- The rule does not fit where blanks, a comment, or the end of the line begins. -/
def NeedsCode (e : Rule α) : Prop := ∀ s a r, e s = some (a, r) → BeginsCode s

/-- **A part of the line may just as well begin behind the blanks**, since it does not begin where
a comment ends. -/
theorem NeedsCode.skip_eq {e : Rule α} (he : NeedsCode e) (s : List Char) :
    e (skip s) = e (skipBlanks s) := by
  have hnone : ∀ s, ¬ BeginsCode s → e s = none := by
    intro s hs
    cases h : e s with
    | none => rfl
    | some found => exact absurd (he s found.1 found.2 h) hs
  rcases skip_cases s with ⟨-, hs⟩ | ⟨t, hblanks, hs⟩
  · rw [hs]
  · -- the rule fits neither in front of a comment nor behind one
    rw [hs, hblanks, hnone _ (not_beginsCode_dropWhile t),
      hnone _ (beginsCode_cons.not.mpr (by decide))]

theorem isCode_of_isCommandChar (h : isCommandChar c) (hb : isBlank c = false) : isCode c := by
  have hsemicolon : c ≠ ';' := by
    rintro rfl
    exact absurd h (by decide)
  rw [isCode, hb, decide_eq_false hsemicolon, isLineEnd_of_isCommandChar h]
  rfl

/-- A word followed by anything is not skipped. -/
theorem beginsCode_append (ht : IsRun isWordChar t) (r : List Char) : BeginsCode (t ++ r) := by
  cases t with
  | nil => exact absurd rfl ht.1
  | cons c t =>
    have hc : isWordChar c := ht.2 c List.mem_cons_self
    exact isCode_of_isCommandChar (isCommandChar_of_isOperandChar (isOperandChar_of_isWordChar hc))
      (isBlank_of_isWordChar hc)

theorem needsCode_char (hp : ∀ c, p c → isCode c) : NeedsCode (char p) := by
  intro s c r h
  obtain ⟨rfl, hc⟩ := char_eq_some_iff.mp h
  exact hp c hc

/-! ### Words are what scanners find -/

theorem identifier_eq (s : List Char) : identifier s = scanName s := by
  cases s with
  | nil => rfl
  | cons c s =>
    rw [identifier, scanName, char_cons, List.head?_cons, Option.any_some]
    cases hc : isNameStart c with
    | false => rfl
    | true =>
      rw [scanRun, List.takeWhile_cons_of_pos (isNameChar_of_isNameStart hc),
        List.dropWhile_cons_of_pos (isNameChar_of_isNameStart hc)]
      simp only [star_char]
      rfl

theorem register_eq (s : List Char) : register s = scanRegister s := by
  cases s with
  | nil => rfl
  | cons c s =>
    rw [register, scanRegister, char_cons]
    by_cases hc : c = 'r' ∨ c = 'R'
    · rw [if_pos hc, if_pos (by simpa using hc)]
      simp only [Option.bind_eq_bind, Option.bind_some, plus_char, isSome_char]
      cases scanRun Char.isDigit s with
      | none => rfl
      | some found => rfl
    · rw [if_neg hc, if_neg (by simpa using hc)]
      rfl

theorem hexLiteral_cons (s : List Char) :
    hexLiteral (c :: s)
      = if c = '$' then (scanRun isHexDigit s).map fun (digits, rest) => ('$' :: digits, rest)
        else none := by
  by_cases hc : c = '$'
  · subst hc
    rw [hexLiteral, char_cons_of_pos (by decide), if_pos rfl]
    simp only [Option.bind_eq_bind, Option.bind_some, plus_char]
    cases scanRun isHexDigit s <;> rfl
  · rw [hexLiteral, char_cons_of_neg (by simpa using hc), if_neg hc]
    rfl

theorem decLiteral_cons (s : List Char) :
    decLiteral (c :: s)
      = if c = '-' then (scanRun Char.isDigit s).map fun (digits, rest) => ('-' :: digits, rest)
        else scanRun Char.isDigit (c :: s) := by
  by_cases hc : c = '-'
  · subst hc
    rw [decLiteral, option, char_cons_of_pos (by decide), if_pos rfl]
    simp only [Option.bind_eq_bind, plus_char]
    cases scanRun Char.isDigit s <;> rfl
  · rw [decLiteral, option, char_cons_of_neg (by simpa using hc), if_neg hc]
    simp only [Option.bind_eq_bind, plus_char]
    cases scanRun Char.isDigit (c :: s) <;> rfl

theorem value_eq (s : List Char) : value s = scanValue s := by
  cases s with
  | nil => rfl
  | cons c s =>
    rw [value, hexLiteral_cons, decLiteral_cons, identifier_eq]
    by_cases hhex : c = '$'
    · -- neither a number nor a name begins with a dollar sign
      subst hhex
      rw [if_pos rfl, if_neg (by decide), scanRun_eq_none (stops_cons.mpr (by decide))]
      have hname : scanName ('$' :: s) = none := rfl
      rw [hname, scanValue]
      cases scanRun isHexDigit s <;> rfl
    · by_cases hminus : c = '-'
      · -- only a number begins with a minus sign
        subst hminus
        have hname : scanName ('-' :: s) = none := rfl
        rw [if_neg (by decide), if_pos rfl, hname, scanValue]
        cases scanRun Char.isDigit s <;> rfl
      · -- otherwise both look for digits, and then for a name
        have hmark : Stops isNumeralMark (c :: s) := by
          rw [stops_cons, isNumeralMark, decide_eq_false hhex, decide_eq_false hminus]
          rfl
        rw [if_neg hhex, if_neg hminus, scanValue_of_stops hmark]
        rfl

theorem mnemonic_eq (s : List Char) : mnemonic s = scanMnemonic s := by
  rw [mnemonic, scanMnemonic, plus_char]
  cases hrun : scanRun Char.isAlpha s with
  | none => rfl
  | some found =>
    obtain ⟨letters, rest⟩ := found
    -- no letter follows the letters
    have hstop : Stops Char.isAlpha rest := (scanRun_eq_some_iff.mp hrun).2.2
    have hnext : rest.head?.any (fun c => c.isDigit || c = '_') = rest.head?.any isNameChar := by
      cases rest with
      | nil => rfl
      | cons c rest =>
        rw [List.head?_cons, Option.any_some, Option.any_some, isNameChar, Char.isAlphanum,
          stops_cons.mp hstop, Bool.false_or]
    simp only [Option.bind_eq_bind, Option.bind_some, isSome_char, hnext]
    rfl

/-! ### Operands are what scanners find -/

theorem needsCode_register : NeedsCode register := by
  intro s t r h
  rw [register_eq] at h
  obtain ⟨rfl, ht, -⟩ := scanRegister_eq_some_iff.mp h
  exact beginsCode_append ht.isValue.isRun r

theorem scanRegister_skip (s : List Char) :
    scanRegister (skip s) = scanRegister (skipBlanks s) := by
  rw [← register_eq, ← register_eq]
  exact needsCode_register.skip_eq s

/-- A punctuation mark may just as well stand behind the blanks. -/
theorem char_skip {d : Char} (hd : isCode d) (s : List Char) :
    char (· = d) (skip s) = char (· = d) (skipBlanks s) := by
  refine (needsCode_char fun c hc => ?_).skip_eq s
  obtain rfl : c = d := of_decide_eq_true hc
  exact hd

theorem indexed_eq (s : List Char) : indexed s = scanIndexed s := by
  unfold indexed scanIndexed
  simp only [value_eq, register_eq, scanRegister_skip, char_skip (d := '[') (by decide),
    char_skip (d := ']') (by decide)]
  -- the parts are the same, so only the looks at the brackets are left to compare
  refine congrArg (Option.bind (scanValue s)) (funext fun value => ?_)
  cases skipBlanks value.2 with
  | nil => rfl
  | cons c r₁ =>
    by_cases hopen : c = '['
    · subst hopen
      refine congrArg (Option.bind (scanRegister (skipBlanks r₁))) (funext fun index => ?_)
      cases skipBlanks index.2 with
      | nil => rfl
      | cons c r₂ =>
        by_cases hclose : c = ']'
        · subst hclose
          rfl
        · rw [char_cons_of_neg (by simpa using hclose)]
          split
          · next h => exact absurd (List.cons.inj h).1 hclose
          · rfl
    · rw [char_cons_of_neg (by simpa using hopen)]
      split
      · next h => exact absurd (List.cons.inj h).1 hopen
      · rfl

theorem operand_eq (s : List Char) : operand s = scanOperand s := by
  rw [operand, scanOperand, indexed_eq, register_eq, value_eq]

theorem needsCode_operand : NeedsCode operand := by
  intro s o r h
  rw [operand_eq] at h
  obtain ⟨t, rfl, ho⟩ := eq_append_of_scanOperand h
  obtain ⟨v, w, hv, rfl⟩ := ho.exists_value
  rw [List.append_assoc]
  exact beginsCode_append hv.isRun _

/-! ### Statements -/

variable {os : List OperandText} {o : OperandText}

/-- What the rule `"," ~ operand` takes, with the blanks in front of it. -/
theorem eq_append_of_nextOperand (h : nextOperand (skip s) = some (o, r)) :
    ∃ b₁ b₂ t, s = b₁ ++ ',' :: (b₂ ++ (t ++ r)) ∧ Blank b₁ ∧ Blank b₂ ∧ o.Spells t := by
  obtain ⟨⟨c, r₁⟩, hcomma, h⟩ := Option.bind_eq_some_iff.mp h
  obtain ⟨hskip, hc⟩ := char_eq_some_iff.mp hcomma
  obtain rfl : c = ',' := of_decide_eq_true hc
  obtain ⟨b₁, hb₁, hs⟩ := exists_of_beginsCode_skip (hskip ▸ rfl : BeginsCode (skip s))
  dsimp only at h
  rw [needsCode_operand.skip_eq, operand_eq] at h
  obtain ⟨t, hr₁, ho⟩ := eq_append_of_scanOperand h
  obtain ⟨b₂, hb₂, hblanks⟩ := exists_eq_append_of_skipBlanks hr₁
  refine ⟨b₁, b₂, t, ?_, hb₁, hb₂, ho⟩
  rw [hs, hskip, hblanks]

/-- What the rounds of this rule take. -/
theorem eq_append_of_star (s : List Char) :
    ∃ t, s = t ++ (star (fun s => nextOperand (skip s)) s).2 ∧
      SpellsMore (star (fun s => nextOperand (skip s)) s).1 t := by
  induction s using star_induction (e := fun s => nextOperand (skip s)) with
  | nil s => exact ⟨[], rfl, .nil⟩
  | cons s o r os r' hround hrest =>
    obtain ⟨b₁, b₂, t, rfl, hb₁, hb₂, ho⟩ := eq_append_of_nextOperand hround
    obtain ⟨t', rfl, hmore⟩ := hrest
    refine ⟨b₁ ++ ',' :: (b₂ ++ (t ++ t')), ?_, .cons hb₁ hb₂ ho hmore⟩
    simp only [List.append_assoc, List.cons_append]

/-- What the operands behind the first one take.  Where there are none, the blanks at the end have
been skipped. -/
theorem eq_append_of_starSkipping (h : starSkipping nextOperand (skip s) = (os, r)) :
    ∃ t r', s = t ++ r' ∧ SpellsMore os t ∧ skip r' = skip r := by
  rw [starSkipping] at h
  split at h
  · next o r₁ hnext =>
    obtain ⟨rfl, rfl⟩ := Prod.mk.inj h
    obtain ⟨b₁, b₂, t, rfl, hb₁, hb₂, ho⟩ := eq_append_of_nextOperand hnext
    obtain ⟨t', hr₁, hmore⟩ := eq_append_of_star r₁
    refine ⟨b₁ ++ ',' :: (b₂ ++ (t ++ t')), _, ?_, .cons hb₁ hb₂ ho hmore, rfl⟩
    simp only [List.append_assoc, List.cons_append, ← hr₁]
  · -- there is no comma
    obtain ⟨rfl, rfl⟩ := Prod.mk.inj h
    exact ⟨[], s, rfl, .nil, (skip_skip s).symm⟩

/-- What the operands of a statement take, if there are any. -/
theorem eq_append_of_operands {found : Option (List OperandText)}
    (h : option operands (skip s) = (found, r)) :
    ∃ t r', s = t ++ r' ∧ SpellsOperands (found.getD []) t ∧ skip r' = skip r := by
  rw [option] at h
  split at h
  · next os r₁ hfound =>
    obtain ⟨rfl, rfl⟩ := Prod.mk.inj h
    obtain ⟨⟨o, r₂⟩, hfirst, hrest⟩ := Option.bind_eq_some_iff.mp hfound
    rcases hstar : starSkipping nextOperand (skip r₂) with ⟨others, r₃⟩
    simp only [hstar] at hrest
    cases hrest
    rw [needsCode_operand.skip_eq, operand_eq] at hfirst
    obtain ⟨t, hblanks, ho⟩ := eq_append_of_scanOperand hfirst
    obtain ⟨b, hb, rfl⟩ := exists_eq_append_of_skipBlanks hblanks
    obtain ⟨t', r', rfl, hmore, hskip⟩ := eq_append_of_starSkipping hstar
    refine ⟨b ++ (t ++ t'), r', ?_, .cons hb ho hmore, hskip⟩
    simp only [List.append_assoc]
  · -- there is no operand
    obtain ⟨rfl, rfl⟩ := Prod.mk.inj h
    exact ⟨[], s, rfl, .nil, (skip_skip s).symm⟩

/-- What a statement takes. -/
theorem eq_append_of_statement {command : List Char × List OperandText}
    (h : statement s = some (command, r)) :
    ∃ c r', s = c ++ r' ∧ SpellsCommand (some command) c ∧ skip r' = skip r := by
  obtain ⟨⟨name, r₁⟩, hname, h⟩ := Option.bind_eq_some_iff.mp h
  rcases hfound : option operands (skip r₁) with ⟨found, r₂⟩
  simp only [hfound] at h
  cases h
  rw [mnemonic_eq] at hname
  obtain ⟨rfl, hletters, hstop⟩ := scanMnemonic_eq_some_iff.mp hname
  obtain ⟨t, r', rfl, hoperands, hskip⟩ := eq_append_of_operands hfound
  refine ⟨name ++ t, r', ?_, .some hletters hstop.of_append hoperands, hskip⟩
  rw [List.append_assoc]

theorem needsCode_statement : NeedsCode statement := by
  intro s command r h
  obtain ⟨⟨name, r₁⟩, hname, -⟩ := Option.bind_eq_some_iff.mp h
  rw [mnemonic_eq] at hname
  obtain ⟨rfl, hletters, -⟩ := scanMnemonic_eq_some_iff.mp hname
  exact beginsCode_append hletters.isName.isWordRun r₁

/-! ### Lines -/

variable {command : Option (List Char × List OperandText)} {b' c : List Char}

theorem option_label_eq (s : List Char) : option label s = scanLabel s := by
  rw [option, label, identifier_eq, scanLabel]
  cases scanName s with
  | none => rfl
  | some found =>
    obtain ⟨name, rest⟩ := found
    cases rest with
    | nil => rfl
    | cons d rest =>
      by_cases hd : d = ':'
      · subst hd
        rfl
      · simp only [Option.bind_eq_bind, Option.bind_some,
          char_cons_of_neg (p := (· = ':')) (by simpa using hd)]
        split
        · next h => cases h
        · split
          · next h =>
            cases h
            exact absurd rfl hd
          · rfl

/-- What is matched behind the label, up to the end of the line. -/
theorem eq_append_of_command (h : option statement (skip s) = (command, r)) (hend : skip r = []) :
    ∃ b c b' x, s = b ++ (c ++ (b' ++ x)) ∧ Blank b ∧ SpellsCommand command c ∧ Blank b' ∧
      IsComment x := by
  rw [option] at h
  split at h
  · next found r₁ hfound =>
    obtain ⟨rfl, rfl⟩ := Prod.mk.inj h
    obtain ⟨b, hb, hs⟩ := exists_of_beginsCode_skip (needsCode_statement _ _ _ hfound)
    obtain ⟨c, r', hskip, hc, hr'⟩ := eq_append_of_statement hfound
    obtain ⟨b', x, hb', hx, rfl⟩ := exists_of_skip_eq_nil (hr'.trans hend)
    exact ⟨b, c, b', x, hskip ▸ hs, hb, hc, hb', hx⟩
  · -- there is no command, and all that is left is skipped
    obtain ⟨rfl, rfl⟩ := Prod.mk.inj h
    rw [skip_skip] at hend
    obtain ⟨b', x, hb', hx, rfl⟩ := exists_of_skip_eq_nil hend
    exact ⟨[], [], b', x, rfl, blank_nil, .none, hb', hx⟩

/-- **What the grammar matches is a line of the language.** -/
theorem spells_of_line {parts : LineText} (h : line s = some parts) : parts.Spells s := by
  rcases hlabel : option label (skip s) with ⟨label, s₁⟩
  rcases hcommand : option statement (skip s₁) with ⟨command, s₂⟩
  simp only [line, hlabel, hcommand] at h
  split at h
  · next hend =>
    cases h
    rw [option_label_eq] at hlabel
    cases label with
    | none =>
      -- nothing has been taken for a label
      rw [scanLabel_eq_none (congrArg Prod.fst hlabel)] at hlabel
      obtain rfl : skip s = s₁ := congrArg Prod.snd hlabel
      rw [skip_skip] at hcommand
      obtain ⟨b, c, b', x, rfl, hb, hc, hb', hx⟩ := eq_append_of_command hcommand hend
      have hspells : LineText.Spells ⟨none, command⟩ (b ++ ([] ++ (c ++ (b' ++ x)))) :=
        .intro hb .none hc hb' hx
      exact hspells
    | some n =>
      obtain ⟨hskip, hn⟩ := scanLabel_eq_some_iff.mp hlabel
      obtain ⟨b, hb, hs⟩ := exists_of_beginsCode_skip (hskip ▸ beginsCode_append hn.isWordRun _)
      obtain ⟨b₁, c, b', x, rfl, hb₁, hc, hb', hx⟩ := eq_append_of_command hcommand hend
      have hspells : LineText.Spells ⟨some n, command⟩
          (b ++ ((n ++ ':' :: b₁) ++ (c ++ (b' ++ x)))) := .intro hb (.some hn hb₁) hc hb' hx
      rw [hs, hskip]
      simpa only [List.append_assoc, List.cons_append] using hspells
  · cases h

/-! ### Lines of the language are matched -/

/-- No name goes on at the end of a line. -/
theorem stops_end (hb : Blank b) (hx : IsComment x) : Stops isNameChar (b ++ x) :=
  (hb.stops fun _ => isNameChar_of_isBlank).append (hx.stops (by decide))

/-- Behind an operand there is a comma, or the end of the line. -/
theorem ends_operand (hmore : SpellsMore os t) (hb : Blank b) (hx : IsComment x) :
    Stops isNameChar (t ++ (b ++ x)) ∧ ∀ y, skipBlanks (t ++ (b ++ x)) ≠ '[' :: y := by
  cases hmore with
  | nil =>
    -- it was the last one
    rw [List.nil_append]
    refine ⟨stops_end hb hx, fun y hy => ?_⟩
    rw [skipBlanks_append hb (hx.stops (by decide))] at hy
    subst hy
    cases hx
  | @cons o os b₁ b₂ t₁ s₁ hb₁ hb₂ ho hmore =>
    -- the comma of the next one follows
    rw [List.append_assoc, List.cons_append]
    constructor
    · exact (hb₁.stops fun _ => isNameChar_of_isBlank).append (stops_cons.mpr (by decide))
    · intro y hy
      rw [skipBlanks_append hb₁ (stops_cons.mpr (by decide))] at hy
      exact absurd (List.cons.inj hy).1 (by decide)

theorem nextOperand_append {b₁ b₂ s' : List Char} (hb₁ : Blank b₁) (hb₂ : Blank b₂)
    (ho : o.Spells t) (hmore : SpellsMore os s') (hb : Blank b) (hx : IsComment x) :
    nextOperand (skip (b₁ ++ ',' :: (b₂ ++ (t ++ (s' ++ (b ++ x))))))
      = some (o, s' ++ (b ++ x)) := by
  obtain ⟨hstop, hopen⟩ := ends_operand hmore hb hx
  have hcomma : BeginsCode (',' :: (b₂ ++ (t ++ (s' ++ (b ++ x))))) :=
    beginsCode_cons.mpr (by decide)
  rw [skip_append hb₁ hcomma, nextOperand, char_cons_of_pos (by decide)]
  show operand (skip (b₂ ++ (t ++ (s' ++ (b ++ x))))) = _
  rw [needsCode_operand.skip_eq, operand_eq, skipBlanks_append hb₂ (ho.stops_append _),
    scanOperand_append ho hstop hopen]

/-- The rounds of this rule take all operands that follow. -/
theorem star_append (hmore : SpellsMore os t) (hb : Blank b) (hx : IsComment x) :
    star (fun s => nextOperand (skip s)) (t ++ (b ++ x)) = (os, b ++ x) := by
  induction hmore with
  | nil =>
    refine star_of_none ?_
    rw [List.nil_append, skip_eq_nil hb hx]
    rfl
  | @cons o os b₁ b₂ t s' hb₁ hb₂ ho hmore ih =>
    have hround := nextOperand_append hb₁ hb₂ ho hmore hb hx
    simp only [List.append_assoc, List.cons_append]
    rw [star_of_some (e := fun s => nextOperand (skip s)) hround (by simp; omega), ih]

theorem starSkipping_append (hmore : SpellsMore os t) (hb : Blank b) (hx : IsComment x) :
    ∃ r, starSkipping nextOperand (skip (t ++ (b ++ x))) = (os, r) ∧ skip r = [] := by
  cases hmore with
  | nil =>
    rw [List.nil_append, skip_eq_nil hb hx]
    exact ⟨[], rfl, skip_eq_nil blank_nil .none⟩
  | @cons o os b₁ b₂ t s' hb₁ hb₂ ho hmore =>
    have hround := nextOperand_append hb₁ hb₂ ho hmore hb hx
    refine ⟨b ++ x, ?_, skip_eq_nil hb hx⟩
    simp only [List.append_assoc, List.cons_append]
    rw [starSkipping, hround]
    simp only [star_append hmore hb hx]

/-- The operands of a statement are matched, to the end of the line. -/
theorem operands_append (hos : SpellsOperands os t) (hb : Blank b) (hx : IsComment x) :
    ∃ found r, option operands (skip (t ++ (b ++ x))) = (found, r) ∧ found.getD [] = os ∧
      skip r = [] := by
  cases hos with
  | nil =>
    rw [List.nil_append, skip_eq_nil hb hx]
    exact ⟨none, [], rfl, rfl, skip_eq_nil blank_nil .none⟩
  | @cons o os b₁ t₁ s₁ hb₁ ho hmore =>
    obtain ⟨hstop, hopen⟩ := ends_operand hmore hb hx
    obtain ⟨r, hothers, hr⟩ := starSkipping_append hmore hb hx
    refine ⟨some (o :: os), r, ?_, rfl, hr⟩
    have hfirst : operand (skip (b₁ ++ (t₁ ++ (s₁ ++ (b ++ x))))) = some (o, s₁ ++ (b ++ x)) := by
      rw [needsCode_operand.skip_eq, operand_eq, skipBlanks_append hb₁ (ho.stops_append _),
        scanOperand_append ho hstop hopen]
    simp only [List.append_assoc, option, operands, hfirst, Option.bind_eq_bind, Option.bind_some,
      hothers]
    rfl

/-- A command is matched, to the end of the line. -/
theorem statement_append (hb : Blank b) (hc : SpellsCommand command c) (hb' : Blank b')
    (hx : IsComment x) :
    ∃ r, option statement (skip (b ++ (c ++ (b' ++ x)))) = (command, r) ∧ skip r = [] := by
  cases hc with
  | none =>
    -- the blanks in front and at the end are skipped as one
    rw [List.nil_append, ← List.append_assoc, skip_eq_nil (hb.append hb') hx]
    exact ⟨[], rfl, skip_eq_nil blank_nil .none⟩
  | @some m t os hm hstop hos =>
    have hrest : Stops isNameChar (t ++ (b' ++ x)) := hstop.append (stops_end hb' hx)
    have hname : mnemonic (m ++ (t ++ (b' ++ x))) = some (m, t ++ (b' ++ x)) := by
      rw [mnemonic_eq]
      exact scanMnemonic_eq_some_iff.mpr ⟨rfl, hm, hrest⟩
    obtain ⟨found, r, hfound, hos, hr⟩ := operands_append hos hb' hx
    refine ⟨r, ?_, hr⟩
    rw [List.append_assoc, skip_append hb (beginsCode_append hm.isName.isWordRun _)]
    simp only [option, statement, hname, Option.bind_eq_bind, Option.bind_some]
    simp only [option] at hfound
    simp only [hfound, hos]
    rfl

/-- A command is not taken for a label, even if there is a colon in the comment behind it. -/
theorem scanLabel_command (hb : Blank b) (hc : SpellsCommand command c) (hb' : Blank b')
    (hx : IsComment x) :
    scanLabel (skip (b ++ (c ++ (b' ++ x)))) = (none, skip (b ++ (c ++ (b' ++ x)))) := by
  cases hc with
  | none =>
    rw [List.nil_append, ← List.append_assoc, skip_eq_nil (hb.append hb') hx]
    rfl
  | @some m t os hm hstop hos =>
    rw [List.append_assoc, skip_append hb (beginsCode_append hm.isName.isWordRun _)]
    have hrest : Stops isNameChar (t ++ (b' ++ x)) := hstop.append (stops_end hb' hx)
    -- the name at the front is the mnemonic, and no colon follows it
    have hcolon : Stops (· = ':') (t ++ (b' ++ x)) := by
      have ht : Stops (· = ':') t := fun d hd => decide_eq_false fun h =>
        notMem_of_class hos.commandChars (by decide) (h ▸ List.mem_of_mem_head? hd)
      refine ht.append ((hb'.stops fun d hd => ?_).append (hx.stops (by decide)))
      rcases isBlank_iff.mp hd with rfl | rfl <;> decide
    have hname : scanName (m ++ (t ++ (b' ++ x))) = some (m, t ++ (b' ++ x)) :=
      scanName_eq_some_iff.mpr ⟨rfl, hm.isName, hrest⟩
    rw [scanLabel, hname]
    split
    · next h =>
      rw [(Prod.mk.inj (Option.some.inj h)).2] at hcolon
      exact absurd (stops_cons.mp hcolon) (by decide)
    · rfl

/-- **A line of the language is matched.** -/
theorem line_of_spells {parts : LineText} (h : parts.Spells s) : line s = some parts := by
  obtain ⟨label, command⟩ := parts
  cases h with
  | @intro b l c b' x hb hl hc hb' hx =>
    cases hl with
    | none =>
      obtain ⟨r, hcommand, hr⟩ := statement_append hb hc hb' hx
      rw [List.nil_append, line, option_label_eq, scanLabel_command hb hc hb' hx]
      simp only [skip_skip, hcommand, hr, if_pos]
    | @some n b₁ hn hb₁ =>
      obtain ⟨r, hcommand, hr⟩ := statement_append hb₁ hc hb' hx
      have hskip : skip (b ++ (n ++ ':' :: b₁ ++ (c ++ (b' ++ x))))
          = n ++ ':' :: (b₁ ++ (c ++ (b' ++ x))) := by
        rw [List.append_assoc]
        exact skip_append hb (beginsCode_append hn.isWordRun _)
      rw [line, option_label_eq, hskip, scanLabel_eq_some_iff.mpr ⟨rfl, hn⟩]
      simp only [hcommand, hr, if_pos]

/-- **The grammar matches the lines of the language.** -/
theorem line_eq_some_iff {parts : LineText} : line s = some parts ↔ parts.Spells s :=
  ⟨spells_of_line, line_of_spells⟩

end Rule

end Hindsight
