import Hindsight.CommandLine.Options
import Hindsight.Proofs.Assembly.Meaning
import Hindsight.Proofs.Emulator.WordArithmetic

/-!
# Literals

There are two readers of literals, the one of operands in source text and the one of input words on
the command line.  The first reads an exact number and looks for its place in one range; the second
tries a signed word first and then an unsigned one.  Both read digit strings of any length, and both
give the word of the number modulo `2 ^ 16` if the number is a word in one of the two readings, and
nothing otherwise.  Texts that begin like a numeral and are none are refused by both.

## Main definitions

* `Denotes` — the numerals, and the integers that they denote.
* `BeginsNumeral` — the texts that begin like a numeral.
* `Numeral.number?` — the integer that a reader of literals finds in a text.

## Main results

* `Numeral.ofDigits?_eq_some_iff` — which texts are digit strings, and of which number.
* `Numeral.number?_eq_some_iff` — the number that is found is the one that is denoted.
* `wordOfText?_eq_bind` — the reader of input words looks for this number in one range.
* `Value.ofText_eq_ofWord?` — the reader of operands does the same.
* `literals_denote` — **literals denote their integers, and the readers agree.**
-/

namespace Hindsight

/-! ### Numerals -/

/-- Numerals with the integers that they denote.  A plus sign may stand in front of hexadecimal
digits. -/
inductive Denotes : List Char → Int → Prop
  | hex {digits : List Char} : IsRun isHexDigit digits →
    Denotes ('$' :: digits) (Numeral.value 16 digits)
  | hexPlus {digits : List Char} : IsRun isHexDigit digits →
    Denotes ('$' :: '+' :: digits) (Numeral.value 16 digits)
  | negative {digits : List Char} : IsRun Char.isDigit digits →
    Denotes ('-' :: digits) (-(Numeral.value 10 digits : Int))
  | decimal {digits : List Char} : IsRun Char.isDigit digits →
    Denotes digits (Numeral.value 10 digits)

/-- The text begins like a numeral. -/
def BeginsNumeral (text : List Char) : Prop := ∃ c ∈ text.head?, isNumeralMark c ∨ c.isDigit

variable {text digits : List Char} {i : Int}

theorem Denotes.beginsNumeral (h : Denotes text i) : BeginsNumeral text := by
  cases h with
  | hex | hexPlus => exact ⟨'$', rfl, .inl (by decide)⟩
  | negative => exact ⟨'-', rfl, .inl (by decide)⟩
  | decimal hdigits =>
    cases text with
    | nil => exact absurd rfl hdigits.1
    | cons c s => exact ⟨c, rfl, .inr (hdigits.2 c List.mem_cons_self)⟩

namespace Numeral

variable {base n : Nat}

/-- A text that is read to its end holds only digits. -/
theorem isSome_digit?_of_continueDigits? (h : (continueDigits? base n digits).isSome) :
    ∀ c ∈ digits, (digit? base c).isSome := by
  induction digits generalizing n with
  | nil => exact List.forall_mem_nil _
  | cons c digits ih =>
    rw [continueDigits?] at h
    cases hc : digit? base c with
    | none =>
      rw [hc] at h
      cases h
    | some d =>
      rw [hc] at h
      exact List.forall_mem_cons.mpr ⟨by rw [hc]; rfl, ih h⟩

/-- **Which texts are digit strings**, and of which number. -/
theorem ofDigits?_eq_some_iff :
    ofDigits? base digits = some n ↔
      digits ≠ [] ∧ (∀ c ∈ digits, (digit? base c).isSome) ∧ value base digits = n := by
  constructor
  · intro h
    have hne : digits ≠ [] := by
      rintro rfl
      cases h
    have hall : ∀ c ∈ digits, (digit? base c).isSome := by
      cases digits with
      | nil => exact absurd rfl hne
      | cons c s =>
        rw [ofDigits?] at h
        exact isSome_digit?_of_continueDigits? (by rw [h]; rfl)
    rw [ofDigits?_eq hne hall] at h
    exact ⟨hne, hall, Option.some.inj h⟩
  · rintro ⟨hne, hall, rfl⟩
    exact ofDigits?_eq hne hall

/-- The digits of base ten are the decimal ones, since letters stand for ten and more. -/
theorem isDigit_of_isSome_digit? {c : Char} (h : (digit? 10 c).isSome) : c.isDigit := by
  unfold digit? digitValue? at h
  simp only [char_le_iff] at h
  rw [isDigit_iff]
  split at h
  · next hrange => exact hrange
  · -- the value of a letter is not below ten
    split at h
    · simp at h
    · split at h
      · simp at h
      · cases h

theorem ofDigits?_decimal_eq_some_iff :
    ofDigits? 10 digits = some n ↔ IsRun Char.isDigit digits ∧ value 10 digits = n := by
  rw [ofDigits?_eq_some_iff, IsRun, and_assoc]
  refine and_congr_right fun _ => and_congr_left fun _ => ?_
  exact forall₂_congr fun c _ => ⟨isDigit_of_isSome_digit?, isSome_digit?_of_isDigit⟩

theorem ofDigits?_hex_eq_some_iff :
    ofDigits? 16 digits = some n ↔ IsRun isHexDigit digits ∧ value 16 digits = n := by
  rw [ofDigits?_eq_some_iff, IsRun, and_assoc]
  rfl

/-- A sign is no digit. -/
theorem ofDigits?_minus (digits : List Char) : ofDigits? 10 ('-' :: digits) = none := by
  cases h : ofDigits? 10 ('-' :: digits) with
  | none => rfl
  | some n =>
    have hminus := (ofDigits?_decimal_eq_some_iff.mp h).1.2 '-' List.mem_cons_self
    exact absurd hminus (by decide)

/-- The number that a reader of literals finds, before it looks for its place in a range. -/
def number? : List Char → Option Int
  | '$' :: digits => (unsigned? 16 digits).map fun n : Nat => (n : Int)
  | text => signed? text

theorem number?_of_ne (h : ∀ s, text ≠ '$' :: s) : number? text = signed? text := by
  unfold number?
  split
  · exact absurd rfl (h _)
  · rfl

theorem cons_ne_dollar {c : Char} {s : List Char} (hc : c.isDigit) : ∀ s', c :: s ≠ '$' :: s' := by
  rintro s' heq
  cases heq
  exact absurd hc (by decide)

theorem signed?_minus (digits : List Char) :
    signed? ('-' :: digits) = (ofDigits? 10 digits).map fun n : Nat => -(n : Int) := by
  rw [signed?]
  cases ofDigits? 10 digits <;> rfl

theorem signed?_of_ne (h : ∀ s, text ≠ '-' :: s) :
    signed? text = (unsigned? 10 text).map fun n : Nat => (n : Int) := by
  unfold signed?
  split
  · exact absurd rfl (h _)
  · cases unsigned? 10 text <;> rfl

theorem signed?_of_isDigit {c : Char} {s : List Char} (hc : c.isDigit) :
    signed? (c :: s) = (ofDigits? 10 (c :: s)).map fun n : Nat => (n : Int) := by
  have hplus : Stops (fun c => decide (c = '+')) (c :: s) :=
    stops_cons.mpr (plus_of_isNameChar (isNameChar_of_isDigit hc))
  have hminus : ∀ s', c :: s ≠ '-' :: s' := by
    rintro s' heq
    cases heq
    exact absurd hc (by decide)
  rw [signed?_of_ne hminus, unsigned?_eq_ofDigits? hplus]

/-- Hexadecimal digits behind a dollar sign, with a plus sign or without one. -/
theorem number?_hex_eq_some_iff : number? ('$' :: digits) = some i ↔ Denotes ('$' :: digits) i := by
  rw [number?, Option.map_eq_some_iff]
  constructor
  · rintro ⟨n, h, rfl⟩
    unfold unsigned? at h
    split at h
    · obtain ⟨hrun, rfl⟩ := ofDigits?_hex_eq_some_iff.mp h
      exact .hexPlus hrun
    · obtain ⟨hrun, rfl⟩ := ofDigits?_hex_eq_some_iff.mp h
      exact .hex hrun
  · intro h
    cases h with
    | hex hrun =>
      have hplus : Stops (fun c => decide (c = '+')) digits :=
        hrun.stops fun _ hc => plus_of_isNameChar (isNameChar_of_isHexDigit hc)
      exact ⟨_, (unsigned?_eq_ofDigits? hplus).trans (ofDigits?_hex hrun), rfl⟩
    | hexPlus hrun => exact ⟨_, ofDigits?_hex hrun, rfl⟩
    | decimal hrun => exact absurd (hrun.2 '$' List.mem_cons_self) (by decide)

/-- Decimal digits behind a minus sign. -/
theorem number?_negative_eq_some_iff :
    number? ('-' :: digits) = some i ↔ Denotes ('-' :: digits) i := by
  rw [number?_of_ne (by simp), signed?_minus, Option.map_eq_some_iff]
  constructor
  · rintro ⟨n, h, rfl⟩
    obtain ⟨hrun, rfl⟩ := ofDigits?_decimal_eq_some_iff.mp h
    exact .negative hrun
  · intro h
    cases h with
    | negative hrun => exact ⟨_, ofDigits?_decimal hrun, rfl⟩
    | decimal hrun => exact absurd (hrun.2 '-' List.mem_cons_self) (by decide)

/-- Decimal digits alone. -/
theorem number?_decimal_eq_some_iff {c : Char} {s : List Char} (hc : c.isDigit) :
    number? (c :: s) = some i ↔ Denotes (c :: s) i := by
  rw [number?_of_ne (cons_ne_dollar hc), signed?_of_isDigit hc, Option.map_eq_some_iff]
  constructor
  · rintro ⟨n, h, rfl⟩
    obtain ⟨hrun, rfl⟩ := ofDigits?_decimal_eq_some_iff.mp h
    exact .decimal hrun
  · intro h
    cases h with
    | hex | hexPlus | negative => exact absurd hc (by decide)
    | decimal hrun => exact ⟨_, ofDigits?_decimal hrun, rfl⟩

/-- **The number that is found is the one that is denoted.** -/
theorem number?_eq_some_iff (h : BeginsNumeral text) : number? text = some i ↔ Denotes text i := by
  obtain ⟨c, hc, hbegins⟩ := h
  cases text with
  | nil => cases hc
  | cons d s =>
    obtain rfl := Option.some.inj hc
    rw [isNumeralMark_iff] at hbegins
    -- the first character decides which numerals there can be
    rcases hbegins with (rfl | rfl) | hdigit
    · exact number?_hex_eq_some_iff
    · exact number?_negative_eq_some_iff
    · exact number?_decimal_eq_some_iff hdigit

theorem hexWord?_eq_bind (digits : List Char) :
    hexWord? digits = (number? ('$' :: digits)).bind word? := by
  rw [hexWord?, number?, Option.bind_map]
  refine Option.bind_congr fun n _ => ?_
  rw [Function.comp_apply, word?, ofSigned_natCast]
  split <;> split <;> first | rfl | omega

theorem decimalWord?_eq_bind (h : ∀ s, text ≠ '$' :: s) :
    decimalWord? text = (number? text).bind word? := by
  rw [number?_of_ne h]
  rfl

end Numeral

/-! ### The reader of input words -/

/-- A number as a signed word, if it is one. -/
def signedWord? (i : Int) : Option Word :=
  ((some i).filter fun i => -32768 ≤ i && i ≤ 32767).map Word.ofSigned

theorem signedWord?_eq (i : Int) :
    signedWord? i = if -32768 ≤ i ∧ i ≤ 32767 then some (.ofSigned i) else none := by
  rw [signedWord?, Option.filter_some]
  by_cases h : -32768 ≤ i ∧ i ≤ 32767
  · rw [if_pos h, if_pos (by simpa using h)]
    rfl
  · rw [if_neg h, if_neg (by simpa using h)]
    rfl

/-- No negative number is an unsigned word. -/
theorem signedWord?_neg (n : Nat) :
    (signedWord? (-(n : Int)) <|> none) = Numeral.word? (-(n : Int)) := by
  rw [Option.orElse_eq_orElse, Option.orElse_eq_or, Option.or_none, signedWord?_eq, Numeral.word?]
  split <;> split <;> first | rfl | omega

/-- A number that is no signed word may be an unsigned one. -/
theorem signedWord?_natCast (n : Nat) :
    (signedWord? n <|> ((some n).filter (· < 65536)).map UInt16.ofNat) = Numeral.word? n := by
  rw [Option.orElse_eq_orElse, Option.orElse_eq_or, signedWord?_eq, Numeral.word?,
    Option.filter_some]
  -- a number in both ranges has the same word in either
  by_cases hsigned : n ≤ 32767
  · have hin : -32768 ≤ (n : Int) ∧ (n : Int) ≤ 32767 := by omega
    have hword : -32768 ≤ (n : Int) ∧ (n : Int) < 65536 := by omega
    rw [if_pos hin, if_pos hword, Option.some_or]
  · rw [if_neg (by omega), Option.none_or]
    by_cases hunsigned : n < 65536
    · rw [if_pos (decide_eq_true hunsigned), if_pos (by omega), Option.map_some,
        ← Numeral.ofSigned_natCast]
    · rw [if_neg (by simpa using hunsigned), if_neg (by omega), Option.map_none]

/-- **A signed word is tried first and an unsigned one then**, which is one range. -/
theorem wordOfText?_eq_bind (text : List Char) :
    wordOfText? text = (Numeral.number? text).bind Numeral.word? := by
  unfold wordOfText?
  split
  · next digits => exact Numeral.hexWord?_eq_bind digits
  · next hdollar =>
    rw [Numeral.number?_of_ne hdollar]
    -- behind a minus sign only the signed reading is tried with success
    by_cases hminus : ∃ s, text = '-' :: s
    · obtain ⟨s, rfl⟩ := hminus
      have hunsigned : Numeral.unsigned? 10 ('-' :: s) = none := Numeral.ofDigits?_minus s
      rw [Numeral.signed?_minus, hunsigned]
      cases Numeral.ofDigits? 10 s with
      | none => rfl
      | some n =>
        rw [Option.map_some, Option.bind_some, ← signedWord?_neg]
        rfl
    · rw [Numeral.signed?_of_ne fun s h => hminus ⟨s, h⟩]
      cases Numeral.unsigned? 10 text with
      | none => rfl
      | some n =>
        rw [Option.map_some, Option.bind_some, ← signedWord?_natCast]
        rfl

/-- A numeral is the word of its number, if there is one. -/
theorem wordOfText?_of_denotes (h : Denotes text i) : wordOfText? text = Numeral.word? i := by
  rw [wordOfText?_eq_bind, (Numeral.number?_eq_some_iff h.beginsNumeral).mpr h, Option.bind_some]

/-- What begins like a numeral and is none is no word. -/
theorem wordOfText?_of_not_denotes (hbegins : BeginsNumeral text) (h : ∀ i, ¬ Denotes text i) :
    wordOfText? text = none := by
  have hnone : Numeral.number? text = none :=
    Option.eq_none_iff_forall_ne_some.mpr fun i hi =>
      h i ((Numeral.number?_eq_some_iff hbegins).mp hi)
  rw [wordOfText?_eq_bind, hnone, Option.bind_none]

/-! ### The reader of operands -/

/-- **The reader of operands does the same** with a text that begins like a numeral. -/
theorem Value.ofText_eq_ofWord? (h : BeginsNumeral text) :
    ofText text = ofWord? text (wordOfText? text) := by
  rw [wordOfText?_eq_bind]
  obtain ⟨c, hc, hbegins⟩ := h
  cases text with
  | nil => cases hc
  | cons d s =>
    obtain rfl := Option.some.inj hc
    rw [isNumeralMark_iff] at hbegins
    rcases hbegins with (rfl | rfl) | hdigit
    · rw [ofText_hex, Numeral.hexWord?_eq_bind]
    · rw [ofText_negative, Numeral.decimalWord?_eq_bind (by simp)]
    · rw [ofText_cons (isNumeralMark_of_isDigit hdigit), if_pos hdigit,
        Numeral.decimalWord?_eq_bind (Numeral.cons_ne_dollar hdigit)]

/-! ### The main result -/

/-- **Literals denote their integers, and the readers agree.**  A dollar sign with hexadecimal
digits, of either case, and decimal digits with an optional minus sign, of any number and with any
leading zeros, are read as the word that is their integer modulo `2 ^ 16` if this integer is a word
as a signed or as an unsigned number, and are invalid literals otherwise; so is every text that
begins like a numeral and is none.  Whatever begins like a numeral is accepted on the command line
just if it is accepted as an operand, with the same word. -/
theorem literals_denote (text : List Char) :
    (∀ i, Denotes text i →
      (-32768 ≤ i ∧ i ≤ 65535 →
        ∃ w, Value.ofText text = .ok (.literal w) ∧ (w.toNat : Int) = i % 65536) ∧
      (¬ (-32768 ≤ i ∧ i ≤ 65535) →
        Value.ofText text = .error (.invalidLiteral (String.ofList text)))) ∧
    (BeginsNumeral text →
      ((∀ i, ¬ Denotes text i) →
        Value.ofText text = .error (.invalidLiteral (String.ofList text))) ∧
      ((wordOfText? text).isSome ↔ ∃ v, Value.ofText text = .ok v) ∧
      ∀ w, wordOfText? text = some w ↔ Value.ofText text = .ok (.literal w)) := by
  constructor
  · intro i h
    -- a numeral is looked for in one range, by either reader
    have hread := Value.ofText_eq_ofWord? h.beginsNumeral
    rw [wordOfText?_of_denotes h] at hread
    constructor
    · intro hrange
      rw [Numeral.word?, if_pos (by omega)] at hread
      exact ⟨_, hread, Word.toNat_ofSigned i⟩
    · intro hrange
      rw [Numeral.word?, if_neg (by omega)] at hread
      exact hread
  · intro hbegins
    -- the operand is the word that the other reader finds, or the text that it refuses
    have hread := Value.ofText_eq_ofWord? hbegins
    refine ⟨fun hnone => ?_, ?_, fun w => ?_⟩
    · rw [hread, wordOfText?_of_not_denotes hbegins hnone]
      rfl
    · rw [hread]
      cases wordOfText? text <;> simp [Value.ofWord?]
    · rw [hread]
      cases wordOfText? text <;> simp [Value.ofWord?]

/-- The number behind the zeros is the first one out of range in one numeral and the last one in
range in the other.  Digits with a letter behind them are refused twice. -/
theorem literals_denote_padded :
    Denotes "-00000000032769".toList (-32769) ∧
      Value.ofText "-00000000032769".toList = .error (.invalidLiteral "-00000000032769") ∧
      Denotes "$0000000FfFf".toList 65535 ∧
      (∃ w, Value.ofText "$0000000FfFf".toList = .ok (.literal w) ∧ (w.toNat : Int) = 65535 ∧
        wordOfText? "$0000000FfFf".toList = some w) ∧
      BeginsNumeral "12x".toList ∧ (∀ v, Value.ofText "12x".toList ≠ .ok v) ∧
      wordOfText? "12x".toList = none := by
  have hnegative : Denotes "-00000000032769".toList (-32769) := by
    have hrun : IsRun Char.isDigit "00000000032769".toList :=
      ⟨by decide, List.all_eq_true.mp (by decide)⟩
    have hvalue : Numeral.value 10 "00000000032769".toList = 32769 := by decide
    have hdenotes := Denotes.negative hrun
    rwa [hvalue] at hdenotes
  have hhex : Denotes "$0000000FfFf".toList 65535 := by
    have hrun : IsRun isHexDigit "0000000FfFf".toList :=
      ⟨by decide, List.all_eq_true.mp (by decide)⟩
    have hvalue : Numeral.value 16 "0000000FfFf".toList = 65535 := by decide
    have hdenotes := Denotes.hex hrun
    rwa [hvalue] at hdenotes
  have hbegins : BeginsNumeral "12x".toList := ⟨'1', rfl, .inr (by decide)⟩
  obtain ⟨w, hw, hword⟩ := ((literals_denote _).1 _ hhex).1 (by decide)
  obtain ⟨-, haccepted, -⟩ := (literals_denote _).2 hbegins
  have hnone : wordOfText? "12x".toList = none := by decide
  refine ⟨hnegative, ((literals_denote _).1 _ hnegative).2 (by decide), hhex,
    ⟨w, hw, hword, ?_⟩, hbegins, fun v hv => ?_, hnone⟩
  · exact (((literals_denote _).2 hhex.beginsNumeral).2.2 w).mpr hw
  · have hsome := haccepted.mpr ⟨v, hv⟩
    rw [hnone] at hsome
    cases hsome

end Hindsight
