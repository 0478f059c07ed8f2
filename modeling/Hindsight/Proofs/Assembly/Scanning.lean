import Hindsight.Proofs.Assembly.Grammar
import Mathlib.Data.List.DropRight
import Mathlib.Data.List.TakeWhile

/-!
# Scanners are exact

A scanner finds the words of the language and no others, and takes as much as it can: what it
leaves behind does not continue the word.  Where two forms fit the front of a text, as a
register and a name do, the one that is tried first is also the one that the language means.

## Main results

* `scanRun_eq_some_iff`, `scanName_eq_some_iff`, `scanRegister_eq_some_iff`,
  `scanMnemonic_eq_some_iff` — which words are found, and where they end.
* `scanIndexed_eq_some_iff` — a value with an index register.
* `OperandText.scan?_eq_some_iff` — **a text is scanned as the operand that it spells.**
-/

namespace Hindsight

variable {p : Char → Bool} {c : Char} {b s t r : List Char}

/-! ### Runs -/

theorem not_head?_any_iff : ¬ s.head?.any p ↔ Stops p s := by
  cases s with
  | nil => simp
  | cons c s => simp

theorem stops_dropWhile (p : Char → Bool) (s : List Char) : Stops p (s.dropWhile p) := by
  intro c hc
  have h := List.head?_dropWhile_not p s
  rw [hc] at h
  simpa using h

/-- A text is cut behind its longest front of one class. -/
theorem takeWhile_dropWhile_eq_iff :
    s.takeWhile p = t ∧ s.dropWhile p = r ↔ s = t ++ r ∧ (∀ c ∈ t, p c) ∧ Stops p r := by
  constructor
  · rintro ⟨rfl, rfl⟩
    exact ⟨List.takeWhile_append_dropWhile.symm, fun c hc => List.mem_takeWhile_imp hc,
      stops_dropWhile p s⟩
  · rintro ⟨rfl, ht, hr⟩
    rw [List.takeWhile_append_of_pos ht, List.dropWhile_append_of_pos ht]
    cases r with
    | nil => simp
    | cons c r =>
      have hc : p c = false := stops_cons.mp hr
      simp [hc]

theorem skipBlanks_eq_iff :
    skipBlanks s = t ↔ ∃ b, Blank b ∧ s = b ++ t ∧ Stops isBlank t := by
  constructor
  · rintro rfl
    obtain ⟨hs, hblank, hstop⟩ := takeWhile_dropWhile_eq_iff.mp ⟨rfl, rfl⟩
    exact ⟨s.takeWhile isBlank, hblank, hs, hstop⟩
  · rintro ⟨b, hblank, hs, hstop⟩
    exact (takeWhile_dropWhile_eq_iff.mpr ⟨hs, hblank, hstop⟩).2

theorem skipBlanks_append (hb : Blank b) (hs : Stops isBlank s) : skipBlanks (b ++ s) = s :=
  skipBlanks_eq_iff.mpr ⟨b, hb, rfl, hs⟩

theorem skipBlanks_skipBlanks (s : List Char) : skipBlanks (skipBlanks s) = skipBlanks s :=
  List.dropWhile_idempotent _ _

theorem skipBlanks_eq_nil_iff : skipBlanks s = [] ↔ Blank s := by
  rw [skipBlanks_eq_iff]
  constructor
  · rintro ⟨b, hb, rfl, -⟩
    rwa [List.append_nil]
  · intro h
    exact ⟨s, h, (List.append_nil s).symm, stops_nil⟩

theorem scanRun_eq_some_iff :
    scanRun p s = some (t, r) ↔ s = t ++ r ∧ IsRun p t ∧ Stops p r := by
  -- a run is what `takeWhile` finds, unless that is nothing
  have hcut : scanRun p s = some (t, r) ↔ t ≠ [] ∧ s.takeWhile p = t ∧ s.dropWhile p = r := by
    unfold scanRun
    split
    · next h =>
      rw [h]
      constructor
      · intro h
        cases h
      · rintro ⟨hne, rfl, -⟩
        exact absurd rfl hne
    · next cs hne =>
      rw [Option.some.injEq, Prod.mk.injEq]
      constructor
      · rintro ⟨rfl, rfl⟩
        exact ⟨hne, rfl, rfl⟩
      · exact fun h => h.2
  rw [hcut, takeWhile_dropWhile_eq_iff]
  constructor
  · rintro ⟨hne, hs, ht, hr⟩
    exact ⟨hs, ⟨hne, ht⟩, hr⟩
  · rintro ⟨hs, ⟨hne, ht⟩, hr⟩
    exact ⟨hne, hs, ht, hr⟩

theorem scanRun_eq_none (h : Stops p s) : scanRun p s = none := by
  cases hscan : scanRun p s with
  | none => rfl
  | some x =>
    obtain ⟨t, r⟩ := x
    obtain ⟨rfl, ht, -⟩ := scanRun_eq_some_iff.mp hscan
    cases t with
    | nil => exact absurd rfl ht.1
    | cons c t =>
      have hc : p c = true := ht.2 c (List.mem_cons_self)
      rw [stops_cons.mp h] at hc
      cases hc

/-! ### Words -/

theorem scanName_eq_some_iff :
    scanName s = some (t, r) ↔ s = t ++ r ∧ IsName t ∧ Stops isNameChar r := by
  unfold scanName
  split
  · next hhead =>
    rw [scanRun_eq_some_iff]
    constructor
    · rintro ⟨rfl, ht, hr⟩
      refine ⟨rfl, ?_, hr⟩
      cases t with
      | nil => exact absurd rfl ht.1
      | cons c t =>
        exact .intro (by simpa using hhead) fun d hd => ht.2 d (List.mem_cons_of_mem c hd)
    · rintro ⟨rfl, ht, hr⟩
      exact ⟨rfl, ht.isRun, hr⟩
  · next hhead =>
    constructor
    · intro h
      cases h
    · rintro ⟨rfl, ht, -⟩
      cases ht with
      | intro hc _ => exact absurd hc (by simpa using hhead)

theorem scanMnemonic_eq_some_iff :
    scanMnemonic s = some (t, r) ↔ s = t ++ r ∧ IsRun Char.isAlpha t ∧ Stops isNameChar r := by
  constructor
  · intro h
    unfold scanMnemonic at h
    split at h
    · next letters rest hrun =>
      split at h
      · cases h
      · next hstop =>
        cases h
        obtain ⟨hs, hletters, -⟩ := scanRun_eq_some_iff.mp hrun
        exact ⟨hs, hletters, not_head?_any_iff.mp hstop⟩
    · cases h
  · rintro ⟨hs, ht, hr⟩
    have hrun : scanRun Char.isAlpha s = some (t, r) :=
      scanRun_eq_some_iff.mpr ⟨hs, ht, hr.mono fun _ => isNameChar_of_isAlpha⟩
    rw [scanMnemonic, hrun]
    exact if_neg (not_head?_any_iff.mpr hr)

theorem scanRegister_eq_some_iff :
    scanRegister s = some (t, r) ↔ s = t ++ r ∧ IsRegister t ∧ Stops isNameChar r := by
  constructor
  · intro h
    unfold scanRegister at h
    split at h
    · next c s =>
      split at h
      · next hc =>
        split at h
        · next digits rest hrun =>
          split at h
          · cases h
          · next hstop =>
            cases h
            obtain ⟨rfl, hdigits, -⟩ := scanRun_eq_some_iff.mp hrun
            exact ⟨rfl, .intro hc hdigits, not_head?_any_iff.mp hstop⟩
        · cases h
      · cases h
    · cases h
  · rintro ⟨rfl, ht, hr⟩
    cases ht with
    | @intro c digits hc hdigits =>
      have hrun : scanRun Char.isDigit (digits ++ r) = some (digits, r) :=
        scanRun_eq_some_iff.mpr ⟨rfl, hdigits, hr.mono fun _ => isNameChar_of_isDigit⟩
      rw [List.cons_append, scanRegister, if_pos hc, hrun]
      exact if_neg (not_head?_any_iff.mpr hr)

/-! ### Values -/

/-- Behind the two characters that begin a numeral, a value is a run of digits or a name. -/
theorem scanValue_of_stops (h : Stops isNumeralMark s) :
    scanValue s = (scanRun Char.isDigit s <|> scanName s) := by
  unfold scanValue
  split
  · exact absurd (stops_cons.mp h) (by decide)
  · exact absurd (stops_cons.mp h) (by decide)
  · rfl

/-- A scanned value is one. -/
theorem eq_append_of_scanValue (h : scanValue s = some (t, r)) : s = t ++ r ∧ IsValue t := by
  unfold scanValue at h
  split at h
  · -- behind a dollar sign
    obtain ⟨⟨digits, rest⟩, hrun, heq⟩ := Option.map_eq_some_iff.mp h
    cases heq
    obtain ⟨rfl, hdigits, -⟩ := scanRun_eq_some_iff.mp hrun
    exact ⟨rfl, .hex hdigits⟩
  · -- behind a minus sign
    obtain ⟨⟨digits, rest⟩, hrun, heq⟩ := Option.map_eq_some_iff.mp h
    cases heq
    obtain ⟨rfl, hdigits, -⟩ := scanRun_eq_some_iff.mp hrun
    exact ⟨rfl, .negative hdigits⟩
  · -- without a mark: a run of digits, or else a name
    rw [Option.orElse_eq_orElse, Option.orElse_eq_or] at h
    rcases Option.or_eq_some_iff.mp h with hrun | ⟨-, hname⟩
    · obtain ⟨hs, hdigits, -⟩ := scanRun_eq_some_iff.mp hrun
      exact ⟨hs, .decimal hdigits⟩
    · obtain ⟨hs, hname, -⟩ := scanName_eq_some_iff.mp hname
      exact ⟨hs, .name hname⟩

/-- A value that no character of a name follows is scanned. -/
theorem scanValue_append (ht : IsValue t) (hr : Stops isNameChar r) :
    scanValue (t ++ r) = some (t, r) := by
  cases ht with
  | @hex digits h =>
    have hrun : scanRun isHexDigit (digits ++ r) = some (digits, r) :=
      scanRun_eq_some_iff.mpr ⟨rfl, h, hr.mono fun _ => isNameChar_of_isHexDigit⟩
    rw [List.cons_append, scanValue, hrun]
    rfl
  | @negative digits h =>
    have hrun : scanRun Char.isDigit (digits ++ r) = some (digits, r) :=
      scanRun_eq_some_iff.mpr ⟨rfl, h, hr.mono fun _ => isNameChar_of_isDigit⟩
    rw [List.cons_append, scanValue, hrun]
    rfl
  | decimal h =>
    have hrun : scanRun Char.isDigit (t ++ r) = some (t, r) :=
      scanRun_eq_some_iff.mpr ⟨rfl, h, hr.mono fun _ => isNameChar_of_isDigit⟩
    rw [scanValue_of_stops (h.stops_append (fun _ => isNumeralMark_of_isDigit) r), hrun]
    rfl
  | name h =>
    -- a name does not begin with a digit, so it is not cut short as a number
    have hdigit : Stops Char.isDigit (t ++ r) := by
      cases h with
      | intro hc hs => exact stops_cons.mpr (isDigit_of_isNameStart hc)
    have hname : scanName (t ++ r) = some (t, r) := scanName_eq_some_iff.mpr ⟨rfl, h, hr⟩
    rw [scanValue_of_stops (h.isRun.stops_append (fun _ => isNumeralMark_of_isNameChar) r),
      scanRun_eq_none hdigit, hname]
    rfl

/-- A name that is scanned as a value is taken whole. -/
theorem stops_of_scanValue (h : scanValue s = some (t, r)) (ht : IsName t) :
    Stops isNameChar r := by
  obtain ⟨rfl, -⟩ := eq_append_of_scanValue h
  have hmark : Stops isNumeralMark (t ++ r) :=
    ht.isRun.stops_append (fun _ => isNumeralMark_of_isNameChar) r
  have hdigit : Stops Char.isDigit (t ++ r) := by
    cases ht with
    | intro hc hs => exact stops_cons.mpr (isDigit_of_isNameStart hc)
  rw [scanValue_of_stops hmark, scanRun_eq_none hdigit] at h
  exact (scanName_eq_some_iff.mp h).2.2

/-! ### Labels -/

/-- A label is scanned if a colon follows the name at once. -/
theorem scanLabel_eq_some_iff {n : List Char} :
    scanLabel s = (some n, t) ↔ s = n ++ ':' :: t ∧ IsName n := by
  constructor
  · intro h
    unfold scanLabel at h
    split at h
    · next name rest hscan =>
      cases h
      obtain ⟨hs, hn, -⟩ := scanName_eq_some_iff.mp hscan
      exact ⟨hs, hn⟩
    · cases h
  · rintro ⟨rfl, hn⟩
    have hscan : scanName (n ++ ':' :: t) = some (n, ':' :: t) :=
      scanName_eq_some_iff.mpr ⟨rfl, hn, stops_cons.mpr (by decide)⟩
    rw [scanLabel, hscan]
    rfl

/-- Without a label nothing is taken. -/
theorem scanLabel_eq_none (h : (scanLabel s).1 = none) : scanLabel s = (none, s) := by
  unfold scanLabel at h ⊢
  split
  · next hscan =>
    rw [hscan] at h
    cases h
  · rfl

theorem scanLabel_of_notMem (h : ':' ∉ s) : scanLabel s = (none, s) := by
  refine scanLabel_eq_none ?_
  cases hlabel : (scanLabel s).1 with
  | none => rfl
  | some n =>
    obtain ⟨hs, -⟩ := scanLabel_eq_some_iff.mp (Prod.ext hlabel (Eq.refl (scanLabel s).2))
    rw [hs] at h
    simp at h

/-! ### Operands -/

theorem exists_eq_append_skipBlanks (s : List Char) : ∃ b, Blank b ∧ s = b ++ skipBlanks s := by
  obtain ⟨b, hb, hs, -⟩ := skipBlanks_eq_iff.mp (Eq.refl (skipBlanks s))
  exact ⟨b, hb, hs⟩

theorem exists_eq_append_of_skipBlanks (h : skipBlanks s = t) : ∃ b, Blank b ∧ s = b ++ t := by
  subst h
  exact exists_eq_append_skipBlanks s

variable {o : OperandText}

/-- What is scanned as a value with an index register is one. -/
theorem eq_append_of_scanIndexed (h : scanIndexed s = some (o, r)) :
    ∃ t, s = t ++ r ∧ o.Spells t := by
  unfold scanIndexed at h
  obtain ⟨⟨v, r₁⟩, hscanv, h⟩ := Option.bind_eq_some_iff.mp h
  dsimp only at h
  split at h
  · next r₂ hopen =>
    obtain ⟨⟨x, r₃⟩, hscanx, h⟩ := Option.bind_eq_some_iff.mp h
    dsimp only at h
    split at h
    · next r₄ hclose =>
      cases h
      -- put together again: the value, a bracket, the register, a bracket, with blanks between them
      obtain ⟨rfl, hv⟩ := eq_append_of_scanValue hscanv
      obtain ⟨b₁, hb₁, rfl⟩ := exists_eq_append_of_skipBlanks hopen
      obtain ⟨hr₂, hx, -⟩ := scanRegister_eq_some_iff.mp hscanx
      obtain ⟨b₂, hb₂, rfl⟩ := exists_eq_append_of_skipBlanks hr₂
      obtain ⟨b₃, hb₃, rfl⟩ := exists_eq_append_of_skipBlanks hclose
      refine ⟨_, ?_, .indexed hv hb₁ hb₂ hx hb₃⟩
      simp only [List.append_assoc, List.cons_append, List.nil_append]
    · cases h
  · cases h

/-- A value with an index register is scanned as that. -/
theorem scanIndexed_append {v x b₁ b₂ b₃ : List Char} (hv : IsValue v) (hb₁ : Blank b₁)
    (hb₂ : Blank b₂) (hx : IsRegister x) (hb₃ : Blank b₃) (r : List Char) :
    scanIndexed (v ++ (b₁ ++ '[' :: (b₂ ++ (x ++ (b₃ ++ ']' :: r))))) = some (.indexed v x, r) := by
  have hopen : Stops isBlank ('[' :: (b₂ ++ (x ++ (b₃ ++ ']' :: r)))) :=
    stops_cons.mpr (by decide)
  have hclose : Stops isBlank (']' :: r) := stops_cons.mpr (by decide)
  have hstopv : Stops isNameChar (b₁ ++ '[' :: (b₂ ++ (x ++ (b₃ ++ ']' :: r)))) :=
    (hb₁.stops fun _ => isNameChar_of_isBlank).append (stops_cons.mpr (by decide))
  have hstopx : Stops isNameChar (b₃ ++ ']' :: r) :=
    (hb₃.stops fun _ => isNameChar_of_isBlank).append (stops_cons.mpr (by decide))
  have hscanx : scanRegister (x ++ (b₃ ++ ']' :: r)) = some (x, b₃ ++ ']' :: r) :=
    scanRegister_eq_some_iff.mpr ⟨rfl, hx, hstopx⟩
  unfold scanIndexed
  rw [scanValue_append hv hstopv]
  simp only [Option.bind_eq_bind, Option.bind_some, skipBlanks_append hb₁ hopen,
    skipBlanks_append hb₂ (hx.isValue.stops_append _), hscanx, skipBlanks_append hb₃ hclose]
  rfl

/-- A value without a bracket behind it is none. -/
theorem scanIndexed_eq_none (ht : IsValue t) (hr : Stops isNameChar r)
    (hopen : ∀ x, skipBlanks r ≠ '[' :: x) : scanIndexed (t ++ r) = none := by
  unfold scanIndexed
  rw [scanValue_append ht hr, Option.bind_eq_bind, Option.bind_some]
  dsimp only
  split
  · next x hx => exact absurd hx (hopen x)
  · rfl

/-- What is scanned is an operand. -/
theorem eq_append_of_scanOperand (h : scanOperand s = some (o, r)) :
    ∃ t, s = t ++ r ∧ o.Spells t := by
  unfold scanOperand at h
  simp only [Option.orElse_eq_orElse, Option.orElse_eq_or] at h
  rcases Option.or_eq_some_iff.mp h with h | ⟨-, h⟩
  · exact eq_append_of_scanIndexed h
  · rcases Option.or_eq_some_iff.mp h with h | ⟨hnone, h⟩
    · obtain ⟨⟨t, rest⟩, hscan, heq⟩ := Option.map_eq_some_iff.mp h
      cases heq
      obtain ⟨hs, ht, -⟩ := scanRegister_eq_some_iff.mp hscan
      exact ⟨t, hs, .register ht⟩
    · obtain ⟨⟨t, rest⟩, hscan, heq⟩ := Option.map_eq_some_iff.mp h
      cases heq
      obtain ⟨hs, ht⟩ := eq_append_of_scanValue hscan
      refine ⟨t, hs, .value ht fun hreg => ?_⟩
      -- a register would have been found first
      have hstop : Stops isNameChar rest := stops_of_scanValue hscan hreg.isName
      rw [scanRegister_eq_some_iff.mpr ⟨hs, hreg, hstop⟩] at hnone
      cases hnone

/-- An operand is scanned as that operand, if neither a character of a name follows nor a bracket
with blanks in front of it. -/
theorem scanOperand_append {o : OperandText} (ho : o.Spells t) (hstop : Stops isNameChar r)
    (hopen : ∀ x, skipBlanks r ≠ '[' :: x) : scanOperand (t ++ r) = some (o, r) := by
  have hnone : IsValue t → scanIndexed (t ++ r) = none := fun ht =>
    scanIndexed_eq_none ht hstop hopen
  unfold scanOperand
  cases ho with
  | register ht =>
    rw [hnone ht.isValue, scanRegister_eq_some_iff.mpr ⟨rfl, ht, hstop⟩]
    rfl
  | value ht hreg =>
    have hscan : scanValue (t ++ r) = some (t, r) := scanValue_append ht hstop
    have hregister : scanRegister (t ++ r) = none := by
      cases h : scanRegister (t ++ r) with
      | none => rfl
      | some x =>
        -- both scanners take all of the word
        obtain ⟨t', r'⟩ := x
        obtain ⟨hs, ht', hr'⟩ := scanRegister_eq_some_iff.mp h
        have hscan' : scanValue (t ++ r) = some (t', r') := by
          rw [hs]
          exact scanValue_append ht'.isValue hr'
        have heq : t = t' := (Prod.mk.inj (Option.some.inj (hscan.symm.trans hscan'))).1
        rw [heq] at hreg
        exact absurd ht' hreg
    rw [hnone ht, hregister, hscan]
    rfl
  | indexed hv hb₁ hb₂ hx hb₃ =>
    simp only [List.append_assoc, List.cons_append, List.nil_append]
    rw [scanIndexed_append hv hb₁ hb₂ hx hb₃]
    rfl

/-- **A text is scanned as the operand that it spells**, with blanks around it. -/
theorem OperandText.scan?_eq_some_iff :
    scan? s = some o ↔ ∃ b t b', s = b ++ (t ++ b') ∧ Blank b ∧ o.Spells t ∧ Blank b' := by
  constructor
  · intro h
    unfold scan? at h
    split at h
    · next operand rest hscan =>
      split at h
      · next hrest =>
        cases h
        obtain ⟨t, hs, ho⟩ := eq_append_of_scanOperand hscan
        obtain ⟨b, hb, rfl⟩ := exists_eq_append_of_skipBlanks hs
        exact ⟨b, t, rest, rfl, hb, ho, List.all_eq_true.mp hrest⟩
      · cases h
    · cases h
  · rintro ⟨b, t, b', rfl, hb, ho, hb'⟩
    -- behind the operand there are only blanks, so that no bracket follows it
    have hopen : ∀ x, skipBlanks b' ≠ '[' :: x := by
      intro x hx
      rw [skipBlanks_eq_nil_iff.mpr hb'] at hx
      cases hx
    rw [scan?, skipBlanks_append hb (ho.stops_append b'),
      scanOperand_append ho (hb'.stops fun _ => isNameChar_of_isBlank) hopen]
    exact if_pos (List.all_eq_true.mpr hb')

end Hindsight
