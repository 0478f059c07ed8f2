import Hindsight.Proofs.Assembly.Meaning
import Hindsight.Proofs.Assembly.Rules

/-!
# The line parser reads the line language

A line is cut at its first semicolon and its operands at the commas, before anything is scanned.
Since neither stands in a part of the line, this cuts the line where its parts end, and a line is
found to have exactly the parts that spell it.  So there is only one way to spell a line, and it
is read in that way.

## Main results

* `pieces_of_notMem`, `pieces_append_cons` — cutting a text at a separator.
* `scanOperands_eq_some_iff`, `scanCode_eq_some_iff` — operands, and lines without a comment.
* `LineText.scan?_eq_some_iff` — a line is scanned as the parts that it spells.
* `LineText.scan?_eq_line` — and so the scanner does what the grammar says.
* `SourceLine.parse_spelled` — **which lines are read, and as what.**
-/

namespace Hindsight

/-! ### Pieces -/

section Pieces

variable {separator c : Char} {x first : List Char} {others : List (List Char)}

theorem pieces_ne_nil (s : List Char) : pieces separator s ≠ [] := List.cons_ne_nil _ _

theorem pieces_cons_self (s : List Char) :
    pieces separator (separator :: s) = [] :: pieces separator s := by
  simp [pieces]

theorem pieces_cons_of_ne {s : List Char} (hc : c ≠ separator)
    (hs : pieces separator s = first :: others) :
    pieces separator (c :: s) = (c :: first) :: others := by
  simp only [pieces, List.cons.injEq] at hs
  simp [pieces, hc, hs]

/-- A text without separators is one piece. -/
theorem pieces_of_notMem (hx : separator ∉ x) : pieces separator x = [x] := by
  induction x with
  | nil => rfl
  | cons c x ih =>
    rw [List.mem_cons, not_or] at hx
    exact pieces_cons_of_ne (Ne.symm hx.1) (ih hx.2)

/-- The first piece ends at the first separator. -/
theorem pieces_append_cons (hx : separator ∉ x) (s : List Char) :
    pieces separator (x ++ separator :: s) = x :: pieces separator s := by
  induction x with
  | nil => exact pieces_cons_self s
  | cons c x ih =>
    rw [List.mem_cons, not_or] at hx
    exact pieces_cons_of_ne (Ne.symm hx.1) (ih hx.2)

end Pieces

/-! ### Operands -/

variable {s t : List Char} {o : OperandText} {os : List OperandText}

/-- A text is one operand or more with commas between them, and blanks around each. -/
def Lists (os : List OperandText) (s : List Char) : Prop :=
  ∃ b o os' t t' b', os = o :: os' ∧ s = b ++ (t ++ (t' ++ b')) ∧ Blank b ∧ o.Spells t ∧
    SpellsMore os' t' ∧ Blank b'

/-- An operand with blanks around it holds no comma. -/
theorem comma_notMem {b b' : List Char} (hb : Blank b) (ho : o.Spells t) (hb' : Blank b') :
    ',' ∉ b ++ (t ++ b') :=
  notMem_between hb ho.operandChars hb' (by decide) (by decide)

theorem lists_singleton (h : OperandText.scan? s = some o) : Lists [o] s := by
  obtain ⟨b, t, b', rfl, hb, ho, hb'⟩ := OperandText.scan?_eq_some_iff.mp h
  exact ⟨b, o, [], t, [], b', rfl, rfl, hb, ho, .nil, hb'⟩

theorem Lists.cons {x y : List Char} (h : OperandText.scan? x = some o) (hy : Lists os y) :
    Lists (o :: os) (x ++ ',' :: y) := by
  obtain ⟨b₁, t, b₂, rfl, hb₁, ho, hb₂⟩ := OperandText.scan?_eq_some_iff.mp h
  obtain ⟨b₃, o', os', t', s', b₄, rfl, rfl, hb₃, ho', hs', hb₄⟩ := hy
  refine ⟨b₁, o, _, t, b₂ ++ ',' :: (b₃ ++ (t' ++ s')), b₄, rfl, ?_, hb₁, ho,
    .cons hb₂ hb₃ ho' hs', hb₄⟩
  simp only [List.append_assoc, List.cons_append]

/-- A list of operands is scanned piece by piece. -/
theorem mapM_pieces_eq_some (h : Lists os s) :
    (pieces ',' s).mapM OperandText.scan? = some os := by
  induction os generalizing s with
  | nil =>
    obtain ⟨_, _, _, _, _, _, hos, -⟩ := h
    cases hos
  | cons o os ih =>
    -- the piece of the first operand reaches to the comma of the next one
    obtain ⟨b, _, _, t, t', b', hos, rfl, hb, ho, hmore, hb'⟩ := h
    cases hos
    cases hmore with
    | nil =>
      have hscan : OperandText.scan? (b ++ (t ++ b')) = some o :=
        OperandText.scan?_eq_some_iff.mpr ⟨b, t, b', rfl, hb, ho, hb'⟩
      rw [List.nil_append, pieces_of_notMem (comma_notMem hb ho hb'), List.mapM_cons, hscan]
      rfl
    | @cons o' os' b₁ b₂ t₂ s₂ hb₁ hb₂ ho' hmore =>
      have hscan : OperandText.scan? (b ++ (t ++ b₁)) = some o :=
        OperandText.scan?_eq_some_iff.mpr ⟨b, t, b₁, rfl, hb, ho, hb₁⟩
      have hrest : Lists (o' :: os') (b₂ ++ (t₂ ++ (s₂ ++ b'))) :=
        ⟨b₂, o', os', t₂, s₂, b', rfl, rfl, hb₂, ho', hmore, hb'⟩
      have hcut : b ++ (t ++ ((b₁ ++ ',' :: (b₂ ++ (t₂ ++ s₂))) ++ b'))
          = (b ++ (t ++ b₁)) ++ ',' :: (b₂ ++ (t₂ ++ (s₂ ++ b'))) := by
        simp only [List.append_assoc, List.cons_append]
      rw [hcut, pieces_append_cons (comma_notMem hb ho hb₁), List.mapM_cons, hscan, ih hrest]
      rfl

/-- What is scanned piece by piece is a list of operands. -/
theorem lists_of_mapM_pieces (h : (pieces ',' s).mapM OperandText.scan? = some os) :
    Lists os s := by
  induction os generalizing s with
  | nil =>
    -- there is a first piece in any case, and an operand for it
    cases hpieces : pieces ',' s with
    | nil => exact absurd hpieces (pieces_ne_nil s)
    | cons x xs =>
      rw [hpieces, List.mapM_cons] at h
      obtain ⟨o, -, h⟩ := Option.bind_eq_some_iff.mp h
      obtain ⟨os, -, h⟩ := Option.bind_eq_some_iff.mp h
      cases h
  | cons o os ih =>
    -- the first piece ends at the first comma, if there is one
    by_cases hcomma : ',' ∈ s
    · obtain ⟨x, y, rfl, hx⟩ := List.eq_append_cons_of_mem hcomma
      rw [pieces_append_cons hx, List.mapM_cons] at h
      obtain ⟨o', ho, h⟩ := Option.bind_eq_some_iff.mp h
      obtain ⟨os', hos, h⟩ := Option.bind_eq_some_iff.mp h
      cases h
      exact Lists.cons ho (ih hos)
    · rw [pieces_of_notMem hcomma, List.mapM_cons] at h
      obtain ⟨o', ho, h⟩ := Option.bind_eq_some_iff.mp h
      cases h
      exact lists_singleton ho

/-- The operands behind a mnemonic. -/
theorem scanOperands_eq_some_iff :
    scanOperands s = some os ↔ ∃ t b, s = t ++ b ∧ SpellsOperands os t ∧ Blank b := by
  unfold scanOperands
  split
  · next hblank =>
    have hblank : Blank s := List.all_eq_true.mp hblank
    constructor
    · intro h
      cases h
      exact ⟨[], s, rfl, .nil, hblank⟩
    · rintro ⟨t, b, rfl, ht, -⟩
      cases ht with
      | nil => rfl
      | @cons o os b₁ t₁ s₁ hb₁ ho hmore =>
        -- an operand is not blank
        have ht₁ : Blank t₁ := fun c hc => hblank c (by simp [hc])
        exact absurd ht₁ ho.not_blank
  · next hblank =>
    constructor
    · intro h
      obtain ⟨b, o, os', t, t', b', rfl, rfl, hb, ho, hmore, hb'⟩ := lists_of_mapM_pieces h
      refine ⟨b ++ (t ++ t'), b', ?_, .cons hb ho hmore, hb'⟩
      simp only [List.append_assoc]
    · rintro ⟨t, b, rfl, ht, hb⟩
      cases ht with
      | nil => exact absurd (List.all_eq_true.mpr hb) hblank
      | @cons o os b₁ t₁ s₁ hb₁ ho hmore =>
        refine mapM_pieces_eq_some ⟨b₁, o, os, t₁, s₁, b, rfl, ?_, hb₁, ho, hmore, hb⟩
        simp only [List.append_assoc]

/-! ### Commands -/

variable {command : Option (List Char × List OperandText)}

/-- The command of a line behind its label, if there is one. -/
def scanCommand (s : List Char) : Option (Option (List Char × List OperandText)) :=
  match skipBlanks s with
  | [] => some none
  | s => do
    let (mnemonic, rest) ← scanMnemonic s
    let operands ← scanOperands rest
    return some (mnemonic, operands)

/-- What is scanned is a command with blanks around it. -/
theorem eq_append_of_scanCommand (h : scanCommand s = some command) :
    ∃ b t b', s = b ++ (t ++ b') ∧ Blank b ∧ SpellsCommand command t ∧ Blank b' := by
  unfold scanCommand at h
  split at h
  · next hnil =>
    cases h
    exact ⟨s, [], [], by simp, skipBlanks_eq_nil_iff.mp hnil, .none, blank_nil⟩
  · obtain ⟨⟨m, rest⟩, hscan, h⟩ := Option.bind_eq_some_iff.mp h
    obtain ⟨os, hos, h⟩ := Option.bind_eq_some_iff.mp h
    cases h
    obtain ⟨hs, hm, hstop⟩ := scanMnemonic_eq_some_iff.mp hscan
    obtain ⟨t, b', rfl, ht, hb'⟩ := scanOperands_eq_some_iff.mp hos
    obtain ⟨b, hb, rfl⟩ := exists_eq_append_of_skipBlanks hs
    refine ⟨b, m ++ t, b', ?_, hb, .some hm hstop.of_append ht, hb'⟩
    rw [List.append_assoc]

/-- A command with blanks around it is scanned. -/
theorem scanCommand_append {b b' : List Char} (hb : Blank b) (ht : SpellsCommand command t)
    (hb' : Blank b') : scanCommand (b ++ (t ++ b')) = some command := by
  unfold scanCommand
  cases ht with
  | none => rw [List.nil_append, skipBlanks_eq_nil_iff.mpr (hb.append hb')]
  | @some m t os hm hstop ht =>
    have hskip : skipBlanks (b ++ (m ++ t ++ b')) = m ++ (t ++ b') := by
      rw [List.append_assoc]
      exact skipBlanks_append hb (hm.stops_append (fun _ => isBlank_of_isAlpha) _)
    have hscan : scanMnemonic (m ++ (t ++ b')) = some (m, t ++ b') :=
      scanMnemonic_eq_some_iff.mpr
        ⟨rfl, hm, hstop.append (hb'.stops fun _ => isNameChar_of_isBlank)⟩
    have hos : scanOperands (t ++ b') = some os :=
      scanOperands_eq_some_iff.mpr ⟨t, b', rfl, ht, hb'⟩
    rw [hskip]
    split
    · next hnil => exact absurd (List.append_eq_nil_iff.mp hnil).1 hm.1
    · rw [hscan]
      simp only [Option.bind_eq_bind, Option.bind_some, hos]
      rfl

/-! ### Lines -/

/-- The label and the command of a line without its comment. -/
def scanCode (code : List Char) : Option LineText :=
  (scanCommand (scanLabel (skipBlanks code)).2).map (LineText.mk (scanLabel (skipBlanks code)).1)

/-- The comment is cut off before anything is scanned. -/
theorem LineText.scan?_eq (line : List Char) :
    scan? line
      = if (line.dropWhile (· ≠ ';')).any isLineEnd then none
        else scanCode (line.takeWhile (· ≠ ';')) := by
  unfold scan? scanCode scanCommand
  simp only
  split
  · rfl
  · generalize scanLabel (skipBlanks (line.takeWhile (· ≠ ';'))) = found
    obtain ⟨label, rest⟩ := found
    cases hrest : skipBlanks rest with
    | nil => rfl
    | cons c s =>
      dsimp only
      cases scanMnemonic (c :: s) with
      | none => rfl
      | some found =>
        obtain ⟨mnemonic, s⟩ := found
        simp only [Option.bind_eq_bind, Option.bind_some]
        cases scanOperands s with
        | none => rfl
        | some operands => rfl

theorem scanCommand_skipBlanks (s : List Char) : scanCommand (skipBlanks s) = scanCommand s := by
  unfold scanCommand
  rw [skipBlanks_skipBlanks]

/-- **A line without comment is scanned as the parts that it spells.** -/
theorem scanCode_eq_some_iff {parts : LineText} :
    scanCode s = some parts ↔
      ∃ b l c b', s = b ++ (l ++ (c ++ b')) ∧ Blank b ∧ SpellsLabel parts.label l ∧
        SpellsCommand parts.command c ∧ Blank b' := by
  obtain ⟨label, command⟩ := parts
  unfold scanCode
  constructor
  · intro h
    obtain ⟨command', hcommand, heq⟩ := Option.map_eq_some_iff.mp h
    obtain ⟨hlabel, rfl⟩ := LineText.mk.inj heq
    obtain ⟨b₁, c, b', hs, hb₁, hc, hb'⟩ := eq_append_of_scanCommand hcommand
    obtain ⟨b, hb, hblanks⟩ := exists_eq_append_skipBlanks s
    cases label with
    | none =>
      -- nothing is taken for a label, so that blanks have been skipped twice
      rw [scanLabel_eq_none hlabel] at hs
      dsimp only at hs
      refine ⟨b ++ b₁, [], c, b', ?_, hb.append hb₁, .none, hc, hb'⟩
      rw [hblanks, hs]
      simp only [List.append_assoc, List.nil_append]
    | some n =>
      obtain ⟨hn, hname⟩ := scanLabel_eq_some_iff.mp (Prod.ext hlabel hs)
      refine ⟨b, n ++ ':' :: b₁, c, b', ?_, hb, .some hname hb₁, hc, hb'⟩
      rw [hblanks, hn]
      simp only [List.append_assoc, List.cons_append]
  · rintro ⟨b, l, c, b', rfl, hb, hl, hc, hb'⟩
    cases hl with
    | none =>
      -- without a colon nothing can be taken for a label
      have hcolon : ':' ∉ skipBlanks (b ++ (c ++ b')) := fun h =>
        notMem_between hb hc.commandChars hb' (by decide) (by decide)
          ((List.dropWhile_suffix isBlank).subset h)
      rw [List.nil_append, scanLabel_of_notMem hcolon, scanCommand_skipBlanks,
        scanCommand_append hb hc hb']
      rfl
    | @some n b₁ hn hb₁ =>
      have hskip : skipBlanks (b ++ (n ++ ':' :: b₁ ++ (c ++ b')))
          = n ++ ':' :: (b₁ ++ (c ++ b')) := by
        rw [List.append_assoc]
        exact skipBlanks_append hb (hn.isRun.stops_append (fun _ => isBlank_of_isNameChar) _)
      rw [hskip, scanLabel_eq_some_iff.mpr ⟨rfl, hn⟩, scanCommand_append hb₁ hc hb']
      rfl

theorem isComment_iff :
    IsComment s ↔ Stops (fun c => decide (c ≠ ';')) s ∧ ¬ s.any isLineEnd := by
  constructor
  · intro h
    cases h with
    | none => simp
    | some h =>
      rw [List.any_cons, Bool.or_eq_true, List.any_eq_true]
      refine ⟨stops_cons.mpr (by decide), ?_⟩
      rintro (hc | ⟨c, hc, hend⟩)
      · exact absurd hc (by decide)
      · rw [h c hc] at hend
        cases hend
  · rintro ⟨hstop, hend⟩
    cases s with
    | nil => exact .none
    | cons c s =>
      obtain rfl : c = ';' := by simpa using stops_cons.mp hstop
      refine .some fun d hd => ?_
      rw [List.any_cons, Bool.or_eq_true, not_or, List.any_eq_true] at hend
      rw [← Bool.not_eq_true]
      exact fun hc => hend.2 ⟨d, hd, hc⟩

/-- **A line is scanned as the parts that it spells.** -/
theorem LineText.scan?_eq_some_iff {line : List Char} {parts : LineText} :
    scan? line = some parts ↔ parts.Spells line := by
  rw [scan?_eq]
  constructor
  · intro h
    -- the line is cut where its first semicolon is
    generalize hcode : line.takeWhile (· ≠ ';') = code at h
    generalize hcomment : line.dropWhile (· ≠ ';') = comment at h
    obtain ⟨rfl, -, hstop⟩ := takeWhile_dropWhile_eq_iff.mp ⟨hcode, hcomment⟩
    split at h
    · cases h
    · next hend =>
      obtain ⟨b, l, c, b', rfl, hb, hl, hc, hb'⟩ := scanCode_eq_some_iff.mp h
      have hline : parts.Spells (b ++ (l ++ (c ++ (b' ++ comment)))) :=
        .intro hb hl hc hb' (isComment_iff.mpr ⟨hstop, hend⟩)
      simpa only [List.append_assoc] using hline
  · intro h
    cases h with
    | @intro b l c b' comment hb hl hc hb' hcomment =>
      obtain ⟨hstop, hend⟩ := isComment_iff.mp hcomment
      -- that is where the comment begins, since there is no semicolon in the parts
      have hcode : ∀ d ∈ b ++ (l ++ (c ++ b')), decide (d ≠ ';') := by
        intro d hd
        rw [decide_eq_true_eq]
        rintro rfl
        rw [List.mem_append, List.mem_append, List.mem_append] at hd
        rcases hd with hd | hd | hd | hd
        · exact notMem_of_class hb (by decide) hd
        · exact hl.semicolon_notMem hd
        · exact notMem_of_class hc.commandChars (by decide) hd
        · exact notMem_of_class hb' (by decide) hd
      obtain ⟨htake, hdrop⟩ := takeWhile_dropWhile_eq_iff.mpr ⟨rfl, hcode, hstop⟩
      have hline : b ++ (l ++ (c ++ (b' ++ comment))) = b ++ (l ++ (c ++ b')) ++ comment := by
        simp only [List.append_assoc]
      rw [hline, htake, hdrop, if_neg hend]
      exact scanCode_eq_some_iff.mpr ⟨b, l, c, b', rfl, hb, hl, hc, hb'⟩

/-- **Scanning a line gives what the grammar matches.** -/
theorem LineText.scan?_eq_line (line : List Char) : scan? line = Rule.line line :=
  Option.ext fun _ => scan?_eq_some_iff.trans Rule.line_eq_some_iff.symm

/-! ### Reading -/

namespace SourceLine

theorem parse_of_scan?_eq_none {line : List Char} (h : LineText.scan? line = none) :
    parse line = .error (.malformed line) := by
  rw [parse, h]

theorem exists_eq_malformed_iff {line : List Char} :
    (∃ text, parse line = .error (.malformed text)) ↔ LineText.scan? line = none := by
  constructor
  · rintro ⟨text, h⟩
    cases hscan : LineText.scan? line with
    | none => rfl
    | some parts =>
      -- a line that scans can only have the fault of an operand
      have hspells : parts.Spells line := LineText.scan?_eq_some_iff.mp hscan
      rw [parse_eq_verdict hscan hspells] at h
      cases hfault : parts.fault? with
      | none =>
        rw [hfault] at h
        cases h
      | some e =>
        obtain ⟨cause, rfl⟩ := LineText.exists_badArgument_of_fault? hfault
        rw [hfault] at h
        cases h
  · exact fun h => ⟨line, parse_of_scan?_eq_none h⟩

/-- **The lines that are read are those of the line language, and each is read in the only way.**
Scanning a line gives what the grammar matches.  The line is malformed unless it can be spelled.  If
it can, then its parts are determined; reading it gives the first fault of an operand, and without
one the meaning of the parts. -/
theorem parse_spelled (line : List Char) :
    LineText.scan? line = Rule.line line ∧
      ((∀ text, parse line ≠ .error (.malformed text)) ↔
        ∃ parts : LineText, parts.Spells line) ∧
      ∀ parts : LineText, parts.Spells line →
        (∀ other : LineText, other.Spells line → other = parts) ∧
          parse line = verdict parts.fault? parts.meaning := by
  refine ⟨LineText.scan?_eq_line line, ?_, fun parts hparts => ⟨fun other hother => ?_, ?_⟩⟩
  · rw [← not_exists, exists_eq_malformed_iff, ← Ne, Option.ne_none_iff_exists']
    exact exists_congr fun parts => LineText.scan?_eq_some_iff
  · have hscan : some other = some parts :=
      (LineText.scan?_eq_some_iff.mpr hother).symm.trans (LineText.scan?_eq_some_iff.mpr hparts)
    exact Option.some.inj hscan
  · exact parse_eq_verdict (LineText.scan?_eq_some_iff.mpr hparts) hparts

/-- A line whose first operand has a label in the shape of a register. -/
def crowdedLine : List Char := "a1:\tadd R1[ r2 ] ,r015,$fF;x:y".toList

/-- The label in front of the bracket is no register, and the blanks and the comment are gone. -/
theorem parse_spelled_crowdedLine :
    ∃ parts : LineText, parts.Spells crowdedLine ∧
      (∀ other : LineText, other.Spells crowdedLine → other = parts) ∧
      parse crowdedLine = .ok ⟨some "a1",
        some ⟨"add", [.indexed (.label "R1") 2, .register 15, .value (.literal 255)]⟩⟩ := by
  have hparts : LineText.Spells ⟨some ['a', '1'], some (['a', 'd', 'd'],
      [.indexed ['R', '1'] ['r', '2'], .register ['r', '0', '1', '5'],
        .value ['$', 'f', 'F']])⟩ crowdedLine :=
    LineText.scan?_eq_some_iff.mp (by decide +kernel)
  obtain ⟨hunique, hparse⟩ := (parse_spelled crowdedLine).2.2 _ hparts
  refine ⟨_, hparts, hunique, hparse.trans ?_⟩
  decide +kernel

/-- The first number that is no word is reported, also if it stands in front of a register that
does not exist. -/
example : parse "x: data -32769, R99".toList
    = .error (.badArgument (.invalidLiteral "-32769")) := by decide +kernel

end SourceLine

end Hindsight
