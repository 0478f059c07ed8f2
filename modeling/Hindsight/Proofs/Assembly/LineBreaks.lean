import Hindsight.Proofs.Assembly.LineLanguage
import Hindsight.Assembly.Program

/-!
# Line breaks and comments

A text is cut into lines at its line feeds, one line after the other, and that is all that cutting
is used for here.  A carriage return in front of a line feed belongs to the line break, so that a
text without carriage returns has the same lines when it gets one in front of each line feed.  A
comment at the end of a line is cut off before anything is scanned.

## Main definitions

* `withReturn`, `withReturns` — a text with carriage returns in its line breaks.

## Main results

* `textLines_of_notMem`, `textLines_line` — the last line of a text, and the first one.
* `line_induction` — induction on the lines of a text.
* `textLines_terminated` — lines that are printed with a line feed behind each.
* `textLines_withReturns` — line breaks of both kinds cut a text into the same lines.
* `LineText.scan?_append_comment` — a comment behind a line plays no part.
* `Item.parse_append_comment` — nor in what the line means.
-/

namespace Hindsight

/-! ### Cutting a text into lines -/

section Cutting

variable {x s : List Char}

/-- A text without line feeds is one line, unless it is empty. -/
theorem textLines_of_notMem (hx : '\n' ∉ x) : textLines x = if x = [] then [] else [x] := by
  unfold textLines
  simp only [pieces_of_notMem hx]
  cases x <;> rfl

/-- The first line reaches to the first line feed. -/
theorem textLines_line (hx : '\n' ∉ x) (s : List Char) :
    textLines (x ++ '\n' :: s) = dropReturn x :: textLines s := by
  have hne : pieces '\n' s ≠ [] := pieces_ne_nil s
  obtain ⟨p, ps, hpieces⟩ := List.exists_cons_of_ne_nil hne
  unfold textLines
  simp only [pieces_append_cons hx]
  rw [hpieces, List.dropLast_cons_cons, List.map_cons, List.getLast?_cons_cons]
  split <;> rfl

/-- **Induction on the lines of a text.** -/
theorem line_induction {motive : List Char → Prop} (last : ∀ x, '\n' ∉ x → motive x)
    (line : ∀ x s, '\n' ∉ x → motive s → motive (x ++ '\n' :: s)) (s : List Char) : motive s := by
  by_cases hs : '\n' ∈ s
  · obtain ⟨x, t, rfl, hx⟩ := List.eq_append_cons_of_mem hs
    exact line x t hx (line_induction last line t)
  · exact last s hs
  termination_by s.length
  decreasing_by
    subst_vars
    simp
    omega

theorem dropReturn_of_notMem (hx : '\r' ∉ x) : dropReturn x = x :=
  if_neg fun hlast => hx (List.mem_of_getLast? hlast)

theorem dropReturn_concat (x : List Char) : dropReturn (x ++ ['\r']) = x := by
  rw [dropReturn, if_pos List.getLast?_concat, List.dropLast_concat]

theorem notMem_of_isLineEnd {c : Char} (h : ∀ d ∈ x, isLineEnd d = false) (hc : isLineEnd c) :
    c ∉ x := by
  intro hmem
  rw [h c hmem] at hc
  cases hc

/-- Lines that are printed with a line feed behind each come out as they are. -/
theorem textLines_terminated {lines : List (List Char)}
    (h : ∀ line ∈ lines, ∀ c ∈ line, isLineEnd c = false) :
    textLines (lines.flatMap (· ++ ['\n'])) = lines := by
  induction lines with
  | nil => rfl
  | cons line lines ih =>
    obtain ⟨hline, hlines⟩ := List.forall_mem_cons.mp h
    rw [List.flatMap_cons, List.append_assoc, List.singleton_append,
      textLines_line (notMem_of_isLineEnd hline (by decide)), ih hlines,
      dropReturn_of_notMem (notMem_of_isLineEnd hline (by decide))]

theorem isLineEnd_of_notMem (hfeed : '\n' ∉ x) (hreturn : '\r' ∉ x) :
    ∀ c ∈ x, isLineEnd c = false := by
  intro c hc
  rw [isLineEnd, Bool.or_eq_false_iff, decide_eq_false_iff_not, decide_eq_false_iff_not]
  constructor
  · rintro rfl
    exact hfeed hc
  · rintro rfl
    exact hreturn hc

/-- The lines of a text without carriage returns hold no character that ends a line. -/
theorem isLineEnd_of_mem_textLines (hs : '\r' ∉ s) :
    ∀ line ∈ textLines s, ∀ c ∈ line, isLineEnd c = false := by
  induction s using line_induction with
  | last x hx =>
    intro line hline
    rw [textLines_of_notMem hx] at hline
    split at hline
    · cases hline
    · obtain rfl := List.mem_singleton.mp hline
      exact isLineEnd_of_notMem hx hs
  | line x s hx ih =>
    rw [List.mem_append, List.mem_cons, not_or, not_or] at hs
    rw [textLines_line hx, dropReturn_of_notMem hs.1, List.forall_mem_cons]
    exact ⟨isLineEnd_of_notMem hx hs.1, ih hs.2.2⟩

end Cutting

/-! ### Carriage returns -/

/-- A character, with a carriage return in front if it is a line feed. -/
def withReturn (c : Char) : List Char := if c = '\n' then ['\r', '\n'] else [c]

/-- A text with a carriage return in front of each line feed. -/
def withReturns (text : String) : String := String.ofList (text.toList.flatMap withReturn)

theorem flatMap_withReturn_of_notMem {x : List Char} (hx : '\n' ∉ x) :
    x.flatMap withReturn = x := by
  have hchar : ∀ c ∈ x, withReturn c = [c] := by
    intro c hc
    refine if_neg ?_
    rintro rfl
    exact hx hc
  rw [List.flatMap_congr hchar, List.flatMap_singleton']

/-- **Line breaks of both kinds cut a text into the same lines.** -/
theorem textLines_withReturns {s : List Char} (hs : '\r' ∉ s) :
    textLines (s.flatMap withReturn) = textLines s := by
  induction s using line_induction with
  | last x hx => rw [flatMap_withReturn_of_notMem hx]
  | line x s hx ih =>
    rw [List.mem_append, List.mem_cons, not_or, not_or] at hs
    have hline : '\n' ∉ x ++ ['\r'] := by simp [hx]
    -- the return ends up at the end of the line, where it is dropped again
    have hbreak : (x ++ '\n' :: s).flatMap withReturn
        = (x ++ ['\r']) ++ '\n' :: s.flatMap withReturn := by
      rw [List.flatMap_append, List.flatMap_cons, flatMap_withReturn_of_notMem hx,
        List.append_assoc]
      rfl
    rw [hbreak, textLines_line hline, textLines_line hx, dropReturn_concat,
      dropReturn_of_notMem hs.1, ih hs.2.2]

/-! ### Comments -/

section Comments

variable {comment : List Char}

/-- **A comment behind a line plays no part**, also if the line has one already. -/
theorem LineText.scan?_append_comment (h : IsComment comment) (line : List Char) :
    scan? (line ++ comment) = scan? line := by
  obtain ⟨hstop, hend⟩ := isComment_iff.mp h
  rw [scan?_eq, scan?_eq]
  generalize hcode : line.takeWhile (· ≠ ';') = code
  generalize hrest : line.dropWhile (· ≠ ';') = rest
  obtain ⟨rfl, hchars, hstops⟩ := takeWhile_dropWhile_eq_iff.mp ⟨hcode, hrest⟩
  -- the line is cut where it was, and what is behind the cut is longer by the comment
  obtain ⟨htake, hdrop⟩ := takeWhile_dropWhile_eq_iff.mpr
    ⟨List.append_assoc code rest comment, hchars, hstops.append hstop⟩
  rw [htake, hdrop, List.any_append, Bool.eq_false_iff.mpr hend, Bool.or_false]

/-- A line that does not have the form of a line gets no form from a comment. -/
theorem Item.parse_of_scan?_eq_none {line : List Char} (h : LineText.scan? line = none) (n : Nat) :
    parse n line = .error (.malformed line) := by
  rw [parse, SourceLine.parse_of_scan?_eq_none h]
  rfl

/-- A line that has the form of a line means the same with a comment behind it. -/
theorem Item.parse_append_comment (h : IsComment comment) {line : List Char} {parts : LineText}
    (hparts : parts.Spells line) (n : Nat) : parse n (line ++ comment) = parse n line := by
  have hscan : LineText.scan? line = some parts := LineText.scan?_eq_some_iff.mpr hparts
  have hscan' : LineText.scan? (line ++ comment) = some parts :=
    (LineText.scan?_append_comment h line).trans hscan
  rw [parse, parse, SourceLine.parse_eq_verdict hscan hparts,
    SourceLine.parse_eq_verdict hscan' (LineText.scan?_eq_some_iff.mp hscan')]

end Comments

end Hindsight
