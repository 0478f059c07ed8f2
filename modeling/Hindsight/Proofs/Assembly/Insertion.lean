import Hindsight.Proofs.Assembly.Diagnostics
import Hindsight.Proofs.Assembly.LineBreaks
import Hindsight.Proofs.Assembly.LineMap

/-!
# Lines and comments that are put in

A line of blanks, with or without a comment, emits nothing and defines nothing.  What is put in
front of a line therefore shifts its number and nothing else.  All that the assembler does with the
lines is to go through them in their order, so each of its passes is compared once, by induction on
a list into which something has been put: it does what it did, with the lines renumbered.

A comment behind a line that has the form of a line is not seen at all.  A line that does not have
it is malformed with the comment as well, but it is another line by then, and more may be said about
it.  So the two sources are wrong in the same places, with the same number of messages.

## Main definitions

* `IsBare` — the lines that may be put in.
* `spread`, `shifted` — a list with something in its gaps, and the new numbers of its elements.
* `Inserts` — what the passes need to know about this.
* `AssemblyOutput.Renumbered`, `MovesLines` — outputs and sources that differ in line numbers only.
* `AppendsComment`, `Issue.Reworded` — lines and issues, before and after a comment is put in.
* `AssemblyOutput.Reworded`, `KeepsMeaning` — outputs and sources that differ in what is said about
  malformed lines only.

## Main results

* `Inserts.flatMap_eq`, `Inserts.foldl_eq` — how a pass over a list takes what is put in.
* `readIssues_of_inserts`, `Layout.ofItems_of_inserts`, `linkIssues_of_inserts` — the three passes.
* `sourceIssues_of_inserts` — what is wrong with a source is so still, at the new line numbers.
* `sourceIssues_of_comments`, `keepsMeaning_of_comments` — and so it is behind the same lines, with
  comments.
* `assemble_layout` — **blank lines, comments and line breaks are layout only.**
-/

namespace Hindsight

/-! ### Lists with something put in -/

/-- A list with further elements in front of, between and behind its own. -/
def spread {α : Type} (gap : Nat → List α) : List α → List α
  | [] => gap 0
  | a :: l => gap 0 ++ a :: spread (fun i => gap (i + 1)) l

/-- The new number of the element that was the `n`-th, counted from 1. -/
def shifted {α : Type} (gap : Nat → List α) (n : Nat) : Nat :=
  n + ((List.range n).map fun i => (gap i).length).sum

/-- The second list has the elements of the first one, each with a change, and extra ones. -/
inductive Inserts {α β : Type} (change : α → β) (Extra : β → Prop) : List α → List β → Prop
  | nil : Inserts change Extra [] []
  | keep {a : α} {l : List α} {l' : List β} :
    Inserts change Extra l l' → Inserts change Extra (a :: l) (change a :: l')
  | extra {b : β} {l : List α} {l' : List β} :
    Extra b → Inserts change Extra l l' → Inserts change Extra l (b :: l')

namespace Inserts

variable {α β γ δ σ τ : Type} {change : α → β} {Extra : β → Prop} {l : List α} {l' : List β}

/-- No element is lost. -/
theorem mem (h : Inserts change Extra l l') {a : α} (ha : a ∈ l) : change a ∈ l' := by
  induction h with
  | nil => cases ha
  | keep _ ih =>
    rcases List.mem_cons.mp ha with rfl | ha
    · exact List.mem_cons_self
    · exact List.mem_cons_of_mem _ (ih ha)
  | extra _ _ ih => exact List.mem_cons_of_mem _ (ih ha)

/-- Nothing comes of the extra elements. -/
theorem flatMap_eq (h : Inserts change Extra l l') {g : α → List γ} {g' : β → List δ} {φ : γ → δ}
    (hkeep : ∀ a, g' (change a) = (g a).map φ) (hextra : ∀ b, Extra b → g' b = []) :
    l'.flatMap g' = (l.flatMap g).map φ := by
  induction h with
  | nil => rfl
  | keep _ ih => rw [List.flatMap_cons, List.flatMap_cons, List.map_append, hkeep, ih]
  | extra hb _ ih => rw [List.flatMap_cons, hextra _ hb, ih, List.nil_append]

theorem filterMap_eq (h : Inserts change Extra l l') {g : α → Option γ} {g' : β → Option δ}
    {φ : γ → δ} (hkeep : ∀ a, g' (change a) = (g a).map φ)
    (hextra : ∀ b, Extra b → g' b = none) : l'.filterMap g' = (l.filterMap g).map φ := by
  rw [List.filterMap_eq_flatMap_toList, List.filterMap_eq_flatMap_toList]
  refine h.flatMap_eq ?_ ?_
  · intro a
    rw [hkeep, Option.toList_map]
  · intro b hb
    rw [hextra b hb, Option.toList_none]

/-- A state that does not see the extra elements goes along. -/
theorem foldl_eq (h : Inserts change Extra l l') {step : σ → α → σ} {step' : τ → β → τ}
    {φ : σ → τ} (hkeep : ∀ s a, step' (φ s) (change a) = φ (step s a))
    (hextra : ∀ s b, Extra b → step' s b = s) (s : σ) :
    l'.foldl step' (φ s) = φ (l.foldl step s) := by
  induction h generalizing s with
  | nil => rfl
  | keep _ ih => rw [List.foldl_cons, List.foldl_cons, hkeep, ih]
  | extra hb _ ih => rw [List.foldl_cons, hextra _ _ hb, ih]

theorem append_extra {bs : List β} (hbs : ∀ b ∈ bs, Extra b) (h : Inserts change Extra l l') :
    Inserts change Extra l (bs ++ l') := by
  induction bs with
  | nil => exact h
  | cons b bs ih =>
    obtain ⟨hb, hbs⟩ := List.forall_mem_cons.mp hbs
    exact .extra hb (ih hbs)

/-- A list that is spread has its elements at their new numbers. -/
theorem zipIdx_spread {Extra : α → Prop} {gap : Nat → List α} (hgap : ∀ i, ∀ a ∈ gap i, Extra a)
    {f : Nat → Nat} {k k' : Nat}
    (hf : ∀ i, f (k + i) = k' + i + ((List.range (i + 1)).map fun j => (gap j).length).sum) :
    Inserts (fun e : α × Nat => (e.1, f e.2)) (fun e => Extra e.1) (l.zipIdx k)
      ((spread gap l).zipIdx k') := by
  induction l generalizing gap k k' with
  | nil =>
    have h : Inserts (fun e : α × Nat => (e.1, f e.2)) (fun e => Extra e.1) []
        ((gap 0).zipIdx k' ++ []) := by
      refine append_extra ?_ .nil
      intro e he
      exact hgap 0 e.1 (List.fst_mem_of_mem_zipIdx he)
    rwa [List.append_nil] at h
  | cons a l ih =>
    have hfirst : f k = k' + (gap 0).length := by
      simpa using hf 0
    -- behind the first element, the first gap and this element count as a whole
    have hrest : ∀ i, f (k + 1 + i)
        = k' + (gap 0).length + 1 + i
          + ((List.range (i + 1)).map fun j => (gap (j + 1)).length).sum := by
      intro i
      have h := hf (i + 1)
      rw [List.range_succ_eq_map, List.map_cons, List.sum_cons, List.map_map] at h
      rw [Nat.add_right_comm k 1 i, Nat.add_assoc k i 1, h]
      simp only [Function.comp_def, Nat.succ_eq_add_one]
      omega
    rw [spread, List.zipIdx_append, List.zipIdx_cons, List.zipIdx_cons, ← hfirst]
    refine append_extra ?_ (.keep ?_)
    · intro e he
      exact hgap 0 e.1 (List.fst_mem_of_mem_zipIdx he)
    · rw [hfirst]
      exact ih (fun i => hgap (i + 1)) hrest

end Inserts

/-! ### Bare lines -/

/-- A line of blanks, and maybe a comment. -/
inductive IsBare : List Char → Prop
  | intro {b comment : List Char} : Blank b → IsComment comment → IsBare (b ++ comment)

theorem IsBare.spells {line : List Char} (h : IsBare line) : LineText.Spells ⟨none, none⟩ line := by
  cases h with
  | @intro b comment hb hcomment =>
    have hline : LineText.Spells ⟨none, none⟩ (b ++ ([] ++ ([] ++ ([] ++ comment)))) :=
      .intro hb .none .none blank_nil hcomment
    exact hline

namespace Item

variable {text : List Char} {item : Item}

/-- There is neither a label nor a statement on the line. -/
def IsBare (item : Item) : Prop := item.label = none ∧ item.statement = none

/-- The item of a line with another number. -/
def renumber (f : Nat → Nat) (item : Item) : Item := { item with line := f item.line }

theorem parse_bare (h : Hindsight.IsBare text) (n : Nat) : parse n text = .ok ⟨n, none, none⟩ := by
  rw [parse, SourceLine.parse_eq_verdict (LineText.scan?_eq_some_iff.mpr h.spells) h.spells]
  rfl

/-- A line reads the same, whatever its number is. -/
theorem parse_renumber {n : Nat} (h : parse n text = .ok item) (f : Nat → Nat) :
    parse (f n) text = .ok (item.renumber f) := by
  obtain ⟨parsed, hparsed, hline, hrest⟩ := parse_eq_ok_iff.mp h
  exact parse_eq_ok_iff.mpr ⟨parsed, hparsed, congrArg f hline, hrest⟩

end Item

/-- An error at another line. -/
def Issue.renumber (f : Nat → Nat) (issue : Issue) : Issue :=
  { issue with line := f issue.line }

/-! ### Reading -/

/-- The second source has the lines of the first one, at new numbers, and bare ones. -/
def InsertsLines (f : Nat → Nat) (source source' : String) : Prop :=
  Inserts (fun e => (e.1, f e.2)) (fun e => IsBare e.1)
    ((textLines source.toList).zipIdx 1) ((textLines source'.toList).zipIdx 1)

/-- The second list of lines that were read has those of the first one and bare ones. -/
abbrev InsertsItems (f : Nat → Nat) (items items' : List Item) : Prop :=
  Inserts (Item.renumber f) Item.IsBare items items'

section Passes

variable {f : Nat → Nat} {source source' : String} {items items' : List Item}

/-- A check of numbered lines finds the same errors if there is nothing wrong with the extra
lines. -/
theorem Inserts.failures_eq {α β γ : Type} {change : α → β} {Extra : β → Prop} {l : List α}
    {l' : List β} (h : Inserts change Extra l l') {line : α → Nat} {line' : β → Nat}
    {check : α → Except SourceError γ} {check' : β → Except SourceError γ}
    (hline : ∀ a, line' (change a) = f (line a))
    (hcheck : ∀ a e, check' (change a) = .error e ↔ check a = .error e)
    (hextra : ∀ b, Extra b → ∀ e, check' b ≠ .error e) :
    failures (l'.map fun b => (line' b, check' b))
      = (failures (l.map fun a => (line a, check a))).map (Issue.renumber f) := by
  rw [failures, failures, List.filterMap_map, List.filterMap_map]
  refine h.filterMap_eq ?_ ?_
  · intro a
    simp only [Function.comp_apply, hline]
    -- two checks with the same errors need not have the same values
    cases hresult : check a with
    | error e =>
      rw [(hcheck a e).mpr hresult]
      rfl
    | ok c =>
      cases hresult' : check' (change a) with
      | error e =>
        rw [(hcheck a e).mp hresult'] at hresult
        cases hresult
      | ok c' => rfl
  · intro b hb
    simp only [Function.comp_apply]
    cases hresult : check' b with
    | error e => exact absurd hresult (hextra b hb e)
    | ok c => rfl

/-- **Reading finds the same errors.** -/
theorem readIssues_of_inserts (h : InsertsLines f source source') :
    readIssues source' = (readIssues source).map (Issue.renumber f) := by
  refine Inserts.failures_eq h (fun e => rfl) ?_ ?_
  · intro e error
    rw [Item.parse_eq_error_iff, Item.parse_eq_error_iff]
  · intro e he error hbare
    rw [Item.parse_bare he] at hbare
    cases hbare

/-- Lines that read do so still. -/
theorem exists_items_of_inserts {l l' : List (List Char × Nat)}
    (h : Inserts (fun e => (e.1, f e.2)) (fun e => IsBare e.1) l l')
    (hread : l.map (fun (text, line) => Item.parse line text) = items.map .ok) :
    ∃ items', l'.map (fun (text, line) => Item.parse line text) = items'.map .ok ∧
      InsertsItems f items items' := by
  induction h generalizing items with
  | nil =>
    obtain rfl := List.map_eq_nil_iff.mp hread.symm
    exact ⟨[], rfl, .nil⟩
  | @keep e l l' h ih =>
    cases items with
    | nil => cases hread
    | cons item items =>
      rw [List.map_cons, List.map_cons, List.cons.injEq] at hread
      obtain ⟨items', hread', hinserts⟩ := ih hread.2
      refine ⟨item.renumber f :: items', ?_, .keep hinserts⟩
      rw [List.map_cons, List.map_cons, hread']
      dsimp only
      rw [Item.parse_renumber hread.1]
  | @extra e l l' he h ih =>
    obtain ⟨items', hread', hinserts⟩ := ih hread
    -- a bare line reads as an item with nothing but its number
    refine ⟨⟨e.2, none, none⟩ :: items', ?_, .extra ⟨rfl, rfl⟩ hinserts⟩
    rw [List.map_cons, List.map_cons, hread']
    dsimp only
    rw [Item.parse_bare he]

theorem Reads.exists_of_inserts (hreads : Reads source items) (h : InsertsLines f source source') :
    ∃ items', Reads source' items' ∧ InsertsItems f items items' :=
  exists_items_of_inserts h hreads

/-! ### Layout -/

namespace Layout

/-- A layout whose errors are at other lines. -/
def renumber (f : Nat → Nat) (l : Layout) : Layout :=
  { l with issues := l.issues.map (Issue.renumber f) }

theorem renumber_report (l : Layout) (line : Nat) (error : SourceError) :
    (l.report line error).renumber f = (l.renumber f).report (f line) error := by
  simp [renumber, report, Issue.renumber]

theorem renumber_define (l : Layout) (line : Nat) (label : String) :
    (l.define line label).renumber f = (l.renumber f).define (f line) label := by
  have haddress : (l.renumber f).address = l.address := rfl
  have hlabels : (l.renumber f).labels = l.labels := rfl
  rw [define, define, haddress, hlabels]
  split_ifs
  · exact renumber_report l line _
  · exact renumber_report l line _
  · rfl

theorem renumber_add (l : Layout) (item : Item) :
    (l.renumber f).add (item.renumber f) = (l.add item).renumber f := by
  cases h : item.label with
  | none =>
    have h' : (item.renumber f).label = none := h
    rw [add_of_none _ h, add_of_none _ h']
    rfl
  | some name =>
    have h' : (item.renumber f).label = some name := h
    rw [add_of_some _ h, add_of_some _ h']
    show ((l.renumber f).define (f item.line) name).advance item.size = _
    rw [← renumber_define]
    rfl

theorem add_bare (l : Layout) {item : Item} (h : item.IsBare) : l.add item = l := by
  obtain ⟨hlabel, hstatement⟩ := h
  rw [add_of_none l hlabel, Item.size, hstatement]
  rfl

/-- **The first pass does the same**, if errors about no line stay so. -/
theorem ofItems_of_inserts (h : InsertsItems f items items') (hf : f 0 = 0) :
    ofItems items' = (ofItems items).renumber f := by
  have hfirst : renumber f {} = {} := by simp [renumber]
  -- a bare item leaves a layout as it is
  have hafter : items'.foldl add {} = (items.foldl add {}).renumber f := by
    rw [← h.foldl_eq renumber_add (fun l item hitem => add_bare l hitem) {}, hfirst]
  have haddress : ∀ l : Layout, (l.renumber f).address = l.address := fun _ => rfl
  unfold ofItems
  simp only [hafter, haddress]
  split
  · rw [renumber_report, hf]
  · rfl

end Layout

/-! ### Emission -/

/-- **The second pass finds the same errors.** -/
theorem linkIssues_of_inserts (h : InsertsItems f items items') (hf : f 0 = 0) :
    linkIssues items' = (linkIssues items).map (Issue.renumber f) := by
  have hlabels : (Layout.ofItems items').labels = (Layout.ofItems items).labels := by
    rw [Layout.ofItems_of_inserts h hf]
    rfl
  rw [linkIssues, linkIssues, hlabels]
  refine h.failures_eq (fun item => rfl) ?_ ?_
  · intro item error
    rw [Program.emit_eq_error_iff, Program.emit_eq_error_iff]
    rfl
  · intro item hitem error hbare
    rw [Program.emit, hitem.2] at hbare
    cases hbare

/-- Words are emitted by the same lines. -/
theorem flatMap_linked_of_inserts (h : InsertsItems f items items') {layout layout' : Layout}
    (hlabels : layout'.labels = layout.labels) :
    items'.flatMap (Program.linked layout')
      = (items.flatMap (Program.linked layout)).map fun x => (x.1, f x.2) := by
  refine h.flatMap_eq ?_ ?_
  · intro item
    rw [Program.linked, Program.linked, hlabels, List.map_map]
    rfl
  · intro item hitem
    rw [Program.linked, Item.image, hitem.2]
    rfl

/-! ### Assembly -/

/-- **What is wrong with a source is so still**, at the new line numbers. -/
theorem sourceIssues_of_inserts (h : InsertsLines f source source') (hf : f 0 = 0) :
    sourceIssues source' = (sourceIssues source).map (Issue.renumber f) := by
  have hissues := readIssues_of_inserts h
  -- the stages in their order: lines that do not read, the first pass, the second one
  by_cases hread : readIssues source = []
  · obtain ⟨items, hreads⟩ := exists_reads_of_readIssues_eq_nil hread
    obtain ⟨items', hreads', hitems⟩ := hreads.exists_of_inserts h
    have hempty : ((Layout.ofItems items).renumber f).issues.isEmpty
        = (Layout.ofItems items).issues.isEmpty := by
      rw [Layout.renumber, Array.isEmpty, Array.isEmpty, Array.size_map]
    rw [sourceIssues_of_reads hreads, sourceIssues_of_reads hreads',
      Layout.ofItems_of_inserts hitems hf, hempty]
    split
    · exact linkIssues_of_inserts hitems hf
    · exact Array.toList_map
  · have hread' : readIssues source' ≠ [] := by
      rw [hissues]
      exact mt List.map_eq_nil_iff.mp hread
    rw [sourceIssues_of_readIssues hread, sourceIssues_of_readIssues hread', hissues]

theorem exists_ofSource_iff_of_inserts (h : InsertsLines f source source') (hf : f 0 = 0) :
    (∃ p', Program.ofSource source' = .ok p') ↔ ∃ p, Program.ofSource source = .ok p := by
  rw [← sourceIssues_eq_nil_iff, ← sourceIssues_eq_nil_iff, sourceIssues_of_inserts h hf,
    List.map_eq_nil_iff]

/-- A source that assembles does so still, and to the same words and labels. -/
theorem Program.exists_of_inserts (h : InsertsLines f source source') (hf : f 0 = 0) {p : Program}
    (hp : ofSource source = .ok p) :
    ∃ p', ofSource source' = .ok p' ∧ p'.words = p.words ∧
      (∀ name, p'.label? name = p.label? name) ∧
      ∀ a, p'.lineMap.find? a = (p.lineMap.find? a).map f := by
  obtain ⟨p', hp'⟩ := (exists_ofSource_iff_of_inserts h hf).mpr ⟨p, hp⟩
  obtain ⟨items, hreads, hwf, hpwords⟩ := ofSource_eq_ok_iff.mp hp
  obtain ⟨items', hreads', hwf', hpwords'⟩ := ofSource_eq_ok_iff.mp hp'
  obtain ⟨others, hothers, hitems⟩ := hreads.exists_of_inserts h
  obtain rfl := hreads'.unique hothers
  have hlayout := Layout.ofItems_of_inserts hitems hf
  have hlabels : (Layout.ofItems items').labels = (Layout.ofItems items).labels := by
    rw [hlayout]
    rfl
  have hfits : (items.flatMap (linked (Layout.ofItems items))).length ≤ memorySize := by
    rw [length_flatMap_linked]
    exact hwf.fits
  -- both programs are made of the same words, and only the marks differ
  rw [hlabels, flatMap_linked_of_inserts hitems hlabels] at hpwords'
  subst hpwords hpwords'
  refine ⟨_, hp', List.map_map, fun name => rfl, ?_⟩
  · intro a
    rw [find?_lineMap_ofEmitted hfits, find?_lineMap_ofEmitted (by rwa [List.length_map]),
      List.getElem?_map, Option.map_map, Option.map_map]
    rfl

/-- The second output is the first one with other line numbers. -/
structure AssemblyOutput.Renumbered (f : Nat → Nat) (output output' : AssemblyOutput) : Prop where
  objectCode_eq : output'.objectCode = output.objectCode
  errorCount_eq : output'.errorCount = output.errorCount
  /-- No message changes. -/
  diagnostics_eq : output'.diagnostics
    = output.diagnostics.map fun d => { d with line := f d.line }
  find?_lineMap : ∀ a, output'.lineMap.find? a = (output.lineMap.find? a).map f

/-- **The output is the same**, with the lines renumbered. -/
theorem renumbered_of_inserts (h : InsertsLines f source source') (hf : f 0 = 0)
    (wording : SyntaxWording) (moduleName : String) :
    (assemble wording moduleName source).Renumbered f (assemble wording moduleName source') := by
  have hissues := sourceIssues_of_inserts h hf
  have hcount : (assemble wording moduleName source').errorCount
      = (assemble wording moduleName source).errorCount := by
    rw [errorCount_assemble, errorCount_assemble, hissues, List.length_map]
  have hmessages : (assemble wording moduleName source').diagnostics
      = (assemble wording moduleName source).diagnostics.map
          fun d => { d with line := f d.line } := by
    rw [diagnostics_assemble, diagnostics_assemble, hissues, List.map_map, List.map_map]
    rfl
  cases hp : Program.ofSource source with
  | ok p =>
    obtain ⟨p', hp', hwords, -, hlines⟩ := Program.exists_of_inserts h hf hp
    refine ⟨?_, hcount, hmessages, ?_⟩
    · rw [Program.assemble_of_ofSource hp, Program.assemble_of_ofSource hp', hwords]
    · rw [Program.assemble_of_ofSource hp, Program.assemble_of_ofSource hp']
      exact hlines
  | error issues =>
    -- without a program there is neither object code nor a line map, on both sides
    cases hp' : Program.ofSource source' with
    | ok p' =>
      obtain ⟨p, hok⟩ := (exists_ofSource_iff_of_inserts h hf).mp ⟨p', hp'⟩
      rw [hok] at hp
      cases hp
    | error issues' =>
      refine ⟨?_, hcount, hmessages, ?_⟩
      · rw [assemble, assemble, hp, hp']
      · rw [assemble, assemble, hp, hp']
        exact fun a => rfl

/-- The lines of the second source are those of the first one at new numbers, and this is all that
the assembler sees of the difference. -/
structure MovesLines (f : Nat → Nat) (source source' : String) : Prop where
  line_mem : ∀ text n, (text, n) ∈ (textLines source.toList).zipIdx 1 →
    (text, f n) ∈ (textLines source'.toList).zipIdx 1
  /-- What is about no line stays so. -/
  zero_eq : f 0 = 0
  /-- One source assembles if the other one does. -/
  assembles_iff : (∃ p', Program.ofSource source' = .ok p') ↔ ∃ p, Program.ofSource source = .ok p
  label?_eq : ∀ p p', Program.ofSource source = .ok p → Program.ofSource source' = .ok p' →
    ∀ name, p'.label? name = p.label? name
  renumbered : ∀ wording moduleName,
    (assemble wording moduleName source).Renumbered f (assemble wording moduleName source')

theorem InsertsLines.movesLines (h : InsertsLines f source source') (hf : f 0 = 0) :
    MovesLines f source source' where
  line_mem := fun text n hmem => h.mem hmem
  zero_eq := hf
  assembles_iff := exists_ofSource_iff_of_inserts h hf
  label?_eq := by
    intro p p' hp hp'
    obtain ⟨other, hother, -, hlabels, -⟩ := Program.exists_of_inserts h hf hp
    obtain rfl := Except.ok.inj (hp'.symm.trans hother)
    exact hlabels
  renumbered := renumbered_of_inserts h hf

end Passes

/-! ### Sources with other layout -/

section Sources

variable {source source' : String}

/-- Lines that are put in the gaps of a source leave it its lines, at their new numbers. -/
theorem insertsLines_of_spread {gap : Nat → List (List Char)}
    (hgap : ∀ i, ∀ line ∈ gap i, IsBare line)
    (h : textLines source'.toList = spread gap (textLines source.toList)) :
    InsertsLines (shifted gap) source source' := by
  rw [InsertsLines, h]
  refine Inserts.zipIdx_spread hgap ?_
  intro i
  rw [shifted, Nat.add_comm 1 i]

/-- The second line is the first one with a comment behind it, or with nothing. -/
def AppendsComment (line line' : List Char) : Prop :=
  ∃ comment, IsComment comment ∧ line' = line ++ comment

/-- The second error is the first one, but a malformed line may have got a comment. -/
inductive Issue.Reworded : Issue → Issue → Prop
  | same (issue : Issue) : Reworded issue issue
  | malformed (n : Nat) {line line' : List Char} : (¬ ∃ parts : LineText, parts.Spells line) →
    AppendsComment line line' → Reworded ⟨n, .malformed line⟩ ⟨n, .malformed line'⟩

/-- Comments behind lines that have the form of a line change nothing. -/
theorem map_parse_of_comments {lines lines' : List (List Char)}
    (h : List.Forall₂ AppendsComment lines lines')
    (hform : ∀ line ∈ lines, ∃ parts : LineText, parts.Spells line) (k : Nat) :
    (lines'.zipIdx k).map (fun (text, line) => (line, Item.parse line text))
      = (lines.zipIdx k).map fun (text, line) => (line, Item.parse line text) := by
  induction h generalizing k with
  | nil => rfl
  | cons hline hlines ih =>
    obtain ⟨comment, hcomment, rfl⟩ := hline
    obtain ⟨⟨parts, hparts⟩, hrest⟩ := List.forall_mem_cons.mp hform
    rw [List.zipIdx_cons, List.zipIdx_cons, List.map_cons, List.map_cons, ih hrest]
    dsimp only
    rw [Item.parse_append_comment hcomment hparts]

theorem readItems_of_comments
    (h : List.Forall₂ AppendsComment (textLines source.toList) (textLines source'.toList))
    (hform : ∀ line ∈ textLines source.toList, ∃ parts : LineText, parts.Spells line) :
    readItems source' = readItems source := by
  unfold readItems
  simp only [map_parse_of_comments h hform]

/-- A line with a comment behind it has the same fault, if any. -/
theorem failures_of_comment {line line' : List Char} (h : AppendsComment line line') (n : Nat) :
    List.Forall₂ Issue.Reworded (failures [(n, Item.parse n line)])
      (failures [(n, Item.parse n line')]) := by
  obtain ⟨comment, hcomment, rfl⟩ := h
  cases hscan : LineText.scan? line with
  | none =>
    -- the line stays malformed, but the error has its text, which is longer now
    have hscan' : LineText.scan? (line ++ comment) = none :=
      (LineText.scan?_append_comment hcomment line).trans hscan
    have hform : ¬ ∃ parts : LineText, parts.Spells line := by
      rintro ⟨parts, hparts⟩
      rw [LineText.scan?_eq_some_iff.mpr hparts] at hscan
      cases hscan
    rw [Item.parse_of_scan?_eq_none hscan, Item.parse_of_scan?_eq_none hscan']
    exact .cons (.malformed n hform ⟨comment, hcomment, rfl⟩) .nil
  | some parts =>
    rw [Item.parse_append_comment hcomment (LineText.scan?_eq_some_iff.mp hscan)]
    exact List.forall₂_same.mpr fun issue _ => .same issue

/-- **Comments behind lines leave all errors of reading where they are.** -/
theorem readIssues_of_comments
    (h : List.Forall₂ AppendsComment (textLines source.toList) (textLines source'.toList)) :
    List.Forall₂ Issue.Reworded (readIssues source) (readIssues source') := by
  unfold readIssues
  generalize textLines source.toList = lines at h
  generalize textLines source'.toList = lines' at h
  -- for the induction, the first line may have any number
  generalize 1 = k
  induction h generalizing k with
  | nil => exact .nil
  | cons hline hlines ih =>
    rw [List.zipIdx_cons, List.zipIdx_cons, List.map_cons, List.map_cons, failures_cons,
      failures_cons _ (List.map _ _)]
    exact List.rel_append (failures_of_comment hline k) (ih (k + 1))

/-- The lines of a source that reads have the form of lines. -/
theorem Reads.exists_spells {items : List Item} (h : Reads source items) :
    ∀ line ∈ textLines source.toList, ∃ parts : LineText, parts.Spells line := by
  intro line hline
  rw [← List.zipIdx_map_fst 1 (textLines source.toList)] at hline
  obtain ⟨⟨text, n⟩, hmem, rfl⟩ := List.mem_map.mp hline
  show ∃ parts : LineText, parts.Spells text
  cases hscan : LineText.scan? text with
  | some parts => exact ⟨parts, LineText.scan?_eq_some_iff.mp hscan⟩
  | none =>
    have hparsed : Item.parse n text ∈ items.map .ok := by
      rw [← h]
      exact List.mem_map.mpr ⟨(text, n), hmem, rfl⟩
    rw [Item.parse_of_scan?_eq_none hscan] at hparsed
    obtain ⟨item, -, hitem⟩ := List.mem_map.mp hparsed
    cases hitem

/-- With comments behind its lines a source reads as it did, or it does not read as before. -/
theorem ofSource_or_readIssues_of_comments
    (h : List.Forall₂ AppendsComment (textLines source.toList) (textLines source'.toList)) :
    Program.ofSource source' = Program.ofSource source ∨
      readIssues source ≠ [] ∧ readIssues source' ≠ [] := by
  by_cases hread : readIssues source = []
  · obtain ⟨items, hreads⟩ := exists_reads_of_readIssues_eq_nil hread
    exact .inl (ofSource_congr (readItems_of_comments h hreads.exists_spells))
  · refine .inr ⟨hread, fun hread' => hread ?_⟩
    exact List.forall₂_nil_right_iff.mp (hread' ▸ readIssues_of_comments h)

/-- **What is wrong with a source is so still**, with comments behind its lines. -/
theorem sourceIssues_of_comments
    (h : List.Forall₂ AppendsComment (textLines source.toList) (textLines source'.toList)) :
    List.Forall₂ Issue.Reworded (sourceIssues source) (sourceIssues source') := by
  rcases ofSource_or_readIssues_of_comments h with hsame | ⟨hread, hread'⟩
  · rw [sourceIssues, sourceIssues, hsame]
    exact List.forall₂_same.mpr fun issue _ => .same issue
  · rw [sourceIssues_of_readIssues hread, sourceIssues_of_readIssues hread']
    exact readIssues_of_comments h

theorem ofSource_eq_ok_iff_of_comments
    (h : List.Forall₂ AppendsComment (textLines source.toList) (textLines source'.toList))
    (p : Program) : Program.ofSource source' = .ok p ↔ Program.ofSource source = .ok p := by
  -- a line that does not read leaves no program
  have hnone : ∀ source, readIssues source ≠ [] → Program.ofSource source ≠ .ok p := by
    intro source hread hp
    have hnil := sourceIssues_eq_nil_iff.mpr ⟨p, hp⟩
    rw [sourceIssues_of_readIssues hread] at hnil
    exact hread hnil
  rcases ofSource_or_readIssues_of_comments h with hsame | ⟨hread, hread'⟩
  · rw [hsame]
  · exact iff_of_false (hnone source' hread') (hnone source hread)

/-- The second output is the first one, but for what is said about malformed lines. -/
structure AssemblyOutput.Reworded (wording : SyntaxWording) (output output' : AssemblyOutput) :
    Prop where
  objectCode_eq : output'.objectCode = output.objectCode
  errorCount_eq : output'.errorCount = output.errorCount
  lineMap_eq : output'.lineMap = output.lineMap
  /-- Each message is the message of the same error. -/
  diagnostics : List.Forall₂ (fun d d' => ∃ issue issue' : Issue, issue.Reworded issue' ∧
    d = issue.diagnostic wording ∧ d' = issue'.diagnostic wording)
      output.diagnostics output'.diagnostics

/-- The lines of the second source have other comments, and all that the assembler sees of this is
the text of malformed lines. -/
structure KeepsMeaning (source source' : String) : Prop where
  ofSource_eq_ok_iff : ∀ p, Program.ofSource source' = .ok p ↔ Program.ofSource source = .ok p
  reworded : ∀ wording moduleName,
    (assemble wording moduleName source).Reworded wording (assemble wording moduleName source')
  /-- There is nothing to be seen if all lines have the form of a line. -/
  assemble_eq : (∀ line ∈ textLines source.toList, ∃ parts : LineText, parts.Spells line) →
    ∀ wording moduleName, assemble wording moduleName source' = assemble wording moduleName source

/-- **Comments behind lines keep the meaning of a source.** -/
theorem keepsMeaning_of_comments
    (h : List.Forall₂ AppendsComment (textLines source.toList) (textLines source'.toList)) :
    KeepsMeaning source source' where
  ofSource_eq_ok_iff := ofSource_eq_ok_iff_of_comments h
  assemble_eq hform := assemble_congr (ofSource_congr (readItems_of_comments h hform))
  reworded wording moduleName := by
    have hissues := sourceIssues_of_comments h
    have hcount : (assemble wording moduleName source').errorCount
        = (assemble wording moduleName source).errorCount := by
      rw [errorCount_assemble, errorCount_assemble, hissues.length_eq]
    have hprogram : (assemble wording moduleName source').objectCode
          = (assemble wording moduleName source).objectCode ∧
        (assemble wording moduleName source').lineMap
          = (assemble wording moduleName source).lineMap := by
      -- both sources assemble to one program, or there is none for either
      cases hp : Program.ofSource source with
      | ok p =>
        have hp' := (ofSource_eq_ok_iff_of_comments h p).mpr hp
        rw [Program.assemble_of_ofSource hp, Program.assemble_of_ofSource hp']
        exact ⟨rfl, rfl⟩
      | error issues =>
        cases hp' : Program.ofSource source' with
        | ok p =>
          rw [(ofSource_eq_ok_iff_of_comments h p).mp hp'] at hp
          cases hp
        | error issues' =>
          rw [assemble, assemble, hp, hp']
          exact ⟨rfl, rfl⟩
    refine ⟨hprogram.1, hcount, hprogram.2, ?_⟩
    rw [diagnostics_assemble, diagnostics_assemble, List.forall₂_map_left_iff,
      List.forall₂_map_right_iff]
    exact hissues.imp fun issue issue' hreworded => ⟨issue, issue', hreworded, rfl, rfl⟩

/-- A source without carriage returns reads the same with line breaks of the other kind. -/
theorem readItems_withReturns (h : '\r' ∉ source.toList) :
    readItems (withReturns source) = readItems source := by
  unfold readItems
  rw [withReturns, String.toList_ofList, textLines_withReturns h]

/-- Single lines are the lines of a source. -/
theorem exists_textLines_eq {lines : List (List Char)}
    (h : ∀ line ∈ lines, ∀ c ∈ line, isLineEnd c = false) :
    ∃ source : String, textLines source.toList = lines :=
  ⟨String.ofList (lines.flatMap (· ++ ['\n'])), by
    rw [String.toList_ofList, textLines_terminated h]⟩

theorem mem_spread {α : Type} {gap : Nat → List α} {l : List α} {a : α} (h : a ∈ spread gap l) :
    a ∈ l ∨ ∃ i, a ∈ gap i := by
  induction l generalizing gap with
  | nil => exact .inr ⟨0, h⟩
  | cons b l ih =>
    rw [spread, List.mem_append, List.mem_cons] at h
    rcases h with h | rfl | h
    · exact .inr ⟨0, h⟩
    · exact .inl List.mem_cons_self
    · rcases ih h with h | ⟨i, h⟩
      · exact .inl (List.mem_cons_of_mem b h)
      · exact .inr ⟨i + 1, h⟩

/-- Bare lines can be put into a source anywhere. -/
theorem exists_textLines_spread {gap : Nat → List (List Char)} (h : '\r' ∉ source.toList)
    (hgap : ∀ i, ∀ line ∈ gap i, IsBare line) :
    ∃ source' : String, textLines source'.toList = spread gap (textLines source.toList) := by
  refine exists_textLines_eq ?_
  intro line hline
  rcases mem_spread hline with hline | ⟨i, hline⟩
  · exact isLineEnd_of_mem_textLines h line hline
  · exact (hgap i line hline).spells.isLineEnd

/-- A comment can be put behind any line of a source. -/
theorem exists_textLines_comments {lines : List (List Char)} (h : '\r' ∉ source.toList)
    (hlines : List.Forall₂ AppendsComment (textLines source.toList) lines) :
    ∃ source' : String, textLines source'.toList = lines := by
  have hsource := isLineEnd_of_mem_textLines h
  generalize textLines source.toList = before at hsource hlines
  refine exists_textLines_eq ?_
  -- a comment does not break the line that it is put behind
  induction hlines with
  | nil => exact List.forall_mem_nil _
  | cons hline hlines ih =>
    obtain ⟨comment, hcomment, rfl⟩ := hline
    obtain ⟨hfirst, hrest⟩ := List.forall_mem_cons.mp hsource
    refine List.forall_mem_cons.mpr ⟨?_, ih hrest⟩
    intro c hc
    rcases List.mem_append.mp hc with hc | hc
    · exact hfirst c hc
    · exact hcomment.isLineEnd c hc

end Sources

/-! ### The main result -/

/-- **Blank lines, comments and line breaks are layout only.**  With lines of blanks and comments
in front of, between and behind its lines, a source assembles if it did, to the same words and
labels, or is wrong for the same reasons; and whatever names a line by its number names it by the
new one, while what names no line, by the number 0, still does not.  Comments behind lines change
nothing but the text of malformed lines, and so what may be said about these.  A source without
carriage returns, in which all of this can be done, does not change with a carriage return in front
of each line feed.  This holds whatever is said about a malformed line. -/
theorem assemble_layout (source : String) :
    (∀ gap source', (∀ i, ∀ line ∈ gap i, IsBare line) →
      textLines source'.toList = spread gap (textLines source.toList) →
        MovesLines (shifted gap) source source') ∧
    (∀ source',
      List.Forall₂ AppendsComment (textLines source.toList) (textLines source'.toList) →
        KeepsMeaning source source') ∧
    ('\r' ∉ source.toList →
      (∀ gap, (∀ i, ∀ line ∈ gap i, IsBare line) →
        ∃ source' : String, textLines source'.toList = spread gap (textLines source.toList)) ∧
      (∀ lines, List.Forall₂ AppendsComment (textLines source.toList) lines →
        ∃ source' : String, textLines source'.toList = lines) ∧
      Program.ofSource (withReturns source) = Program.ofSource source ∧
        ∀ wording moduleName, assemble wording moduleName (withReturns source)
          = assemble wording moduleName source) := by
  refine ⟨?_, fun source' hlines => keepsMeaning_of_comments hlines, ?_⟩
  · intro gap source' hgap hlines
    have hzero : shifted gap 0 = 0 := rfl
    exact (insertsLines_of_spread hgap hlines).movesLines hzero
  · intro hreturn
    have h := ofSource_congr (readItems_withReturns hreturn)
    exact ⟨fun gap => exists_textLines_spread hreturn,
      fun lines => exists_textLines_comments hreturn, h, assemble_congr h⟩

/-- Two bare lines in front of the first line of a source, and one behind it. -/
def airyGap : Nat → List (List Char)
  | 0 => ["; top".toList, []]
  | 1 => ["\t ; 8".toList]
  | _ => []

theorem isBare_airyGap : ∀ i, ∀ line ∈ airyGap i, IsBare line := by
  have hempty : IsBare ([] ++ []) := .intro blank_nil .none
  have htop : IsBare ([] ++ "; top".toList) :=
    .intro blank_nil (isComment_iff.mpr ⟨stops_cons.mpr (by decide), by decide⟩)
  have hnumber : IsBare (['\t', ' '] ++ "; 8".toList) :=
    .intro (by simp [Blank, isBlank]) (isComment_iff.mpr ⟨stops_cons.mpr (by decide), by decide⟩)
  intro i line hline
  rcases i with _ | _ | i
  · rcases List.mem_pair.mp hline with rfl | rfl
    · exact htop
    · exact hempty
  · obtain rfl := List.mem_singleton.mp hline
    exact hnumber
  · cases hline

/-- The label stays where it is, and the lines of the jump and of the second definition move to
line 5.  A line that is quoted in its message is malformed once, also with a comment. -/
theorem assemble_layout_airy :
    (∃ p, Program.ofSource "; top\n\nx: data 7\n\t ; 8\njump x" = .ok p ∧
      p.words = [7, 0xf003, 0] ∧ p.label? "x" = some 0 ∧ p.lineMap.find? 2 = some 5) ∧
    (assemble plainWording "main" "; top\n\nx: data 7\n\t ; 8\nx: data 9").diagnostics
      = [⟨5, "Duplicate label: x"⟩] ∧
    assemble plainWording "main" "x: data 7;\njump x; again"
      = assemble plainWording "main" "x: data 7\njump x" ∧
    (assemble String.ofList "main" "data 7,;").errorCount = 1 ∧
    assemble plainWording "main" "x: data 7\r\njump x"
      = assemble plainWording "main" "x: data 7\njump x" := by
  obtain ⟨hinsert, hcomment, hreturn⟩ := assemble_layout "x: data 7\njump x"
  refine ⟨?_, ?_, ?_, ?_, ?_⟩
  · -- the data keep their address, and the line of the jump moves by three
    have hmoves := hinsert airyGap "; top\n\nx: data 7\n\t ; 8\njump x" isBare_airyGap
      (by decide +kernel)
    have hresult : (Program.ofSource "x: data 7\njump x").toOption.map
        (fun p => (p.words, p.label? "x", p.lineMap.find? 2))
        = some ([7, 0xf003, 0], some 0, some 2) := by decide +kernel
    cases hp : Program.ofSource "x: data 7\njump x" with
    | error issues =>
      rw [hp] at hresult
      cases hresult
    | ok p =>
      rw [hp] at hresult
      obtain ⟨hwords, hlabel, hline⟩ : p.words = [7, 0xf003, 0] ∧ p.label? "x" = some 0 ∧
          p.lineMap.find? 2 = some 2 := by simpa using Option.some.inj hresult
      obtain ⟨p', hp'⟩ := hmoves.assembles_iff.mpr ⟨p, hp⟩
      have h := hmoves.renumbered plainWording "main"
      rw [Program.assemble_of_ofSource hp, Program.assemble_of_ofSource hp'] at h
      refine ⟨p', hp', h.objectCode_eq.trans hwords,
        (hmoves.label?_eq p p' hp hp' "x").trans hlabel, ?_⟩
      rw [h.find?_lineMap, hline]
      rfl
  · -- the message of the second definition does not change, and its line does
    have hmoves := (assemble_layout "x: data 7\nx: data 9").1 airyGap
      "; top\n\nx: data 7\n\t ; 8\nx: data 9" isBare_airyGap (by decide +kernel)
    have hfound : (assemble plainWording "main" "x: data 7\nx: data 9").diagnostics
        = [⟨2, "Duplicate label: x"⟩] := by decide +kernel
    rw [(hmoves.renumbered plainWording "main").diagnostics_eq, hfound]
    rfl
  · -- both lines have the form of a line, so that not even a message changes
    have hempty : AppendsComment "x: data 7".toList "x: data 7;".toList :=
      ⟨[';'], .some (List.forall_mem_nil _), rfl⟩
    have hagain : AppendsComment "jump x".toList "jump x; again".toList :=
      ⟨"; again".toList, isComment_iff.mpr ⟨stops_cons.mpr (by decide), by decide⟩, rfl⟩
    have hlines : textLines "x: data 7\njump x".toList
        = ["x: data 7".toList, "jump x".toList] := by decide +kernel
    have hlines' : textLines "x: data 7;\njump x; again".toList
        = ["x: data 7;".toList, "jump x; again".toList] := by decide +kernel
    have hdata : LineText.scan? "x: data 7".toList
        = some ⟨some ['x'], some ("data".toList, [.value ['7']])⟩ := by decide +kernel
    have hjump : LineText.scan? "jump x".toList
        = some ⟨none, some ("jump".toList, [.value ['x']])⟩ := by decide +kernel
    have hform : ∀ line ∈ textLines "x: data 7\njump x".toList,
        ∃ parts : LineText, parts.Spells line := by
      intro line hline
      rw [hlines] at hline
      rcases List.mem_pair.mp hline with rfl | rfl
      · exact ⟨_, LineText.scan?_eq_some_iff.mp hdata⟩
      · exact ⟨_, LineText.scan?_eq_some_iff.mp hjump⟩
    refine (hcomment _ ?_).assemble_eq hform plainWording "main"
    rw [hlines, hlines']
    exact .cons hempty (.cons hagain .nil)
  · -- the wording of the message is the line itself, so that the two messages differ
    have hkeeps : KeepsMeaning "data 7," "data 7,;" :=
      (assemble_layout "data 7,").2.1 _
        (.cons ⟨[';'], .some (List.forall_mem_nil _), rfl⟩ .nil)
    rw [(hkeeps.reworded String.ofList "main").errorCount_eq]
    decide +kernel
  · exact (hreturn (by decide)).2.2.2 plainWording "main"

end Hindsight
