import Hindsight.Emulator.Toolchain
import Hindsight.Proofs.Assembly.Emission
import Hindsight.Proofs.Assembly.Layout
import Hindsight.Proofs.Timeline.Programs

/-!
# The two passes fit together

The first pass gives addresses from the sizes of the statements, the second one emits words.
Since a line emits as many words as its size says, the words of every line begin at the address
that the first pass has given it, and a program is what is written in its source: the words of
the lines one after the other, each label standing for the address of the line that defines it.

## Main definitions

* `Reads` — the lines of a source, read.
* `WellFormed` — what the lines of a program have to satisfy.
* `Program.IsImage` — the program that lines stand for.

## Main results

* `ofSource_two_passes` — **when a source assembles, and to what.**
-/

namespace Hindsight

/-! ### Reading -/

/-- The lines of the source read as these items, each of them with its number from 1 on. -/
def Reads (source : String) (items : List Item) : Prop :=
  ((textLines source.toList).zipIdx 1).map (fun (text, line) => Item.parse line text)
    = items.map .ok

theorem readItems_eq_ok_iff {source : String} {items : List Item} :
    readItems source = .ok items ↔ Reads source items := by
  unfold readItems
  rw [gather_eq_ok_iff, List.map_map]
  rfl

/-- What is assembled depends on the lines only as they are read. -/
theorem ofSource_congr {source source' : String} (h : readItems source' = readItems source) :
    Program.ofSource source' = Program.ofSource source := by
  rw [Program.ofSource, Program.ofSource, h]

theorem assemble_congr {source source' : String}
    (h : Program.ofSource source' = Program.ofSource source) (wording : SyntaxWording)
    (moduleName : String) :
    assemble wording moduleName source' = assemble wording moduleName source := by
  rw [assemble, assemble, h]

/-- A source reads in one way only. -/
theorem Reads.unique {source : String} {items items' : List Item} (h : Reads source items)
    (h' : Reads source items') : items = items' :=
  (List.map_inj_right fun _ _ => Except.ok.inj).mp (h.symm.trans h')

/-- An item is read from a line of the source. -/
theorem Reads.exists_parse {source : String} {items : List Item} (h : Reads source items)
    {item : Item} (hitem : item ∈ items) : ∃ line text, Item.parse line text = .ok item := by
  have hmem : Except.ok item ∈ items.map (Except.ok (ε := SourceError)) :=
    List.mem_map_of_mem hitem
  rw [← h] at hmem
  obtain ⟨⟨text, line⟩, -, hparse⟩ := List.mem_map.mp hmem
  exact ⟨line, text, hparse⟩

/-- Lines are counted from 1. -/
theorem Reads.line_eq {source : String} {items : List Item} (h : Reads source items) {i : Nat}
    {item : Item} (hitem : items[i]? = some item) : item.line = i + 1 := by
  -- the item was read from the line in its place
  have hread : (((textLines source.toList).zipIdx 1).map
      fun (text, line) => Item.parse line text)[i]? = some (.ok item) := by
    rw [h, List.getElem?_map, hitem]
    rfl
  rw [List.getElem?_map, List.getElem?_zipIdx, Option.map_map] at hread
  obtain ⟨text, -, hparse⟩ := Option.map_eq_some_iff.mp hread
  exact (Item.line_of_parse hparse).trans (Nat.add_comm 1 i)

/-! ### What lines have to satisfy -/

/-- What the lines of a program have to satisfy. -/
structure WellFormed (items : List Item) : Prop where
  /-- No two lines define the same label. -/
  labels_nodup : (labelDefs items).Nodup
  /-- A line that defines a label lies in front of the end of memory. -/
  placed : ∀ i item, items[i]? = some item → item.label.isSome → addressOf items i < memorySize
  /-- All words fit in memory. -/
  fits : totalSize items ≤ memorySize
  /-- Every label that is used is defined, in front of its use or behind it. -/
  resolved : ∀ item ∈ items, ∀ name ∈ item.references, name ∈ labelDefs items

variable {items : List Item} {name : String}

theorem WellFormed.lt_memorySize (h : WellFormed items) {n : Nat} (hn : DefinesAt items name n) :
    n < memorySize := by
  obtain ⟨i, item, hitem, hlabel, rfl⟩ := hn
  exact h.placed i item hitem (by rw [hlabel]; rfl)

/-- The first pass finds no errors exactly in lines that define their labels well and fit. -/
theorem issues_ofItems_eq_empty_iff :
    (Layout.ofItems items).issues = #[] ↔
      (labelDefs items).Nodup ∧ (∀ name n, DefinesAt items name n → n < memorySize) ∧
        totalSize items ≤ memorySize := by
  rw [← Array.toList_eq_nil_iff, Layout.issues_ofItems, List.append_eq_nil_iff,
    layoutIssues_eq_nil_iff, and_assoc]
  by_cases h : memorySize < totalSize items
  · simp [h, Nat.not_le.mpr h]
  · simp [h, Nat.not_lt.mp h]

section Labels

variable (hnodup : (labelDefs items).Nodup)
  (hplaced : ∀ name n, DefinesAt items name n → n < memorySize)

include hnodup hplaced

/-- Without errors, the first pass gives each label the address of the line that defines it. -/
theorem labels_ofItems_eq_some_iff {a : Address} :
    (Layout.ofItems items).labels[name]? = some a ↔ DefinesAt items name a.toNat := by
  rw [Layout.labels_ofItems]
  constructor
  · exact Layout.exists_of_labels_after
  · intro h
    -- the label has some address, and lines that define it once leave no choice
    obtain ⟨b, hb⟩ := Option.isSome_iff_exists.mp
      (Layout.labels_after_of_definesAt h (hplaced name _ h))
    have heq : b.toNat = a.toNat := (Layout.exists_of_labels_after hb).unique hnodup h
    rw [hb, UInt16.toNat_inj.mp heq]

theorem isSome_labels_ofItems_iff :
    ((Layout.ofItems items).labels[name]?).isSome ↔ name ∈ labelDefs items := by
  rw [mem_labelDefs_iff, Option.isSome_iff_exists]
  constructor
  · rintro ⟨a, ha⟩
    exact ⟨_, (labels_ofItems_eq_some_iff hnodup hplaced).mp ha⟩
  · rintro ⟨n, hn⟩
    refine ⟨.ofNat n, (labels_ofItems_eq_some_iff hnodup hplaced).mpr ?_⟩
    rwa [toNat_ofNat_of_lt_memorySize (hplaced name n hn)]

end Labels

/-- **Both passes find no errors exactly in well-formed lines.** -/
theorem wellFormed_iff :
    WellFormed items ↔
      (Layout.ofItems items).issues = #[] ∧
        ∀ item ∈ items, item.references.findSome?
          (undefined? ((Layout.ofItems items).labels[·]?)) = none := by
  rw [issues_ofItems_eq_empty_iff]
  simp only [List.findSome?_eq_none_iff, undefined?_eq_none_iff]
  constructor
  · intro h
    have hplaced : ∀ name n, DefinesAt items name n → n < memorySize := fun _ _ => h.lt_memorySize
    refine ⟨⟨h.labels_nodup, hplaced, h.fits⟩, fun item hitem name hname => ?_⟩
    rw [isSome_labels_ofItems_iff h.labels_nodup hplaced]
    exact h.resolved item hitem name hname
  · rintro ⟨⟨hnodup, hplaced, hfits⟩, hresolved⟩
    refine ⟨hnodup, fun i item hitem hlabel => ?_, hfits, fun item hitem name hname => ?_⟩
    · obtain ⟨name, hname⟩ := Option.isSome_iff_exists.mp hlabel
      exact hplaced name _ ⟨i, item, hitem, hname, rfl⟩
    · rw [← isSome_labels_ofItems_iff hnodup hplaced]
      exact hresolved item hitem name hname

/-! ### Words -/

/-- The words of a line stand where the sizes of the lines before it end. -/
theorem take_drop_flatMap_image (address : String → Address) {i : Nat} {item : Item}
    (h : items[i]? = some item) :
    ((items.flatMap (Item.image address)).drop (addressOf items i)).take item.size
      = item.image address := by
  obtain ⟨before, rest, hsplit, hbefore⟩ :=
    exists_flatMap_eq_append (Item.length_image address) h
  rw [hsplit, List.drop_left' hbefore, List.take_left' (Item.length_image address item)]

theorem length_flatMap_image (address : String → Address) (items : List Item) :
    (items.flatMap (Item.image address)).length = totalSize items :=
  length_flatMap_of_size (Item.length_image address) items

namespace Program

/-- The address of a label of the program, or 0 for a name that is none. -/
def address (p : Program) (name : String) : Address := (p.label? name).getD 0

/-- The program that lines stand for. -/
structure IsImage (p : Program) (items : List Item) : Prop where
  /-- The words are those of the lines, one after the other. -/
  words_eq : p.words = items.flatMap (Item.image p.address)
  /-- The words of a line begin at its address. -/
  words_at : ∀ i item, items[i]? = some item →
    (p.words.drop (addressOf items i)).take item.size = item.image p.address
  /-- Every label that is used has an address. -/
  isSome_label? : ∀ item ∈ items, ∀ name ∈ item.references, (p.label? name).isSome
  /-- The address of a label is that of the line that defines it. -/
  label?_eq_some_iff : ∀ name a, p.label? name = some a ↔
    ∃ i item, items[i]? = some item ∧ item.label = some name ∧ addressOf items i = a.toNat
  length_words : p.words.length = totalSize items
  length_words_le : p.words.length ≤ memorySize

/-- The words of a line with the labels of the first pass, each with the number of the line. -/
def linked (layout : Layout) (item : Item) : List (Word × Nat) :=
  (item.image fun name => layout.labels[name]?.getD 0).map (·, item.line)

/-- Emission of all lines gives words if every label used has an address. -/
theorem gather_emit_eq_ok_iff {layout : Layout} {items : List Item}
    {emitted : List (List (Word × Nat))} :
    gather (items.map fun item => (item.line, emit layout.labels item)) = .ok emitted ↔
      (∀ item ∈ items,
        item.references.findSome? (undefined? (layout.labels[·]?)) = none) ∧
      items.map (linked layout) = emitted := by
  rw [gather_eq_ok_iff, List.map_map, ← map_verdict_eq_map_ok_iff]
  simp only [Function.comp_def, emit_eq_verdict]
  rfl

/-- A source assembles if its lines read and both passes find no error; the words are emitted
with the labels of the first pass. -/
theorem ofSource_eq_ok_iff {source : String} {p : Program} :
    ofSource source = .ok p ↔
      ∃ items, Reads source items ∧ WellFormed items ∧
        p = ofEmitted (Layout.ofItems items).labels
          (items.flatMap (linked (Layout.ofItems items))) := by
  unfold ofSource
  rw [bind_eq_ok_iff]
  refine exists_congr fun items => ?_
  rw [readItems_eq_ok_iff, wellFormed_iff]
  refine and_congr_right fun _ => ?_
  -- the second pass begins only if the first one has found nothing
  by_cases hissues : (Layout.ofItems items).issues = #[]
  · simp only [hissues, Array.isEmpty_empty, if_true, bind_eq_ok_iff, gather_emit_eq_ok_iff,
      true_and]
    constructor
    · rintro ⟨_, ⟨hresolved, rfl⟩, hp⟩
      exact ⟨hresolved, (Except.ok.inj hp).symm⟩
    · rintro ⟨hresolved, rfl⟩
      exact ⟨_, ⟨hresolved, rfl⟩, rfl⟩
  · simp [hissues]

/-- The labels of the first pass and the words of the second are the program of the lines. -/
theorem isImage_ofEmitted {items : List Item} (h : WellFormed items) :
    (ofEmitted (Layout.ofItems items).labels
      (items.flatMap (linked (Layout.ofItems items)))).IsImage items := by
  set p := ofEmitted (Layout.ofItems items).labels
    (items.flatMap (linked (Layout.ofItems items))) with hp
  have hwords : p.words = items.flatMap (Item.image p.address) := by
    -- without their marks, the words are those of the lines with the labels of the first pass
    have hline : ∀ item, (linked (Layout.ofItems items) item).map (·.1)
        = item.image p.address := by
      intro item
      rw [linked, List.map_map]
      exact List.map_id _
    calc p.words
        = items.flatMap fun item => (linked (Layout.ofItems items) item).map (·.1) :=
          List.map_flatMap
      _ = items.flatMap (Item.image p.address) := by simp only [hline]
  have hlength : p.words.length = totalSize items := by rw [hwords, length_flatMap_image]
  refine ⟨hwords, fun i item hitem => ?_, fun item hitem name hname => ?_, fun name a => ?_,
    hlength, ?_⟩
  · rw [hwords]
    exact take_drop_flatMap_image p.address hitem
  · exact (isSome_labels_ofItems_iff h.labels_nodup fun _ _ => h.lt_memorySize).mpr
      (h.resolved item hitem name hname)
  · exact labels_ofItems_eq_some_iff h.labels_nodup fun _ _ => h.lt_memorySize
  · rw [hlength]
    exact h.fits

/-- What the assembler gives for a source that assembles, whatever its module is called. -/
theorem assemble_of_ofSource {source : String} {p : Program} (h : ofSource source = .ok p)
    (wording : SyntaxWording) (moduleName : String) :
    assemble wording moduleName source = { objectCode := p.words, lineMap := p.lineMap } := by
  rw [assemble, h]

/-- A source that assembles always runs, since its words fit in memory. -/
theorem exists_timeline_of_ofSource {source : String} {p : Program} (h : ofSource source = .ok p)
    (hfits : p.words.length ≤ memorySize) {σ φ : Type} [ToString φ] (engine : Engine σ φ)
    (wording : SyntaxWording) (config : Config) (cancel : CancelSignal σ) (moduleName : String)
    (s : σ) :
    ∃ t, (runProgram ⟨engine, assemble wording⟩ config cancel moduleName source s).1 = .ok t := by
  have hassemble := assemble_of_ofSource h wording moduleName
  -- nothing can go wrong in loading: the words fit
  have hload : (engine.reset s).2.load? (assemble wording moduleName source).objectCode
      = some { (engine.reset s).2 with memory := (engine.reset s).2.memory.load p.words } := by
    rw [hassemble]
    exact if_pos hfits
  have herrors : (assemble wording moduleName source).errorCount = 0 := by rw [hassemble]
  have hrun : ∃ t s', runProgram ⟨engine, assemble wording⟩ config cancel moduleName source s
      = (.ok t, s') :=
    ⟨_, _, runProgram_eq_ok_iff.mpr ⟨herrors, _, hload, rfl, rfl⟩⟩
  obtain ⟨t, s', hrun⟩ := hrun
  exact ⟨t, congrArg Prod.fst hrun⟩

/-- **Two passes assemble a program.**  A source text assembles exactly if its lines read, and are
well-formed.  The program is then the one that the lines stand for, and a run of the source, on
whichever engine, always gives a timeline: the object code fits. -/
theorem ofSource_two_passes (source : String) :
    ((∃ p, ofSource source = .ok p) ↔ ∃ items, Reads source items ∧ WellFormed items) ∧
      ∀ items p, Reads source items → ofSource source = .ok p →
        p.IsImage items ∧
          ∀ (σ φ : Type) [ToString φ] (engine : Engine σ φ) (wording : SyntaxWording)
            (config : Config) (cancel : CancelSignal σ) (moduleName : String) (s : σ),
            ∃ t, (runProgram ⟨engine, assemble wording⟩ config cancel moduleName source s).1
              = .ok t := by
  constructor
  · constructor
    · rintro ⟨p, h⟩
      obtain ⟨items, hreads, hwf, -⟩ := ofSource_eq_ok_iff.mp h
      exact ⟨items, hreads, hwf⟩
    · rintro ⟨items, hreads, hwf⟩
      exact ⟨_, ofSource_eq_ok_iff.mpr ⟨items, hreads, hwf, rfl⟩⟩
  · intro items p hreads h
    obtain ⟨items', hreads', hwf, hp⟩ := ofSource_eq_ok_iff.mp h
    obtain rfl := hreads.unique hreads'
    have himage : p.IsImage items := hp ▸ isImage_ofEmitted hwf
    refine ⟨himage, fun σ φ _ engine => ?_⟩
    exact exists_timeline_of_ofSource h himage.length_words_le engine

/-- A jump to the last line and data that refer to their own line and to the last one. -/
def forwardSource : String := "jump end[R0]\nx: data x,end,7\nend:\ntrap R0,R0,R0"

/-- The labels are known in front of their lines, and a line with only a label takes no words. -/
theorem ofSource_two_passes_forward :
    ∃ items p, Reads forwardSource items ∧ ofSource forwardSource = .ok p ∧ p.IsImage items ∧
      p.words = [0xf003, 5, 2, 5, 7, 0xd000] ∧ p.label? "end" = some 5 ∧
      ∃ t, (runProgram (machineTools plainWording) ⟨10, .full⟩ .never "main" forwardSource
        (.ofInput [])).1 = .ok t := by
  obtain ⟨hassembles, himage⟩ := ofSource_two_passes forwardSource
  have hresult : (ofSource forwardSource).toOption.map (fun p => (p.words, p.label? "end"))
      = some ([0xf003, 5, 2, 5, 7, 0xd000], some 5) := by decide +kernel
  cases hp : ofSource forwardSource with
  | error issues =>
    rw [hp] at hresult
    cases hresult
  | ok p =>
    rw [hp] at hresult
    obtain ⟨hwords, hend⟩ := Prod.mk.inj (Option.some.inj hresult)
    obtain ⟨items, hreads, -⟩ := hassembles.mp ⟨p, hp⟩
    obtain ⟨hprogram, hruns⟩ := himage items p hreads hp
    exact ⟨items, p, hreads, rfl, hprogram, hwords, hend, hruns _ _ _ _ _ _ _ _⟩

end Program

end Hindsight
