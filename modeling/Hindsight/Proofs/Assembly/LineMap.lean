import Hindsight.Proofs.Assembly.TwoPasses
import Hindsight.Proofs.Emulator.FastScan
import Hindsight.Proofs.Timeline.Minimality

/-!
# The line map

An assembled program knows of each of its words the source line that emitted it.  The addresses
of the words are all different, also when they fill memory up to its end, so that no entry of the
map replaces another one.  A timeline keeps the map, and finds the line of a step by the address
that the step was fetched from.  This is the program counter of the machine at the step before,
and nothing is asked about how it got there: a jump into the middle of a line, data that are
executed and code that was overwritten are looked up like everything else.

## Main definitions

* `Program.Emits` — a line has emitted the word at an address.
* `Program.MapsLines` — the line map of a program is the one of its lines.
* `Timeline.FollowsLines` — so are the lines of the steps of a timeline.

## Main results

* `Program.find?_lineMap_ofEmitted` — what the map says about an address.
* `Program.mapsLines_ofEmitted` — the map of an assembled program.
* `Timeline.IsMinimal.sourceLine?_succ` — where a timeline looks the line of a step up.
* `Program.lineMap_ofSource` — **the line map is exact, and so are the lines of a timeline.**
-/

namespace Hindsight

/-! ### The words of the lines, one after the other -/

/-- A line's words are found behind its address. -/
theorem getElem?_flatMap_of_size {β : Type} {f : Item → List β}
    (hsize : ∀ item, (f item).length = item.size) {items : List Item} {i j : Nat} {item : Item}
    (h : items[i]? = some item) (hj : j < item.size) :
    (items.flatMap f)[addressOf items i + j]? = (f item)[j]? := by
  obtain ⟨before, rest, hsplit, hbefore⟩ := exists_flatMap_eq_append hsize h
  rw [hsplit, List.getElem?_append_right (by omega), hbefore, Nat.add_sub_cancel_left,
    List.getElem?_append_left (by rw [hsize]; exact hj)]

namespace Program

/-! ### The map of emitted words -/

section Emitted

variable {labels : Labels} {emitted : List (Word × Nat)}

/-- The entries of the line map are the words' lines in address order, one for each word. -/
theorem entries_lineMap_ofEmitted (h : emitted.length ≤ memorySize) :
    (ofEmitted labels emitted).lineMap.entries
      = emitted.zipIdx.map fun e => (.ofNat e.2, e.1.2) := by
  refine SortedMap.entries_ofEntries (List.pairwise_map.mpr ?_)
  refine List.pairwise_iff_getElem.mpr fun i j hi hj hij => ?_
  rw [List.length_zipIdx] at hi hj
  rw [List.getElem_zipIdx, List.getElem_zipIdx, UInt16.lt_iff_toNat_lt,
    toNat_ofNat_of_lt_memorySize (by omega), toNat_ofNat_of_lt_memorySize (by omega)]
  omega

/-- No address is left out, none lies behind the last word, and none wraps around. -/
theorem keys_lineMap_ofEmitted (h : emitted.length ≤ memorySize) :
    (ofEmitted labels emitted).lineMap.keys.map UInt16.toNat = List.range emitted.length := by
  have hkey : ∀ e ∈ emitted.zipIdx, (UInt16.ofNat e.2).toNat = e.2 := by
    intro e he
    have hlt : e.2 < emitted.length := List.snd_lt_of_mem_zipIdx he
    exact toNat_ofNat_of_lt_memorySize (by omega)
  rw [SortedMap.keys, entries_lineMap_ofEmitted h, List.map_map, List.map_map]
  calc emitted.zipIdx.map (fun e => (UInt16.ofNat e.2).toNat)
      = emitted.zipIdx.map Prod.snd := List.map_congr_left hkey
    _ = List.range emitted.length := by rw [List.zipIdx_map_snd, List.range_eq_range']

/-- **What the line map says about an address**: the line of the word there, if there is one. -/
theorem find?_lineMap_ofEmitted (h : emitted.length ≤ memorySize) (a : Address) :
    (ofEmitted labels emitted).lineMap.find? a = emitted[a.toNat]?.map (·.2) := by
  refine Option.ext fun line => ?_
  rw [← SortedMap.mem_entries_iff, entries_lineMap_ofEmitted h, List.mem_map,
    Option.map_eq_some_iff]
  constructor
  · rintro ⟨⟨x, n⟩, hmem, heq⟩
    obtain ⟨rfl, rfl⟩ := Prod.mk.inj heq
    have hget : emitted[n]? = some x := List.mem_zipIdx_iff_getElem?.mp hmem
    have hlt : n < emitted.length := List.snd_lt_of_mem_zipIdx hmem
    rw [toNat_ofNat_of_lt_memorySize (by omega)]
    exact ⟨x, hget, rfl⟩
  · rintro ⟨x, hget, rfl⟩
    exact ⟨(x, a.toNat), List.mem_zipIdx_iff_getElem?.mpr hget,
      Prod.ext UInt16.ofNat_toNat rfl⟩

end Emitted

/-! ### The map of lines -/

/-- Line `line`, counted from 1, has emitted the word at an address, as the one at some place
among the words of its statement. -/
def Emits (p : Program) (items : List Item) (line : Nat) (a : Address) : Prop :=
  ∃ i item j, items[i]? = some item ∧ line = i + 1 ∧ j < item.size ∧
    a.toNat = addressOf items i + j ∧ p.words[a.toNat]? = (item.image p.address)[j]?

/-- The line map of a program is that of its lines. -/
structure MapsLines (p : Program) (items : List Item) : Prop where
  /-- The keys are the addresses of the words, each of them once and in order. -/
  keys_eq : p.lineMap.keys.map UInt16.toNat = List.range p.words.length
  /-- Every address is mapped to the line that emitted its word. -/
  find?_eq_some_iff : ∀ a line, p.lineMap.find? a = some line ↔ p.Emits items line a
  /-- An address without a word is not mapped. -/
  find?_eq_none_iff : ∀ a, p.lineMap.find? a = none ↔ p.words.length ≤ a.toNat
  /-- Later words come from later lines, or from the same one. -/
  monotone : ∀ a b i j, a ≤ b → p.lineMap.find? a = some i → p.lineMap.find? b = some j → i ≤ j
  /-- To a line without words nothing is mapped. -/
  ne_of_wordless : ∀ i item, items[i]? = some item → item.size = 0 →
    ∀ a, p.lineMap.find? a ≠ some (i + 1)

variable {p : Program} {items : List Item} {source : String}

/-- The words of earlier lines stand in front of those of later ones. -/
theorem Emits.line_le {a b : Address} {m n : Nat} (ha : p.Emits items m a)
    (hb : p.Emits items n b) (hab : a ≤ b) : m ≤ n := by
  obtain ⟨i, x, k, hx, rfl, -, haddr, -⟩ := ha
  obtain ⟨j, y, l, hy, rfl, hl, haddr', -⟩ := hb
  rw [UInt16.le_iff_toNat_le] at hab
  refine Nat.succ_le_succ (Nat.not_lt.mp fun hlt => ?_)
  -- the words of line `j` all lie in front of line `i`
  have hend : addressOf items (j + 1) ≤ addressOf items i := addressOf_mono items hlt
  rw [addressOf_succ hy] at hend
  omega

/-- The marks of a line stand beside its words. -/
theorem length_linked (layout : Layout) (item : Item) :
    (linked layout item).length = item.size := by
  rw [linked, List.length_map, Item.length_image]

theorem length_flatMap_linked (layout : Layout) (items : List Item) :
    (items.flatMap (linked layout)).length = totalSize items :=
  length_flatMap_of_size (length_linked layout) items

/-- The words of a line are mapped to its number, whatever the labels are. -/
theorem find?_lineMap_of_line (hreads : Reads source items) (hfits : totalSize items ≤ memorySize)
    (layout : Layout) {i j : Nat} {item : Item} (hitem : items[i]? = some item)
    (hj : j < item.size) {a : Address} (ha : a.toNat = addressOf items i + j) :
    (ofEmitted layout.labels (items.flatMap (linked layout))).lineMap.find? a = some (i + 1) := by
  have hword : j < (item.image fun name => layout.labels[name]?.getD 0).length := by
    rw [Item.length_image]
    exact hj
  rw [find?_lineMap_ofEmitted (by rw [length_flatMap_linked]; exact hfits), ha,
    getElem?_flatMap_of_size (length_linked layout) hitem hj, linked, List.getElem?_map,
    List.getElem?_eq_getElem hword, ← hreads.line_eq hitem]
  rfl

/-- Nothing else is mapped. -/
theorem exists_line_of_find?_lineMap (hreads : Reads source items)
    (hfits : totalSize items ≤ memorySize) (layout : Layout) {a : Address} {line : Nat}
    (h : (ofEmitted layout.labels (items.flatMap (linked layout))).lineMap.find? a = some line) :
    ∃ i item j, items[i]? = some item ∧ line = i + 1 ∧ j < item.size ∧
      a.toNat = addressOf items i + j := by
  have hlt : a.toNat < totalSize items := by
    rw [find?_lineMap_ofEmitted (by rw [length_flatMap_linked]; exact hfits)] at h
    obtain ⟨x, hx, -⟩ := Option.map_eq_some_iff.mp h
    exact length_flatMap_linked layout items ▸ (List.getElem?_eq_some_iff.mp hx).1
  obtain ⟨i, item, j, hitem, hj, ha⟩ := exists_line_of_lt_totalSize hlt
  have hline := find?_lineMap_of_line hreads hfits layout hitem hj ha
  exact ⟨i, item, j, hitem, Option.some.inj (h.symm.trans hline), hj, ha⟩

/-- **The line map of an assembled program is that of its lines.** -/
theorem mapsLines_ofEmitted (hreads : Reads source items) (hwf : WellFormed items) :
    (ofEmitted (Layout.ofItems items).labels
      (items.flatMap (linked (Layout.ofItems items)))).MapsLines items := by
  have himage := isImage_ofEmitted hwf
  set emitted := items.flatMap (linked (Layout.ofItems items)) with hemitted
  set p := ofEmitted (Layout.ofItems items).labels emitted with hp
  have hlength : emitted.length = totalSize items := length_flatMap_linked _ items
  have hfits : emitted.length ≤ memorySize := hlength ▸ hwf.fits
  -- the map knows the words of the lines and nothing else; all the rest follows from that
  have hfind : ∀ a line, p.lineMap.find? a = some line ↔ p.Emits items line a := by
    intro a line
    constructor
    · intro h
      obtain ⟨i, item, j, hitem, rfl, hj, ha⟩ :=
        exists_line_of_find?_lineMap hreads hwf.fits _ h
      refine ⟨i, item, j, hitem, rfl, hj, ha, ?_⟩
      rw [himage.words_eq, ha]
      exact getElem?_flatMap_of_size (Item.length_image p.address) hitem hj
    · rintro ⟨i, item, j, hitem, rfl, hj, ha, -⟩
      exact find?_lineMap_of_line hreads hwf.fits _ hitem hj ha
  refine ⟨?_, hfind, fun a => ?_, fun a b i j hab ha hb => ?_, fun i item hitem hsize a ha => ?_⟩
  · rw [himage.length_words, ← hlength]
    exact keys_lineMap_ofEmitted hfits
  · rw [find?_lineMap_ofEmitted hfits, Option.map_eq_none_iff, List.getElem?_eq_none_iff,
      himage.length_words, hlength]
  · have hi : p.Emits items i a := (hfind a i).mp ha
    have hj : p.Emits items j b := (hfind b j).mp hb
    exact hi.line_le hj hab
  · -- a word has a line that emits some
    obtain ⟨k, x, j, hx, hk, hj, -⟩ := (hfind a (i + 1)).mp ha
    obtain rfl : i = k := by omega
    obtain rfl : item = x := Option.some.inj (hitem.symm.trans hx)
    omega

end Program

/-! ### The lines of a timeline -/

namespace Timeline

variable {t : Timeline}

/-- A timeline looks the line of a step up at the program counter of the machine before it. -/
theorem IsMinimal.sourceLine?_succ (h : t.IsMinimal) {k : Nat} (hk : k < t.totalSteps) :
    ∃ before, t.stateAt k = .ok before ∧ t.sourceLine? (k + 1) = t.lineMap.find? before.pc := by
  obtain ⟨d, before, after, hd, hbefore, -, hdiff⟩ := h.isDifference k hk
  refine ⟨before, hbefore, ?_⟩
  rw [sourceLine?, deltaInto?_succ, hd, Option.bind_some, hdiff.origin_eq]

/-- A step that does not exist has no line. -/
theorem sourceLine?_of_lt {k : Nat} (h : t.totalSteps < k) : t.sourceLine? k = none := by
  obtain ⟨k, rfl⟩ : ∃ n, k = n + 1 := ⟨k - 1, by omega⟩
  have hnone : t.deltas[k]? = none := List.getElem?_eq_none (Nat.lt_succ_iff.mp h)
  rw [sourceLine?, deltaInto?_succ, hnone, Option.bind_none]

/-- The lines of a timeline are those of the program that it was recorded from. -/
structure FollowsLines (t : Timeline) (p : Program) (items : List Item) : Prop where
  lineMap_eq : t.lineMap = p.lineMap
  /-- Nothing was executed to reach the start. -/
  sourceLine?_start : t.sourceLine? 0 = none
  sourceLine?_beyond : ∀ k, t.totalSteps < k → t.sourceLine? k = none
  /-- A step executes the instruction at the program counter of the machine before it.  Its line
  is the one that emitted the word there, and it has none if there is no such word. -/
  sourceLine?_step : ∀ k < t.totalSteps, ∃ before instruction, t.stateAt k = .ok before ∧
    Instruction.fetch? before before.pc = some instruction ∧
    (∀ line, t.sourceLine? (k + 1) = some line ↔ p.Emits items line before.pc) ∧
    (t.sourceLine? (k + 1) = none ↔ p.words.length ≤ before.pc.toNat)

end Timeline

/-- A recorded step of the emulator is one for which there was an instruction to fetch. -/
theorem Emulator.exists_fetch?_of_lt_totalSteps {config : Config} {cancel : CancelSignal Emulator}
    {e : Emulator} {initial : Machine} {k : Nat}
    (hk : k < (record engine config cancel e initial).1.totalSteps) :
    ∃ before i, (record engine config cancel e initial).1.stateAt k = .ok before ∧
      Instruction.fetch? before before.pc = some i := by
  obtain ⟨access, hreport⟩ := exists_report_of_lt_totalSteps hk
  obtain ⟨i, -, hfetch, -⟩ := step_eq_ok_iff.mp (step_of_reportAfter hreport)
  exact ⟨_, i, stateAt_record_of_reportsStores reportsStores_engine (Nat.le_of_lt hk), hfetch⟩

namespace Program

/-- The timelines of a program follow its lines. -/
theorem MapsLines.followsLines {p : Program} {items : List Item} (hmaps : p.MapsLines items)
    {output : AssemblyOutput} (houtput : output.lineMap = p.lineMap) (config : Config)
    (cancel : CancelSignal Emulator) (e : Emulator) (initial : Machine) :
    ((record Emulator.engine config cancel e initial).1.annotated output).FollowsLines p items := by
  have hmap : ((record Emulator.engine config cancel e initial).1.annotated output).lineMap
      = p.lineMap := houtput
  refine ⟨hmap, rfl, fun k => Timeline.sourceLine?_of_lt, fun k hk => ?_⟩
  have hminimal := (isMinimal_record Emulator.engine config cancel e initial).annotated output
  obtain ⟨before, hbefore, hline⟩ := hminimal.sourceLine?_succ hk
  obtain ⟨before', i, hbefore', hfetch⟩ := Emulator.exists_fetch?_of_lt_totalSteps hk
  obtain rfl : before = before' := Except.ok.inj (hbefore.symm.trans hbefore')
  refine ⟨before, i, hbefore, hfetch, fun line => ?_, ?_⟩
  · rw [hline, hmap]
    exact hmaps.find?_eq_some_iff before.pc line
  · rw [hline, hmap]
    exact hmaps.find?_eq_none_iff before.pc

/-- **The line map is exact, and so are the lines of a timeline.**  If a source assembles, the
keys of its line map are the addresses of the object code, and each of them is mapped to the line
that emitted its word.  A timeline that the emulator records from the source, with any input, cap
and cancel flag, has the line that emitted the word at the program counter for every step, and
none for a step that was fetched from outside the object code. -/
theorem lineMap_ofSource {source : String} {p : Program} (h : ofSource source = .ok p) :
    ∃ items, Reads source items ∧ p.MapsLines items ∧
      ∀ (wording : SyntaxWording) (config : Config) (cancel : CancelSignal Emulator)
        (moduleName : String) (e : Emulator) t,
        (runProgram (machineTools wording) config cancel moduleName source e).1 = .ok t →
          t.FollowsLines p items := by
  obtain ⟨items, hreads, hwf, rfl⟩ := ofSource_eq_ok_iff.mp h
  have hmaps := mapsLines_ofEmitted hreads hwf
  refine ⟨items, hreads, hmaps, fun wording config cancel moduleName e t ht => ?_⟩
  obtain ⟨-, initial, -, rfl, -⟩ := runProgram_eq_ok_iff.mp (Prod.ext ht rfl)
  refine hmaps.followsLines ?_ config cancel _ initial
  show (assemble wording moduleName source).lineMap = _
  rw [assemble, h]

/-- A program that jumps into the middle of a line of data, and from there to an instruction that
it has stored behind its last word. -/
def strayingSource : String :=
  "lea R1,$d000\nstore R1,100\n; on\njump 7\ndata 1,$f003,100"

/-- The jump into line 5 is found there, and the stored instruction nowhere. -/
theorem lineMap_ofSource_straying :
    ∃ p items t, ofSource strayingSource = .ok p ∧ Reads strayingSource items ∧
      p.MapsLines items ∧
      (runProgram (machineTools plainWording) ⟨10, .writeSet⟩ .never "main" strayingSource
        (.ofInput [])).1 = .ok t ∧
      t.FollowsLines p items ∧
      (List.range 7).map t.sourceLine?
        = [none, some 1, some 2, some 4, some 5, none, none] := by
  have hlines : (runProgram (machineTools plainWording) ⟨10, .writeSet⟩ .never "main" strayingSource
      (.ofInput [])).1.toOption.map (fun t => (List.range 7).map t.sourceLine?)
        = some [none, some 1, some 2, some 4, some 5, none, none] := by
    decide +kernel
  -- what the run shows is evaluated; that there is a program to run follows from it
  cases hp : ofSource strayingSource with
  | error issues =>
    have hok : (ofSource strayingSource).toOption.isSome = true := by decide +kernel
    rw [hp] at hok
    cases hok
  | ok p =>
    obtain ⟨items, hreads, hmaps, hfollows⟩ := lineMap_ofSource hp
    cases ht : (runProgram (machineTools plainWording) ⟨10, .writeSet⟩ .never "main" strayingSource
        (.ofInput [])).1 with
    | error e =>
      rw [ht] at hlines
      cases hlines
    | ok t =>
      rw [ht] at hlines
      exact ⟨p, items, t, rfl, hreads, hmaps, rfl, hfollows _ _ _ _ _ t ht,
        Option.some.inj hlines⟩

end Program

end Hindsight
