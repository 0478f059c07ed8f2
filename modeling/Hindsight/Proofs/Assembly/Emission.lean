import Hindsight.Proofs.Assembly.Results

/-!
# The words of a line

What a statement emits when every label has an address, said without a possibility to fail, and
the labels for which that has to be so.  Emission is the verdict of the two: the first label
without an address, or else the words.

## Main definitions

* `Statement.references`, `Item.references` — the labels that are used.
* `Statement.image`, `Item.image` — the words, when all labels have addresses.

## Main results

* `Statement.words_eq_verdict`, `Program.emit_eq_verdict` — emission is their verdict.
* `Item.length_image` — a line emits as many words as its size says.
-/

namespace Hindsight

/-! ### Values -/

namespace Value

/-- The label that a value refers to. -/
def reference? : Value → Option String
  | literal _ => none
  | label name => some name

/-- The word of a value, when labels have addresses. -/
def word (address : String → Address) : Value → Word
  | literal word => word
  | label name => address name

end Value

/-! ### Statements -/

/-- The error about a label without an address. -/
def undefined? (address : String → Option Address) (name : String) : Option SourceError :=
  if (address name).isSome then none else some (.undefinedLabel name)

theorem undefined?_eq_none_iff {address : String → Option Address} {name : String} :
    undefined? address name = none ↔ (address name).isSome := by
  unfold undefined?
  split <;> simp_all

theorem undefined?_eq_some_iff {address : String → Option Address} {name : String}
    {error : SourceError} :
    undefined? address name = some error ↔
      ¬ (address name).isSome ∧ error = .undefinedLabel name := by
  unfold undefined?
  by_cases h : (address name).isSome
  · rw [if_pos h]
    constructor
    · intro heq
      cases heq
    · rintro ⟨hnone, -⟩
      exact absurd h hnone
  · rw [if_neg h, Option.some.injEq]
    exact ⟨fun heq => ⟨h, heq.symm⟩, fun hfault => hfault.2.symm⟩

namespace Statement

/-- The labels that a statement uses, in operand order. -/
def references : Statement → List String
  | register .. => []
  | memory _ _ disp _ => disp.reference?.toList
  | data values => values.filterMap Value.reference?

/-- The words of a statement, when labels have addresses: the encoded instruction with its
displacement, or the data. -/
def image (address : String → Address) : Statement → List Word
  | register op d a b => (Instruction.register op (regField d) (regField a) (regField b)).encode
  | memory op d disp index =>
    (Instruction.memory op (regField d) (regField index) (disp.word address)).encode
  | data values => values.map (Value.word address)

/-- There are as many words as the size says, whatever the addresses are. -/
theorem length_image (address : String → Address) (s : Statement) :
    (s.image address).length = s.size := by
  cases s with
  | register op d a b =>
    exact Instruction.length_encode (.register op (regField d) (regField a) (regField b))
  | memory op d disp index =>
    exact Instruction.length_encode
      (.memory op (regField d) (regField index) (disp.word address))
  | data values => exact List.length_map _

variable (address : String → Option Address)

theorem resolve_eq_verdict (v : Value) :
    resolve address v
      = verdict (v.reference?.bind (undefined? address))
          (v.word fun name => (address name).getD 0) := by
  cases v with
  | literal word => rfl
  | label name =>
    simp only [resolve, Value.reference?, Value.word, Option.bind_some, undefined?]
    cases address name <;> rfl

/-- **Emission is a verdict**: the first label without an address, or the words. -/
theorem words_eq_verdict (s : Statement) :
    s.words address
      = verdict (s.references.findSome? (undefined? address))
          (s.image fun name => (address name).getD 0) := by
  cases s with
  | register op d a b => rfl
  | memory op d disp index =>
    simp only [words, references, image, resolve_eq_verdict]
    cases disp with
    | literal word => rfl
    | label name =>
      simp only [Value.reference?, Option.bind_some, Option.toList_some, List.findSome?_cons,
        List.findSome?_nil]
      cases undefined? address name <;> rfl
  | data values =>
    -- the first label without an address belongs to the first value that does not resolve
    rw [references, ← List.head?_filterMap, List.filterMap_filterMap, List.head?_filterMap]
    exact mapM_eq_verdict fun v _ => resolve_eq_verdict address v

end Statement

/-! ### Lines -/

namespace Item

/-- The labels that a line uses. -/
def references (item : Item) : List String := item.statement.elim [] Statement.references

/-- The words of a line, when labels have addresses. -/
def image (address : String → Address) (item : Item) : List Word :=
  item.statement.elim [] (Statement.image address)

theorem length_image (address : String → Address) (item : Item) :
    (item.image address).length = item.size := by
  unfold image size
  cases item.statement with
  | none => rfl
  | some s => exact s.length_image address

end Item

/-- Emission of a line marks each word with the line. -/
theorem Program.emit_eq_verdict (labels : Labels) (item : Item) :
    emit labels item
      = verdict (item.references.findSome? (undefined? (labels[·]?)))
          ((item.image fun name => labels[name]?.getD 0).map (·, item.line)) := by
  unfold emit Item.references Item.image
  cases item.statement with
  | none => rfl
  | some s =>
    simp only [Option.elim_some, Statement.words_eq_verdict]
    exact map_verdict _ _ (List.map (·, item.line))

/-- Emission of a line fails at the first label without an address. -/
theorem Program.emit_eq_error_iff {labels : Labels} {item : Item} {error : SourceError} :
    emit labels item = .error error ↔
      ∃ before name rest, item.references = before ++ name :: rest ∧
        (¬ (labels[name]?).isSome ∧ error = .undefinedLabel name) ∧
          ∀ other ∈ before, (labels[other]?).isSome := by
  simp only [emit_eq_verdict, verdict_eq_error_iff, List.findSome?_eq_some_iff,
    undefined?_eq_some_iff, undefined?_eq_none_iff]

end Hindsight
