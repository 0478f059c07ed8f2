import Hindsight.Assembly.Program

/-!
# Results with a reason to fail

A reader of source text either gives something or says what is wrong.  Where what it would give
and what is wrong can each be said on their own, it is the *verdict* of the two.  Verdicts
compose: of two faults the first one counts.

## Main definitions

* `verdict` — a value, unless there is a fault.
* `failures`, `errorsOf` — the errors among the results of all lines, and those of a result.

## Main results

* `verdict_bind`, `mapM_eq_verdict` — verdicts one after the other.
* `gather_eq_ok_iff`, `gather_eq_error_iff` — when gathering gives results or errors, and which.
* `Item.parse_eq_ok_iff` — what a line is read as.
-/

namespace Hindsight

variable {ε α β : Type}

/-- The value, unless there is a fault. -/
def verdict (fault : Option ε) (value : α) : Except ε α :=
  match fault with
  | some e => .error e
  | none => .ok value

@[simp] theorem verdict_none (a : α) : verdict (none : Option ε) a = .ok a := rfl

@[simp] theorem verdict_some (e : ε) (a : α) : verdict (some e) a = .error e := rfl

theorem verdict_eq_ok_iff {fault : Option ε} {a b : α} :
    verdict fault a = .ok b ↔ fault = none ∧ a = b := by
  cases fault with
  | none => simp
  | some e => simp

theorem verdict_eq_error_iff {fault : Option ε} {a : α} {e : ε} :
    verdict fault a = .error e ↔ fault = some e := by
  cases fault with
  | none => simp
  | some e => simp

theorem exists_eq_ok_of_isSome {x : Except ε α} (h : x.toOption.isSome = true) :
    ∃ a, x = .ok a := by
  cases x with
  | error e => cases h
  | ok a => exact ⟨a, rfl⟩

theorem bind_eq_ok_iff {x : Except ε α} {k : α → Except ε β} {b : β} :
    (x >>= k) = .ok b ↔ ∃ a, x = .ok a ∧ k a = .ok b := by
  cases x with
  | error e =>
    constructor
    · intro h
      cases h
    · rintro ⟨_, h, -⟩
      cases h
  | ok a =>
    constructor
    · intro h
      exact ⟨a, rfl, h⟩
    · rintro ⟨_, ha, h⟩
      cases ha
      exact h

theorem bind_eq_error_iff {x : Except ε α} {k : α → Except ε β} {e : ε} :
    (x >>= k) = .error e ↔ x = .error e ∨ ∃ a, x = .ok a ∧ k a = .error e := by
  cases x with
  | error e' =>
    constructor
    · intro h
      exact .inl (congrArg Except.error (Except.error.inj h))
    · rintro (h | ⟨_, h, -⟩)
      · exact congrArg Except.error (Except.error.inj h)
      · cases h
  | ok a =>
    constructor
    · intro h
      exact .inr ⟨a, rfl, h⟩
    · rintro (h | ⟨_, ha, h⟩)
      · cases h
      · cases ha
        exact h

/-- Of two verdicts the first fault counts. -/
theorem verdict_bind (fault : Option ε) (a : α) {k : α → Except ε β} {fault' : Option ε} {b : β}
    (h : k a = verdict fault' b) :
    (verdict fault a >>= k) = verdict (fault <|> fault') b := by
  cases fault with
  | none => exact h
  | some e => rfl

theorem map_verdict (fault : Option ε) (a : α) (f : α → β) :
    (f <$> verdict fault a) = verdict fault (f a) := by
  cases fault with
  | none => rfl
  | some e => rfl

/-- **Verdicts on all elements of a list**: the first fault counts. -/
theorem mapM_eq_verdict {f : α → Except ε β} {fault : α → Option ε} {g : α → β} {l : List α}
    (h : ∀ a ∈ l, f a = verdict (fault a) (g a)) :
    l.mapM f = verdict (l.findSome? fault) (l.map g) := by
  induction l with
  | nil => rfl
  | cons a l ih =>
    rw [List.mapM_cons, h a (List.mem_cons_self), ih fun b hb => h b (List.mem_cons_of_mem a hb)]
    -- what follows the first fault is not looked at
    cases hfault : fault a with
    | some e =>
      rw [List.findSome?_cons_of_isSome (by rw [hfault]; rfl), hfault]
      rfl
    | none =>
      rw [List.findSome?_cons_of_isNone (by rw [hfault]; rfl)]
      exact map_verdict _ _ (g a :: ·)

/-- All verdicts on the elements of a list are values if there is no fault. -/
theorem map_verdict_eq_map_ok_iff {fault : α → Option ε} {g : α → β} {l : List α} {bs : List β} :
    l.map (fun a => verdict (fault a) (g a)) = bs.map .ok ↔
      (∀ a ∈ l, fault a = none) ∧ l.map g = bs := by
  induction l generalizing bs with
  | nil => simp [eq_comm]
  | cons a l ih =>
    cases bs with
    | nil => simp
    | cons b bs =>
      rw [List.map_cons, List.map_cons, List.cons.injEq, ih, verdict_eq_ok_iff,
        List.forall_mem_cons, List.map_cons, List.cons.injEq]
      exact and_and_and_comm

/-! ### All lines -/

/-- The errors among the results of lines, in line order. -/
def failures (results : List (Nat × Except SourceError α)) : List Issue :=
  results.filterMap fun (line, result) =>
    match result with
    | .ok _ => none
    | .error error => some ⟨line, error⟩

theorem failures_cons (result : Nat × Except SourceError α)
    (results : List (Nat × Except SourceError α)) :
    failures (result :: results) = failures [result] ++ failures results :=
  List.filterMap_append (l := [result])

theorem gather_eq (results : List (Nat × Except SourceError α)) :
    gather results
      = if (failures results).isEmpty then .ok (results.filterMap fun e => e.2.toOption)
        else .error (failures results) := rfl

/-- Lines are gathered if each of them has a result. -/
theorem gather_eq_ok_iff {results : List (Nat × Except SourceError α)} {values : List α} :
    gather results = .ok values ↔ results.map (·.2) = values.map .ok := by
  rw [gather_eq]
  induction results generalizing values with
  | nil => cases values <;> simp [failures]
  | cons e results ih =>
    obtain ⟨line, result⟩ := e
    -- the number of the line is of no account here
    cases result with
    | error error => cases values <;> simp [failures]
    | ok a =>
      have hfail : failures ((line, .ok a) :: results) = failures results := rfl
      rw [hfail]
      cases values with
      | nil => split <;> simp [Except.toOption]
      | cons b values =>
        rw [List.map_cons, List.map_cons, List.cons.injEq, ← ih]
        split <;> simp [Except.toOption]

/-- Lines are not gathered if one of them has an error; then all errors are kept. -/
theorem gather_eq_error_iff {results : List (Nat × Except SourceError α)} {issues : List Issue} :
    gather results = .error issues ↔ failures results = issues ∧ issues ≠ [] := by
  rw [gather_eq]
  cases hfail : failures results with
  | nil =>
    constructor
    · intro h
      cases h
    · rintro ⟨rfl, hne⟩
      exact absurd rfl hne
  | cons issue rest =>
    constructor
    · intro h
      obtain rfl := Except.error.inj h
      exact ⟨rfl, List.cons_ne_nil issue rest⟩
    · rintro ⟨rfl, -⟩
      rfl

/-- The errors, if there are any. -/
def errorsOf : Except (List Issue) α → List Issue
  | .ok _ => []
  | .error issues => issues

theorem errorsOf_bind_pure (x : Except (List Issue) α) (f : α → β) :
    errorsOf (x >>= fun a => pure (f a)) = errorsOf x := by
  cases x with
  | ok a => rfl
  | error issues => rfl

theorem errorsOf_gather (results : List (Nat × Except SourceError α)) :
    errorsOf (gather results) = failures results := by
  rw [gather_eq]
  cases failures results with
  | nil => rfl
  | cons issue rest => rfl

/-! ### One line -/

/-- **What a line is read as**: its number, its label, and the statement of its command if it has
one. -/
theorem Item.parse_eq_ok_iff {line : Nat} {text : List Char} {item : Item} :
    Item.parse line text = .ok item ↔
      ∃ s, SourceLine.parse text = .ok s ∧ item.line = line ∧ item.label = s.label ∧
        Option.Rel (fun c statement => Statement.ofCommand c = .ok statement)
          s.command item.statement := by
  rw [Item.parse, bind_eq_ok_iff]
  refine exists_congr fun s => and_congr_right fun _ => ?_
  obtain ⟨label, command⟩ := s
  obtain ⟨number, name, statement⟩ := item
  cases command with
  | none =>
    constructor
    · intro h
      cases h
      exact ⟨rfl, rfl, .none⟩
    · rintro ⟨rfl, rfl, ⟨⟩⟩
      rfl
  | some command =>
    constructor
    · intro h
      obtain ⟨meant, hmeant, heq⟩ := bind_eq_ok_iff.mp h
      cases heq
      exact ⟨rfl, rfl, .some hmeant⟩
    · rintro ⟨rfl, rfl, ⟨hmeant⟩⟩
      exact bind_eq_ok_iff.mpr ⟨_, hmeant, rfl⟩

/-- An item has the number of the line that it was read from. -/
theorem Item.line_of_parse {line : Nat} {text : List Char} {item : Item}
    (h : Item.parse line text = .ok item) : item.line = line := by
  obtain ⟨s, -, hline, -⟩ := Item.parse_eq_ok_iff.mp h
  exact hline

end Hindsight
