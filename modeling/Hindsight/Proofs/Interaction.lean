/-!
# Interactions

Something with a state that is asked one request after the other and answers each of them.
Two such things cannot be told apart by their answers if their states stay related: this is
the one induction over all sequences of requests, and what is left of each use is a fact
about single requests.

## Main definitions

* `Interaction.answers` — the answers to a list of requests.
* `Interaction.after` — the state they lead to.

## Main results

* `Interaction.getElem?_answers`, `Interaction.after_take_add_one` — what a single request of the
  list is answered and leads to.
* `Interaction.answers_eq`, `Interaction.after_rel` — related states answer alike and stay
  related.
* `Interaction.after_of_forall` — what every single request keeps holds after all of them.
* `Interaction.after_filter` — requests that leave the state alone can be left out.
-/

namespace Hindsight
namespace Interaction

variable {σ τ ρ α : Type} (serve : σ → ρ → α × σ)

/-- The answers to a list of requests, in order. -/
def answers : σ → List ρ → List α
  | _, [] => []
  | s, r :: rs => (serve s r).1 :: answers (serve s r).2 rs

/-- The state after a list of requests. -/
def after : σ → List ρ → σ
  | s, [] => s
  | s, r :: rs => after (serve s r).2 rs

@[simp] theorem answers_nil (s : σ) : answers serve s [] = [] := rfl

@[simp] theorem answers_cons (s : σ) (r : ρ) (rs : List ρ) :
    answers serve s (r :: rs) = (serve s r).1 :: answers serve (serve s r).2 rs := rfl

@[simp] theorem after_nil (s : σ) : after serve s [] = s := rfl

@[simp] theorem after_cons (s : σ) (r : ρ) (rs : List ρ) :
    after serve s (r :: rs) = after serve (serve s r).2 rs := rfl

theorem after_append (s : σ) (rs rs' : List ρ) :
    after serve s (rs ++ rs') = after serve (after serve s rs) rs' := by
  induction rs generalizing s with
  | nil => rfl
  | cons r rs ih => exact ih (serve s r).2

/-! ### Single requests of a list -/

section Index

variable {serve} {rs : List ρ} {i : Nat} {r : ρ}

/-- A request is answered in the state that the ones before it lead to. -/
theorem getElem?_answers (h : rs[i]? = some r) (s : σ) :
    (answers serve s rs)[i]? = some (serve (after serve s (rs.take i)) r).1 := by
  induction rs generalizing s i with
  | nil => cases h
  | cons r' rs ih =>
    cases i with
    | zero =>
      obtain rfl : r' = r := Option.some.inj h
      rfl
    | succ i => exact ih h (serve s r').2

/-- It leads on from there. -/
theorem after_take_add_one (h : rs[i]? = some r) (s : σ) :
    after serve s (rs.take (i + 1)) = (serve (after serve s (rs.take i)) r).2 := by
  rw [List.take_add_one, h, Option.toList_some, after_append, after_cons, after_nil]

end Index

/-! ### Related states -/

section Simulation

variable {serve} {serve' : τ → ρ → α × τ} (Rel : σ → τ → Prop)

/-- A relation that every single request keeps holds after all of them. -/
theorem after_rel (hstep : ∀ s t r, Rel s t → Rel (serve s r).2 (serve' t r).2) {s : σ} {t : τ}
    (h : Rel s t) (rs : List ρ) : Rel (after serve s rs) (after serve' t rs) := by
  induction rs generalizing s t with
  | nil => exact h
  | cons r rs ih => exact ih (hstep s t r h)

/-- Related states answer alike, if one request is answered alike and keeps the relation. -/
theorem answers_eq (hanswer : ∀ s t r, Rel s t → (serve s r).1 = (serve' t r).1)
    (hstep : ∀ s t r, Rel s t → Rel (serve s r).2 (serve' t r).2) {s : σ} {t : τ}
    (h : Rel s t) (rs : List ρ) : answers serve s rs = answers serve' t rs := by
  induction rs generalizing s t with
  | nil => rfl
  | cons r rs ih => rw [answers_cons, answers_cons, hanswer s t r h, ih (hstep s t r h)]

end Simulation

/-- A property that every single request keeps holds after all of them. -/
theorem after_of_forall {P : σ → Prop} (hstep : ∀ s r, P s → P (serve s r).2) {s : σ} (h : P s)
    (rs : List ρ) : P (after serve s rs) := by
  induction rs generalizing s with
  | nil => exact h
  | cons r rs ih => exact ih (hstep s r h)

/-- Requests that leave the state alone make no difference to the state after all of them. -/
theorem after_filter {p : ρ → Bool} (hskip : ∀ s r, p r = false → (serve s r).2 = s) (s : σ)
    (rs : List ρ) : after serve s (rs.filter p) = after serve s rs := by
  induction rs generalizing s with
  | nil => rfl
  | cons r rs ih =>
    cases hp : p r with
    | true => rw [List.filter_cons_of_pos hp, after_cons, after_cons, ih]
    | false => rw [List.filter_cons_of_neg (by simp [hp]), after_cons, hskip s r hp, ih]

end Interaction
end Hindsight
