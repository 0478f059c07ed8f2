import Hindsight.Emulator.Effect
import Hindsight.Proofs.RegisterSets
import Hindsight.Proofs.Timeline.Execution

/-!
# Effects and their reports

An effect is carried out by `Effect.apply` and reported by `Effect.access`.  Both read the
same list of writes and the same store, so every cell that changes is reported, whatever the
instruction was.  Of the instruction set it remains to list the effects that there are, which is
done here once for all that is said about them, and to see how much they write.

## Main definitions

* `Instruction.Yields` — the effects of the instruction set, case by case.

## Main results

* `Effect.reg_apply_of_contains_eq_false`, `Effect.mem_apply` — what carrying out leaves alone.
* `Effect.covers_access` — every word that is stored is reported.
* `Instruction.yields_of_effect` — every effect is one of these.
* `Instruction.length_writes_le` — no instruction writes more than two registers.
-/

namespace Hindsight
namespace Effect

/-! ### Writing registers -/

@[simp] theorem toProcessor_writeReg (m : Machine) (w : Reg × Word) :
    (writeReg m w).toProcessor = m.toProcessor := by
  unfold writeReg
  split <;> rfl

@[simp] theorem mem_writeReg (m : Machine) (w : Reg × Word) (a : Address) :
    (writeReg m w).mem a = m.mem a := by
  unfold writeReg
  split <;> rfl

theorem reg_writeReg (m : Machine) (w : Reg × Word) (r : Reg) :
    (writeReg m w).reg r = if w.1 = r ∧ r ≠ 0 then w.2 else m.reg r := by
  unfold writeReg
  by_cases h0 : w.1 = 0
  · rw [if_pos h0, if_neg fun h => h.2 (h.1 ▸ h0)]
  · rw [if_neg h0, Machine.reg_setReg]
    by_cases hr : w.1 = r
    · rw [if_pos hr, if_pos ⟨hr, hr ▸ h0⟩]
    · rw [if_neg hr, if_neg fun h => hr h.1]

@[simp] theorem toProcessor_foldl_writeReg (m : Machine) (ws : List (Reg × Word)) :
    (ws.foldl writeReg m).toProcessor = m.toProcessor := by
  induction ws generalizing m with
  | nil => rfl
  | cons w ws ih => rw [List.foldl_cons, ih, toProcessor_writeReg]

@[simp] theorem mem_foldl_writeReg (m : Machine) (ws : List (Reg × Word)) (a : Address) :
    (ws.foldl writeReg m).mem a = m.mem a := by
  induction ws generalizing m with
  | nil => rfl
  | cons w ws ih => rw [List.foldl_cons, ih, mem_writeReg]

/-- A register that no write names keeps its word, and so does `R0`. -/
theorem reg_foldl_writeReg {ws : List (Reg × Word)} {r : Reg}
    (h : r = 0 ∨ r ∉ ws.map (·.1)) (m : Machine) : (ws.foldl writeReg m).reg r = m.reg r := by
  induction ws generalizing m with
  | nil => rfl
  | cons w ws ih =>
    rw [List.map_cons, List.mem_cons, not_or] at h
    rw [List.foldl_cons, ih (h.imp_right And.right), reg_writeReg, if_neg]
    rintro ⟨rfl, h0⟩
    exact (h.resolve_left h0).1 rfl

/-! ### Carrying out and reporting -/

variable (e : Effect) (m : Machine)

@[simp] theorem toProcessor_apply : (e.apply m).toProcessor = e.after := by
  unfold apply
  cases e.store <;> simp

theorem reg_apply (r : Reg) :
    (e.apply m).reg r = (e.writes.foldl writeReg { m with toProcessor := e.after }).reg r := by
  unfold apply
  cases e.store <;> rfl

/-- Only the word that is stored changes. -/
theorem mem_apply (a : Address) :
    (e.apply m).mem a
      = (e.store.bind fun x => if x.1 = a then some x.2 else none).getD (m.mem a) := by
  unfold apply
  cases e.store with
  | none => exact mem_foldl_writeReg _ _ _
  | some x =>
    rw [Machine.mem_setMem, mem_foldl_writeReg, Option.bind_some]
    by_cases ha : x.1 = a
    · rw [if_pos ha, if_pos ha]; rfl
    · rw [if_neg ha, if_neg ha]; rfl

/-- The registers reported as written are those that a write names, except `R0`. -/
theorem contains_written_access (r : Reg) :
    e.access.written.contains r = true ↔ r ≠ 0 ∧ r ∈ e.writes.map (·.1) := by
  have h0 : r.val ≠ 0 ↔ r ≠ 0 := not_congr (Fin.ext_iff (b := 0)).symm
  rw [access, RegisterSet.contains_ofList]
  simp only [r.isLt, decide_true, Bool.true_and, decide_eq_true_eq, List.mem_filter, h0,
    List.mem_map, Fin.val_inj]
  exact and_comm

theorem mem_addresses_access (a : Address) :
    a ∈ e.access.addresses ↔ ∃ w, e.store = some (a, w) := by
  unfold access
  cases e.store with
  | none => simp
  | some x => simp [Prod.ext_iff, eq_comm]

/-- **A register that is not reported is not changed.** -/
theorem reg_apply_of_contains_eq_false {r : Reg} (h : e.access.written.contains r = false) :
    (e.apply m).reg r = m.reg r := by
  have hr : r = 0 ∨ r ∉ e.writes.map (·.1) := by
    by_contra hcon
    rw [not_or, not_not] at hcon
    rw [(e.contains_written_access r).mpr hcon] at h
    cases h
  rw [reg_apply, reg_foldl_writeReg hr]
  rfl

/-- **A memory word that is not reported is not changed.** -/
theorem covers_access : e.access.Covers m (e.apply m) := by
  intro a hne
  rw [mem_apply] at hne
  rw [mem_addresses_access]
  cases hstore : e.store with
  | none => exact absurd (by rw [hstore]; rfl) hne
  | some x =>
    rw [hstore, Option.bind_some] at hne
    -- the word has changed, so that it is the one that was stored
    by_cases ha : x.1 = a
    · exact ⟨x.2, by rw [← ha]⟩
    · rw [if_neg ha] at hne
      exact absurd rfl hne

/-- At most one address is reported. -/
theorem length_addresses_access_le : e.access.addresses.length ≤ 1 := by
  unfold access
  cases e.store <;> simp

/-- At most as many registers are reported as there are writes. -/
theorem size_written_access_le : e.access.written.size ≤ e.writes.length := by
  have hfilter := List.length_filter_le (· ≠ 0) (e.writes.map (·.1.val))
  rw [List.length_map] at hfilter
  exact Nat.le_trans (RegisterSet.size_ofList_le _) hfilter

end Effect

/-! ### The instruction set -/

/-- The scalars with a service code latched. -/
def Processor.withStatus (p : Processor) (code : Word) : Processor :=
  { p with control := { p.control with status := code } }

/-- **What a trap can do**: halt, read a word, or wait for one at its own address. -/
theorem trapEffect_eq_ok {d a : Reg} {m : Machine} {p : Processor} {input : Option Word}
    {e : Effect} (h : trapEffect d a m p input = .ok e) :
    (m.operand d = 0 ∧
        e = { reads := .ofList [d], after := { p.withStatus 0 with halted := true } }) ∨
      (∃ w, m.operand d = 1 ∧ input = some w ∧
        e = { reads := .ofList [d], writes := [(a, w)], after := p.withStatus 1,
              consumes := true }) ∨
      (m.operand d = 1 ∧ input = none ∧
        e = { reads := .ofList [d],
              after := { p.withStatus 1 with blocked := true, pc := m.pc } }) := by
  unfold trapEffect at h
  by_cases h0 : m.operand d = 0
  · simp only [h0, if_pos] at h
    exact .inl ⟨h0, (Except.ok.inj h).symm⟩
  by_cases h1 : m.operand d = 1
  · simp only [h1, if_neg (by decide : ¬(1 : Word) = 0), if_pos] at h
    cases input with
    | some w => exact .inr (.inl ⟨w, h1, rfl, (Except.ok.inj h).symm⟩)
    | none => exact .inr (.inr ⟨h1, rfl, (Except.ok.inj h).symm⟩)
  · simp only [if_neg h0, if_neg h1] at h
    cases h

/-- A jump does nothing but set the program counter, if it is taken. -/
theorem jumpEffect_eq (reads : RegisterSet) (target : Address) (taken : Bool) (p : Processor) :
    jumpEffect reads target taken p
      = { reads, after := { p with pc := if taken then target else p.pc } } := by
  cases taken <;> rfl

/-- The outcome of an arithmetic operation that takes any operands. -/
def RegisterOp.arithmetic? (op : RegisterOp) (x y : Word) : Option Arithmetic :=
  match op with
  | .add => some (.add x y)
  | .sub => some (.sub x y)
  | .mul => some (.mul x y)
  | _ => none

/-- The result of a bitwise operation. -/
def RegisterOp.bitwise? (op : RegisterOp) (x y : Word) : Option Word :=
  match op with
  | .and => some (x &&& y)
  | .or => some (x ||| y)
  | .xor => some (x ^^^ y)
  | _ => none

namespace Instruction

/-- The effects that instructions have on `m`, where `p` holds the scalars after the fetch and
`input` the next word of input. -/
inductive Yields (m : Machine) (p : Processor) (input : Option Word) :
    Instruction → Effect → Prop
  | arithmetic {op : RegisterOp} {r : Arithmetic} (d a b : UInt8)
    (hop : op.arithmetic? (m.operand (fieldReg a)) (m.operand (fieldReg b)) = some r) :
    Yields m p input (register op d a b) (r.effect (fieldReg d) (fieldReg a) (fieldReg b) p)
  /-- The quotient is written first. -/
  | division (d a b : UInt8) (hdivisor : m.operand (fieldReg b) ≠ 0) :
    Yields m p input (register .div d a b)
      { (Arithmetic.div (m.operand (fieldReg a)) (m.operand (fieldReg b))).effect
          (fieldReg d) (fieldReg a) (fieldReg b) p with
        writes := [
          (fieldReg d, (Arithmetic.div (m.operand (fieldReg a)) (m.operand (fieldReg b))).value),
          (remainderReg, Arithmetic.remainder (m.operand (fieldReg a)) (m.operand (fieldReg b)))] }
  | comparison (d a b : UInt8) :
    Yields m p input (register .cmp d a b)
      { reads := .ofList [fieldReg a, fieldReg b]
        after := { p with
          flags := p.flags.compared (Word.signed (m.operand (fieldReg a)))
            (Word.signed (m.operand (fieldReg b))) } }
  | bitwise {op : RegisterOp} {w : Word} (d a b : UInt8)
    (hop : op.bitwise? (m.operand (fieldReg a)) (m.operand (fieldReg b)) = some w) :
    Yields m p input (register op d a b)
      (bitwiseEffect w (fieldReg d) (fieldReg a) (fieldReg b) p)
  | halt (d a b : UInt8) (hcode : m.operand (fieldReg d) = 0) :
    Yields m p input (register .trap d a b)
      { reads := .ofList [fieldReg d], after := { p.withStatus 0 with halted := true } }
  | read (d a b : UInt8) (w : Word) (hcode : m.operand (fieldReg d) = 1) (hinput : input = some w) :
    Yields m p input (register .trap d a b)
      { reads := .ofList [fieldReg d], writes := [(fieldReg a, w)], after := p.withStatus 1,
        consumes := true }
  | wait (d a b : UInt8) (hcode : m.operand (fieldReg d) = 1) (hinput : input = none) :
    Yields m p input (register .trap d a b)
      { reads := .ofList [fieldReg d],
        after := { p.withStatus 1 with blocked := true, pc := m.pc } }
  | memory (op : MemoryOp) (d a : UInt8) (disp : Word) :
    Yields m p input (memory op d a disp) (op.effect (fieldReg d) (fieldReg a) disp m p)

variable {i : Instruction} {m : Machine} {p : Processor} {input : Option Word} {effect : Effect}

/-- **Every effect is one of these.** -/
theorem yields_of_effect (h : i.effect m p input = .ok effect) : Yields m p input i effect := by
  cases i with
  | memory op d a disp =>
    cases h
    exact .memory op d a disp
  | register op d a b =>
    cases op with
    | trap =>
      rcases trapEffect_eq_ok h with ⟨hcode, rfl⟩ | ⟨w, hcode, hinput, rfl⟩ | ⟨hcode, hinput, rfl⟩
      · exact .halt d a b hcode
      · exact .read d a b w hcode hinput
      · exact .wait d a b hcode hinput
    | div =>
      simp only [Instruction.effect, RegisterOp.effect] at h
      split at h
      · cases h
      · next hdivisor =>
        cases h
        exact .division d a b hdivisor
    | add | sub | mul =>
      cases h
      exact .arithmetic d a b rfl
    | cmp =>
      cases h
      exact .comparison d a b
    | and | or | xor =>
      cases h
      exact .bitwise d a b rfl

/-- **No instruction writes more than two registers**; a division does. -/
theorem length_writes_le (h : i.effect m p input = .ok effect) : effect.writes.length ≤ 2 := by
  cases yields_of_effect h with
  | arithmetic d a b hop => exact Nat.le_succ 1
  | division d a b hdivisor => exact Nat.le_refl 2
  | comparison d a b => exact Nat.zero_le 2
  | bitwise d a b hop => exact Nat.le_succ 1
  | halt d a b hcode => exact Nat.zero_le 2
  | read d a b w hcode hinput => exact Nat.le_succ 1
  | wait d a b hcode hinput => exact Nat.zero_le 2
  | memory op d a disp => cases op <;> simp [MemoryOp.effect, jumpEffect_eq]

end Instruction

end Hindsight
