import Hindsight.Proofs.Emulator.Steps

/-!
# Registers that are not read do not matter

A step reports the registers it has looked at.  Two machines that agree on these, on memory and
on all scalars make the same step: the same report, the same use of the input, the same words
written.  So the report leaves no read out.  The word that is stored in `R0` is not looked at even
where `R0` is reported, and over a whole run it makes no difference to anything but itself.

The instruction set enters through the registers that an instruction names as its sources.

## Main definitions

* `Instruction.sources` — the registers that an instruction looks at.
* `Machine.AgreesOn` — machines that differ in `R0` and in registers outside of a set at most.

## Main results

* `Instruction.effect_eq_of_sources`, `Instruction.reads_effect` — an effect depends on the
  sources, and reports them.
* `Emulator.after_setReg_zero` — what is stored in `R0` has no influence on a run.
* `Emulator.reads_are_complete` — **the registers reported as read are all that matter.**
-/

namespace Hindsight

/-! ### The sources of an instruction -/

namespace Instruction

/-- The registers that an instruction looks at. -/
def sources : Instruction → List Reg
  | register .trap d _ _ => [fieldReg d]
  | register _ _ a b => [fieldReg a, fieldReg b]
  | memory .store d a _ => [fieldReg a, fieldReg d]
  | memory .jumpz d a _ | memory .jumpnz d a _ => [fieldReg d, fieldReg a]
  | memory _ _ a _ => [fieldReg a]

variable {i : Instruction} {m n : Machine} {p : Processor} {input : Option Word} {effect : Effect}

/-- **An effect reports the sources as read.** -/
theorem reads_effect (h : i.effect m p input = .ok effect) :
    effect.reads = .ofList (i.sources.map Fin.val) := by
  cases yields_of_effect h with
  | arithmetic d a b hop | bitwise d a b hop =>
    rename_i op _
    cases op <;> cases hop <;> rfl
  | division d a b hdivisor => rfl
  | comparison d a b => rfl
  | halt d a b hcode => rfl
  | read d a b w hcode hinput => rfl
  | wait d a b hcode hinput => rfl
  | memory op d a disp => cases op <;> rfl

/-- **An effect depends on the sources alone**, besides memory and scalars; so does a fault. -/
theorem effect_eq_of_sources (hpc : n.pc = m.pc) (hmem : ∀ a, n.mem a = m.mem a)
    (hsources : ∀ r ∈ i.sources, n.operand r = m.operand r) (p : Processor)
    (input : Option Word) : i.effect n p input = i.effect m p input := by
  cases i with
  | memory op d a disp =>
    -- the base register is a source of every memory instruction
    have ha : n.operand (fieldReg a) = m.operand (fieldReg a) := by
      cases op <;> exact hsources _ (by simp [sources])
    cases op with
    | store | jumpz | jumpnz =>
      have hd : n.operand (fieldReg d) = m.operand (fieldReg d) := hsources _ (by simp [sources])
      simp only [Instruction.effect, MemoryOp.effect, ha, hd]
    | load => simp only [Instruction.effect, MemoryOp.effect, ha, hmem]
    | lea | jump | jal | jumplt | jumpeq | jumpgt =>
      simp only [Instruction.effect, MemoryOp.effect, ha]
  | register op d a b =>
    cases op with
    | trap =>
      have hd : n.operand (fieldReg d) = m.operand (fieldReg d) := hsources _ (by simp [sources])
      simp only [Instruction.effect, RegisterOp.effect, trapEffect, hd, hpc]
    | add | sub | mul | div | cmp | and | or | xor =>
      have ha : n.operand (fieldReg a) = m.operand (fieldReg a) := hsources _ (by simp [sources])
      have hb : n.operand (fieldReg b) = m.operand (fieldReg b) := hsources _ (by simp [sources])
      simp only [Instruction.effect, RegisterOp.effect, ha, hb, hpc]

end Instruction

/-! ### Machines that agree -/

/-- Machines with equal scalars and equal memory, that agree on the registers of a set except
`R0`. -/
structure Machine.AgreesOn (m n : Machine) (reads : RegisterSet) : Prop where
  toProcessor_eq : n.toProcessor = m.toProcessor
  mem_eq : ∀ a, n.mem a = m.mem a
  reg_eq : ∀ r : Reg, r ≠ 0 → reads.contains r = true → n.reg r = m.reg r

namespace Machine.AgreesOn

variable {m n : Machine} {reads : RegisterSet}

/-- `R0` is the same operand whatever is stored in it. -/
theorem operand_eq (h : m.AgreesOn n reads) {r : Reg} (hr : reads.contains r = true) :
    n.operand r = m.operand r := by
  unfold operand
  by_cases h0 : r = 0
  · rw [if_pos h0, if_pos h0]
  · rw [if_neg h0, if_neg h0, h.reg_eq r h0 hr]

theorem fetch?_eq (h : m.AgreesOn n reads) :
    Instruction.fetch? n n.pc = Instruction.fetch? m m.pc := by
  rw [h.toProcessor_eq, Instruction.fetch?, h.mem_eq, h.mem_eq, Instruction.fetch?]

theorem fetched_eq (h : m.AgreesOn n reads) (size : Nat) :
    Emulator.fetched n size = Emulator.fetched m size := by
  rw [Emulator.fetched, Emulator.fetched, h.toProcessor_eq, h.mem_eq]

/-- **Machines that agree on what an effect reads have that effect.** -/
theorem effect_eq {i : Instruction} {p : Processor} {input : Option Word} {effect : Effect}
    (heffect : i.effect m p input = .ok effect) (h : m.AgreesOn n effect.reads) :
    i.effect n p input = .ok effect := by
  rw [← heffect]
  refine i.effect_eq_of_sources (congrArg Processor.pc h.toProcessor_eq) h.mem_eq (fun r hr => ?_)
    p input
  refine h.operand_eq ?_
  rw [Instruction.reads_effect heffect, RegisterSet.contains_ofList, Bool.and_eq_true]
  exact ⟨decide_eq_true r.isLt, decide_eq_true (List.mem_map_of_mem hr)⟩

end Machine.AgreesOn

theorem Machine.reg_setReg_zero {r : Reg} (h0 : r ≠ 0) (m : Machine) (w : Word) :
    (m.setReg 0 w).reg r = m.reg r := by
  rw [reg_setReg, if_neg (Ne.symm h0)]

/-- What is stored in `R0` makes no difference to an operand. -/
theorem Machine.operand_setReg_zero (m : Machine) (w : Word) (r : Reg) :
    (m.setReg 0 w).operand r = m.operand r := by
  unfold operand
  by_cases h0 : r = 0
  · rw [if_pos h0, if_pos h0]
  · rw [if_neg h0, if_neg h0, reg_setReg_zero h0]

/-! ### Carrying out an effect on two machines -/

namespace Effect

/-- A register is the same afterwards if it was before, or if it is written. -/
theorem reg_foldl_writeReg_congr {ws : List (Reg × Word)} {r : Reg} {m n : Machine}
    (h : n.reg r = m.reg r ∨ r ≠ 0 ∧ r ∈ ws.map (·.1)) :
    (ws.foldl writeReg n).reg r = (ws.foldl writeReg m).reg r := by
  induction ws generalizing m n with
  | nil =>
    rcases h with h | ⟨-, h⟩
    · exact h
    · cases h
  | cons w ws ih =>
    rw [List.foldl_cons, List.foldl_cons]
    refine ih ?_
    rw [reg_writeReg, reg_writeReg]
    -- a write to the register makes the two equal, and a later one keeps them so
    by_cases hw : w.1 = r ∧ r ≠ 0
    · rw [if_pos hw, if_pos hw]
      exact .inl rfl
    · rw [if_neg hw, if_neg hw]
      rcases h with h | ⟨h0, h⟩
      · exact .inl h
      · rcases List.mem_cons.mp h with rfl | h
        · exact absurd ⟨rfl, h0⟩ hw
        · exact .inr ⟨h0, h⟩

variable {e : Effect} {m n : Machine}

theorem reg_apply_congr {r : Reg}
    (h : n.reg r = m.reg r ∨ e.access.written.contains r = true) :
    (e.apply n).reg r = (e.apply m).reg r := by
  rw [reg_apply, reg_apply]
  exact reg_foldl_writeReg_congr (h.imp_right (e.contains_written_access r).mp)

theorem mem_apply_congr {a : Address} (h : n.mem a = m.mem a) :
    (e.apply n).mem a = (e.apply m).mem a := by
  rw [mem_apply, mem_apply, h]

/-- No effect writes `R0`. -/
theorem reg_zero_apply (e : Effect) (m : Machine) : (e.apply m).reg 0 = m.reg 0 := by
  rw [reg_apply, reg_foldl_writeReg (.inl rfl)]
  rfl

/-- What is stored in `R0` stays there, and nothing else depends on it. -/
theorem apply_setReg_zero (e : Effect) (m : Machine) (w : Word) :
    e.apply (m.setReg 0 w) = (e.apply m).setReg 0 w := by
  refine Machine.ext_cells ?_ (fun r => ?_) fun a => ?_
  · rw [toProcessor_apply, Machine.toProcessor_setReg, toProcessor_apply]
  · by_cases h0 : r = 0
    · rw [h0, reg_zero_apply, Machine.reg_setReg_self, Machine.reg_setReg_self]
    · rw [Machine.reg_setReg_zero h0]
      exact reg_apply_congr (.inl (Machine.reg_setReg_zero h0 m w))
  · rw [Machine.mem_setReg]
    exact mem_apply_congr rfl

end Effect

namespace Emulator

/-! ### What is stored in `R0` -/

/-- **One step** does not depend on what is stored in `R0`, whether it succeeds or faults. -/
theorem step_setReg_zero (e : Emulator) (m : Machine) (w : Word) :
    e.step (m.setReg 0 w)
      = ((e.step m).1, (e.step m).2.1, (e.step m).2.2.setReg 0 w) := by
  have hfetch : Instruction.fetch? (m.setReg 0 w) (m.setReg 0 w).pc
      = Instruction.fetch? m m.pc := rfl
  have heffect : ∀ i : Instruction, ∀ p input,
      i.effect (m.setReg 0 w) p input = i.effect m p input := fun i =>
    i.effect_eq_of_sources rfl (fun _ => rfl) fun r _ => m.operand_setReg_zero w r
  have hfetched : ∀ size, fetched (m.setReg 0 w) size = fetched m size := fun _ => rfl
  unfold step
  rw [hfetch]
  cases Instruction.fetch? m m.pc with
  | none => rfl
  | some i =>
    simp only [heffect, hfetched]
    cases i.effect m (fetched m i.opcode.size) e.input.peek with
    | error fault => rfl
    | ok effect => exact Prod.ext rfl (Prod.ext rfl (Effect.apply_setReg_zero _ m w))

/-- **What is stored in `R0` has no influence on a run**: the emulator, the reports and all of the
machine but `R0` are the same after any number of calls. -/
theorem after_setReg_zero (e : Emulator) (m : Machine) (w : Word) (n : Nat) :
    engine.after e (m.setReg 0 w) n
      = (engine.stateAfter e m n, (engine.machineAfter e m n).setReg 0 w) := by
  induction n with
  | zero => rfl
  | succ n ih =>
    rw [Engine.after, ih]
    exact congrArg Prod.snd (step_setReg_zero _ _ w)

theorem stateAfter_setReg_zero (e : Emulator) (m : Machine) (w : Word) (n : Nat) :
    engine.stateAfter e (m.setReg 0 w) n = engine.stateAfter e m n := by
  rw [Engine.stateAfter, after_setReg_zero]

theorem machineAfter_setReg_zero (e : Emulator) (m : Machine) (w : Word) (n : Nat) :
    engine.machineAfter e (m.setReg 0 w) n = (engine.machineAfter e m n).setReg 0 w := by
  rw [Engine.machineAfter, after_setReg_zero]

theorem reportAfter_setReg_zero (e : Emulator) (m : Machine) (w : Word) (n : Nat) :
    engine.reportAfter e (m.setReg 0 w) n = engine.reportAfter e m n := by
  rw [Engine.reportAfter, stateAfter_setReg_zero, machineAfter_setReg_zero]
  show (step _ _).1 = _
  rw [step_setReg_zero]
  rfl

/-! ### Completeness of the report -/

/-- **The registers reported as read are all that matter.**  If a step succeeds, then from every
machine that differs in `R0` and in registers not reported as read at most, with the same input,
the step succeeds with the same report, uses the same input and records the same opcode.  All
scalars, all of memory and the registers written are the same afterwards, and every other register
keeps what it had.  The word stored in `R0` has no influence at all, over any number of steps. -/
theorem reads_are_complete (e : Emulator) :
    (∀ s access e' s', e.step s = (.ok access, e', s') → ∀ t, s.AgreesOn t access.read →
      ∃ t', e.step t = (.ok access, e', t') ∧ t'.toProcessor = s'.toProcessor ∧
        (∀ a, t'.mem a = s'.mem a) ∧
        ∀ r : Reg, t'.reg r = if access.written.contains r then s'.reg r else t.reg r) ∧
      ∀ m w n, engine.reportAfter e (m.setReg 0 w) n = engine.reportAfter e m n ∧
        engine.stateAfter e (m.setReg 0 w) n = engine.stateAfter e m n ∧
        engine.machineAfter e (m.setReg 0 w) n = (engine.machineAfter e m n).setReg 0 w := by
  refine ⟨fun s access e' s' hstep t hagree => ?_, fun m w n => ?_⟩
  · obtain ⟨i, effect, hfetch, heffect, rfl, rfl, rfl⟩ := step_eq_ok_iff.mp hstep
    have hfetch' : Instruction.fetch? t t.pc = some i := hagree.fetch?_eq.trans hfetch
    have heffect' : i.effect t (fetched t i.opcode.size) e.input.peek = .ok effect := by
      rw [hagree.fetched_eq]
      exact hagree.effect_eq heffect
    refine ⟨(counted effect).apply t,
      step_eq_ok_iff.mpr ⟨i, effect, hfetch', heffect', rfl, rfl, rfl⟩, ?_, fun a => ?_,
      fun r => ?_⟩
    · rw [Effect.toProcessor_apply, Effect.toProcessor_apply]
    · exact Effect.mem_apply_congr (hagree.mem_eq a)
    · -- a register that is written gets the same word, and any other keeps its own
      cases hwritten : effect.access.written.contains r with
      | true =>
        rw [if_pos rfl]
        exact Effect.reg_apply_congr (.inr hwritten)
      | false =>
        rw [if_neg Bool.false_ne_true]
        exact Effect.reg_apply_of_contains_eq_false _ t hwritten
  · exact ⟨reportAfter_setReg_zero e m w n, stateAfter_setReg_zero e m w n,
      machineAfter_setReg_zero e m w n⟩

/-- A machine about to execute `add R3,R1,R0`. -/
def aboutToAdd : Machine := (Machine.zero.setMem 0 0x0310).setReg 1 2

/-- The sum does not depend on the word in `R0`, which is reported as read, nor on the one that it
overwrites; a register that has no part in the step keeps its word. -/
theorem reads_are_complete_aboutToAdd :
    let t := ((aboutToAdd.setReg 0 9).setReg 3 7).setReg 4 5
    ∃ access e' s' t', (ofInput []).step aboutToAdd = (.ok access, e', s') ∧
      access.read = .ofList [0, 1] ∧ aboutToAdd.AgreesOn t access.read ∧
      (ofInput []).step t = (.ok access, e', t') ∧
      t'.reg 3 = 2 ∧ t'.reg 4 = 5 ∧ t'.reg 0 = 9 := by
  intro t
  have hread : ((ofInput []).step aboutToAdd).1.toOption.map (fun access =>
      (access.read, access.written.contains 3, access.written.contains 4,
        access.written.contains 0))
      = some (.ofList [0, 1], true, false, false) := by decide +kernel
  have hsum : ((ofInput []).step aboutToAdd).2.2.reg 3 = 2 := by decide +kernel
  rcases hstep : (ofInput []).step aboutToAdd with ⟨fault | access, e', s'⟩
  · rw [hstep] at hread
    cases hread
  · rw [hstep] at hread hsum
    have hseen := Option.some.inj hread
    simp only [Prod.mk.injEq] at hseen
    obtain ⟨hread, hthree, hfour, hzero⟩ := hseen
    have hagree : aboutToAdd.AgreesOn t access.read := by
      refine ⟨rfl, fun _ => rfl, fun r h0 hr => ?_⟩
      rw [hread, RegisterSet.contains_ofList, Bool.and_eq_true, decide_eq_true_eq,
        decide_eq_true_eq] at hr
      have hr : r = 1 := by grind
      rw [hr]
      rfl
    obtain ⟨t', hstep', -, -, hreg⟩ :=
      (reads_are_complete (ofInput [])).1 aboutToAdd access e' s' hstep t hagree
    refine ⟨access, e', s', t', rfl, hread, hagree, hstep', ?_, ?_, ?_⟩
    · exact (hreg 3).trans ((if_pos hthree).trans hsum)
    · exact (hreg 4).trans (if_neg (ne_true_of_eq_false hfour))
    · exact (hreg 0).trans (if_neg (ne_true_of_eq_false hzero))

end Emulator

end Hindsight
