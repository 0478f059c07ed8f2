import Hindsight.Proofs.Isa.Sweep

/-!
# Encoding and decoding

The two code tables share their numbers: a code in the last field of a word is that of a memory
instruction if the word is marked, and any register otherwise.  So the words of an instruction are
told apart by the mark, and what is decoded belongs to the family of its words.  Since an opcode is
typed by its family, an instruction never holds an opcode of the other one.

Encoding takes the low four bits of a field, so that no field spills into its neighbours, and
decoding gives no more than these.  Of the sixteen operation fields ten begin an instruction, and of
the sixteen codes behind the mark another ten.

## Main definitions

* `Instruction.narrowed` — the instruction with its fields cut to four bits.
* `Instruction.HasWords` — the words of an instruction, one or two.

## Main results

* `Instruction.encode_narrowed` — the higher bits of a field do not show.
* `Opcode.ofFields?_eq_none_iff` — the fields that hold no opcode.
* `Instruction.decode_inverts_encode` — **encoding and decoding are inverse to each other.**
-/

namespace Hindsight

/-! ### Codes -/

theorem RegisterOp.ofCode?_eq_none_iff {c : UInt8} (hc : c.toNat < 16) :
    ofCode? c = none ↔ (8 ≤ c.toNat ∧ c.toNat ≤ 12) ∨ 14 ≤ c.toNat := by
  refine forall_narrowField (p := fun c =>
    ofCode? c = none ↔ (8 ≤ c.toNat ∧ c.toNat ≤ 12) ∨ 14 ≤ c.toNat) ?_ hc
  decide

theorem MemoryOp.ofCode?_eq_none_iff {c : UInt8} (hc : c.toNat < 16) :
    ofCode? c = none ↔ 10 ≤ c.toNat := by
  refine forall_narrowField (p := fun c => ofCode? c = none ↔ 10 ≤ c.toNat) ?_ hc
  decide

/-- **The fields that hold no opcode.** -/
theorem Opcode.ofFields?_eq_none_iff {f : Fields} (h : f.Narrow) :
    ofFields? f.op f.b = none ↔
      (8 ≤ f.op.toNat ∧ f.op.toNat ≤ 12) ∨ f.op.toNat = 14 ∨
        (f.op.toNat = 15 ∧ 10 ≤ f.b.toNat) := by
  have hmark : f.op = memoryMark ↔ f.op.toNat = 15 := UInt8.toNat_inj.symm
  unfold ofFields?
  split
  · next hop =>
    -- a marked word is told by its last field
    rw [Option.map_eq_none_iff, MemoryOp.ofCode?_eq_none_iff h.b_lt]
    have := hmark.mp hop
    omega
  · next hop =>
    -- fifteen is the mark, so that of the codes from fourteen on only one is left
    rw [Option.map_eq_none_iff, RegisterOp.ofCode?_eq_none_iff h.op_lt]
    have := mt hmark.mpr hop
    have := h.op_lt
    omega

namespace Fields

/-- The low four bits of a byte. -/
def low (f : UInt8) : UInt8 := f % 16

theorem toNat_low (f : UInt8) : (low f).toNat = f.toNat % 16 := UInt8.toNat_mod f 16

theorem toNat_low_lt (f : UInt8) : (low f).toNat < 16 := by
  rw [toNat_low]
  exact Nat.mod_lt _ (by decide)

theorem low_of_lt {f : UInt8} (h : f.toNat < 16) : low f = f := by
  rw [← UInt8.toNat_inj, toNat_low, Nat.mod_eq_of_lt h]

theorem toNat_op_ofWord (w : Word) : (ofWord w).op.toNat = w.toNat / 4096 := by
  have hw := w.toNat_lt
  rw [ofWord, toNat_ofNat_mod]
  omega

theorem toNat_b_ofWord (w : Word) : (ofWord w).b.toNat = w.toNat % 16 := by
  rw [ofWord, toNat_ofNat_mod]

end Fields

/-! ### Instructions -/

namespace Instruction

/-- The instruction with its register fields cut to their low four bits. -/
def narrowed : Instruction → Instruction
  | register op d a b => register op (Fields.low d) (Fields.low a) (Fields.low b)
  | memory op d a disp => memory op (Fields.low d) (Fields.low a) disp

/-- The words of an instruction are `word`, and `next` if it is a memory instruction. -/
def HasWords (i : Instruction) (word next : Word) : Prop :=
  match i with
  | register .. => i.encode = [word]
  | memory .. => i.encode = [word, next]

variable {i : Instruction} {word next : Word}

theorem hasWords_iff : i.HasWords word next ↔ i.encode = [word, next].take i.opcode.size := by
  cases i <;> exact Iff.rfl

@[simp] theorem opcode_narrowed (i : Instruction) : i.narrowed.opcode = i.opcode := by
  cases i <;> rfl

theorem narrow_narrowed (i : Instruction) : i.narrowed.Narrow := by
  cases i with
  | register op d a b => exact ⟨Fields.toNat_low_lt d, Fields.toNat_low_lt a, Fields.toNat_low_lt b⟩
  | memory op d a disp => exact ⟨Fields.toNat_low_lt d, Fields.toNat_low_lt a⟩

/-- Nothing is cut off a field that is four bits wide. -/
theorem narrowed_of_narrow (h : i.Narrow) : i.narrowed = i := by
  cases i with
  | register op d a b =>
    obtain ⟨hd, ha, hb⟩ := h
    rw [narrowed, Fields.low_of_lt hd, Fields.low_of_lt ha, Fields.low_of_lt hb]
  | memory op d a disp =>
    obtain ⟨hd, ha⟩ := h
    rw [narrowed, Fields.low_of_lt hd, Fields.low_of_lt ha]

/-- **The higher bits of a field do not show** in the words. -/
theorem encode_narrowed (i : Instruction) : i.narrowed.encode = i.encode := by
  cases i <;> simp only [narrowed, encode, Fields.toWord, Fields.toNat_low, Nat.mod_mod]

/-- The words of an instruction are decoded as what they show of it. -/
theorem decode_of_hasWords (h : i.HasWords word next) : decode word next = some i.narrowed := by
  rw [decode_eq_some_iff, encode_narrowed, opcode_narrowed]
  exact ⟨i.narrow_narrowed, hasWords_iff.mp h⟩

/-- **Encoding and decoding are inverse to each other.**  Every instruction, whatever bytes its
fields are, has as many words as its opcode says, and they are decoded as the same instruction with
its fields cut to four bits, which is the instruction itself if they were no wider; a register
instruction has one word, and the next one is not looked at.  What is decoded from two words has
fields of four bits, and the first word, or both if it has a displacement, are its encoding.  A word
is no instruction just if its first field is one of `8` to `c`, or `e`, or if it is `f` and the last
field is one of `a` to `f`. -/
theorem decode_inverts_encode :
    (∀ i : Instruction, i.encode.length = i.opcode.size ∧ i.narrowed.opcode = i.opcode ∧
        (i.Narrow → i.narrowed = i) ∧
        ∀ word next, i.HasWords word next → decode word next = some i.narrowed) ∧
      (∀ i word next, decode word next = some i → i.Narrow ∧ i.HasWords word next) ∧
      ∀ word next, decode word next = none ↔
        (8 ≤ word.toNat / 4096 ∧ word.toNat / 4096 ≤ 12) ∨ word.toNat / 4096 = 14 ∨
          (word.toNat / 4096 = 15 ∧ 10 ≤ word.toNat % 16) := by
  refine ⟨fun i => ?_, fun i word next h => ?_, fun word next => ?_⟩
  · exact ⟨length_encode i, opcode_narrowed i, narrowed_of_narrow,
      fun word next => decode_of_hasWords⟩
  · obtain ⟨hnarrow, hencode⟩ := decode_eq_some_iff.mp h
    exact ⟨hnarrow, hasWords_iff.mpr hencode⟩
  · rw [decode_eq_none_iff, Opcode.ofFields?_eq_none_iff (Fields.narrow_ofWord word),
      Fields.toNat_op_ofWord, Fields.toNat_b_ofWord]

/-- Fields of eight bits with their higher bits set leave the code of a comparison and that of a
jump alone, and a comparison is decoded whatever stands behind it. -/
theorem decode_inverts_encode_wideFields :
    (∀ next, decode 0x4fe3 next = some (register .cmp 15 14 3)) ∧
      decode 0xf3e9 0xbeef = some (memory .jumpgt 3 14 0xbeef) ∧
      (register .cmp 15 14 3).narrowed = register .cmp 15 14 3 ∧
      (memory .jumpgt 3 14 0xbeef).HasWords 0xf3e9 0xbeef := by
  obtain ⟨hencode, hdecode, -⟩ := decode_inverts_encode
  obtain ⟨-, -, -, hcompare⟩ := hencode (register .cmp 0x1f 0xfe 0x23)
  obtain ⟨-, -, -, hjump⟩ := hencode (memory .jumpgt 0x13 0xfe 0xbeef)
  obtain ⟨-, -, hnarrow, -⟩ := hencode (register .cmp 15 14 3)
  have hwords : decode 0xf3e9 0xbeef = some (memory .jumpgt 3 14 0xbeef) := hjump _ _ rfl
  exact ⟨fun next => hcompare _ next rfl, hwords, hnarrow ⟨by decide, by decide, by decide⟩,
    (hdecode _ _ _ hwords).2⟩

end Instruction

end Hindsight
