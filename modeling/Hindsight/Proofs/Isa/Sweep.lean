import Hindsight.Isa.Instruction

/-!
# Linear sweeps

Words are read as instructions from the front: the first word, with the displacement behind it if
it has one, is an instruction, and the next one begins where that ends.  Decoding gives only
instructions whose fields are four bits wide, and these are exactly the ones that it finds again
behind their encoding.  So a sweep is the inverse of encoding one instruction after the other.

## Main definitions

* `Fields.Narrow`, `Instruction.Narrow` — the fields are four bits wide.
* `Instruction.sweep?` — the instructions that words hold, one after the other.

## Main results

* `Fields.toWord_ofWord`, `Fields.ofWord_toWord` — a word is its fields.
* `Opcode.ofFields?_eq_some_iff` — which fields hold an opcode.
* `Instruction.decode_eq_some_iff` — decoding is the inverse of encoding.
* `Instruction.decode_eq_none_iff` — whether a word is an instruction does not depend on the next.
* `Instruction.sweep?_eq_some_iff` — **what a sweep finds.**
-/

namespace Hindsight

/-! ### Fields of a word -/

/-- There are only sixteen values of a narrow field to look at. -/
theorem forall_narrowField {p : UInt8 → Prop} (h : ∀ n : Fin 16, p (.ofNat n.val)) {f : UInt8}
    (hf : f.toNat < 16) : p f := by
  have hn := h ⟨f.toNat, hf⟩
  rwa [UInt8.ofNat_toNat] at hn

namespace Fields

/-- All fields are four bits wide. -/
structure Narrow (f : Fields) : Prop where
  op_lt : f.op.toNat < 16
  d_lt : f.d.toNat < 16
  a_lt : f.a.toNat < 16
  b_lt : f.b.toNat < 16

theorem toNat_ofNat_mod (n : Nat) : (UInt8.ofNat (n % 16)).toNat = n % 16 := by
  rw [UInt8.toNat_ofNat']
  omega

theorem narrow_ofWord (w : Word) : (ofWord w).Narrow := by
  constructor <;>
  · rw [ofWord, toNat_ofNat_mod]
    exact Nat.mod_lt _ (by decide)

/-- The fields of a word make up the word. -/
theorem toWord_ofWord (w : Word) : (ofWord w).toWord = w := by
  have hw : w.toNat < 65536 := w.toNat_lt
  rw [← UInt16.toNat_inj, toWord, ofWord]
  simp only [toNat_ofNat_mod, UInt16.toNat_ofNat']
  omega

/-- Fields that fit in a word are found in it. -/
theorem ofWord_toWord {f : Fields} (h : f.Narrow) : ofWord f.toWord = f := by
  obtain ⟨hop, hd, ha, hb⟩ := h
  obtain ⟨op, d, a, b⟩ := f
  dsimp only at hop hd ha hb
  rw [toWord, ofWord]
  simp only [mk.injEq, ← UInt8.toNat_inj, toNat_ofNat_mod, UInt16.toNat_ofNat']
  omega

end Fields

/-! ### Opcodes -/

theorem RegisterOp.ofCode?_eq_some_iff {c : UInt8} {op : RegisterOp} :
    ofCode? c = some op ↔ c = op.code := by
  constructor
  · intro h
    unfold ofCode? at h
    split at h <;> cases h <;> rfl
  · rintro rfl
    exact ofCode?_code op

theorem MemoryOp.ofCode?_eq_some_iff {c : UInt8} {op : MemoryOp} :
    ofCode? c = some op ↔ c = op.code := by
  constructor
  · intro h
    unfold ofCode? at h
    split at h <;> cases h <;> rfl
  · rintro rfl
    exact ofCode?_code op

theorem RegisterOp.code_lt (op : RegisterOp) : op.code.toNat < 16 := by cases op <;> decide

theorem MemoryOp.code_lt (op : MemoryOp) : op.code.toNat < 16 := by cases op <;> decide

theorem Opcode.memoryMark_lt : memoryMark.toNat < 16 := by decide

namespace Opcode

theorem ofFields?_eq_register_iff {c b : UInt8} {op : RegisterOp} :
    ofFields? c b = some (register op) ↔ c = op.code := by
  constructor
  · intro h
    unfold ofFields? at h
    split at h
    · obtain ⟨op', -, heq⟩ := Option.map_eq_some_iff.mp h
      cases heq
    · obtain ⟨op', hcode, heq⟩ := Option.map_eq_some_iff.mp h
      cases heq
      exact RegisterOp.ofCode?_eq_some_iff.mp hcode
  · rintro rfl
    exact ofFields?_register op b

theorem ofFields?_eq_memory_iff {c b : UInt8} {op : MemoryOp} :
    ofFields? c b = some (memory op) ↔ c = memoryMark ∧ b = op.code := by
  constructor
  · intro h
    unfold ofFields? at h
    split at h
    · next hmark =>
      obtain ⟨op', hcode, heq⟩ := Option.map_eq_some_iff.mp h
      cases heq
      exact ⟨hmark, MemoryOp.ofCode?_eq_some_iff.mp hcode⟩
    · obtain ⟨op', -, heq⟩ := Option.map_eq_some_iff.mp h
      cases heq
  · rintro ⟨rfl, rfl⟩
    exact ofFields?_memory op

end Opcode

/-! ### One instruction -/

namespace Instruction

/-- The register fields are four bits wide. -/
def Narrow : Instruction → Prop
  | register _ d a b => d.toNat < 16 ∧ a.toNat < 16 ∧ b.toNat < 16
  | memory _ d a _ => d.toNat < 16 ∧ a.toNat < 16

/-- **Decoding is the inverse of encoding.**  An instruction is decoded if its words are there,
which are one or both of those looked at. -/
theorem decode_eq_some_iff {word next : Word} {i : Instruction} :
    decode word next = some i ↔ i.Narrow ∧ i.encode = [word, next].take i.opcode.size := by
  have hnarrow := Fields.narrow_ofWord word
  have hword := Fields.toWord_ofWord word
  constructor
  · intro h
    unfold decode at h
    dsimp only at h
    split at h
    · next op hop =>
      cases h
      -- the operation field is the code, and the word is made up of its fields
      rw [Opcode.ofFields?_eq_register_iff] at hop
      refine ⟨⟨hnarrow.d_lt, hnarrow.a_lt, hnarrow.b_lt⟩, ?_⟩
      rw [encode, ← hop, hword]
      rfl
    · next op hop =>
      cases h
      -- the operation field is the mark, and the last one the code
      obtain ⟨hmark, hcode⟩ := Opcode.ofFields?_eq_memory_iff.mp hop
      refine ⟨⟨hnarrow.d_lt, hnarrow.a_lt⟩, ?_⟩
      rw [encode, ← hmark, ← hcode, hword]
      rfl
    · cases h
  · rintro ⟨hi, hencode⟩
    cases i with
    | register op d a b =>
      obtain ⟨hd, ha, hb⟩ := hi
      obtain rfl : Fields.toWord ⟨op.code, d, a, b⟩ = word := (List.cons.inj hencode).1
      have hfields : Fields.Narrow ⟨op.code, d, a, b⟩ := ⟨op.code_lt, hd, ha, hb⟩
      simp only [decode, Fields.ofWord_toWord hfields, Opcode.ofFields?_register]
    | memory op d a disp =>
      obtain ⟨hd, ha⟩ := hi
      obtain ⟨rfl, hnext⟩ := List.cons.inj hencode
      obtain rfl : disp = next := (List.cons.inj hnext).1
      have hfields : Fields.Narrow ⟨Opcode.memoryMark, d, a, op.code⟩ :=
        ⟨Opcode.memoryMark_lt, hd, ha, op.code_lt⟩
      simp only [decode, Fields.ofWord_toWord hfields, Opcode.ofFields?_memory]

/-- **Whether a word is an instruction** does not depend on the next one. -/
theorem decode_eq_none_iff {word next : Word} :
    decode word next = none ↔
      Opcode.ofFields? (Fields.ofWord word).op (Fields.ofWord word).b = none := by
  cases hop : Opcode.ofFields? (Fields.ofWord word).op (Fields.ofWord word).b with
  | none => simp [decode, hop]
  | some op => cases op <;> simp [decode, hop]

/-- A word that is decoded as nothing in one place is so everywhere. -/
theorem decode_eq_none_of_decode {word next : Word} (h : decode word next = none) (next' : Word) :
    decode word next' = none :=
  decode_eq_none_iff.mpr (decode_eq_none_iff.mp h)

/-! ### Sweeps -/

/-- The instructions that words hold one after the other, from the first word to the last.  There
are none if a word that is reached is no instruction, or lacks its displacement at the end. -/
def sweep? : List Word → Option (List Instruction)
  | [] => some []
  | word :: rest =>
    match decode word (rest.headD 0) with
    | none => none
    | some (register op d a b) => (sweep? rest).map (register op d a b :: ·)
    | some (memory op d a disp) =>
      match rest with
      | [] => none
      | _ :: rest => (sweep? rest).map (memory op d a disp :: ·)

variable {words : List Word} {i : Instruction} {is : List Instruction}

/-- An instruction at the front is found, and the sweep goes on behind its words. -/
theorem sweep?_encode_append (hi : i.Narrow) (rest : List Word) :
    sweep? (i.encode ++ rest) = (sweep? rest).map (i :: ·) := by
  cases i with
  | register op d a b =>
    have hdecode : decode (Fields.toWord ⟨op.code, d, a, b⟩) (rest.headD 0)
        = some (register op d a b) := decode_eq_some_iff.mpr ⟨hi, rfl⟩
    rw [encode, List.singleton_append, sweep?.eq_def]
    simp only [hdecode]
  | memory op d a disp =>
    have hdecode : decode (Fields.toWord ⟨Opcode.memoryMark, d, a, op.code⟩) disp
        = some (memory op d a disp) := decode_eq_some_iff.mpr ⟨hi, rfl⟩
    rw [encode, List.cons_append, List.singleton_append, sweep?.eq_def]
    simp only [List.headD_cons, hdecode]

/-- Where there are words, the first instruction that is found is at the front, and the others
are found behind its words. -/
theorem exists_of_sweep?_cons {word : Word} (h : sweep? (word :: words) = some is) :
    ∃ i js rest, is = i :: js ∧ i.Narrow ∧ word :: words = i.encode ++ rest ∧
      sweep? rest = some js := by
  unfold sweep? at h
  split at h
  · cases h
  · next op d a b hdecode =>
    obtain ⟨js, hjs, rfl⟩ := Option.map_eq_some_iff.mp h
    obtain ⟨hi, hencode⟩ := decode_eq_some_iff.mp hdecode
    exact ⟨_, js, words, rfl, hi, by rw [hencode]; rfl, hjs⟩
  · next op d a disp hdecode =>
    -- the displacement has to be there
    cases words with
    | nil => cases h
    | cons next words =>
      obtain ⟨js, hjs, rfl⟩ := Option.map_eq_some_iff.mp h
      obtain ⟨hi, hencode⟩ := decode_eq_some_iff.mp hdecode
      exact ⟨_, js, words, rfl, hi, by rw [hencode]; rfl, hjs⟩

/-- **What a sweep finds**: the instructions whose words these are, one after the other. -/
theorem sweep?_eq_some_iff :
    sweep? words = some is ↔ (∀ i ∈ is, i.Narrow) ∧ words = is.flatMap encode := by
  constructor
  · intro h
    -- the first instruction takes words away, so the induction is on what has been found
    induction is generalizing words with
    | nil =>
      cases words with
      | nil => exact ⟨fun i hi => absurd hi (List.not_mem_nil), rfl⟩
      | cons word words =>
        obtain ⟨i, js, rest, heq, -⟩ := exists_of_sweep?_cons h
        cases heq
    | cons i is ih =>
      cases words with
      | nil => cases h
      | cons word words =>
        obtain ⟨_, _, rest, heq, hi, hwords, hrest⟩ := exists_of_sweep?_cons h
        cases heq
        obtain ⟨his, hrest⟩ := ih hrest
        rw [hwords, hrest]
        exact ⟨List.forall_mem_cons.mpr ⟨hi, his⟩, rfl⟩
  · rintro ⟨hnarrow, rfl⟩
    induction is with
    | nil => rfl
    | cons i is ih =>
      obtain ⟨hi, his⟩ := List.forall_mem_cons.mp hnarrow
      rw [List.flatMap_cons, sweep?_encode_append hi, ih his]
      rfl

end Instruction

end Hindsight
