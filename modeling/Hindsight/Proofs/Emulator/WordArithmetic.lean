import Hindsight.Proofs.Emulator.Invariants
import Mathlib.Data.Int.ModEq

/-!
# Exact arithmetic

Sums, differences and products are formed on words, and so are their flags: a sum has overflowed by
the signs of three words, and a difference has borrowed by a comparison of two.  Here they are told
from the exact result instead.  The result is the exact one modulo `2 ^ 16`, for the signed reading
of the operands as for the unsigned one, the overflow says whether the exact signed result is out of
range, and the carry, of a sum or a difference, whether the unsigned one is.

With that, the flags of a difference order its operands.  The sign of the wrapped difference is that
of the exact one unless it has overflowed, so that the operands ascend just if one of the two flags
is set.  A comparison, which has no difference to tell from, finds the same order.

## Main definitions

* `RegisterOp.operation?`, `RegisterOp.carries` — the exact operation, and its carry.
* `Machine.Computes`, `Machine.Compares` — what an arithmetic instruction and a comparison leave.
* `Flags.Orders` — the flags of a difference order two words.

## Main results

* `Word.signed_modEq`, `Word.toNat_ofSigned` — the readings of a word and of a wrapped result.
* `Arithmetic.add_eq`, `Arithmetic.sub_eq` — sums and differences as wrapped exact results.
* `Emulator.computes_of_fetch`, `Emulator.compares_of_fetch` — the instructions carried out.
* `Arithmetic.orders_flags_sub` — the flags of a difference order its operands.
* `Emulator.arithmetic_exact_and_decisive` — **exact results, and flags that decide every
  comparison.**
-/

namespace Hindsight

/-! ### The two readings of a word -/

namespace Word

theorem signed_eq (w : Word) :
    signed w = if w.toNat < 32768 then (w.toNat : Int) else w.toNat - 65536 := by
  have h : signed w = if 2 * w.toNat < 65536 then (w.toNat : Int) else w.toNat - 65536 :=
    BitVec.toInt_eq_toNat_cond w.toBitVec
  rw [h]
  split <;> split <;> omega

/-- **Both readings** of a word are the same modulo `2 ^ 16`. -/
theorem signed_modEq (w : Word) : signed w ≡ w.toNat [ZMOD 65536] := by
  rw [Int.ModEq, signed_eq]
  split <;> omega

/-- A word is determined by its signed reading. -/
theorem signed_inj {x y : Word} : signed x = signed y ↔ x = y := by
  refine ⟨fun h => ?_, congrArg signed⟩
  rw [← ofSigned_signed x, h, ofSigned_signed]

theorem isNegative_eq (w : Word) : isNegative w = decide (signed w < 0) :=
  BitVec.msb_eq_toInt

theorem toNat_ofSigned (i : Int) : ((ofSigned i).toNat : Int) = i % 65536 := by
  have h : (ofSigned i).toNat = (i % 65536).toNat := BitVec.toNat_ofInt i
  rw [h, Int.toNat_of_nonneg (Int.emod_nonneg i (by decide))]

/-- The word of a number reads as that number if it is in the range. -/
theorem signed_ofSigned_eq_iff (i : Int) :
    signed (ofSigned i) = i ↔ -32768 ≤ i ∧ i ≤ 32767 := by
  rw [signed_ofSigned, Int.bmod_def]
  split <;> omega

theorem ofSigned_add (i j : Int) : ofSigned (i + j) = ofSigned i + ofSigned j :=
  congrArg UInt16.ofBitVec (BitVec.ofInt_add i j)

theorem ofSigned_sub (i j : Int) : ofSigned (i - j) = ofSigned i - ofSigned j := by
  rw [← UInt16.add_sub_cancel (ofSigned (i - j)) (ofSigned j), ← ofSigned_add, Int.sub_add_cancel]

theorem add_eq_ofSigned (x y : Word) : x + y = ofSigned (signed x + signed y) := by
  rw [ofSigned_add, ofSigned_signed, ofSigned_signed]

theorem sub_eq_ofSigned (x y : Word) : x - y = ofSigned (signed x - signed y) := by
  rw [ofSigned_sub, ofSigned_signed, ofSigned_signed]

end Word

/-! ### Wrapped exact results -/

namespace Arithmetic

theorem overflow_ofExact (i : Int) :
    (ofExact i).overflow = decide (i < -32768 ∨ 32767 < i) := by
  have h := Word.signed_ofSigned_eq_iff i
  unfold ofExact
  rw [decide_eq_decide]
  omega

/-- The signs tell whether a sum is out of range, since it is wrapped once at most. -/
theorem overflow_add (x y : Word) :
    (add x y).overflow = (ofExact (Word.signed x + Word.signed y)).overflow := by
  have hx := Word.neg_le_signed x
  have hx' := Word.signed_lt x
  have hy := Word.neg_le_signed y
  have hy' := Word.signed_lt y
  have hsum : Word.signed (x + y) = (Word.signed x + Word.signed y).bmod 65536 := by
    rw [Word.add_eq_ofSigned, Word.signed_ofSigned]
  -- wrapped, the sum is less than one turn away, so that its sign is the other one
  rw [Int.bmod_def] at hsum
  rw [overflow_ofExact, Bool.eq_iff_iff]
  simp only [add, Word.isNegative_eq, Bool.and_eq_true, beq_iff_eq, bne_iff_ne, ne_eq,
    decide_eq_decide, decide_eq_true_eq]
  split at hsum <;> omega

/-- So they do for a difference. -/
theorem overflow_sub (x y : Word) :
    (sub x y).overflow = (ofExact (Word.signed x - Word.signed y)).overflow := by
  have hx := Word.neg_le_signed x
  have hx' := Word.signed_lt x
  have hy := Word.neg_le_signed y
  have hy' := Word.signed_lt y
  have hdifference : Word.signed (x - y) = (Word.signed x - Word.signed y).bmod 65536 := by
    rw [Word.sub_eq_ofSigned, Word.signed_ofSigned]
  -- a difference, too, is less than one turn away
  rw [Int.bmod_def] at hdifference
  rw [overflow_ofExact, Bool.eq_iff_iff]
  simp only [sub, Word.isNegative_eq, Bool.and_eq_true, beq_iff_eq, bne_iff_ne, ne_eq,
    decide_eq_decide, decide_eq_true_eq]
  split at hdifference <;> omega

/-- **A sum** is the exact one, wrapped, and has carried if the unsigned one is out of range. -/
theorem add_eq (x y : Word) :
    add x y = { ofExact (Word.signed x + Word.signed y) with
      carry := decide (65536 ≤ x.toNat + y.toNat) } := by
  -- a sum is less than its operand just if it has been wrapped
  have hcarry : decide (x + y < x) = decide (65536 ≤ x.toNat + y.toNat) := by
    have hx := x.toNat_lt
    have hy := y.toNat_lt
    rw [decide_eq_decide, UInt16.lt_iff_toNat_lt, UInt16.toNat_add]
    omega
  exact (mk.injEq ..).mpr ⟨Word.add_eq_ofSigned x y, hcarry, overflow_add x y⟩

/-- **A difference** is the exact one, wrapped, and has borrowed if the unsigned one is out of
range. -/
theorem sub_eq (x y : Word) :
    sub x y = { ofExact (Word.signed x - Word.signed y) with
      carry := decide (x.toNat < y.toNat) } := by
  have hcarry : decide (x < y) = decide (x.toNat < y.toNat) :=
    decide_eq_decide.mpr UInt16.lt_iff_toNat_lt
  exact (mk.injEq ..).mpr ⟨Word.sub_eq_ofSigned x y, hcarry, overflow_sub x y⟩

end Arithmetic

/-! ### The operations -/

namespace RegisterOp

/-- The operation on integers that an arithmetic operation on any words stands for. -/
def operation? (op : RegisterOp) : Option (Int → Int → Int) :=
  match op with
  | .add => some (· + ·)
  | .sub => some (· - ·)
  | .mul => some (· * ·)
  | _ => none

/-- Whether an arithmetic operation carries: a sum of the unsigned words that is too large, or a
difference that is negative.  A product never does. -/
def carries (op : RegisterOp) (x y : Word) : Bool :=
  match op with
  | .add => 65536 ≤ x.toNat + y.toNat
  | .sub => x.toNat < y.toNat
  | _ => false

variable {op : RegisterOp} {f : Int → Int → Int}

/-- **The outcome of an arithmetic operation** is the exact result, wrapped. -/
theorem arithmetic?_of_operation? (h : op.operation? = some f) (x y : Word) :
    op.arithmetic? x y
      = some { Arithmetic.ofExact (f (Word.signed x) (Word.signed y)) with
          carry := op.carries x y } := by
  cases op with
  | add => cases h; exact congrArg some (Arithmetic.add_eq x y)
  | sub => cases h; exact congrArg some (Arithmetic.sub_eq x y)
  | mul => cases h; rfl
  | div | cmp | and | or | xor | trap => cases h

/-- Modulo `2 ^ 16`, the exact result does not depend on the reading of the operands. -/
theorem operation?_modEq (h : op.operation? = some f) (x y : Word) :
    f (Word.signed x) (Word.signed y) ≡ f x.toNat y.toNat [ZMOD 65536] := by
  have hx := Word.signed_modEq x
  have hy := Word.signed_modEq y
  cases op with
  | add => cases h; exact hx.add hy
  | sub => cases h; exact hx.sub hy
  | mul => cases h; exact hx.mul hy
  | div | cmp | and | or | xor | trap => cases h

end RegisterOp

/-! ### Flags that tell a sign -/

/-- The comparison flags tell the sign of a word, just one of them being set. -/
structure Flags.TellSign (f : Flags) (w : Word) : Prop where
  lt_iff : f.lt = true ↔ Word.signed w < 0
  eq_iff : f.eq = true ↔ Word.signed w = 0
  gt_iff : f.gt = true ↔ 0 < Word.signed w
  comparisons_eq : f.comparisons = 1

/-- The flags of an outcome tell the sign of its word. -/
theorem Arithmetic.tellSign_flags (r : Arithmetic) : r.flags.TellSign r.value where
  lt_iff := by rw [flags, Flags.lt_compared, decide_eq_true_eq]
  eq_iff := by rw [flags, Flags.eq_compared, decide_eq_true_eq]
  gt_iff := by rw [flags, Flags.gt_compared, decide_eq_true_eq]
  comparisons_eq := by rw [flags, Flags.comparisons_compared]

/-! ### Flags that order two words -/

/-- The flags order two words, as a difference of the two leaves them. -/
structure Flags.Orders (f : Flags) (x y : Word) : Prop where
  lt_iff : Word.signed x < Word.signed y ↔ f.lt ≠ f.overflow
  eq_iff : x = y ↔ f.eq = true
  carry_iff : x.toNat < y.toNat ↔ f.carry = true

/-- **The flags of a difference order its operands**: its sign is that of the exact difference, or
the other one if it has overflowed. -/
theorem Arithmetic.orders_flags_sub (x y : Word) : (sub x y).flags.Orders x y := by
  have hx := Word.neg_le_signed x
  have hx' := Word.signed_lt x
  have hy := Word.neg_le_signed y
  have hy' := Word.signed_lt y
  have hvalue : Word.signed (sub x y).value = (Word.signed x - Word.signed y).bmod 65536 := by
    rw [sub_eq]
    exact Word.signed_ofSigned _
  rw [Int.bmod_def] at hvalue
  refine ⟨?_, ?_, ?_⟩
  -- the wrapped difference has the sign of the exact one just if that is in range
  · have hlt : (sub x y).flags.lt = decide (Word.signed (sub x y).value < 0) := rfl
    have hoverflow : (sub x y).flags.overflow
        = decide (Word.signed x - Word.signed y < -32768 ∨ 32767 < Word.signed x - Word.signed y) :=
      (overflow_sub x y).trans (overflow_ofExact _)
    rw [hlt, hoverflow, ne_eq, decide_eq_decide]
    split at hvalue <;> omega
  · have heq : (sub x y).flags.eq = decide (Word.signed (sub x y).value = 0) := rfl
    rw [heq, decide_eq_true_eq, ← Word.signed_inj]
    split at hvalue <;> omega
  · rw [sub_eq]
    exact decide_eq_true_iff.symm

/-! ### The instructions carried out -/

/-- What an arithmetic instruction with result `w` leaves, where `f` is its exact operation and `x`
and `y` are its operands. -/
structure Machine.Computes (m m' : Machine) (op : RegisterOp) (f : Int → Int → Int) (d : Reg)
    (x y w : Word) : Prop where
  /-- The result is the exact one, wrapped, whichever way the operands are read. -/
  toNat_eq : (w.toNat : Int) = f x.toNat y.toNat % 65536
  toNat_eq_of_signed : (w.toNat : Int) = f (Word.signed x) (Word.signed y) % 65536
  /-- A result for `R0` is dropped, but its flags are set. -/
  reg_eq : ∀ r, m'.reg r = if d = r ∧ r ≠ 0 then w else m.reg r
  overflow_iff : m'.flags.overflow = true ↔
    f (Word.signed x) (Word.signed y) < -32768 ∨ 32767 < f (Word.signed x) (Word.signed y)
  carry_eq : m'.flags.carry = op.carries x y
  lt_iff : m'.flags.lt = true ↔ Word.signed w < 0
  eq_iff : m'.flags.eq = true ↔ Word.signed w = 0
  gt_iff : m'.flags.gt = true ↔ 0 < Word.signed w
  /-- Just one of the three is set. -/
  comparisons_eq : m'.flags.comparisons = 1

/-- What a comparison of `x` with `y` leaves. -/
structure Machine.Compares (m m' : Machine) (x y : Word) : Prop where
  lt_iff : m'.flags.lt = true ↔ Word.signed x < Word.signed y
  eq_iff : m'.flags.eq = true ↔ x = y
  gt_iff : m'.flags.gt = true ↔ Word.signed y < Word.signed x
  carry_eq : m'.flags.carry = m.flags.carry
  overflow_eq : m'.flags.overflow = m.flags.overflow
  reg_eq : ∀ r, m'.reg r = m.reg r

namespace Emulator

variable {m : Machine} {op : RegisterOp} {d a b : UInt8}

/-- An arithmetic instruction writes its result and replaces the flags. -/
theorem step_of_arithmetic? {r : Arithmetic} (e : Emulator)
    (hfetch : Instruction.fetch? m m.pc = some (.register op d a b))
    (hop : op.arithmetic? (m.operand (fieldReg a)) (m.operand (fieldReg b)) = some r) :
    ∃ access m', e.step m = (.ok access, e.note (.register op) false, m') ∧
      m'.flags = r.flags ∧
      ∀ s, m'.reg s = if fieldReg d = s ∧ s ≠ 0 then r.value else m.reg s := by
  have heffect : (Instruction.register op d a b).effect m (fetched m 1) e.input.peek
      = .ok (r.effect (fieldReg d) (fieldReg a) (fieldReg b) (fetched m 1)) := by
    cases op <;> cases hop <;> rfl
  refine ⟨_, _, step_eq_ok_iff.mpr ⟨_, _, hfetch, heffect, rfl, rfl, rfl⟩, ?_, fun s => ?_⟩
  · exact flags_apply_counted _ m
  · rw [Effect.reg_apply]
    exact Effect.reg_writeReg _ (fieldReg d, r.value) s

/-- **An arithmetic instruction** leaves the exact result, wrapped, and the flags that belong to
it. -/
theorem computes_of_fetch {f : Int → Int → Int} (e : Emulator)
    (hfetch : Instruction.fetch? m m.pc = some (.register op d a b))
    (hop : op.operation? = some f) :
    ∃ access m' w, e.step m = (.ok access, e.note (.register op) false, m') ∧
      m.Computes m' op f (fieldReg d) (m.operand (fieldReg a)) (m.operand (fieldReg b)) w := by
  obtain ⟨access, m', hstep, hflags, hreg⟩ :=
    e.step_of_arithmetic? hfetch (RegisterOp.arithmetic?_of_operation? hop _ _)
  have hvalue := Word.toNat_ofSigned
    (f (Word.signed (m.operand (fieldReg a))) (Word.signed (m.operand (fieldReg b))))
  -- the exact results of the two readings differ by a multiple of `2 ^ 16`
  have hunsigned := hvalue.trans (RegisterOp.operation?_modEq hop _ _)
  have hsign := hflags ▸ Arithmetic.tellSign_flags _
  refine ⟨access, m', _, hstep, ⟨hunsigned, hvalue, hreg, ?_, ?_, hsign.lt_iff, hsign.eq_iff,
    hsign.gt_iff, hsign.comparisons_eq⟩⟩
  · rw [hflags, Arithmetic.flags, Flags.overflow_compared, Arithmetic.overflow_ofExact,
      decide_eq_true_eq]
  · rw [hflags]
    rfl

/-- **A comparison** tells the order of its operands, and leaves all else that is told of arithmetic
alone. -/
theorem compares_of_fetch (e : Emulator)
    (hfetch : Instruction.fetch? m m.pc = some (.register .cmp d a b)) :
    ∃ access m', e.step m = (.ok access, e.note (.register .cmp) false, m') ∧
      m.Compares m' (m.operand (fieldReg a)) (m.operand (fieldReg b)) := by
  refine ⟨_, _, step_eq_ok_iff.mpr ⟨_, _, hfetch, rfl, rfl, rfl, rfl⟩,
    ⟨?_, ?_, ?_, ?_, ?_, fun r => Effect.reg_apply _ _ _⟩⟩
  · rw [flags_apply_counted, Flags.lt_compared, decide_eq_true_eq]
  · rw [flags_apply_counted, Flags.eq_compared, decide_eq_true_eq, Word.signed_inj]
  · rw [flags_apply_counted, Flags.gt_compared, decide_eq_true_eq]
  · rw [flags_apply_counted, Flags.carry_compared]
    rfl
  · rw [flags_apply_counted, Flags.overflow_compared]
    rfl

/-- The flags after a subtraction order its operands. -/
theorem orders_of_fetch (e : Emulator)
    (hfetch : Instruction.fetch? m m.pc = some (.register .sub d a b)) :
    (e.step m).2.2.flags.Orders (m.operand (fieldReg a)) (m.operand (fieldReg b)) := by
  obtain ⟨access, m', hstep, hflags, -⟩ := e.step_of_arithmetic? hfetch rfl
  rw [hstep, hflags]
  exact Arithmetic.orders_flags_sub _ _

/-- **Exact results, and flags that decide every comparison.**  Addition, subtraction and
multiplication succeed on any words.  They give the exact result modulo `2 ^ 16`, with the overflow,
the carry and the one comparison flag that belong to it, also when the result is for `R0` and
dropped, or for the register of an operand.  The flags of a difference order its operands: they
ascend as signed numbers if just one of less-than and overflow is set, are equal if equal is set,
and ascend as unsigned numbers if the carry is.  A comparison of the same two words, from whatever
registers they come, sets the same order directly. -/
theorem arithmetic_exact_and_decisive (e : Emulator) (m : Machine) (d a b : UInt8) :
    (∀ op f, Instruction.fetch? m m.pc = some (.register op d a b) → op.operation? = some f →
        ∃ access m' w, e.step m = (.ok access, e.note (.register op) false, m') ∧
          m.Computes m' op f (fieldReg d) (m.operand (fieldReg a)) (m.operand (fieldReg b)) w) ∧
      (Instruction.fetch? m m.pc = some (.register .sub d a b) →
        (e.step m).2.2.flags.Orders (m.operand (fieldReg a)) (m.operand (fieldReg b))) ∧
      ∀ (g : Emulator) (n : Machine) (d' a' b' : UInt8),
        Instruction.fetch? n n.pc = some (.register .cmp d' a' b') →
        n.operand (fieldReg a') = m.operand (fieldReg a) →
        n.operand (fieldReg b') = m.operand (fieldReg b) →
        ∃ access n', g.step n = (.ok access, g.note (.register .cmp) false, n') ∧
          n.Compares n' (m.operand (fieldReg a)) (m.operand (fieldReg b)) ∧
          (Instruction.fetch? m m.pc = some (.register .sub d a b) →
            n'.flags.lt = ((e.step m).2.2.flags.lt != (e.step m).2.2.flags.overflow) ∧
              n'.flags.eq = (e.step m).2.2.flags.eq) := by
  refine ⟨fun op f hfetch hop => computes_of_fetch e hfetch hop, orders_of_fetch e,
    fun g n d' a' b' hcmp ha hb => ?_⟩
  obtain ⟨access, n', hstep, hcompares⟩ := compares_of_fetch g hcmp
  rw [ha, hb] at hcompares
  refine ⟨access, n', hstep, hcompares, fun hsub => ?_⟩
  have horders := orders_of_fetch e hsub
  exact ⟨Bool.eq_iff_iff.mpr ((hcompares.lt_iff.trans horders.lt_iff).trans bne_iff_ne.symm),
    Bool.eq_iff_iff.mpr (hcompares.eq_iff.trans horders.eq_iff)⟩

/-- A machine about to execute an instruction, with the least word in `R1` and one in `R2`. -/
def computing (instruction : Word) : Machine :=
  ((Machine.zero.setMem 0 instruction).setReg 1 0x8000).setReg 2 1

/-- The difference of the two overflows into the register of the first, the square of the least word
is zero but for its overflow, and the least word is less than one. -/
theorem arithmetic_exact_and_decisive_least :
    (∃ access m', (ofInput []).step (computing 0x1112)
        = (.ok access, (ofInput []).note (.register .sub) false, m') ∧
      m'.reg 1 = 0x7fff ∧ m'.flags.overflow = true ∧ m'.flags.lt = false) ∧
    (∃ access m', (ofInput []).step (computing 0x2011)
        = (.ok access, (ofInput []).note (.register .mul) false, m') ∧
      m'.reg 0 = 0 ∧ m'.flags.overflow = true ∧ m'.flags.eq = true) ∧
    ∃ access m', (ofInput []).step (computing 0x4012)
        = (.ok access, (ofInput []).note (.register .cmp) false, m') ∧ m'.flags.lt = true := by
  have hfetch : ∀ w, Instruction.fetch? (computing w) (computing w).pc
      = Instruction.decode w ((computing w).mem 1) := fun w =>
    congrArg (Instruction.decode · _) (Machine.mem_setMem_self Machine.zero 0 w)
  obtain ⟨hsub, -, hcmp⟩ := arithmetic_exact_and_decisive (ofInput []) (computing 0x1112) 1 1 2
  obtain ⟨hmul, -, -⟩ := arithmetic_exact_and_decisive (ofInput []) (computing 0x2011) 0 1 1
  refine ⟨?_, ?_, ?_⟩
  · obtain ⟨access, m', w, hstep, hw⟩ := hsub .sub _ (hfetch _) rfl
    have hvalue : w = 0x7fff := UInt16.toNat_inj.mp (Int.ofNat_inj.mp hw.toNat_eq)
    refine ⟨access, m', hstep, (hw.reg_eq 1).trans hvalue, hw.overflow_iff.mpr (by decide), ?_⟩
    rw [← Bool.not_eq_true, hw.lt_iff, hvalue]
    decide
  · obtain ⟨access, m', w, hstep, hw⟩ := hmul .mul _ (hfetch _) rfl
    have hvalue : w = 0 := UInt16.toNat_inj.mp (Int.ofNat_inj.mp hw.toNat_eq)
    refine ⟨access, m', hstep, hw.reg_eq 0, hw.overflow_iff.mpr (by decide), ?_⟩
    rw [hw.eq_iff, hvalue]
    decide
  · obtain ⟨access, m', hstep, hm, -⟩ :=
      hcmp (ofInput []) (computing 0x4012) 0 1 2 (hfetch _) rfl rfl
    exact ⟨access, m', hstep, hm.lt_iff.mpr (by decide)⟩

end Emulator

end Hindsight
