import Hindsight.Proofs.Emulator.WordArithmetic

/-!
# The division law

A division rounds its quotient toward zero, so that quotient and remainder are bound by the division
law and by the sign and the size of the remainder.  For words there is one exception: the least word
by minus one has a quotient that is one too large, and this is also the only one.  It is wrapped
around to the least word, the remainder is zero as it should be, and the law still holds modulo
`2 ^ 16`.

The quotient is written first and the remainder behind it, to a register of its own.  A quotient for
that register is overwritten, and one for `R0` is dropped; the flags belong to it all the same.

## Main definitions

* `Word.QuotientTooLarge`, `Word.IsDivision` — the exception, and the law with its side conditions.
* `Machine.Divides` — what a division leaves.

## Main results

* `Word.IsDivision.unique` — quotient and remainder are determined by the law.
* `Arithmetic.isDivision` — the instruction's quotient and remainder obey it.
* `Emulator.division_law` — **divisions obey the law, whatever their registers are.**
-/

namespace Hindsight

/-! ### Quotients and remainders of words -/

namespace Word

/-- The exact quotient of two words is no word. -/
def QuotientTooLarge (x y : Word) : Prop := signed x = -32768 ∧ signed y = -1

/-- The words `q` and `r` are the quotient and the remainder of `x` and `y`. -/
structure IsDivision (x y q r : Word) : Prop where
  /-- The division law holds modulo `2 ^ 16` in any case. -/
  modEq : signed q * signed y + signed r ≡ signed x [ZMOD 65536]
  /-- It holds for the integers too, unless the quotient is too large. -/
  exact_of : ¬ x.QuotientTooLarge y → signed q * signed y + signed r = signed x
  natAbs_lt : (signed r).natAbs < (signed y).natAbs
  sign_eq : signed r = 0 ∨ (signed r).sign = (signed x).sign
  /-- A quotient that is too large is wrapped around. -/
  wrapped_of : x.QuotientTooLarge y → signed q = -32768 ∧ signed r = 0

variable {x y q r q' r' : Word}

theorem signed_ne_zero_iff : signed y ≠ 0 ↔ y ≠ 0 :=
  not_congr (signed_inj (y := 0))

theorem signed_ofSigned_modEq (i : Int) : signed (ofSigned i) ≡ i [ZMOD 65536] := by
  rw [signed_ofSigned]
  exact Int.bmod_emod

/-- Where the law is exact, it is that of truncating division. -/
theorem IsDivision.tdiv_tmod_eq (h : x.IsDivision y q r) (hy : y ≠ 0)
    (hfits : ¬ x.QuotientTooLarge y) :
    (signed x).tdiv (signed y) = signed q ∧ (signed x).tmod (signed y) = signed r := by
  have hdivisor := signed_ne_zero_iff.mpr hy
  have hlaw := h.exact_of hfits
  rw [Int.mul_comm, Int.add_comm] at hlaw
  have hlt := h.natAbs_lt
  -- the remainder has the sign of the dividend, which bounds it from one side
  rcases Int.le_total 0 (signed x) with hx | hx
  · refine (Int.tdiv_tmod_unique hx hdivisor).mpr ⟨hlaw, ?_, by omega⟩
    rcases h.sign_eq with hzero | hsign
    · exact Int.le_of_eq hzero.symm
    · exact Int.sign_nonneg_iff.mp (hsign ▸ Int.sign_nonneg_iff.mpr hx)
  · refine (Int.tdiv_tmod_unique' hx hdivisor).mpr ⟨hlaw, by omega, ?_⟩
    rcases h.sign_eq with hzero | hsign
    · exact Int.le_of_eq hzero
    · exact Int.sign_nonpos_iff.mp (hsign ▸ Int.sign_nonpos_iff.mpr hx)

/-- **Quotient and remainder are determined** by the law and its side conditions. -/
theorem IsDivision.unique (h : x.IsDivision y q r) (h' : x.IsDivision y q' r') (hy : y ≠ 0) :
    q = q' ∧ r = r' := by
  rw [← signed_inj (x := q), ← signed_inj (x := r)]
  -- both are given by the exception, or both are those of truncating division
  by_cases hlarge : x.QuotientTooLarge y
  · obtain ⟨hq, hr⟩ := h.wrapped_of hlarge
    obtain ⟨hq', hr'⟩ := h'.wrapped_of hlarge
    exact ⟨hq.trans hq'.symm, hr.trans hr'.symm⟩
  · obtain ⟨hq, hr⟩ := h.tdiv_tmod_eq hy hlarge
    obtain ⟨hq', hr'⟩ := h'.tdiv_tmod_eq hy hlarge
    exact ⟨hq.symm.trans hq', hr.symm.trans hr'⟩

end Word

/-! ### The outcome of a division -/

namespace Arithmetic

variable {x y : Word}

/-- The remainder is less than the divisor. -/
theorem natAbs_tmod_lt (hy : y ≠ 0) :
    ((Word.signed x).tmod (Word.signed y)).natAbs < (Word.signed y).natAbs := by
  rw [Int.natAbs_tmod]
  exact Nat.mod_lt _ (Int.natAbs_pos.mpr (Word.signed_ne_zero_iff.mpr hy))

/-- The remainder of two words is always a word. -/
theorem signed_remainder (hy : y ≠ 0) :
    Word.signed (remainder x y) = (Word.signed x).tmod (Word.signed y) := by
  have hlt := natAbs_tmod_lt (x := x) hy
  have hle := Word.neg_le_signed y
  have hle' := Word.signed_lt y
  -- it is smaller than the divisor, which is a word
  rw [remainder, Word.signed_ofSigned_eq_iff]
  omega

/-- **The exact quotient is a word** but for one exception. -/
theorem tdiv_outOfRange_iff (hy : y ≠ 0) :
    ((Word.signed x).tdiv (Word.signed y) < -32768 ∨
        32767 < (Word.signed x).tdiv (Word.signed y)) ↔ x.QuotientTooLarge y := by
  constructor
  · intro hrange
    have hlaw := Int.tdiv_mul_add_tmod (Word.signed x) (Word.signed y)
    have hlt := natAbs_tmod_lt (x := x) hy
    have hle := Int.natAbs_tdiv_le_natAbs (Word.signed x) (Word.signed y)
    have hx := Word.neg_le_signed x
    have hx' := Word.signed_lt x
    -- it is no larger than the dividend, which leaves one value for it
    have hvalue : (Word.signed x).tdiv (Word.signed y) = 32768 := by omega
    rw [hvalue] at hlaw
    unfold Word.QuotientTooLarge
    omega
  · rintro ⟨hleast, hone⟩
    rw [hleast, hone]
    decide

theorem overflow_div (hy : y ≠ 0) : (div x y).overflow = true ↔ x.QuotientTooLarge y := by
  rw [div, overflow_ofExact, decide_eq_true_eq, tdiv_outOfRange_iff hy]

/-- A quotient that is a word is the exact one. -/
theorem signed_value_div (hy : y ≠ 0) (hfits : ¬ x.QuotientTooLarge y) :
    Word.signed (div x y).value = (Word.signed x).tdiv (Word.signed y) := by
  have hrange := mt (tdiv_outOfRange_iff hy).mp hfits
  rw [div, ofExact, Word.signed_ofSigned_eq_iff]
  omega

/-- **Quotient and remainder obey the law.** -/
theorem isDivision (x : Word) {y : Word} (hy : y ≠ 0) :
    x.IsDivision y (div x y).value (remainder x y) := by
  have hlaw := Int.tdiv_mul_add_tmod (Word.signed x) (Word.signed y)
  have hremainder := signed_remainder (x := x) hy
  refine ⟨?_, fun hfits => ?_, ?_, ?_, ?_⟩
  · -- wrapping the quotient changes it by a multiple of `2 ^ 16`
    have hquotient : Word.signed (div x y).value ≡ (Word.signed x).tdiv (Word.signed y)
        [ZMOD 65536] := Word.signed_ofSigned_modEq _
    rw [hremainder]
    calc Word.signed (div x y).value * Word.signed y + (Word.signed x).tmod (Word.signed y)
        ≡ (Word.signed x).tdiv (Word.signed y) * Word.signed y
            + (Word.signed x).tmod (Word.signed y) [ZMOD 65536] :=
          (hquotient.mul_right _).add_right _
      _ = Word.signed x := hlaw
  · rw [signed_value_div hy hfits, hremainder, hlaw]
  · rw [hremainder]
    exact natAbs_tmod_lt hy
  · rw [hremainder, Int.sign_tmod, ← Int.sign_eq_zero_iff_zero, Int.sign_tmod]
    split
    · exact .inl rfl
    · exact .inr rfl
  · rintro ⟨hleast, hone⟩
    rw [hremainder, div, ofExact, hleast, hone]
    decide

end Arithmetic

/-! ### The instruction carried out -/

/-- What a division of `x` by `y` leaves, where `q` is its quotient and `r` its remainder. -/
structure Machine.Divides (m m' : Machine) (d : Reg) (x y q r : Word) : Prop where
  isDivision : x.IsDivision y q r
  /-- The remainder goes to `R15`, where it replaces a quotient.  A quotient for `R0` is dropped. -/
  reg_eq : ∀ s, m'.reg s = if s = 15 then r else if d = s ∧ s ≠ 0 then q else m.reg s
  overflow_iff : m'.flags.overflow = true ↔ x.QuotientTooLarge y
  carry_eq : m'.flags.carry = false
  /-- The comparison flags belong to the quotient, written or not. -/
  tellSign : m'.flags.TellSign q

namespace Emulator

variable {m : Machine} {d a b : UInt8}

/-- A division writes its quotient, then its remainder, and replaces the flags. -/
theorem step_of_division {x y : Word} (e : Emulator)
    (hfetch : Instruction.fetch? m m.pc = some (.register .div d a b))
    (ha : m.operand (fieldReg a) = x) (hb : m.operand (fieldReg b) = y) (hy : y ≠ 0) :
    ∃ access m', e.step m = (.ok access, e.note (.register .div) false, m') ∧
      m'.flags = (Arithmetic.div x y).flags ∧
      ∀ s, m'.reg s = if s = 15 then Arithmetic.remainder x y
        else if fieldReg d = s ∧ s ≠ 0 then (Arithmetic.div x y).value else m.reg s := by
  subst ha hb
  refine ⟨_, _, step_eq_ok_iff.mpr ⟨_, _, hfetch, if_neg hy, rfl, rfl, rfl⟩,
    flags_apply_counted _ m, fun s => ?_⟩
  rw [Effect.reg_apply]
  -- the remainder is written to the machine that holds the quotient
  refine (Effect.reg_writeReg _ (remainderReg, _) s).trans ?_
  by_cases hs : s = 15
  · subst hs
    rfl
  · rw [if_neg hs, if_neg fun h => hs h.1.symm]
    exact Effect.reg_writeReg _ (fieldReg d, _) s

/-- **Divisions obey the law, whatever their registers are.**  A division by anything but zero, the
divisor and the dividend being read before anything is written, succeeds.  Its quotient and its
remainder, and no other words, obey the law; the remainder is left in `R15`, and the quotient in its
own register unless that is `R0` or `R15`.  The overflow is set if the quotient is too large, the
carry is cleared, and the comparison flags tell the sign of the quotient. -/
theorem division_law (e : Emulator)
    (hfetch : Instruction.fetch? m m.pc = some (.register .div d a b))
    (hdivisor : m.operand (fieldReg b) ≠ 0) :
    ∃ access m' q r, e.step m = (.ok access, e.note (.register .div) false, m') ∧
      m.Divides m' (fieldReg d) (m.operand (fieldReg a)) (m.operand (fieldReg b)) q r ∧
      ∀ q' r', (m.operand (fieldReg a)).IsDivision (m.operand (fieldReg b)) q' r' →
        q' = q ∧ r' = r := by
  obtain ⟨access, m', hstep, hflags, hreg⟩ := e.step_of_division hfetch rfl rfl hdivisor
  have hlaw := Arithmetic.isDivision (m.operand (fieldReg a)) hdivisor
  refine ⟨access, m', _, _, hstep, ⟨hlaw, hreg, ?_, ?_, ?_⟩,
    fun q' r' h => h.unique hlaw hdivisor⟩
  · rw [hflags]
    exact Arithmetic.overflow_div hdivisor
  · rw [hflags]
    rfl
  · rw [hflags]
    exact Arithmetic.tellSign_flags _

/-- A machine about to execute an instruction, with two words in `R1` and `R2`. -/
def dividing (instruction x y : Word) : Machine :=
  ((Machine.zero.setMem 0 instruction).setReg 1 x).setReg 2 y

/-- The least word by minus one overflows to itself, also when it is dropped; and of minus seven by
two, with the quotient for `R15` or for the register of the dividend, `R15` holds the remainder. -/
theorem division_law_least :
    (∃ access m', (ofInput []).step (dividing 0x3012 0x8000 0xffff)
        = (.ok access, (ofInput []).note (.register .div) false, m') ∧
      m'.reg 0 = 0 ∧ m'.reg 15 = 0 ∧ m'.flags.overflow = true ∧ m'.flags.lt = true) ∧
    (∃ access m', (ofInput []).step (dividing 0x3f12 0xfff9 2)
        = (.ok access, (ofInput []).note (.register .div) false, m') ∧
      m'.reg 15 = 0xffff ∧ m'.flags.overflow = false ∧ m'.flags.lt = true) ∧
    ∃ access m', (ofInput []).step (dividing 0x3112 0xfff9 2)
        = (.ok access, (ofInput []).note (.register .div) false, m') ∧
      m'.reg 1 = 0xfffd ∧ m'.reg 2 = 2 ∧ m'.reg 15 = 0xffff := by
  have hfetch : ∀ w x y, Instruction.fetch? (dividing w x y) (dividing w x y).pc
      = Instruction.decode w ((dividing w x y).mem 1) := fun w _ _ =>
    congrArg (Instruction.decode · _) (Machine.mem_setMem_self Machine.zero 0 w)
  have hleast : Word.IsDivision 0x8000 0xffff 0x8000 0 :=
    ⟨by decide, fun h => absurd ⟨by decide, by decide⟩ h, by decide, by decide,
      fun _ => by decide⟩
  have hseven : Word.IsDivision 0xfff9 2 0xfffd 0xffff :=
    ⟨by decide, fun _ => by decide, by decide, by decide, fun h => absurd h.1 (by decide)⟩
  refine ⟨?_, ?_, ?_⟩
  · obtain ⟨access, m', q, r, hstep, hm, hunique⟩ :=
      division_law (ofInput []) (m := dividing 0x3012 0x8000 0xffff) (hfetch _ _ _) (by decide)
    obtain ⟨rfl, rfl⟩ := hunique _ _ hleast
    exact ⟨access, m', hstep, hm.reg_eq 0, hm.reg_eq 15,
      hm.overflow_iff.mpr ⟨by decide, by decide⟩, hm.tellSign.lt_iff.mpr (by decide)⟩
  · obtain ⟨access, m', q, r, hstep, hm, hunique⟩ :=
      division_law (ofInput []) (m := dividing 0x3f12 0xfff9 2) (hfetch _ _ _) (by decide)
    obtain ⟨rfl, rfl⟩ := hunique _ _ hseven
    refine ⟨access, m', hstep, hm.reg_eq 15, ?_, hm.tellSign.lt_iff.mpr (by decide)⟩
    rw [← Bool.not_eq_true, hm.overflow_iff]
    exact fun h => absurd h.1 (by decide)
  · obtain ⟨access, m', q, r, hstep, hm, hunique⟩ :=
      division_law (ofInput []) (m := dividing 0x3112 0xfff9 2) (hfetch _ _ _) (by decide)
    obtain ⟨rfl, rfl⟩ := hunique _ _ hseven
    exact ⟨access, m', hstep, hm.reg_eq 1, hm.reg_eq 2, hm.reg_eq 15⟩

end Emulator

end Hindsight
