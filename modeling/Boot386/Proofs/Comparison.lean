import Mathlib.Order.Nat
import Boot386.Flags

/-!
# Conditions compare

The flags of a subtraction are four bits, and a condition is a formula in them. What a program means
by a condition is a comparison of the two operands: `Condition.Compares c a b`. The first says what
the second means (`Condition.holds_ofSub_iff`).

Signed order is the case that is not read off one flag. The sign of the difference is wrong exactly
if the difference does not fit (`Flags.overflow_ofSub_iff`), so sign and overflow differ exactly if
the true difference is negative (`Flags.sign_ne_overflow_iff`).
-/

namespace Boot386

/-! ### Signed values -/

namespace Word

/-- A word read as a two's complement number, as an integer. -/
def signedValue (w : UInt32) : Int :=
  (toSigned w).toInt

/-- The integers that a word can stand for in two's complement. -/
def FitsSigned (z : Int) : Prop :=
  -2147483648 ≤ z ∧ z < 2147483648

instance (z : Int) : Decidable (FitsSigned z) :=
  inferInstanceAs (Decidable (_ ∧ _))

theorem signedValue_eq (w : UInt32) :
    signedValue w
      = if w.toNat < 2147483648 then (w.toNat : Int) else (w.toNat : Int) - 4294967296 := by
  have hnat : w.toBitVec.toNat = w.toNat := rfl
  show w.toBitVec.toInt = _
  rw [BitVec.toInt_eq_toNat_cond, hnat]
  split <;> split <;> omega

theorem signedValue_inj {v w : UInt32} : signedValue v = signedValue w ↔ v = w := by
  have hv := v.toNat_lt
  have hw := w.toNat_lt
  rw [← UInt32.toNat_inj, signedValue_eq, signedValue_eq]
  split <;> split <;> omega

/-- A byte that is zero-extended is not negative. -/
theorem signedValue_toUInt32 (b : UInt8) : signedValue b.toUInt32 = b.toNat := by
  have hb := b.toNat_lt
  rw [signedValue_eq, UInt8.toNat_toUInt32, if_pos (by omega)]

end Word

/-! ### The flags of a subtraction -/

namespace Flags

open Word (signedValue FitsSigned)

variable (a b : UInt32)

/-- The wide difference is cut to the wrapped one. -/
theorem toUInt32_wide : (a.toUInt64 - b.toUInt64).toUInt32 = a - b := by
  rw [UInt64.toUInt32_sub, UInt32.toUInt32_toUInt64, UInt32.toUInt32_toUInt64]

/-- **Carry.** Bit 32 of the wide difference is the borrow. -/
theorem carry_ofSub_iff : (ofSub a b).carry = true ↔ a < b := by
  have ha := a.toNat_lt
  have hb := b.toNat_lt
  simp only [ofSub, bne_iff_ne, ne_eq, ← UInt64.toNat_inj, UInt64.toNat_and,
    UInt64.toNat_shiftRight, UInt64.toNat_sub, UInt32.toNat_toUInt64, UInt64.reduceToNat,
    Nat.reduceMod, Nat.shiftRight_eq_div_pow, Nat.and_one_is_mod, UInt32.lt_iff_toNat_lt]
  -- a smaller first operand wraps around in 64 bits, which sets all bits from bit 32 on
  omega

theorem zero_ofSub_iff : (ofSub a b).zero = true ↔ a = b := by
  have ha := a.toNat_lt
  have hb := b.toNat_lt
  simp only [ofSub, toUInt32_wide, beq_iff_eq, ← UInt32.toNat_inj, UInt32.toNat_sub,
    UInt32.toNat_zero]
  omega

theorem sign_ofSub_iff : (ofSub a b).sign = true ↔ 2147483648 ≤ (a - b).toNat := by
  simp only [ofSub, toUInt32_wide, topBit, decide_eq_true_eq]

/-- **Overflow.** The operands differ in sign and the result has the sign of the second one exactly
if the difference does not fit. -/
theorem overflow_ofSub_iff :
    (ofSub a b).overflow = true ↔ ¬ FitsSigned (signedValue a - signedValue b) := by
  have ha := a.toNat_lt
  have hb := b.toNat_lt
  -- everything in terms of the two numbers, with one case for each pair of signs
  simp only [ofSub, toUInt32_wide, topBit, Bool.and_eq_true, bne_iff_ne, ne_eq, decide_eq_decide,
    FitsSigned, Word.signedValue_eq, UInt32.toNat_sub]
  split <;> split <;> omega

/-- **Signed order.** Sign and overflow differ exactly if the difference is negative. -/
theorem sign_ne_overflow_iff :
    (ofSub a b).sign ≠ (ofSub a b).overflow ↔ signedValue a < signedValue b := by
  have hover := overflow_ofSub_iff a b
  have ha := a.toNat_lt
  have hb := b.toNat_lt
  rw [ne_eq, Bool.eq_iff_iff, hover, sign_ofSub_iff, FitsSigned, Word.signedValue_eq,
    Word.signedValue_eq, UInt32.toNat_sub]
  split <;> split <;> omega

end Flags

/-! ### What conditions mean -/

namespace Condition

open Word (signedValue FitsSigned)

/-- The comparison of two operands that a condition stands for after their subtraction. -/
def Compares (c : Condition) (a b : UInt32) : Prop :=
  match c with
  | carry => a < b
  | notCarry => ¬ a < b
  | zero => a = b
  | notZero => a ≠ b
  | sign => 2147483648 ≤ (a - b).toNat
  | notSign => ¬ 2147483648 ≤ (a - b).toNat
  | overflow => ¬ FitsSigned (signedValue a - signedValue b)
  | notOverflow => FitsSigned (signedValue a - signedValue b)
  | less => signedValue a < signedValue b
  | lessOrEqual => signedValue a ≤ signedValue b

/-- **Conditions compare.** After a subtraction a condition is met exactly if the operands compare
as it says. -/
theorem holds_ofSub_iff (c : Condition) (a b : UInt32) :
    c.holds (Flags.ofSub a b) = true ↔ c.Compares a b := by
  have hcarry := Flags.carry_ofSub_iff a b
  have hsign := Flags.sign_ofSub_iff a b
  have hzero := Flags.zero_ofSub_iff a b
  have hover := Flags.overflow_ofSub_iff a b
  have hless := Flags.sign_ne_overflow_iff a b
  cases c with
  | carry => exact hcarry
  | notCarry => simp [holds, Compares, ← hcarry]
  | zero => exact hzero
  | notZero => simp [holds, Compares, ← hzero]
  | sign => exact hsign
  | notSign => simp [holds, Compares, ← hsign]
  | overflow => exact hover
  | notOverflow =>
    -- the formula of this condition negates a flag that is itself a negation
    rw [holds, Bool.not_eq_true', ← Bool.not_eq_true, hover, not_not]
    rfl
  | less => rw [holds, bne_iff_ne, hless]; rfl
  | lessOrEqual =>
    rw [holds, Bool.or_eq_true, bne_iff_ne, hzero, hless, ← Word.signedValue_inj]
    exact Int.le_iff_eq_or_lt.symm

instance (c : Condition) (a b : UInt32) : Decidable (c.Compares a b) :=
  decidable_of_iff _ (holds_ofSub_iff c a b)

/-- Bytes that are zero-extended are in signed order if they are in order, and their difference
always fits. -/
theorem compares_toUInt32 (x y : UInt8) :
    ¬ overflow.Compares x.toUInt32 y.toUInt32 ∧ (less.Compares x.toUInt32 y.toUInt32 ↔ x < y) := by
  have hx := x.toNat_lt
  have hy := y.toNat_lt
  simp only [Compares, FitsSigned, Word.signedValue_toUInt32, UInt8.lt_iff_toNat_lt, not_not]
  omega

end Condition

end Boot386
