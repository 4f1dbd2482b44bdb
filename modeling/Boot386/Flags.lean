import Boot386.Register

/-!
# Flags and conditions

A subtraction describes its result in four flags; a conditional jump tests them.

* `Flags.ofSub a b` are the flags of `a - b`;
* `Condition.holds` says when a condition is met;
* `Flags.bits` and `Flags.ofBits` place the flags in a 32-bit word, where the remaining
  bits mean nothing and are dropped (`Flags.ofBits_bits`).
-/

namespace Boot386

/-- The four condition flags. -/
structure Flags where
  /-- The subtraction borrowed out of the top bit. -/
  carry : Bool := false
  /-- The result is zero. -/
  zero : Bool := false
  /-- The top bit of the result. -/
  sign : Bool := false
  /-- The result, read as signed, did not fit. -/
  overflow : Bool := false
  deriving DecidableEq, Repr, Inhabited

namespace Flags

/-! ### Flags of a subtraction -/

/-- The top bit of a word. -/
def topBit (w : UInt32) : Bool :=
  decide (2147483648 ≤ w.toNat)

/-- The flags of `left - right`. Overflow means that the operands differ in sign and the
result has the sign of `right`. Byte operands are zero-extended first, so that the top bit is
always bit 31. -/
def ofSub (left right : UInt32) : Flags :=
  -- computed wide so that the borrow shows up in bit 32
  let wide := left.toUInt64 - right.toUInt64
  let result := wide.toUInt32
  { carry := (wide >>> 32) &&& 1 != 0
    zero := result == 0
    sign := topBit result
    overflow := topBit left != topBit right && topBit left != topBit result }

/-! ### Flags as bits and as text -/

/-- The flags at their places in a word: carry is bit 0, zero bit 6, sign bit 7 and
overflow bit 11. -/
def bits (f : Flags) : Nat :=
  f.carry.toNat + 64 * f.zero.toNat + 128 * f.sign.toNat + 2048 * f.overflow.toNat

/-- Reads the flags out of a word; bits that stand for no flag are dropped. -/
def ofBits (w : Nat) : Flags where
  carry := w.testBit 0
  zero := w.testBit 6
  sign := w.testBit 7
  overflow := w.testBit 11

@[simp] theorem ofBits_bits (f : Flags) : ofBits f.bits = f := by
  revert f
  rintro ⟨c, z, s, o⟩
  cases c <;> cases z <;> cases s <;> cases o <;> decide

/-- The initials of the set flags, or `None`. -/
def text (f : Flags) : String :=
  if f = {} then "None"
  else
    (if f.carry then "C" else "") ++ (if f.zero then "Z" else "")
      ++ (if f.sign then "S" else "") ++ (if f.overflow then "O" else "")

end Flags

/-! ### Conditions -/

/-- The conditions a jump can test. -/
inductive Condition where
  | overflow
  | notOverflow
  | carry
  | notCarry
  | zero
  | notZero
  | sign
  | notSign
  | less
  | lessOrEqual
  deriving DecidableEq, Repr, Inhabited

namespace Condition

/-- All conditions, in the order in which they are listed. -/
def all : List Condition :=
  [overflow, notOverflow, carry, notCarry, zero, notZero, sign, notSign, less, lessOrEqual]

/-- Whether a condition is met. After a subtraction `less` is the signed order, because the
sign of the result is wrong exactly on overflow. -/
def holds (c : Condition) (f : Flags) : Bool :=
  match c with
  | overflow => f.overflow
  | notOverflow => !f.overflow
  | carry => f.carry
  | notCarry => !f.carry
  | zero => f.zero
  | notZero => !f.zero
  | sign => f.sign
  | notSign => !f.sign
  | less => f.sign != f.overflow
  | lessOrEqual => f.zero || f.sign != f.overflow

end Condition

end Boot386
