import Boot386.Flags

/-!
# Instructions

An `Instruction` is an operation, an operand width and two operands; an operand that is not
there is `Operand.absent`. The syntax is deliberately loose: it can also hold combinations that
have no encoding, such as a jump without a target. Which combinations the machine can carry out
is the business of `Machine.plan`.
-/

namespace Boot386

/-- The operations of the machine. -/
inductive Op where
  | mov
  | add
  | sub
  | cmp
  | inc
  | push
  | pop
  | call
  | ret
  | leave
  | jmp
  | jcc (condition : Condition)
  | input
  | output
  | interrupt
  deriving DecidableEq, Repr, Inhabited

/-- What an instruction works on. -/
inductive Operand where
  /-- A 32-bit register. -/
  | reg (r : Reg)
  /-- A byte register. -/
  | reg8 (r : Reg8)
  /-- The I/O address in the low half of `edx`. -/
  | dx
  /-- The memory at a base register plus a displacement. -/
  | mem (base : Reg) (displacement : Int32)
  /-- A code address relative to the end of the instruction. -/
  | rel (displacement : Int32)
  /-- A constant, already extended to a word. -/
  | imm (value : UInt32)
  /-- No operand. -/
  | absent
  deriving DecidableEq, Repr, Inhabited

/-- An operation applied to its operands; a destination stands on the left. -/
structure Instruction where
  op : Op
  width : Width
  left : Operand := .absent
  right : Operand := .absent
  deriving DecidableEq, Repr, Inhabited

namespace Operand

/-- The memory address an operand stands for, modulo `2 ^ 32`. Only memory operands have
one. -/
def address? (rs : Registers) : Operand → Option UInt32
  | mem base d => some (rs.get base + Word.ofSigned d)
  | _ => none

/-- The displacement of a relative code address. -/
def displacement? : Operand → Option Int32
  | rel d => some d
  | _ => none

@[simp] theorem address?_mem (rs : Registers) (base : Reg) (d : Int32) :
    (mem base d).address? rs = some (rs.get base + Word.ofSigned d) := rfl

@[simp] theorem address?_reg (rs : Registers) (r : Reg) : (reg r).address? rs = none := rfl

@[simp] theorem address?_reg8 (rs : Registers) (r : Reg8) : (reg8 r).address? rs = none := rfl

end Operand

end Boot386
