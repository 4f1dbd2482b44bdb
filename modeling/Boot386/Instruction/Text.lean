import Boot386.Instruction
import Boot386.Numeral

/-!
# Instruction text

Instructions are written in assembly notation with the destination first.

* Numbers are hexadecimal, except displacements of code addresses, which are decimal and
  always signed.
* A memory operand is written in brackets, with its displacement only if that is not zero.
* Where no register tells the width of a memory operand, `byte` or `dword` stands before it.
* A relative code address in the destination position is written after `$`, the address of
  the following instruction.
-/

namespace Boot386

/-- The mnemonic of a conditional jump. -/
def Condition.mnemonic : Condition → String
  | .overflow => "jo"
  | .notOverflow => "jno"
  | .carry => "jc"
  | .notCarry => "jnc"
  | .zero => "jz"
  | .notZero => "jnz"
  | .sign => "js"
  | .notSign => "jns"
  | .less => "jl"
  | .lessOrEqual => "jle"

/-- The mnemonic of an operation. -/
def Op.mnemonic : Op → String
  | .mov => "mov"
  | .add => "add"
  | .sub => "sub"
  | .cmp => "cmp"
  | .inc => "inc"
  | .push => "push"
  | .pop => "pop"
  | .call => "call"
  | .ret => "ret"
  | .leave => "leave"
  | .jmp => "jmp"
  | .jcc c => c.mnemonic
  | .input => "in"
  | .output => "out"
  | .interrupt => "int"

/-- The word that announces the width of a memory operand. -/
def Width.keyword : Width → String
  | .byte => "byte"
  | .dword => "dword"

namespace Operand

/-- A displacement behind a base register: nothing for zero, otherwise a sign and the
magnitude. -/
def displacementText (d : Int) : String :=
  if d = 0 then ""
  else if d < 0 then "-" ++ Numeral.hex d.natAbs
  else "+" ++ Numeral.hex d.natAbs

/-- The text of an operand; an absent operand has none. -/
def text : Operand → String
  | reg r => r.name
  | reg8 r => r.name
  | dx => "dx"
  | mem base d => "[" ++ base.name ++ displacementText d.toInt ++ "]"
  | rel d => Numeral.signed d.toInt
  | imm v => Numeral.hex v.toNat
  | absent => ""

end Operand

namespace Instruction

/-- What stands before a memory destination: its width, unless a register on the right
tells it. -/
def widthText (i : Instruction) : String :=
  match i.left, i.right with
  | .mem .., .imm _ => i.width.keyword ++ " "
  | .mem .., .absent => i.width.keyword ++ " "
  | _, _ => ""

/-- The text of an instruction. Without a left operand only the operation is written. -/
def text (i : Instruction) : String :=
  match i.left, i.right with
  | .rel d, _ => i.op.mnemonic ++ " $" ++ Numeral.signed d.toInt
  | .absent, _ => i.op.mnemonic
  | left, .absent => i.op.mnemonic ++ " " ++ i.widthText ++ left.text
  | left, right => i.op.mnemonic ++ " " ++ i.widthText ++ left.text ++ ", " ++ right.text

end Instruction

end Boot386
