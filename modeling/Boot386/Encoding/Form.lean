import Boot386.Instruction
import Boot386.Fault

/-!
# The opcode table

The leading byte of an instruction selects its `Form`: which operation it is and which operands
follow. Four leading bytes are shared by several operations; for them the `reg` field of
the operand byte selects a `GroupOp`.

* `Form.ofOpcode` and `GroupOp.ofCodes` are the two tables, with the error for a byte that
  they do not list.
-/

namespace Boot386

/-- How the rest of an instruction is laid out. -/
inductive Form where
  /-- A register or memory operand, and a register as the source. -/
  | rmReg (op : Op) (w : Width)
  /-- A register, and a register or memory operand as the source. -/
  | regRM (op : Op) (w : Width)
  /-- A register named by the opcode, and a constant of the same width. -/
  | regImm (op : Op) (w : Width) (code : Fin 8)
  /-- A 32-bit register named by the opcode. -/
  | reg (op : Op) (code : Fin 8)
  /-- A constant to push: a word, or a byte to be sign-extended. -/
  | pushImm (w : Width)
  /-- A relative code address: a word, or a byte to be sign-extended. -/
  | relative (op : Op) (w : Width)
  /-- A byte constant as the only operand. -/
  | vector (op : Op)
  /-- Nothing follows. -/
  | complete (i : Instruction)
  /-- The operand byte tells the operation. -/
  | group
  deriving DecidableEq, Repr, Inhabited

/-- The operations selected by a leading byte together with a sub-code. -/
inductive GroupOp where
  /-- A 32-bit register or memory operand, and a byte to be sign-extended. -/
  | arithmetic (op : Op)
  /-- A register or memory operand, and a constant of the same width. -/
  | move (w : Width)
  /-- A 32-bit register or memory operand. -/
  | increment
  deriving DecidableEq, Repr, Inhabited

/-- The condition with a four bit code, if it is one of those implemented. -/
def Condition.ofCode? : Nat → Option Condition
  | 0 => some .overflow
  | 1 => some .notOverflow
  | 2 => some .carry
  | 3 => some .notCarry
  | 4 => some .zero
  | 5 => some .notZero
  | 8 => some .sign
  | 9 => some .notSign
  | 12 => some .less
  | 14 => some .lessOrEqual
  | _ => none

namespace Form

/-- The form of the instructions with a leading byte. In the five families of eight opcodes the
low three bits name a register; in the family of conditional jumps the low four bits are a
condition. -/
def ofOpcode? (opcode : UInt8) : Option Form :=
  let code := lowCode opcode.toNat
  match opcode.toNat / 8 with
  | 0x08 => some (.reg .inc code)
  | 0x0a => some (.reg .push code)
  | 0x0b => some (.reg .pop code)
  | 0x0e | 0x0f =>
    (Condition.ofCode? (opcode.toNat % 16)).map fun c => .relative (.jcc c) .byte
  | 0x16 => some (.regImm .mov .byte code)
  | 0x17 => some (.regImm .mov .dword code)
  | _ =>
    match opcode.toNat with
    | 0x01 => some (.rmReg .add .dword)
    | 0x29 => some (.rmReg .sub .dword)
    | 0x39 => some (.rmReg .cmp .dword)
    | 0x3b => some (.regRM .cmp .dword)
    | 0x3c => some (.regImm .cmp .byte Reg8.al.code)
    | 0x3d => some (.regImm .cmp .dword Reg.eax.code)
    | 0x68 => some (.pushImm .dword)
    | 0x6a => some (.pushImm .byte)
    | 0x83 => some .group
    | 0x88 => some (.rmReg .mov .byte)
    | 0x89 => some (.rmReg .mov .dword)
    | 0x8a => some (.regRM .mov .byte)
    | 0x8b => some (.regRM .mov .dword)
    | 0xc3 => some (.complete ⟨.ret, .dword, .absent, .absent⟩)
    | 0xc6 => some .group
    | 0xc7 => some .group
    | 0xc9 => some (.complete ⟨.leave, .dword, .absent, .absent⟩)
    | 0xcd => some (.vector .interrupt)
    | 0xe8 => some (.relative .call .dword)
    | 0xe9 => some (.relative .jmp .dword)
    | 0xeb => some (.relative .jmp .byte)
    | 0xec => some (.complete ⟨.input, .byte, .reg8 .al, .dx⟩)
    | 0xee => some (.complete ⟨.output, .byte, .dx, .reg8 .al⟩)
    | 0xff => some .group
    | _ => none

/-- The form of the instructions with a leading byte, or that there is none. -/
def ofOpcode (opcode : UInt8) : Except DecodeError Form :=
  match ofOpcode? opcode with
  | some form => .ok form
  | none => .error (.unknownOpcode opcode)

/-- An unlisted leading byte is not mistaken for missing bytes. -/
theorem ofOpcode_ne_truncated (opcode : UInt8) : ofOpcode opcode ≠ .error .truncated := by
  unfold ofOpcode
  split <;> simp

end Form

namespace GroupOp

/-- The operation with a leading byte and a sub-code. -/
def ofCodes? (opcode sub : UInt8) : Option GroupOp :=
  match opcode.toNat, sub.toNat with
  | 0x83, 0 => some (.arithmetic .add)
  | 0x83, 5 => some (.arithmetic .sub)
  | 0x83, 7 => some (.arithmetic .cmp)
  | 0xc6, 0 => some (.move .byte)
  | 0xc7, 0 => some (.move .dword)
  | 0xff, 0 => some .increment
  | _, _ => none

/-- The operation with a leading byte and a sub-code, or that there is none. -/
def ofCodes (opcode sub : UInt8) : Except DecodeError GroupOp :=
  match ofCodes? opcode sub with
  | some op => .ok op
  | none => .error (.unknownSubOpcode opcode sub)

/-- An unlisted sub-code is not mistaken for missing bytes. -/
theorem ofCodes_ne_truncated (opcode sub : UInt8) : ofCodes opcode sub ≠ .error .truncated := by
  unfold ofCodes
  split <;> simp

end GroupOp

end Boot386
