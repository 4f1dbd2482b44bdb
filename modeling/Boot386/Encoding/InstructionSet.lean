import Boot386.Encoding.ModRM

/-!
# The instruction set

The instruction set as a table, without regard to how it is decoded. A `Row` tells which leading
bytes it covers (`Lead`), which operation it is, and how each of the two operands is written
(`Slot`). `Parts` are the pieces of an encoding:

* `Row.Admits` says which parts belong to a row;
* `Row.bytes` and `Row.instruction` are the encoding made of them and its meaning;
* `Encodes bytes i` holds if the bytes are an encoding of `i` by some row of the table.

`obstacle?` is the first reason why bytes do not begin with an encoding.
-/

namespace Boot386.InstructionSet

/-! ### Rows -/

/-- How an operand is written. -/
inductive Slot where
  /-- Not at all: the row has this operand, or none. -/
  | fixed (o : Operand)
  /-- A register in the low three bits of the leading byte. -/
  | code
  /-- A register in the `reg` field of the operand byte. -/
  | reg
  /-- A register or memory operand in the `mode` and `rm` fields of the operand byte. -/
  | rm
  /-- A constant byte, to be zero-extended. -/
  | imm8
  /-- A constant byte, to be sign-extended. -/
  | imm8Signed
  /-- A constant word. -/
  | imm32
  /-- A relative code address of one byte, to be sign-extended. -/
  | rel8
  /-- A relative code address of four bytes. -/
  | rel32
  deriving DecidableEq, Repr, Inhabited

/-- No operand. -/
abbrev Slot.absent : Slot := .fixed .absent

/-- Which leading bytes a row covers. -/
inductive Lead where
  | one (opcode : UInt8)
  /-- Eight of them, from `base` on; the low three bits name a register. -/
  | family (base : UInt8)
  /-- One that is shared with rows of other sub-codes. -/
  | shared (opcode : UInt8) (sub : Nat)
  deriving DecidableEq, Repr, Inhabited

/-- A row of the table. -/
structure Row where
  lead : Lead
  op : Op
  width : Width
  left : Slot
  right : Slot
  deriving DecidableEq, Repr, Inhabited

/-- The instruction set. -/
def table : List Row :=
  [⟨.one 0x01, .add, .dword, .rm, .reg⟩,
    ⟨.one 0x29, .sub, .dword, .rm, .reg⟩,
    ⟨.one 0x39, .cmp, .dword, .rm, .reg⟩,
    ⟨.one 0x3b, .cmp, .dword, .reg, .rm⟩,
    ⟨.one 0x3c, .cmp, .byte, .fixed (.reg8 .al), .imm8⟩,
    ⟨.one 0x3d, .cmp, .dword, .fixed (.reg .eax), .imm32⟩,
    ⟨.family 0x40, .inc, .dword, .code, .absent⟩,
    ⟨.family 0x50, .push, .dword, .code, .absent⟩,
    ⟨.family 0x58, .pop, .dword, .code, .absent⟩,
    ⟨.one 0x68, .push, .dword, .imm32, .absent⟩,
    ⟨.one 0x6a, .push, .dword, .imm8Signed, .absent⟩,
    ⟨.one 0x70, .jcc .overflow, .byte, .rel8, .absent⟩,
    ⟨.one 0x71, .jcc .notOverflow, .byte, .rel8, .absent⟩,
    ⟨.one 0x72, .jcc .carry, .byte, .rel8, .absent⟩,
    ⟨.one 0x73, .jcc .notCarry, .byte, .rel8, .absent⟩,
    ⟨.one 0x74, .jcc .zero, .byte, .rel8, .absent⟩,
    ⟨.one 0x75, .jcc .notZero, .byte, .rel8, .absent⟩,
    ⟨.one 0x78, .jcc .sign, .byte, .rel8, .absent⟩,
    ⟨.one 0x79, .jcc .notSign, .byte, .rel8, .absent⟩,
    ⟨.one 0x7c, .jcc .less, .byte, .rel8, .absent⟩,
    ⟨.one 0x7e, .jcc .lessOrEqual, .byte, .rel8, .absent⟩,
    ⟨.shared 0x83 0, .add, .dword, .rm, .imm8Signed⟩,
    ⟨.shared 0x83 5, .sub, .dword, .rm, .imm8Signed⟩,
    ⟨.shared 0x83 7, .cmp, .dword, .rm, .imm8Signed⟩,
    ⟨.one 0x88, .mov, .byte, .rm, .reg⟩,
    ⟨.one 0x89, .mov, .dword, .rm, .reg⟩,
    ⟨.one 0x8a, .mov, .byte, .reg, .rm⟩,
    ⟨.one 0x8b, .mov, .dword, .reg, .rm⟩,
    ⟨.family 0xb0, .mov, .byte, .code, .imm8⟩,
    ⟨.family 0xb8, .mov, .dword, .code, .imm32⟩,
    ⟨.one 0xc3, .ret, .dword, .absent, .absent⟩,
    ⟨.shared 0xc6 0, .mov, .byte, .rm, .imm8⟩,
    ⟨.shared 0xc7 0, .mov, .dword, .rm, .imm32⟩,
    ⟨.one 0xc9, .leave, .dword, .absent, .absent⟩,
    ⟨.one 0xcd, .interrupt, .byte, .imm8, .absent⟩,
    ⟨.one 0xe8, .call, .byte, .rel32, .absent⟩,
    ⟨.one 0xe9, .jmp, .byte, .rel32, .absent⟩,
    ⟨.one 0xeb, .jmp, .byte, .rel8, .absent⟩,
    ⟨.one 0xec, .input, .byte, .fixed (.reg8 .al), .fixed .dx⟩,
    ⟨.one 0xee, .output, .byte, .fixed .dx, .fixed (.reg8 .al)⟩,
    ⟨.shared 0xff 0, .inc, .dword, .rm, .absent⟩]

/-! ### Encodings -/

/-- The pieces of an encoding. A row that has no use for a piece leaves it out. -/
structure Parts where
  opcode : UInt8
  operandByte : UInt8
  displacement : List UInt8
  constant : List UInt8

namespace Lead

/-- Whether a leading byte is covered. -/
def covers (l : Lead) (opcode : UInt8) : Bool :=
  match l with
  | one o => opcode == o
  | family base => opcode.toNat / 8 == base.toNat / 8
  | shared o _ => opcode == o

/-- Whether the sub-code is right, where there is one. -/
def admits (l : Lead) (sub : Fin 8) : Bool :=
  match l with
  | shared _ s => sub.val == s
  | _ => true

end Lead

namespace Slot

/-- Whether the operand is written in the operand byte. -/
def inOperandByte : Slot → Bool
  | reg => true
  | rm => true
  | _ => false

/-- How many bytes of constant the operand is written in. -/
def constantLength : Slot → Nat
  | imm8 => 1
  | imm8Signed => 1
  | imm32 => 4
  | rel8 => 1
  | rel32 => 4
  | _ => 0

/-- The operand that is written. -/
def operand (w : Width) (p : Parts) : Slot → Operand
  | fixed o => o
  | code => .ofCode w (lowCode p.opcode.toNat)
  | reg => .ofCode w (ModRM.regOf p.operandByte)
  | rm =>
    if (ModRM.modeOf p.operandByte).val = 3 then .ofCode w (ModRM.rmOf p.operandByte)
    else .mem (Reg.ofCode (ModRM.rmOf p.operandByte)) (Word.signed p.displacement)
  | imm8 => .imm (Word.unsigned p.constant)
  | imm8Signed => .imm (Word.ofSigned (Word.signed p.constant))
  | imm32 => .imm (Word.unsigned p.constant)
  | rel8 => .rel (Word.signed p.constant)
  | rel32 => .rel (Word.signed p.constant)

end Slot

namespace Row

/-- Whether encodings have an operand byte. -/
def hasOperandByte (row : Row) : Bool :=
  row.left.inOperandByte || row.right.inOperandByte

/-- How many bytes of constant encodings have. -/
def constantLength (row : Row) : Nat :=
  row.left.constantLength + row.right.constantLength

/-- The parts belong to an encoding of the row. -/
structure Admits (row : Row) (p : Parts) : Prop where
  covers : row.lead.covers p.opcode
  admits : row.lead.admits (ModRM.regOf p.operandByte)
  implemented : row.hasOperandByte →
    ¬ ModRM.Unimplemented (ModRM.modeOf p.operandByte) (ModRM.rmOf p.operandByte)
  displacement : row.hasOperandByte →
    p.displacement.length = ModRM.displacementLength (ModRM.modeOf p.operandByte)
  constant : p.constant.length = row.constantLength

/-- The encoding: leading byte, operand byte with displacement, and constant. -/
def bytes (row : Row) (p : Parts) : List UInt8 :=
  p.opcode :: ((if row.hasOperandByte then p.operandByte :: p.displacement else [])
    ++ p.constant)

/-- The instruction that the row stands for. -/
def instruction (row : Row) (p : Parts) : Instruction where
  op := row.op
  width := row.width
  left := row.left.operand row.width p
  right := row.right.operand row.width p

end Row

/-- The bytes are an encoding of the instruction. -/
def Encodes (bytes : List UInt8) (i : Instruction) : Prop :=
  ∃ row ∈ table, ∃ p : Parts, row.Admits p ∧ bytes = row.bytes p ∧ i = row.instruction p

/-- A register operand is a 32-bit register in a word form and a byte register in a byte form.
Other operands suit every width. -/
def Suits (w : Width) : Operand → Prop
  | .reg _ => w = .dword
  | .reg8 _ => w = .byte
  | _ => True

/-! ### Obstacles -/

/-- The rows that cover a leading byte. -/
def rowsOf (opcode : UInt8) : List Row :=
  table.filter (·.lead.covers opcode)

/-- The rows that are left once the sub-code in the operand byte is known. -/
def chosen (opcode operandByte : UInt8) : List Row :=
  (rowsOf opcode).filter (·.lead.admits (ModRM.regOf operandByte))

/-- The first reason, in this order, why bytes do not begin with an encoding. -/
def obstacle? (bytes : List UInt8) : Option DecodeError :=
  let opcode := bytes.getD 0 0
  let operandByte := bytes.getD 1 0
  let mode := ModRM.modeOf operandByte
  let sub := ModRM.regOf operandByte
  let rm := ModRM.rmOf operandByte
  let hasOperandByte := (rowsOf opcode).any (·.hasOperandByte)
  let constantAt := if hasOperandByte then 2 + ModRM.displacementLength mode else 1
  if bytes = [] then some .truncated
  else if rowsOf opcode = [] then some (.unknownOpcode opcode)
  else if hasOperandByte ∧ bytes.length < 2 then some .truncated
  else if hasOperandByte ∧ ModRM.Unimplemented mode rm then
    some (.unimplementedAddressing (UInt8.ofNat mode.val) (UInt8.ofNat rm.val))
  else if hasOperandByte ∧ bytes.length < 2 + ModRM.displacementLength mode then
    some .truncated
  else if chosen opcode operandByte = [] then
    some (.unknownSubOpcode opcode (UInt8.ofNat sub.val))
  else if (chosen opcode operandByte).any (bytes.length < constantAt + ·.constantLength) then
    some .truncated
  else none

end Boot386.InstructionSet
