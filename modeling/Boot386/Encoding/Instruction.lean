import Boot386.Encoding.ModRM
import Boot386.Encoding.Form

/-!
# Decoding instructions

`Decoder.instruction` reads a leading byte, looks up its form and reads the operands that the
form calls for. An instruction is at least one and at most ten bytes long
(`Decoder.maxLength`): a leading byte, an operand byte, four bytes of displacement and four
bytes of constant.

Errors are found in reading order: the leading byte, the operand byte with its displacement,
the sub-code, and last the constant.
-/

namespace Boot386.Decoder

/-! ### Operands -/

/-- A constant, zero-extended to a word. -/
def immediate : Width → Decoder Operand
  | .byte => return .imm (← byte).toUInt32
  | .dword => return .imm (← word)

/-- A byte constant, sign-extended to a word. -/
def signedImmediate : Decoder Operand :=
  return .imm (Word.ofSigned (Word.signExtend (← byte)))

/-- A relative code address. -/
def relative : Width → Decoder Operand
  | .byte => return .rel (Word.signExtend (← byte))
  | .dword => return .rel (Word.toSigned (← word))

/-! ### Instructions -/

/-- The longest instruction, in bytes. -/
def maxLength : Nat := 10

/-- The rest of an instruction of a shared opcode, behind its operand byte. -/
def grouped (m : ModRM) : GroupOp → Decoder Instruction
  | .arithmetic op => return ⟨op, .dword, m.rmOperand .dword, ← signedImmediate⟩
  | .move w => return ⟨.mov, w, m.rmOperand w, ← immediate w⟩
  | .increment => return ⟨.inc, .dword, m.rmOperand .dword, .absent⟩

/-- The rest of an instruction, behind its leading byte. -/
def operands (opcode : UInt8) : Form → Decoder Instruction
  | .rmReg op w => do
    let m ← modRM
    return ⟨op, w, m.rmOperand w, m.regOperand w⟩
  | .regRM op w => do
    let m ← modRM
    return ⟨op, w, m.regOperand w, m.rmOperand w⟩
  | .regImm op w code => return ⟨op, w, .ofCode w code, ← immediate w⟩
  | .reg op code => return ⟨op, .dword, .ofCode .dword code, .absent⟩
  | .pushImm .byte => return ⟨.push, .dword, ← signedImmediate, .absent⟩
  | .pushImm .dword => return ⟨.push, .dword, ← immediate .dword, .absent⟩
  | .relative op w => return ⟨op, .byte, ← relative w, .absent⟩
  | .vector op => return ⟨op, .byte, ← immediate .byte, .absent⟩
  | .complete i => return i
  | .group => do
    let m ← modRM
    -- the sub-code is judged after the operand bytes and before the constant
    let op ← ofExcept (GroupOp.ofCodes opcode (UInt8.ofNat m.reg.val))
    grouped m op

/-- An instruction. -/
def instruction : Decoder Instruction := do
  let opcode ← byte
  let form ← ofExcept (Form.ofOpcode opcode)
  operands opcode form

/-! ### Instructions are read forward -/

theorem forward_immediate (w : Width) : (immediate w).Forward := by
  cases w
  · exact forward_byte.bind fun _ => forward_pure _
  · exact forward_word.bind fun _ => forward_pure _

theorem forward_signedImmediate : signedImmediate.Forward :=
  forward_byte.bind fun _ => forward_pure _

theorem forward_relative (w : Width) : (relative w).Forward := by
  cases w
  · exact forward_byte.bind fun _ => forward_pure _
  · exact forward_word.bind fun _ => forward_pure _

theorem forward_grouped (m : ModRM) (op : GroupOp) : (grouped m op).Forward := by
  cases op with
  | arithmetic op => exact forward_signedImmediate.bind fun _ => forward_pure _
  | move w => exact (forward_immediate w).bind fun _ => forward_pure _
  | increment => exact forward_pure _

theorem forward_operands (opcode : UInt8) (form : Form) : (operands opcode form).Forward := by
  cases form with
  | rmReg op w => exact forward_modRM.bind fun _ => forward_pure _
  | regRM op w => exact forward_modRM.bind fun _ => forward_pure _
  | regImm op w code => exact (forward_immediate w).bind fun _ => forward_pure _
  | reg op code => exact forward_pure _
  | pushImm w =>
    cases w
    · exact forward_signedImmediate.bind fun _ => forward_pure _
    · exact (forward_immediate _).bind fun _ => forward_pure _
  | relative op w => exact (forward_relative w).bind fun _ => forward_pure _
  | vector op => exact (forward_immediate _).bind fun _ => forward_pure _
  | complete i => exact forward_pure _
  | group =>
    exact forward_modRM.bind fun m => (forward_ofExcept _).bind fun op => forward_grouped m op

theorem forward_instruction : instruction.Forward :=
  forward_byte.bind fun opcode =>
    (forward_ofExcept _).bind fun form => forward_operands opcode form

/-- **Progress.** Decoding consumes at least the leading byte, if there is one. -/
theorem length_left_instruction_lt (b : UInt8) (bytes : List UInt8) :
    (instruction.left (b :: bytes)).length < (b :: bytes).length := by
  have h : instruction.left (b :: bytes)
      = (ofExcept (Form.ofOpcode b) >>= operands b).left bytes := by
    rw [instruction, left_bind]
    rfl
  have hs : (ofExcept (Form.ofOpcode b) >>= operands b).Forward :=
    (forward_ofExcept _).bind fun form => forward_operands b form
  rw [h, List.length_cons, Nat.lt_succ_iff]
  exact (hs bytes).length_le

end Boot386.Decoder
