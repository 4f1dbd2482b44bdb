import Boot386.Proofs.Encoding.Alternative

/-!
# Standard encodings

Of the ways to write an instruction down one is the standard (`standard`). It has displacements and
constants in full where that is possible. Where a register is named either by the opcode or by an
operand byte, it has the operand byte.

Every encoding is joined to the standard one of its instruction by a chain of alternatives
(`eqvGen_standard`): first the displacement is written in full (`exists_full`), whatever the row,
and then the rows are gone through by their shapes (`standardized_of_mem`). So two encodings of the
same instruction are joined by a chain as well, and there are no other collisions
(`decode_same_iff`).
-/

namespace Boot386.InstructionSet

open ModRM (pack)
open Word (extended)
open Relation (EqvGen)
open Decoder (instructionAt instructionAt_of_isPrefix)

variable {row : Row} {p : Parts} {bytes : List UInt8} {i : Instruction}

/-! ### Standard encodings -/

/-- The code of a register operand. -/
def registerCode : Operand → Fin 8
  | .reg r => r.code
  | .reg8 r => r.code
  | _ => lowCode 0

/-- The word that a constant operand is written as. -/
def constantWord : Operand → UInt32
  | .imm v => v
  | .rel d => Word.ofSigned d
  | _ => 0

/-- The operand byte of a register or memory operand, with a displacement of four bytes. -/
def operandBytes (reg : Fin 8) : Operand → List UInt8
  | .reg r => [pack 3 reg r.code]
  | .reg8 r => [pack 3 reg r.code]
  | .mem base d => pack 2 reg base.code :: Word.toBytes (Word.ofSigned d)
  | _ => []

/-- The opcode of a conditional jump. -/
def conditionOpcode : Condition → UInt8
  | .overflow => 0x70
  | .notOverflow => 0x71
  | .carry => 0x72
  | .notCarry => 0x73
  | .zero => 0x74
  | .notZero => 0x75
  | .sign => 0x78
  | .notSign => 0x79
  | .less => 0x7c
  | .lessOrEqual => 0x7e

/-- The standard encoding of an operation that has an opcode for registers, and a sub-code for
constants of one byte. -/
def standardArithmetic (opcode : UInt8) (sub : Fin 8) (left : Operand) : Operand → List UInt8
  | .imm v => 0x83 :: (operandBytes sub left ++ [Word.byte v 0])
  | right => opcode :: operandBytes (registerCode right) left

/-- The standard encoding of a move. -/
def standardMove (left : Operand) : Width → Operand → List UInt8
  | .byte, .imm v => 0xc6 :: (operandBytes (lowCode 0) left ++ [Word.byte v 0])
  | .dword, .imm v => 0xc7 :: (operandBytes (lowCode 0) left ++ Word.toBytes v)
  | .byte, .mem base d => 0x8a :: operandBytes (registerCode left) (.mem base d)
  | .dword, .mem base d => 0x8b :: operandBytes (registerCode left) (.mem base d)
  | .byte, right => 0x88 :: operandBytes (registerCode right) left
  | .dword, right => 0x89 :: operandBytes (registerCode right) left

/-- The standard encoding of a comparison. -/
def standardCompare (left : Operand) : Width → Operand → List UInt8
  | .byte, right => [0x3c, Word.byte (constantWord right) 0]
  | .dword, .imm v =>
    if left = .reg .eax then 0x3d :: Word.toBytes v
    else 0x83 :: (operandBytes (lowCode 7) left ++ [Word.byte v 0])
  | .dword, .mem base d => 0x3b :: operandBytes (registerCode left) (.mem base d)
  | .dword, right => 0x39 :: operandBytes (registerCode right) left

/-- The standard encoding of an instruction, if it has an encoding at all. -/
def standard (i : Instruction) : List UInt8 :=
  match i.op with
  | .mov => standardMove i.left i.width i.right
  | .add => standardArithmetic 0x01 (lowCode 0) i.left i.right
  | .sub => standardArithmetic 0x29 (lowCode 5) i.left i.right
  | .cmp => standardCompare i.left i.width i.right
  | .inc => 0xff :: operandBytes (lowCode 0) i.left
  | .push =>
    match i.left with
    | .imm v => 0x68 :: Word.toBytes v
    | o => [0x50 + UInt8.ofNat (registerCode o).val]
  | .pop => [0x58 + UInt8.ofNat (registerCode i.left).val]
  | .call => 0xe8 :: Word.toBytes (constantWord i.left)
  | .ret => [0xc3]
  | .leave => [0xc9]
  | .jmp => 0xe9 :: Word.toBytes (constantWord i.left)
  | .jcc c => [conditionOpcode c, Word.byte (constantWord i.left) 0]
  | .input => [0xec]
  | .output => [0xee]
  | .interrupt => [0xcd, Word.byte (constantWord i.left) 0]

@[simp] theorem registerCode_ofCode (w : Width) (code : Fin 8) :
    registerCode (.ofCode w code) = code := by
  cases w
  · exact Reg8.code_ofCode code
  · exact Reg.code_ofCode code

@[simp] theorem operandBytes_ofCode (reg : Fin 8) (w : Width) (code : Fin 8) :
    operandBytes reg (.ofCode w code) = [pack 3 reg code] := by
  cases w
  · exact congrArg (fun c => [pack 3 reg c]) (Reg8.code_ofCode code)
  · exact congrArg (fun c => [pack 3 reg c]) (Reg.code_ofCode code)

/-! ### Displacements in full -/

/-- The displacement is written in four bytes, if there is one. -/
def Parts.Full (p : Parts) : Prop :=
  ModRM.modeOf p.operandByte = 2 ∨ ModRM.modeOf p.operandByte = 3

/-- A displacement can be written in full. -/
theorem exists_full (h : row ∈ table) (hbyte : row.hasOperandByte = true) (hp : row.Admits p) :
    ∃ p', row.Admits p' ∧ p'.Full ∧ EqvGen Alternative (row.bytes p) (row.bytes p') ∧
      row.instruction p' = row.instruction p := by
  obtain ⟨opcode, b, displacement, constant⟩ := p
  obtain ⟨mode, reg, rm, rfl⟩ := ModRM.exists_eq_pack b
  have hcovers := hp.covers
  have hconstant := hp.constant
  have hadmits := hp.admits
  have himplemented := hp.implemented hbyte
  have hlength := hp.displacement hbyte
  simp only [ModRM.modeOf_pack, ModRM.regOf_pack, ModRM.rmOf_pack]
    at hcovers hconstant hadmits himplemented hlength
  have hform : HasForm opcode reg constant := ⟨row, h, hbyte, hcovers, hadmits, hconstant⟩
  have hadmitted : ∀ b, rm ≠ 4 → row.Admits ⟨opcode, pack 2 reg rm, extended b, constant⟩ :=
    fun b hindex => admits_pack hcovers hadmits
      ((not_unimplemented_iff (by decide)).2 ⟨hindex, fun h => absurd h (by decide)⟩) rfl hconstant
  match mode, displacement, hlength with
  | 0, [], _ =>
    -- by way of a displacement of one byte
    obtain ⟨hindex, hbase⟩ := (not_unimplemented_iff (by decide)).1 himplemented
    refine ⟨_, hadmitted 0 hindex, .inl (ModRM.modeOf_pack ..), ?_,
      instruction_pack_congr row opcode reg rm constant (by decide) (by decide) rfl⟩
    simp only [bytes_of_hasOperandByte hbyte]
    exact .trans _ _ _ (.rel _ _ (.noDisplacement hform hindex (hbase rfl)))
      (.rel _ _ (.displacement 0 hform hindex))
  | 1, [b], _ =>
    obtain ⟨hindex, -⟩ := (not_unimplemented_iff (by decide)).1 himplemented
    refine ⟨_, hadmitted b hindex, .inl (ModRM.modeOf_pack ..), ?_,
      instruction_pack_congr row opcode reg rm constant (by decide) (by decide)
        (Word.signed_toBytes (Word.signExtend b))⟩
    simp only [bytes_of_hasOperandByte hbyte]
    exact .rel _ _ (.displacement b hform hindex)
  -- nothing to do, as for a register
  | 2, displacement, hlength =>
    exact ⟨_, hp, .inl (ModRM.modeOf_pack ..), .refl _, rfl⟩
  | 3, displacement, hlength =>
    exact ⟨_, hp, .inr (ModRM.modeOf_pack ..), .refl _, rfl⟩

/-- An operand byte with its displacement is that of the operand. -/
theorem operandBytes_operand (hp : row.Admits p) (hbyte : row.hasOperandByte = true)
    (hfull : p.Full) (w : Width) :
    p.operandByte :: p.displacement
      = operandBytes (ModRM.regOf p.operandByte) (Slot.rm.operand w p) := by
  have hlength := hp.displacement hbyte
  obtain ⟨opcode, b, displacement, constant⟩ := p
  obtain ⟨mode, reg, rm, rfl⟩ := ModRM.exists_eq_pack b
  simp only [Parts.Full, ModRM.modeOf_pack] at hfull hlength
  rw [ModRM.regOf_pack]
  obtain rfl | rfl := hfull
  · rw [operand_rm_of_mode_ne_three (by decide), operandBytes, Reg.code_ofCode,
      Word.toBytes_signed hlength]
  · obtain rfl : displacement = [] := List.length_eq_zero_iff.1 hlength
    rw [operand_rm_of_mode_three, operandBytes_ofCode]

/-! ### Row by row -/

/-- Encodings by the row are alternatives of the standard ones. -/
def Row.Standardized (row : Row) : Prop :=
  ∀ p, row.Admits p → (row.hasOperandByte = true → p.Full) →
    EqvGen Alternative (row.bytes p) (standard (row.instruction p))

/-- An encoding with an operand byte whose displacement is written in full. -/
theorem bytes_of_full (hp : row.Admits p) (hbyte : row.hasOperandByte = true) (hfull : p.Full) :
    row.bytes p = p.opcode ::
      (operandBytes (ModRM.regOf p.operandByte) (Slot.rm.operand row.width p) ++ p.constant) := by
  rw [bytes_of_hasOperandByte hbyte, ← operandBytes_operand hp hbyte hfull, List.cons_append]

/-- The register is the source. -/
theorem standardized_rmReg {o : UInt8} {op : Op} {w : Width}
    (hstandard : ∀ left code, standard ⟨op, w, left, .ofCode w code⟩
      = o :: operandBytes (registerCode (.ofCode w code)) left) :
    Row.Standardized ⟨.one o, op, w, .rm, .reg⟩ := by
  intro p hp hfull
  have hopcode : p.opcode = o := beq_iff_eq.1 hp.covers
  have hconstant : p.constant = [] := List.length_eq_zero_iff.1 hp.constant
  have hmeaning : Row.instruction ⟨.one o, op, w, .rm, .reg⟩ p
      = ⟨op, w, Slot.rm.operand w p, .ofCode w (ModRM.regOf p.operandByte)⟩ := rfl
  rw [bytes_of_full hp rfl (hfull rfl), hmeaning, hstandard, registerCode_ofCode, hopcode,
    hconstant, List.append_nil]
  exact .refl _

/-- The register is the destination. If the source is one as well, they can be exchanged. -/
theorem standardized_regRM {o o' : UInt8} {op : Op} {w : Width}
    (hexchanged : (o', o) ∈ [(0x88, 0x8a), (0x89, 0x8b), (0x39, 0x3b)])
    (hmem : ∀ left base d, standard ⟨op, w, left, .mem base d⟩
      = o :: operandBytes (registerCode left) (.mem base d))
    (hreg : ∀ left code, standard ⟨op, w, left, .ofCode w code⟩
      = o' :: operandBytes (registerCode (.ofCode w code)) left) :
    Row.Standardized ⟨.one o, op, w, .reg, .rm⟩ := by
  intro p hp hfull
  have hopcode : p.opcode = o := beq_iff_eq.1 hp.covers
  have hconstant : p.constant = [] := List.length_eq_zero_iff.1 hp.constant
  have hmeaning : Row.instruction ⟨.one o, op, w, .reg, .rm⟩ p
      = ⟨op, w, .ofCode w (ModRM.regOf p.operandByte), Slot.rm.operand w p⟩ := rfl
  rw [bytes_of_full hp rfl (hfull rfl), hmeaning, hopcode, hconstant, List.append_nil]
  obtain ⟨base, d, hrm⟩ | ⟨code, hrm⟩ := operand_rm_cases w p
  · rw [hrm, hmem, registerCode_ofCode]
    exact .refl _
  · -- between two registers the standard has the other opcode
    rw [hrm, hreg, registerCode_ofCode, operandBytes_ofCode, operandBytes_ofCode]
    exact .symm _ _ (.rel _ _ (.exchanged _ _ hexchanged))

/-- The opcode is shared, and the other operand is a constant, if there is one. -/
theorem standardized_shared (o : UInt8) (sub : Fin 8) {op : Op} {w : Width} {slot : Slot}
    (hstandard : ∀ (left : Operand) (p : Parts), p.constant.length = slot.constantLength →
      EqvGen Alternative (o :: (operandBytes sub left ++ p.constant))
        (standard ⟨op, w, left, slot.operand w p⟩)) :
    Row.Standardized ⟨.shared o sub.val, op, w, .rm, slot⟩ := by
  intro p hp hfull
  have hopcode : p.opcode = o := beq_iff_eq.1 hp.covers
  have hsub : ModRM.regOf p.operandByte = sub := Fin.ext (beq_iff_eq.1 hp.admits)
  have hconstant : p.constant.length = slot.constantLength :=
    hp.constant.trans (Nat.zero_add _)
  rw [bytes_of_full hp rfl (hfull rfl), hopcode, hsub]
  exact hstandard _ p hconstant

/-- The opcode names a register. -/
theorem standardized_family {base : UInt8} {op : Op} {w : Width} {slot : Slot}
    (hbase : base.toNat % 8 = 0) (hslot : slot.inOperandByte = false)
    (hstandard : ∀ (r : Fin 8) (p : Parts), p.constant.length = slot.constantLength →
      EqvGen Alternative ((base + UInt8.ofNat r.val) :: p.constant)
        (standard ⟨op, w, .ofCode w r, slot.operand w p⟩)) :
    Row.Standardized ⟨.family base, op, w, .code, slot⟩ := by
  intro p hp _
  have hconstant : p.constant.length = slot.constantLength :=
    hp.constant.trans (Nat.zero_add _)
  have hbyte : Row.hasOperandByte ⟨.family base, op, w, .code, slot⟩ = false := hslot
  rw [bytes_of_not_hasOperandByte hbyte, eq_add_of_covers hbase hp.covers]
  exact hstandard (lowCode p.opcode.toNat) p hconstant

/-- There is nothing but constants. -/
theorem standardized_plain {o : UInt8} {op : Op} {w : Width} {left right : Slot}
    (hslots : (left.inOperandByte || right.inOperandByte) = false)
    (hstandard : ∀ p : Parts, p.constant.length = left.constantLength + right.constantLength →
      EqvGen Alternative (o :: p.constant)
        (standard ⟨op, w, left.operand w p, right.operand w p⟩)) :
    Row.Standardized ⟨.one o, op, w, left, right⟩ := by
  intro p hp _
  have hopcode : p.opcode = o := beq_iff_eq.1 hp.covers
  have hbyte : Row.hasOperandByte ⟨.one o, op, w, left, right⟩ = false := hslots
  rw [bytes_of_not_hasOperandByte hbyte, hopcode]
  exact hstandard p hp.constant

/-- There is nothing but one constant byte. -/
theorem standardized_byte {o : UInt8} {op : Op} {w : Width} {left right : Slot}
    (hslots : (left.inOperandByte || right.inOperandByte) = false)
    (hconstant : left.constantLength + right.constantLength = 1)
    (hstandard : ∀ (p : Parts) (b : UInt8), p.constant = [b] →
      EqvGen Alternative [o, b] (standard ⟨op, w, left.operand w p, right.operand w p⟩)) :
    Row.Standardized ⟨.one o, op, w, left, right⟩ := by
  refine standardized_plain hslots fun p hp => ?_
  obtain ⟨b, hb⟩ := List.length_eq_one_iff.1 (hp.trans hconstant)
  rw [hb]
  exact hstandard p b hb

/-- The second operand is a constant byte, and sign-extended. -/
theorem standardized_arithmetic {o : UInt8} (sub : Fin 8) {op : Op}
    (hstandard : ∀ left right, standard ⟨op, .dword, left, right⟩
      = standardArithmetic o sub left right) :
    Row.Standardized ⟨.shared 0x83 sub.val, op, .dword, .rm, .imm8Signed⟩ := by
  refine standardized_shared 0x83 sub fun left p hp => ?_
  obtain ⟨b, hb⟩ := List.length_eq_one_iff.1 hp
  rw [hstandard, operand_imm8Signed hb, standardArithmetic, hb, Word.byte_ofSigned_signExtend]
  exact .refl _

/-- With `eax` a comparison has another opcode, for constants of four bytes. -/
theorem standardized_compare :
    Row.Standardized ⟨.shared 0x83 7, .cmp, .dword, .rm, .imm8Signed⟩ := by
  refine standardized_shared 0x83 7 fun left p hp => ?_
  obtain ⟨b, hb⟩ := List.length_eq_one_iff.1 hp
  have hmeaning : standard ⟨.cmp, .dword, left, .imm (Word.ofSigned (Word.signExtend b))⟩
      = if left = .reg .eax then 0x3d :: extended b else
        0x83 :: (operandBytes 7 left ++ [Word.byte (Word.ofSigned (Word.signExtend b)) 0]) := rfl
  rw [operand_imm8Signed hb, hmeaning, hb, Word.byte_ofSigned_signExtend]
  split
  · next heax =>
    -- of the two opcodes the standard one has the constant in full
    rw [heax]
    exact .symm _ _ (.rel _ _ (.compare b))
  · exact .refl _

/-- An opcode that names a register, and a shared one for register or memory operands. -/
theorem standardized_family_shared {base o : UInt8} {op : Op} {w : Width} {slot : Slot}
    (hbase : base.toNat % 8 = 0) (hslot : slot.inOperandByte = false)
    (halternative : ∀ (r : Fin 8) (constant : List UInt8), constant.length = slot.constantLength →
      Alternative ((base + UInt8.ofNat r.val) :: constant) (o :: pack 3 0 r :: constant))
    (hstandard : ∀ (left : Operand) (p : Parts), p.constant.length = slot.constantLength →
      standard ⟨op, w, left, slot.operand w p⟩ = o :: (operandBytes 0 left ++ p.constant)) :
    Row.Standardized ⟨.family base, op, w, .code, slot⟩ ∧
      Row.Standardized ⟨.shared o 0, op, w, .rm, slot⟩ := by
  constructor
  · refine standardized_family hbase hslot fun r p hp => ?_
    rw [hstandard _ p hp, operandBytes_ofCode]
    exact .rel _ _ (halternative r p.constant hp)
  · refine standardized_shared o 0 fun left p hp => ?_
    rw [hstandard left p hp]
    exact .refl _

theorem standardized_moveByte :
    Row.Standardized ⟨.family 0xb0, .mov, .byte, .code, .imm8⟩ ∧
      Row.Standardized ⟨.shared 0xc6 0, .mov, .byte, .rm, .imm8⟩ := by
  refine standardized_family_shared rfl rfl (fun r constant hc => ?_) fun left p hp => ?_
  · obtain ⟨b, rfl⟩ := List.length_eq_one_iff.1 hc
    exact .moveByte r b
  · obtain ⟨b, hb⟩ := List.length_eq_one_iff.1 hp
    rw [operand_imm8 hb, hb, standard, standardMove, Word.byte_toUInt32]
    rfl

theorem standardized_moveWord :
    Row.Standardized ⟨.family 0xb8, .mov, .dword, .code, .imm32⟩ ∧
      Row.Standardized ⟨.shared 0xc7 0, .mov, .dword, .rm, .imm32⟩ := by
  refine standardized_family_shared rfl rfl .moveWord fun left p hp => ?_
  rw [Slot.operand, standard, standardMove, Word.toBytes_unsigned hp]
  rfl

theorem standardized_increment :
    Row.Standardized ⟨.family 0x40, .inc, .dword, .code, .absent⟩ ∧
      Row.Standardized ⟨.shared 0xff 0, .inc, .dword, .rm, .absent⟩ := by
  refine standardized_family_shared rfl rfl (fun r constant hc => ?_) fun left p hp => ?_
  · obtain rfl := List.length_eq_zero_iff.1 hc
    exact .increment r
  · rw [List.length_eq_zero_iff.1 hp, List.append_nil]
    rfl

/-- The opcode names a register, and there is no other way to write the instruction. -/
theorem standardized_register {base : UInt8} {op : Op} (hbase : base.toNat % 8 = 0)
    (hstandard : ∀ r : Fin 8, standard ⟨op, .dword, .ofCode .dword r, .absent⟩
      = [base + UInt8.ofNat (registerCode (.ofCode .dword r)).val]) :
    Row.Standardized ⟨.family base, op, .dword, .code, .absent⟩ := by
  refine standardized_family hbase rfl fun r p hp => ?_
  have hmeaning : Slot.absent.operand .dword p = .absent := rfl
  rw [hmeaning, hstandard, registerCode_ofCode, List.length_eq_zero_iff.1 hp]
  exact .refl _

/-- The opcode is all there is. -/
theorem standardized_complete {o : UInt8} (i : Instruction) (hstandard : standard i = [o]) :
    Row.Standardized ⟨.one o, i.op, i.width, .fixed i.left, .fixed i.right⟩ := by
  refine standardized_plain rfl fun p hp => ?_
  have hmeaning : standard ⟨i.op, i.width, Slot.operand i.width p (.fixed i.left),
      Slot.operand i.width p (.fixed i.right)⟩ = [o] := hstandard
  rw [hmeaning, List.length_eq_zero_iff.1 hp]
  exact .refl _

theorem standardized_jcc (c : Condition) :
    Row.Standardized ⟨.one (conditionOpcode c), .jcc c, .byte, .rel8, .absent⟩ := by
  refine standardized_byte rfl rfl fun p b hb => ?_
  rw [operand_rel8 hb, standard, constantWord, Word.byte_ofSigned_signExtend]
  exact .refl _

/-- A code address of four bytes. -/
theorem standardized_relative {o : UInt8} {op : Op}
    (hstandard : ∀ d, standard ⟨op, .byte, .rel d, .absent⟩
      = o :: Word.toBytes (Word.ofSigned d)) :
    Row.Standardized ⟨.one o, op, .byte, .rel32, .absent⟩ := by
  refine standardized_plain rfl fun p hp => ?_
  have hmeaning : standard ⟨op, .byte, Slot.rel32.operand .byte p, Slot.absent.operand .byte p⟩
      = o :: Word.toBytes (Word.ofSigned (Word.signed p.constant)) := hstandard _
  rw [hmeaning, Word.toBytes_signed hp]
  exact .refl _

/-- A jump over a short distance. -/
theorem standardized_jump : Row.Standardized ⟨.one 0xeb, .jmp, .byte, .rel8, .absent⟩ := by
  refine standardized_byte rfl rfl fun p b hb => ?_
  rw [operand_rel8 hb]
  exact .rel _ _ (.jump b)

theorem standardized_pushByte :
    Row.Standardized ⟨.one 0x6a, .push, .dword, .imm8Signed, .absent⟩ := by
  refine standardized_byte rfl rfl fun p b hb => ?_
  rw [operand_imm8Signed hb]
  exact .rel _ _ (.push b)

theorem standardized_pushWord :
    Row.Standardized ⟨.one 0x68, .push, .dword, .imm32, .absent⟩ := by
  refine standardized_plain rfl fun p hp => ?_
  have hmeaning : standard ⟨.push, .dword, Slot.imm32.operand .dword p,
      Slot.absent.operand .dword p⟩ = 0x68 :: Word.toBytes (Word.unsigned p.constant) := rfl
  rw [hmeaning, Word.toBytes_unsigned hp]
  exact .refl _

theorem standardized_compareByte :
    Row.Standardized ⟨.one 0x3c, .cmp, .byte, .fixed (.reg8 .al), .imm8⟩ := by
  refine standardized_byte rfl rfl fun p b hb => ?_
  rw [operand_imm8 hb, standard, standardCompare, constantWord, Word.byte_toUInt32]
  exact .refl _

theorem standardized_compareWord :
    Row.Standardized ⟨.one 0x3d, .cmp, .dword, .fixed (.reg .eax), .imm32⟩ := by
  refine standardized_plain rfl fun p hp => ?_
  rw [Slot.operand, Slot.operand, standard, standardCompare, if_pos rfl,
    Word.toBytes_unsigned hp]
  exact .refl _

theorem standardized_vector :
    Row.Standardized ⟨.one 0xcd, .interrupt, .byte, .imm8, .absent⟩ := by
  refine standardized_byte rfl rfl fun p b hb => ?_
  rw [operand_imm8 hb, standard, constantWord, Word.byte_toUInt32]
  exact .refl _

/-- **Every row has standard encodings.** -/
theorem standardized_of_mem : ∀ row ∈ table, row.Standardized := by
  simp only [table, List.forall_mem_cons]
  -- in the order of the table, that is by opcodes
  exact ⟨standardized_rmReg fun _ _ => rfl, standardized_rmReg fun _ _ => rfl,
    standardized_rmReg fun _ _ => rfl,
    standardized_regRM (by decide) (fun _ _ _ => rfl) fun _ _ => rfl,
    standardized_compareByte, standardized_compareWord, standardized_increment.1,
    standardized_register rfl fun _ => rfl, standardized_register rfl fun _ => rfl,
    standardized_pushWord, standardized_pushByte,
    standardized_jcc .overflow, standardized_jcc .notOverflow, standardized_jcc .carry,
    standardized_jcc .notCarry, standardized_jcc .zero, standardized_jcc .notZero,
    standardized_jcc .sign, standardized_jcc .notSign, standardized_jcc .less,
    standardized_jcc .lessOrEqual,
    standardized_arithmetic 0 fun _ _ => rfl,
    standardized_arithmetic 5 fun _ _ => rfl, standardized_compare,
    standardized_rmReg fun _ _ => rfl, standardized_rmReg fun _ _ => rfl,
    standardized_regRM (by decide) (fun _ _ _ => rfl) fun _ _ => rfl,
    standardized_regRM (by decide) (fun _ _ _ => rfl) fun _ _ => rfl,
    standardized_moveByte.1, standardized_moveWord.1,
    standardized_complete ⟨.ret, .dword, .absent, .absent⟩ rfl,
    standardized_moveByte.2, standardized_moveWord.2,
    standardized_complete ⟨.leave, .dword, .absent, .absent⟩ rfl, standardized_vector,
    standardized_relative fun _ => rfl, standardized_relative fun _ => rfl, standardized_jump,
    standardized_complete ⟨.input, .byte, .reg8 .al, .dx⟩ rfl,
    standardized_complete ⟨.output, .byte, .dx, .reg8 .al⟩ rfl,
    standardized_increment.2, by simp⟩

/-! ### Two encodings of one instruction -/

/-- **Every encoding is an alternative of the standard one.** -/
theorem eqvGen_standard (h : Encodes bytes i) : EqvGen Alternative bytes (standard i) := by
  obtain ⟨row, hrow, p, hp, rfl, rfl⟩ := h
  cases hbyte : row.hasOperandByte with
  | false =>
    exact standardized_of_mem row hrow p hp fun h => absurd h (by simp [hbyte])
  | true =>
    obtain ⟨p', hp', hfull, hchain, hsame⟩ := exists_full hrow hbyte hp
    rw [← hsame]
    exact .trans _ _ _ hchain (standardized_of_mem row hrow p' hp' fun _ => hfull)

/-- **Alternative encodings.** Two ways to write an instruction down decode to the same one,
wherever they stand. Conversely, two pieces of code that decode to the same instruction are the same
bytes, or there is a chain of such ways from one to the other; and if there is one, they do decode
to the same. -/
theorem decode_same_iff :
    (∀ c c', Alternative c c' → ∃ i,
      (∀ bytes start, c <+: bytes.drop start →
        instructionAt bytes start = (.ok i, c.length)) ∧
      ∀ bytes start, c' <+: bytes.drop start →
        instructionAt bytes start = (.ok i, c'.length)) ∧
    ∀ bytes start i n bytes' start' i' n',
      instructionAt bytes start = (.ok i, n) →
      instructionAt bytes' start' = (.ok i', n') →
      (i = i' ↔ EqvGen Alternative ((bytes.drop start).take n) ((bytes'.drop start').take n')) := by
  refine ⟨fun c c' h => ?_, fun bytes start i n bytes' start' i' n' h h' => ?_⟩
  · obtain ⟨i, hi, hi'⟩ := exists_encodes_of_alternative h
    exact ⟨i, fun _ _ => instructionAt_of_isPrefix hi, fun _ _ => instructionAt_of_isPrefix hi'⟩
  · have hi := (encodes_of_instructionAt h).2
    have hi' := (encodes_of_instructionAt h').2
    constructor
    · rintro rfl
      exact .trans _ _ _ (eqvGen_standard hi) (.symm _ _ (eqvGen_standard hi'))
    · intro hchain
      exact eq_of_encodes ((encodes_iff_of_eqvGen hchain i).1 hi) hi'

/-- `inc dword [eax]` with no displacement and with one of four bytes, `inc eax` in two ways, and
two moves between the same registers that are not the same. -/
theorem decode_same_iff_inc :
    EqvGen Alternative [0xff, 0x00] [0xff, 0x80, 0, 0, 0, 0] ∧
    Alternative [0x40] [0xff, 0xc0] ∧
    (∃ i, instructionAt [0x90, 0x40, 0xc3] 1 = (.ok i, 1) ∧
      instructionAt [0xff, 0xc0] 0 = (.ok i, 2)) ∧
    ¬ EqvGen Alternative [0x89, 0xc3] [0x8b, 0xc3] := by
  have hnone : instructionAt [0xff, 0x00] 0
      = (.ok ⟨.inc, .dword, .mem .eax 0, .absent⟩, 2) := by rfl
  have hfour : instructionAt [0xff, 0x80, 0, 0, 0, 0] 0
      = (.ok ⟨.inc, .dword, .mem .eax 0, .absent⟩, 6) := by rfl
  have hto : instructionAt [0x89, 0xc3] 0
      = (.ok ⟨.mov, .dword, .reg .ebx, .reg .eax⟩, 2) := by rfl
  have hfrom : instructionAt [0x8b, 0xc3] 0
      = (.ok ⟨.mov, .dword, .reg .eax, .reg .ebx⟩, 2) := by rfl
  have hinc : Alternative [0x40] [0xff, 0xc0] := .increment 0
  obtain ⟨i, hone, htwo⟩ := decode_same_iff.1 _ _ hinc
  refine ⟨(decode_same_iff.2 _ _ _ _ _ _ _ _ hnone hfour).1 rfl, hinc,
    ⟨i, hone _ _ (by decide), htwo _ _ (by decide)⟩, fun hchain => ?_⟩
  have hsame := (decode_same_iff.2 _ _ _ _ _ _ _ _ hto hfrom).2 hchain
  simp at hsame

end Boot386.InstructionSet
