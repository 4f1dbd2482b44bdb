import Boot386.Encoding.InstructionSet

/-!
# The pieces of encodings

An encoding is made of an opcode, an operand byte with its displacement, and a constant. Where it is
put together from fields, these are read back:

* `ModRM.pack` and the fields of an operand byte determine each other;
* a word and its four bytes determine each other, and so do a byte and the word that it is
  sign-extended to (`Word.extended`);
* an opcode of a family of eight is the first one of them with a register in its low bits.

Hence what the parts of an encoding mean: `admits_pack` and `admits_plain` for parts that belong to
a row, and one lemma for each kind of operand.
-/

namespace Boot386

namespace ModRM

/-! ### Operand bytes and their fields -/

theorem toNat_pack (mode : Fin 4) (reg rm : Fin 8) :
    (pack mode reg rm).toNat = 64 * mode.val + 8 * reg.val + rm.val := by
  rw [pack, UInt8.toNat_ofNat']
  omega

@[simp] theorem modeOf_pack (mode : Fin 4) (reg rm : Fin 8) :
    modeOf (pack mode reg rm) = mode := by
  refine Fin.ext ?_
  simp only [modeOf, toNat_pack]
  omega

@[simp] theorem regOf_pack (mode : Fin 4) (reg rm : Fin 8) : regOf (pack mode reg rm) = reg := by
  refine Fin.ext ?_
  simp only [regOf, val_lowCode, toNat_pack]
  omega

@[simp] theorem rmOf_pack (mode : Fin 4) (reg rm : Fin 8) : rmOf (pack mode reg rm) = rm := by
  refine Fin.ext ?_
  simp only [rmOf, val_lowCode, toNat_pack]
  omega

/-- An operand byte is its three fields. -/
theorem pack_fields (b : UInt8) : pack (modeOf b) (regOf b) (rmOf b) = b := by
  refine UInt8.toNat_inj.1 ?_
  simp only [toNat_pack, modeOf, regOf, rmOf, val_lowCode]
  omega

theorem exists_eq_pack (b : UInt8) : ∃ mode reg rm, b = pack mode reg rm :=
  ⟨_, _, _, (pack_fields b).symm⟩

end ModRM

namespace Word

/-! ### Constants and their bytes -/

/-- The four bytes of a byte that is sign-extended. -/
def extended (b : UInt8) : List UInt8 :=
  toBytes (ofSigned (signExtend b))

theorem toBytes_unsigned {bytes : List UInt8} (h : bytes.length = 4) :
    toBytes (unsigned bytes) = bytes := by
  match bytes, h with
  | [b₀, b₁, b₂, b₃], _ => exact toBytes_ofBytes b₀ b₁ b₂ b₃

theorem toBytes_signed {bytes : List UInt8} (h : bytes.length = 4) :
    toBytes (ofSigned (signed bytes)) = bytes := by
  match bytes, h with
  | [b₀, b₁, b₂, b₃], _ => exact toBytes_ofBytes b₀ b₁ b₂ b₃

theorem unsigned_toBytes (w : UInt32) : unsigned (toBytes w) = w :=
  ofBytes_toBytes w

theorem signed_toBytes (d : Int32) : signed (toBytes (ofSigned d)) = d :=
  congrArg toSigned (ofBytes_toBytes (ofSigned d))

@[simp] theorem byte_ofSigned_signExtend (b : UInt8) : byte (ofSigned (signExtend b)) 0 = b := by
  refine forall_byte (P := fun b => byte (ofSigned (signExtend b)) 0 = b) ?_ b
  decide +kernel

end Word

/-! ### Opcodes that name a register -/

/-- The low bits of an opcode of a family of eight. -/
theorem lowCode_add {base : UInt8} (hbase : base.toNat % 8 = 0) (r : Fin 8) :
    lowCode (base + UInt8.ofNat r.val).toNat = r := by
  refine Fin.ext ?_
  rw [val_lowCode, UInt8.toNat_add, UInt8.toNat_ofNat']
  omega

theorem covers_add {base : UInt8} (hbase : base.toNat % 8 = 0) (r : Fin 8) :
    (InstructionSet.Lead.family base).covers (base + UInt8.ofNat r.val) = true := by
  have hlt := base.toNat_lt
  refine beq_iff_eq.2 ?_
  rw [UInt8.toNat_add, UInt8.toNat_ofNat']
  omega

/-- An opcode of a family of eight is its first one with a register in the low bits. -/
theorem eq_add_of_covers {base opcode : UInt8} (hbase : base.toNat % 8 = 0)
    (h : (InstructionSet.Lead.family base).covers opcode = true) :
    opcode = base + UInt8.ofNat (lowCode opcode.toNat).val := by
  have hlt := opcode.toNat_lt
  have hdiv : opcode.toNat / 8 = base.toNat / 8 := beq_iff_eq.1 h
  refine UInt8.toNat_inj.1 ?_
  rw [val_lowCode, UInt8.toNat_add, UInt8.toNat_ofNat']
  omega

namespace InstructionSet

open ModRM (pack)

variable {row : Row} {p : Parts}

/-! ### Parts that belong to a row -/

/-- An operand byte of mode 3 is always implemented. -/
theorem not_unimplemented_three (rm : Fin 8) : ¬ ModRM.Unimplemented 3 rm := by
  revert rm
  decide

/-- The other modes are implemented without an index register, except that mode 0 has no address
without a base register. -/
theorem not_unimplemented_iff {mode : Fin 4} {rm : Fin 8} (hmode : mode ≠ 3) :
    ¬ ModRM.Unimplemented mode rm ↔ rm ≠ 4 ∧ (mode = 0 → rm ≠ 5) := by
  revert mode rm
  decide

/-- Parts with an operand byte belong to a row that has one. -/
theorem admits_pack {opcode : UInt8} {mode : Fin 4} {reg rm : Fin 8}
    {displacement constant : List UInt8} (hcovers : row.lead.covers opcode = true)
    (hadmits : row.lead.admits reg = true) (himplemented : ¬ ModRM.Unimplemented mode rm)
    (hdisplacement : displacement.length = ModRM.displacementLength mode)
    (hconstant : constant.length = row.constantLength) :
    row.Admits ⟨opcode, pack mode reg rm, displacement, constant⟩ where
  covers := hcovers
  admits := by rwa [ModRM.regOf_pack]
  implemented _ := by rwa [ModRM.modeOf_pack, ModRM.rmOf_pack]
  displacement _ := by rwa [ModRM.modeOf_pack]
  constant := hconstant

/-- Parts without an operand byte belong to a row that has none. -/
theorem admits_plain {opcode : UInt8} {constant : List UInt8}
    (hbyte : row.hasOperandByte = false) (hcovers : row.lead.covers opcode = true)
    (hadmits : row.lead.admits (ModRM.regOf 0) = true)
    (hconstant : constant.length = row.constantLength) :
    row.Admits ⟨opcode, 0, [], constant⟩ where
  covers := hcovers
  admits := hadmits
  implemented h := by simp [hbyte] at h
  displacement h := by simp [hbyte] at h
  constant := hconstant

theorem bytes_of_hasOperandByte (h : row.hasOperandByte = true) (p : Parts) :
    row.bytes p = p.opcode :: p.operandByte :: (p.displacement ++ p.constant) := by
  rw [Row.bytes, if_pos h, List.cons_append]

theorem bytes_of_not_hasOperandByte (h : row.hasOperandByte = false) (p : Parts) :
    row.bytes p = p.opcode :: p.constant := by
  rw [Row.bytes, h, if_neg Bool.false_ne_true, List.nil_append]

/-! ### Operands of parts -/

theorem operand_rm_of_mode_three (w : Width) (o : UInt8) (reg rm : Fin 8) (d c : List UInt8) :
    Slot.rm.operand w ⟨o, pack 3 reg rm, d, c⟩ = .ofCode w rm := by
  simp only [Slot.operand, ModRM.modeOf_pack, ModRM.rmOf_pack]
  exact if_pos rfl

theorem operand_rm_of_mode_ne_three {mode : Fin 4} (h : mode ≠ 3) (w : Width) (o : UInt8)
    (reg rm : Fin 8) (d c : List UInt8) :
    Slot.rm.operand w ⟨o, pack mode reg rm, d, c⟩ = .mem (Reg.ofCode rm) (Word.signed d) := by
  simp only [Slot.operand, ModRM.modeOf_pack, ModRM.rmOf_pack]
  exact if_neg fun hval => h (Fin.ext hval)

theorem operand_reg (w : Width) (o : UInt8) (mode : Fin 4) (reg rm : Fin 8) (d c : List UInt8) :
    Slot.reg.operand w ⟨o, pack mode reg rm, d, c⟩ = .ofCode w reg := by
  simp only [Slot.operand, ModRM.regOf_pack]

theorem operand_code {base : UInt8} (hbase : base.toNat % 8 = 0) (w : Width) (r : Fin 8)
    (o : UInt8) (d c : List UInt8) :
    Slot.code.operand w ⟨base + UInt8.ofNat r.val, o, d, c⟩ = .ofCode w r := by
  rw [Slot.operand, lowCode_add hbase]

theorem operand_rm_cases (w : Width) (p : Parts) :
    (∃ base d, Slot.rm.operand w p = .mem base d) ∨
      ∃ code, Slot.rm.operand w p = .ofCode w code := by
  simp only [Slot.operand]
  split
  · exact .inr ⟨_, rfl⟩
  · exact .inl ⟨_, _, rfl⟩

theorem operand_imm8 {b : UInt8} (h : p.constant = [b]) (w : Width) :
    Slot.imm8.operand w p = .imm b.toUInt32 := by
  rw [Slot.operand, h, Word.unsigned_singleton]

theorem operand_imm8Signed {b : UInt8} (h : p.constant = [b]) (w : Width) :
    Slot.imm8Signed.operand w p = .imm (Word.ofSigned (Word.signExtend b)) := by
  rw [Slot.operand, h, Word.signed]

theorem operand_rel8 {b : UInt8} (h : p.constant = [b]) (w : Width) :
    Slot.rel8.operand w p = .rel (Word.signExtend b) := by
  rw [Slot.operand, h, Word.signed]

/-- The meaning depends on the pieces, and on mode and displacement only together. -/
theorem instruction_congr {p' : Parts} (hopcode : p'.opcode = p.opcode)
    (hreg : ModRM.regOf p'.operandByte = ModRM.regOf p.operandByte)
    (hrm : ∀ w, Slot.rm.operand w p' = Slot.rm.operand w p) (hconstant : p'.constant = p.constant) :
    row.instruction p' = row.instruction p := by
  have hslot : ∀ (w : Width) (s : Slot), s.operand w p' = s.operand w p := by
    intro w s
    cases s with
    | rm => exact hrm w
    | _ => simp only [Slot.operand, hopcode, hreg, hconstant]
  rw [Row.instruction, Row.instruction, hslot, hslot]

/-- Of a memory operand the mode does not matter, but only the displacement. -/
theorem instruction_pack_congr (row : Row) (opcode : UInt8) {mode mode' : Fin 4} (reg rm : Fin 8)
    {d d' : List UInt8} (constant : List UInt8) (hmode : mode ≠ 3) (hmode' : mode' ≠ 3)
    (hsame : Word.signed d' = Word.signed d) :
    row.instruction ⟨opcode, pack mode' reg rm, d', constant⟩
      = row.instruction ⟨opcode, pack mode reg rm, d, constant⟩ := by
  refine instruction_congr rfl ?_ (fun w => ?_) rfl
  · rw [ModRM.regOf_pack, ModRM.regOf_pack]
  · rw [operand_rm_of_mode_ne_three hmode, operand_rm_of_mode_ne_three hmode', hsame]

end InstructionSet

end Boot386
