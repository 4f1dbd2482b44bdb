import Mathlib.Logic.Relation
import Boot386.Proofs.Encoding.Extent
import Boot386.Proofs.Encoding.Parts

/-!
# Alternative encodings

Some instructions can be written down in several ways. `Alternative` lists the pairs: two registers
of which either one can stand in the place that may also be memory, opcodes that name a register and
opcodes with an operand byte, constants and code addresses of one byte and of four, and
displacements that are left out, of one byte, or of four.

Both byte strings of a pair decode to the same instruction (`exists_encodes_of_alternative`), and so
do the two ends of a chain of pairs (`encodes_iff_of_eqvGen`).
-/

namespace Boot386.InstructionSet

open ModRM (pack)
open Word (extended)
open Relation (EqvGen)
open Decoder (instructionAt_of_isPrefix)

variable {row : Row} {p : Parts} {bytes bytes' : List UInt8} {i : Instruction}

/-! ### Two encodings of the same -/

/-- Encodings with this opcode have an operand byte, in which `reg` may stand, and this constant. -/
def HasForm (opcode : UInt8) (reg : Fin 8) (constant : List UInt8) : Prop :=
  ∃ row ∈ table, row.hasOperandByte = true ∧ row.lead.covers opcode = true ∧
    row.lead.admits reg = true ∧ constant.length = row.constantLength

/-- Two ways to write an instruction down. -/
inductive Alternative : List UInt8 → List UInt8 → Prop where
  /-- Of two registers either one can be the one that may also be memory. -/
  | exchanged {o o' : UInt8} (r s : Fin 8) :
    (o, o') ∈ [(0x88, 0x8a), (0x89, 0x8b), (0x39, 0x3b)] →
    Alternative [o, pack 3 r s] [o', pack 3 s r]
  | increment (r : Fin 8) : Alternative [0x40 + UInt8.ofNat r.val] [0xff, pack 3 0 r]
  | moveWord (r : Fin 8) (constant : List UInt8) : constant.length = 4 →
    Alternative ((0xb8 + UInt8.ofNat r.val) :: constant) (0xc7 :: pack 3 0 r :: constant)
  | moveByte (r : Fin 8) (b : UInt8) :
    Alternative [0xb0 + UInt8.ofNat r.val, b] [0xc6, pack 3 0 r, b]
  | push (b : UInt8) : Alternative [0x6a, b] (0x68 :: extended b)
  | jump (b : UInt8) : Alternative [0xeb, b] (0xe9 :: extended b)
  | compare (b : UInt8) : Alternative (0x3d :: extended b) [0x83, pack 3 7 0, b]
  /-- A displacement of one byte is sign-extended. -/
  | displacement {opcode : UInt8} {reg rm : Fin 8} {constant : List UInt8} (b : UInt8) :
    HasForm opcode reg constant → rm ≠ 4 →
    Alternative (opcode :: pack 1 reg rm :: b :: constant)
      (opcode :: pack 2 reg rm :: (extended b ++ constant))
  /-- A displacement that is not there is zero. -/
  | noDisplacement {opcode : UInt8} {reg rm : Fin 8} {constant : List UInt8} :
    HasForm opcode reg constant → rm ≠ 4 → rm ≠ 5 →
    Alternative (opcode :: pack 0 reg rm :: constant) (opcode :: pack 1 reg rm :: 0 :: constant)

/-! ### Both ways mean the same -/

theorem encodes_of_admits (h : row ∈ table) (hp : row.Admits p) :
    Encodes (row.bytes p) (row.instruction p) :=
  ⟨row, h, p, hp, rfl, rfl⟩

/-- Two rows with parts that mean the same. -/
theorem exists_encodes {row' : Row} (h : row ∈ table) (h' : row' ∈ table) (p p' : Parts)
    (hp : row.Admits p) (hp' : row'.Admits p') (hsame : row'.instruction p' = row.instruction p)
    (hb : row.bytes p = bytes) (hb' : row'.bytes p' = bytes') :
    ∃ i, Encodes bytes i ∧ Encodes bytes' i := by
  refine ⟨row.instruction p, hb ▸ encodes_of_admits h hp, ?_⟩
  rw [← hb', ← hsame]
  exact encodes_of_admits h' hp'

/-- The same displacement in two modes. -/
theorem exists_encodes_of_form {opcode : UInt8} {reg rm : Fin 8} {constant : List UInt8}
    (mode mode' : Fin 4) (hform : HasForm opcode reg constant) (hmode : mode ≠ 3)
    (hmode' : mode' ≠ 3) (himplemented : ¬ ModRM.Unimplemented mode rm)
    (himplemented' : ¬ ModRM.Unimplemented mode' rm) (d d' : List UInt8)
    (hlength : d.length = ModRM.displacementLength mode)
    (hlength' : d'.length = ModRM.displacementLength mode')
    (hsame : Word.signed d' = Word.signed d) :
    ∃ i, Encodes (opcode :: pack mode reg rm :: (d ++ constant)) i ∧
      Encodes (opcode :: pack mode' reg rm :: (d' ++ constant)) i := by
  obtain ⟨row, hrow, hbyte, hcovers, hadmits, hconstant⟩ := hform
  refine exists_encodes hrow hrow ⟨opcode, pack mode reg rm, d, constant⟩
    ⟨opcode, pack mode' reg rm, d', constant⟩
    (admits_pack hcovers hadmits himplemented hlength hconstant)
    (admits_pack hcovers hadmits himplemented' hlength' hconstant) ?_
    (bytes_of_hasOperandByte hbyte _) (bytes_of_hasOperandByte hbyte _)
  exact instruction_pack_congr row opcode reg rm constant hmode hmode' hsame

/-- A register that is named by the opcode, and one in an operand byte. -/
theorem exists_encodes_of_family {base o : UInt8} {op : Op} {w : Width} {slot : Slot}
    (hrow : ⟨.family base, op, w, .code, slot⟩ ∈ table)
    (hrow' : ⟨.shared o 0, op, w, .rm, slot⟩ ∈ table)
    (hbase : base.toNat % 8 = 0) (hslot : slot.inOperandByte = false)
    (hsame : ∀ p p' : Parts, p'.constant = p.constant → slot.operand w p' = slot.operand w p)
    (r : Fin 8) {constant : List UInt8} (hlength : constant.length = slot.constantLength) :
    ∃ i, Encodes ((base + UInt8.ofNat r.val) :: constant) i ∧
      Encodes (o :: pack 3 0 r :: constant) i := by
  have hconstant : constant.length = 0 + slot.constantLength := by rw [hlength, Nat.zero_add]
  have hbyte : Row.hasOperandByte ⟨.family base, op, w, .code, slot⟩ = false := hslot
  refine exists_encodes hrow hrow' ⟨base + UInt8.ofNat r.val, 0, [], constant⟩
    ⟨o, pack 3 0 r, [], constant⟩
    (admits_plain hbyte (covers_add hbase r) rfl hconstant)
    (admits_pack (beq_self_eq_true o) rfl (not_unimplemented_three r) rfl hconstant) ?_
    (bytes_of_not_hasOperandByte hbyte _) (bytes_of_hasOperandByte rfl _)
  rw [Row.instruction, Row.instruction, operand_rm_of_mode_three, operand_code hbase]
  exact congrArg (Instruction.mk op w (.ofCode w r)) (hsame _ _ rfl)

/-- **Both ways mean the same.** -/
theorem exists_encodes_of_alternative (h : Alternative bytes bytes') :
    ∃ i, Encodes bytes i ∧ Encodes bytes' i := by
  cases h with
  | @exchanged o o' r s ho =>
    -- the two opcodes are of one operation, and differ in which operand is in which field
    have hrows : ∃ op w, ⟨.one o, op, w, .rm, .reg⟩ ∈ table ∧
        ⟨.one o', op, w, .reg, .rm⟩ ∈ table := by
      simp only [List.mem_cons, Prod.mk.injEq, List.not_mem_nil, or_false] at ho
      obtain ⟨rfl, rfl⟩ | ⟨rfl, rfl⟩ | ⟨rfl, rfl⟩ := ho
      · exact ⟨.mov, .byte, by decide, by decide⟩
      · exact ⟨.mov, .dword, by decide, by decide⟩
      · exact ⟨.cmp, .dword, by decide, by decide⟩
    obtain ⟨op, w, hrow, hrow'⟩ := hrows
    refine exists_encodes hrow hrow' ⟨o, pack 3 r s, [], []⟩ ⟨o', pack 3 s r, [], []⟩
      (admits_pack (beq_self_eq_true o) rfl (not_unimplemented_three s) rfl rfl)
      (admits_pack (beq_self_eq_true o') rfl (not_unimplemented_three r) rfl rfl) ?_ rfl rfl
    simp only [Row.instruction, operand_rm_of_mode_three, operand_reg]
  | increment r =>
    have hrow : ⟨.family 0x40, .inc, .dword, .code, .absent⟩ ∈ table := by decide
    have hrow' : ⟨.shared 0xff 0, .inc, .dword, .rm, .absent⟩ ∈ table := by decide
    exact exists_encodes_of_family hrow hrow' rfl rfl (fun _ _ _ => rfl) r rfl
  | moveWord r constant hlength =>
    have hrow : ⟨.family 0xb8, .mov, .dword, .code, .imm32⟩ ∈ table := by decide
    have hrow' : ⟨.shared 0xc7 0, .mov, .dword, .rm, .imm32⟩ ∈ table := by decide
    exact exists_encodes_of_family hrow hrow' rfl rfl
      (fun _ _ h => congrArg (fun c => Operand.imm (Word.unsigned c)) h) r hlength
  | moveByte r b =>
    have hrow : ⟨.family 0xb0, .mov, .byte, .code, .imm8⟩ ∈ table := by decide
    have hrow' : ⟨.shared 0xc6 0, .mov, .byte, .rm, .imm8⟩ ∈ table := by decide
    exact exists_encodes_of_family hrow hrow' rfl rfl
      (fun _ _ h => congrArg (fun c => Operand.imm (Word.unsigned c)) h) r rfl
  | push b =>
    have hrow : ⟨.one 0x6a, .push, .dword, .imm8Signed, .absent⟩ ∈ table := by decide
    have hrow' : ⟨.one 0x68, .push, .dword, .imm32, .absent⟩ ∈ table := by decide
    refine exists_encodes hrow hrow' ⟨0x6a, 0, [], [b]⟩ ⟨0x68, 0, [], extended b⟩
      (admits_plain rfl rfl rfl rfl) (admits_plain rfl rfl rfl rfl) ?_ rfl rfl
    simp only [Row.instruction, Slot.operand, extended, Word.unsigned_toBytes, Word.signed]
  | jump b =>
    have hrow : ⟨.one 0xeb, .jmp, .byte, .rel8, .absent⟩ ∈ table := by decide
    have hrow' : ⟨.one 0xe9, .jmp, .byte, .rel32, .absent⟩ ∈ table := by decide
    refine exists_encodes hrow hrow' ⟨0xeb, 0, [], [b]⟩ ⟨0xe9, 0, [], extended b⟩
      (admits_plain rfl rfl rfl rfl) (admits_plain rfl rfl rfl rfl) ?_ rfl rfl
    simp only [Row.instruction, Slot.operand, extended, Word.signed_toBytes]
    rfl
  | compare b =>
    -- `eax` is fixed by one opcode, and register 0 in the operand byte of the other
    have hrow : ⟨.one 0x3d, .cmp, .dword, .fixed (.reg .eax), .imm32⟩ ∈ table := by decide
    have hrow' : ⟨.shared 0x83 7, .cmp, .dword, .rm, .imm8Signed⟩ ∈ table := by decide
    refine exists_encodes hrow hrow' ⟨0x3d, 0, [], extended b⟩ ⟨0x83, pack 3 7 0, [], [b]⟩
      (admits_plain rfl rfl rfl rfl)
      (admits_pack rfl rfl (not_unimplemented_three 0) rfl rfl) ?_ rfl rfl
    rw [Row.instruction, Row.instruction, operand_rm_of_mode_three]
    simp only [Slot.operand, extended, Word.unsigned_toBytes, Word.signed]
    rfl
  | displacement b hform hindex =>
    exact exists_encodes_of_form 1 2 hform (by decide) (by decide)
      ((not_unimplemented_iff (by decide)).2 ⟨hindex, fun h => absurd h (by decide)⟩)
      ((not_unimplemented_iff (by decide)).2 ⟨hindex, fun h => absurd h (by decide)⟩)
      [b] (extended b) rfl rfl (Word.signed_toBytes (Word.signExtend b))
  | noDisplacement hform hindex hbase =>
    exact exists_encodes_of_form 0 1 hform (by decide) (by decide)
      ((not_unimplemented_iff (by decide)).2 ⟨hindex, fun _ => hbase⟩)
      ((not_unimplemented_iff (by decide)).2 ⟨hindex, fun h => absurd h (by decide)⟩)
      [] [0] rfl rfl rfl

/-! ### Chains -/

/-- Bytes encode one instruction at most. -/
theorem eq_of_encodes {i' : Instruction} (h : Encodes bytes i) (h' : Encodes bytes i') :
    i = i' := by
  have hat : bytes <+: bytes.drop 0 := List.prefix_refl _
  have hsame := (instructionAt_of_isPrefix h hat).symm.trans (instructionAt_of_isPrefix h' hat)
  exact Except.ok.inj (congrArg Prod.fst hsame)

/-- Chains of alternatives keep the meaning. -/
theorem encodes_iff_of_eqvGen (h : EqvGen Alternative bytes bytes') (i : Instruction) :
    Encodes bytes i ↔ Encodes bytes' i := by
  induction h with
  | rel c c' hc =>
    -- both decode to something, so if one decodes to `i` then the other one does
    obtain ⟨i', hi, hi'⟩ := exists_encodes_of_alternative hc
    exact ⟨fun h => eq_of_encodes hi h ▸ hi', fun h => eq_of_encodes hi' h ▸ hi⟩
  | refl c => exact Iff.rfl
  | symm c c' _ ih => exact ih.symm
  | trans c c' c'' _ _ ih ih' => exact ih.trans ih'

end Boot386.InstructionSet
