import Boot386.Instruction
import Boot386.Encoding.Decoder

/-!
# Register and memory operands

The byte that follows many opcodes packs three fields: a two bit mode and two three bit codes,
`reg` and `rm`. Mode 3 makes `rm` a register; in the other modes it is the base register of a
memory operand, whose displacement follows in no byte (mode 0), one byte (mode 1) or four
bytes (mode 2). The forms that need more than one base register, or none, are not
implemented.

`ModRM.encode` writes the bytes that `Decoder.modRM` reads.
-/

namespace Boot386

/-- The fields of an operand byte together with the displacement behind it. -/
structure ModRM where
  mode : Fin 4
  /-- A register, or the sub-code of an opcode that several operations share. -/
  reg : Fin 8
  /-- A register, or the base register of a memory operand. -/
  rm : Fin 8
  displacement : Int32
  deriving DecidableEq, Repr, Inhabited

/-- The register operand of some width with a three bit code. -/
def Operand.ofCode (w : Width) (code : Fin 8) : Operand :=
  match w with
  | .byte => .reg8 (Reg8.ofCode code)
  | .dword => .reg (Reg.ofCode code)

namespace ModRM

/-! ### The operands -/

/-- The operand that mode and `rm` stand for. -/
def rmOperand (m : ModRM) (w : Width) : Operand :=
  if m.mode.val = 3 then .ofCode w m.rm else .mem (Reg.ofCode m.rm) m.displacement

/-- The register that `reg` stands for. -/
def regOperand (m : ModRM) (w : Width) : Operand :=
  .ofCode w m.reg

/-! ### The fields of the operand byte -/

/-- The upper two bits. -/
def modeOf (b : UInt8) : Fin 4 :=
  ⟨b.toNat / 64, by have := b.toNat_lt; omega⟩

/-- The three bits in the middle. -/
def regOf (b : UInt8) : Fin 8 :=
  lowCode (b.toNat / 8)

/-- The lower three bits. -/
def rmOf (b : UInt8) : Fin 8 :=
  lowCode b.toNat

/-- The operand byte with these fields. -/
def pack (mode : Fin 4) (reg rm : Fin 8) : UInt8 :=
  UInt8.ofNat (64 * mode.val + 8 * reg.val + rm.val)

/-- The forms that are not implemented: an index register (`rm` 4 outside mode 3) and an
address without a base register (`rm` 5 in mode 0). -/
def Unimplemented (mode : Fin 4) (rm : Fin 8) : Prop :=
  (mode.val ≠ 3 ∧ rm.val = 4) ∨ (mode.val = 0 ∧ rm.val = 5)

instance (mode : Fin 4) (rm : Fin 8) : Decidable (Unimplemented mode rm) :=
  inferInstanceAs (Decidable (_ ∨ _))

/-! ### Displacements -/

/-- Takes the displacement that a mode calls for from the front of some bytes, if they
suffice. -/
def takeDisplacement (mode : Fin 4) (bytes : List UInt8) : Option (Int32 × List UInt8) :=
  match mode, bytes with
  | 0, rest => some (0, rest)
  | 1, b :: rest => some (Word.signExtend b, rest)
  | 2, b₀ :: b₁ :: b₂ :: b₃ :: rest => some (Word.toSigned (Word.ofBytes b₀ b₁ b₂ b₃), rest)
  | 3, rest => some (0, rest)
  | _, _ => none

/-- How many bytes of displacement a mode calls for. -/
def displacementLength : Fin 4 → Nat
  | 0 => 0
  | 1 => 1
  | 2 => 4
  | 3 => 0

/-- The bytes of a displacement: none in the modes 0 and 3, the low one in mode 1, all four in
mode 2. -/
def displacementBytes (mode : Fin 4) (d : Int32) : List UInt8 :=
  match mode with
  | 0 => []
  | 1 => [Word.byte (Word.ofSigned d) 0]
  | 2 => Word.toBytes (Word.ofSigned d)
  | 3 => []

/-- The operand byte and the displacement. -/
def encode (m : ModRM) : List UInt8 :=
  pack m.mode m.reg m.rm :: displacementBytes m.mode m.displacement

theorem suffix_of_takeDisplacement {mode : Fin 4} {bytes rest : List UInt8} {d : Int32}
    (h : takeDisplacement mode bytes = some (d, rest)) : rest <:+ bytes := by
  unfold takeDisplacement at h
  split at h <;> simp only [Option.some.injEq, Prod.mk.injEq, reduceCtorEq] at h
  · exact h.2 ▸ List.suffix_refl _
  · exact h.2 ▸ List.suffix_cons ..
  · exact h.2 ▸ ⟨[_, _, _, _], rfl⟩
  · exact h.2 ▸ List.suffix_refl _

/-- A displacement is taken off the front, whatever stands behind it. -/
theorem takeDisplacement_append {mode : Fin 4} {bytes : List UInt8}
    (h : bytes.length = displacementLength mode) (tail : List UInt8) :
    takeDisplacement mode (bytes ++ tail) = some (Word.signed bytes, tail) := by
  match mode, bytes, h with
  | 0, [], _ => rfl
  | 1, [b], _ => rfl
  | 2, [b₀, b₁, b₂, b₃], _ => rfl
  | 3, [], _ => rfl

/-- Too few bytes are no displacement. -/
theorem takeDisplacement_eq_none {mode : Fin 4} {bytes : List UInt8}
    (h : bytes.length < displacementLength mode) : takeDisplacement mode bytes = none := by
  match mode, bytes, h with
  | 0, _, h => exact absurd h (Nat.not_lt_zero _)
  | 1, [], _ => rfl
  | 2, [], _ => rfl
  | 2, [_], _ => rfl
  | 2, [_, _], _ => rfl
  | 2, [_, _, _], _ => rfl
  | 3, _, h => exact absurd h (Nat.not_lt_zero _)

theorem displacementLength_le (mode : Fin 4) : displacementLength mode ≤ 4 := by
  revert mode; decide

end ModRM

namespace Decoder

/-- The operand byte and its displacement. Of a form that is not implemented the operand byte
is consumed; where bytes are missing, none is. -/
def modRM : Decoder ModRM
  | [] => .error .truncated []
  | b :: rest =>
    let mode := ModRM.modeOf b
    let rm := ModRM.rmOf b
    if ModRM.Unimplemented mode rm then
      -- the operand byte is at fault, so it counts as looked at, and its displacement does not
      .error (.unimplementedAddressing (UInt8.ofNat mode.val) (UInt8.ofNat rm.val)) rest
    else
      match ModRM.takeDisplacement mode rest with
      | some (d, rest) => .ok ⟨mode, ModRM.regOf b, rm, d⟩ rest
      | none => .error .truncated (b :: rest)

/-- Of a form that is not implemented only the operand byte is consumed. -/
theorem modRM_of_unimplemented {b : UInt8}
    (h : ModRM.Unimplemented (ModRM.modeOf b) (ModRM.rmOf b)) (rest : List UInt8) :
    modRM (b :: rest)
      = .error (.unimplementedAddressing (UInt8.ofNat (ModRM.modeOf b).val)
          (UInt8.ofNat (ModRM.rmOf b).val)) rest :=
  if_pos h

/-- An operand byte and the displacement that its mode calls for. -/
theorem modRM_append {b : UInt8} (h : ¬ ModRM.Unimplemented (ModRM.modeOf b) (ModRM.rmOf b))
    {bytes : List UInt8} (hb : bytes.length = ModRM.displacementLength (ModRM.modeOf b))
    (tail : List UInt8) :
    modRM (b :: (bytes ++ tail))
      = .ok ⟨ModRM.modeOf b, ModRM.regOf b, ModRM.rmOf b, Word.signed bytes⟩ tail := by
  simp only [modRM, h, if_false, ModRM.takeDisplacement_append hb]

/-- Without its whole displacement an operand byte is not consumed either. -/
theorem modRM_of_short {b : UInt8} (h : ¬ ModRM.Unimplemented (ModRM.modeOf b) (ModRM.rmOf b))
    {rest : List UInt8} (hr : rest.length < ModRM.displacementLength (ModRM.modeOf b)) :
    modRM (b :: rest) = .error .truncated (b :: rest) := by
  simp only [modRM, h, if_false, ModRM.takeDisplacement_eq_none hr]

theorem forward_modRM : Forward modRM := by
  intro bytes
  cases bytes with
  | nil => exact List.suffix_refl _
  | cons b rest =>
    simp only [left, modRM]
    by_cases h : ModRM.Unimplemented (ModRM.modeOf b) (ModRM.rmOf b)
    · simp only [h, if_true]
      exact List.suffix_cons b rest
    · simp only [h, if_false]
      cases hd : ModRM.takeDisplacement (ModRM.modeOf b) rest with
      | none => exact List.suffix_refl _
      | some p => exact (ModRM.suffix_of_takeDisplacement hd).trans (List.suffix_cons b rest)

end Decoder

end Boot386
