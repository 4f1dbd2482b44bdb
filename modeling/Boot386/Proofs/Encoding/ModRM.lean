import Boot386.Proofs.Word
import Boot386.Proofs.Encoding.Parts

/-!
# Operand bytes are read and written

An operand byte with its displacement and the fields that they stand for determine each other
(`ModRM.round_trip`). What is decoded are the bytes of the fields that come of it, and fields are
decoded from their bytes if they are `ModRM.Regular`: the form is implemented, and the mode has
bytes for the displacement (`Decoder.modRM_eq_ok_iff`).

A displacement is added to the base register as the signed number that it is, modulo `2 ^ 32`
(`ModRM.address?_rmOperand`).
-/

namespace Boot386

namespace ModRM

/-! ### Displacements -/

/-- The mode has bytes for the displacement. -/
def HasRoom (mode : Fin 4) (d : Int32) : Prop :=
  match mode with
  | 0 => d = 0
  | 1 => -128 ≤ d.toInt ∧ d.toInt < 128
  | 2 => True
  | 3 => d = 0

@[simp] theorem length_displacementBytes (mode : Fin 4) (d : Int32) :
    (displacementBytes mode d).length = displacementLength mode := by
  match mode with
  | 0 => rfl
  | 1 => rfl
  | 2 => rfl
  | 3 => rfl

/-- The bytes of a displacement are its digits in base 256, the least significant one first. -/
theorem displacementBytes_eq (mode : Fin 4) (d : Int32) :
    displacementBytes mode d = (List.range (displacementLength mode)).map fun j =>
      UInt8.ofNat ((d.toInt % 2 ^ 32).toNat / 256 ^ j) := by
  have hd : (d.toInt % 2 ^ 32).toNat = (Word.ofSigned d).toNat := by
    have h := Word.toNat_ofSigned d
    omega
  simp only [hd, ← Word.byte_eq_div]
  match mode with
  | 0 => rfl
  | 1 => rfl
  | 2 => rfl
  | 3 => rfl

/-- A displacement that the mode has bytes for is what its bytes stand for. -/
theorem signed_displacementBytes {mode : Fin 4} {d : Int32} (h : HasRoom mode d) :
    Word.signed (displacementBytes mode d) = d := by
  match mode, h with
  | 0, h => exact Eq.symm h
  | 1, h => exact Word.signExtend_byte_ofSigned h.1 h.2
  | 2, _ => exact Word.signed_toBytes d
  | 3, h => exact Eq.symm h

/-- What the bytes of a displacement stand for has the mode room for, and its bytes are these. -/
theorem hasRoom_signed {mode : Fin 4} {bytes : List UInt8}
    (h : bytes.length = displacementLength mode) :
    HasRoom mode (Word.signed bytes) ∧ displacementBytes mode (Word.signed bytes) = bytes := by
  match mode, bytes, h with
  | 0, [], _ => exact ⟨rfl, rfl⟩
  | 1, [b], _ =>
    -- a single byte stands for a number from -128 to 127
    have hb := b.toNat_lt
    have hint := Word.toInt_signExtend b
    refine ⟨?_, congrArg (fun c => [c]) (Word.byte_ofSigned_signExtend b)⟩
    constructor
    · show -128 ≤ (Word.signExtend b).toInt
      split at hint <;> omega
    · show (Word.signExtend b).toInt < 128
      split at hint <;> omega
  | 2, [b₀, b₁, b₂, b₃], h => exact ⟨trivial, Word.toBytes_signed h⟩
  | 3, [], _ => exact ⟨rfl, rfl⟩

/-! ### Fields that can be decoded -/

/-- The fields can be decoded: there is no index register and no address without a base register,
and the mode has bytes for the displacement. -/
structure Regular (m : ModRM) : Prop where
  zero : m.mode = 0 → m.rm ≠ 4 ∧ m.rm ≠ 5
  one_or_two : m.mode = 1 ∨ m.mode = 2 → m.rm ≠ 4
  displacement : HasRoom m.mode m.displacement

theorem not_unimplemented_iff_forall {mode : Fin 4} {rm : Fin 8} :
    ¬ Unimplemented mode rm ↔
      (mode = 0 → rm ≠ 4 ∧ rm ≠ 5) ∧ (mode = 1 ∨ mode = 2 → rm ≠ 4) := by
  revert mode rm
  decide

theorem Regular.implemented {m : ModRM} (h : m.Regular) : ¬ Unimplemented m.mode m.rm :=
  not_unimplemented_iff_forall.2 ⟨h.zero, h.one_or_two⟩

end ModRM

open ModRM (modeOf regOf rmOf pack displacementBytes displacementLength Regular)

/-! ### Reading and writing -/

namespace Decoder

variable {m : ModRM} {bytes rest : List UInt8}

/-- Fields that can be decoded are decoded from their bytes, whatever stands behind these. -/
theorem modRM_encode_append (h : m.Regular) (tail : List UInt8) :
    modRM (m.encode ++ tail) = .ok m tail := by
  have himplemented : ¬ ModRM.Unimplemented (modeOf (pack m.mode m.reg m.rm))
      (rmOf (pack m.mode m.reg m.rm)) := by
    rw [ModRM.modeOf_pack, ModRM.rmOf_pack]
    exact h.implemented
  have hlength : (displacementBytes m.mode m.displacement).length
      = displacementLength (modeOf (pack m.mode m.reg m.rm)) := by
    rw [ModRM.length_displacementBytes, ModRM.modeOf_pack]
  have hread := modRM_append himplemented hlength tail
  rwa [ModRM.modeOf_pack, ModRM.regOf_pack, ModRM.rmOf_pack,
    ModRM.signed_displacementBytes h.displacement] at hread

/-- What is decoded can be decoded, and it is its bytes that have been taken. -/
theorem encode_append_of_modRM (h : modRM bytes = .ok m rest) :
    m.Regular ∧ bytes = m.encode ++ rest := by
  cases bytes with
  | nil => cases h
  | cons b tail =>
    by_cases himplemented : ModRM.Unimplemented (modeOf b) (rmOf b)
    · -- a form that is not implemented is not decoded
      rw [modRM_of_unimplemented himplemented] at h
      cases h
    · by_cases hshort : tail.length < displacementLength (modeOf b)
      · rw [modRM_of_short himplemented hshort] at h
        cases h
      · -- the displacement is there, and what is left is behind it
        obtain ⟨displacement, behind, rfl, hlength⟩ : ∃ displacement behind,
            tail = displacement ++ behind ∧
              displacement.length = displacementLength (modeOf b) :=
          ⟨_, _, (List.take_append_drop (displacementLength (modeOf b)) tail).symm,
            List.length_take_of_le (Nat.not_lt.1 hshort)⟩
        rw [modRM_append himplemented hlength] at h
        cases h
        obtain ⟨hroom, hbytes⟩ := ModRM.hasRoom_signed hlength
        obtain ⟨hzero, hone⟩ := ModRM.not_unimplemented_iff_forall.1 himplemented
        refine ⟨⟨hzero, hone, hroom⟩, ?_⟩
        rw [ModRM.encode, ModRM.pack_fields, hbytes, List.cons_append]

/-- **Decoding is the inverse of encoding.** -/
theorem modRM_eq_ok_iff : modRM bytes = .ok m rest ↔ m.Regular ∧ bytes = m.encode ++ rest := by
  constructor
  · exact encode_append_of_modRM
  · rintro ⟨h, rfl⟩
    exact modRM_encode_append h rest

/-- What has been taken of the bytes where fields have been decoded. -/
theorem decode_modRM (h : modRM bytes = .ok m rest) :
    modRM.decode bytes = ⟨.ok m, m.encode, rest⟩ := by
  obtain ⟨-, rfl⟩ := encode_append_of_modRM h
  rw [decode, h]
  simp

end Decoder

namespace ModRM

theorem length_encode (m : ModRM) : m.encode.length = 1 + displacementLength m.mode := by
  rw [encode, List.length_cons, length_displacementBytes, Nat.add_comm]

/-- **Addresses.** Outside of mode 3 the displacement is added to the base register. -/
theorem address?_rmOperand {m : ModRM} (h : m.mode ≠ 3) (w : Width) (rs : Registers) :
    ∃ a, (m.rmOperand w).address? rs = some a ∧
      (a.toNat : Int) = ((rs.get (Reg.ofCode m.rm)).toNat + m.displacement.toInt) % 2 ^ 32 := by
  have hmode : m.mode.val ≠ 3 := fun hval => h (Fin.ext hval)
  refine ⟨rs.get (Reg.ofCode m.rm) + Word.ofSigned m.displacement, ?_, ?_⟩
  · rw [rmOperand, if_neg hmode]
    rfl
  · have hd := Word.toNat_ofSigned m.displacement
    rw [UInt32.toNat_add]
    omega

/-- **Operand bytes.** The encoding of fields is a byte with mode, `reg` and `rm` in two, three and
three bits, and the displacement in no, one, four or no bytes, the least significant one first, in
two's complement.

* If fields can be decoded from the front of some bytes, then the bytes that are taken for them are
  their encoding. There are no other fields than those that are decoded from their encoding,
  whatever stands behind it: those with a displacement that the mode has bytes for, in a form that
  is implemented.
* The operand that `rm` stands for is at no address in mode 3. In the other modes its address is the
  sum of the base register and the displacement, modulo `2 ^ 32`. -/
theorem round_trip :
    (∀ m : ModRM, m.encode = UInt8.ofNat (64 * m.mode.val + 8 * m.reg.val + m.rm.val) ::
      (List.range (displacementLength m.mode)).map fun j =>
        UInt8.ofNat ((m.displacement.toInt % 2 ^ 32).toNat / 256 ^ j)) ∧
    (∀ bytes m, (Decoder.modRM.decode bytes).result = .ok m →
      let n := (Decoder.modRM.decode bytes).consumed.length
      m.encode = bytes.take n ∧ n = 1 + displacementLength m.mode ∧ m.Regular) ∧
    (∀ (m : ModRM) (tail : List UInt8), m.Regular →
      Decoder.modRM.decode (m.encode ++ tail) = ⟨.ok m, m.encode, tail⟩) ∧
    (∀ (m : ModRM) (w : Width) (rs : Registers), m.mode = 3 →
      (m.rmOperand w).address? rs = none) ∧
    (∀ (m : ModRM) (w : Width) (rs : Registers), m.mode ≠ 3 →
      ∃ a, (m.rmOperand w).address? rs = some a ∧
        (a.toNat : Int)
          = ((rs.get (Reg.ofCode m.rm)).toNat + m.displacement.toInt) % 2 ^ 32) := by
  refine ⟨fun m => ?_, fun bytes m h => ?_, fun m tail h => ?_, fun m w rs h => ?_,
    fun m w rs h => address?_rmOperand h w rs⟩
  · -- the encoding in numbers
    rw [encode, displacementBytes_eq, pack]
  · -- what has been decoded is the encoding of the fields
    obtain ⟨rest, hread⟩ : ∃ rest, Decoder.modRM bytes = .ok m rest := by
      cases hd : Decoder.modRM bytes with
      | ok m' rest =>
        rw [Decoder.decode, hd] at h
        obtain rfl := Except.ok.inj h
        exact ⟨rest, rfl⟩
      | error e rest =>
        rw [Decoder.decode, hd] at h
        cases h
    obtain ⟨hregular, hbytes⟩ := Decoder.encode_append_of_modRM hread
    rw [Decoder.decode_modRM hread]
    refine ⟨?_, length_encode m, hregular⟩
    rw [hbytes, List.take_left]
  · -- an encoding is decoded, whatever stands behind it
    exact Decoder.decode_modRM (Decoder.modRM_encode_append h tail)
  · -- a register has no address
    have hval : m.mode.val = 3 := congrArg Fin.val h
    rw [rmOperand, if_pos hval]
    cases w <;> rfl

/-- A byte of displacement with its top bit set, below a base register that is smaller; and mode 3
with another byte behind it. -/
theorem round_trip_negative :
    let m : ModRM := ⟨1, 0, 5, -2⟩
    (Decoder.modRM.decode [0x45, 0xfe, 0x90]).result = .ok m ∧ m.encode = [0x45, 0xfe] ∧
    Decoder.modRM.decode ([0x45, 0xfe] ++ [0x90]) = ⟨.ok m, [0x45, 0xfe], [0x90]⟩ ∧
    (∃ a, (m.rmOperand .dword).address? { ebp := 1 } = some a ∧ a.toNat = 0xffffffff) ∧
    (ModRM.rmOperand ⟨3, 0, 5, 0⟩ .byte).address? { ebp := 1 } = none := by
  intro m
  obtain ⟨-, hdecode, hencode, hregister, hmemory⟩ := round_trip
  have hread : (Decoder.modRM.decode [0x45, 0xfe, 0x90]).result = .ok m := by rfl
  obtain ⟨htaken, -, hregular⟩ := hdecode _ m hread
  have hbytes : m.encode = [0x45, 0xfe] := htaken
  have hback := hencode m [0x90] hregular
  rw [hbytes] at hback
  obtain ⟨a, ha, haddress⟩ := hmemory m .dword { ebp := 1 } (by decide)
  have hvalue : (a.toNat : Int) = 0xffffffff := haddress
  exact ⟨hread, hbytes, hback, ⟨a, ha, by omega⟩, hregister ⟨3, 0, 5, 0⟩ .byte _ rfl⟩

end ModRM

end Boot386
