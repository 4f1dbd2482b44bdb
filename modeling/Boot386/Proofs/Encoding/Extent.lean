import Boot386.Proofs.Encoding.Language

/-!
# How far decoding reaches

An instruction takes at most ten bytes; an error takes fewer. `FailsWithin k d` bounds the bytes
that a decoder has consumed when it fails: a constant that is cut off is not consumed, and of an
operand byte that is not implemented nothing but the byte itself. `failsWithin_instruction` finds
six bytes: a leading byte, an operand byte and its displacement.

The outcome of decoding at an index does not change when bytes are added at the end, unless it is
that bytes are missing (`instructionAt_append`).
-/

namespace Boot386.Decoder

variable {α β : Type} {d : Decoder α}

/-! ### Bytes consumed by an error -/

/-- Where the decoder fails it has consumed at most `k` bytes. -/
def FailsWithin (k : Nat) (d : Decoder α) : Prop :=
  ∀ bytes e rest, d bytes = .error e rest → bytes.length ≤ rest.length + k

/-- A result takes no more bytes than are always enough. -/
theorem Delimited.length_le_of_ok {limit : Nat} (hd : d.Delimited limit) {bytes rest : List UInt8}
    {a : α} (h : d bytes = .ok a rest) : bytes.length ≤ rest.length + limit := by
  obtain ⟨left, hl⟩ | ⟨taken, left, r, rfl, hs⟩ := hd.settles bytes
  · rw [hl] at h
    cases h
  · have hlen := hs.length_le hd
    rw [hs.decides] at h
    cases r with
    | error e => cases h
    | ok a' =>
      cases h
      rw [List.length_append]
      omega

theorem FailsWithin.mono {j k : Nat} (hd : d.FailsWithin j) (hjk : j ≤ k) : d.FailsWithin k :=
  fun bytes e rest h => (hd bytes e rest h).trans (Nat.add_le_add_left hjk _)

theorem failsWithin_pure (a : α) : (pure a : Decoder α).FailsWithin 0 := by
  intro bytes e rest h
  cases h

theorem failsWithin_ofExcept (x : Except DecodeError α) : (ofExcept x).FailsWithin 0 := by
  intro bytes e rest h
  cases x <;> cases h
  exact Nat.le_refl _

theorem failsWithin_byte : byte.FailsWithin 0 := by
  intro bytes e rest h
  cases bytes <;> cases h
  exact Nat.le_refl _

theorem failsWithin_word : word.FailsWithin 0 := by
  intro bytes e rest h
  unfold word at h
  split at h <;> cases h
  exact Nat.le_refl _

/-- A first part that fails has consumed its own bytes only; a second one adds to those that the
first part has taken. -/
theorem FailsWithin.bind {f : α → Decoder β} {j k n l : Nat} (hd : d.FailsWithin j)
    (hn : d.Delimited n) (hf : ∀ a, (f a).FailsWithin k) (hj : j ≤ l) (hk : n + k ≤ l) :
    (d >>= f).FailsWithin l := by
  intro bytes e rest h
  rw [bind_apply] at h
  cases hr : d bytes with
  | error e' left =>
    -- the first part has failed
    have hfirst := hd bytes e' left hr
    rw [hr] at h
    cases h
    omega
  | ok a left =>
    -- the first part has taken what it takes, and the second one has failed behind it
    have hfirst := hn.length_le_of_ok hr
    rw [hr] at h
    have hsecond := hf a left e rest h
    omega

/-- What is made of a value cannot fail any more. -/
theorem FailsWithin.map {k : Nat} (hd : d.FailsWithin k) (f : α → β) :
    (d >>= fun a => pure (f a)).FailsWithin k := by
  intro bytes e rest h
  rw [bind_apply] at h
  cases hr : d bytes with
  | error e' left =>
    rw [hr] at h
    cases h
    exact hd bytes _ _ hr
  | ok a left =>
    rw [hr] at h
    cases h

theorem failsWithin_modRM : modRM.FailsWithin 1 := by
  intro bytes e rest h
  cases bytes with
  | nil =>
    cases h
    exact Nat.zero_le _
  | cons b behind =>
    by_cases hb : ModRM.Unimplemented (ModRM.modeOf b) (ModRM.rmOf b)
    · rw [modRM_of_unimplemented hb] at h
      cases h
      exact Nat.le_refl _
    · simp only [modRM, hb, if_false] at h
      split at h <;> cases h
      exact Nat.le_succ _

theorem failsWithin_immediate (w : Width) : (immediate w).FailsWithin 0 := by
  cases w
  · exact failsWithin_byte.map _
  · exact failsWithin_word.map _

theorem failsWithin_signedImmediate : signedImmediate.FailsWithin 0 :=
  failsWithin_byte.map _

theorem failsWithin_relative (w : Width) : (relative w).FailsWithin 0 := by
  cases w
  · exact failsWithin_byte.map _
  · exact failsWithin_word.map _

theorem failsWithin_grouped (m : ModRM) (op : GroupOp) : (grouped m op).FailsWithin 0 := by
  cases op with
  | arithmetic op => exact failsWithin_signedImmediate.map _
  | move w => exact (failsWithin_immediate w).map _
  | increment => exact failsWithin_pure _

theorem failsWithin_operands (opcode : UInt8) (form : Form) :
    (operands opcode form).FailsWithin 5 := by
  cases form with
  | rmReg op w => exact (failsWithin_modRM.map _).mono (by omega)
  | regRM op w => exact (failsWithin_modRM.map _).mono (by omega)
  | regImm op w code => exact ((failsWithin_immediate w).map _).mono (by omega)
  | reg op code => exact (failsWithin_pure _).mono (by omega)
  | pushImm w =>
    cases w
    · exact (failsWithin_signedImmediate.map _).mono (by omega)
    · exact ((failsWithin_immediate _).map _).mono (by omega)
  | relative op w => exact ((failsWithin_relative w).map _).mono (by omega)
  | vector op => exact ((failsWithin_immediate _).map _).mono (by omega)
  | complete i => exact (failsWithin_pure _).mono (by omega)
  | group =>
    -- an unlisted sub-code, or a constant that is cut off: both behind the whole operand byte
    have hbehind : ∀ m : ModRM, (ofExcept (GroupOp.ofCodes opcode (UInt8.ofNat m.reg.val))
        >>= fun op => grouped m op).FailsWithin 0 := fun m =>
      (failsWithin_ofExcept _).bind (delimited_ofExcept (GroupOp.ofCodes_ne_truncated _ _))
        (fun op => failsWithin_grouped m op) (Nat.le_refl 0) (Nat.le_refl 0)
    exact failsWithin_modRM.bind delimited_modRM hbehind (by omega) (by omega)

theorem failsWithin_instruction : instruction.FailsWithin 6 := by
  have hbehind : ∀ opcode, (ofExcept (Form.ofOpcode opcode) >>= fun form =>
      operands opcode form).FailsWithin 5 := fun opcode =>
    (failsWithin_ofExcept _).bind (delimited_ofExcept (Form.ofOpcode_ne_truncated opcode))
      (fun form => failsWithin_operands opcode form) (by omega) (by omega)
  exact failsWithin_byte.bind delimited_byte hbehind (by omega) (by omega)

/-! ### Decoding at an index -/

theorem length_consumed (d : Decoder α) (bytes : List UInt8) :
    (d.decode bytes).consumed.length = bytes.length - (d.left bytes).length := by
  unfold decode left
  cases d bytes <;> simp

theorem instructionAt_eq (bytes : List UInt8) (start : Nat) :
    instructionAt bytes start = ((instruction.decode (bytes.drop start)).result,
      (bytes.drop start).length - (instruction.left (bytes.drop start)).length) := by
  simp only [instructionAt, Cursor.place, Cursor.next, Cursor.moved, List.nil_append,
    length_consumed]

/-- Bytes are consumed up to the last one at most. -/
theorem instructionAt_le (bytes : List UInt8) (start : Nat) :
    (instructionAt bytes start).2 ≤ bytes.length - start := by
  rw [instructionAt_eq, List.length_drop]
  exact Nat.sub_le _ _

/-- Where there is a byte, one is consumed. -/
theorem one_le_instructionAt {bytes : List UInt8} {start : Nat} (h : start < bytes.length) :
    1 ≤ (instructionAt bytes start).2 := by
  rw [instructionAt_eq, List.drop_eq_getElem_cons h]
  have hprogress := length_left_instruction_lt bytes[start] (bytes.drop (start + 1))
  dsimp only
  omega

/-- **Errors are near.** If there is a byte at the index, an error is found with this byte or within
the five that follow it. -/
theorem error_length {bytes : List UInt8} {start k : Nat} {e : DecodeError}
    (h : instructionAt bytes start = (.error e, k)) (hstart : start < bytes.length) :
    1 ≤ k ∧ k ≤ 6 := by
  have hone := one_le_instructionAt hstart
  rw [h] at hone
  refine ⟨hone, ?_⟩
  rw [instructionAt_eq] at h
  obtain ⟨hresult, rfl⟩ := Prod.mk.inj h
  cases hr : instruction (bytes.drop start) with
  | ok i rest => simp [decode, hr] at hresult
  | error e' rest =>
    have hwithin := failsWithin_instruction _ e' rest hr
    simp only [left, hr]
    omega

/-- An instruction begins with a byte. -/
theorem lt_length_of_instructionAt {bytes : List UInt8} {start n : Nat} {i : Instruction}
    (h : instructionAt bytes start = (.ok i, n)) : start < bytes.length := by
  by_contra hle
  have hnil : bytes.drop start = [] := List.drop_eq_nil_of_le (Nat.not_lt.1 hle)
  rw [instructionAt_eq, hnil] at h
  cases h

/-- An instruction is at least one byte long and at most as long as the longest one, and it lies
inside the bytes. -/
theorem length_of_instructionAt {bytes : List UInt8} {start n : Nat} {i : Instruction}
    (h : instructionAt bytes start = (.ok i, n)) :
    1 ≤ n ∧ n ≤ maxLength ∧ start + n ≤ bytes.length := by
  have hstart := lt_length_of_instructionAt h
  have hone := one_le_instructionAt hstart
  have hle := instructionAt_le bytes start
  rw [h] at hone hle
  refine ⟨hone, ?_, by dsimp only at hle; omega⟩
  -- what is not left has been taken
  rw [instructionAt_eq] at h
  obtain ⟨hresult, rfl⟩ := Prod.mk.inj h
  cases hr : instruction (bytes.drop start) with
  | error e rest => simp [decode, hr] at hresult
  | ok j rest =>
    have hmost := delimited_instruction.length_le_of_ok hr
    simp only [left, hr]
    omega

/-- **Only consumed bytes matter.** What has been decided is decided wherever the same bytes stand
as far as they are consumed. -/
theorem instructionAt_eq_of_take_eq {bytes bytes' : List UInt8} {start : Nat}
    (hne : (instructionAt bytes start).1 ≠ .error .truncated)
    (h : (bytes'.drop start).take (instructionAt bytes start).2
      = (bytes.drop start).take (instructionAt bytes start).2) :
    instructionAt bytes' start = instructionAt bytes start := by
  rw [ne_eq, instructionAt_eq_truncated_iff] at hne
  obtain ⟨taken, rest, r, hb, hs⟩ := (delimited_instruction.settles _).resolve_left hne
  rw [instructionAt_of_settles hb hs] at h ⊢
  -- the other bytes begin with those taken, and these have decided
  have hsplit := List.take_append_drop taken.length (bytes'.drop start)
  rw [h, hb, List.take_left] at hsplit
  exact instructionAt_of_settles hsplit.symm hs

/-- **Bytes at the end do not matter.** What has been decided is not changed by bytes that
follow. -/
theorem instructionAt_append {bytes bytes' tail : List UInt8} {start : Nat}
    (h : bytes'.drop start = bytes.drop start ++ tail)
    (hne : (instructionAt bytes start).1 ≠ .error .truncated) :
    instructionAt bytes' start = instructionAt bytes start := by
  have hle := instructionAt_le bytes start
  rw [← List.length_drop] at hle
  refine instructionAt_eq_of_take_eq hne ?_
  rw [h, List.take_append_of_le_length hle]

/-- An encoding that stands at an index is what is decoded there. -/
theorem instructionAt_of_isPrefix {bytes code : List UInt8} {start : Nat} {i : Instruction}
    (hcode : InstructionSet.Encodes code i) (h : code <+: bytes.drop start) :
    instructionAt bytes start = (.ok i, code.length) := by
  have hshift : instructionAt bytes start = instructionAt (bytes.drop start) 0 :=
    instructionAt_congr rfl
  rw [hshift]
  refine InstructionSet.instructionAt_of_encodes h.length_le ?_
  rwa [← List.prefix_iff_eq_take.1 h]

end Boot386.Decoder
