import Boot386.Checked.Reader
import Boot386.Proofs.Encoding.Delimited

/-!
# Readers never crash

A reader works on a tape, a decoder on the bytes that are left. `Simulates k f r d` says that on
every tape on which `k` more bytes can be counted the reader `r` does what the decoder `d` does
with the rest of the tape: it reads as many bytes, and it ends with the same error or with the
same value as seen through `f`. In particular it does not crash.

Simulation is closed under sequencing (`Simulates.bind`), where the byte counts add up, so it
passes from single bytes to operands and from there to `simulates_instruction`.
-/

namespace Boot386.Checked

variable {α β α' β' : Type}

/-! ### Tapes -/

/-- The bytes that have not been read. -/
def Tape.rest (t : Tape) : List UInt8 :=
  t.data.drop (t.start + t.moved)

/-- The tape after `n` more bytes. -/
def Tape.advance (t : Tape) (n : Nat) : Tape :=
  { t with moved := t.moved + n }

theorem Tape.rest_advance {t : Tape} {taken left : List UInt8} (h : t.rest = taken ++ left) :
    (t.advance taken.length).rest = left := by
  have hd : t.data.drop (t.start + (t.moved + taken.length))
      = (t.data.drop (t.start + t.moved)).drop taken.length := by
    rw [List.drop_drop, Nat.add_assoc]
  rw [Tape.rest] at h
  rw [Tape.rest, Tape.advance, hd, h, List.drop_left]

theorem Tape.advance_advance (t : Tape) (j k : Nat) :
    (t.advance j).advance k = t.advance (j + k) := by
  simp only [Tape.advance, Nat.add_assoc]

/-! ### Simulation -/

/-- What a reader returns that has done the same as a decoder: `taken` is what both took. -/
def mirror (f : α → α') (t : Tape) (taken : List UInt8) (r : Except DecodeError α) :
    EStateM.Result (Stop DecodeError) Tape α' :=
  match r with
  | .ok a => .ok (f a) (t.advance taken.length)
  | .error e => .error (.error e) (t.advance taken.length)

/-- On tapes on which `k` more bytes can be counted, the reader does what the decoder does. -/
def Simulates (k : Nat) (f : α → α') (r : Reader α') (d : Decoder α) : Prop :=
  ∀ t : Tape, t.start + t.moved + k < UInt64.size →
    ∃ taken left result, t.rest = taken ++ left ∧ taken.length ≤ k ∧
      d t.rest = Decoder.outcome result left ∧ r t = mirror f t taken result

theorem Simulates.mono {j k : Nat} {f : α → α'} {r : Reader α'} {d : Decoder α}
    (h : Simulates j f r d) (hjk : j ≤ k) : Simulates k f r d := by
  intro t ht
  obtain ⟨taken, left, result, hrest, hlen, hd, hr⟩ := h t (by omega)
  exact ⟨taken, left, result, hrest, hlen.trans hjk, hd, hr⟩

theorem simulates_pure (f : α → α') (a : α) :
    Simulates 0 f (pure (f a)) (pure a : Decoder α) :=
  fun t _ => ⟨[], t.rest, .ok a, rfl, Nat.le_refl 0, rfl, rfl⟩

theorem simulates_ofExcept (x : Except DecodeError α) :
    Simulates 0 id (Reader.ofExcept x) (Decoder.ofExcept x) := by
  intro t _
  refine ⟨[], t.rest, x, rfl, Nat.le_refl 0, ?_, ?_⟩ <;> cases x <;> rfl

/-- **Sequencing keeps simulation**, and the byte counts add up. -/
theorem Simulates.bind {j k : Nat} {f : α → α'} {g : β → β'} {r : Reader α'} {d : Decoder α}
    {s : α' → Reader β'} {e : α → Decoder β} (h : Simulates j f r d)
    (hs : ∀ a, Simulates k g (s (f a)) (e a)) : Simulates (j + k) g (r >>= s) (d >>= e) := by
  intro t ht
  obtain ⟨taken, left, result, hrest, hlen, hd, hr⟩ := h t (by omega)
  cases result with
  | error x =>
    -- neither goes on
    refine ⟨taken, left, .error x, hrest, hlen.trans (Nat.le_add_right ..), ?_, ?_⟩
    · rw [Decoder.bind_apply, hd]
      rfl
    · rw [Decoder.bind_apply, hr]
      rfl
  | ok a =>
    -- the second parts work on the tape as the first one leaves it
    have hadv := Tape.rest_advance hrest
    have hroom : (t.advance taken.length).start + (t.advance taken.length).moved + k
        < UInt64.size := by
      simp only [Tape.advance]
      omega
    obtain ⟨taken', left', result', hrest', hlen', hd', hr'⟩ := hs a _ hroom
    rw [hadv] at hrest' hd'
    have hlength : taken.length + taken'.length = (taken ++ taken').length :=
      List.length_append.symm
    refine ⟨taken ++ taken', left', result', ?_, ?_, ?_, ?_⟩
    · rw [hrest, hrest', List.append_assoc]
    · rw [← hlength]
      exact Nat.add_le_add hlen hlen'
    · rw [Decoder.bind_apply, hd]
      exact hd'
    · rw [Decoder.bind_apply, hr]
      refine Eq.trans hr' ?_
      unfold mirror
      rw [Tape.advance_advance, hlength]

/-- Something is made of what both have read. -/
theorem Simulates.map {k : Nat} {r : Reader α} {d : Decoder α} (h : Simulates k id r d)
    (g : α → β) :
    Simulates k id (r >>= fun a => pure (g a)) (d >>= fun a => pure (g a)) :=
  h.bind (k := 0) (g := id) fun a => simulates_pure id (g a)

/-! ### Bytes -/

theorem remaining_apply {t : Tape} (h : t.start + t.moved < UInt64.size) :
    Reader.remaining t = .ok t.rest t := by
  have hsum : (addSize t.start t.moved : Reader Nat) = pure (t.start + t.moved) :=
    addSize_of_lt h
  simp only [Reader.remaining, Decoder.bind_apply, get_apply, hsum]
  rfl

theorem advance_apply {t : Tape} {n : Nat} (h : t.moved + n < UInt64.size) :
    Reader.advance n t = .ok () (t.advance n) := by
  have hsum : (addSize t.moved n : Reader Nat) = pure (t.moved + n) := addSize_of_lt h
  simp only [Reader.advance, Decoder.bind_apply, get_apply, hsum]
  rfl

theorem take_apply {t : Tape} {n : Nat} (h : t.start + t.moved + n < UInt64.size) :
    Reader.take n t
      = if t.rest.length < n then .error (.error .truncated) t
        else .ok (t.rest.take n) (t.advance n) := by
  rw [Reader.take, Decoder.bind_apply, remaining_apply (by omega)]
  by_cases hlt : t.rest.length < n
  · simp only [hlt, if_true]
    rfl
  · -- the bytes that are copied have the length that is asked for
    have hcopy : (copy n (t.rest.take n) : Reader _) = pure (t.rest.take n) :=
      copy_of_length (List.length_take_of_le (Nat.le_of_not_lt hlt))
    simp only [hlt, if_false, hcopy, pure_bind]
    rw [Decoder.bind_apply, advance_apply (by omega)]
    rfl

theorem simulates_byte : Simulates 1 id Reader.byte Decoder.byte := by
  intro t ht
  have htake := take_apply ht
  rw [Reader.byte, Decoder.bind_apply, htake]
  cases hrest : t.rest with
  | nil => exact ⟨[], [], .error .truncated, rfl, Nat.zero_le 1, rfl, rfl⟩
  | cons b rest => exact ⟨[b], rest, .ok b, rfl, Nat.le_refl 1, rfl, rfl⟩

theorem simulates_word : Simulates 4 id Reader.word Decoder.word := by
  intro t ht
  have htake := take_apply ht
  rw [Reader.word, Decoder.bind_apply, htake]
  match hrest : t.rest with
  | b₀ :: b₁ :: b₂ :: b₃ :: rest =>
    exact ⟨[b₀, b₁, b₂, b₃], rest, .ok (Word.ofBytes b₀ b₁ b₂ b₃), rfl, Nat.le_refl 4, rfl, rfl⟩
  | [] => exact ⟨[], [], .error .truncated, rfl, Nat.zero_le 4, rfl, rfl⟩
  | [b₀] => exact ⟨[], [b₀], .error .truncated, rfl, Nat.zero_le 4, rfl, rfl⟩
  | [b₀, b₁] => exact ⟨[], [b₀, b₁], .error .truncated, rfl, Nat.zero_le 4, rfl, rfl⟩
  | [b₀, b₁, b₂] => exact ⟨[], [b₀, b₁, b₂], .error .truncated, rfl, Nat.zero_le 4, rfl, rfl⟩

/-! ### Operands -/

/-- The fields of an operand byte, where they are known to be short. -/
def Fields.ofModRM (m : ModRM) : Fields :=
  ⟨UInt8.ofNat m.mode.val, UInt8.ofNat m.reg.val, UInt8.ofNat m.rm.val, m.displacement⟩

/-- The fields are cut out of the operand byte. -/
theorem cut_operandByte (b : UInt8) :
    (b >>> 6) &&& 3 = UInt8.ofNat (ModRM.modeOf b).val ∧
      (b >>> 3) &&& 7 = UInt8.ofNat (ModRM.regOf b).val ∧
      b &&& 7 = UInt8.ofNat (ModRM.rmOf b).val := by
  refine Word.forall_byte (P := fun b => (b >>> 6) &&& 3 = UInt8.ofNat (ModRM.modeOf b).val ∧
    (b >>> 3) &&& 7 = UInt8.ofNat (ModRM.regOf b).val ∧
    b &&& 7 = UInt8.ofNat (ModRM.rmOf b).val) ?_ b
  decide +kernel

theorem unimplemented_ofNat_iff (mode : Fin 4) (rm : Fin 8) :
    Reader.Unimplemented (UInt8.ofNat mode.val) (UInt8.ofNat rm.val)
      ↔ ModRM.Unimplemented mode rm := by
  revert mode rm
  decide

theorem displacementLength_ofNat (mode : Fin 4) :
    (if UInt8.ofNat mode.val = 1 then 1 else if UInt8.ofNat mode.val = 2 then 4 else 0)
      = ModRM.displacementLength mode := by
  revert mode
  decide

/-- What the reader makes of an operand byte with its displacement. -/
theorem modRM_apply {t : Tape} {b : UInt8} {rest : List UInt8} (hrest : t.rest = b :: rest)
    (h : t.start + t.moved + 5 < UInt64.size) :
    Reader.modRM t
      = if ModRM.Unimplemented (ModRM.modeOf b) (ModRM.rmOf b) then
          .error (.error (.unimplementedAddressing (UInt8.ofNat (ModRM.modeOf b).val)
            (UInt8.ofNat (ModRM.rmOf b).val))) (t.advance 1)
        else if rest.length < ModRM.displacementLength (ModRM.modeOf b) then
          .error (.error .truncated) t
        else
          .ok (Fields.ofModRM ⟨ModRM.modeOf b, ModRM.regOf b, ModRM.rmOf b,
            Word.signed (rest.take (ModRM.displacementLength (ModRM.modeOf b)))⟩)
            (t.advance (1 + ModRM.displacementLength (ModRM.modeOf b))) := by
  have hlen := ModRM.displacementLength_le (ModRM.modeOf b)
  obtain ⟨hmode, hreg, hrm⟩ := cut_operandByte b
  -- in terms of short fields both sides ask the same questions in the same order
  rw [Reader.modRM, Decoder.bind_apply, remaining_apply (by omega), hrest]
  simp only [hmode, hreg, hrm, unimplemented_ofNat_iff, displacementLength_ofNat]
  split
  · rw [Decoder.bind_apply, advance_apply (by omega)]
    rfl
  · have hsum : (addSize 1 (ModRM.displacementLength (ModRM.modeOf b)) : Reader Nat)
        = pure (1 + ModRM.displacementLength (ModRM.modeOf b)) := addSize_of_lt (by omega)
    have hlt : rest.length + 1 < 1 + ModRM.displacementLength (ModRM.modeOf b)
        ↔ rest.length < ModRM.displacementLength (ModRM.modeOf b) := by omega
    simp only [hsum, pure_bind, List.length_cons, hlt]
    split
    · rfl
    · rw [Decoder.bind_apply, advance_apply (by omega), Nat.add_comm 1, List.take_succ_cons]
      rfl

theorem simulates_modRM : Simulates 5 Fields.ofModRM Reader.modRM Decoder.modRM := by
  intro t ht
  cases hrest : t.rest with
  | nil =>
    refine ⟨[], [], .error .truncated, rfl, Nat.zero_le 5, rfl, ?_⟩
    rw [Reader.modRM, Decoder.bind_apply, remaining_apply (by omega), hrest]
    rfl
  | cons b rest =>
    rw [modRM_apply hrest ht]
    by_cases hun : ModRM.Unimplemented (ModRM.modeOf b) (ModRM.rmOf b)
    · refine ⟨[b], rest, .error _, rfl, Nat.le_add_left 1 4,
        Decoder.modRM_of_unimplemented hun rest, ?_⟩
      rw [if_pos hun]
      rfl
    rw [if_neg hun]
    by_cases hshort : rest.length < ModRM.displacementLength (ModRM.modeOf b)
    · refine ⟨[], b :: rest, .error .truncated, rfl, Nat.zero_le 5,
        Decoder.modRM_of_short hun hshort, ?_⟩
      rw [if_pos hshort]
      rfl
    rw [if_neg hshort]
    -- the displacement is complete
    have hlen := ModRM.displacementLength_le (ModRM.modeOf b)
    have htake := List.length_take_of_le (Nat.le_of_not_lt hshort)
    have hd := Decoder.modRM_append hun htake
      (rest.drop (ModRM.displacementLength (ModRM.modeOf b)))
    rw [List.take_append_drop] at hd
    refine ⟨b :: rest.take (ModRM.displacementLength (ModRM.modeOf b)), _, .ok _, ?_, ?_, hd, ?_⟩
    · rw [List.cons_append, List.take_append_drop]
    · rw [List.length_cons, htake]
      omega
    · rw [mirror, List.length_cons, htake, Nat.add_comm 1]

/-- A code of three bits names a register. -/
theorem register_ofNat (w : Width) (code : Fin 8) :
    Reader.register w (UInt8.ofNat code.val) = pure (.ofCode w code) := by
  match w, code with
  | .byte, 0 | .byte, 1 | .byte, 2 | .byte, 3 | .byte, 4 | .byte, 5 | .byte, 6 | .byte, 7 => rfl
  | .dword, 0 | .dword, 1 | .dword, 2 | .dword, 3 | .dword, 4 | .dword, 5 | .dword, 6
  | .dword, 7 => rfl

theorem rmOperand_ofModRM (m : ModRM) (w : Width) :
    Reader.rmOperand (.ofModRM m) w = pure (m.rmOperand w) := by
  have hmode : (Fields.ofModRM m).mode = 3 ↔ m.mode.val = 3 := by
    have hall : ∀ mode : Fin 4, UInt8.ofNat mode.val = 3 ↔ mode.val = 3 := by decide
    exact hall m.mode
  have hbase : (element Reg.all (UInt8.ofNat m.rm.val).toNat : Reader Reg)
      = pure (Reg.ofCode m.rm) := by
    match m.rm with
    | 0 | 1 | 2 | 3 | 4 | 5 | 6 | 7 => rfl
  simp only [Reader.rmOperand, ModRM.rmOperand, hmode]
  split
  · exact register_ofNat w m.rm
  · simp only [Fields.ofModRM, hbase, pure_bind]

theorem regOperand_ofModRM (m : ModRM) (w : Width) :
    Reader.regOperand (.ofModRM m) w = pure (m.regOperand w) :=
  register_ofNat w m.reg

theorem embedded_eq (w : Width) (opcode : UInt8) :
    Reader.embedded w opcode = pure (.ofCode w (lowCode opcode.toNat)) := by
  rw [Reader.embedded, (cut_operandByte opcode).2.2]
  exact register_ofNat w _

theorem simulates_immediate (w : Width) :
    Simulates 4 id (Reader.immediate w) (Decoder.immediate w) := by
  cases w with
  | byte => exact (simulates_byte.map _).mono (by omega)
  | dword => exact simulates_word.map _

theorem simulates_signedImmediate :
    Simulates 4 id Reader.signedImmediate Decoder.signedImmediate :=
  (simulates_byte.map _).mono (by omega)

theorem simulates_relative (w : Width) :
    Simulates 4 id (Reader.relative w) (Decoder.relative w) := by
  cases w with
  | byte => exact (simulates_byte.map _).mono (by omega)
  | dword => exact simulates_word.map _

/-! ### Instructions -/

theorem simulates_grouped (m : ModRM) (op : GroupOp) :
    Simulates 4 id (Reader.grouped (.ofModRM m) op) (Decoder.grouped m op) := by
  cases op with
  | arithmetic op =>
    simp only [Reader.grouped, rmOperand_ofModRM, pure_bind]
    exact simulates_signedImmediate.map _
  | move w =>
    simp only [Reader.grouped, rmOperand_ofModRM, pure_bind]
    exact (simulates_immediate w).map _
  | increment =>
    simp only [Reader.grouped, rmOperand_ofModRM, pure_bind]
    exact (simulates_pure id _).mono (by omega)

/-- In the families of leading bytes the register of the form is the one in the low bits. -/
theorem code_of_ofOpcode? {opcode : UInt8} {form : Form} (h : Form.ofOpcode? opcode = some form) :
    (∀ op w code, form = .regImm op w code → op ≠ .cmp → code = lowCode opcode.toNat) ∧
      ∀ op code, form = .reg op code → code = lowCode opcode.toNat := by
  unfold Form.ofOpcode? at h
  refine ⟨?_, ?_⟩
  · rintro op w code rfl hop
    split at h <;> try split at h
    all_goals simp_all
  · rintro op code rfl
    split at h <;> try split at h
    all_goals simp_all

theorem simulates_operands {opcode : UInt8} {form : Form}
    (h : Form.ofOpcode? opcode = some form) :
    Simulates 9 id (Reader.operands opcode form) (Decoder.operands opcode form) := by
  obtain ⟨hregImm, hreg⟩ := code_of_ofOpcode? h
  cases form with
  | rmReg op w =>
    refine (simulates_modRM.bind fun m => ?_).mono (show 5 + 0 ≤ 9 by omega)
    simp only [rmOperand_ofModRM, regOperand_ofModRM, pure_bind]
    exact simulates_pure id _
  | regRM op w =>
    refine (simulates_modRM.bind fun m => ?_).mono (show 5 + 0 ≤ 9 by omega)
    simp only [rmOperand_ofModRM, regOperand_ofModRM, pure_bind]
    exact simulates_pure id _
  | regImm op w code =>
    have himm := ((simulates_immediate w).map fun v =>
      (⟨op, w, .ofCode w code, v⟩ : Instruction)).mono (show 4 ≤ 9 by omega)
    by_cases hop : op = .cmp
    · subst hop
      exact himm
    · -- the register is looked up under the low bits of the leading byte
      rw [hregImm op w code rfl hop] at himm ⊢
      have hread : Reader.operands opcode (.regImm op w (lowCode opcode.toNat))
          = Reader.immediate w >>= fun v =>
              pure ⟨op, w, .ofCode w (lowCode opcode.toNat), v⟩ := by
        simp only [Reader.operands, embedded_eq, pure_bind]
      rw [hread]
      exact himm
  | reg op code =>
    simp only [Reader.operands, embedded_eq, pure_bind, hreg op code rfl]
    exact (simulates_pure id _).mono (Nat.zero_le 9)
  | pushImm w =>
    cases w with
    | byte => exact (simulates_signedImmediate.map _).mono (by omega)
    | dword => exact ((simulates_immediate .dword).map _).mono (by omega)
  | relative op w => exact ((simulates_relative w).map _).mono (by omega)
  | vector op => exact ((simulates_immediate .byte).map _).mono (by omega)
  | complete i => exact (simulates_pure id i).mono (Nat.zero_le 9)
  | group =>
    refine simulates_modRM.bind (k := 4) (g := id) fun m => ?_
    exact ((simulates_ofExcept _).bind fun op => simulates_grouped m op)

/-- The table of forms has an entry for every leading byte. -/
theorem dispatch_apply (opcode : UInt8) :
    (element dispatch opcode.toNat : Reader (Option Form)) = pure (Form.ofOpcode? opcode) := by
  refine element_of_getElem? ?_
  rw [dispatch, List.getElem?_map, List.getElem?_range opcode.toNat_lt, Option.map_some,
    UInt8.ofNat_toNat]

/-- **Readers never crash.** Reading an instruction does what decoding one does. -/
theorem simulates_instruction :
    Simulates Decoder.maxLength id Reader.instruction Decoder.instruction := by
  refine simulates_byte.bind (k := 9) (g := id) fun opcode => ?_
  simp only [id, dispatch_apply, pure_bind, Form.ofOpcode]
  cases hform : Form.ofOpcode? opcode with
  | none =>
    have hfail : Simulates 0 id (Reader.ofExcept (.error (.unknownOpcode opcode)))
        (Decoder.ofExcept (.error (.unknownOpcode opcode)) : Decoder Instruction) :=
      simulates_ofExcept _
    exact hfail.mono (Nat.zero_le 9)
  | some form => exact simulates_operands hform

/-- What a reader makes of the instruction at an address is what the decoder makes of the bytes
there, of which the first ten are enough. -/
theorem instruction_apply (data : List UInt8) {start : Nat} (h : start < UInt32.size)
    {decoded : Decoded Instruction}
    (hd : Decoder.instruction.decode ((data.drop start).take Decoder.maxLength) = decoded) :
    decoded.consumed = (data.drop start).take decoded.consumed.length ∧
      decoded.consumed.length ≤ Decoder.maxLength ∧
      Reader.instruction ⟨data, start, 0⟩
        = match decoded.result with
          | .ok i => .ok i ⟨data, start, decoded.consumed.length⟩
          | .error e => .error (.error e) ⟨data, start, decoded.consumed.length⟩ := by
  have hroom : start + 0 + Decoder.maxLength < UInt64.size := by
    unfold Decoder.maxLength UInt64.size
    unfold UInt32.size at h
    omega
  obtain ⟨taken, left, result, hrest, hlen, hdec, hread⟩ :=
    simulates_instruction ⟨data, start, 0⟩ hroom
  have hbytes : data.drop start = taken ++ left := hrest
  rw [hrest] at hdec
  -- the decoder is given ten bytes only, which makes no difference
  obtain ⟨hresult, hconsumed⟩ := Decoder.decode_take (data.drop start)
  rw [hd, hbytes, Decoder.decode_append hdec] at hresult hconsumed
  have hadv : Tape.advance ⟨data, start, 0⟩ taken.length = ⟨data, start, taken.length⟩ := by
    simp only [Tape.advance, Nat.zero_add]
  rw [hconsumed, hresult, hbytes, List.take_left, hread]
  refine ⟨rfl, hlen, ?_⟩
  cases result <;> simp only [mirror, hadv, id]

end Boot386.Checked
