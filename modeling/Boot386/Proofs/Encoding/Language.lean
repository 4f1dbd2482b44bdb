import Boot386.Encoding.InstructionSet
import Boot386.Proofs.Encoding.Delimited

/-!
# The language of the decoder

The decoder accepts exactly the encodings of the instruction set, and on all other bytes it
reports the first obstacle. The two sides are joined row by row:

* `Row.LaidOut` compares a row with the form that the decoder uses for its leading byte, and
  `laidOut_of_mem_rowsOf` checks the comparison over all leading bytes;
* `Takes` describes decoders that read a constant: they take a fixed number of bytes;
* `instruction_bytes_append` reads an encoding back, whatever follows it;
* `classified` says that bytes without an obstacle begin with an encoding, and that an obstacle
  is reported.

The last two leave no third outcome, which settles both directions.
-/

namespace Boot386.Decoder

variable {α β : Type}

/-! ### Decoders of constants -/

/-- The decoder takes `k` bytes, whatever they are, and makes of them what `g` says. -/
structure Takes (k : Nat) (d : Decoder α) (g : List UInt8 → α) : Prop where
  ok : ∀ bytes tail, bytes.length = k → d (bytes ++ tail) = .ok (g bytes) tail
  short : ∀ bytes, bytes.length < k → d.RunsShort bytes

theorem takes_pure (a : α) : Takes 0 (pure a : Decoder α) fun _ => a where
  ok bytes tail h := by
    obtain rfl := List.length_eq_zero_iff.1 h
    rfl
  short bytes h := absurd h (Nat.not_lt_zero _)

theorem takes_byte : Takes 1 byte fun bytes => bytes.getD 0 0 where
  ok bytes tail h := by
    obtain ⟨b, rfl⟩ := List.length_eq_one_iff.1 h
    rfl
  short bytes h := by
    obtain rfl := List.length_eq_zero_iff.1 (Nat.lt_one_iff.1 h)
    exact runsShort_byte_nil

theorem takes_word : Takes 4 word Word.unsigned where
  ok bytes tail h := by
    match bytes, h with
    | [b₀, b₁, b₂, b₃], _ => rfl
  short bytes h := runsShort_word h

/-- A constant is turned into something else once it is read. -/
theorem Takes.map {k : Nat} {d : Decoder α} {g : List UInt8 → α} (h : Takes k d g) (f : α → β)
    {g' : List UInt8 → β} (hg : ∀ bytes, bytes.length = k → f (g bytes) = g' bytes) :
    Takes k (d >>= fun a => pure (f a)) g' where
  ok bytes tail hb := by
    rw [bind_apply, h.ok bytes tail hb, ← hg bytes hb]
    rfl
  short bytes hb := (h.short bytes hb).bind _

/-- The constant slot of a width: a byte or a word. -/
def immediateSlot : Width → InstructionSet.Slot
  | .byte => .imm8
  | .dword => .imm32

/-- The code address slot of a width: a byte or a word. -/
def relativeSlot : Width → InstructionSet.Slot
  | .byte => .rel8
  | .dword => .rel32

theorem takes_immediate (w : Width) :
    Takes (immediateSlot w).constantLength (immediate w)
      fun bytes => .imm (Word.unsigned bytes) := by
  cases w with
  | byte =>
    refine takes_byte.map _ fun bytes h => ?_
    obtain ⟨b, rfl⟩ := List.length_eq_one_iff.1 h
    rw [Word.unsigned_singleton]
    rfl
  | dword => exact takes_word.map _ fun bytes _ => rfl

theorem takes_signedImmediate :
    Takes 1 signedImmediate fun bytes => .imm (Word.ofSigned (Word.signed bytes)) := by
  refine takes_byte.map _ fun bytes h => ?_
  obtain ⟨b, rfl⟩ := List.length_eq_one_iff.1 h
  rfl

theorem takes_relative (w : Width) :
    Takes (relativeSlot w).constantLength (relative w) fun bytes => .rel (Word.signed bytes) := by
  cases w with
  | byte =>
    refine takes_byte.map _ fun bytes h => ?_
    obtain ⟨b, rfl⟩ := List.length_eq_one_iff.1 h
    rfl
  | dword =>
    refine takes_word.map _ fun bytes h => ?_
    match bytes, h with
    | [b₀, b₁, b₂, b₃], _ => rfl

end Boot386.Decoder

namespace Boot386.InstructionSet

open Decoder

/-! ### Rows and forms -/

/-- The row of a shared leading byte is laid out as a group operation says. -/
def Row.LaidOutShared (row : Row) : GroupOp → Prop
  | .arithmetic op => row = ⟨row.lead, op, .dword, .rm, .imm8Signed⟩
  | .move w => row = ⟨row.lead, .mov, w, .rm, immediateSlot w⟩
  | .increment => row = ⟨row.lead, .inc, .dword, .rm, .absent⟩

instance (row : Row) : DecidablePred row.LaidOutShared
  | .arithmetic _ => inferInstanceAs (Decidable (_ = _))
  | .move _ => inferInstanceAs (Decidable (_ = _))
  | .increment => inferInstanceAs (Decidable (_ = _))

/-- The group operation of a row of a shared leading byte. -/
def Row.groupOp? (row : Row) (opcode : UInt8) : Option GroupOp :=
  match row.lead with
  | .shared _ sub => GroupOp.ofCodes? opcode (UInt8.ofNat sub)
  | _ => none

/-- The row is laid out as a form says, where `opcode` is the leading byte. -/
def Row.LaidOut (row : Row) (opcode : UInt8) : Form → Prop
  | .rmReg op w => row = ⟨row.lead, op, w, .rm, .reg⟩
  | .regRM op w => row = ⟨row.lead, op, w, .reg, .rm⟩
  | .regImm op w code =>
    row = ⟨row.lead, op, w, .fixed (.ofCode w code), immediateSlot w⟩ ∨
      code = lowCode opcode.toNat ∧ row = ⟨row.lead, op, w, .code, immediateSlot w⟩
  | .reg op code =>
    code = lowCode opcode.toNat ∧ row = ⟨row.lead, op, .dword, .code, .absent⟩
  | .pushImm .byte => row = ⟨row.lead, .push, .dword, .imm8Signed, .absent⟩
  | .pushImm .dword => row = ⟨row.lead, .push, .dword, .imm32, .absent⟩
  | .relative op w => row = ⟨row.lead, op, .byte, relativeSlot w, .absent⟩
  | .vector op => row = ⟨row.lead, op, .byte, .imm8, .absent⟩
  | .complete i => row = ⟨row.lead, i.op, i.width, .fixed i.left, .fixed i.right⟩
  | .group => ∃ op ∈ row.groupOp? opcode, row.LaidOutShared op

instance (row : Row) (opcode : UInt8) : DecidablePred (row.LaidOut opcode)
  | .rmReg .. => inferInstanceAs (Decidable (_ = _))
  | .regRM .. => inferInstanceAs (Decidable (_ = _))
  | .regImm .. => inferInstanceAs (Decidable (_ ∨ _ ∧ _))
  | .reg .. => inferInstanceAs (Decidable (_ ∧ _))
  | .pushImm .byte => inferInstanceAs (Decidable (_ = _))
  | .pushImm .dword => inferInstanceAs (Decidable (_ = _))
  | .relative .. => inferInstanceAs (Decidable (_ = _))
  | .vector _ => inferInstanceAs (Decidable (_ = _))
  | .complete _ => inferInstanceAs (Decidable (_ = _))
  | .group => inferInstanceAs (Decidable (∃ op ∈ row.groupOp? opcode, row.LaidOutShared op))

/-- The two tables list the same leading bytes. -/
theorem rowsOf_eq_nil_iff (opcode : UInt8) :
    rowsOf opcode = [] ↔ Form.ofOpcode? opcode = none := by
  refine Word.forall_byte (P := fun b => rowsOf b = [] ↔ Form.ofOpcode? b = none) ?_ opcode
  decide +kernel

/-- **The two tables agree.** Every row that covers a leading byte is laid out as the form of
that byte says. -/
theorem laidOut_of_mem_rowsOf {opcode : UInt8} {form : Form}
    (h : Form.ofOpcode? opcode = some form) {row : Row} (hr : row ∈ rowsOf opcode) :
    row.LaidOut opcode form := by
  -- the quantifiers range over an option and a list, so that 256 checks are enough
  have hall : ∀ form ∈ Form.ofOpcode? opcode, ∀ row ∈ rowsOf opcode, row.LaidOut opcode form := by
    refine Word.forall_byte (P := fun b => ∀ form ∈ Form.ofOpcode? b, ∀ row ∈ rowsOf b,
      row.LaidOut b form) ?_ opcode
    decide +kernel
  exact hall form h row hr

/-- No row of a leading byte has the right sub-code exactly if the byte is shared and the
sub-code is not listed. -/
theorem filter_admits_eq_nil_iff {opcode : UInt8} {form : Form}
    (h : Form.ofOpcode? opcode = some form) (sub : Fin 8) :
    (rowsOf opcode).filter (·.lead.admits sub) = []
      ↔ form = .group ∧ GroupOp.ofCodes? opcode (UInt8.ofNat sub.val) = none := by
  have hall : ∀ form ∈ Form.ofOpcode? opcode, ∀ sub : Fin 8,
      (rowsOf opcode).filter (·.lead.admits sub) = []
        ↔ form = .group ∧ GroupOp.ofCodes? opcode (UInt8.ofNat sub.val) = none := by
    refine Word.forall_byte (P := fun b => ∀ form ∈ Form.ofOpcode? b, ∀ sub : Fin 8,
      (rowsOf b).filter (·.lead.admits sub) = []
        ↔ form = .group ∧ GroupOp.ofCodes? b (UInt8.ofNat sub.val) = none) ?_ opcode
    decide +kernel
  exact hall form h sub

/-! ### Reading the operands of a row -/

/-- The operand byte and the displacement of some parts, as they are decoded. -/
def Parts.modRM (p : Parts) : ModRM :=
  ⟨ModRM.modeOf p.operandByte, ModRM.regOf p.operandByte, ModRM.rmOf p.operandByte,
    Word.signed p.displacement⟩

/-- Whether a form reads an operand byte. -/
def hasOperandByte : Form → Bool
  | .rmReg .. => true
  | .regRM .. => true
  | .group => true
  | _ => false

theorem hasOperandByte_of_laidOutShared {row : Row} {op : GroupOp} (h : row.LaidOutShared op) :
    row.hasOperandByte = true := by
  cases op <;> (rw [h]; rfl)

/-- A row has an operand byte exactly if its form reads one. -/
theorem hasOperandByte_of_laidOut {row : Row} {opcode : UInt8} {form : Form}
    (h : row.LaidOut opcode form) : row.hasOperandByte = hasOperandByte form := by
  cases form with
  | regImm op w code =>
    -- the register is either fixed by the row or named by the leading byte
    obtain h | ⟨-, h⟩ := h <;> rw [h] <;> cases w <;> rfl
  | reg op code => rw [h.2]; rfl
  | pushImm w => cases w <;> (rw [h]; rfl)
  | relative op w => rw [h]; cases w <;> rfl
  | group =>
    obtain ⟨op, -, hop⟩ := h
    exact hasOperandByte_of_laidOutShared hop
  | _ => rw [h]; rfl

/-- The operands of a row without an operand byte are read as its instruction. -/
theorem takes_operands {row : Row} {opcode : UInt8} {form : Form} (h : row.LaidOut opcode form)
    (hn : hasOperandByte form = false) {p : Parts} (hp : p.opcode = opcode) :
    Takes row.constantLength (operands opcode form)
      fun bytes => row.instruction { p with constant := bytes } := by
  subst hp
  cases form with
  | rmReg op w => cases hn
  | regRM op w => cases hn
  | group => cases hn
  | regImm op w code =>
    have hlen : row.constantLength = (immediateSlot w).constantLength := by
      obtain h | ⟨-, h⟩ := h <;> (rw [h]; exact Nat.zero_add _)
    rw [hlen]
    refine (takes_immediate w).map _ fun bytes _ => ?_
    obtain h | ⟨rfl, h⟩ := h <;> rw [h] <;> cases w <;> rfl
  | reg op code =>
    obtain ⟨rfl, h⟩ := h
    rw [h]
    exact takes_pure _
  | pushImm w =>
    cases w with
    | byte => rw [h]; exact takes_signedImmediate.map _ fun bytes _ => rfl
    | dword => rw [h]; exact (takes_immediate .dword).map _ fun bytes _ => rfl
  | relative op w =>
    rw [h]
    refine (takes_relative w).map _ fun bytes _ => ?_
    cases w <;> rfl
  | vector op => rw [h]; exact (takes_immediate .byte).map _ fun bytes _ => rfl
  | complete i => rw [h]; exact takes_pure _

/-- What is read behind the operand byte and its displacement. -/
def behindOperandByte (opcode : UInt8) (form : Form) (m : ModRM) : Decoder Instruction :=
  match form with
  | .rmReg op w => pure ⟨op, w, m.rmOperand w, m.regOperand w⟩
  | .regRM op w => pure ⟨op, w, m.regOperand w, m.rmOperand w⟩
  | _ => do
    let op ← Decoder.ofExcept (GroupOp.ofCodes opcode (UInt8.ofNat m.reg.val))
    grouped m op

theorem operands_eq_bind {opcode : UInt8} {form : Form} (h : hasOperandByte form = true) :
    operands opcode form = modRM >>= behindOperandByte opcode form := by
  cases form <;> first | rfl | cases h

theorem takes_grouped {row : Row} {op : GroupOp} (h : row.LaidOutShared op) (p : Parts) :
    Takes row.constantLength (grouped p.modRM op)
      fun bytes => row.instruction { p with constant := bytes } := by
  cases op with
  | arithmetic op => rw [h]; exact takes_signedImmediate.map _ fun bytes _ => rfl
  | move w =>
    have hlen : row.constantLength = (immediateSlot w).constantLength := by
      rw [h]
      exact Nat.zero_add _
    rw [hlen, h]
    refine (takes_immediate w).map _ fun bytes _ => ?_
    cases w <;> rfl
  | increment => rw [h]; exact takes_pure _

/-- Behind the operand byte a row is read as its instruction. -/
theorem takes_behindOperandByte {row : Row} {opcode : UInt8} {form : Form}
    (h : row.LaidOut opcode form) (hb : hasOperandByte form = true) {p : Parts}
    (hs : row.lead.admits p.modRM.reg) :
    Takes row.constantLength (behindOperandByte opcode form p.modRM)
      fun bytes => row.instruction { p with constant := bytes } := by
  cases form with
  | rmReg op w => rw [h]; exact takes_pure _
  | regRM op w => rw [h]; exact takes_pure _
  | group =>
    obtain ⟨op, hop, hlaid⟩ := h
    -- the sub-code in the operand byte is that of the row
    have hcodes : GroupOp.ofCodes opcode (UInt8.ofNat p.modRM.reg.val) = .ok op := by
      unfold Row.groupOp? at hop
      split at hop
      · next o sub hlead =>
        rw [hlead] at hs
        rw [show p.modRM.reg.val = sub from eq_of_beq hs, GroupOp.ofCodes, hop]
      · cases hop
    have hread : behindOperandByte opcode .group p.modRM = grouped p.modRM op := by
      funext bytes
      simp only [behindOperandByte, hcodes, bind_apply]
      rfl
    rw [hread]
    exact takes_grouped hlaid p
  | _ => cases hb

/-! ### Encodings are read back -/

theorem instruction_of_form {opcode : UInt8} {form : Form}
    (h : Form.ofOpcode? opcode = some form) (rest : List UInt8) :
    Decoder.instruction (opcode :: rest) = operands opcode form rest := by
  have hok : Form.ofOpcode opcode = .ok form := by rw [Form.ofOpcode, h]
  simp only [Decoder.instruction, bind_apply, byte, Decoder.ofExcept, hok]

theorem exists_form_of_admits {row : Row} {p : Parts} (h : row ∈ table) (hp : row.Admits p) :
    ∃ form, Form.ofOpcode? p.opcode = some form ∧ row.LaidOut p.opcode form := by
  have hmem : row ∈ rowsOf p.opcode := List.mem_filter.2 ⟨h, hp.covers⟩
  cases hform : Form.ofOpcode? p.opcode with
  | none =>
    rw [(rowsOf_eq_nil_iff p.opcode).2 hform] at hmem
    cases hmem
  | some form => exact ⟨form, rfl, laidOut_of_mem_rowsOf hform hmem⟩

/-- **Encodings are read back.** An encoding of a row decodes to the instruction of the row,
whatever follows it. -/
theorem instruction_bytes_append {row : Row} {p : Parts} (h : row ∈ table) (hp : row.Admits p)
    (tail : List UInt8) :
    Decoder.instruction (row.bytes p ++ tail) = .ok (row.instruction p) tail := by
  obtain ⟨form, hform, hlaid⟩ := exists_form_of_admits h hp
  have hbyte := hasOperandByte_of_laidOut hlaid
  rw [Row.bytes, List.cons_append, instruction_of_form hform, List.append_assoc]
  cases hb : hasOperandByte form with
  | false =>
    -- only the constant stands behind the leading byte
    rw [hb] at hbyte
    rw [hbyte, if_neg Bool.false_ne_true, List.nil_append]
    exact (takes_operands hlaid hb rfl).ok p.constant tail hp.constant
  | true =>
    -- the operand byte takes its displacement with it, and leaves the constant
    rw [hb] at hbyte
    rw [hbyte, if_pos rfl, operands_eq_bind hb, bind_apply, List.cons_append,
      modRM_append (hp.implemented hbyte) (hp.displacement hbyte)]
    exact (takes_behindOperandByte hlaid hb hp.admits).ok p.constant tail hp.constant

/-! ### Obstacles are reported -/

theorem rowsOf_ne_nil {opcode : UInt8} {form : Form} (h : Form.ofOpcode? opcode = some form) :
    rowsOf opcode ≠ [] := by
  rw [ne_eq, rowsOf_eq_nil_iff, h]
  simp

/-- All rows of a leading byte agree on whether there is an operand byte. -/
theorem any_hasOperandByte_rowsOf {opcode : UInt8} {form : Form}
    (h : Form.ofOpcode? opcode = some form) :
    (rowsOf opcode).any (·.hasOperandByte) = hasOperandByte form := by
  have hall : ∀ row ∈ rowsOf opcode, row.hasOperandByte = hasOperandByte form :=
    fun row hr => hasOperandByte_of_laidOut (laidOut_of_mem_rowsOf h hr)
  obtain ⟨row, hr⟩ := List.exists_mem_of_ne_nil _ (rowsOf_ne_nil h)
  -- there is a row, and all rows say what the form says
  rw [Bool.eq_iff_iff, List.any_eq_true]
  exact ⟨fun ⟨r, hr, hb⟩ => hall r hr ▸ hb, fun hb => ⟨row, hr, (hall row hr).trans hb⟩⟩

theorem chosen_ne_nil {opcode : UInt8} {form : Form} (h : Form.ofOpcode? opcode = some form)
    (operandByte : UInt8) (hg : form ≠ .group) : chosen opcode operandByte ≠ [] := by
  rw [ne_eq, chosen, filter_admits_eq_nil_iff h]
  exact fun hc => hg hc.1

/-- A chosen row is a row of the table that covers the leading byte and has the sub-code. -/
theorem mem_chosen {opcode operandByte : UInt8} {row : Row} :
    row ∈ chosen opcode operandByte
      ↔ (row ∈ table ∧ row.lead.covers opcode) ∧ row.lead.admits (ModRM.regOf operandByte) := by
  rw [chosen, rowsOf, List.mem_filter, List.mem_filter]

theorem obstacle?_of_no_form {opcode : UInt8} (h : Form.ofOpcode? opcode = none)
    (rest : List UInt8) : obstacle? (opcode :: rest) = some (.unknownOpcode opcode) := by
  simp [obstacle?, (rowsOf_eq_nil_iff opcode).2 h]

theorem obstacle?_of_no_operandByte {opcode : UInt8} {form : Form}
    (h : Form.ofOpcode? opcode = some form) (hb : hasOperandByte form = false)
    (rest : List UInt8) :
    obstacle? (opcode :: rest)
      = if (chosen opcode (rest.getD 0 0)).any (rest.length < ·.constantLength) then
          some .truncated
        else none := by
  have hchosen := chosen_ne_nil h (rest.getD 0 0) fun hgroup => by
    rw [hgroup] at hb
    cases hb
  have hlt : ∀ k n : Nat, k + 1 < 1 + n ↔ k < n := by omega
  simp only [obstacle?, List.getD_cons_zero, List.getD_cons_succ, List.length_cons,
    reduceCtorEq, rowsOf_ne_nil h, any_hasOperandByte_rowsOf h, hb, hchosen, Bool.false_eq_true,
    false_and, if_false, hlt]

theorem obstacle?_of_operandByte {opcode b : UInt8} {form : Form}
    (h : Form.ofOpcode? opcode = some form) (hb : hasOperandByte form = true)
    (rest : List UInt8) :
    obstacle? (opcode :: b :: rest)
      = if ModRM.Unimplemented (ModRM.modeOf b) (ModRM.rmOf b) then
          some (.unimplementedAddressing (UInt8.ofNat (ModRM.modeOf b).val)
            (UInt8.ofNat (ModRM.rmOf b).val))
        else if rest.length < ModRM.displacementLength (ModRM.modeOf b) then some .truncated
        else if chosen opcode b = [] then
          some (.unknownSubOpcode opcode (UInt8.ofNat (ModRM.regOf b).val))
        else if (chosen opcode b).any
            (rest.length < ModRM.displacementLength (ModRM.modeOf b) + ·.constantLength) then
          some .truncated
        else none := by
  have hlt : ∀ k n : Nat, k + 1 + 1 < 2 + n ↔ k < n := by omega
  have hlt' : ∀ k n m : Nat, k + 1 + 1 < 2 + n + m ↔ k < n + m := by omega
  have htwo : ¬ rest.length + 1 + 1 < 2 := by omega
  simp only [obstacle?, List.getD_cons_zero, List.getD_cons_succ, List.length_cons,
    reduceCtorEq, rowsOf_ne_nil h, any_hasOperandByte_rowsOf h, hb, true_and, if_false, if_true,
    htwo, hlt, hlt']

/-- Unless a constant is cut off there is a row whose constant is complete. -/
theorem exists_constantLength_le {rows : List Row} (hne : rows ≠ []) {k : Nat}
    (h : ¬ rows.any (k < ·.constantLength)) : ∃ row ∈ rows, row.constantLength ≤ k := by
  obtain ⟨row, hr⟩ := List.exists_mem_of_ne_nil rows hne
  refine ⟨row, hr, ?_⟩
  by_contra hlt
  exact h (List.any_eq_true.2 ⟨row, hr, decide_eq_true (Nat.lt_of_not_le hlt)⟩)

/-! ### The two outcomes -/

/-- Either there is an obstacle, which the decoder reports, or the bytes begin with an
encoding. -/
def Classified (bytes : List UInt8) : Prop :=
  (∃ e left, obstacle? bytes = some e ∧ Decoder.instruction bytes = .error e left) ∨
    (obstacle? bytes = none ∧
      ∃ row ∈ table, ∃ p tail, row.Admits p ∧ bytes = row.bytes p ++ tail)

theorem classified_of_no_operandByte {opcode : UInt8} {form : Form}
    (h : Form.ofOpcode? opcode = some form) (hb : hasOperandByte form = false)
    (rest : List UInt8) : Classified (opcode :: rest) := by
  have hob := obstacle?_of_no_operandByte h hb rest
  by_cases hany : (chosen opcode (rest.getD 0 0)).any (rest.length < ·.constantLength)
  · -- the constant is cut off
    rw [if_pos hany] at hob
    obtain ⟨row, hr, hlt⟩ := List.any_eq_true.1 hany
    have hlaid := laidOut_of_mem_rowsOf h (List.mem_filter.1 hr).1
    have htakes := takes_operands hlaid hb (p := ⟨opcode, 0, [], []⟩) rfl
    obtain ⟨left, hl⟩ := htakes.short rest (of_decide_eq_true hlt)
    exact .inl ⟨.truncated, left, hob, by rw [instruction_of_form h, hl]⟩
  · -- any row of the leading byte will do: the first bytes are an encoding by it
    rw [if_neg hany] at hob
    have hgroup : form ≠ .group := by
      rintro rfl
      cases hb
    obtain ⟨row, hr, hlen⟩ := exists_constantLength_le (chosen_ne_nil h _ hgroup) hany
    have hlaid := laidOut_of_mem_rowsOf h (List.mem_filter.1 hr).1
    have hbyte : row.hasOperandByte = false := (hasOperandByte_of_laidOut hlaid).trans hb
    obtain ⟨⟨htable, hcovers⟩, hadmits⟩ := mem_chosen.1 hr
    refine .inr ⟨hob, row, htable,
      ⟨opcode, rest.getD 0 0, [], rest.take row.constantLength⟩,
      rest.drop row.constantLength, ?_, ?_⟩
    · exact ⟨hcovers, hadmits, fun hc => by simp [hbyte] at hc, fun hc => by simp [hbyte] at hc,
        List.length_take_of_le hlen⟩
    · simp [Row.bytes, hbyte]

theorem classified_of_operandByte {opcode : UInt8} {form : Form}
    (h : Form.ofOpcode? opcode = some form) (hb : hasOperandByte form = true) (b : UInt8)
    (rest : List UInt8) : Classified (opcode :: b :: rest) := by
  have hob := obstacle?_of_operandByte h hb (b := b) rest
  have hread : Decoder.instruction (opcode :: b :: rest)
      = (modRM >>= behindOperandByte opcode form) (b :: rest) := by
    rw [instruction_of_form h, operands_eq_bind hb]
  rw [bind_apply] at hread
  by_cases hun : ModRM.Unimplemented (ModRM.modeOf b) (ModRM.rmOf b)
  · -- this comes before the sub-code is looked at
    rw [if_pos hun] at hob
    rw [modRM_of_unimplemented hun] at hread
    exact .inl ⟨_, _, hob, hread⟩
  rw [if_neg hun] at hob
  by_cases hshort : rest.length < ModRM.displacementLength (ModRM.modeOf b)
  · -- the displacement is cut off
    rw [if_pos hshort] at hob
    rw [modRM_of_short hun hshort] at hread
    exact .inl ⟨_, _, hob, hread⟩
  rw [if_neg hshort] at hob
  -- the displacement is complete, so that the operand byte is read
  obtain ⟨disp, behind, rfl, hdisp⟩ : ∃ disp behind, rest = disp ++ behind ∧
      disp.length = ModRM.displacementLength (ModRM.modeOf b) :=
    ⟨_, _, (List.take_append_drop _ rest).symm, List.length_take_of_le (Nat.not_lt.1 hshort)⟩
  rw [modRM_append hun hdisp] at hread
  by_cases hsub : chosen opcode b = []
  · -- only a shared leading byte can be without a row
    rw [if_pos hsub] at hob
    obtain ⟨rfl, hcodes⟩ := (filter_admits_eq_nil_iff h _).1 hsub
    refine .inl ⟨_, behind, hob, hread.trans ?_⟩
    simp [behindOperandByte, bind_apply, GroupOp.ofCodes, hcodes, Decoder.ofExcept]
  -- what is left to compare is the constant with the bytes behind the displacement
  rw [if_neg hsub, List.length_append, hdisp] at hob
  have hlt : ∀ n m k : Nat, n + m < n + k ↔ m < k := by omega
  simp only [hlt] at hob
  let p : Parts := ⟨opcode, b, disp, []⟩
  by_cases hany : (chosen opcode b).any (behind.length < ·.constantLength)
  · -- the constant is cut off
    rw [if_pos hany] at hob
    obtain ⟨row, hr, hlt⟩ := List.any_eq_true.1 hany
    have hlaid := laidOut_of_mem_rowsOf h (List.mem_filter.1 hr).1
    have htakes := takes_behindOperandByte hlaid hb (p := p) (mem_chosen.1 hr).2
    obtain ⟨left, hl⟩ := htakes.short behind (of_decide_eq_true hlt)
    exact .inl ⟨.truncated, left, hob, hread.trans hl⟩
  · -- nothing is missing, so that the bytes are an encoding by a row that is admitted
    rw [if_neg hany] at hob
    obtain ⟨row, hr, hlen⟩ := exists_constantLength_le hsub hany
    have hlaid := laidOut_of_mem_rowsOf h (List.mem_filter.1 hr).1
    have hbyte : row.hasOperandByte = true := (hasOperandByte_of_laidOut hlaid).trans hb
    obtain ⟨⟨htable, hcovers⟩, hadmits⟩ := mem_chosen.1 hr
    refine .inr ⟨hob, row, htable, ⟨opcode, b, disp, behind.take row.constantLength⟩,
      behind.drop row.constantLength, ?_, ?_⟩
    · exact ⟨hcovers, hadmits, fun _ => hun, fun _ => hdisp, List.length_take_of_le hlen⟩
    · simp [Row.bytes, hbyte]

theorem classified (bytes : List UInt8) : Classified bytes := by
  cases bytes with
  | nil => exact .inl ⟨.truncated, [], rfl, rfl⟩
  | cons opcode rest =>
    cases hform : Form.ofOpcode? opcode with
    | none =>
      -- no instruction begins with this byte
      refine .inl ⟨_, rest, obstacle?_of_no_form hform rest, ?_⟩
      simp [Decoder.instruction, bind_apply, byte, Decoder.ofExcept, Form.ofOpcode, hform]
    | some form =>
      cases hb : hasOperandByte form with
      | false => exact classified_of_no_operandByte hform hb rest
      | true =>
        cases rest with
        | cons b rest => exact classified_of_operandByte hform hb b rest
        | nil =>
          -- the operand byte is missing
          refine .inl ⟨.truncated, [], ?_, ?_⟩
          · simp [obstacle?, rowsOf_ne_nil hform, any_hasOperandByte_rowsOf hform, hb]
          · rw [instruction_of_form hform, operands_eq_bind hb, bind_apply]
            rfl

/-! ### The language -/

theorem instructionAt_bytes_append {row : Row} {p : Parts} (h : row ∈ table)
    (hp : row.Admits p) (tail : List UInt8) :
    instructionAt (row.bytes p ++ tail) 0 = (.ok (row.instruction p), (row.bytes p).length) := by
  simp [instructionAt, Cursor.place, Cursor.next, Cursor.moved, decode,
    instruction_bytes_append h hp]

/-- Bytes that begin with an encoding decode to the instruction that it encodes. -/
theorem instructionAt_of_encodes {bytes : List UInt8} {i : Instruction} {n : Nat}
    (hn : n ≤ bytes.length) (h : Encodes (bytes.take n) i) :
    instructionAt bytes 0 = (.ok i, n) := by
  obtain ⟨row, hrow, p, hp, hb, rfl⟩ := h
  have hlen : (row.bytes p).length = n := by rw [← hb, List.length_take_of_le hn]
  rw [← List.take_append_drop n bytes, hb, instructionAt_bytes_append hrow hp, hlen]

/-- An obstacle is reported; without one the bytes begin with an encoding. -/
theorem obstacle_or_encodes (bytes : List UInt8) :
    (∃ e, obstacle? bytes = some e ∧ (instructionAt bytes 0).1 = .error e) ∨
      ∃ i n, n ≤ bytes.length ∧ Encodes (bytes.take n) i := by
  obtain ⟨e, left, hob, he⟩ | ⟨-, row, hrow, p, tail, hp, rfl⟩ := classified bytes
  · refine .inl ⟨e, hob, ?_⟩
    simp [instructionAt, Cursor.place, Cursor.next, decode, he]
  · refine .inr ⟨row.instruction p, (row.bytes p).length, ?_, row, hrow, p, hp, ?_, rfl⟩
    · rw [List.length_append]
      exact Nat.le_add_right ..
    · rw [List.take_left]

/-- What is decoded is encoded in the bytes that are consumed. -/
theorem encodes_of_instructionAt {bytes : List UInt8} {start n : Nat} {i : Instruction}
    (h : instructionAt bytes start = (.ok i, n)) :
    n ≤ (bytes.drop start).length ∧ Encodes ((bytes.drop start).take n) i := by
  have hshift : instructionAt bytes start = instructionAt (bytes.drop start) 0 :=
    instructionAt_congr rfl
  rw [hshift] at h
  obtain ⟨e, -, he⟩ | ⟨i', n', hn, hi⟩ := obstacle_or_encodes (bytes.drop start)
  · rw [h] at he
    cases he
  · rw [instructionAt_of_encodes hn hi] at h
    cases h
    exact ⟨hn, hi⟩

theorem suits_ofCode (w : Width) (code : Fin 8) : Suits w (.ofCode w code) := by
  cases w <;> rfl

theorem suits_operand {w : Width} {s : Slot} (h : ∀ o, s = .fixed o → Suits w o) (p : Parts) :
    Suits w (s.operand w p) := by
  cases s with
  | fixed o => exact h o rfl
  | code => exact suits_ofCode w _
  | reg => exact suits_ofCode w _
  | rm =>
    simp only [Slot.operand]
    split
    · exact suits_ofCode w _
    · trivial
  | _ => trivial

/-- Registers that the table mentions by name suit the width of their row. -/
theorem suits_of_mem_table {row : Row} (h : row ∈ table) :
    (∀ o, row.left = .fixed o → Suits row.width o) ∧
      ∀ o, row.right = .fixed o → Suits row.width o := by
  have hall : ∀ row ∈ table,
      (match row.left with | .fixed o => Suits row.width o | _ => True) ∧
        (match row.right with | .fixed o => Suits row.width o | _ => True) := by
    simp only [table, List.forall_mem_cons]
    simp [Suits]
  obtain ⟨hleft, hright⟩ := hall row h
  refine ⟨fun o ho => ?_, fun o ho => ?_⟩
  · rwa [ho] at hleft
  · rwa [ho] at hright

/-- The operands of an encoded instruction suit its width. -/
theorem suits_of_encodes {bytes : List UInt8} {i : Instruction} (h : Encodes bytes i) :
    Suits i.width i.left ∧ Suits i.width i.right := by
  obtain ⟨row, hrow, p, -, -, rfl⟩ := h
  have hs := suits_of_mem_table hrow
  exact ⟨suits_operand hs.1 p, suits_operand hs.2 p⟩

/-- **The decoder accepts exactly the instruction set.** It accepts an instruction and consumes
`n` bytes exactly if the first `n` bytes are an encoding of it, where register operands suit the
width. Otherwise it reports the first obstacle. -/
theorem instructionAt_language (bytes : List UInt8) :
    (∀ i n, instructionAt bytes 0 = (.ok i, n)
      ↔ n ≤ bytes.length ∧ Encodes (bytes.take n) i) ∧
    (∀ e, (instructionAt bytes 0).1 = .error e
      ↔ (¬ ∃ i n, n ≤ bytes.length ∧ Encodes (bytes.take n) i) ∧ obstacle? bytes = some e) ∧
    ∀ i, (instructionAt bytes 0).1 = .ok i → Suits i.width i.left ∧ Suits i.width i.right := by
  obtain ⟨e, hob, he⟩ | ⟨i, n, hn, h⟩ := obstacle_or_encodes bytes
  · -- with an obstacle there is no encoding, because an encoding would be accepted
    have hnone : ¬ ∃ i n, n ≤ bytes.length ∧ Encodes (bytes.take n) i := by
      rintro ⟨i, n, hn, h⟩
      rw [instructionAt_of_encodes hn h] at he
      cases he
    refine ⟨fun i n => ⟨fun hi => ?_, fun hi => absurd ⟨i, n, hi⟩ hnone⟩, fun e' => ?_,
      fun i hi => ?_⟩
    · rw [hi] at he
      cases he
    · rw [he, hob, Except.error.injEq, Option.some.injEq]
      exact ⟨fun h => ⟨hnone, h⟩, fun h => h.2⟩
    · rw [hi] at he
      cases he
  · -- an encoding is accepted, and as decoding is a function there is no other one
    have hok := instructionAt_of_encodes hn h
    rw [hok]
    refine ⟨fun i' n' => ⟨fun hi => ?_, fun hi => ?_⟩, fun e => ⟨fun he => ?_, fun he => ?_⟩,
      fun i' hi => ?_⟩
    · obtain ⟨rfl, rfl⟩ : i = i' ∧ n = n' := by simpa using hi
      exact ⟨hn, h⟩
    · rw [← hok, instructionAt_of_encodes hi.1 hi.2]
    · cases he
    · exact absurd ⟨i, n, hn, h⟩ he.1
    · obtain rfl := Except.ok.inj hi
      exact suits_of_encodes h

/-- `add dword [eax-4], 0xff` with its sign-extended constant, and what is reported where the
same opcode has an index register and no sub-code. -/
theorem instructionAt_language_add :
    Encodes [0x83, 0x40, 0xfc, 0xff] ⟨.add, .dword, .mem .eax (-4), .imm 0xffffffff⟩ ∧
    Suits .dword (.mem .eax (-4)) ∧ Suits .dword (.imm 0xffffffff) ∧
    (¬ ∃ i n, n ≤ 2 ∧ Encodes (List.take n [0x83, 0x4c]) i) ∧
    obstacle? [0x83, 0x4c] = some (.unimplementedAddressing 1 4) := by
  have hok : instructionAt [0x83, 0x40, 0xfc, 0xff, 0x90] 0
      = (.ok ⟨.add, .dword, .mem .eax (-4), .imm 0xffffffff⟩, 4) := by rfl
  have herr : (instructionAt [0x83, 0x4c] 0).1 = .error (.unimplementedAddressing 1 4) := by rfl
  have hadd := instructionAt_language [0x83, 0x40, 0xfc, 0xff, 0x90]
  have hindex := (instructionAt_language [0x83, 0x4c]).2.1 (.unimplementedAddressing 1 4)
  have hsuits := hadd.2.2 _ (congrArg Prod.fst hok)
  exact ⟨((hadd.1 _ _).1 hok).2, hsuits.1, hsuits.2, hindex.1 herr⟩

end Boot386.InstructionSet
