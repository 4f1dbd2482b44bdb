import Boot386.Machine.Step
import Boot386.Proofs.Encoding.Language

/-!
# Well-formed instructions

`Instruction.WellFormed` ties the kinds of the operands to the operation: what is read has a value,
what is written can be written, and a jump has a target. The decoder builds no other instructions
(`wellFormed_of_instruction`), and for these the machine always has a plan or a fault
(`Machine.plan_ne_malformed`), so it is never stuck on what it fetches
(`Machine.prepare_ne_malformed`).
-/

namespace Boot386

/-- The operand has a value. -/
def Operand.Readable : Operand → Prop
  | reg _ => True
  | reg8 _ => True
  | dx => True
  | mem .. => True
  | imm _ => True
  | rel _ => False
  | absent => False

/-- The operand can be written. -/
def Operand.Writable : Operand → Prop
  | reg _ => True
  | reg8 _ => True
  | mem .. => True
  | _ => False

/-- The operands are of the kinds that the operation works on. What is popped or comes from the
console goes to a register, so that it cannot be lost in a write that fails. -/
def Instruction.WellFormed (i : Instruction) : Prop :=
  match i.op with
  | .mov => i.left.Writable ∧ i.right.Readable
  | .add => i.left.Writable ∧ i.right.Readable
  | .sub => i.left.Writable ∧ i.right.Readable
  | .cmp => i.left.Readable ∧ i.right.Readable
  | .inc => i.left.Writable
  | .push => i.left.Readable
  | .pop => ∃ r, i.left = .reg r
  | .call => ∃ d, i.left = .rel d
  | .ret => True
  | .leave => True
  | .jmp => ∃ d, i.left = .rel d
  | .jcc _ => ∃ d, i.left = .rel d
  | .input => (∃ r, i.left = .reg8 r) ∧ i.right.Readable
  | .output => i.left.Readable ∧ i.right.Readable
  | .interrupt => i.left.Readable

theorem Operand.Writable.readable {o : Operand} (h : o.Writable) : o.Readable := by
  cases o with
  | dx => cases h
  | rel d => cases h
  | absent => cases h
  | _ => trivial

/-! ### The decoder builds well-formed instructions -/

namespace InstructionSet

theorem writable_ofCode (w : Width) (code : Fin 8) : (Operand.ofCode w code).Writable := by
  cases w <;> trivial

theorem writable_reg (w : Width) (p : Parts) : (Slot.reg.operand w p).Writable :=
  writable_ofCode w _

theorem writable_rm (w : Width) (p : Parts) : (Slot.rm.operand w p).Writable := by
  simp only [Slot.operand]
  split
  · exact writable_ofCode w _
  · trivial

/-- Every row of the table joins an operation with operands that it works on. -/
theorem wellFormed_instruction {row : Row} (h : row ∈ table) (p : Parts) :
    (row.instruction p).WellFormed := by
  have hall : ∀ row ∈ table, (row.instruction p).WellFormed := by
    have hreg := fun w => writable_reg w p
    have hrm := fun w => writable_rm w p
    -- what can be written has a value, too
    have hreg' := fun w => (hreg w).readable
    have hrm' := fun w => (hrm w).readable
    simp only [table, List.forall_mem_cons, Row.instruction, Instruction.WellFormed, hreg, hrm,
      hreg', hrm']
    simp [Slot.operand, Operand.ofCode, Operand.Readable, Operand.Writable]
  exact hall row h

end InstructionSet

/-- **The decoder builds well-formed instructions.** -/
theorem wellFormed_of_instruction {bytes rest : List UInt8} {i : Instruction}
    (h : Decoder.instruction bytes = .ok i rest) : i.WellFormed := by
  obtain ⟨e, left, -, he⟩ | ⟨-, row, hrow, p, tail, hp, rfl⟩ := InstructionSet.classified bytes
  · rw [he] at h
    cases h
  · rw [InstructionSet.instruction_bytes_append hrow hp] at h
    cases h
    exact InstructionSet.wellFormed_instruction hrow p

theorem wellFormed_of_decode {bytes : List UInt8} {i : Instruction}
    (h : (Decoder.instruction.decode bytes).result = .ok i) : i.WellFormed := by
  cases hd : Decoder.instruction bytes with
  | ok j rest =>
    simp only [Decoder.decode, hd, Except.ok.injEq] at h
    exact h ▸ wellFormed_of_instruction hd
  | error e rest => simp [Decoder.decode, hd] at h

/-! ### Well-formed instructions have a plan -/

namespace Machine

variable {m : Machine}

theorem read_ne_malformed {o : Operand} (h : o.Readable) (w : Width) :
    m.read w o ≠ .error .malformed := by
  cases o with
  | mem base d =>
    rw [read]
    cases m.memory.read w (m.registers.get base + Word.ofSigned d) <;> simp [Except.mapError]
  | rel d => cases h
  | absent => cases h
  | _ => simp [read]

theorem write_ne_malformed {o : Operand} (h : o.Writable) (w : Width) (v : UInt32)
    (c : Change) : m.write w o v c ≠ .error .malformed := by
  cases o with
  | mem base d =>
    rw [write]
    split <;> simp
  | reg r => simp [write]
  | reg8 r => simp [write]
  | _ => cases h

theorem bind_ne_malformed {α β : Type} {x : Except Refusal α} {f : α → Except Refusal β}
    (hx : x ≠ .error .malformed) (hf : ∀ a, f a ≠ .error .malformed) :
    (x >>= f) ≠ .error .malformed := by
  cases x with
  | ok a => exact hf a
  | error r => exact fun h => hx (congrArg Except.error (Except.error.inj h))

/-- What can happen to a guest is not malformed. -/
theorem mapError_ne_malformed {α : Type} (x : Except Fault α) :
    x.mapError Refusal.fault ≠ .error .malformed := by
  cases x <;> simp [Except.mapError]

/-- **A well-formed instruction can be worked out.** Only a fault can keep the machine from it. -/
theorem plan_ne_malformed (m : Machine) {i : Instruction} (h : i.WellFormed) (next : UInt32) :
    m.plan i next ≠ .error .malformed := by
  obtain ⟨op, w, left, right⟩ := i
  have hdone : ∀ a : Action, (pure a : Except Refusal Action) ≠ .error .malformed := by
    intro a ha
    cases ha
  have hwrite : ∀ {o : Operand} (v : UInt32) (c : Change), o.Writable →
      (m.write w o v c >>= fun c => pure (Action.commit c)) ≠ .error .malformed :=
    fun v c ho => bind_ne_malformed (write_ne_malformed ho w v c) fun c => hdone _
  cases op with
  | mov =>
    obtain ⟨hleft, hright⟩ := h
    exact bind_ne_malformed (read_ne_malformed hright w) fun v => hwrite v _ hleft
  | add =>
    obtain ⟨hleft, hright⟩ := h
    exact bind_ne_malformed (read_ne_malformed hleft.readable w) fun a =>
      bind_ne_malformed (read_ne_malformed hright w) fun b => hwrite _ _ hleft
  | sub =>
    obtain ⟨hleft, hright⟩ := h
    exact bind_ne_malformed (read_ne_malformed hleft.readable w) fun a =>
      bind_ne_malformed (read_ne_malformed hright w) fun b => hwrite _ _ hleft
  | cmp =>
    obtain ⟨hleft, hright⟩ := h
    exact bind_ne_malformed (read_ne_malformed hleft w) fun a =>
      bind_ne_malformed (read_ne_malformed hright w) fun b => hdone _
  | inc =>
    exact bind_ne_malformed (read_ne_malformed (Operand.Writable.readable h) w) fun a =>
      hwrite _ _ h
  | push =>
    exact bind_ne_malformed (read_ne_malformed h .dword) fun v =>
      bind_ne_malformed (mapError_ne_malformed _) fun c => hdone _
  | pop =>
    obtain ⟨r, rfl⟩ := h
    -- writing a register succeeds, so only the pop is left to ask about
    exact bind_ne_malformed (mapError_ne_malformed _) fun p => hdone _
  | call =>
    obtain ⟨d, rfl⟩ := h
    have hrel : codeDisplacement (.rel d) ≠ .error .malformed := by simp [codeDisplacement]
    exact bind_ne_malformed hrel fun d =>
      bind_ne_malformed (mapError_ne_malformed _) fun c => hdone _
  | ret => exact bind_ne_malformed (mapError_ne_malformed _) fun p => hdone _
  | leave => exact bind_ne_malformed (mapError_ne_malformed _) fun v => hdone _
  | jmp =>
    obtain ⟨d, rfl⟩ := h
    exact hdone _
  | jcc c =>
    obtain ⟨d, rfl⟩ := h
    exact hdone _
  | input =>
    obtain ⟨⟨r, rfl⟩, hright⟩ := h
    have hreg : byteRegister (.reg8 r) ≠ .error .malformed := by simp [byteRegister]
    exact bind_ne_malformed hreg fun r =>
      bind_ne_malformed (read_ne_malformed hright .dword) fun a => hdone _
  | output =>
    obtain ⟨hleft, hright⟩ := h
    exact bind_ne_malformed (read_ne_malformed hleft .dword) fun a =>
      bind_ne_malformed (read_ne_malformed hright .byte) fun v => hdone _
  | interrupt =>
    exact bind_ne_malformed (read_ne_malformed h .byte) fun v => hdone _

/-- **No machine is stuck.** Whatever the bytes at the instruction pointer are, they can be worked
out, or there is a fault. -/
theorem prepare_ne_malformed (m : Machine) : m.prepare ≠ .error .malformed := by
  cases hfetch : m.fetch with
  | error f => simp [prepare, hfetch]
  | ok fetched =>
    have hwell : fetched.instruction.WellFormed := by
      -- what is fetched has been decoded
      unfold fetch at hfetch
      split at hfetch
      · dsimp only at hfetch
        split at hfetch
        · next i hresult =>
          obtain rfl := Except.ok.inj hfetch
          exact wellFormed_of_decode hresult
        · cases hfetch
      · cases hfetch
    have hplan := m.plan_ne_malformed hwell fetched.next
    simp only [prepare, hfetch]
    cases hp : m.plan fetched.instruction fetched.next with
    | ok action => simp
    | error r =>
      rw [hp] at hplan
      simpa using hplan

end Machine

end Boot386
