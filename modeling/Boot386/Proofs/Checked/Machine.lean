import Boot386.Checked.Machine
import Boot386.Proofs.Checked.Reader
import Boot386.Proofs.Machine.WellFormed
import Boot386.Proofs.Memory

/-!
# Carrying out instructions in order

A routine that carries out an instruction one thing after the other ends as the machine does that
works out the whole change first and commits it then:

* the routines for registers, memory, operands, stack and console, one equation each;
* `planned m` is how the other machine ends, and the `_then` lemmas walk through both sides in
  parallel, one read after the other;
* `process_apply` puts an instruction together from them, and `executeNext_apply` a step.

The two can differ only where a write fails after another write. `Instruction.WellFormed` is what
excludes that: a word that has been popped goes to a register.
-/

namespace Boot386.Checked.Routine

variable {α β : Type} {m : Machine}

/-! ### Registers -/

theorem getReg_apply (r : Reg) (m : Machine) : getReg r m = .ok (m.registers.get r) m := by
  have hget : m.registers.toList[r.code.val]? = some (m.registers.get r) := by
    cases r <;> rfl
  rw [getReg, Decoder.bind_apply, get_apply]
  simp only [element_of_getElem? hget, pure_apply]

theorem setReg_apply (r : Reg) (v : UInt32) (m : Machine) :
    setReg r v m = .ok () { m with registers := m.registers.set r v } := by
  have hlt : r.code.val < m.registers.toList.length := r.code.isLt
  rw [setReg, Decoder.bind_apply, get_apply]
  simp only [require_of hlt, pure_bind, set_apply]

theorem shift_eq (r : Reg8) : shift r = pure (8 * r.offset) := by
  have hlt : 8 * r.offset < 32 := by
    have := r.offset_lt
    omega
  rw [shift, require_of hlt, pure_bind]

theorem getReg8_apply (r : Reg8) (m : Machine) : getReg8 r m = .ok (m.registers.get8 r) m := by
  rw [getReg8, Decoder.bind_apply, getReg_apply]
  simp only [shift_eq, pure_bind, pure_apply, Registers.get8, Word.byte]

theorem setReg8_apply (r : Reg8) (b : UInt8) (m : Machine) :
    setReg8 r b m = .ok () { m with registers := m.registers.set8 r b } := by
  rw [setReg8, shift_eq, pure_bind, Decoder.bind_apply, getReg_apply]
  exact setReg_apply r.parent _ m

/-! ### Memory -/

/-- Bytes are located first. Nothing is done with them unless all of them are inside. -/
theorem range_bind {n : Nat} (hn : n ≤ 4) (a : UInt32) (k : Nat × Nat → Routine α)
    (m : Machine) :
    (range a n >>= k) m
      = if m.memory.Fits a n then k (a.toNat, a.toNat + n) m
        else .error (.error (.outOfBounds a n m.memory.size)) m := by
  have ha := a.toNat_lt
  have hroom : a.toNat + n < UInt64.size := by
    unfold UInt64.size
    omega
  rw [range, bind_assoc, Decoder.bind_apply, get_apply]
  simp only [hroom, true_and, Memory.Fits]
  by_cases h : a.toNat + n ≤ m.memory.size
  · simp only [h, if_true, pure_bind]
  · simp only [h, if_false]
    rfl

theorem slice_apply {start stop : Nat} (h : start ≤ stop ∧ stop ≤ m.memory.size) :
    slice start stop m = .ok (m.memory.slice start (stop - start)) m := by
  rw [slice, Decoder.bind_apply, get_apply]
  simp only [require_of h, pure_bind, pure_apply]

theorem overwrite_apply {start stop : Nat} (h : start ≤ stop ∧ stop ≤ m.memory.size)
    {bytes : List UInt8} (hb : bytes.length = stop - start) :
    overwrite start stop bytes m = .ok () { m with memory := m.memory.store start bytes } := by
  rw [overwrite, Decoder.bind_apply, get_apply]
  simp only [require_of h, pure_bind, copy_of_length hb, set_apply]

theorem readByte_apply (a : UInt32) (m : Machine) :
    readByte a m
      = if m.memory.Fits a 1 then .ok (m.memory.byteAt a.toNat) m
        else .error (.error (m.memory.outside .byte a)) m := by
  rw [readByte, range_bind (by omega)]
  refine ite_congr rfl (fun h => ?_) fun _ => rfl
  have hlt : a.toNat < m.memory.size := h
  simp only [Decoder.bind_apply, get_apply, require_of hlt, pure_apply]

theorem writeByte_apply (a : UInt32) (b : UInt8) (m : Machine) :
    writeByte a b m
      = if m.memory.Fits a 1 then .ok () { m with memory := m.memory.store a.toNat [b] }
        else .error (.error (m.memory.outside .byte a)) m := by
  rw [writeByte, range_bind (by omega)]
  refine ite_congr rfl (fun h => ?_) fun _ => rfl
  have hlt : a.toNat < m.memory.size := h
  simp only [Decoder.bind_apply, get_apply, require_of hlt, pure_apply, set_apply,
    Memory.store]

theorem readWord_apply (a : UInt32) (m : Machine) :
    readWord a m
      = if m.memory.Fits a 4 then .ok (m.memory.operandAt .dword a.toNat) m
        else .error (.error (m.memory.outside .dword a)) m := by
  rw [readWord, range_bind (by omega)]
  refine ite_congr rfl (fun h => ?_) fun _ => rfl
  have hin : a.toNat ≤ a.toNat + 4 ∧ a.toNat + 4 ≤ m.memory.size := ⟨by omega, h⟩
  -- no byte is cut off at the end of memory
  have hmin : min 4 (m.memory.size - a.toNat) = 4 := by
    have := hin.2
    omega
  have hslice : m.memory.slice a.toNat (a.toNat + 4 - a.toNat)
      = [m.memory.byteAt a.toNat, m.memory.byteAt (a.toNat + 1),
          m.memory.byteAt (a.toNat + 2), m.memory.byteAt (a.toNat + 3)] := by
    rw [Nat.add_sub_cancel_left, Memory.slice, hmin]
    rfl
  simp only [Decoder.bind_apply, slice_apply hin, hslice]
  rfl

theorem writeWord_apply (a : UInt32) (v : UInt32) (m : Machine) :
    writeWord a v m
      = if m.memory.Fits a 4 then
          .ok () { m with memory := m.memory.store a.toNat (Word.toBytes v) }
        else .error (.error (m.memory.outside .dword a)) m := by
  rw [writeWord, range_bind (by omega)]
  refine ite_congr rfl (fun h => ?_) fun _ => rfl
  have hlength : (Word.toBytes v).length = a.toNat + 4 - a.toNat := by
    rw [Nat.add_sub_cancel_left, Word.length_toBytes]
  exact overwrite_apply ⟨Nat.le_add_right .., h⟩ hlength

/-! ### Answers -/

/-- How a routine ends that has found something out and has changed nothing. -/
def answer (m : Machine) : Except Refusal α → EStateM.Result (Stop Fault) Machine α
  | .ok a => .ok a m
  | .error (.fault f) => .error (.error f) m
  | .error .malformed => .error (.crash .malformed) m

theorem answer_read (w : Width) (a : UInt32) (m : Machine) :
    answer m ((m.memory.read w a).mapError .fault)
      = if m.memory.Fits a w.size then .ok (m.memory.operandAt w a.toNat) m
        else .error (.error (m.memory.outside w a)) m := by
  rw [Memory.read]
  split <;> rfl

theorem readMemory_apply (w : Width) (a : UInt32) (m : Machine) :
    readMemory w a m = answer m ((m.memory.read w a).mapError .fault) := by
  rw [answer_read]
  cases w with
  | byte =>
    have hword : (m.memory.byteAt a.toNat).toUInt32 = m.memory.operandAt .byte a.toNat :=
      (Word.unsigned_singleton _).symm
    rw [readMemory, Decoder.bind_apply, readByte_apply, ← hword, Width.size_byte]
    by_cases h : m.memory.Fits a 1 <;> simp only [h, if_true, if_false, pure_apply]
  | dword => exact readWord_apply a m

theorem writeMemory_apply (w : Width) (a : UInt32) (v : UInt32) (m : Machine) :
    writeMemory w a v m
      = if m.memory.Fits a w.size then
          .ok () { m with memory := m.memory.store a.toNat (Store.mk w a v).bytes }
        else .error (.error (m.memory.outside w a)) m := by
  cases w with
  | byte => exact writeByte_apply a _ m
  | dword => exact writeWord_apply a v m

/-- An operand is read in order as it is read at once. -/
theorem readOperand_apply (o : Operand) (w : Width) (m : Machine) :
    readOperand o w m = answer m (m.read w o) := by
  cases o with
  | reg r => exact getReg_apply r m
  | reg8 r => rw [readOperand, Decoder.bind_apply, getReg8_apply]; rfl
  | dx =>
    -- the mask takes the lower half of the register
    have hlow : ∀ v : UInt32, v &&& 0xffff = UInt32.ofNat (v.toNat % 65536) := by
      intro v
      apply UInt32.toNat_inj.1
      have hand : v.toNat &&& 0xffff = v.toNat % 65536 := Nat.and_two_pow_sub_one_eq_mod _ 16
      have hlt : v.toNat % 65536 < 2 ^ 32 := by omega
      rw [UInt32.toNat_and, UInt32.toNat_ofNat', Nat.mod_eq_of_lt hlt]
      exact hand
    rw [readOperand, Decoder.bind_apply, getReg_apply]
    simp only [hlow]
    rfl
  | mem base d =>
    rw [readOperand, address]
    simp only [Decoder.bind_apply, getReg_apply, pure_apply]
    exact readMemory_apply w _ m
  | rel d => rfl
  | imm v => rfl
  | absent => rfl

/-- An operand is written in order as it is when the change is committed. -/
theorem writeOperand_apply (o : Operand) (w : Width) (v : UInt32) (m : Machine) :
    writeOperand o w v m
      = match m.write w o v m.unchanged with
        | .ok c => .ok () (m.commit c)
        | .error r => answer m (.error r) := by
  cases o with
  | reg r => exact setReg_apply r v m
  | reg8 r => exact setReg8_apply r _ m
  | mem base d =>
    rw [writeOperand, address]
    simp only [Decoder.bind_apply, getReg_apply, pure_apply, writeMemory_apply, Machine.write]
    by_cases h : m.memory.Fits (m.registers.get base + Word.ofSigned d) w.size
    · simp only [Machine.unchanged, h, if_true]
      rfl
    · simp only [Machine.unchanged, h, if_false]
      rfl
  | dx => rfl
  | rel d => rfl
  | imm v => rfl
  | absent => rfl

/-! ### The stack -/

theorem push_apply (v : UInt32) (m : Machine) :
    push v m
      = match m.pushed v with
        | .ok c => .ok () (m.commit c)
        | .error f => .error (.error f) m := by
  -- memory first, then the stack pointer; if the first fails neither has changed
  rw [push, Decoder.bind_apply, getReg_apply]
  simp only [Decoder.bind_apply, writeWord_apply, Machine.pushed]
  by_cases h : m.memory.Fits (m.registers.get .esp - 4) 4
  · simp only [h, if_true, setReg_apply]
    rfl
  · simp only [h, if_false]

theorem pop_apply (m : Machine) :
    pop m
      = match m.popped with
        | .ok (v, c) => .ok v (m.commit c)
        | .error f => .error (.error f) m := by
  rw [pop, Decoder.bind_apply, getReg_apply]
  simp only [Decoder.bind_apply, readWord_apply, Machine.popped, Memory.read, Width.size_dword]
  by_cases h : m.memory.Fits (m.registers.get .esp) 4
  · simp only [h, if_true, setReg_apply]
    rfl
  · simp only [h, if_false]

/-! ### Console and firmware -/

/-- How a routine ends that carries out an action. -/
def carried (m : Machine) (a : Action) : EStateM.Result (Stop Fault) Machine (Option UInt32) :=
  match m.carryOut a with
  | (.ok target, m) => .ok target m
  | (.error f, m) => .error (.error f) m

/-- A byte from the console goes to a byte register. -/
theorem portIn_apply (a : IoAddress) (r : Reg8) (m : Machine) :
    (do
      let b ← portIn a
      writeOperand (.reg8 r) .byte b.toUInt32
      return none : Routine (Option UInt32)) m = carried m (.input a r) := by
  have hlow : ∀ b : UInt8, Word.byte b.toUInt32 0 = b := by
    intro b
    apply UInt8.toNat_inj.1
    rw [Word.toNat_byte]
    exact Nat.mod_eq_of_lt b.toNat_lt
  rw [Decoder.bind_apply, portIn, carried, Machine.carryOut]
  simp only [Decoder.bind_apply, get_apply]
  rcases m.console.input a with ⟨reason | b | _, console⟩
  · rfl
  · simp only [Decoder.bind_apply, set_apply, pure_apply, writeOperand, setReg8_apply, hlow]
  · simp only [Decoder.bind_apply, set_apply, pure_apply, writeOperand, setReg8_apply, hlow,
      note, get_apply]
    rfl

/-- What the console says to a row of bytes, and what that makes of the machine. -/
theorem portOut_apply (a : IoAddress) (b : UInt8) (m : Machine) :
    portOut a b m
      = match m.console.output a [b] with
        | (.error reason, console) =>
          .error (.error (.console reason)) { m with console := console }
        | (.ok (), console) => .ok () { m with console := console } := by
  rw [portOut, Decoder.bind_apply, get_apply]
  dsimp only
  rcases m.console.output a [b] with ⟨reason | _, console⟩ <;> rfl

/-- Bytes that are sent one by one are sent up to the first failure. -/
theorem sendAll_apply (bytes : List UInt8) (m : Machine) :
    sendAll bytes m
      = match m.console.output Console.address bytes with
        | (.error reason, console) =>
          .error (.error (.console reason)) { m with console := console }
        | (.ok (), console) => .ok () { m with console := console } := by
  induction bytes generalizing m with
  | nil => rfl
  | cons b bytes ih =>
    -- the first byte is sent alone, and the others by the machine that it leaves
    rw [sendAll, Decoder.bind_apply, portOut_apply]
    simp only [Console.output, if_true, Console.sendAll]
    rcases m.console.send b with ⟨reason | _, console⟩
    · rfl
    · simp only [ih, Console.output, if_true]

theorem teletype_eq (character style : UInt8) :
    teletype character (style &&& 0x0f) = pure (Teletype.sequence character style) := by
  have hstyle : palette[((style &&& 0x0f) &&& 7).toNat]? = some (Teletype.color style) ∧
      (if (style &&& 0x0f) &&& 8 = 0 then 0 else 1) = Teletype.bright style := by
    refine Word.forall_byte (P := fun s =>
      palette[((s &&& 0x0f) &&& 7).toNat]? = some (Teletype.color s) ∧
        (if (s &&& 0x0f) &&& 8 = 0 then 0 else 1) = Teletype.bright s) ?_ style
    decide +kernel
  rw [teletype, element_of_getElem? hstyle.1, pure_bind, hstyle.2]
  rfl

theorem interrupt_apply (vector : UInt8) (m : Machine) :
    (do
      interrupt vector
      return none : Routine (Option UInt32)) m = carried m (m.interrupt vector) := by
  rw [Decoder.bind_apply, interrupt, Machine.interrupt]
  by_cases hvideo : vector = Machine.videoVector
  · -- of the video service only one function does something
    rw [if_pos hvideo, if_pos hvideo, video, Machine.video, Decoder.bind_apply, getReg8_apply]
    by_cases hwrite : m.registers.get8 .ah = Machine.teletypeFunction
    · simp only [hwrite, if_true, Decoder.bind_apply, getReg8_apply, teletype_eq, pure_apply,
        sendAll_apply, carried, Machine.carryOut]
      rcases m.console.output Console.address _ with ⟨reason | _, console⟩ <;> rfl
    · simp only [hwrite, if_false]
      rfl
  · rw [if_neg hvideo, if_neg hvideo]
    rfl

/-! ### Instructions -/

/-- How a routine ends that works out what an instruction asks for, and does it. -/
def planned (m : Machine) : Except Refusal Action → EStateM.Result (Stop Fault) Machine
    (Option UInt32)
  | .ok a => carried m a
  | .error r => answer m (.error r)

/-- Both sides read an operand first. -/
theorem readOperand_then (o : Operand) (w : Width) {k : UInt32 → Routine (Option UInt32)}
    {f : UInt32 → Except Refusal Action} (h : ∀ v, k v m = planned m (f v)) :
    (readOperand o w >>= k) m = planned m (m.read w o >>= f) := by
  rw [Decoder.bind_apply, readOperand_apply]
  rcases m.read w o with (f | _) | v
  · rfl
  · rfl
  · exact h v

/-- Both sides read a word of memory first. -/
theorem readWord_then (a : UInt32) {k : UInt32 → Routine (Option UInt32)}
    {f : UInt32 → Except Refusal Action} (h : ∀ v, k v m = planned m (f v)) :
    (readWord a >>= k) m = planned m ((m.memory.read .dword a).mapError .fault >>= f) := by
  have hread : readWord a m = answer m ((m.memory.read .dword a).mapError .fault) :=
    readMemory_apply .dword a m
  rw [Decoder.bind_apply, hread]
  cases m.memory.read .dword a with
  | error f => rfl
  | ok v => exact h v

theorem change_of_pushed {v : UInt32} {c : Change} (h : m.pushed v = .ok c) :
    c = { m.unchanged with
      registers := m.registers.set .esp (m.registers.get .esp - 4)
      store := some ⟨.dword, m.registers.get .esp - 4, v⟩ } := by
  simp only [Machine.pushed] at h
  split at h
  · exact (Except.ok.inj h).symm
  · cases h

theorem change_of_popped {v : UInt32} {c : Change} (h : m.popped = .ok (v, c)) :
    c = { m.unchanged with
      registers := m.registers.set .esp (m.registers.get .esp + 4) } := by
  simp only [Machine.popped] at h
  split at h
  · exact (Prod.mk.inj (Except.ok.inj h)).2.symm
  · cases h

/-- Both sides push a word first, and go on behind it. -/
theorem push_then (v : UInt32) {k : Unit → Routine (Option UInt32)}
    {f : Change → Except Refusal Action}
    (h : ∀ c, m.pushed v = .ok c → k () (m.commit c) = planned m (f c)) :
    (push v >>= k) m = planned m ((m.pushed v).mapError .fault >>= f) := by
  rw [Decoder.bind_apply, push_apply]
  cases hp : m.pushed v with
  | ok c => exact h c hp
  | error f => rfl

/-- Both sides pop a word first, and go on behind it. -/
theorem pop_then {k : UInt32 → Routine (Option UInt32)}
    {f : UInt32 × Change → Except Refusal Action}
    (h : ∀ v c, m.popped = .ok (v, c) → k v (m.commit c) = planned m (f (v, c))) :
    (pop >>= k) m = planned m (m.popped.mapError .fault >>= f) := by
  rw [Decoder.bind_apply, pop_apply]
  cases hp : m.popped with
  | ok p => exact h p.1 p.2 hp
  | error f => rfl

/-- Both sides write an operand, and go on behind it. -/
theorem writeOperand_then {o : Operand} {w : Width} {v : UInt32}
    {k : Unit → Routine (Option UInt32)} {f : Change → Except Refusal Action}
    (h : ∀ c, m.write w o v m.unchanged = .ok c → k () (m.commit c) = planned m (f c)) :
    (writeOperand o w v >>= k) m = planned m (m.write w o v m.unchanged >>= f) := by
  rw [Decoder.bind_apply, writeOperand_apply]
  cases hw : m.write w o v m.unchanged with
  | ok c => exact h c hw
  | error r => cases r <;> rfl

theorem target_of_write {o : Operand} {w : Width} {v : UInt32} {c c' : Change}
    (h : m.write w o v c = .ok c') : c'.target = c.target := by
  cases o with
  | reg r => cases h; rfl
  | reg8 r => cases h; rfl
  | mem base d =>
    simp only [Machine.write] at h
    split at h
    · cases h; rfl
    · cases h
  | _ => cases h

/-- A written operand is the end of an instruction. -/
theorem return_commit {o : Operand} {w : Width} {v : UInt32} {c : Change}
    (h : m.write w o v m.unchanged = .ok c) :
    (pure none : Routine (Option UInt32)) (m.commit c) = planned m (pure (.commit c)) := by
  have htarget : c.target = none := target_of_write h
  show _ = EStateM.Result.ok c.target (m.commit c)
  rw [htarget]
  rfl

/-- New flags do not matter to the write of an operand. -/
theorem write_flags_bind (o : Operand) (w : Width) (v : UInt32) (f : Flags)
    (k : Change → Except Refusal Action) :
    m.write w o v { m.unchanged with flags := f } >>= k
      = m.write w o v m.unchanged >>= fun c => k { c with flags := f } := by
  cases o with
  | mem base d =>
    simp only [Machine.write, Machine.unchanged]
    by_cases h : m.memory.Fits (m.registers.get base + Word.ofSigned d) w.size
    · simp only [h, if_true]
      rfl
    · simp only [h, if_false]
      rfl
  | _ => rfl

theorem commit_flags (m : Machine) (c : Change) (f : Flags) :
    m.commit { c with flags := f } = { m.commit c with flags := f } := by
  obtain ⟨registers, flags, _ | s, target⟩ := c <;> rfl

/-- **An instruction is carried out in order as it is carried out at once.** -/
theorem process_apply {i : Instruction} (h : i.WellFormed) (next : UInt32) (m : Machine) :
    process i next m = planned m (m.plan i next) := by
  obtain ⟨op, w, left, right⟩ := i
  cases op with
  | mov =>
    exact readOperand_then right w fun v => writeOperand_then fun c hc => return_commit hc
  | add =>
    exact readOperand_then left w fun a => readOperand_then right w fun b =>
      writeOperand_then fun c hc => return_commit hc
  | sub =>
    refine readOperand_then left w fun a => readOperand_then right w fun b => ?_
    -- the flags are set when the result has been written, and a failed write keeps them
    rw [write_flags_bind]
    refine writeOperand_then fun c hc => ?_
    have htarget : c.target = none := target_of_write hc
    show EStateM.Result.ok none { m.commit c with flags := Flags.ofSub a b }
      = EStateM.Result.ok c.target (m.commit { c with flags := Flags.ofSub a b })
    rw [commit_flags m c (Flags.ofSub a b), htarget]
  | cmp =>
    exact readOperand_then left w fun a => readOperand_then right w fun b => rfl
  | inc =>
    exact readOperand_then left w fun a => writeOperand_then fun c hc => return_commit hc
  | push =>
    refine readOperand_then left .dword fun v => push_then v fun c hc => ?_
    rw [change_of_pushed hc]
    rfl
  | pop =>
    obtain ⟨r, rfl⟩ := h
    -- a register can always be written, so that no fault sees the moved stack pointer
    refine pop_then fun v c hc => ?_
    rw [change_of_popped hc, Decoder.bind_apply, writeOperand, setReg_apply]
    rfl
  | call =>
    obtain ⟨d, rfl⟩ := h
    exact push_then next fun c _ => rfl
  | ret => exact pop_then fun v c _ => rfl
  | leave =>
    -- the only access that can fail comes before both registers are written
    show (getReg .ebp >>= _) m = _
    rw [Decoder.bind_apply, getReg_apply]
    refine readWord_then _ fun saved => ?_
    rw [Decoder.bind_apply, setReg_apply]
    simp only [Decoder.bind_apply, setReg_apply]
    rfl
  | jmp =>
    obtain ⟨d, rfl⟩ := h
    rfl
  | jcc c =>
    obtain ⟨d, rfl⟩ := h
    rfl
  | input =>
    obtain ⟨⟨r, rfl⟩, -⟩ := h
    -- the byte goes to a register, so that none is lost once the console has given it away
    exact readOperand_then right .dword fun a => portIn_apply a.toUInt16 r m
  | output =>
    refine readOperand_then left .dword fun a => readOperand_then right .byte fun v => ?_
    rw [Decoder.bind_apply, portOut_apply]
    show _ = carried m (.output a.toUInt16 [Word.byte v 0])
    rw [carried, Machine.carryOut]
    rcases m.console.output a.toUInt16 [Word.byte v 0] with ⟨reason | _, console⟩ <;> rfl
  | interrupt =>
    exact readOperand_then left .byte fun vector => interrupt_apply (Word.byte vector 0) m

/-- What a well-formed instruction asks for can be worked out, so that no check fails. -/
theorem process_ne_crash {i : Instruction} (h : i.WellFormed) (next : UInt32) (c : Crash)
    (m m' : Machine) : process i next m ≠ .error (.crash c) m' := by
  have hplan := m.plan_ne_malformed h next
  rw [process_apply h]
  rcases hp : m.plan i next with (f | _) | action
  · simp [planned, answer]
  · exact absurd hp hplan
  · simp only [planned, carried]
    rcases m.carryOut action with ⟨f | target, m''⟩ <;> simp

/-! ### Fetching -/

theorem decode_apply (eip : UInt32) (m : Machine) {decoded : Decoded Instruction}
    (hd : Decoder.instruction.decode (m.memory.slice eip.toNat Decoder.maxLength) = decoded) :
    decode eip m
      = match decoded.result with
        | .ok i => .ok (i, decoded.consumed.length) m
        | .error e => .error (.error (.decode eip decoded.consumed e)) m := by
  rw [Memory.slice_eq_take_drop, Memory.toList] at hd
  obtain ⟨hconsumed, hlen, hread⟩ := instruction_apply _ eip.toNat_lt hd
  rw [decode, Decoder.bind_apply, get_apply]
  simp only [hread]
  cases decoded.result with
  | ok i => rfl
  | error e =>
    have heip := eip.toNat_lt
    have hroom : eip.toNat + decoded.consumed.length < UInt64.size := by
      unfold Decoder.maxLength at hlen
      unfold UInt64.size
      omega
    -- the bytes that are reported do not go beyond those that were read
    have htake : ((m.memory.slice 0 m.memory.size).drop eip.toNat).take
        (min (eip.toNat + decoded.consumed.length) (m.memory.slice 0 m.memory.size).length
          - eip.toNat) = decoded.consumed := by
      refine Eq.trans ?_ hconsumed.symm
      rw [List.take_eq_take_iff, List.length_drop]
      omega
    simp only [addSize_of_lt hroom, pure_bind, fail_apply, htake]

/-- What comes of carrying out the instruction at the instruction pointer, where moving on is left
out. -/
theorem executeNext_apply (m : Machine) :
    executeNext m
      = match m.prepare with
        | .ok (fetched, action) =>
          match m.carryOut action with
          | (.ok target, m') =>
            .ok () { m' with
              eip := target.getD fetched.next
              log := m'.log.push (.executed m.eip fetched.opcode fetched.instruction m'.flags) }
          | (.error f, m') => .error (.error f) m'
        | .error r => answer m (.error r) := by
  rw [executeNext, Decoder.bind_apply, get_apply]
  simp only [Decoder.bind_apply, readByte_apply, Machine.prepare, Machine.fetch]
  by_cases hfits : m.memory.Fits m.eip 1
  · simp only [hfits, if_true]
    rw [decode_apply m.eip m rfl]
    cases hresult : (Decoder.instruction.decode
        (m.memory.slice m.eip.toNat Decoder.maxLength)).result with
    | error e => rfl
    | ok i =>
      -- what has been decoded is well-formed, so that both machines carry it out alike
      simp only [process_apply (wellFormed_of_decode hresult)]
      rcases m.plan i _ with (f | _) | action
      · rfl
      · rfl
      · simp only [planned, carried]
        rcases m.carryOut action with ⟨f | target, m'⟩ <;> rfl
  · simp only [hfits, if_false]
    rfl

end Boot386.Checked.Routine
