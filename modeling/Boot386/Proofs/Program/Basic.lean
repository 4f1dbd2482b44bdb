import Boot386.Proofs.Encoding.Standard
import Boot386.Proofs.Machine.Input
import Boot386.Proofs.Machine.Frame

/-!
# Programs

An image is placed at the origin of a machine with the default configuration and carried out there.
`Program.Executes image k rs flags console n m` describes the machine `m` in the middle of it: the
instruction at offset `k` of the image is the next one, `n` instructions have been completed, and
the image is still where it has been placed.

* `executes_load`: loading an image begins its execution at offset 0.
* Each kind of instruction has one lemma, which takes the description of a machine to that of the
  next one. The instruction has to be found in the image, and nothing else is asked about the
  memory.
* `Executes.exit`: pushing a zero and returning to it ends the program, and so the whole run
  (`Executes.execute`).

So the execution of a program is put together from the lemmas of its instructions, one machine after
the other, and a loop from the lemma for one turn of it.
-/

namespace Boot386

namespace Program

open InstructionSet (Encodes conditionOpcode)

/-! ### Encodings -/

theorem encodes_mov (r : Reg) (v : UInt32) :
    Encodes ((0xb8 + UInt8.ofNat r.code.val) :: Word.toBytes v)
      ⟨.mov, .dword, .reg r, .imm v⟩ := by
  refine ⟨⟨.family 0xb8, .mov, .dword, .code, .imm32⟩, by decide,
    ⟨0xb8 + UInt8.ofNat r.code.val, 0, [], Word.toBytes v⟩,
    InstructionSet.admits_plain rfl (covers_add rfl _) rfl rfl, rfl, ?_⟩
  rw [InstructionSet.Row.instruction, InstructionSet.operand_code rfl]
  simp [InstructionSet.Slot.operand, Word.unsigned_toBytes, Operand.ofCode]

theorem encodes_inc (r : Reg) :
    Encodes [0x40 + UInt8.ofNat r.code.val] ⟨.inc, .dword, .reg r, .absent⟩ := by
  refine ⟨⟨.family 0x40, .inc, .dword, .code, .absent⟩, by decide,
    ⟨0x40 + UInt8.ofNat r.code.val, 0, [], []⟩,
    InstructionSet.admits_plain rfl (covers_add rfl _) rfl rfl, rfl, ?_⟩
  rw [InstructionSet.Row.instruction, InstructionSet.operand_code rfl]
  simp [InstructionSet.Slot.operand, Operand.ofCode]

theorem encodes_cmpByte (b : UInt8) :
    Encodes [0x3c, b] ⟨.cmp, .byte, .reg8 .al, .imm b.toUInt32⟩ := by
  refine ⟨⟨.one 0x3c, .cmp, .byte, .fixed (.reg8 .al), .imm8⟩, by decide, ⟨0x3c, 0, [], [b]⟩,
    InstructionSet.admits_plain rfl rfl rfl rfl, rfl, ?_⟩
  rw [InstructionSet.Row.instruction, InstructionSet.operand_imm8 rfl]
  rfl

theorem encodes_cmpWord (v : UInt32) :
    Encodes (0x3d :: Word.toBytes v) ⟨.cmp, .dword, .reg .eax, .imm v⟩ := by
  refine ⟨⟨.one 0x3d, .cmp, .dword, .fixed (.reg .eax), .imm32⟩, by decide,
    ⟨0x3d, 0, [], Word.toBytes v⟩, InstructionSet.admits_plain rfl rfl rfl rfl, rfl, ?_⟩
  simp [InstructionSet.Row.instruction, InstructionSet.Slot.operand, Word.unsigned_toBytes]

theorem encodes_jcc (cond : Condition) (d : UInt8) :
    Encodes [conditionOpcode cond, d]
      ⟨.jcc cond, .byte, .rel (Word.signExtend d), .absent⟩ := by
  refine ⟨⟨.one (conditionOpcode cond), .jcc cond, .byte, .rel8, .absent⟩, ?_,
    ⟨conditionOpcode cond, 0, [], [d]⟩,
    InstructionSet.admits_plain rfl (beq_self_eq_true _) rfl rfl, rfl, rfl⟩
  cases cond <;> decide

theorem encodes_pushByte (b : UInt8) :
    Encodes [0x6a, b]
      ⟨.push, .dword, .imm (Word.ofSigned (Word.signExtend b)), .absent⟩ :=
  ⟨⟨.one 0x6a, .push, .dword, .imm8Signed, .absent⟩, by decide, ⟨0x6a, 0, [], [b]⟩,
    InstructionSet.admits_plain rfl rfl rfl rfl, rfl, rfl⟩

theorem encodes_input : Encodes [0xec] ⟨.input, .byte, .reg8 .al, .dx⟩ :=
  ⟨⟨.one 0xec, .input, .byte, .fixed (.reg8 .al), .fixed .dx⟩, by decide, ⟨0xec, 0, [], []⟩,
    InstructionSet.admits_plain rfl rfl rfl rfl, rfl, rfl⟩

theorem encodes_output : Encodes [0xee] ⟨.output, .byte, .dx, .reg8 .al⟩ :=
  ⟨⟨.one 0xee, .output, .byte, .fixed .dx, .fixed (.reg8 .al)⟩, by decide, ⟨0xee, 0, [], []⟩,
    InstructionSet.admits_plain rfl rfl rfl rfl, rfl, rfl⟩

/-! ### Descriptions of a machine -/

/-- Where images are placed. -/
abbrev origin : UInt32 := ({} : Config).origin

/-- The address of the byte at an offset of an image. -/
def address (k : Nat) : UInt32 :=
  origin + UInt32.ofNat k

/-- A machine that executes an image: where it is, what the guest and the console have come to, and
how many instructions have been completed. -/
structure Executes (image : List UInt8) (k : Nat) (rs : Registers) (flags : Flags)
    (console : Console) (n : Nat) (m : Machine) : Prop where
  status : m.status = .running
  config : m.config = {}
  size : m.memory.size = 1048576
  /-- The image has not been overwritten. -/
  code : m.memory.Holds origin image
  eip : m.eip = address k
  registers : m.registers = rs
  flags : m.flags = flags
  console : m.console = console
  steps : m.steps = n

variable {image : List UInt8} {k n : Nat} {rs : Registers} {fl : Flags} {c : Console} {m : Machine}

/-- The execution of an image that fits begins with its first byte. -/
theorem executes_load (h : image.length ≤ 1016832) (host : Host) :
    ∃ m, Machine.load (.boot {} host) image = .ok m ∧
      Executes image 0 { esp := origin } {} { host := host } 0 m := by
  -- behind the origin there is room for 1016832 bytes
  have hfits : (Memory.ofSize 1048576).Fits origin image.length := by
    have horigin : origin.toNat = 31744 := rfl
    rw [Memory.Fits, Memory.size_ofSize, horigin]
    omega
  refine ⟨{ Machine.boot {} host with
    memory := (Memory.ofSize 1048576).store origin.toNat image }, ?_, ?_⟩
  · have hfits' : (Machine.boot {} host).memory.Fits (Machine.boot {} host).config.origin
        image.length := hfits
    simp only [Machine.load, Memory.place, hfits', if_true]
    rfl
  · exact {
      status := rfl
      config := rfl
      size := by rw [Memory.size_store, Memory.size_ofSize]
      code := Memory.holds_store_self hfits
      eip := rfl
      registers := rfl
      flags := rfl
      console := rfl
      steps := rfl }

/-- An instruction in an image ends inside the image. -/
theorem add_length_le {code : List UInt8} {i : Instruction} (hcode : Encodes code i)
    (hat : code <+: image.drop k) : k + code.length ≤ image.length := by
  have hpos : 0 < code.length := by
    obtain ⟨row, -, p, -, rfl, -⟩ := hcode
    exact Nat.zero_lt_succ _
  have hle := hat.length_le
  rw [List.length_drop] at hle
  omega

namespace Executes

section Steps

variable (h : Executes image k rs fl c n m)

include h

/-- The image ends before the memory does, so that addresses in it do not wrap. -/
theorem toNat_address {j : Nat} (hj : j ≤ image.length) : (address j).toNat = 31744 + j := by
  have hroom := h.code.length_le
  have horigin : origin.toNat = 31744 := rfl
  rw [h.size, horigin] at hroom
  rw [address, UInt32.toNat_add, UInt32.toNat_ofNat', horigin]
  omega

theorem address_ne_zero {j : Nat} (hj : j ≤ image.length) : address j ≠ 0 := by
  intro hzero
  have haddress := h.toNat_address hj
  rw [hzero, UInt32.toNat_zero] at haddress
  omega

/-- An instruction in the image is decoded as such. -/
theorem decoded {code : List UInt8} {i : Instruction} (hcode : Encodes code i)
    (hat : code <+: image.drop k) : m.decoded = (.ok i, code.length) := by
  have hk : k ≤ image.length := Nat.le_of_add_right_le (add_length_le hcode hat)
  refine Machine.decoded_of_holds hcode (h.code.part hat ?_)
  rw [h.eip, h.toNat_address hk]
  rfl

/-- The step of an instruction in the image whose data access, if it has one, is inside the memory.
-/
theorem step_eq {code : List UInt8} {i : Instruction} (hcode : Encodes code i)
    (hat : code <+: image.drop k) (hin : m.Inside (i.access? m.registers)) :
    m.step = m.perform ⟨m.memory.byteAt m.eip.toNat, i, address (k + code.length)⟩
      (m.intended i (address (k + code.length))) := by
  have hnext : m.eip + UInt32.ofNat code.length = address (k + code.length) := by
    rw [h.eip, address, address, UInt32.add_assoc, ← UInt32.ofNat_add]
  rw [Machine.step_of_inside h.status (h.decoded hcode hat) hin, hnext]

/-- Once its action is done, an instruction is completed and the next one is that at offset `j`. -/
theorem complete {fetched : Machine.Fetched} {target : Option UInt32} {j : Nat}
    (hj : j ≤ image.length) (htarget : target.getD fetched.next = address j) :
    Executes image j rs fl c (n + 1) (m.complete fetched target) where
  status := by
    rw [Machine.status_complete_eq, htarget, if_neg fun hzero => h.address_ne_zero hj hzero.2,
      h.status]
  config := by rw [Machine.config_complete, h.config]
  size := by rw [Machine.memory_complete, h.size]
  code := by rw [Machine.memory_complete]; exact h.code
  eip := by rw [Machine.eip_complete, htarget]
  registers := by rw [Machine.registers_complete, h.registers]
  flags := by rw [Machine.flags_complete, h.flags]
  console := by rw [Machine.console_complete, h.console]
  steps := by rw [Machine.steps_complete, h.steps]

end Steps

/-! ### Single instructions -/

section Instructions

variable (h : Executes image k rs fl c n m)

include h

/-- An instruction that asks for a change makes it, and the next instruction is where the change
says. -/
theorem commit {code : List UInt8} {i : Instruction} (hcode : Encodes code i)
    (hat : code <+: image.drop k) (hin : m.Inside (i.access? m.registers)) {ch : Change}
    (hch : m.intended i (address (k + code.length)) = .commit ch)
    (hkept : (m.commit ch).memory.Holds origin image) {j : Nat} (hj : j ≤ image.length)
    (htarget : ch.target.getD (address (k + code.length)) = address j) :
    Executes image j ch.registers ch.flags c (n + 1) m.step ∧
      m.step.memory = (m.commit ch).memory := by
  -- the change is made, and the instruction is still to be completed
  have hdone : Executes image k ch.registers ch.flags c n (m.commit ch) := {
    status := by rw [Machine.status_commit, h.status]
    config := by rw [Machine.config_commit, h.config]
    size := by rw [Machine.size_memory_commit, h.size]
    code := hkept
    eip := by rw [Machine.eip_commit, h.eip]
    registers := Machine.registers_commit m ch
    flags := Machine.flags_commit m ch
    console := by rw [Machine.console_commit, h.console]
    steps := by rw [Machine.steps_commit, h.steps] }
  rw [h.step_eq hcode hat hin, hch, Machine.perform_of_ok rfl]
  exact ⟨hdone.complete hj htarget, Machine.memory_complete ..⟩

/-- An instruction that changes nothing but registers and flags is followed by the one behind it. -/
theorem compute {code : List UInt8} {i : Instruction} (hcode : Encodes code i)
    (hat : code <+: image.drop k) (hin : m.Inside (i.access? m.registers)) {rs' : Registers}
    {fl' : Flags}
    (hch : m.intended i (address (k + code.length)) = .commit { registers := rs', flags := fl' }) :
    Executes image (k + code.length) rs' fl' c (n + 1) m.step :=
  (h.commit hcode hat hin hch h.code (add_length_le hcode hat) rfl).1

/-- `mov r, v` -/
theorem mov {r : Reg} {v : UInt32}
    (hat : (0xb8 + UInt8.ofNat r.code.val) :: Word.toBytes v <+: image.drop k) :
    Executes image (k + 5) (rs.set r v) fl c (n + 1) m.step := by
  obtain rfl := h.registers
  obtain rfl := h.flags
  exact h.compute (encodes_mov r v) hat trivial rfl

/-- `inc r` -/
theorem inc {r : Reg} (hat : [0x40 + UInt8.ofNat r.code.val] <+: image.drop k) :
    Executes image (k + 1) (rs.set r (rs.get r + 1)) fl c (n + 1) m.step := by
  obtain rfl := h.registers
  obtain rfl := h.flags
  exact h.compute (encodes_inc r) hat trivial rfl

/-- `cmp al, b` -/
theorem cmpByte {b : UInt8} (hat : [0x3c, b] <+: image.drop k) :
    Executes image (k + 2) rs (Flags.ofSub (rs.get8 .al).toUInt32 b.toUInt32) c (n + 1) m.step := by
  obtain rfl := h.registers
  exact h.compute (encodes_cmpByte b) hat trivial rfl

/-- `cmp eax, v` -/
theorem cmpWord {v : UInt32} (hat : 0x3d :: Word.toBytes v <+: image.drop k) :
    Executes image (k + 5) rs (Flags.ofSub (rs.get .eax) v) c (n + 1) m.step := by
  obtain rfl := h.registers
  exact h.compute (encodes_cmpWord v) hat trivial rfl

/-- A conditional jump to the offset `j` of the image. -/
theorem jcc {cond : Condition} {d : UInt8} (hat : [conditionOpcode cond, d] <+: image.drop k)
    {j : Nat} (hj : j ≤ image.length)
    (htarget : Machine.jumpTarget (address (k + 2)) (Word.signExtend d) = address j) :
    Executes image (if cond.holds fl then j else k + 2) rs fl c (n + 1) m.step := by
  obtain rfl := h.registers
  obtain rfl := h.flags
  refine (h.commit (encodes_jcc cond d) hat trivial rfl h.code ?_ ?_).1
  · split
    · exact hj
    · exact add_length_le (encodes_jcc cond d) hat
  · split
    · exact htarget
    · rfl

/-- `in al, dx`, where `dx` is the address of the console. -/
theorem input (hat : [0xec] <+: image.drop k) (hdx : (rs.get .edx).toUInt16 = Console.address)
    {s : List UInt8} (hs : c.host.Supplies s) :
    ∃ c', c'.sent = c.sent ∧ c'.host.Supplies s.tail ∧
      Executes image (k + 1) (rs.set8 .al (s.headD 0)) fl c' (n + 1) m.step := by
  obtain rfl := h.registers
  obtain rfl := h.console
  obtain ⟨received, c', hinput, hvalue, hsent, hhost⟩ := hs.receive
  have hport : m.console.input m.port = (.ok received, c') := (if_pos hdx).trans hinput
  -- whether an end of input is noted in the log does not matter
  obtain ⟨log, hdone, -⟩ := Machine.carryOut_input_eq hport .al
  refine ⟨c', hsent, hhost, ?_⟩
  have hintended : m.intended ⟨.input, .byte, .reg8 .al, .dx⟩ (address (k + 1))
      = .input m.port .al := by
    simp only [Machine.intended, Machine.toUInt16_value_dx]
  have hstep := h.step_eq encodes_input hat trivial
  rw [List.length_singleton, hintended, Machine.perform_of_ok (congrArg Prod.fst hdone), hdone,
    hvalue] at hstep
  have hread : Executes image k (m.registers.set8 .al (s.headD 0)) fl c' n
      { m with console := c', registers := m.registers.set8 .al (s.headD 0), log := log } :=
    { h with registers := rfl, console := rfl }
  rw [hstep]
  exact hread.complete (add_length_le encodes_input hat) rfl

/-- `out dx, al`, where `dx` is the address of the console. -/
theorem output (hat : [0xee] <+: image.drop k) (hdx : (rs.get .edx).toUInt16 = Console.address)
    {s : List UInt8} (hs : c.host.Supplies s) :
    ∃ c', c'.sent.toList = c.sent.toList ++ [rs.get8 .al] ∧ c'.host.Supplies s ∧
      Executes image (k + 1) rs fl c' (n + 1) m.step := by
  obtain rfl := h.registers
  obtain rfl := h.console
  obtain ⟨hok, hsent, hhost⟩ := hs.sendAll [m.registers.get8 .al]
  -- the byte goes to the console, whose host takes it
  have hport : m.console.output m.port [m.registers.get8 .al]
      = m.console.sendAll [m.registers.get8 .al] := if_pos hdx
  rw [← hport] at hok hsent hhost
  have hdone := Machine.carryOut_output_eq hok
  refine ⟨_, hsent, hhost, ?_⟩
  have hintended : m.intended ⟨.output, .byte, .dx, .reg8 .al⟩ (address (k + 1))
      = .output m.port [m.registers.get8 .al] := by
    simp only [Machine.intended, Machine.toUInt16_value_dx]
  have hstep := h.step_eq encodes_output hat trivial
  rw [List.length_singleton, hintended, Machine.perform_of_ok (congrArg Prod.fst hdone), hdone]
    at hstep
  -- only the console has changed when the instruction is completed
  have hwritten : Executes image k m.registers fl
      (m.console.output m.port [m.registers.get8 .al]).2 n
      { m with console := (m.console.output m.port [m.registers.get8 .al]).2 } :=
    { h with registers := rfl, console := rfl }
  rw [hstep]
  exact hwritten.complete (add_length_le encodes_output hat) rfl

/-! ### Leaving -/

/-- `push b`, where the stack is empty. The word is stored below the image. -/
theorem push {b : UInt8} (hat : [0x6a, b] <+: image.drop k) (hesp : rs.get .esp = origin) :
    Executes image (k + 2) (rs.set .esp (origin - 4)) fl c (n + 1) m.step ∧
      m.step.memory.operandAt .dword (origin - 4).toNat
        = Word.ofSigned (Word.signExtend b) := by
  obtain rfl := h.registers
  obtain rfl := h.flags
  have hplace : (origin - 4).toNat = 31740 := rfl
  -- the word below the origin is inside the memory
  have hin : m.Inside (some (m.registers.get .esp - 4, 4)) := by
    show (m.registers.get .esp - 4).toNat + 4 ≤ m.memory.size
    rw [hesp, hplace, h.size]
    decide
  let v := Word.ofSigned (Word.signExtend b)
  have hch : m.intended ⟨.push, .dword, .imm v, .absent⟩ (address (k + 2))
      = .commit (m.pushing v) := rfl
  have hmem : (m.commit (m.pushing v)).memory
      = m.memory.store (origin - 4).toNat (Word.toBytes v) := by
    rw [Machine.memory_commit_of_store rfl, hesp]
    rfl
  -- and it is below the image
  have hkept : (m.commit (m.pushing v)).memory.Holds origin image := by
    rw [hmem]
    refine h.code.store (.inr ?_)
    rw [hplace, Word.length_toBytes]
    decide
  obtain ⟨hnext, hmem'⟩ := h.commit (encodes_pushByte b) hat hin hch hkept
    (add_length_le (encodes_pushByte b) hat) rfl
  rw [Machine.pushing, hesp] at hnext
  refine ⟨hnext, ?_⟩
  rw [hmem', hmem, Memory.operandAt_store_self]
  rw [hplace, h.size]
  decide

/-- `ret` to address zero ends the program. -/
theorem ret (hat : [0xc3] <+: image.drop k) (hin : m.memory.Fits (rs.get .esp) 4)
    (htop : m.memory.operandAt .dword (rs.get .esp).toNat = 0) :
    m.step.status = .ended ∧ m.step.eip = 0 ∧
      m.step.registers = rs.set .esp (rs.get .esp + 4) ∧ m.step.console = c ∧
      m.step.steps = n + 1 := by
  obtain rfl := h.registers
  -- the word on top of the stack is where the guest goes on
  have hch : m.intended ⟨.ret, .dword, .absent, .absent⟩ (address (k + 1))
      = .commit { m.popping with target := some 0 } := by
    rw [← htop]
    rfl
  have hstep := h.step_eq StackFrame.encodes_ret hat hin
  rw [List.length_singleton, hch, Machine.perform_of_ok rfl] at hstep
  rw [hstep]
  refine ⟨?_, ?_, ?_, ?_, ?_⟩
  · rw [Machine.status_complete_eq, Machine.carryOut, Machine.config_commit, h.config]
    exact if_pos ⟨rfl, rfl⟩
  · rw [Machine.eip_complete]
    rfl
  · rw [Machine.registers_complete, Machine.carryOut, Machine.registers_commit]
    rfl
  · rw [Machine.console_complete, Machine.carryOut, Machine.console_commit, h.console]
  · rw [Machine.steps_complete, Machine.carryOut, Machine.steps_commit, h.steps]

/-- `push 0` and `ret`, where the stack is empty, end the program. -/
theorem exit (hpush : [0x6a, 0] <+: image.drop k) (hret : [0xc3] <+: image.drop (k + 2))
    (hesp : rs.get .esp = origin) :
    (m.run 2).status = .ended ∧ (m.run 2).eip = 0 ∧ (m.run 2).registers = rs ∧
      (m.run 2).console = c ∧ (m.run 2).steps = n + 2 := by
  obtain ⟨hnext, htop⟩ := h.push hpush hesp
  have hesp' : (rs.set .esp (origin - 4)).get .esp = origin - 4 := by
    rw [Registers.get_set, if_pos rfl]
  have hin : m.step.memory.Fits ((rs.set .esp (origin - 4)).get .esp) 4 := by
    rw [hesp', Memory.Fits, hnext.size]
    decide
  obtain ⟨hstatus, heip, hregs, hconsole, hsteps⟩ := hnext.ret hret hin (by rw [hesp', htop]; rfl)
  -- the stack pointer is back where it was
  have hback : origin - 4 + 4 = rs.get .esp := hesp.symm
  rw [hesp', hback, Registers.set_set, Registers.set_get] at hregs
  rw [Machine.run_two]
  exact ⟨hstatus, heip, hregs, hconsole, hsteps⟩

end Instructions

/-- **Whole runs.** If after `n` instructions of an image there are `push 0` and `ret`, and the
stack is empty, then executing the image ends after two more. -/
theorem execute {host : Host} (hload : Machine.load (.boot {} host) image = .ok m)
    (h : Executes image k rs fl c n (m.run n)) (hpush : [0x6a, 0] <+: image.drop k)
    (hret : [0xc3] <+: image.drop (k + 2)) (hesp : rs.get .esp = origin) :
    ∃ m', (∀ limit, n + 2 ≤ limit → Machine.execute {} host image limit = .ok m') ∧
      m'.status = .ended ∧ m'.eip = 0 ∧ m'.registers = rs ∧ m'.console = c ∧ m'.steps = n + 2 := by
  obtain ⟨hstatus, hrest⟩ := h.exit hpush hret hesp
  rw [← Machine.run_add] at hstatus hrest
  refine ⟨m.run (n + 2), fun limit hlimit => ?_, hstatus, hrest⟩
  rw [Machine.execute, hload]
  exact congrArg Except.ok (Machine.run_eq_of_le hlimit (by simp [hstatus]))

end Executes

end Program

end Boot386
