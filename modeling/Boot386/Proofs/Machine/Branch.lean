import Boot386.Proofs.Comparison
import Boot386.Proofs.Machine.Access

/-!
# Compare and branch

A comparison leaves its two operands behind as flags, and a conditional jump reads them off again. A
comparison with a conditional jump directly behind it is thus a branch on the order of the operands,
whatever the operands are and wherever they stand (`compare_branch`). Neither of the two changes a
register or a byte of memory.
-/

namespace Boot386.Machine

open InstructionSet (Encodes)

variable {m : Machine} {code : List UInt8}

/-! ### The two steps -/

/-- A comparison sets the flags of the difference, and nothing else. -/
theorem step_compare (hm : m.status = .running) {i : Instruction} (hcode : Encodes code i)
    (hcmp : i.op = .cmp) (hat : m.memory.Holds m.eip code)
    (hin : m.Inside (i.access? m.registers)) :
    m.step.registers = m.registers ∧ m.step.memory = m.memory ∧
      m.step.flags = Flags.ofSub (m.value i.width i.left) (m.value i.width i.right) ∧
      m.step.eip = m.eip + UInt32.ofNat code.length := by
  have h : m.Commits { m.unchanged with
      flags := Flags.ofSub (m.value i.width i.left) (m.value i.width i.right) } _ m.step :=
    commits_of_holds hm hcode hat hin rfl (by simp only [intended, hcmp])
  exact ⟨h.registers, h.memory.trans (memory_commit_of_no_store rfl), h.flags, h.eip⟩

/-- A conditional jump asks the flags where to go on, and changes nothing else. -/
theorem step_conditional (hm : m.status = .running) {c : Condition} {d : Int32}
    (hcode : Encodes code ⟨.jcc c, .byte, .rel d, .absent⟩) (hat : m.memory.Holds m.eip code) :
    m.step.registers = m.registers ∧ m.step.memory = m.memory ∧ m.step.flags = m.flags ∧
      m.step.eip = (if c.holds m.flags then m.eip + UInt32.ofNat code.length + Word.ofSigned d
        else m.eip + UInt32.ofNat code.length) := by
  have h := commits_of_holds hm hcode hat trivial rfl rfl
  refine ⟨h.registers, h.memory.trans (memory_commit_of_no_store rfl), h.flags, ?_⟩
  rw [h.eip]
  show Option.getD (if c.holds m.flags then _ else _) _ = _
  split <;> rfl

/-! ### The branch -/

/-- The comparison of `al` with a constant byte. -/
theorem eq_of_encodes_compare_al {k : UInt8} {i : Instruction} (h : Encodes [0x3c, k] i) :
    i = ⟨.cmp, .byte, .reg8 .al, .imm k.toUInt32⟩ := by
  have hdecode : Decoder.instructionAt [0x3c, k] 0
      = (.ok ⟨.cmp, .byte, .reg8 .al, .imm k.toUInt32⟩, 2) := by rfl
  have hread : Decoder.instructionAt [0x3c, k] 0 = (.ok i, 2) :=
    InstructionSet.instructionAt_of_encodes (Nat.le_refl 2) h
  rw [hread] at hdecode
  exact Except.ok.inj (Prod.mk.inj hdecode).1

/-- **Compare and branch.** Let the machine stand before a comparison with a conditional jump
directly behind it, and let the operand that stands in memory, if there is one, be inside. If the
comparison does not end the program, then after two steps registers and memory are as before, and
the guest goes on at the target of the jump if the operands compare as the condition says, and
behind the jump if they do not. After the comparison of `al` with a constant byte there is no
overflow, and less means the order of the two bytes. -/
theorem compare_branch (hm : m.status = .running) {jump : List UInt8} {i : Instruction}
    {c : Condition} {d : Int32} (hcode : Encodes code i) (hcmp : i.op = .cmp)
    (hjump : Encodes jump ⟨.jcc c, .byte, .rel d, .absent⟩) (hat : m.memory.Holds m.eip code)
    (hbehind : m.memory.Holds (m.eip + UInt32.ofNat code.length) jump)
    (hin : m.Inside (i.access? m.registers))
    (hrun : m.step.status = .running) :
    let a := m.value i.width i.left
    let b := m.value i.width i.right
    let behind := m.eip + UInt32.ofNat code.length + UInt32.ofNat jump.length
    (m.run 2).registers = m.registers ∧ (m.run 2).memory = m.memory ∧
    (m.run 2).eip = (if c.Compares a b then behind + Word.ofSigned d else behind) ∧
    ∀ k, code = [0x3c, k] →
      (c = .overflow → (m.run 2).eip = behind) ∧
      (c = .less → (m.run 2).eip
        = if m.registers.get8 .al < k then behind + Word.ofSigned d else behind) := by
  intro a b behind
  obtain ⟨hregs, hmem, hflags, heip⟩ := step_compare hm hcode hcmp hat hin
  -- the comparison has not touched the code of the jump
  have hat' : m.step.memory.Holds m.step.eip jump := by rwa [hmem, heip]
  obtain ⟨hregs', hmem', -, heip'⟩ := step_conditional hrun hjump hat'
  have hrun2 : m.run 2 = m.step.step := by rw [run_succ, run_succ, run_zero]
  have htarget : (m.run 2).eip
      = if c.Compares a b then behind + Word.ofSigned d else behind := by
    rw [hrun2, heip', heip, hflags]
    exact if_congr (Condition.holds_ofSub_iff c a b) rfl rfl
  refine ⟨by rw [hrun2, hregs', hregs], by rw [hrun2, hmem', hmem], htarget, ?_⟩
  rintro k rfl
  obtain rfl := eq_of_encodes_compare_al hcode
  -- the operands are two bytes that are zero-extended
  obtain ⟨hover, hless⟩ := Condition.compares_toUInt32 (m.registers.get8 .al) k
  refine ⟨?_, ?_⟩
  · rintro rfl
    rw [htarget]
    exact if_neg hover
  · rintro rfl
    rw [htarget]
    exact if_congr hless rfl rfl

/-- `cmp dword [eax-4], ecx` and `jl` by five where the word in memory is the least number there is,
so that its difference to one does not fit; and `cmp al, 0xf0` and `jl` back to its start where `al`
has its top bit set. Both jumps are taken. -/
theorem compare_branch_least :
    let m : Machine := { boot ⟨20, 0, true⟩ {} with
      registers := { eax := 20, ecx := 1 }
      memory := (Memory.ofSize 20).store 0
        [0x39, 0x48, 0xfc, 0x7c, 0x05, 0, 0, 0, 0, 0, 0, 0, 0, 0, 0, 0, 0, 0, 0, 0x80] }
    let m' : Machine := { boot ⟨4, 0, false⟩ {} with
      registers := { eax := 0x80 }
      memory := (Memory.ofSize 4).store 0 [0x3c, 0xf0, 0x7c, 0xfc] }
    m.status = .running ∧ m.step.status = .running ∧ m.memory.Fits 16 4 ∧
    m.value .dword (.mem .eax (-4)) = 0x80000000 ∧ (m.run 2).eip = 10 ∧
    (m.run 2).registers = m.registers ∧ (m.run 2).memory = m.memory ∧
    m'.status = .running ∧ m'.step.status = .running ∧ (m'.run 2).eip = 0 := by
  intro m m'
  -- the two comparisons and the jumps behind them
  have hcmp : Encodes [0x39, 0x48, 0xfc] ⟨.cmp, .dword, .mem .eax (-4), .reg .ecx⟩ :=
    ⟨⟨.one 0x39, .cmp, .dword, .rm, .reg⟩, by decide, ⟨0x39, 0x48, [0xfc], []⟩,
      ⟨rfl, rfl, fun _ => by decide, fun _ => rfl, rfl⟩, rfl, rfl⟩
  have hcmp' : Encodes [0x3c, 0xf0] ⟨.cmp, .byte, .reg8 .al, .imm 0xf0⟩ :=
    ⟨⟨.one 0x3c, .cmp, .byte, .fixed (.reg8 .al), .imm8⟩, by decide, ⟨0x3c, 0, [], [0xf0]⟩,
      ⟨rfl, rfl, nofun, nofun, rfl⟩, rfl, rfl⟩
  have hjl : ∀ b : UInt8,
      Encodes [0x7c, b] ⟨.jcc .less, .byte, .rel (Word.signExtend b), .absent⟩ :=
    fun b => ⟨⟨.one 0x7c, .jcc .less, .byte, .rel8, .absent⟩, by decide, ⟨0x7c, 0, [], [b]⟩,
      ⟨rfl, rfl, nofun, nofun, rfl⟩, rfl, rfl⟩
  -- the comparisons are completed, as the word is inside the memory
  have hrun : m.step.status = .running := by decide +kernel
  have hrun' : m'.step.status = .running := by decide +kernel
  have hfits : m.memory.Fits 16 4 := by decide
  have hword : Instruction.access? ⟨.cmp, .dword, .mem .eax (-4), .reg .ecx⟩ m.registers
      = some (16, 4) := by decide +kernel
  -- in both machines the operand is less as a signed number
  obtain ⟨hregs, hmem, heip, -⟩ := compare_branch (m := m) rfl hcmp rfl (hjl 5)
    (by decide +kernel) (by decide +kernel) (by rw [hword]; exact hfits) hrun
  obtain ⟨-, -, -, hbyte⟩ := compare_branch (m := m') rfl hcmp' rfl (hjl 0xfc)
    (by decide +kernel) (by decide +kernel) trivial hrun'
  refine ⟨rfl, hrun, hfits, by decide +kernel, ?_, hregs, hmem, rfl, hrun', ?_⟩
  · rw [heip]
    decide +kernel
  · rw [(hbyte 0xf0 rfl).2 rfl]
    decide +kernel

end Boot386.Machine
