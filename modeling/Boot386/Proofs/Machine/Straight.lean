import Boot386.Proofs.Machine.Effect

/-!
# Straight code

An instruction that does not take the guest elsewhere takes it to the byte behind itself, and an
instruction that can be fetched lies inside the memory. As long as addresses do not wrap, that is
with less than `2 ^ 32` bytes of memory, the instruction pointer then grows with each instruction
and never passes the end of the memory (`eip_step_of_not_transfers`). What is left of the memory
bounds how many instructions there can be, whatever they write, be it over code that is still to
come.

So code without calls, returns and jumps always halts (`straight_code_halts`). It halts in a fault,
as the instruction pointer has only grown and is not zero.
-/

namespace Boot386.Machine

variable {m : Machine}

/-- The next step completes an instruction that takes the guest elsewhere. -/
def Transfers (m : Machine) : Prop :=
  m.completes = true ∧ ∃ i n, m.decoded = (.ok i, n) ∧ i.Jumps m.flags

/-! ### Steps -/

/-- **The guest moves on.** An instruction that does not take the guest elsewhere takes it forward
by its own length, and at most to the end of the memory. -/
theorem eip_step_of_not_transfers (hsize : m.memory.size < 4294967296)
    (hdone : m.completes = true) (hno : ¬ m.Transfers) :
    ∃ i len, m.decoded = (.ok i, len) ∧ 1 ≤ len ∧ len ≤ Decoder.maxLength ∧
      m.step.eip.toNat = m.eip.toNat + len ∧ m.step.eip.toNat ≤ m.memory.size := by
  obtain ⟨hm, hok⟩ := (completes_iff m).1 hdone
  obtain ⟨i, len, target, h⟩ := exists_completed hm hok
  obtain ⟨hone, hmost, hinside⟩ := Decoder.length_of_instructionAt h.decoded
  rw [Memory.length_toList] at hinside
  have hstay : ¬ i.Jumps m.flags := fun hjump => hno ⟨hdone, i, len, h.decoded, hjump⟩
  have heip : m.step.eip.toNat = m.eip.toNat + len := by
    rw [h.eip_eq hstay, UInt32.toNat_add, UInt32.toNat_ofNat']
    omega
  exact ⟨i, len, h.decoded, hone, hmost, heip, by omega⟩

/-- A step that does not take the guest elsewhere does not end the program. -/
theorem status_step_of_not_transfers (hsize : m.memory.size < 4294967296)
    (hm : m.status = .running) (hno : ¬ m.Transfers) :
    m.step.status = .running ∨ ∃ f, m.step.status = .faulted f := by
  cases hstatus : m.step.status with
  | running => exact .inl rfl
  | faulted f => exact .inr ⟨f, rfl⟩
  | stuck => exact absurd hstatus ((stepped hm).status_ne_stuck hm)
  | ended =>
    -- only at address zero a program ends, and the guest has moved on from where it was
    have hok : ∀ f, m.step.status ≠ .faulted f := fun f => by simp [hstatus]
    obtain ⟨i, len, target, h⟩ := exists_completed hm hok
    obtain ⟨-, hzero⟩ := (status_step_of_completed hm h).1 hstatus
    obtain ⟨_, _, -, hone, -, heip, -⟩ :=
      eip_step_of_not_transfers hsize ((completes_iff m).2 ⟨hm, hok⟩) hno
    rw [hzero, UInt32.toNat_zero] at heip
    omega

/-! ### Runs -/

section Runs

variable (hsize : m.memory.size < 4294967296)

include hsize

/-- A single step of a run. -/
theorem eip_run_succ_of_not_transfers {j : Nat} (hdone : (m.run j).completes = true)
    (hno : ¬ (m.run j).Transfers) :
    ∃ i len, (m.run j).decoded = (.ok i, len) ∧ 1 ≤ len ∧ len ≤ Decoder.maxLength ∧
      (m.run (j + 1)).eip.toNat = (m.run j).eip.toNat + len ∧
      (m.run (j + 1)).eip.toNat ≤ m.memory.size := by
  have hstep := eip_step_of_not_transfers (by rwa [size_memory_run]) hdone hno
  rwa [← run_succ_eq_step, size_memory_run] at hstep

/-- **Each instruction takes a byte of the memory.** -/
theorem eip_run_of_not_transfers {n : Nat}
    (h : ∀ j < n, (m.run j).completes = true ∧ ¬ (m.run j).Transfers) :
    m.eip.toNat + n ≤ (m.run n).eip.toNat ∧ (n ≠ 0 → (m.run n).eip.toNat ≤ m.memory.size) := by
  induction n with
  | zero => exact ⟨Nat.le_refl _, fun h => absurd rfl h⟩
  | succ n ih =>
    obtain ⟨hbefore, -⟩ := ih fun j hj => h j (Nat.lt_succ_of_lt hj)
    obtain ⟨hdone, hno⟩ := h n (Nat.lt_succ_self n)
    obtain ⟨_, _, -, hone, -, heip, hle⟩ := eip_run_succ_of_not_transfers hsize hdone hno
    exact ⟨by omega, fun _ => hle⟩

/-- There are no more instructions than bytes from the first one on. -/
theorem length_le_of_not_transfers {n : Nat}
    (h : ∀ j < n, (m.run j).completes = true ∧ ¬ (m.run j).Transfers) :
    n ≤ m.memory.size - m.eip.toNat := by
  obtain ⟨hgrown, hinside⟩ := eip_run_of_not_transfers hsize h
  by_cases hn : n = 0
  · rw [hn]
    exact Nat.zero_le _
  · have hle := hinside hn
    omega

variable (hm : m.status = .running) (hno : ∀ j, ¬ (m.run j).Transfers)

include hm hno

/-- A run that goes nowhere else runs on or faults. -/
theorem status_run_of_not_transfers (n : Nat) :
    (m.run n).status = .running ∨ ∃ f, (m.run n).status = .faulted f := by
  induction n with
  | zero => exact .inl hm
  | succ n ih =>
    rw [run_succ_eq_step]
    obtain hrun | ⟨f, hf⟩ := ih
    · exact status_step_of_not_transfers (by rwa [size_memory_run]) hrun (hno n)
    · rw [step_of_halted (by simp [hf])]
      exact .inr ⟨f, hf⟩

omit hsize hm in
/-- As long as it runs it completes instructions. -/
theorem completes_of_running {n : Nat} (hn : (m.run n).status = .running) :
    ∀ j < n, (m.run j).completes = true ∧ ¬ (m.run j).Transfers := by
  intro j hj
  have hnext := running_of_le (Nat.succ_le_of_lt hj) hn
  rw [run_succ_eq_step] at hnext
  refine ⟨(completes_iff _).2 ⟨running_of_le hj.le hn, fun f => ?_⟩, hno j⟩
  rw [hnext]
  exact nofun

/-- With one step more than there are bytes left it has faulted. -/
theorem exists_faulted_of_not_transfers :
    ∃ f, (m.run (m.memory.size - m.eip.toNat + 1)).status = .faulted f := by
  obtain hrun | hf := status_run_of_not_transfers hsize hm hno (m.memory.size - m.eip.toNat + 1)
  · have hle := length_le_of_not_transfers hsize (completes_of_running hno hrun)
    exact absurd hle (Nat.not_succ_le_self _)
  · exact hf

end Runs

/-- **Straight code halts.** Let there be less than `2 ^ 32` bytes of memory. Of instructions that
are completed one after the other and do not take the guest elsewhere, each one takes it forward by
its own length, which is at least one and at most ten bytes, and at most to the end of the memory.
So there are no more of them than bytes from the first one to the end. A run without an instruction
that takes the guest elsewhere halts after at most one step more than that, and it halts in a fault
and not at the end of the program. -/
theorem straight_code_halts (hsize : m.memory.size < 4294967296) :
    (∀ n, (∀ j < n, (m.run j).completes = true ∧ ¬ (m.run j).Transfers) →
      n ≤ m.memory.size - m.eip.toNat ∧
      ∀ j < n, ∃ i len, (m.run j).decoded = (.ok i, len) ∧ 1 ≤ len ∧ len ≤ 10 ∧
        (m.run (j + 1)).eip.toNat = (m.run j).eip.toNat + len ∧
        (m.run (j + 1)).eip.toNat ≤ m.memory.size) ∧
    (m.status = .running → (∀ j, ¬ (m.run j).Transfers) →
      (∃ f, ∀ limit, m.memory.size - m.eip.toNat + 1 ≤ limit →
        (m.run limit).status = .faulted f) ∧
      ∀ limit, (m.run limit).status ≠ .ended) := by
  refine ⟨fun n h => ⟨length_le_of_not_transfers hsize h, fun j hj => ?_⟩,
    fun hm hno => ⟨?_, fun limit => ?_⟩⟩
  · obtain ⟨hdone, hno⟩ := h j hj
    exact eip_run_succ_of_not_transfers hsize hdone hno
  · obtain ⟨f, hf⟩ := exists_faulted_of_not_transfers hsize hm hno
    -- what has halted stays as it is
    refine ⟨f, fun limit hlimit => ?_⟩
    rw [run_eq_of_le hlimit (by simp [hf]), hf]
  · obtain hrun | ⟨f, hf⟩ := status_run_of_not_transfers hsize hm hno limit
    · simp [hrun]
    · simp [hf]

/-- `mov byte [eax+4], 0x40` puts `inc eax` in the place of a jump, behind which there is another
`inc eax` and the end of the memory. -/
theorem straight_code_halts_overwriting :
    let m : Machine := { boot ⟨6, 0, true⟩ {} with
      memory := (Memory.ofSize 6).store 0 [0xc6, 0x40, 0x04, 0x40, 0xeb, 0x40] }
    m.memory.size < 4294967296 ∧ m.memory.byteAt 4 = 0xeb ∧
    (∀ j < 3, (m.run j).completes = true ∧ ¬ (m.run j).Transfers) ∧
    (m.run 3).eip.toNat ≤ 6 ∧ m.status = .running ∧ (∀ j, ¬ (m.run j).Transfers) ∧
    (∀ limit, 7 ≤ limit → (m.run limit).status = .faulted (.outOfBounds 6 1 6)) ∧
    ∀ limit, (m.run limit).status ≠ .ended := by
  intro m
  have hsize : m.memory.size < 4294967296 := by decide +kernel
  have hdone : ∀ j < 3, (m.run j).completes = true := by decide +kernel
  have hhalted : (m.run 4).status = .faulted (.outOfBounds 6 1 6) := by decide +kernel
  -- the move is followed by two instructions, one of which it has made
  have hmove : (m.run 0).decoded = (.ok ⟨.mov, .byte, .mem .eax 4, .imm 0x40⟩, 4) := by
    decide +kernel
  have hinc : ∀ j < 3, 0 < j → (m.run j).decoded = (.ok ⟨.inc, .dword, .reg .eax, .absent⟩, 1) := by
    decide +kernel
  have hno : ∀ j, ¬ (m.run j).Transfers := by
    rintro j ⟨hcompletes, i, n, hd, hjump⟩
    have hj : j < 3 := by
      by_contra hle
      -- the step behind the last byte faults, and so it stays
      have hnext := run_eq_of_le (Nat.succ_le_succ (Nat.not_lt.1 hle)) (m := m)
        (by rw [hhalted]; exact nofun)
      rw [run_succ_eq_step] at hnext
      exact ((completes_iff _).1 hcompletes).2 _ (hnext ▸ hhalted)
    obtain rfl | hpos := Nat.eq_zero_or_pos j
    · rw [hmove] at hd
      cases hd
      exact hjump
    · rw [hinc j hj hpos] at hd
      cases hd
      exact hjump
  -- the theorem gives the place after three steps, and the fault
  obtain ⟨hsequence, hrun⟩ := straight_code_halts hsize
  obtain ⟨-, hsteps⟩ := hsequence 3 fun j hj => ⟨hdone j hj, hno j⟩
  obtain ⟨_, _, -, -, -, -, hle⟩ := hsteps 2 (by decide)
  obtain ⟨⟨f, hf⟩, hended⟩ := hrun rfl hno
  have hseven : (m.run 7).status = .faulted (.outOfBounds 6 1 6) := by decide +kernel
  obtain rfl := Status.faulted.inj ((hf 7 (by decide +kernel)).symm.trans hseven)
  exact ⟨hsize, by decide +kernel, fun j hj => ⟨hdone j hj, hno j⟩, hle, rfl, hno, hf, hended⟩

end Boot386.Machine
