import Boot386.Proofs.Checked.Machine
import Boot386.Proofs.Machine.Step

/-!
# Running never crashes

Step by step and over whole runs, the machine in order ends where the machine ends that commits
each instruction at once (`step_eq`, `run_eq`). As the latter has no crash to end in, no check can
fail, as long as the count of instructions has room in 64 bits.
-/

namespace Boot386.Checked

open Machine (stepped Stepped keeps_of_carryOut)

/-! ### Steps -/

theorem finish_eq (m : Machine) (fetched : Machine.Fetched) (target : Option UInt32)
    (h : m.steps + 1 < UInt64.size) :
    finish { m with
        eip := target.getD fetched.next
        log := m.log.push (.executed m.eip fetched.opcode fetched.instruction m.flags) }
      = .ok (m.complete fetched target) := by
  simp only [finish, h, if_true, Machine.complete]
  split <;> rfl

/-- **A step in order is a step.** -/
theorem step_eq {m : Machine} (h : m.step.steps < UInt64.size) : step m = .ok m.step := by
  by_cases hm : m.status = .running
  · have hstep := stepped hm
    simp only [step, hm, Routine.executeNext_apply]
    generalize m.step = m' at h hstep
    cases hstep with
    | completed hprepare hdone =>
      -- the event is logged under the address of the instruction, which is not moved yet
      obtain ⟨-, heip, -, -⟩ := keeps_of_carryOut hdone
      simp only [hprepare, hdone, ← heip]
      rw [Machine.steps_complete] at h
      exact finish_eq _ _ _ h
    | refused hprepare =>
      simp only [hprepare]
      rfl
    | failed hprepare hdone => simp only [hprepare, hdone]
  · rw [Machine.step_of_halted hm]
    unfold step
    split
    · contradiction
    · rfl

/-! ### Runs -/

/-- **A run in order is a run.** -/
theorem run_eq {m : Machine} {limit : Nat} (h : (m.run limit).steps < UInt64.size) :
    run m limit = .ok (m.run limit) := by
  induction limit generalizing m with
  | zero => rfl
  | succ limit ih =>
    rw [Machine.run_succ] at h ⊢
    -- counts only grow, so there is room for this step if there is for all of them
    have hstep : m.step.steps < UInt64.size := (m.step.steps_le_steps_run limit).trans_lt h
    unfold run
    split
    · rw [step_eq hstep]
      exact ih h
    · next hm =>
      rw [Machine.step_of_halted hm, Machine.run_of_halted hm]

/-- **No guest can crash the machine.** Wherever an instruction is read, no index is out of range
and no sum too large; the operands of an instruction that was read suit its operation; and steps
and runs from any machine pass all checks while the count of instructions has room in 64 bits. So
a machine never gets stuck. -/
theorem never_crashes :
    (∀ data start, start < UInt32.size → ∀ c t,
      Reader.instruction ⟨data, start, 0⟩ ≠ .error (.crash c) t) ∧
    (∀ bytes rest i, Decoder.instruction bytes = .ok i rest → ∀ next c m m',
      Routine.process i next m ≠ .error (.crash c) m') ∧
    (∀ m : Machine, m.step.steps < UInt64.size → step m = .ok m.step) ∧
    (∀ (m : Machine) limit, (m.run limit).steps < UInt64.size → run m limit = .ok (m.run limit)) ∧
    ∀ (m : Machine) limit, m.status ≠ .stuck → (m.run limit).status ≠ .stuck := by
  refine ⟨fun data start hstart c t => ?_, fun bytes rest i h next c m m' => ?_,
    fun m h => step_eq h, fun m limit h => run_eq h, fun m limit h => ?_⟩
  · obtain ⟨-, -, hread⟩ := instruction_apply data hstart rfl
    rw [hread]
    split <;> simp
  · exact Routine.process_ne_crash (wellFormed_of_instruction h) next c m m'
  · exact Machine.status_run_ne_stuck h limit

/-- `jmp` to itself, in a memory that has room for nothing else. -/
theorem never_crashes_loop :
    let m : Machine :=
      { Machine.boot ⟨2, 0, false⟩ {} with memory := (Memory.ofSize 2).store 0 [0xeb, 0xfe] }
    Reader.instruction ⟨[0xeb, 0xfe], 0, 0⟩ ≠ .error (.crash .overflow) ⟨[], 0, 0⟩ ∧
    Routine.process ⟨.jmp, .byte, .rel (-2), .absent⟩ 2 m ≠ .error (.crash .malformed) m ∧
    step m = .ok m.step ∧ run m 3 = .ok (m.run 3) ∧ (m.run 3).status ≠ .stuck := by
  intro m
  have hdecode : Decoder.instruction [0xeb, 0xfe] = .ok ⟨.jmp, .byte, .rel (-2), .absent⟩ [] := by
    rfl
  have hstep : m.step.steps < UInt64.size := by decide +kernel
  have hrun : (m.run 3).steps < UInt64.size := by decide +kernel
  have hstuck : m.status ≠ .stuck := by simp [m, Machine.boot]
  exact ⟨never_crashes.1 _ 0 (by decide) _ _, never_crashes.2.1 _ _ _ hdecode 2 _ m m,
    never_crashes.2.2.1 m hstep, never_crashes.2.2.2.1 m 3 hrun,
    never_crashes.2.2.2.2 m 3 hstuck⟩

end Boot386.Checked
