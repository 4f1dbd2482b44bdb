import Boot386.Proofs.Machine.WellFormed

/-!
# What a step can do

`Machine.Stepped m m'` lists the ways in which a step takes a running machine `m` to `m'`: an
instruction is completed, or a fault is found before anything is done, or the console fails while
it is used. There are no others (`Machine.stepped`), because no machine is stuck on an instruction.

A run is made of its steps, the last one last (`run_succ_eq_step`), and a machine that runs after
some of them has been running before (`running_of_le`).
-/

namespace Boot386.Machine

/-- A step of a running machine. -/
inductive Stepped (m : Machine) : Machine → Prop where
  /-- An instruction is completed. -/
  | completed {fetched : Fetched} {action : Action} {target : Option UInt32} {m' : Machine} :
    m.prepare = .ok (fetched, action) → m.carryOut action = (.ok target, m') →
    Stepped m (m'.complete fetched target)
  /-- An instruction cannot be fetched or worked out. -/
  | refused {f : Fault} : m.prepare = .error (.fault f) → Stepped m (m.fail f)
  /-- The console fails while an instruction uses it. -/
  | failed {fetched : Fetched} {action : Action} {f : Fault} {m' : Machine} :
    m.prepare = .ok (fetched, action) → m.carryOut action = (.error f, m') →
    Stepped m (m'.fail f)

/-- **Steps have no other ends.** -/
theorem stepped {m : Machine} (h : m.status = .running) : m.Stepped m.step := by
  rw [step, h]
  cases hprepare : m.prepare with
  | error r =>
    cases r with
    | fault f => exact .refused hprepare
    | malformed => exact absurd hprepare m.prepare_ne_malformed
  | ok p =>
    obtain ⟨fetched, action⟩ := p
    simp only [perform]
    rcases hdone : m.carryOut action with ⟨f | target, m'⟩
    · exact .failed hprepare hdone
    · exact .completed hprepare hdone

/-! ### Completing and failing -/

@[simp] theorem steps_complete (m : Machine) (fetched : Fetched) (target : Option UInt32) :
    (m.complete fetched target).steps = m.steps + 1 := by
  simp only [complete]
  split <;> rfl

@[simp] theorem eip_complete (m : Machine) (fetched : Fetched) (target : Option UInt32) :
    (m.complete fetched target).eip = target.getD fetched.next := by
  simp only [complete]
  split <;> rfl

@[simp] theorem config_complete (m : Machine) (fetched : Fetched) (target : Option UInt32) :
    (m.complete fetched target).config = m.config := by
  simp only [complete]
  split <;> rfl

@[simp] theorem registers_complete (m : Machine) (fetched : Fetched) (target : Option UInt32) :
    (m.complete fetched target).registers = m.registers := by
  simp only [complete]
  split <;> rfl

@[simp] theorem flags_complete (m : Machine) (fetched : Fetched) (target : Option UInt32) :
    (m.complete fetched target).flags = m.flags := by
  simp only [complete]
  split <;> rfl

@[simp] theorem memory_complete (m : Machine) (fetched : Fetched) (target : Option UInt32) :
    (m.complete fetched target).memory = m.memory := by
  simp only [complete]
  split <;> rfl

@[simp] theorem console_complete (m : Machine) (fetched : Fetched) (target : Option UInt32) :
    (m.complete fetched target).console = m.console := by
  simp only [complete]
  split <;> rfl

theorem status_complete_eq (m : Machine) (fetched : Fetched) (target : Option UInt32) :
    (m.complete fetched target).status
      = if m.config.haltOnZero ∧ target.getD fetched.next = 0 then .ended else m.status := by
  simp only [complete]
  split <;> rfl

/-- A completed instruction is no fault, and the machine runs on or ends. -/
theorem status_complete {m : Machine} (h : m.status = .running) (fetched : Fetched)
    (target : Option UInt32) :
    (m.complete fetched target).status = .running ∨
      (m.complete fetched target).status = .ended := by
  rw [status_complete_eq]
  split
  · exact .inr rfl
  · exact .inl h

@[simp] theorem status_fail (m : Machine) (f : Fault) : (m.fail f).status = .faulted f := rfl

/-! ### Performing an action -/

@[simp] theorem status_carryOut (m : Machine) (a : Action) :
    (m.carryOut a).2.status = m.status := by
  obtain ⟨-, -, hstatus, -⟩ := keeps_of_carryOut (rfl : m.carryOut a = (_, _))
  exact hstatus

theorem perform_of_ok {m : Machine} {a : Action} {target : Option UInt32}
    (h : (m.carryOut a).1 = .ok target) (fetched : Fetched) :
    m.perform fetched a = (m.carryOut a).2.complete fetched target := by
  rcases hdone : m.carryOut a with ⟨r, m'⟩
  rw [hdone] at h
  obtain rfl := h
  rw [perform, hdone]

theorem perform_of_error {m : Machine} {a : Action} {f : Fault}
    (h : (m.carryOut a).1 = .error f) (fetched : Fetched) :
    m.perform fetched a = (m.carryOut a).2.fail f := by
  rcases hdone : m.carryOut a with ⟨r, m'⟩
  rw [hdone] at h
  obtain rfl := h
  rw [perform, hdone]

/-- Where an action has the same outcome in two machines, both complete the instruction or both
fail. -/
theorem perform_rel {R : Machine → Machine → Prop} {m m' : Machine} {fetched : Fetched} {a : Action}
    (hresult : (m'.carryOut a).1 = (m.carryOut a).1)
    (hcomplete : ∀ target, R ((m.carryOut a).2.complete fetched target)
      ((m'.carryOut a).2.complete fetched target))
    (hfail : ∀ f, R ((m.carryOut a).2.fail f) ((m'.carryOut a).2.fail f)) :
    R (m.perform fetched a) (m'.perform fetched a) := by
  cases hr : (m.carryOut a).1 with
  | ok target =>
    rw [perform_of_ok hr, perform_of_ok (hresult.trans hr)]
    exact hcomplete target
  | error f =>
    rw [perform_of_error hr, perform_of_error (hresult.trans hr)]
    exact hfail f

theorem console_perform (m : Machine) (fetched : Fetched) (a : Action) :
    (m.perform fetched a).console = (m.carryOut a).2.console := by
  cases h : (m.carryOut a).1 with
  | ok target => rw [perform_of_ok h, console_complete]
  | error f => rw [perform_of_error h, fail]

/-! ### Faults -/

/-- **Where faults come from.** An instruction could not be fetched or worked out, or the console
failed while it was used. -/
theorem Stepped.faulted {m m' : Machine} (h : m.Stepped m') (hm : m.status = .running)
    {f : Fault} (hf : m'.status = .faulted f) :
    (m.prepare = .error (.fault f) ∧ m' = m.fail f) ∨
      ∃ fetched action m'', m.prepare = .ok (fetched, action) ∧
        m.carryOut action = (.error f, m'') ∧ m' = m''.fail f := by
  cases h with
  | completed hprepare hdone =>
    -- a completed instruction does not end in a fault
    obtain ⟨-, -, hstatus, -⟩ := keeps_of_carryOut hdone
    obtain hc | hc := status_complete (hstatus.trans hm) _ _ <;> rw [hc] at hf <;> cases hf
  | refused hprepare =>
    obtain rfl := Status.faulted.inj hf
    exact .inl ⟨hprepare, rfl⟩
  | failed hprepare hdone =>
    obtain rfl := Status.faulted.inj hf
    exact .inr ⟨_, _, _, hprepare, hdone, rfl⟩

/-! ### Steps and runs -/

/-- Running is stepping again and again, the last step last. -/
theorem run_succ_eq_step (m : Machine) (limit : Nat) : m.run (limit + 1) = (m.run limit).step := by
  rw [run_add, run_succ, run_zero]

theorem run_two (m : Machine) : m.run 2 = m.step.step := by
  rw [run_succ, run_succ, run_zero]

/-- A run that has halted is not changed by more steps. -/
theorem run_eq_of_le {m : Machine} {j k : Nat} (hjk : j ≤ k) (hj : (m.run j).status ≠ .running) :
    m.run k = m.run j := by
  obtain ⟨d, rfl⟩ := Nat.exists_eq_add_of_le hjk
  rw [run_add, run_of_halted hj]

/-- A machine that has halted in a run stays halted in a longer one. -/
theorem status_run_of_le {m : Machine} {j k : Nat} (hjk : j ≤ k)
    (hj : (m.run j).status ≠ .running) : (m.run k).status ≠ .running := by
  rwa [run_eq_of_le hjk hj]

/-- A machine that runs has been running before. -/
theorem running_of_le {m : Machine} {j k : Nat} (hjk : j ≤ k) (hk : (m.run k).status = .running) :
    (m.run j).status = .running := by
  by_contra hj
  exact status_run_of_le hjk hj hk

/-- A step counts one instruction or none. -/
theorem Stepped.steps_le {m m' : Machine} (h : m.Stepped m') : m.steps ≤ m'.steps := by
  cases h with
  | completed hprepare hdone =>
    obtain ⟨-, -, -, hsteps⟩ := keeps_of_carryOut hdone
    rw [steps_complete, hsteps]
    exact Nat.le_succ m.steps
  | refused hprepare => exact Nat.le_refl m.steps
  | failed hprepare hdone =>
    obtain ⟨-, -, -, hsteps⟩ := keeps_of_carryOut hdone
    exact hsteps.ge

/-- After a step a machine runs on, or it has ended, or it has faulted. -/
theorem Stepped.status_ne_stuck {m m' : Machine} (h : m.Stepped m') (hm : m.status = .running) :
    m'.status ≠ .stuck := by
  cases h with
  | completed hprepare hdone =>
    obtain ⟨-, -, hstatus, -⟩ := keeps_of_carryOut hdone
    obtain hc | hc := status_complete (hstatus.trans hm) _ _ <;> rw [hc] <;> simp
  | refused hprepare => simp
  | failed hprepare hdone => simp

theorem steps_le_steps_step (m : Machine) : m.steps ≤ m.step.steps := by
  by_cases h : m.status = .running
  · exact (stepped h).steps_le
  · rw [step_of_halted h]

theorem steps_le_steps_run (m : Machine) (limit : Nat) : m.steps ≤ (m.run limit).steps := by
  induction limit generalizing m with
  | zero => exact Nat.le_refl m.steps
  | succ limit ih =>
    rw [run_succ]
    exact m.steps_le_steps_step.trans (ih m.step)

theorem status_step_ne_stuck {m : Machine} (h : m.status ≠ .stuck) : m.step.status ≠ .stuck := by
  by_cases hm : m.status = .running
  · exact (stepped hm).status_ne_stuck hm
  · rwa [step_of_halted hm]

theorem status_run_ne_stuck {m : Machine} (h : m.status ≠ .stuck) (limit : Nat) :
    (m.run limit).status ≠ .stuck := by
  induction limit generalizing m with
  | zero => exact h
  | succ limit ih =>
    rw [run_succ]
    exact ih (status_step_ne_stuck h)

end Boot386.Machine
