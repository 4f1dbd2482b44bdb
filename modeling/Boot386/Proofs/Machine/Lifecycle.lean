import Boot386.Machine.Command
import Boot386.Proofs.Machine.Access

/-!
# The life of a machine

A machine is booted and then driven by commands. `Machine.Invariant` is what holds of it all the
time: the memory keeps its size, and where the guest leaves by address zero, a machine has ended if
and only if an instruction has taken it there. A step keeps the invariant (`Invariant.step`), hence
a run does, hence every command does, hence every sequence of commands.

Commands other than stepping and running keep everything that a step moves (`keepsCourse_apply`), so
that a machine that has halted stays halted, whatever is done to its registers and its memory
(`keepsCourse_applyAll_of_halted`). The step count is the number of completed instructions
(`steps_apply`), and these are the steps that are no faults (`completes_iff`).
-/

namespace Boot386

/-- Stepping and running, which are the commands that move the guest. -/
def Command.Moves : Command → Prop
  | step => True
  | run _ => True
  | _ => False

namespace Machine

variable {config : Config} {m m' : Machine}

/-! ### Completed instructions -/

/-- Whether the next instruction will be completed: the machine runs, and the instruction can be
fetched, worked out and carried out. -/
def completes (m : Machine) : Bool :=
  match m.status, m.prepare with
  | .running, .ok (_, action) => (m.carryOut action).1.isOk
  | _, _ => false

/-- How many instructions a command will complete. -/
def completions (m : Machine) : Command → Nat
  | .step => m.completes.toNat
  | .run limit => (List.range limit).countP fun j => (m.run j).completes
  | _ => 0

theorem completes_of_prepare (hm : m.status = .running) {fetched : Fetched} {action : Action}
    (h : m.prepare = .ok (fetched, action)) : m.completes = (m.carryOut action).1.isOk := by
  simp only [completes, hm, h]

/-- An instruction whose data access is inside is completed if its action is carried out. -/
theorem completes_of_inside (hm : m.status = .running) {i : Instruction} {n : Nat}
    (h : m.decoded = (.ok i, n)) (hin : m.Inside (i.access? m.registers)) :
    m.completes = (m.carryOut (m.intended i (m.eip + UInt32.ofNat n))).1.isOk :=
  completes_of_prepare hm (prepare_of_inside h hin)

theorem completes_of_refused {r : Refusal} (h : m.prepare = .error r) : m.completes = false := by
  unfold completes
  rw [h]
  cases m.status <;> rfl

theorem completes_of_halted (h : m.status ≠ .running) : m.completes = false := by
  unfold completes
  split
  · next hm _ => exact absurd hm h
  · rfl

/-- An instruction is completed exactly if the machine runs and its step is not a fault. -/
theorem completes_iff (m : Machine) :
    m.completes = true ↔ m.status = .running ∧ ∀ f, m.step.status ≠ .faulted f := by
  by_cases hm : m.status = .running
  · have hstep := stepped hm
    generalize m.step = m' at hstep
    cases hstep with
    | completed hprepare hdone =>
      obtain ⟨-, -, hstatus, -⟩ := keeps_of_carryOut hdone
      rw [completes_of_prepare hm hprepare, hdone]
      refine iff_of_true rfl ⟨hm, fun f => ?_⟩
      -- an instruction that is completed leaves the machine running or ended
      obtain hc | hc := status_complete (hstatus.trans hm) _ _ <;> rw [hc] <;> simp
    | refused hprepare =>
      rw [completes_of_refused hprepare]
      exact iff_of_false Bool.false_ne_true fun h => h.2 _ rfl
    | failed hprepare hdone =>
      rw [completes_of_prepare hm hprepare, hdone]
      exact iff_of_false Bool.false_ne_true fun h => h.2 _ rfl
  · rw [completes_of_halted hm]
    exact iff_of_false Bool.false_ne_true fun h => hm h.1

/-- A step that faults completes nothing. -/
theorem completes_of_faulted {f : Fault} (h : m.step.status = .faulted f) :
    m.completes = false := by
  rw [← Bool.not_eq_true, completes_iff]
  exact fun hno => hno.2 f h

/-- A step counts the instruction that it completes. -/
theorem steps_step (m : Machine) : m.step.steps = m.steps + m.completes.toNat := by
  by_cases hm : m.status = .running
  · have hstep := stepped hm
    generalize m.step = m' at hstep
    cases hstep with
    | completed hprepare hdone =>
      obtain ⟨-, -, -, hsteps⟩ := keeps_of_carryOut hdone
      rw [completes_of_prepare hm hprepare, hdone, steps_complete, hsteps]
      rfl
    | refused hprepare =>
      rw [completes_of_refused hprepare]
      rfl
    | failed hprepare hdone =>
      obtain ⟨-, -, -, hsteps⟩ := keeps_of_carryOut hdone
      rw [completes_of_prepare hm hprepare, hdone]
      exact hsteps
  · rw [step_of_halted hm, completes_of_halted hm]
    rfl

/-- A run counts the instructions that its steps complete. -/
theorem steps_run (m : Machine) (limit : Nat) :
    (m.run limit).steps = m.steps + m.completions (.run limit) := by
  induction limit with
  | zero => rfl
  | succ limit ih =>
    rw [run_succ_eq_step, steps_step, ih]
    simp only [completions, List.range_succ, List.countP_append, List.countP_singleton]
    cases (m.run limit).completes <;> rfl

/-! ### The course of the guest -/

/-- What a step moves has not moved: where the guest is, its flags, how many instructions it has
completed, and whether it runs. Registers and memory may have been written, but the memory has kept
its size. -/
structure KeepsCourse (m m' : Machine) : Prop where
  config : m'.config = m.config
  eip : m'.eip = m.eip
  flags : m'.flags = m.flags
  steps : m'.steps = m.steps
  status : m'.status = m.status
  size : m'.memory.size = m.memory.size

theorem KeepsCourse.refl (m : Machine) : KeepsCourse m m := ⟨rfl, rfl, rfl, rfl, rfl, rfl⟩

theorem KeepsCourse.trans {m'' : Machine} (h : KeepsCourse m m') (h' : KeepsCourse m' m'') :
    KeepsCourse m m'' :=
  ⟨h'.config.trans h.config, h'.eip.trans h.eip, h'.flags.trans h.flags,
    h'.steps.trans h.steps, h'.status.trans h.status, h'.size.trans h.size⟩

/-- Committing a change moves nothing but registers and memory if the flags are kept. -/
theorem keepsCourse_commit {c : Change} (h : c.flags = m.flags) : KeepsCourse m (m.commit c) :=
  ⟨config_commit m c, eip_commit m c, (flags_commit m c).trans h, steps_commit m c,
    status_commit m c, size_memory_commit m c⟩

/-- An image that is loaded is stored at the origin. -/
theorem eq_of_load {image : List UInt8} (h : m.load image = .ok m') :
    m.memory.Fits m.config.origin image.length ∧
      m' = { m with memory := m.memory.store m.config.origin.toNat image } := by
  unfold load Memory.place at h
  by_cases hfits : m.memory.Fits m.config.origin image.length
  · rw [if_pos hfits] at h
    exact ⟨hfits, (Except.ok.inj h).symm⟩
  · rw [if_neg hfits] at h
    cases h

theorem keepsCourse_load {image : List UInt8} (h : m.load image = .ok m') : KeepsCourse m m' := by
  obtain ⟨-, rfl⟩ := eq_of_load h
  exact ⟨rfl, rfl, rfl, rfl, rfl, Memory.size_store ..⟩

theorem keepsCourse_push {v : UInt32} (h : m.push v = .ok m') : KeepsCourse m m' := by
  simp only [push, pushed] at h
  split at h
  · next c hpushed =>
    split at hpushed
    · cases hpushed
      cases h
      exact keepsCourse_commit rfl
    · cases hpushed
  · cases h

theorem keepsCourse_pop {v : UInt32} (h : m.pop = .ok (v, m')) : KeepsCourse m m' := by
  simp only [pop, popped] at h
  split at h
  · next v' c hpopped =>
    split at hpopped
    · cases hpopped
      cases h
      exact keepsCourse_commit rfl
    · cases hpopped
  · cases h

/-- **Only steps move the guest.** -/
theorem keepsCourse_apply {c : Command} (h : ¬ c.Moves) : KeepsCourse m (m.apply c).2 := by
  cases c with
  | step => exact absurd trivial h
  | run limit => exact absurd trivial h
  | load image =>
    simp only [apply]
    split
    · next hload => exact keepsCourse_load hload
    · exact KeepsCourse.refl m
  | push w =>
    simp only [apply]
    split
    · next hpush => exact keepsCourse_push hpush
    · exact KeepsCourse.refl m
  | pop =>
    simp only [apply]
    split
    · next hpop => exact keepsCourse_pop hpop
    · exact KeepsCourse.refl m
  | input a =>
    simp only [apply, receive]
    split <;> exact ⟨rfl, rfl, rfl, rfl, rfl, rfl⟩
  | output a b =>
    simp only [apply, transmit]
    split <;> exact ⟨rfl, rfl, rfl, rfl, rfl, rfl⟩
  | _ => exact ⟨rfl, rfl, rfl, rfl, rfl, rfl⟩

/-- A machine that has halted is not moved by any command. -/
theorem keepsCourse_apply_of_halted (h : m.status ≠ .running) (c : Command) :
    KeepsCourse m (m.apply c).2 := by
  cases c with
  | step =>
    show KeepsCourse m m.step
    rw [step_of_halted h]
    exact KeepsCourse.refl m
  | run limit =>
    show KeepsCourse m (m.run limit)
    rw [run_of_halted h]
    exact KeepsCourse.refl m
  | _ => exact keepsCourse_apply id

/-- **There is no resume.** -/
theorem keepsCourse_applyAll_of_halted (h : m.status ≠ .running) (commands : List Command) :
    KeepsCourse m (m.applyAll commands) := by
  induction commands generalizing m with
  | nil => exact KeepsCourse.refl m
  | cons c commands ih =>
    have hfirst := keepsCourse_apply_of_halted h c
    exact hfirst.trans (ih (hfirst.status ▸ h))

/-- The step count grows by the instructions that a command completes. -/
theorem steps_apply (m : Machine) (c : Command) :
    (m.apply c).2.steps = m.steps + m.completions c := by
  cases c with
  | step => exact m.steps_step
  | run limit => exact m.steps_run limit
  | _ => exact (keepsCourse_apply id).steps

/-! ### The invariant -/

/-- What holds of a machine at all times. -/
structure Invariant (config : Config) (m : Machine) : Prop where
  config_eq : m.config = config
  size : m.memory.size = config.memorySize
  /-- A guest that has left is at zero, and an instruction has taken it there. -/
  ended : m.status = .ended → config.haltOnZero = true ∧ m.eip = 0 ∧ 1 ≤ m.steps
  /-- No instruction has taken a guest to zero that goes on. -/
  running : m.status = .running → config.haltOnZero = true → 1 ≤ m.steps → m.eip ≠ 0

theorem invariant_boot (config : Config) (host : Host) : Invariant config (boot config host) where
  config_eq := rfl
  size := Memory.size_ofSize _
  ended := nofun
  running _ _ h := nomatch h

/-- What keeps the course keeps the invariant. -/
theorem Invariant.of_keepsCourse (h : Invariant config m) (hm : KeepsCourse m m') :
    Invariant config m' where
  config_eq := hm.config.trans h.config_eq
  size := hm.size.trans h.size
  ended hend := by
    rw [hm.eip, hm.steps]
    exact h.ended (hm.status ▸ hend)
  running hrun := by
    rw [hm.eip, hm.steps]
    exact h.running (hm.status ▸ hrun)

/-- A fault keeps the size of the memory, and a machine with a fault neither runs nor has
ended. -/
theorem Invariant.fail {f : Fault} (h : Invariant config m) : Invariant config (m.fail f) where
  config_eq := h.config_eq
  size := h.size
  ended := nofun
  running := nofun

theorem size_memory_of_carryOut {a : Action} {r : Except Fault (Option UInt32)}
    (h : m.carryOut a = (r, m')) : m'.memory.size = m.memory.size := by
  obtain rfl : m' = (m.carryOut a).2 := by rw [h]
  unfold carryOut
  split
  · exact size_memory_commit ..
  · split <;> rfl
  · split <;> rfl
  · rfl

/-- **A step keeps the size of the memory.** -/
@[simp] theorem size_memory_step (m : Machine) : m.step.memory.size = m.memory.size := by
  by_cases hm : m.status = .running
  · have hstep := stepped hm
    generalize m.step = m' at hstep
    cases hstep with
    | completed hprepare hdone => rw [memory_complete, size_memory_of_carryOut hdone]
    | refused hprepare => rfl
    | @failed _ _ f s hprepare hdone =>
      show s.memory.size = m.memory.size
      exact size_memory_of_carryOut hdone
  · rw [step_of_halted hm]

@[simp] theorem size_memory_run (m : Machine) (n : Nat) :
    (m.run n).memory.size = m.memory.size := by
  induction n with
  | zero => rfl
  | succ n ih => rw [run_succ_eq_step, size_memory_step, ih]

/-- **A step keeps the invariant.** The instruction that takes a guest to zero is the one after
which it has ended. -/
theorem Invariant.step (h : Invariant config m) : Invariant config m.step := by
  by_cases hm : m.status = .running
  · have hstep := stepped hm
    generalize m.step = m' at hstep
    cases hstep with
    | refused hprepare => exact h.fail
    | @failed fetched action f m'' hprepare hdone =>
      have hkeeps : KeepsCourse m m'' := by
        rw [eq_of_carryOut_error hdone]
        exact ⟨rfl, rfl, rfl, rfl, rfl, rfl⟩
      exact (h.of_keepsCourse hkeeps).fail
    | @completed fetched action target m'' hprepare hdone =>
      obtain ⟨hconfig, -, hstatus, -⟩ := keeps_of_carryOut hdone
      have hcfg : m''.config = config := hconfig.trans h.config_eq
      refine ⟨?_, ?_, fun hend => ?_, fun hrun hzero _ => ?_⟩
      · rw [config_complete, hcfg]
      · rw [memory_complete, size_memory_of_carryOut hdone, h.size]
      -- `complete` asks whether the guest is at zero, and both clauses are its answers
      · rw [status_complete_eq, hcfg, hstatus, hm] at hend
        split at hend
        · next hleave =>
          refine ⟨hleave.1, ?_, ?_⟩
          · rw [eip_complete, hleave.2]
          · rw [steps_complete]
            exact Nat.le_add_left 1 _
        · cases hend
      · rw [status_complete_eq, hcfg, hstatus, hm] at hrun
        rw [eip_complete]
        split at hrun
        · cases hrun
        · next hstay => exact fun heip => hstay ⟨hzero, heip⟩
  · rw [step_of_halted hm]
    exact h

theorem Invariant.run (h : Invariant config m) (limit : Nat) : Invariant config (m.run limit) := by
  induction limit with
  | zero => exact h
  | succ limit ih =>
    rw [run_succ_eq_step]
    exact ih.step

theorem Invariant.apply (h : Invariant config m) (c : Command) :
    Invariant config (m.apply c).2 := by
  cases c with
  | step => exact h.step
  | run limit => exact h.run limit
  | _ => exact h.of_keepsCourse (keepsCourse_apply id)

theorem Invariant.applyAll (h : Invariant config m) (commands : List Command) :
    Invariant config (m.applyAll commands) := by
  induction commands generalizing m with
  | nil => exact h
  | cons c commands ih => exact ih (h.apply c)

/-! ### Lives -/

/-- **The life of a machine.** After any commands since it was booted: the memory has the size that
it was configured with; a machine that has ended was configured to end at zero, and is there after
at least one instruction; one that runs on after an instruction, and was configured so, is not
there. A command counts one for each instruction that it completes; only steps and runs move the
guest; and a machine that has halted is not changed at all by steps and runs, nor does anything else
make it go on. -/
theorem lifecycle (config : Config) (host : Host) (commands : List Command) :
    let m := (boot config host).applyAll commands
    m.config = config ∧ m.memory.size = config.memorySize ∧
    (m.status = .ended → config.haltOnZero = true ∧ m.eip = 0 ∧ 1 ≤ m.steps) ∧
    (m.status = .running → config.haltOnZero = true → 1 ≤ m.steps → m.eip ≠ 0) ∧
    (∀ c, (m.apply c).2.steps = m.steps + m.completions c) ∧
    (∀ c, ¬ c.Moves → (m.apply c).2.eip = m.eip ∧ (m.apply c).2.flags = m.flags ∧
      (m.apply c).2.steps = m.steps ∧ (m.apply c).2.status = m.status) ∧
    (m.status ≠ .running → m.step = m ∧ (∀ limit, m.run limit = m) ∧
      ∀ later, let m' := m.applyAll later
        m'.status = m.status ∧ m'.eip = m.eip ∧ m'.flags = m.flags ∧ m'.steps = m.steps) := by
  intro m
  have h : Invariant config m := (invariant_boot config host).applyAll commands
  refine ⟨h.config_eq, h.size, h.ended, h.running, m.steps_apply, fun c hc => ?_,
    fun hhalted => ⟨step_of_halted hhalted, run_of_halted hhalted, fun later => ?_⟩⟩
  · have hkeeps : KeepsCourse m (m.apply c).2 := keepsCourse_apply hc
    exact ⟨hkeeps.eip, hkeeps.flags, hkeeps.steps, hkeeps.status⟩
  · have hkeeps := keepsCourse_applyAll_of_halted hhalted later
    exact ⟨hkeeps.status, hkeeps.eip, hkeeps.flags, hkeeps.steps⟩

/-- A guest at the origin zero that jumps to itself has ended after one instruction, and what is
loaded, pushed and run then does not make it go on. -/
theorem lifecycle_jump_to_zero :
    let config : Config := ⟨16, 0, true⟩
    let m := (boot config {}).applyAll [.load [0xeb, 0xfe], .set .esp 8, .step]
    m.status = .ended ∧ m.eip = 0 ∧ 1 ≤ m.steps ∧ m.step = m ∧
    (m.applyAll [.push 7, .load [0xc9], .run 5]).status = .ended ∧
    ((boot config {}).applyAll [.load [0xeb, 0xfe]]).completions (.run 5) = 1 := by
  intro config m
  have hend : m.status = .ended := by decide +kernel
  have h := lifecycle config {} [.load [0xeb, 0xfe], .set .esp 8, .step]
  obtain ⟨-, heip, hsteps⟩ := h.2.2.1 hend
  obtain ⟨hstep, -, hlater⟩ := h.2.2.2.2.2.2 (by rw [hend]; decide)
  exact ⟨hend, heip, hsteps, hstep, (hlater _).1.trans hend, by decide +kernel⟩

end Machine

end Boot386
