import Boot386.Machine.Command
import Boot386.Proofs.Checked.Machine
import Boot386.Proofs.Machine.Step

/-!
# Faults are atomic

A fault leaves the guest as it was before the instruction: `SameGuest m m'` says that `m'` has the
registers, flags, instruction pointer, memory and step count of `m`.

For the machine that commits an instruction as a whole this follows from the ways in which a step
can end. For the machine in order it says more, because there a fault is seen in the middle of an
instruction: `eq_of_executeNext_error` finds that up to that point only the console has been
used. The same holds of the commands that are refused and of the routines behind them.
-/

namespace Boot386

/-- The guest has not changed. -/
structure SameGuest (m m' : Machine) : Prop where
  config : m'.config = m.config
  registers : m'.registers = m.registers
  flags : m'.flags = m.flags
  eip : m'.eip = m.eip
  memory : m'.memory = m.memory
  steps : m'.steps = m.steps

/-- Using the console and failing is nothing to the guest. -/
theorem SameGuest.fail {m m' : Machine} (h : m' = { m with console := m'.console }) (f : Fault) :
    SameGuest m (m'.fail f) := by
  rw [h]
  exact ⟨rfl, rfl, rfl, rfl, rfl, rfl⟩

namespace Machine

/-- A step that faults keeps the guest. -/
theorem Stepped.sameGuest {m m' : Machine} (h : m.Stepped m') (hm : m.status = .running)
    {f : Fault} (hf : m'.status = .faulted f) : SameGuest m m' := by
  obtain ⟨-, rfl⟩ | ⟨fetched, action, m'', -, hdone, rfl⟩ := h.faulted hm hf
  · exact SameGuest.fail rfl f
  · exact SameGuest.fail (eq_of_carryOut_error hdone) f

/-- A refused command changes nothing but the console. -/
theorem eq_of_apply_refused {m m' : Machine} {c : Command} {f : Fault}
    (h : m.apply c = (.refused f, m')) : m' = { m with console := m'.console } := by
  cases c with
  | load image =>
    simp only [apply] at h
    split at h <;> cases h
    rfl
  | push w =>
    simp only [apply] at h
    split at h <;> cases h
    rfl
  | pop =>
    simp only [apply] at h
    split at h <;> cases h
    rfl
  | input a =>
    simp only [apply, receive] at h
    split at h <;> cases h
    rfl
  | output a b =>
    simp only [apply, transmit] at h
    split at h <;> cases h
    rfl
  | _ => cases h

end Machine

namespace Checked.Routine

variable {m m' : Machine} {f : Fault}

/-- **Nothing is half done.** Where an instruction that is carried out in order meets a fault,
nothing but the console has changed yet. -/
theorem eq_of_executeNext_error (h : executeNext m = .error (.error f) m') :
    m' = { m with console := m'.console } := by
  rw [executeNext_apply] at h
  split at h
  · split at h
    · cases h
    · next hdone =>
      cases h
      exact Machine.eq_of_carryOut_error hdone
  · next r _ =>
    cases r with
    | fault f => cases h; rfl
    | malformed => cases h

/-- A word that cannot be pushed is not pushed in part. -/
theorem eq_of_push_error {v : UInt32} (h : push v m = .error (.error f) m') : m' = m := by
  rw [push_apply] at h
  split at h <;> cases h
  rfl

theorem eq_of_pop_error (h : pop m = .error (.error f) m') : m' = m := by
  rw [pop_apply] at h
  split at h <;> cases h
  rfl

theorem eq_of_writeMemory_error {w : Width} {a v : UInt32}
    (h : writeMemory w a v m = .error (.error f) m') : m' = m := by
  rw [writeMemory_apply] at h
  split at h <;> cases h
  rfl

theorem load_apply (image : List UInt8) (m : Machine) :
    load image m
      = if m.config.origin.toNat + image.length < UInt64.size
            ∧ m.memory.Fits m.config.origin image.length then
          .ok () { m with memory := m.memory.store m.config.origin.toNat image }
        else
          .error (.error (.imageTooLarge m.config.origin image.length m.memory.size)) m := by
  rw [load, Decoder.bind_apply, get_apply]
  simp only [Memory.Fits]
  by_cases h : m.config.origin.toNat + image.length < UInt64.size ∧
      m.config.origin.toNat + image.length ≤ m.memory.size
  · simp only [h, and_self, if_true]
    exact overwrite_apply ⟨Nat.le_add_right .., h.2⟩ (Nat.add_sub_cancel_left ..).symm
  · simp only [h, if_false]
    rfl

theorem eq_of_load_error {image : List UInt8} (h : load image m = .error (.error f) m') :
    m' = m := by
  rw [load_apply] at h
  split at h <;> cases h
  rfl

end Checked.Routine

open Checked.Routine (executeNext executeNext_apply)

/-- A fault of a step is the fault that the instruction meets in order, where it meets it. -/
theorem Machine.Stepped.executeNext_eq {m m' : Machine} (h : m.Stepped m')
    (hm : m.status = .running) {f : Fault} (hf : m'.status = .faulted f) :
    ∃ m'', executeNext m = .error (.error f) m'' ∧ m' = m''.fail f := by
  obtain ⟨hprepare, rfl⟩ | ⟨fetched, action, m'', hprepare, hdone, rfl⟩ := h.faulted hm hf
  · refine ⟨m, ?_, rfl⟩
    rw [executeNext_apply, hprepare]
    rfl
  · refine ⟨m'', ?_, rfl⟩
    simp only [executeNext_apply, hprepare, hdone]

/-- **Faults are atomic.** If a step ends in a fault the guest is as it was before, and so it was
where the fault was met: the instruction had done nothing but to use the console. A command that
is refused keeps the guest and the status, and a push, a pop, an image or a write to memory that
fails has changed nothing at all. -/
theorem fault_atomic (m : Machine) :
    (m.status = .running → ∀ f, m.step.status = .faulted f →
      SameGuest m m.step ∧
      ∃ m', executeNext m = .error (.error f) m' ∧ m' = { m with console := m'.console } ∧
        m.step = m'.fail f) ∧
    (∀ c f m', m.apply c = (.refused f, m') → SameGuest m m' ∧ m'.status = m.status) ∧
    (∀ v f m', Checked.Routine.push v m = .error (.error f) m' → m' = m) ∧
    (∀ f m', Checked.Routine.pop m = .error (.error f) m' → m' = m) ∧
    (∀ image f m', Checked.Routine.load image m = .error (.error f) m' → m' = m) ∧
    ∀ w a v f m', Checked.Routine.writeMemory w a v m = .error (.error f) m' → m' = m := by
  refine ⟨fun hm f hf => ?_, fun c f m' h => ?_, fun v f m' h => ?_, fun f m' h => ?_,
    fun image f m' h => ?_, fun w a v f m' h => ?_⟩
  · -- the instruction that is carried out in order meets the same fault
    obtain ⟨m', he, hfail⟩ := (Machine.stepped hm).executeNext_eq hm hf
    exact ⟨(Machine.stepped hm).sameGuest hm hf, m', he,
      Checked.Routine.eq_of_executeNext_error he, hfail⟩
  · -- a refused command
    rw [Machine.eq_of_apply_refused h]
    exact ⟨⟨rfl, rfl, rfl, rfl, rfl, rfl⟩, rfl⟩
  · exact Checked.Routine.eq_of_push_error h
  · exact Checked.Routine.eq_of_pop_error h
  · exact Checked.Routine.eq_of_load_error h
  · exact Checked.Routine.eq_of_writeMemory_error h

/-- `leave` where the frame is not in memory, and words that find no room on the stack. -/
theorem fault_atomic_leave :
    let m : Machine :=
      { Machine.boot ⟨1, 0, true⟩ {} with memory := (Memory.ofSize 1).store 0 [0xc9] }
    m.step.status = .faulted (.outOfBounds 0 4 1) ∧ m.step.registers = m.registers ∧
    m.step.memory = m.memory ∧ m.step.steps = 0 ∧
    (m.apply (.push 7)).2.registers = m.registers ∧
    Checked.Routine.push 7 m = .error (.error (.outOfBounds 0xfffffffc 4 1)) m := by
  intro m
  -- the frame pointer is zero, and there is one byte of memory
  have hstep : m.step.status = .faulted (.outOfBounds 0 4 1) := by decide +kernel
  have hsame := ((fault_atomic m).1 rfl _ hstep).1
  -- the stack pointer is zero, so that the word would be at the end of the address space
  have hpush : m.apply (.push 7)
      = (.refused (.outOfBounds 0xfffffffc 4 1), (m.apply (.push 7)).2) := by rfl
  have hroutine : Checked.Routine.push 7 m
      = .error (.error (.outOfBounds 0xfffffffc 4 1)) m := by rfl
  exact ⟨hstep, hsame.registers, hsame.memory, hsame.steps,
    ((fault_atomic m).2.1 _ _ _ hpush).1.registers, hroutine⟩

end Boot386
