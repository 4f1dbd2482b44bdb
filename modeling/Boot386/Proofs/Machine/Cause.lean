import Boot386.Proofs.Console
import Boot386.Proofs.Machine.Access

/-!
# What makes a step fault

A step can fault in four places, one after the other: there is no byte at the instruction pointer,
the bytes there are no instruction, the data access of the instruction is outside the memory, or the
host of the console fails while the instruction uses it. `Machine.FaultCause m f` says which of them
the machine is at, and with which fault. A step faults if and only if there is such a cause, and
with this fault only (`fault_classified`).

The four exclude each other because each one is only reached past the ones before it.
-/

namespace Boot386.Machine

variable {m : Machine} {i : Instruction} {n : Nat}

/-! ### Calls of the host -/

/-- The I/O address that `in` and `out` use. -/
def port (m : Machine) : IoAddress :=
  (m.registers.get .edx).toUInt16

/-- What the host answers to an instruction that calls it: to `in` and `out` if they use the
address of the console, and to the video interrupt if it is asked for teletype output. -/
def hostCall? (m : Machine) (i : Instruction) : Option (Except String Unit) :=
  match i.op with
  | .input =>
    if m.port = Console.address then some (m.console.receive.1.map fun _ => ()) else none
  | .output =>
    if m.port = Console.address then some (m.console.send (m.registers.get8 .al)).1 else none
  | .interrupt =>
    if i.left = .imm videoVector.toUInt32 ∧ m.registers.get8 .ah = teletypeFunction then
      some (m.console.sendAll
        (Teletype.sequence (m.registers.get8 .al) (m.registers.get8 .bl))).1
    else none
  | _ => none

theorem toUInt16_value_dx (m : Machine) (w : Width) : (m.value w .dx).toUInt16 = m.port := by
  refine UInt16.toNat_inj.1 ?_
  simp only [value, port, UInt32.toNat_toUInt16, UInt32.toNat_ofNat']
  omega

/-- A read can be carried out if the host answers it. -/
theorem carryOut_input (a : IoAddress) (r : Reg8) :
    (m.carryOut (.input a r)).1.map (fun _ => ())
      = ((m.console.input a).1.map fun _ => ()).mapError Fault.console := by
  simp only [carryOut]
  rcases m.console.input a with ⟨_ | _ | _, _⟩ <;> rfl

/-- A write can be carried out if the host answers it. -/
theorem carryOut_output (a : IoAddress) (bytes : List UInt8) :
    (m.carryOut (.output a bytes)).1.map (fun _ => ())
      = (m.console.output a bytes).1.mapError Fault.console := by
  simp only [carryOut]
  rcases m.console.output a bytes with ⟨_ | _, _⟩ <;> rfl

/-- **Only the host answers.** Whether an instruction whose access is inside can be carried out is
what the host answers, if it is called. -/
theorem carryOut_intended (h : i.Encodable) (next : UInt32) :
    (m.carryOut (m.intended i next)).1.map (fun _ => ())
      = ((m.hostCall? i).getD (.ok ())).mapError Fault.console := by
  obtain ⟨op, w, left, right⟩ := i
  cases op with
  | input =>
    obtain ⟨rfl, rfl⟩ := h
    simp only [intended, toUInt16_value_dx, carryOut_input, hostCall?, Console.input]
    split <;> rfl
  | output =>
    obtain ⟨rfl, rfl⟩ := h
    simp only [intended, toUInt16_value_dx, carryOut_output, hostCall?, Console.output,
      Console.sendAll_singleton]
    split <;> rfl
  | interrupt =>
    obtain ⟨vector, rfl⟩ := h
    have hvector : Word.byte (m.value .byte (.imm vector.toUInt32)) 0 = vector :=
      Word.byte_toUInt32 vector
    have hleft : Operand.imm vector.toUInt32 = .imm videoVector.toUInt32 ↔ vector = videoVector :=
      ⟨fun h => UInt8.toUInt32_inj.1 (Operand.imm.inj h), fun h => h ▸ rfl⟩
    simp only [intended, hvector, interrupt, hostCall?, hleft]
    -- a vector or a function that nobody serves is only noted
    by_cases hv : vector = videoVector
    · by_cases hf : m.registers.get8 .ah = teletypeFunction
      · simp only [hv, video, hf, if_true, and_self, carryOut_output, Console.output]
        rfl
      · simp only [hv, video, hf, if_true, if_false, and_false]
        rfl
    · simp only [hv, if_false, false_and]
      rfl
  | _ => rfl

/-- Where the host fails, the instruction fails. -/
theorem carryOut_error_of_hostCall (h : i.Encodable) (next : UInt32) {reason : String}
    (hcall : m.hostCall? i = some (.error reason)) :
    (m.carryOut (m.intended i next)).1 = .error (.console reason) := by
  have hanswer := carryOut_intended (m := m) h next
  rw [hcall] at hanswer
  cases hr : (m.carryOut (m.intended i next)).1 with
  | error f =>
    rw [hr] at hanswer
    exact congrArg Except.error (Except.error.inj hanswer)
  | ok target =>
    rw [hr] at hanswer
    cases hanswer

/-- Where the host does not fail, the instruction does not. -/
theorem carryOut_ok_of_hostCall (h : i.Encodable) (next : UInt32)
    (hcall : ∀ reason, m.hostCall? i ≠ some (.error reason)) :
    ∃ target, (m.carryOut (m.intended i next)).1 = .ok target := by
  have hanswer := carryOut_intended (m := m) h next
  cases hr : (m.carryOut (m.intended i next)).1 with
  | ok target => exact ⟨target, rfl⟩
  | error f =>
    rw [hr] at hanswer
    match hc : m.hostCall? i with
    | none => rw [hc] at hanswer; cases hanswer
    | some (.ok ()) => rw [hc] at hanswer; cases hanswer
    | some (.error reason) => exact absurd hc (hcall reason)

/-- The host answers in its own words. -/
theorem gives_of_hostCall {reason : String} (h : m.hostCall? i = some (.error reason)) :
    m.console.host.Gives reason := by
  unfold hostCall? at h
  split at h
  · split at h
    · cases hr : m.console.receive.1 with
      | ok received => rw [hr] at h; cases h
      | error reason' =>
        rw [hr] at h
        cases h
        exact Console.gives_of_receive_error hr
    · cases h
  · split at h
    · exact Console.gives_of_send_error (Option.some.inj h)
    · cases h
  · split at h
    · exact Console.gives_of_sendAll_error (Option.some.inj h)
    · cases h
  · cases h

/-! ### The causes -/

/-- The fault that the machine is about to meet. -/
inductive FaultCause (m : Machine) : Fault → Prop where
  /-- There is no byte at the instruction pointer. -/
  | fetch : m.memory.size ≤ m.eip.toNat → FaultCause m (.outOfBounds m.eip 1 m.memory.size)
  /-- The bytes there are no instruction, which is found with the `k` first of them. -/
  | decode {e : DecodeError} {k : Nat} : m.eip.toNat < m.memory.size →
    m.decoded = (.error e, k) →
    FaultCause m (.decode m.eip (m.memory.slice m.eip.toNat k) e)
  /-- The data access of the instruction ends behind the memory. -/
  | access {i : Instruction} {n : Nat} {a : UInt32} {length : Nat} : m.decoded = (.ok i, n) →
    i.access? m.registers = some (a, length) → m.memory.size < a.toNat + length →
    FaultCause m (.outOfBounds a length m.memory.size)
  /-- The host fails. -/
  | console {i : Instruction} {n : Nat} {reason : String} : m.decoded = (.ok i, n) →
    m.hostCall? i = some (.error reason) → FaultCause m (.console reason)

/-- Instructions that call the host have no data access. -/
theorem access?_eq_none_of_hostCall {answer : Except String Unit}
    (h : m.hostCall? i = some answer) : i.access? m.registers = none := by
  obtain ⟨op, w, left, right⟩ := i
  cases op with
  | input => rfl
  | output => rfl
  | interrupt => rfl
  | _ => cases h

/-- A step of an instruction that is inside and whose host does not fail completes it. -/
theorem step_of_answered (hm : m.status = .running) (h : m.decoded = (.ok i, n))
    (hin : m.Inside (i.access? m.registers))
    (hcall : ∀ reason, m.hostCall? i ≠ some (.error reason)) :
    m.step.status = .running ∨ m.step.status = .ended := by
  obtain ⟨target, htarget⟩ :=
    carryOut_ok_of_hostCall (encodable_of_instructionAt h) (m.eip + UInt32.ofNat n) hcall
  rw [step_of_inside hm h hin, perform_of_ok htarget]
  exact status_complete (by rw [status_carryOut, hm]) _ _

/-- A cause has its effect. -/
theorem FaultCause.status_step {f : Fault} (h : m.FaultCause f) (hm : m.status = .running) :
    m.step.status = .faulted f := by
  cases h with
  | fetch hle => rw [step_of_size_le hm hle, status_fail]
  | decode hlt hd => rw [step_of_decoded_error hm hlt hd, status_fail]
  | access hd ha hout => rw [step_of_outside hm hd ha (Nat.not_le.2 hout), status_fail]
  | @console i n reason hd hcall =>
    -- what calls the host has no data access
    have hin : m.Inside (i.access? m.registers) := by
      rw [access?_eq_none_of_hostCall hcall]
      trivial
    have herror := carryOut_error_of_hostCall (encodable_of_instructionAt hd)
      (m.eip + UInt32.ofNat n) hcall
    rw [step_of_inside hm hd hin, perform_of_error herror, status_fail]

/-- **There is a cause, or the instruction is completed.** -/
theorem faultCause_or_completed (hm : m.status = .running) :
    (∃ f, m.FaultCause f) ∨ m.step.status = .running ∨ m.step.status = .ended := by
  have hstep := encounter hm
  generalize hs : m.step = s at hstep ⊢
  cases hstep with
  | nothing hle => exact .inl ⟨_, .fetch hle⟩
  | undecodable hlt hd => exact .inl ⟨_, .decode hlt hd⟩
  | outside hd ha hout => exact .inl ⟨_, .access hd ha (Nat.not_le.1 hout)⟩
  | @instruction i n hd hi hin =>
    -- only the host can still fail
    by_cases hcall : ∀ reason, m.hostCall? i ≠ some (.error reason)
    · rw [← hs]
      exact .inr (step_of_answered hm hd hin hcall)
    · push Not at hcall
      obtain ⟨reason, hreason⟩ := hcall
      exact .inl ⟨_, .console hd hreason⟩

/-- **Faults are classified.** A step of a running machine faults if and only if there is a cause,
and with the fault of this cause. A decode error names the error and the bytes up to it, which are
at least one and at most six. No step faults as an image does that is too large. An instruction
without a data access and without a call of the host does not fault once it is decoded, and
where the host fails its own words are passed on. -/
theorem fault_classified (hm : m.status = .running) :
    (∀ f, m.step.status = .faulted f ↔ m.FaultCause f) ∧
    (∀ e k, m.eip.toNat < m.memory.size → m.decoded = (.error e, k) →
      1 ≤ k ∧ k ≤ 6 ∧ (m.memory.slice m.eip.toNat k).length = k) ∧
    (∀ origin length capacity, m.step.status ≠ .faulted (.imageTooLarge origin length capacity)) ∧
    (∀ i n, m.decoded = (.ok i, n) → i.access? m.registers = none → m.hostCall? i = none →
      ∀ f, m.step.status ≠ .faulted f) ∧
    ∀ reason, m.step.status = .faulted (.console reason) → m.console.host.Gives reason := by
  have hiff : ∀ f, m.step.status = .faulted f ↔ m.FaultCause f := by
    refine fun f => ⟨fun hf => ?_, fun h => h.status_step hm⟩
    -- a machine has one status, so the cause that there is has this fault for its effect
    obtain ⟨f', h⟩ | hrun | hend := faultCause_or_completed hm
    · rw [h.status_step hm] at hf
      exact Status.faulted.inj hf ▸ h
    · rw [hrun] at hf
      cases hf
    · rw [hend] at hf
      cases hf
  refine ⟨hiff, fun e k hlt hd => ?_, fun origin length capacity hf => ?_,
    fun i n hd ha hcall f hf => ?_, fun reason hf => ?_⟩
  · -- the bytes that a decode error shows
    obtain ⟨hone, hsix⟩ := Decoder.error_length hd (by rwa [Memory.length_toList])
    have hle := Decoder.instructionAt_le m.memory.toList m.eip.toNat
    rw [← decoded, hd, Memory.length_toList] at hle
    exact ⟨hone, hsix, by rw [Memory.length_slice, Nat.min_eq_left hle]⟩
  · -- no cause has this fault for its effect
    cases (hiff _).1 hf
  · -- nothing is left that could fail
    obtain hrun | hend := step_of_answered hm hd (by rw [ha]; trivial) (by simp [hcall])
    · rw [hrun] at hf
      cases hf
    · rw [hend] at hf
      cases hf
  · cases (hiff _).1 hf with
    | console hd hcall => exact gives_of_hostCall hcall

/-- A push where the stack pointer wraps around, a constant that is cut off behind its operand byte
and displacement, and a character that the host does not take. -/
theorem fault_classified_push :
    let m : Machine := { boot ⟨4, 0, true⟩ {} with
      registers := { esp := 2 }
      memory := (Memory.ofSize 4).store 0 [0x50] }
    let m' : Machine := { boot ⟨6, 0, true⟩ {} with
      memory := (Memory.ofSize 6).store 0 [0xc7, 0x80] }
    let m'' : Machine := { boot ⟨1, 0, true⟩ { writes := [.failure ⟨.other, "closed"⟩] } with
      registers := { edx := 0x3f8 }
      memory := (Memory.ofSize 1).store 0 [0xee] }
    m.status = .running ∧ m.FaultCause (.outOfBounds 0xfffffffe 4 4) ∧
    m'.status = .running ∧ m'.FaultCause (.decode 0 [0xc7, 0x80, 0, 0, 0, 0] .truncated) ∧
    m''.status = .running ∧ m''.FaultCause (.console "closed") ∧
    m''.console.host.Gives "closed" := by
  intro m m' m''
  have hpush : m.step.status = .faulted (.outOfBounds 0xfffffffe 4 4) := by decide +kernel
  have hcut : m'.step.status = .faulted (.decode 0 [0xc7, 0x80, 0, 0, 0, 0] .truncated) := by
    decide +kernel
  have hhost : m''.step.status = .faulted (.console "closed") := by decide +kernel
  exact ⟨rfl, ((fault_classified rfl).1 _).1 hpush, rfl, ((fault_classified rfl).1 _).1 hcut, rfl,
    ((fault_classified rfl).1 _).1 hhost, (fault_classified rfl).2.2.2.2 _ hhost⟩

end Boot386.Machine
