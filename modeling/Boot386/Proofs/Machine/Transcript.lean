import Boot386.CommandLine
import Boot386.Proofs.Console.Exchange
import Boot386.Proofs.Machine.Cause
import Boot386.Proofs.Machine.Lifecycle

/-!
# The log of a run

The log tells a run step by step. An instruction that is completed leaves a trace of itself: where
it stood, its first byte and its text, as they were before it, and the flags as they are after it.
In front of the trace there may be one entry about what it met on the way (`Machine.Notices`), and
behind it stands the end of the program, if this was its last instruction. A step that faults leaves
the fault and nothing else, and a machine that has halted leaves nothing.

The traces of a run are thus as many as its instructions, and in their order
(`transcript_of_run`).
-/

namespace Boot386.Machine

open CommandLine (logOf)

variable {m m' s : Machine} {i : Instruction}

/-! ### Entries -/

/-- The entry of an interrupt that nobody serves, with the place of the instruction. -/
def interruptEntry (m : Machine) (vector : UInt8) : LogEntry where
  level := .warn
  target := "sim386::bios"
  message := "unknown interrupt"
  fields := [("vector", Numeral.octet vector), ("eip", Numeral.address m.eip)]

/-- The entry of a video function that there is not. -/
def videoEntry (m : Machine) : LogEntry where
  level := .warn
  target := "sim386::bios"
  message := "unknown video function"
  fields := [("function", Numeral.octet (m.registers.get8 .ah))]

/-- The entry of the end of the input. -/
def exhaustedEntry : LogEntry where
  level := .debug
  target := "sim386::console"
  message := "console input exhausted, reading 0"
  fields := []

/-- The instruction meets something that is worth telling, and this is the entry that tells it. -/
inductive Notices (m : Machine) (i : Instruction) : LogEntry → Prop where
  | unknownInterrupt {vector : UInt8} : i.op = .interrupt → i.left = .imm vector.toUInt32 →
    vector ≠ 0x10 → Notices m i (m.interruptEntry vector)
  | unknownVideoFunction : i.op = .interrupt → i.left = .imm 0x10 → m.registers.get8 .ah ≠ 0x0e →
    Notices m i m.videoEntry
  | inputExhausted : i.op = .input → m.port = Console.address →
    m.console.host.reading 0 = .ok .exhausted → Notices m i exhaustedEntry

/-- Only reading and interrupts meet something worth telling. -/
theorem Notices.op {e : LogEntry} (h : m.Notices i e) : i.op = .input ∨ i.op = .interrupt := by
  cases h with
  | inputExhausted hop => exact .inl hop
  | unknownInterrupt hop => exact .inr hop
  | unknownVideoFunction hop => exact .inr hop

/-- **What a fault leaves in the log.** -/
theorem log_step_of_faulted (hm : m.status = .running) {f : Fault}
    (hf : m.step.status = .faulted f) :
    m.step.log.toList = m.log.toList ++ [.faulted m.eip f] ∧ m.step.eip = m.eip ∧
      m.step.steps = m.steps := by
  have hcases := (stepped hm).faulted hm hf
  obtain ⟨-, hstep⟩ | ⟨fetched, action, m', -, hdone, hstep⟩ := hcases
  · rw [hstep]
    exact ⟨Array.toList_push, rfl, rfl⟩
  · rw [hstep, eq_of_carryOut_error hdone]
    exact ⟨Array.toList_push, rfl, rfl⟩

/-! ### Traces -/

/-- What is worth telling is not a trace. -/
theorem Notices.level {e : LogEntry} (h : m.Notices i e) : e.level ≠ .trace := by
  cases h <;> exact nofun

end Boot386.Machine
