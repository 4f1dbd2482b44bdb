import Boot386.Encoding.Instruction
import Boot386.Machine.Action

/-!
# Running the machine

A step fetches the instruction at the instruction pointer, works out what it asks for, does
it and moves on; `Machine.run` repeats steps while the machine runs. A step of a machine that
has halted does nothing.

An instruction that cannot be fetched or carried out halts the machine with a fault, and
registers, flags, instruction pointer and memory stay as they were before it. The machine
also halts after an instruction that takes it to address zero, if it is configured so.
-/

namespace Boot386

/-- An instruction in memory, ready to be carried out. -/
structure Machine.Fetched where
  /-- Its leading byte. -/
  opcode : UInt8
  instruction : Instruction
  /-- The address behind it. -/
  next : UInt32
  deriving DecidableEq, Repr, Inhabited

namespace Machine

/-- The instruction at the instruction pointer. No instruction is longer than
`Decoder.maxLength`, so no more bytes are looked at. -/
def fetch (m : Machine) : Except Fault Fetched :=
  if m.memory.Fits m.eip 1 then
    let decoded := Decoder.instruction.decode (m.memory.slice m.eip.toNat Decoder.maxLength)
    match decoded.result with
    | .ok i =>
      .ok ⟨m.memory.byteAt m.eip.toNat, i, m.eip + UInt32.ofNat decoded.consumed.length⟩
    | .error e => .error (.decode m.eip decoded.consumed e)
  else .error (m.memory.outside .byte m.eip)

/-- The instruction at the instruction pointer, and what it asks for. -/
def prepare (m : Machine) : Except Refusal (Fetched × Action) :=
  match m.fetch with
  | .error f => .error (.fault f)
  | .ok fetched =>
    match m.plan fetched.instruction fetched.next with
    | .error r => .error r
    | .ok action => .ok (fetched, action)

/-- Counts and logs an instruction that has been carried out, and moves on. -/
def complete (m : Machine) (fetched : Fetched) (target : Option UInt32) : Machine :=
  let eip := target.getD fetched.next
  let steps := m.steps + 1
  let executed := Event.executed m.eip fetched.opcode fetched.instruction m.flags
  if m.config.haltOnZero ∧ eip = 0 then
    { m with
      eip := eip
      steps := steps
      status := .ended
      log := (m.log.push executed).push (.ended steps) }
  else { m with eip := eip, steps := steps, log := m.log.push executed }

/-- Carries out an action of a fetched instruction. -/
def perform (m : Machine) (fetched : Fetched) (action : Action) : Machine :=
  match m.carryOut action with
  | (.ok target, m) => m.complete fetched target
  | (.error f, m) => m.fail f

/-- Carries out one instruction, unless the machine has halted. -/
def step (m : Machine) : Machine :=
  match m.status with
  | .running =>
    match m.prepare with
    | .ok (fetched, action) => m.perform fetched action
    | .error (.fault f) => m.fail f
    | .error .malformed => { m with status := .stuck }
  | _ => m

/-- Carries out at most `limit` instructions, stopping once the machine has halted. -/
def run (m : Machine) : Nat → Machine
  | 0 => m
  | limit + 1 =>
    match m.status with
    | .running => m.step.run limit
    | _ => m

/-- Boots, places an image and carries out at most `limit` instructions of it. -/
def execute (config : Config) (host : Host) (image : List UInt8) (limit : Nat) :
    Except Fault Machine :=
  match (boot config host).load image with
  | .ok m => .ok (m.run limit)
  | .error f => .error f

/-! ### Halted machines -/

/-- A halted machine stays as it is. -/
theorem step_of_halted {m : Machine} (h : m.status ≠ .running) : m.step = m := by
  unfold step
  split
  · contradiction
  · rfl

/-- A halted machine stays as it is, however long it is run. -/
theorem run_of_halted {m : Machine} (h : m.status ≠ .running) (limit : Nat) :
    m.run limit = m := by
  cases limit with
  | zero => rfl
  | succ limit =>
    unfold run
    split
    · contradiction
    · rfl

@[simp] theorem run_zero (m : Machine) : m.run 0 = m := rfl

/-- Running is stepping again and again, the first step first. -/
theorem run_succ (m : Machine) (limit : Nat) : m.run (limit + 1) = m.step.run limit := by
  by_cases h : m.status = .running
  · rw [run]
    simp only [h]
  · rw [run_of_halted h, step_of_halted h, run_of_halted h]

/-- A long run is a run that goes on after a short one. -/
theorem run_add (m : Machine) (j k : Nat) : m.run (j + k) = (m.run j).run k := by
  induction j generalizing m with
  | zero => rw [Nat.zero_add, run_zero]
  | succ j ih => rw [Nat.succ_add, run_succ, run_succ, ih]

end Machine

end Boot386
