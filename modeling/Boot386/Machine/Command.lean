import Boot386.Machine.Step

/-!
# Commands

A machine can be driven from outside: images are placed, steps are made, and registers, stack
and console are used between them. A `Command` is one such use, and `Machine.apply` carries it
out and tells the outcome.

Only stepping and running move the instruction pointer, change the flags or halt the machine.
-/

namespace Boot386

/-- A use of the machine from outside. -/
inductive Command where
  /-- Place an image at the origin. -/
  | load (image : List UInt8)
  /-- Carry out one instruction. -/
  | step
  /-- Carry out instructions until the machine halts, but at most `limit`. -/
  | run (limit : Nat)
  /-- Write a register. -/
  | set (r : Reg) (w : UInt32)
  /-- Write a byte register. -/
  | set8 (r : Reg8) (b : UInt8)
  /-- Replace all registers. -/
  | setAll (rs : Registers)
  /-- Push a word. -/
  | push (w : UInt32)
  /-- Pop a word. -/
  | pop
  /-- Read a byte from an I/O address. -/
  | input (a : IoAddress)
  /-- Write a byte to an I/O address. -/
  | output (a : IoAddress) (b : UInt8)
  deriving DecidableEq, Repr, Inhabited

/-- What a command tells. -/
inductive Outcome where
  | done
  | word (w : UInt32)
  | byte (b : UInt8)
  | refused (f : Fault)
  deriving DecidableEq, Repr, Inhabited

namespace Machine

/-- Reads a byte from an I/O address, noting an end of input. -/
def receive (m : Machine) (a : IoAddress) : Outcome × Machine :=
  match m.console.input a with
  | (.error reason, console) => (.refused (.console reason), { m with console := console })
  | (.ok (.byte b), console) => (.byte b, { m with console := console })
  | (.ok .exhausted, console) =>
    (.byte Received.exhausted.value,
      { m with console := console, log := m.log.push .inputExhausted })

/-- Writes a byte to an I/O address. -/
def transmit (m : Machine) (a : IoAddress) (b : UInt8) : Outcome × Machine :=
  match m.console.output a [b] with
  | (.error reason, console) => (.refused (.console reason), { m with console := console })
  | (.ok (), console) => (.done, { m with console := console })

/-- Carries out a command. A refused command changes at most the console and the log. -/
def apply (m : Machine) : Command → Outcome × Machine
  | .load image =>
    match m.load image with
    | .ok m => (.done, m)
    | .error f => (.refused f, m)
  | .step => (.done, m.step)
  | .run limit => (.done, m.run limit)
  | .set r w => (.done, { m with registers := m.registers.set r w })
  | .set8 r b => (.done, { m with registers := m.registers.set8 r b })
  | .setAll rs => (.done, { m with registers := rs })
  | .push w =>
    match m.push w with
    | .ok m => (.done, m)
    | .error f => (.refused f, m)
  | .pop =>
    match m.pop with
    | .ok (w, m) => (.word w, m)
    | .error f => (.refused f, m)
  | .input a => m.receive a
  | .output a b => m.transmit a b

/-- Carries out commands one after the other. -/
def applyAll (m : Machine) (commands : List Command) : Machine :=
  commands.foldl (fun m c => (m.apply c).2) m

end Machine

end Boot386
