import Boot386.Register
import Boot386.Flags
import Boot386.Memory
import Boot386.Console
import Boot386.Machine.Event

/-!
# The machine

A `Machine` is what the guest can change (registers, flags, instruction pointer and
memory) together with what surrounds it: the console, whether it still runs, how many
instructions it has completed, and the events so far.

A machine boots with its memory cleared and with the instruction pointer and the stack pointer at
the origin, where an image is placed by `Machine.load`.
-/

namespace Boot386

/-- What is fixed before the machine is switched on. -/
structure Config where
  memorySize : Nat := 1048576
  /-- Where an image is placed, and where instruction and stack pointer begin. -/
  origin : UInt32 := 0x7c00
  /-- Whether the guest leaves by reaching address zero. -/
  haltOnZero : Bool := true
  deriving DecidableEq, Repr, Inhabited

/-- Whether the machine runs, and if not, why. -/
inductive Status where
  | running
  /-- The guest reached address zero. -/
  | ended
  /-- An instruction could not be carried out. -/
  | faulted (f : Fault)
  /-- An instruction has operands that its operation cannot work on. No bytes decode to
  such an instruction. -/
  | stuck
  deriving DecidableEq, Repr, Inhabited

/-- The machine. -/
structure Machine where
  config : Config
  registers : Registers
  flags : Flags
  eip : UInt32
  memory : Memory
  console : Console
  status : Status
  /-- How many instructions have been completed. -/
  steps : Nat
  /-- What happened, the oldest event first. -/
  log : Array Event
  deriving Inhabited

namespace Machine

/-- A machine that has just been switched on. -/
def boot (config : Config) (host : Host) : Machine where
  config := config
  registers := { esp := config.origin }
  flags := {}
  eip := config.origin
  memory := Memory.ofSize config.memorySize
  console := { host := host }
  status := .running
  steps := 0
  log := #[]

/-- Places an image at the origin. -/
def load (m : Machine) (image : List UInt8) : Except Fault Machine :=
  match m.memory.place m.config.origin image with
  | .ok memory => .ok { m with memory := memory }
  | .error f => .error f

/-- Adds an event to the log. -/
def note (m : Machine) (e : Event) : Machine :=
  { m with log := m.log.push e }

/-- Stops the machine with a fault. -/
def fail (m : Machine) (f : Fault) : Machine :=
  { m with status := .faulted f, log := m.log.push (.faulted m.eip f) }

end Machine

end Boot386
