import Boot386.Log
import Boot386.Fault
import Boot386.Instruction.Text

/-!
# Machine events

While it runs the machine notes what happens: each instruction it completes, what it met on
the way, and why it stopped. An `Event` holds the facts, and `Event.entry` words them.
-/

namespace Boot386

/-- Something that happened in the machine. -/
inductive Event where
  /-- An instruction at `eip` was completed; the flags are those after it. -/
  | executed (eip : UInt32) (opcode : UInt8) (instruction : Instruction) (flags : Flags)
  /-- The guest left through address zero after `steps` instructions. -/
  | ended (steps : Nat)
  /-- The guest read from the console behind the end of its input. -/
  | inputExhausted
  /-- The guest called an interrupt that nobody serves. -/
  | unknownInterrupt (vector : UInt8) (eip : UInt32)
  /-- The guest asked the video service for something it does not do. -/
  | unknownVideoFunction (function : UInt8)
  /-- The instruction at `eip` could not be carried out. -/
  | faulted (eip : UInt32) (fault : Fault)
  deriving DecidableEq, Repr, Inhabited

namespace Event

/-- How severe an event is. -/
def level : Event → Level
  | executed .. => .trace
  | ended _ => .debug
  | inputExhausted => .debug
  | unknownInterrupt .. => .warn
  | unknownVideoFunction _ => .warn
  | faulted .. => .error

/-- The part of the machine that an event belongs to. -/
def target : Event → String
  | executed .. => "sim386::simulator"
  | ended _ => "sim386::simulator"
  | inputExhausted => "sim386::console"
  | unknownInterrupt .. => "sim386::bios"
  | unknownVideoFunction _ => "sim386::bios"
  | faulted .. => "sim386::simulator"

/-- The wording of an event. -/
def message : Event → String
  | executed _ _ i _ => i.text
  | ended _ => "end of program"
  | inputExhausted => "console input exhausted, reading 0"
  | unknownInterrupt .. => "unknown interrupt"
  | unknownVideoFunction _ => "unknown video function"
  | faulted _ f => f.message

/-- The details of an event. -/
def fields : Event → List (String × String)
  | executed eip opcode _ flags =>
    [("eip", Numeral.address eip), ("opcode", Numeral.octet opcode), ("flags", flags.text)]
  | ended steps => [("steps", Numeral.decimal steps)]
  | inputExhausted => []
  | unknownInterrupt vector eip =>
    [("vector", Numeral.octet vector), ("eip", Numeral.address eip)]
  | unknownVideoFunction function => [("function", Numeral.octet function)]
  | faulted eip _ => [("eip", Numeral.address eip)]

/-- The log entry of an event. -/
def entry (e : Event) : LogEntry :=
  ⟨e.level, e.target, e.message, e.fields⟩

end Event

end Boot386
