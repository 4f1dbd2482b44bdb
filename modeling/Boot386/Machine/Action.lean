import Boot386.Machine.Change
import Boot386.Console.Teletype

/-!
# What instructions ask for

`Machine.plan` turns an instruction into an `Action` without touching anything: most
instructions commit a change, a few use the console, and some have nothing to do but to be
noted. `Machine.carryOut` does it, and only the host of the console can make it fail then.

The arithmetic is that of words. Only subtraction and comparison set the flags.
-/

namespace Boot386

/-- What an instruction asks the machine to do. -/
inductive Action where
  | commit (c : Change)
  /-- Read a byte from an I/O address into a byte register. -/
  | input (a : IoAddress) (r : Reg8)
  /-- Write bytes to an I/O address, one after the other. -/
  | output (a : IoAddress) (bytes : List UInt8)
  /-- Note an event and go on. -/
  | note (e : Event)
  deriving DecidableEq, Repr, Inhabited

namespace Machine

/-! ### Firmware -/

/-- The interrupt of the video service. -/
def videoVector : UInt8 := 0x10

/-- The only function of the video service: teletype output. -/
def teletypeFunction : UInt8 := 0x0e

/-- A call of the video service. The function is in `ah`, the character in `al` and its
style in `bl`. -/
def video (m : Machine) : Action :=
  let function := m.registers.get8 .ah
  if function = teletypeFunction then
    .output Console.address (Teletype.sequence (m.registers.get8 .al) (m.registers.get8 .bl))
  else .note (.unknownVideoFunction function)

/-- A software interrupt. -/
def interrupt (m : Machine) (vector : UInt8) : Action :=
  if vector = videoVector then m.video else .note (.unknownInterrupt vector m.eip)

/-! ### Instructions -/

/-- The displacement of an operand that has to be a relative code address. -/
def codeDisplacement : Operand → Except Refusal Int32
  | .rel d => .ok d
  | _ => .error .malformed

/-- The byte register that an operand has to be. -/
def byteRegister : Operand → Except Refusal Reg8
  | .reg8 r => .ok r
  | _ => .error .malformed

/-- The target of a relative jump from the end of an instruction. -/
def jumpTarget (next : UInt32) (d : Int32) : UInt32 :=
  next + Word.ofSigned d

/-- What an instruction asks for; `next` is the address behind it. -/
def plan (m : Machine) (i : Instruction) (next : UInt32) : Except Refusal Action :=
  match i.op with
  | .mov => do
    let v ← m.read i.width i.right
    return .commit (← m.write i.width i.left v m.unchanged)
  | .add => do
    let a ← m.read i.width i.left
    let b ← m.read i.width i.right
    -- addition leaves the flags alone
    return .commit (← m.write i.width i.left (a + b) m.unchanged)
  | .sub => do
    let a ← m.read i.width i.left
    let b ← m.read i.width i.right
    let c := { m.unchanged with flags := Flags.ofSub a b }
    return .commit (← m.write i.width i.left (a - b) c)
  | .cmp => do
    let a ← m.read i.width i.left
    let b ← m.read i.width i.right
    return .commit { m.unchanged with flags := Flags.ofSub a b }
  | .inc => do
    let a ← m.read i.width i.left
    return .commit (← m.write i.width i.left (a + 1) m.unchanged)
  | .push => do
    let v ← m.read .dword i.left
    return .commit (← (m.pushed v).mapError .fault)
  | .pop => do
    let (v, c) ← m.popped.mapError .fault
    -- the stack pointer has moved already, so that popping into it leaves the popped word
    return .commit (← m.write .dword i.left v c)
  | .call => do
    let d ← codeDisplacement i.left
    let c ← (m.pushed next).mapError .fault
    return .commit { c with target := some (jumpTarget next d) }
  | .ret => do
    let (v, c) ← m.popped.mapError .fault
    return .commit { c with target := some v }
  | .leave => do
    -- the saved frame pointer is read before either register changes
    let frame := m.registers.get .ebp
    let saved ← (m.memory.read .dword frame).mapError .fault
    return .commit { m.unchanged with
      registers := (m.registers.set .esp (frame + 4)).set .ebp saved }
  | .jmp => do
    let d ← codeDisplacement i.left
    return .commit { m.unchanged with target := some (jumpTarget next d) }
  | .jcc c => do
    let d ← codeDisplacement i.left
    return .commit { m.unchanged with
      target := if c.holds m.flags then some (jumpTarget next d) else none }
  | .input => do
    let r ← byteRegister i.left
    let a ← m.read .dword i.right
    return .input a.toUInt16 r
  | .output => do
    let a ← m.read .dword i.left
    let v ← m.read .byte i.right
    return .output a.toUInt16 [Word.byte v 0]
  | .interrupt => do
    let vector ← m.read .byte i.left
    return m.interrupt (Word.byte vector 0)

/-- Does what an instruction asks for, and tells where the guest goes on, if that is not the
following instruction. -/
def carryOut (m : Machine) : Action → Except Fault (Option UInt32) × Machine
  | .commit c => (.ok c.target, m.commit c)
  | .input a r =>
    match m.console.input a with
    | (.error reason, console) => (.error (.console reason), { m with console := console })
    | (.ok (.byte b), console) =>
      (.ok none, { m with console := console, registers := m.registers.set8 r b })
    | (.ok .exhausted, console) =>
      (.ok none, { m with
        console := console
        registers := m.registers.set8 r Received.exhausted.value
        log := m.log.push .inputExhausted })
  | .output a bytes =>
    match m.console.output a bytes with
    | (.error reason, console) => (.error (.console reason), { m with console := console })
    | (.ok (), console) => (.ok none, { m with console := console })
  | .note e => (.ok none, m.note e)

/-! ### What carrying out an action keeps -/

/-- An action moves nothing on: that is left to the step that carries it out. -/
theorem keeps_of_carryOut {m m' : Machine} {a : Action} {r : Except Fault (Option UInt32)}
    (h : m.carryOut a = (r, m')) :
    m'.config = m.config ∧ m'.eip = m.eip ∧ m'.status = m.status ∧ m'.steps = m.steps := by
  obtain rfl : m' = (m.carryOut a).2 := by rw [h]
  unfold carryOut
  split
  · simp
  · split <;> exact ⟨rfl, rfl, rfl, rfl⟩
  · split <;> exact ⟨rfl, rfl, rfl, rfl⟩
  · exact ⟨rfl, rfl, rfl, rfl⟩

/-- Only the console can fail, and then nothing but the console has changed. -/
theorem eq_of_carryOut_error {m m' : Machine} {a : Action} {f : Fault}
    (h : m.carryOut a = (.error f, m')) : m' = { m with console := m'.console } := by
  unfold carryOut at h
  split at h
  · cases h
  · split at h <;> cases h
    rfl
  · split at h <;> cases h
    rfl
  · cases h

end Machine

end Boot386
