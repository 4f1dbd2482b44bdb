import Boot386.Checked.Reader
import Boot386.Machine.Step

/-!
# Running the machine in order

The machine once more, as a `Routine` that changes one thing after the other. A register, a byte
of memory or the flags are written where an instruction says so, and not all at once at its end;
if the instruction cannot go on, what it has written stays written. Every access is checked: a
register by its index in the file, bytes of memory by their range, an operand by its kind, and the
count of instructions by its 64 bits.

* `Routine.process` carries out an instruction;
* `executeNext` fetches one first, and moves on after it;
* `step` and `run` are the outer layers, which end in a machine or in a crash.
-/

namespace Boot386.Checked

abbrev Routine (α : Type) := Task Fault Machine α

namespace Routine

/-! ### Registers -/

def getReg (r : Reg) : Routine UInt32 := do
  let m ← get
  element m.registers.toList r.code.val

def setReg (r : Reg) (v : UInt32) : Routine Unit := do
  let m ← get
  let count := m.registers.toList.length
  require (r.code.val < count) (.index r.code.val count)
  set { m with registers := m.registers.set r v }

/-- How far a byte register is from the low end of its parent, in bits. -/
def shift (r : Reg8) : Routine Nat := do
  require (8 * r.offset < 32) (.shift (8 * r.offset))
  return 8 * r.offset

def getReg8 (r : Reg8) : Routine UInt8 := do
  let v ← getReg r.parent
  let bits ← shift r
  return UInt8.ofNat (v.toNat >>> bits)

def setReg8 (r : Reg8) (b : UInt8) : Routine Unit := do
  -- the mask is shifted into place before the parent is read
  let _ ← shift r
  let v ← getReg r.parent
  setReg r.parent (Word.setByte v r.offset b)

def setFlags (f : Flags) : Routine Unit := do
  let m ← get
  set { m with flags := f }

/-! ### Memory -/

/-- Where `n` bytes at an address begin and end, if they are all inside. -/
def range (a : UInt32) (n : Nat) : Routine (Nat × Nat) := do
  let m ← get
  -- a sum without room in 64 bits is outside as well
  if a.toNat + n < UInt64.size ∧ a.toNat + n ≤ m.memory.size then
    return (a.toNat, a.toNat + n)
  else
    fail (.outOfBounds a n m.memory.size)

def slice (start stop : Nat) : Routine (List UInt8) := do
  let m ← get
  require (start ≤ stop ∧ stop ≤ m.memory.size) (.range start stop m.memory.size)
  return m.memory.slice start (stop - start)

/-- Replaces the bytes of a range. -/
def overwrite (start stop : Nat) (bytes : List UInt8) : Routine Unit := do
  let m ← get
  require (start ≤ stop ∧ stop ≤ m.memory.size) (.range start stop m.memory.size)
  let bytes ← copy (stop - start) bytes
  set { m with memory := m.memory.store start bytes }

def readByte (a : UInt32) : Routine UInt8 := do
  let (start, _) ← range a 1
  let m ← get
  require (start < m.memory.size) (.index start m.memory.size)
  return m.memory.byteAt start

def writeByte (a : UInt32) (b : UInt8) : Routine Unit := do
  let (start, _) ← range a 1
  let m ← get
  require (start < m.memory.size) (.index start m.memory.size)
  set { m with memory := m.memory.put start b }

def readWord (a : UInt32) : Routine UInt32 := do
  let (start, stop) ← range a 4
  let bytes ← copy 4 (← slice start stop)
  return Word.unsigned bytes

def writeWord (a : UInt32) (v : UInt32) : Routine Unit := do
  let (start, stop) ← range a 4
  overwrite start stop (Word.toBytes v)

def readMemory (w : Width) (a : UInt32) : Routine UInt32 :=
  match w with
  | .byte => return (← readByte a).toUInt32
  | .dword => readWord a

def writeMemory (w : Width) (a : UInt32) (v : UInt32) : Routine Unit :=
  match w with
  | .byte => writeByte a (Word.byte v 0)
  | .dword => writeWord a v

/-- Places an image at the origin. -/
def load (image : List UInt8) : Routine Unit := do
  let m ← get
  let start := m.config.origin.toNat
  if start + image.length < UInt64.size ∧ start + image.length ≤ m.memory.size then
    overwrite start (start + image.length) image
  else
    fail (.imageTooLarge m.config.origin image.length m.memory.size)

/-! ### The stack -/

def push (v : UInt32) : Routine Unit := do
  let esp ← getReg .esp
  -- the stack pointer moves only when the word has found room
  writeWord (esp - 4) v
  setReg .esp (esp - 4)

def pop : Routine UInt32 := do
  let esp ← getReg .esp
  let v ← readWord esp
  setReg .esp (esp + 4)
  return v

/-! ### Operands -/

/-- The address of an operand that has to have one. -/
def address (o : Operand) : Routine UInt32 :=
  match o with
  | .mem base d => return (← getReg base) + Word.ofSigned d
  | _ => crash .malformed

def readOperand (o : Operand) (w : Width) : Routine UInt32 :=
  match o with
  | .reg r => getReg r
  | .reg8 r => return (← getReg8 r).toUInt32
  | .dx => return (← getReg .edx) &&& 0xffff
  | .imm v => return v
  | .mem .. => do
    let a ← address o
    readMemory w a
  | .rel _ => crash .malformed
  | .absent => crash .malformed

def writeOperand (o : Operand) (w : Width) (v : UInt32) : Routine Unit :=
  match o with
  | .reg r => setReg r v
  | .reg8 r => setReg8 r (Word.byte v 0)
  | .mem .. => do
    let a ← address o
    writeMemory w a v
  | .dx => crash .malformed
  | .imm _ => crash .malformed
  | .rel _ => crash .malformed
  | .absent => crash .malformed

/-! ### Console and firmware -/

def note (e : Event) : Routine Unit := do
  let m ← get
  set (m.note e)

def portIn (a : IoAddress) : Routine UInt8 := do
  let m ← get
  match m.console.input a with
  | (.error reason, console) =>
    set { m with console := console }
    fail (.console reason)
  | (.ok (.byte b), console) =>
    set { m with console := console }
    return b
  | (.ok .exhausted, console) =>
    set { m with console := console }
    note .inputExhausted
    return Received.exhausted.value

def portOut (a : IoAddress) (b : UInt8) : Routine Unit := do
  let m ← get
  match m.console.output a [b] with
  | (.error reason, console) =>
    set { m with console := console }
    fail (.console reason)
  | (.ok (), console) => set { m with console := console }

/-- Sends bytes to the console, each on its own. -/
def sendAll : List UInt8 → Routine Unit
  | [] => pure ()
  | b :: bytes => do
    portOut Console.address b
    sendAll bytes

/-- The terminal's color codes, in the order of the text-mode colors. -/
def palette : List Nat :=
  [30, 34, 32, 36, 31, 35, 33, 37]

/-- The bytes that show a character with a style. -/
def teletype (character style : UInt8) : Routine (List UInt8) := do
  let color ← element palette (style &&& 7).toNat
  let bright := if style &&& 8 = 0 then 0 else 1
  return Teletype.escape
    ++ Ascii.bytes (Numeral.decimal bright ++ ";" ++ Numeral.decimal color)
    ++ Ascii.bytes "m" ++ [character] ++ Teletype.escape ++ Ascii.bytes "0m"

def video : Routine Unit := do
  let function ← getReg8 .ah
  if function = Machine.teletypeFunction then
    let character ← getReg8 .al
    let style ← getReg8 .bl
    sendAll (← teletype character (style &&& 0x0f))
  else
    note (.unknownVideoFunction function)

def interrupt (vector : UInt8) : Routine Unit :=
  if vector = Machine.videoVector then
    video
  else do
    let m ← get
    note (.unknownInterrupt vector m.eip)

/-! ### Instructions -/

/-- Carries out an instruction; `next` is the address behind it. The result is where the guest
goes on, if that is somewhere else. -/
def process (i : Instruction) (next : UInt32) : Routine (Option UInt32) :=
  match i.op, i.left with
  | .mov, left => do
    let v ← readOperand i.right i.width
    writeOperand left i.width v
    return none
  | .add, left => do
    let a ← readOperand left i.width
    let b ← readOperand i.right i.width
    writeOperand left i.width (a + b)
    return none
  | .sub, left => do
    let a ← readOperand left i.width
    let b ← readOperand i.right i.width
    writeOperand left i.width (a - b)
    -- by now the result has been written
    setFlags (Flags.ofSub a b)
    return none
  | .cmp, left => do
    let a ← readOperand left i.width
    let b ← readOperand i.right i.width
    setFlags (Flags.ofSub a b)
    return none
  | .inc, left => do
    let a ← readOperand left i.width
    writeOperand left i.width (a + 1)
    return none
  | .push, left => do
    let v ← readOperand left .dword
    push v
    return none
  | .pop, left => do
    let v ← pop
    -- by now the stack pointer has moved
    writeOperand left .dword v
    return none
  | .call, .rel d => do
    push next
    return some (Machine.jumpTarget next d)
  | .ret, _ => do
    let v ← pop
    return some v
  | .leave, _ => do
    -- the saved frame pointer is read before either register changes
    let frame ← getReg .ebp
    let saved ← readWord frame
    setReg .esp (frame + 4)
    setReg .ebp saved
    return none
  | .jmp, .rel d => return some (Machine.jumpTarget next d)
  | .jcc c, .rel d => do
    let m ← get
    return if c.holds m.flags then some (Machine.jumpTarget next d) else none
  | .input, left => do
    let a ← readOperand i.right .dword
    let b ← portIn a.toUInt16
    -- by now the console has given away the byte
    writeOperand left .byte b.toUInt32
    return none
  | .output, left => do
    let a ← readOperand left .dword
    let v ← readOperand i.right .byte
    portOut a.toUInt16 (Word.byte v 0)
    return none
  | .interrupt, left => do
    let vector ← readOperand left .byte
    interrupt (Word.byte vector 0)
    return none
  | _, _ => crash .malformed

/-! ### Steps -/

/-- The instruction at an address, and how many bytes it has. -/
def decode (eip : UInt32) : Routine (Instruction × Nat) := do
  let m ← get
  let data := m.memory.slice 0 m.memory.size
  match Reader.instruction ⟨data, eip.toNat, 0⟩ with
  | .ok i t => return (i, t.moved)
  | .error (.crash c) _ => crash c
  | .error (.error e) t => do
    let stop ← addSize t.start t.moved
    fail (.decode eip ((data.drop t.start).take (min stop data.length - t.start)) e)

/-- Fetches an instruction, carries it out and moves on. -/
def executeNext : Routine Unit := do
  let eip := (← get).eip
  let opcode ← readByte eip
  let (i, moved) ← decode eip
  let next := eip + UInt32.ofNat moved
  let target ← process i next
  let m ← get
  set { m with
    eip := target.getD next
    log := m.log.push (.executed eip opcode i m.flags) }

end Routine

/-- Counts an instruction that has been carried out, and ends at address zero. -/
def finish (m : Machine) : Except Crash Machine :=
  if m.steps + 1 < UInt64.size then
    let steps := m.steps + 1
    if m.config.haltOnZero ∧ m.eip = 0 then
      .ok { m with steps := steps, status := .ended, log := m.log.push (.ended steps) }
    else
      .ok { m with steps := steps }
  else
    .error .overflow

/-- Carries out one instruction, unless the machine has halted. -/
def step (m : Machine) : Except Crash Machine :=
  match m.status with
  | .running =>
    match Routine.executeNext m with
    | .ok () m => finish m
    | .error (.error f) m => .ok (m.fail f)
    | .error (.crash c) _ => .error c
  | _ => .ok m

/-- Carries out at most `limit` instructions, stopping once the machine has halted. -/
def run (m : Machine) : Nat → Except Crash Machine
  | 0 => .ok m
  | limit + 1 =>
    match m.status with
    | .running => do
      let m ← step m
      run m limit
    | _ => .ok m

end Boot386.Checked
