import Boot386.Machine.Basic

/-!
# Changes to the guest state

What an instruction does to registers, flags and memory is first worked out as a `Change`,
from the state as it is, and then committed as a whole. Every access is checked while the change
is worked out, so a commit cannot fail and a fault leaves the state as it was.

* `Machine.read` and `Machine.write` are the operand accesses.
* `Machine.pushed` and `Machine.popped` are the stack accesses, and `Machine.push` and
  `Machine.pop` commit them.
-/

namespace Boot386

/-- Why an instruction is not carried out. -/
inductive Refusal where
  /-- Something that can happen to a guest. -/
  | fault (f : Fault)
  /-- The operation cannot work on such operands. -/
  | malformed
  deriving DecidableEq, Repr, Inhabited

/-- A checked write to memory. -/
structure Store where
  width : Width
  address : UInt32
  value : UInt32
  deriving DecidableEq, Repr, Inhabited

/-- The bytes that a store writes. -/
def Store.bytes (s : Store) : List UInt8 :=
  (Word.toBytes s.value).take s.width.size

/-- What an instruction makes of the guest state. -/
structure Change where
  registers : Registers
  flags : Flags
  store : Option Store := none
  /-- Where the guest goes on, if that is not the following instruction. -/
  target : Option UInt32 := none
  deriving DecidableEq, Repr, Inhabited

namespace Machine

/-- The change that keeps everything. -/
def unchanged (m : Machine) : Change where
  registers := m.registers
  flags := m.flags

/-- Commits a change, apart from where the guest goes on. -/
def commit (m : Machine) (c : Change) : Machine :=
  match c.store with
  | none => { m with registers := c.registers, flags := c.flags }
  | some s =>
    { m with
      registers := c.registers
      flags := c.flags
      memory := m.memory.store s.address.toNat s.bytes }

/-! ### What a commit sets and keeps -/

@[simp] theorem registers_commit (m : Machine) (c : Change) :
    (m.commit c).registers = c.registers := by
  unfold commit; split <;> rfl

@[simp] theorem flags_commit (m : Machine) (c : Change) : (m.commit c).flags = c.flags := by
  unfold commit; split <;> rfl

@[simp] theorem config_commit (m : Machine) (c : Change) : (m.commit c).config = m.config := by
  unfold commit; split <;> rfl

@[simp] theorem eip_commit (m : Machine) (c : Change) : (m.commit c).eip = m.eip := by
  unfold commit; split <;> rfl

@[simp] theorem console_commit (m : Machine) (c : Change) :
    (m.commit c).console = m.console := by
  unfold commit; split <;> rfl

@[simp] theorem status_commit (m : Machine) (c : Change) : (m.commit c).status = m.status := by
  unfold commit; split <;> rfl

@[simp] theorem steps_commit (m : Machine) (c : Change) : (m.commit c).steps = m.steps := by
  unfold commit; split <;> rfl

@[simp] theorem log_commit (m : Machine) (c : Change) : (m.commit c).log = m.log := by
  unfold commit; split <;> rfl

@[simp] theorem size_memory_commit (m : Machine) (c : Change) :
    (m.commit c).memory.size = m.memory.size := by
  unfold commit; split
  · rfl
  · exact Memory.size_store ..

/-! ### Operands -/

/-- Reads an operand, extended to a word. -/
def read (m : Machine) (w : Width) : Operand → Except Refusal UInt32
  | .reg r => .ok (m.registers.get r)
  | .reg8 r => .ok (m.registers.get8 r).toUInt32
  | .dx => .ok (UInt32.ofNat ((m.registers.get .edx).toNat % 65536))
  | .imm v => .ok v
  | .mem base d =>
    (m.memory.read w (m.registers.get base + Word.ofSigned d)).mapError .fault
  | .rel _ => .error .malformed
  | .absent => .error .malformed

/-- Extends a change by a write to an operand. An address is taken from the registers as the
change leaves them. -/
def write (m : Machine) (w : Width) (o : Operand) (v : UInt32) (c : Change) :
    Except Refusal Change :=
  match o with
  | .reg r => .ok { c with registers := c.registers.set r v }
  | .reg8 r => .ok { c with registers := c.registers.set8 r (Word.byte v 0) }
  | .mem base d =>
    let address := c.registers.get base + Word.ofSigned d
    if m.memory.Fits address w.size then .ok { c with store := some ⟨w, address, v⟩ }
    else .error (.fault (m.memory.outside w address))
  | .dx => .error .malformed
  | .imm _ => .error .malformed
  | .rel _ => .error .malformed
  | .absent => .error .malformed

/-! ### The stack -/

/-- The change that pushes a word: the stack pointer goes down by four, and the word is stored
there. -/
def pushed (m : Machine) (v : UInt32) : Except Fault Change :=
  let address := m.registers.get .esp - 4
  if m.memory.Fits address 4 then
    .ok { m.unchanged with
      registers := m.registers.set .esp address
      store := some ⟨.dword, address, v⟩ }
  else .error (m.memory.outside .dword address)

/-- The word on top of the stack, and the change that pops it. -/
def popped (m : Machine) : Except Fault (UInt32 × Change) :=
  let address := m.registers.get .esp
  match m.memory.read .dword address with
  | .ok v => .ok (v, { m.unchanged with registers := m.registers.set .esp (address + 4) })
  | .error f => .error f

/-- Pushes a word. -/
def push (m : Machine) (v : UInt32) : Except Fault Machine :=
  match m.pushed v with
  | .ok c => .ok (m.commit c)
  | .error f => .error f

/-- Pops a word. -/
def pop (m : Machine) : Except Fault (UInt32 × Machine) :=
  match m.popped with
  | .ok (v, c) => .ok (v, m.commit c)
  | .error f => .error f

end Machine

end Boot386
