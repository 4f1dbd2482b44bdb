import Boot386.Checked.Basic
import Boot386.Encoding.ModRM
import Boot386.Encoding.Form

/-!
# Reading instructions from a tape

A `Reader` reads an instruction where it stands, among all the other bytes of a memory: it knows
the whole memory, a starting address and how many bytes it has read from there, and it counts the
bytes as it reads them. Registers and forms are looked up in tables, under indices that are cut
out of the bytes.
-/

namespace Boot386.Checked

/-- A place in some bytes, reached by reading on from a starting place. -/
structure Tape where
  data : List UInt8
  start : Nat
  /-- How many bytes have been read. -/
  moved : Nat := 0
  deriving DecidableEq, Repr, Inhabited

abbrev Reader (α : Type) := Task DecodeError Tape α

/-- The fields of an operand byte as they are cut out of it, and the displacement. -/
structure Fields where
  mode : UInt8
  reg : UInt8
  rm : UInt8
  displacement : Int32
  deriving DecidableEq, Repr, Inhabited

/-- The forms of all leading bytes. -/
def dispatch : List (Option Form) :=
  (List.range 256).map fun n => Form.ofOpcode? (UInt8.ofNat n)

namespace Reader

/-! ### Bytes -/

/-- The bytes from the place on. Behind the end there are none. -/
def remaining : Reader (List UInt8) := do
  let t ← get
  let place ← addSize t.start t.moved
  return t.data.drop place

/-- Counts bytes as read. -/
def advance (n : Nat) : Reader Unit := do
  let t ← get
  let moved ← addSize t.moved n
  set { t with moved := moved }

/-- The next `n` bytes. Where there are fewer, none is read. -/
def take (n : Nat) : Reader (List UInt8) := do
  let rest ← remaining
  if rest.length < n then
    fail .truncated
  else
    let bytes ← copy n (rest.take n)
    advance n
    return bytes

def byte : Reader UInt8 := do
  let bytes ← take 1
  element bytes 0

def word : Reader UInt32 := do
  let bytes ← take 4
  return Word.ofBytes (← element bytes 0) (← element bytes 1) (← element bytes 2)
    (← element bytes 3)

/-! ### Operands -/

/-- Whether no operand can be made of these fields. -/
def Unimplemented (mode rm : UInt8) : Prop :=
  mode = 0 ∧ (rm = 4 ∨ rm = 5) ∨ (mode = 1 ∨ mode = 2) ∧ rm = 4

instance (mode rm : UInt8) : Decidable (Unimplemented mode rm) :=
  inferInstanceAs (Decidable (_ ∨ _))

/-- An operand byte with its displacement. An operand byte that cannot be used counts as read,
because it is the cause of the error. -/
def modRM : Reader Fields := do
  let rest ← remaining
  match rest with
  | [] => fail .truncated
  | first :: _ =>
    let mode := (first >>> 6) &&& 3
    let reg := (first >>> 3) &&& 7
    let rm := first &&& 7
    if Unimplemented mode rm then
      -- the displacement is not read, whether it is there or not
      advance 1
      fail (.unimplementedAddressing mode rm)
    else
      let length := if mode = 1 then 1 else if mode = 2 then 4 else 0
      let stop ← addSize 1 length
      if rest.length < stop then
        fail .truncated
      else
        advance stop
        return ⟨mode, reg, rm, Word.signed ((rest.take stop).drop 1)⟩

/-- The register of some width with an index. -/
def register (w : Width) (i : UInt8) : Reader Operand :=
  match w with
  | .byte => return .reg8 (← element Reg8.all i.toNat)
  | .dword => return .reg (← element Reg.all i.toNat)

/-- The operand that mode and `rm` stand for. -/
def rmOperand (f : Fields) (w : Width) : Reader Operand := do
  if f.mode = 3 then
    register w f.rm
  else
    let base ← element Reg.all f.rm.toNat
    return .mem base f.displacement

/-- The register that `reg` stands for. -/
def regOperand (f : Fields) (w : Width) : Reader Operand :=
  register w f.reg

/-- The register in the low bits of a leading byte. -/
def embedded (w : Width) (opcode : UInt8) : Reader Operand :=
  register w (opcode &&& 7)

def immediate (w : Width) : Reader Operand :=
  match w with
  | .byte => return .imm (← byte).toUInt32
  | .dword => return .imm (← word)

def signedImmediate : Reader Operand :=
  return .imm (Word.ofSigned (Word.signExtend (← byte)))

def relative (w : Width) : Reader Operand :=
  match w with
  | .byte => return .rel (Word.signExtend (← byte))
  | .dword => return .rel (Word.toSigned (← word))

/-! ### Instructions -/

/-- A result that takes no reading. -/
def ofExcept {α : Type} (x : Except DecodeError α) : Reader α :=
  match x with
  | .ok a => pure a
  | .error e => fail e

/-- The rest of an instruction of a shared leading byte. -/
def grouped (f : Fields) (op : GroupOp) : Reader Instruction :=
  match op with
  | .arithmetic op => do
    let left ← rmOperand f .dword
    return ⟨op, .dword, left, ← signedImmediate⟩
  | .move w => do
    let left ← rmOperand f w
    return ⟨.mov, w, left, ← immediate w⟩
  | .increment => do
    let left ← rmOperand f .dword
    return ⟨.inc, .dword, left, .absent⟩

/-- The rest of an instruction, behind its leading byte. -/
def operands (opcode : UInt8) (form : Form) : Reader Instruction :=
  match form with
  | .rmReg op w => do
    let f ← modRM
    let left ← rmOperand f w
    let right ← regOperand f w
    return ⟨op, w, left, right⟩
  | .regRM op w => do
    let f ← modRM
    let right ← rmOperand f w
    let left ← regOperand f w
    return ⟨op, w, left, right⟩
  -- the accumulator is known without looking it up
  | .regImm .cmp w code => return ⟨.cmp, w, .ofCode w code, ← immediate w⟩
  | .regImm op w _ => do
    let left ← embedded w opcode
    return ⟨op, w, left, ← immediate w⟩
  | .reg op _ => do
    let left ← embedded .dword opcode
    return ⟨op, .dword, left, .absent⟩
  | .pushImm .byte => return ⟨.push, .dword, ← signedImmediate, .absent⟩
  | .pushImm .dword => return ⟨.push, .dword, ← immediate .dword, .absent⟩
  | .relative op w => return ⟨op, .byte, ← relative w, .absent⟩
  | .vector op => return ⟨op, .byte, ← immediate .byte, .absent⟩
  | .complete i => return i
  | .group => do
    let f ← modRM
    -- the sub-code is judged before the constant is read
    let op ← ofExcept (GroupOp.ofCodes opcode f.reg)
    grouped f op

def instruction : Reader Instruction := do
  let opcode ← byte
  let entry ← element dispatch opcode.toNat
  match entry with
  | some form => operands opcode form
  | none => fail (.unknownOpcode opcode)

end Reader

end Boot386.Checked
