import Boot386.Numeral

/-!
# Faults

`DecodeError` lists why bytes are no instruction, `Fault` what can stop the machine or refuse
an image. Each value carries what is needed to identify the cause, and `message` words it.
-/

namespace Boot386

/-- Why the bytes at some place are no instruction. -/
inductive DecodeError where
  /-- No operation has this leading byte. -/
  | unknownOpcode (opcode : UInt8)
  /-- The leading byte is shared by several operations, and none has this sub-code. -/
  | unknownSubOpcode (opcode sub : UInt8)
  /-- A memory operand other than a base register plus a displacement. -/
  | unimplementedAddressing (mode rm : UInt8)
  /-- The instruction goes on behind the last byte. -/
  | truncated
  deriving DecidableEq, Repr, Inhabited

/-- The wording of a decode error. -/
def DecodeError.message : DecodeError → String
  | unknownOpcode opcode => "unknown opcode " ++ Numeral.octet opcode
  | unknownSubOpcode opcode sub =>
    "unimplemented sub-opcode " ++ Numeral.octet opcode ++ " /" ++ Numeral.decimal sub.toNat
  | unimplementedAddressing mode rm =>
    "unimplemented addressing form mod=" ++ Numeral.decimal mode.toNat
      ++ " rm=" ++ Numeral.decimal rm.toNat
  | truncated => "instruction runs past the end of memory"

/-- What stops the machine or refuses an image. -/
inductive Fault where
  /-- The bytes at `eip` are no instruction; `bytes` are those looked at. -/
  | decode (eip : UInt32) (bytes : List UInt8) (source : DecodeError)
  /-- An access of `length` bytes at `address` leaves the memory. -/
  | outOfBounds (address : UInt32) (length capacity : Nat)
  /-- An image of `length` bytes at `origin` leaves the memory. -/
  | imageTooLarge (origin : UInt32) (length capacity : Nat)
  /-- The host side of the console failed, in the words of the host. -/
  | console (reason : String)
  deriving DecidableEq, Repr, Inhabited

/-- Bytes in brackets, two digits each, separated by commas. -/
def Fault.bytesText (bytes : List UInt8) : String :=
  "[" ++ String.intercalate ", " (bytes.map fun b => Numeral.paddedHex 2 b.toNat) ++ "]"

/-- The wording of a fault. -/
def Fault.message : Fault → String
  | decode eip bytes source =>
    "decode failed at eip=" ++ Numeral.address eip ++ " (bytes " ++ bytesText bytes ++ "): "
      ++ source.message
  | outOfBounds address length capacity =>
    "memory access out of bounds: address=" ++ Numeral.address address
      ++ " len=" ++ Numeral.decimal length ++ " capacity=" ++ Numeral.hex capacity
  | imageTooLarge origin length capacity =>
    "image of " ++ Numeral.decimal length ++ " bytes does not fit at origin "
      ++ Numeral.hex origin.toNat ++ " (capacity " ++ Numeral.hex capacity ++ ")"
  | console reason => "console i/o failed: " ++ reason

end Boot386
