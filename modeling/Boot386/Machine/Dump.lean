import Boot386.Machine.Basic

/-!
# The register dump

The dump lists the eight registers in encoding order and then the instruction pointer: one
line each, with an upper case name and eight hexadecimal digits.
-/

namespace Boot386

/-- The upper case name used in the dump. -/
def Reg.label : Reg → String
  | eax => "EAX"
  | ecx => "ECX"
  | edx => "EDX"
  | ebx => "EBX"
  | esp => "ESP"
  | ebp => "EBP"
  | esi => "ESI"
  | edi => "EDI"

namespace Machine

/-- A line of the dump. -/
def dumpLine (label : String) (w : UInt32) : String :=
  label ++ " = " ++ Numeral.paddedHex 8 w.toNat ++ "\n"

/-- The register dump. -/
def dump (m : Machine) : String :=
  String.join (Reg.all.map fun r => dumpLine r.label (m.registers.get r))
    ++ dumpLine "EIP" m.eip

end Machine

end Boot386
