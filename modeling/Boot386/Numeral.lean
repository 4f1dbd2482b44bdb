/-!
# Numerals

Every number the machine shows is written in one of four forms: plain decimal, decimal with
a mandatory sign, hexadecimal after `0x` without leading zeros, and hexadecimal padded with
zeros to a minimum width. Hexadecimal digits are lower case.
-/

namespace Boot386.Numeral

/-- Decimal digits, without leading zeros. -/
def decimal (n : Nat) : String :=
  String.ofList (Nat.toDigits 10 n)

/-- Decimal digits after a sign that is always written; zero counts as positive. -/
def signed (i : Int) : String :=
  if i < 0 then "-" ++ decimal i.natAbs else "+" ++ decimal i.natAbs

/-- Lower case hexadecimal digits, with zeros in front up to `width` digits. -/
def paddedHex (width n : Nat) : String :=
  String.ofList ((Nat.toDigits 16 n).leftpad width '0')

/-- Hexadecimal after `0x`, without leading zeros. -/
def hex (n : Nat) : String :=
  "0x" ++ String.ofList (Nat.toDigits 16 n)

/-- A byte after `0x`, in two digits. -/
def octet (b : UInt8) : String :=
  "0x" ++ paddedHex 2 b.toNat

/-- A guest address after `0x`, in eight digits. -/
def address (a : UInt32) : String :=
  "0x" ++ paddedHex 8 a.toNat

end Boot386.Numeral
