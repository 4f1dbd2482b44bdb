import Boot386.Ascii
import Boot386.Numeral

/-!
# Teletype output

The firmware writes a character with a text-mode style as a terminal sequence: an escape
sequence that sets brightness and color, the character, and an escape sequence that resets both.
-/

namespace Boot386.Teletype

/-- The terminal's color code for a text-mode color: the two palettes list the same eight
colors in different orders. -/
def color (style : UInt8) : Nat :=
  match style.toNat % 8 with
  | 0 => 30
  | 1 => 34
  | 2 => 32
  | 3 => 36
  | 4 => 31
  | 5 => 35
  | 6 => 33
  | _ => 37

/-- One for a bright color, which bit 3 of the style asks for, and zero otherwise. -/
def bright (style : UInt8) : Nat :=
  style.toNat / 8 % 2

/-- The bytes that begin an escape sequence. -/
def escape : List UInt8 := [0x1b, 0x5b]

/-- The bytes that show a character with a style. -/
def sequence (character style : UInt8) : List UInt8 :=
  escape ++ Ascii.bytes (Numeral.decimal (bright style) ++ ";" ++ Numeral.decimal (color style))
    ++ Ascii.bytes "m" ++ [character] ++ escape ++ Ascii.bytes "0m"

end Boot386.Teletype
