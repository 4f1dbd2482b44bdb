import Boot386.Encoding.Cursor
import Boot386.Instruction.Text

/-!
# Listings

A listing decodes instruction after instruction until the bytes end or one of them cannot be
decoded. Each line tells where its bytes stand, which they are and what they mean; a line
with an error is the last one.
-/

namespace Boot386

/-- One instruction of a listing, or the error that ends it. -/
structure Listing.Line where
  address : Nat
  /-- The bytes of the instruction, or those looked at before the error. -/
  bytes : List UInt8
  content : Except DecodeError Instruction

namespace Listing

/-- What stands on the line: the instruction, or the wording of the error. -/
def Line.text (l : Line) : String :=
  match l.content with
  | .ok i => i.text
  | .error e => e.message

/-- The lines for some bytes, the first of which stands at an address. -/
def ofBytes (address : Nat) : List UInt8 → List Line
  | [] => []
  | b :: bytes =>
    let decoded := Decoder.instruction.decode (b :: bytes)
    let line := ⟨address, decoded.consumed, decoded.result⟩
    match decoded.result with
    | .ok _ => line :: ofBytes (address + decoded.consumed.length) decoded.rest
    | .error _ => [line]
termination_by bytes => bytes.length
decreasing_by
  rw [Decoder.rest_decode]
  exact Decoder.length_left_instruction_lt b bytes

/-- The lines for the bytes from an index on. -/
def ofImage (bytes : List UInt8) (start : Nat) : List Line :=
  ofBytes start (bytes.drop start)

end Listing

end Boot386
