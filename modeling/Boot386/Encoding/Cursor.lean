import Boot386.Encoding.Instruction

/-!
# Cursors

A cursor stands inside a row of bytes. What it has consumed since it was placed is remembered,
and decoding goes on behind it, also after an error. A cursor placed behind the last byte has
nothing to consume.

`Cursor.consumed_append_rest_next`: a step moves bytes from the rest to what is consumed,
and loses none.
-/

namespace Boot386

/-- A place in a row of bytes. -/
structure Cursor where
  /-- The bytes between the starting place and this one. -/
  consumed : List UInt8
  /-- The bytes from this place on. -/
  rest : List UInt8
  deriving DecidableEq, Repr, Inhabited

namespace Cursor

variable {α : Type}

/-- A cursor placed at an index of some bytes. -/
def place (bytes : List UInt8) (start : Nat) : Cursor :=
  ⟨[], bytes.drop start⟩

/-- How many bytes have been consumed. -/
def moved (c : Cursor) : Nat := c.consumed.length

/-- Decodes at the cursor and moves it behind the bytes consumed. -/
def next (c : Cursor) (d : Decoder α) : Except DecodeError α × Cursor :=
  let decoded := d.decode c.rest
  (decoded.result, ⟨c.consumed ++ decoded.consumed, decoded.rest⟩)

/-- A step keeps the bytes from the starting place on. -/
theorem consumed_append_rest_next (c : Cursor) {d : Decoder α} (hd : d.Forward) :
    (c.next d).2.consumed ++ (c.next d).2.rest = c.consumed ++ c.rest := by
  simp [next, List.append_assoc, Decoder.consumed_append_rest hd]

end Cursor

end Boot386
