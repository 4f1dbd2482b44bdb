/-!
# ASCII text as bytes

Everything that the machine itself prints is ASCII, where a character is the byte with its code.
-/

namespace Boot386.Ascii

/-- The codes of an ASCII text. -/
def bytes (s : String) : List UInt8 :=
  s.toList.map fun c => UInt8.ofNat c.toNat

@[simp] theorem bytes_append (s t : String) : bytes (s ++ t) = bytes s ++ bytes t := by
  simp [bytes]

end Boot386.Ascii
