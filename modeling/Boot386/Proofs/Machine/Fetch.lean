import Boot386.Machine.Step
import Boot386.Proofs.Encoding.Extent
import Boot386.Proofs.Memory

/-!
# Fetching from the whole memory

A machine fetches from a window of the longest instruction's length. That is the same as decoding at
the instruction pointer in the whole memory (`Machine.decoded`), and the three outcomes of a fetch
are told apart by what comes of that: there is no byte, or the bytes are no instruction, or they are
one.
-/

namespace Boot386

/-- What is consumed from the front of some bytes is a part of them. -/
theorem Decoder.consumed_eq_take {α : Type} (d : Decoder α) (bytes : List UInt8) :
    (d.decode bytes).consumed = bytes.take (d.decode bytes).consumed.length := by
  unfold decode
  cases d bytes <;> simp

/-- Decoding in a window of the memory is decoding in the whole of it. -/
theorem Memory.decode_slice (m : Memory) (start : Nat) :
    (Decoder.instruction.decode (m.slice start Decoder.maxLength)).result
        = (Decoder.instructionAt m.toList start).1 ∧
      (Decoder.instruction.decode (m.slice start Decoder.maxLength)).consumed
        = m.slice start (Decoder.instructionAt m.toList start).2 := by
  rw [m.slice_eq_take_drop start Decoder.maxLength, m.slice_eq_take_drop start]
  obtain ⟨hresult, hconsumed⟩ := Decoder.decode_take (m.toList.drop start)
  refine ⟨hresult.trans rfl, hconsumed.trans ?_⟩
  rw [Decoder.consumed_eq_take]
  rfl

namespace Machine

variable {m : Machine}

/-- What comes of decoding at the instruction pointer, and how many bytes are consumed. -/
def decoded (m : Machine) : Except DecodeError Instruction × Nat :=
  Decoder.instructionAt m.memory.toList m.eip.toNat

theorem fetch_of_size_le (h : m.memory.size ≤ m.eip.toNat) :
    m.fetch = .error (.outOfBounds m.eip 1 m.memory.size) :=
  if_neg (Nat.not_le.2 (Nat.lt_succ_of_le h))

/-- An instruction at the instruction pointer is inside the memory. -/
theorem eip_lt_of_decoded {i : Instruction} {n : Nat} (h : m.decoded = (.ok i, n)) :
    m.eip.toNat < m.memory.size := by
  have hlt := Decoder.lt_length_of_instructionAt h
  rwa [Memory.length_toList] at hlt

theorem fetch_of_decoded_error (hlt : m.eip.toNat < m.memory.size) {e : DecodeError} {k : Nat}
    (h : m.decoded = (.error e, k)) :
    m.fetch = .error (.decode m.eip (m.memory.slice m.eip.toNat k) e) := by
  have hfits : m.memory.Fits m.eip 1 := hlt
  obtain ⟨hresult, hconsumed⟩ := m.memory.decode_slice m.eip.toNat
  rw [← decoded, h] at hresult hconsumed
  simp only [fetch, hfits, if_true, hresult, hconsumed]

theorem fetch_of_decoded {i : Instruction} {n : Nat} (h : m.decoded = (.ok i, n)) :
    m.fetch = .ok ⟨m.memory.byteAt m.eip.toNat, i, m.eip + UInt32.ofNat n⟩ := by
  have hfits : m.memory.Fits m.eip 1 := eip_lt_of_decoded h
  have hn : n ≤ m.memory.size - m.eip.toNat := by
    have hle := Decoder.instructionAt_le m.memory.toList m.eip.toNat
    rwa [← decoded, h, Memory.length_toList] at hle
  obtain ⟨hresult, hconsumed⟩ := m.memory.decode_slice m.eip.toNat
  rw [← decoded, h] at hresult hconsumed
  simp only [fetch, hfits, if_true, hresult, hconsumed, Memory.length_slice, Nat.min_eq_left hn]

/-- An encoding that stands at the instruction pointer is decoded there. -/
theorem decoded_of_holds {code : List UInt8} {i : Instruction}
    (hcode : InstructionSet.Encodes code i) (h : m.memory.Holds m.eip code) :
    m.decoded = (.ok i, code.length) :=
  Decoder.instructionAt_of_isPrefix hcode h

end Machine

end Boot386
