import Boot386.Word
import Boot386.Fault

/-!
# Decoders

A `Decoder` takes a value from the front of a list of bytes, or reports why it cannot; in both
cases it leaves the bytes that it has not consumed. `Decoder.decode` shows what happened:
the result, the bytes consumed and the bytes left.

A decoder only ever moves forward: what it leaves is a suffix of what it was given
(`Decoder.Forward`), so consumed and left bytes make up the input
(`Decoder.consumed_append_rest`).
-/

namespace Boot386

/-- Takes a value from the front of a list of bytes. -/
abbrev Decoder (α : Type) := EStateM DecodeError (List UInt8) α

/-- What came of decoding. -/
structure Decoded (α : Type) where
  result : Except DecodeError α
  /-- The bytes taken from the front, also before an error. -/
  consumed : List UInt8
  /-- The bytes that are left. -/
  rest : List UInt8

namespace Decoder

variable {α β : Type}

/-! ### Elementary decoders -/

/-- The next byte. -/
def byte : Decoder UInt8
  | [] => .error .truncated []
  | b :: rest => .ok b rest

/-- The next four bytes as a word. Where there are fewer, none of them is consumed. -/
def word : Decoder UInt32
  | b₀ :: b₁ :: b₂ :: b₃ :: rest => .ok (Word.ofBytes b₀ b₁ b₂ b₃) rest
  | short => .error .truncated short

/-- A result that does not depend on any bytes. -/
def ofExcept (x : Except DecodeError α) : Decoder α := fun bytes =>
  match x with
  | .ok a => .ok a bytes
  | .error e => .error e bytes

/-! ### Running a decoder -/

/-- The bytes that a decoder leaves. -/
def left (d : Decoder α) (bytes : List UInt8) : List UInt8 :=
  match d bytes with
  | .ok _ rest => rest
  | .error _ rest => rest

/-- Runs a decoder on bytes. -/
def decode (d : Decoder α) (bytes : List UInt8) : Decoded α :=
  match d bytes with
  | .ok a rest => ⟨.ok a, bytes.take (bytes.length - rest.length), rest⟩
  | .error e rest => ⟨.error e, bytes.take (bytes.length - rest.length), rest⟩

theorem rest_decode (d : Decoder α) (bytes : List UInt8) :
    (d.decode bytes).rest = d.left bytes := by
  unfold decode left
  split <;> rfl

/-! ### Decoders only move forward -/

/-- What a decoder leaves is a suffix of what it was given. -/
def Forward (d : Decoder α) : Prop :=
  ∀ bytes, d.left bytes <:+ bytes

theorem forward_pure (a : α) : Forward (pure a) :=
  fun bytes => List.suffix_refl bytes

theorem forward_ofExcept (x : Except DecodeError α) : Forward (ofExcept x) := by
  intro bytes
  cases x <;> exact List.suffix_refl bytes

theorem forward_byte : Forward byte := by
  intro bytes
  cases bytes with
  | nil => exact List.suffix_refl _
  | cons b rest => exact List.suffix_cons b rest

theorem forward_word : Forward word := by
  intro bytes
  match bytes with
  | b₀ :: b₁ :: b₂ :: b₃ :: rest => exact ⟨[b₀, b₁, b₂, b₃], rfl⟩
  | [] => exact List.suffix_refl _
  | [_] => exact List.suffix_refl _
  | [_, _] => exact List.suffix_refl _
  | [_, _, _] => exact List.suffix_refl _

theorem left_bind (d : Decoder α) (f : α → Decoder β) (bytes : List UInt8) :
    (d >>= f).left bytes
      = match d bytes with
        | .ok a rest => (f a).left rest
        | .error _ rest => rest := by
  show (match EStateM.bind d f bytes with
    | .ok _ rest => rest
    | .error _ rest => rest) = _
  unfold EStateM.bind
  cases d bytes <;> rfl

theorem Forward.bind {d : Decoder α} {f : α → Decoder β} (hd : d.Forward)
    (hf : ∀ a, (f a).Forward) : (d >>= f).Forward := by
  intro bytes
  have h := hd bytes
  rw [left_bind]
  unfold left at h
  cases hr : d bytes with
  | ok a rest => exact (hf a rest).trans (by simpa [hr] using h)
  | error e rest => simpa [hr] using h

/-- **Consumed and left bytes make up the input.** -/
theorem consumed_append_rest {d : Decoder α} (hd : d.Forward) (bytes : List UInt8) :
    (d.decode bytes).consumed ++ (d.decode bytes).rest = bytes := by
  obtain ⟨taken, ht⟩ := hd bytes
  have hc : (d.decode bytes).consumed = bytes.take (bytes.length - (d.left bytes).length) := by
    unfold decode left
    split <;> rfl
  rw [hc, rest_decode]
  generalize d.left bytes = rest at ht
  subst ht
  simp

end Decoder

end Boot386
