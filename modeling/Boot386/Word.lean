/-!
# Words and their bytes

Guest words are `UInt32` and wrap at `2 ^ 32`; guest bytes are `UInt8`. A word is read as
four bytes, the least significant one first:

* `Word.byte w i` is byte `i` of `w`, and `Word.ofBytes` assembles a word from its bytes;
* `Word.setByte` replaces one byte and keeps the other three;
* `Word.ofSigned` reads a signed displacement as the word that is added to an address.

`Word.ofBytes_toBytes` and `Word.toBytes_ofBytes` say that a word and its four bytes
determine each other. `Width` is the size of a data operand.
-/

namespace Boot386

/-- The size of a data operand. -/
inductive Width where
  | byte
  | dword
  deriving DecidableEq, Repr, Inhabited

/-- How many bytes of memory an operand of this width occupies. -/
def Width.size : Width → Nat
  | .byte => 1
  | .dword => 4

@[simp] theorem Width.size_byte : Width.byte.size = 1 := rfl

@[simp] theorem Width.size_dword : Width.dword.size = 4 := rfl

namespace Word

/-! ### The bytes of a word -/

/-- Byte `i` of a word, counted from the least significant one. -/
def byte (w : UInt32) (i : Nat) : UInt8 :=
  UInt8.ofNat (w.toNat >>> (8 * i))

/-- The word with these bytes, the least significant one first. -/
def ofBytes (b₀ b₁ b₂ b₃ : UInt8) : UInt32 :=
  UInt32.ofNat (b₀.toNat + 256 * b₁.toNat + 65536 * b₂.toNat + 16777216 * b₃.toNat)

/-- The four bytes of a word, the least significant one first. -/
def toBytes (w : UInt32) : List UInt8 :=
  [byte w 0, byte w 1, byte w 2, byte w 3]

@[simp] theorem length_toBytes (w : UInt32) : (toBytes w).length = 4 := rfl

/-- A statement about bytes that holds of all numbers below 256. -/
theorem forall_byte {P : UInt8 → Prop} (h : ∀ n < 256, P (UInt8.ofNat n)) (b : UInt8) : P b := by
  have hb := h b.toNat b.toNat_lt
  rwa [UInt8.ofNat_toNat] at hb

theorem toNat_byte (w : UInt32) (i : Nat) :
    (byte w i).toNat = (w.toNat >>> (8 * i)) % 256 :=
  UInt8.toNat_ofNat'

theorem toNat_ofBytes (b₀ b₁ b₂ b₃ : UInt8) :
    (ofBytes b₀ b₁ b₂ b₃).toNat
      = b₀.toNat + 256 * b₁.toNat + 65536 * b₂.toNat + 16777216 * b₃.toNat := by
  have h₀ := b₀.toNat_lt
  have h₁ := b₁.toNat_lt
  have h₂ := b₂.toNat_lt
  have h₃ := b₃.toNat_lt
  rw [ofBytes, UInt32.toNat_ofNat']
  omega

/-- **A word is its bytes.** Assembling the bytes of a word gives the word back. -/
@[simp] theorem ofBytes_toBytes (w : UInt32) :
    ofBytes (byte w 0) (byte w 1) (byte w 2) (byte w 3) = w := by
  apply UInt32.toNat_inj.1
  have hw := w.toNat_lt
  simp only [toNat_ofBytes, toNat_byte]
  omega

/-- The low byte of a byte that has been zero-extended. -/
@[simp] theorem byte_toUInt32 (b : UInt8) : byte b.toUInt32 0 = b := by
  apply UInt8.toNat_inj.1
  rw [toNat_byte, UInt8.toNat_toUInt32]
  exact Nat.mod_eq_of_lt b.toNat_lt

/-- Taking an assembled word apart gives the bytes it was made of. -/
@[simp] theorem toBytes_ofBytes (b₀ b₁ b₂ b₃ : UInt8) :
    toBytes (ofBytes b₀ b₁ b₂ b₃) = [b₀, b₁, b₂, b₃] := by
  have h₀ := b₀.toNat_lt
  have h₁ := b₁.toNat_lt
  have h₂ := b₂.toNat_lt
  have h₃ := b₃.toNat_lt
  simp only [toBytes, List.cons.injEq, and_true]
  refine ⟨?_, ?_, ?_, ?_⟩ <;>
    (apply UInt8.toNat_inj.1
     simp only [toNat_byte, toNat_ofBytes]
     omega)

/-- A byte of an assembled word is the one that it was made of. -/
theorem byte_ofBytes (f : Nat → UInt8) {j : Nat} (hj : j < 4) :
    byte (ofBytes (f 0) (f 1) (f 2) (f 3)) j = f j := by
  have h := toBytes_ofBytes (f 0) (f 1) (f 2) (f 3)
  simp only [toBytes, List.cons.injEq, and_true] at h
  obtain ⟨h₀, h₁, h₂, h₃⟩ := h
  match j, hj with
  | 0, _ => exact h₀
  | 1, _ => exact h₁
  | 2, _ => exact h₂
  | 3, _ => exact h₃

/-- Replaces byte `i` of a word; an index above 3 names no byte and changes nothing. -/
def setByte (w : UInt32) (i : Nat) (b : UInt8) : UInt32 :=
  let keep j := if i = j then b else byte w j
  ofBytes (keep 0) (keep 1) (keep 2) (keep 3)

/-- A replaced byte reads back, and the other bytes are kept. -/
theorem byte_setByte (w : UInt32) (b : UInt8) {i j : Nat} (hj : j < 4) :
    byte (setByte w i b) j = if i = j then b else byte w j :=
  byte_ofBytes (fun j => if i = j then b else byte w j) hj

/-! ### Signed readings -/

/-- A byte read as a two's complement number. -/
def signExtend (b : UInt8) : Int32 :=
  b.toInt8.toInt32

/-- A signed number as the word that stands for it modulo `2 ^ 32`. -/
def ofSigned (d : Int32) : UInt32 :=
  d.toUInt32

/-- A word read as a two's complement number. -/
def toSigned (w : UInt32) : Int32 :=
  w.toInt32

@[simp] theorem ofSigned_toSigned (w : UInt32) : ofSigned (toSigned w) = w := rfl

/-! ### Numbers of one or four bytes -/

/-- The number that some bytes stand for, the least significant one first. Bytes that are not
there count as zero, so that a single byte is zero-extended. -/
def unsigned (bytes : List UInt8) : UInt32 :=
  ofBytes (bytes.getD 0 0) (bytes.getD 1 0) (bytes.getD 2 0) (bytes.getD 3 0)

/-- The number that one byte or four bytes stand for in two's complement. No bytes stand for
zero. -/
def signed : List UInt8 → Int32
  | [b] => signExtend b
  | [b₀, b₁, b₂, b₃] => toSigned (ofBytes b₀ b₁ b₂ b₃)
  | _ => 0

theorem unsigned_singleton (b : UInt8) : unsigned [b] = b.toUInt32 := by
  apply UInt32.toNat_inj.1
  simp [unsigned, toNat_ofBytes]

end Word

end Boot386
