import Boot386.Word

/-!
# Registers

The machine has eight 32-bit registers (`Reg`). The lowest two bytes of four of them have
names of their own (`Reg8`): a byte register is a view of byte 0 or byte 1 of its parent.
Both kinds are encoded in three bits, in the order in which the constructors are listed.

`Registers` is the register file. Its operations are described by what they do to `get`:

* `Registers.get_set`: a written register reads back and the others are kept;
* `Registers.get_set8`: a byte write replaces one byte of the parent register;
* `Registers.ext`: the values of the eight registers are all there is to a file.
-/

namespace Boot386

/-! ### Names and encoding order -/

/-- The three bit code in the low bits of a number. -/
def lowCode (n : Nat) : Fin 8 := ⟨n % 8, Nat.mod_lt n (by decide)⟩

@[simp] theorem val_lowCode (n : Nat) : (lowCode n).val = n % 8 := rfl

/-- The 32-bit registers, in encoding order. -/
inductive Reg where
  | eax | ecx | edx | ebx | esp | ebp | esi | edi
  deriving DecidableEq, Repr, Inhabited

namespace Reg

/-- The register with a three bit code. -/
def ofCode : Fin 8 → Reg
  | 0 => eax
  | 1 => ecx
  | 2 => edx
  | 3 => ebx
  | 4 => esp
  | 5 => ebp
  | 6 => esi
  | 7 => edi

/-- The three bit code of a register. -/
def code : Reg → Fin 8
  | eax => 0
  | ecx => 1
  | edx => 2
  | ebx => 3
  | esp => 4
  | ebp => 5
  | esi => 6
  | edi => 7

/-- The register with a numeric code, if the code fits in three bits. -/
def ofCode? (n : Nat) : Option Reg :=
  if h : n < 8 then some (ofCode ⟨n, h⟩) else none

/-- All registers, in encoding order. -/
def all : List Reg :=
  [eax, ecx, edx, ebx, esp, ebp, esi, edi]

/-- The lower case name used in instruction text. -/
def name : Reg → String
  | eax => "eax"
  | ecx => "ecx"
  | edx => "edx"
  | ebx => "ebx"
  | esp => "esp"
  | ebp => "ebp"
  | esi => "esi"
  | edi => "edi"

@[simp] theorem code_ofCode (n : Fin 8) : (ofCode n).code = n := by
  revert n; decide

@[simp] theorem ofCode_code (r : Reg) : ofCode r.code = r := by
  cases r <;> rfl

theorem mem_all (r : Reg) : r ∈ all := by
  cases r <;> decide

end Reg

/-- The byte registers, in encoding order. -/
inductive Reg8 where
  | al | cl | dl | bl | ah | ch | dh | bh
  deriving DecidableEq, Repr, Inhabited

namespace Reg8

/-- The byte register with a three bit code. -/
def ofCode : Fin 8 → Reg8
  | 0 => al
  | 1 => cl
  | 2 => dl
  | 3 => bl
  | 4 => ah
  | 5 => ch
  | 6 => dh
  | 7 => bh

/-- The three bit code of a byte register. -/
def code : Reg8 → Fin 8
  | al => 0
  | cl => 1
  | dl => 2
  | bl => 3
  | ah => 4
  | ch => 5
  | dh => 6
  | bh => 7

/-- The byte register with a numeric code, if the code fits in three bits. -/
def ofCode? (n : Nat) : Option Reg8 :=
  if h : n < 8 then some (ofCode ⟨n, h⟩) else none

/-- All byte registers, in encoding order. -/
def all : List Reg8 :=
  [al, cl, dl, bl, ah, ch, dh, bh]

/-- The register that holds the byte. -/
def parent : Reg8 → Reg
  | al | ah => .eax
  | cl | ch => .ecx
  | dl | dh => .edx
  | bl | bh => .ebx

/-- Which byte of the parent it is: the lowest one or the one above it. -/
def offset : Reg8 → Nat
  | al | cl | dl | bl => 0
  | ah | ch | dh | bh => 1

/-- The lower case name used in instruction text. -/
def name : Reg8 → String
  | al => "al"
  | cl => "cl"
  | dl => "dl"
  | bl => "bl"
  | ah => "ah"
  | ch => "ch"
  | dh => "dh"
  | bh => "bh"

@[simp] theorem code_ofCode (n : Fin 8) : (ofCode n).code = n := by
  revert n; decide

@[simp] theorem ofCode_code (r : Reg8) : ofCode r.code = r := by
  cases r <;> rfl

theorem offset_lt (r : Reg8) : r.offset < 2 := by
  cases r <;> decide

/-- A byte register is given by its parent and its place there. -/
theorem eq_of_parent_of_offset {r s : Reg8} (hp : r.parent = s.parent)
    (ho : r.offset = s.offset) : r = s := by
  cases r <;> cases s <;> simp_all [parent, offset]

end Reg8

/-! ### The register file -/

/-- The values of the eight registers. A fresh file holds zeros. -/
structure Registers where
  eax : UInt32 := 0
  ecx : UInt32 := 0
  edx : UInt32 := 0
  ebx : UInt32 := 0
  esp : UInt32 := 0
  ebp : UInt32 := 0
  esi : UInt32 := 0
  edi : UInt32 := 0
  deriving DecidableEq, Repr, Inhabited

namespace Registers

/-- The value of a register. -/
def get (rs : Registers) : Reg → UInt32
  | .eax => rs.eax
  | .ecx => rs.ecx
  | .edx => rs.edx
  | .ebx => rs.ebx
  | .esp => rs.esp
  | .ebp => rs.ebp
  | .esi => rs.esi
  | .edi => rs.edi

/-- Writes a register. -/
def set (rs : Registers) (r : Reg) (w : UInt32) : Registers :=
  match r with
  | .eax => { rs with eax := w }
  | .ecx => { rs with ecx := w }
  | .edx => { rs with edx := w }
  | .ebx => { rs with ebx := w }
  | .esp => { rs with esp := w }
  | .ebp => { rs with ebp := w }
  | .esi => { rs with esi := w }
  | .edi => { rs with edi := w }

/-- The value of a byte register: one byte of its parent. -/
def get8 (rs : Registers) (r : Reg8) : UInt8 :=
  Word.byte (rs.get r.parent) r.offset

/-- Writes a byte register: one byte of its parent is replaced. -/
def set8 (rs : Registers) (r : Reg8) (b : UInt8) : Registers :=
  rs.set r.parent (Word.setByte (rs.get r.parent) r.offset b)

/-- The eight values, in encoding order. -/
def toList (rs : Registers) : List UInt32 :=
  Reg.all.map rs.get

/-- The file with these values in encoding order; registers without a value hold zero. -/
def ofList (ws : List UInt32) : Registers :=
  (Reg.all.zip ws).foldl (fun rs (r, w) => rs.set r w) {}

/-- **Extensionality.** Two files that agree on every register are equal. -/
theorem ext_get {rs ss : Registers} (h : ∀ r, rs.get r = ss.get r) : rs = ss := by
  obtain ⟨⟩ := rs
  obtain ⟨⟩ := ss
  rw [mk.injEq]
  exact ⟨h .eax, h .ecx, h .edx, h .ebx, h .esp, h .ebp, h .esi, h .edi⟩

/-- A written register reads back and the others are kept. -/
@[simp] theorem get_set (rs : Registers) (r s : Reg) (w : UInt32) :
    (rs.set r w).get s = if s = r then w else rs.get s := by
  cases r <;> cases s <;> rfl

/-- Of two writes of a register the second one counts. -/
theorem set_set (rs : Registers) (r : Reg) (v w : UInt32) : (rs.set r v).set r w = rs.set r w := by
  cases r <;> rfl

/-- A register that is written with its own value is kept. -/
theorem set_get (rs : Registers) (r : Reg) : rs.set r (rs.get r) = rs := by
  cases r <;> rfl

/-- A byte write replaces one byte of the parent and keeps every other register. -/
theorem get_set8 (rs : Registers) (r : Reg8) (s : Reg) (b : UInt8) :
    (rs.set8 r b).get s
      = if s = r.parent then Word.setByte (rs.get r.parent) r.offset b else rs.get s := by
  simp [set8]

/-- A written byte register reads back. -/
@[simp] theorem get8_set8_self (rs : Registers) (r : Reg8) (b : UInt8) :
    (rs.set8 r b).get8 r = b := by
  have h : r.offset < 4 := Nat.lt_of_lt_of_le r.offset_lt (by decide)
  simp [get8, get_set8, Word.byte_setByte _ _ h]

end Registers

end Boot386
