import Boot386.Word
import Boot386.Fault

/-!
# Memory

The memory is a flat row of bytes. Addresses do not wrap: an access whose bytes do not all lie
inside is an error, and nothing is read or written.

* `Memory.byteAt` is the view that describes every operation; it is zero outside.
* `Memory.store` writes bytes one after the other, and `Memory.byteAt_store` says what each
  byte is afterwards.
* `Memory.read`, `Memory.write` and `Memory.place` check their bounds first.
-/

namespace Boot386

/-- A flat row of bytes. -/
structure Memory where
  bytes : ByteArray

namespace Memory

/-! ### Bytes -/

/-- A memory of `n` zero bytes. -/
def ofSize (n : Nat) : Memory := ⟨⟨Array.replicate n 0⟩⟩

/-- The number of bytes. -/
def size (m : Memory) : Nat := m.bytes.size

instance : Inhabited Memory := ⟨ofSize 0⟩

/-- The byte at an address, and zero outside. -/
def byteAt (m : Memory) (a : Nat) : UInt8 :=
  if h : a < m.bytes.size then m.bytes[a] else 0

/-- Writes one byte; an address outside changes nothing. -/
def put (m : Memory) (a : Nat) (b : UInt8) : Memory :=
  if h : a < m.bytes.size then ⟨m.bytes.set a b h⟩ else m

/-- Writes bytes one after the other, starting at an address. -/
def store (m : Memory) (a : Nat) : List UInt8 → Memory
  | [] => m
  | b :: bs => (m.put a b).store (a + 1) bs

/-- The bytes from `start` on, at most `count` of them and none from outside. -/
def slice (m : Memory) (start count : Nat) : List UInt8 :=
  (List.range' start (min count (m.size - start))).map m.byteAt

/-! ### Checked accesses -/

/-- Whether `n` bytes at an address lie inside, without wrapping. -/
def Fits (m : Memory) (a : UInt32) (n : Nat) : Prop :=
  a.toNat + n ≤ m.size

instance (m : Memory) (a : UInt32) (n : Nat) : Decidable (m.Fits a n) :=
  inferInstanceAs (Decidable (_ ≤ _))

/-- The error of an access of some width at an address. -/
def outside (m : Memory) (w : Width) (a : UInt32) : Fault :=
  .outOfBounds a w.size m.size

/-- The operand at an address, zero-extended to a word. -/
def operandAt (m : Memory) (w : Width) (a : Nat) : UInt32 :=
  match w with
  | .byte => Word.ofBytes (m.byteAt a) 0 0 0
  | .dword =>
    Word.ofBytes (m.byteAt a) (m.byteAt (a + 1)) (m.byteAt (a + 2)) (m.byteAt (a + 3))

/-- Reads an operand. -/
def read (m : Memory) (w : Width) (a : UInt32) : Except Fault UInt32 :=
  if m.Fits a w.size then .ok (m.operandAt w a.toNat) else .error (m.outside w a)

/-- Writes an operand: the low byte or all four bytes of a word. -/
def write (m : Memory) (w : Width) (a : UInt32) (v : UInt32) : Except Fault Memory :=
  if m.Fits a w.size then .ok (m.store a.toNat ((Word.toBytes v).take w.size))
  else .error (m.outside w a)

/-- Copies an image to its origin. Even an empty image has to begin inside or at the end. -/
def place (m : Memory) (origin : UInt32) (image : List UInt8) : Except Fault Memory :=
  if m.Fits origin image.length then .ok (m.store origin.toNat image)
  else .error (.imageTooLarge origin image.length m.size)

/-! ### What the operations do to the bytes -/

@[simp] theorem size_ofSize (n : Nat) : (ofSize n).size = n := by
  simp [ofSize, size, ByteArray.size]

theorem byteAt_ofSize (n a : Nat) : (ofSize n).byteAt a = 0 := by
  unfold byteAt ofSize
  split
  · exact Array.getElem_replicate ..
  · rfl

/-- Outside there are only zeros. -/
theorem byteAt_of_le {m : Memory} {a : Nat} (h : m.size ≤ a) : m.byteAt a = 0 :=
  dif_neg (Nat.not_lt.2 h)

@[simp] theorem size_put (m : Memory) (a : Nat) (b : UInt8) : (m.put a b).size = m.size := by
  unfold put
  split
  · exact Array.size_set ..
  · rfl

/-- A byte written inside reads back, and every other byte is kept. -/
theorem byteAt_put (m : Memory) (a c : Nat) (b : UInt8) :
    (m.put a b).byteAt c = if c = a ∧ a < m.size then b else m.byteAt c := by
  by_cases ha : a < m.bytes.size
  · have hp : m.put a b = ⟨m.bytes.set a b ha⟩ := dif_pos ha
    have hs : (m.bytes.set a b ha).size = m.bytes.size := Array.size_set ..
    by_cases hc : c < m.bytes.size
    · -- the byte that is read is inside, and `set` tells where it comes from
      have hc₂ : c < (m.bytes.data.set a b ha).size := by rw [Array.size_set]; exact hc
      have hl : (m.put a b).byteAt c = (m.bytes.data.set a b ha)[c] := by
        rw [hp]; exact dif_pos (hs ▸ hc)
      have hr : m.byteAt c = m.bytes.data[c] := dif_pos hc
      rw [hl, hr, Array.getElem_set]
      by_cases hca : c = a
      · simp [hca, size, ha]
      · simp [hca, Ne.symm hca]
    · -- reading outside gives zero before and after
      have hca : c ≠ a := fun h => hc (h ▸ ha)
      rw [byteAt_of_le (by rw [size_put]; exact Nat.not_lt.1 hc),
        byteAt_of_le (Nat.not_lt.1 hc)]
      simp [hca]
  · -- writing outside changes nothing
    have hp : m.put a b = m := dif_neg ha
    have hn : ¬ (c = a ∧ a < m.size) := fun h => ha h.2
    rw [hp, if_neg hn]

@[simp] theorem size_store (m : Memory) (a : Nat) (bs : List UInt8) :
    (m.store a bs).size = m.size := by
  induction bs generalizing m a with
  | nil => rfl
  | cons b bs ih => simp [store, ih]

/-- **Bytes after a store.** Inside the written range stand the written bytes, and everywhere
else what stood there before. -/
theorem byteAt_store (m : Memory) (a c : Nat) (bs : List UInt8) :
    (m.store a bs).byteAt c
      = if a ≤ c ∧ c < m.size then (bs[c - a]?).getD (m.byteAt c) else m.byteAt c := by
  induction bs generalizing m a with
  | nil => simp [store]
  | cons b bs ih =>
    rw [store, ih, size_put, byteAt_put]
    by_cases hc : c < m.size
    · -- the byte is in front of the range, its first byte, or one of the others
      rcases Nat.lt_trichotomy c a with h | h | h
      · have h₁ : ¬ a + 1 ≤ c := by omega
        have h₂ : ¬ a ≤ c := by omega
        have h₃ : c ≠ a := by omega
        simp [h₁, h₂, h₃]
      · subst h
        have h₁ : ¬ c + 1 ≤ c := by omega
        simp [h₁, hc]
      · obtain ⟨k, rfl⟩ : ∃ k, c = a + 1 + k := ⟨c - (a + 1), by omega⟩
        have h₁ : a + 1 + k - a = k + 1 := by omega
        have h₂ : a + 1 + k ≠ a := by omega
        have h₃ : a ≤ a + 1 + k := by omega
        simp [hc, h₁, h₂, h₃]
    · have h : ¬ (c = a ∧ a < m.size) := fun h => hc (h.1 ▸ h.2)
      simp [hc, h]

/-- The bytes of a memory are all there is to it. -/
theorem ext_byteAt {m n : Memory} (hs : m.size = n.size)
    (h : ∀ a, a < m.size → m.byteAt a = n.byteAt a) : m = n := by
  obtain ⟨⟨xs⟩⟩ := m
  obtain ⟨⟨ys⟩⟩ := n
  have hxy : xs = ys := by
    refine Array.ext hs fun a ha hb => ?_
    have := h a ha
    rwa [show (⟨⟨xs⟩⟩ : Memory).byteAt a = xs[a] from dif_pos ha,
      show (⟨⟨ys⟩⟩ : Memory).byteAt a = ys[a] from dif_pos hb] at this
  rw [hxy]

@[simp] theorem length_slice (m : Memory) (start count : Nat) :
    (m.slice start count).length = min count (m.size - start) := by
  simp [slice]

end Memory

end Boot386
