import Mathlib.Data.List.Infix
import Mathlib.Data.Set.Defs
import Mathlib.Order.Nat
import Boot386.Memory

/-!
# Parts of the memory

All bytes of a memory in address order are `Memory.toList`, and a slice is a part of them
(`Memory.slice_eq_take_drop`). `Memory.Holds m a bytes` says that the bytes stand at an address. A
store keeps what stands elsewhere (`Memory.Holds.store`), and a word that is stored reads back
(`Memory.operandAt_store_self`).

Two memories are compared in two ways: `Memory.ExtendedBy m m'` says that `m'` goes on with zeros
where `m` ends, and `Memory.AgreesOff D m m'` that the two differ at most at the addresses in `D`.
-/

namespace Boot386.Memory

/-- All bytes, in address order. -/
def toList (m : Memory) : List UInt8 :=
  m.slice 0 m.size

@[simp] theorem length_toList (m : Memory) : m.toList.length = m.size := by
  simp [toList]

/-- The bytes from an address on. -/
theorem drop_toList (m : Memory) (start : Nat) :
    m.toList.drop start = m.slice start (m.size - start) := by
  rw [toList, slice, slice, Nat.sub_zero, Nat.min_self, Nat.min_self, ← List.map_drop,
    List.drop_range', Nat.zero_add, Nat.mul_one]

/-- The bytes at an address are those of the whole memory from there on. -/
theorem slice_eq_take_drop (m : Memory) (start count : Nat) :
    m.slice start count = (m.toList.drop start).take count := by
  rw [drop_toList, slice, slice, Nat.min_self, ← List.map_take]
  obtain h | h := Nat.le_total count (m.size - start)
  · rw [Nat.min_eq_left h, List.take_range'_of_length_ge h]
  · rw [Nat.min_eq_right h, List.take_range'_of_length_le h]

/-- The bytes stand in memory from an address on. -/
def Holds (m : Memory) (a : UInt32) (bytes : List UInt8) : Prop :=
  bytes <+: m.toList.drop a.toNat

instance (m : Memory) (a : UInt32) (bytes : List UInt8) : Decidable (m.Holds a bytes) :=
  inferInstanceAs (Decidable (_ <+: _))

/-! ### Parts that are the same -/

section Congr

variable {m m' : Memory}

theorem slice_congr {start count : Nat} (hsize : m'.size = m.size)
    (h : ∀ a, start ≤ a → a < start + count → m'.byteAt a = m.byteAt a) :
    m'.slice start count = m.slice start count := by
  rw [slice, slice, hsize]
  refine List.map_congr_left fun a ha => ?_
  rw [List.mem_range'_1] at ha
  have hlt : a < start + count := by omega
  exact h a ha.1 hlt

theorem operandAt_congr {w : Width} {a : Nat}
    (h : ∀ c, a ≤ c → c < a + w.size → m'.byteAt c = m.byteAt c) :
    m'.operandAt w a = m.operandAt w a := by
  cases w with
  | byte => rw [operandAt, operandAt, h a (by omega) (by simp)]
  | dword =>
    rw [Width.size_dword] at h
    rw [operandAt, operandAt, h a (by omega) (by omega), h (a + 1) (by omega) (by omega),
      h (a + 2) (by omega) (by omega), h (a + 3) (by omega) (by omega)]

/-- Bytes stand at an address if they are what is there. -/
theorem holds_iff_slice {a : UInt32} {code : List UInt8} :
    m.Holds a code ↔ m.slice a.toNat code.length = code := by
  rw [slice_eq_take_drop, Holds, List.prefix_iff_eq_take, eq_comm]

end Congr

/-- Of bytes that stand at an address, the ones from an offset on stand behind it. -/
theorem Holds.part {m : Memory} {a b : UInt32} {image code : List UInt8} {k : Nat}
    (h : m.Holds a image) (hpart : code <+: image.drop k) (hb : b.toNat = a.toNat + k) :
    m.Holds b code := by
  rw [Holds, hb, ← List.drop_drop]
  exact hpart.trans (List.IsPrefix.drop h k)

/-- What stands in memory has room there. -/
theorem Holds.length_le {m : Memory} {a : UInt32} {image : List UInt8} (h : m.Holds a image) :
    image.length ≤ m.size - a.toNat := by
  have hle := List.IsPrefix.length_le h
  rwa [List.length_drop, length_toList] at hle

/-! ### Checked reads -/

section Read

variable {m : Memory} {w : Width} {a v : UInt32}

theorem read_of_le (h : a.toNat + w.size ≤ m.size) : m.read w a = .ok (m.operandAt w a.toNat) :=
  if_pos h

theorem read_of_lt (h : m.size < a.toNat + w.size) :
    m.read w a = .error (.outOfBounds a w.size m.size) :=
  if_neg (Nat.not_le.2 h)

/-- What is read is the operand at the address, and it is inside. -/
theorem read_eq_ok_iff :
    m.read w a = .ok v ↔ a.toNat + w.size ≤ m.size ∧ m.operandAt w a.toNat = v := by
  by_cases h : a.toNat + w.size ≤ m.size
  · rw [read_of_le h, Except.ok.injEq, and_iff_right h]
  · rw [read_of_lt (Nat.not_le.1 h)]
    exact iff_of_false nofun fun hin => h hin.1

end Read

/-! ### Stores elsewhere -/

section Store

variable {m : Memory} {a b : Nat} {bytes : List UInt8}

/-- A byte that is not in the place of a store is kept. -/
theorem byteAt_store_of_apart {c : Nat} (h : c < b ∨ b + bytes.length ≤ c) :
    (m.store b bytes).byteAt c = m.byteAt c := by
  rw [byteAt_store]
  split
  · next hc =>
    have hbehind : bytes.length ≤ c - b := by omega
    rw [List.getElem?_eq_none hbehind, Option.getD_none]
  · rfl

/-- What stands elsewhere is kept by a store. -/
theorem Holds.store {p : UInt32} {code : List UInt8} (h : m.Holds p code)
    (hapart : p.toNat + code.length ≤ b ∨ b + bytes.length ≤ p.toNat) :
    (m.store b bytes).Holds p code := by
  rw [holds_iff_slice] at h ⊢
  rw [slice_congr (size_store ..) fun c hle hlt => byteAt_store_of_apart (by omega), h]

/-- An operand elsewhere is kept by a store. -/
theorem operandAt_store_of_apart {w : Width} (h : a + w.size ≤ b ∨ b + bytes.length ≤ a) :
    (m.store b bytes).operandAt w a = m.operandAt w a :=
  operandAt_congr fun c hle hlt => byteAt_store_of_apart (by omega)

/-- Bytes that are stored inside the memory stand there. -/
theorem holds_store_self {m : Memory} {a : UInt32} {bytes : List UInt8}
    (h : m.Fits a bytes.length) : (m.store a.toNat bytes).Holds a bytes := by
  have hroom : min bytes.length (m.size - a.toNat) = bytes.length := by
    rw [Fits] at h
    omega
  rw [holds_iff_slice]
  -- byte by byte
  refine List.ext_getElem (by rw [length_slice, size_store, hroom]) fun i _ hi => ?_
  have hin : a.toNat ≤ a.toNat + i ∧ a.toNat + i < m.size := by
    rw [Fits] at h
    omega
  simp only [slice, List.getElem_map, List.getElem_range', Nat.one_mul]
  rw [byteAt_store, if_pos hin, Nat.add_sub_cancel_left, List.getElem?_eq_getElem hi,
    Option.getD_some]

/-- A word that is stored inside the memory reads back. -/
theorem operandAt_store_self {v : UInt32} (h : a + 4 ≤ m.size) :
    (m.store a (Word.toBytes v)).operandAt .dword a = v := by
  have hbyte : ∀ i < 4, (m.store a (Word.toBytes v)).byteAt (a + i) = Word.byte v i := by
    intro i hi
    rw [byteAt_store, if_pos (by omega), Nat.add_sub_cancel_left]
    match i, hi with
    | 0, _ => rfl
    | 1, _ => rfl
    | 2, _ => rfl
    | 3, _ => rfl
  have hfirst : (m.store a (Word.toBytes v)).byteAt a = Word.byte v 0 := hbyte 0 (by omega)
  rw [operandAt, hfirst, hbyte 1 (by omega), hbyte 2 (by omega), hbyte 3 (by omega)]
  exact Word.ofBytes_toBytes v

/-- A word that is stored where it stands already changes nothing. -/
theorem store_operandAt (m : Memory) (a : Nat) :
    m.store a (Word.toBytes (m.operandAt .dword a)) = m := by
  refine ext_byteAt (size_store ..) fun c _ => ?_
  rw [operandAt, Word.toBytes_ofBytes, byteAt_store]
  split
  · next hc =>
    obtain ⟨i, rfl⟩ := Nat.exists_eq_add_of_le hc.1
    rw [Nat.add_sub_cancel_left]
    match i with
    | 0 => rfl
    | 1 => rfl
    | 2 => rfl
    | 3 => rfl
    | _ + 4 => rfl
  · rfl

end Store

/-! ### Longer memories -/

/-- The other memory has the same bytes, and behind them zeros. -/
structure ExtendedBy (m m' : Memory) : Prop where
  size_le : m.size ≤ m'.size
  /-- Outside of a memory its bytes are zero, too. -/
  byteAt : ∀ a, m'.byteAt a = m.byteAt a

theorem extendedBy_ofSize {n n' : Nat} (h : n ≤ n') : (ofSize n).ExtendedBy (ofSize n') where
  size_le := by simpa using h
  byteAt a := by rw [byteAt_ofSize, byteAt_ofSize]

namespace ExtendedBy

variable {m m' : Memory} (h : m.ExtendedBy m')

include h

theorem fits {a : UInt32} {n : Nat} (hfits : m.Fits a n) : m'.Fits a n :=
  Nat.le_trans hfits h.size_le

theorem operandAt (w : Width) (a : Nat) : m'.operandAt w a = m.operandAt w a :=
  operandAt_congr fun c _ _ => h.byteAt c

/-- A slice that is inside the shorter memory. -/
theorem slice {start count : Nat} (hin : start + count ≤ m.size) :
    m'.slice start count = m.slice start count := by
  have hcount : count ≤ m.size - start := by omega
  have hcount' : count ≤ m'.size - start := hcount.trans (Nat.sub_le_sub_right h.size_le _)
  simp only [Memory.slice, Nat.min_eq_left hcount, Nat.min_eq_left hcount']
  exact List.map_congr_left fun a _ => h.byteAt a

/-- From an address inside the shorter memory, the longer one goes on for longer. -/
theorem drop_toList {start : Nat} (hin : start ≤ m.size) :
    ∃ tail, m'.toList.drop start = m.toList.drop start ++ tail := by
  have hprefix : m.toList <+: m'.toList := by
    have hfront : m'.slice 0 m.size = m.toList := h.slice (Nat.zero_add _).le
    rw [← hfront, slice_eq_take_drop, List.drop_zero]
    exact List.take_prefix _ _
  obtain ⟨tail, htail⟩ := hprefix
  refine ⟨tail, ?_⟩
  rw [← htail, List.drop_append_of_le_length (by rwa [length_toList])]

/-- Bytes that are stored inside the shorter memory are stored in both alike. -/
theorem store {a : Nat} {bytes : List UInt8} (hin : a + bytes.length ≤ m.size) :
    (m.store a bytes).ExtendedBy (m'.store a bytes) where
  size_le := by simpa using h.size_le
  byteAt c := by
    rw [byteAt_store, byteAt_store, h.byteAt]
    by_cases hc : a ≤ c ∧ c < m.size
    · rw [if_pos hc, if_pos ⟨hc.1, hc.2.trans_le h.size_le⟩]
    · rw [if_neg hc]
      -- behind the shorter memory nothing is stored
      by_cases hc' : a ≤ c ∧ c < m'.size
      · rw [if_pos hc', List.getElem?_eq_none (by omega), Option.getD_none]
      · rw [if_neg hc']

end ExtendedBy

/-! ### Memories that differ at some addresses -/

/-- The other memory has the same size, and the same bytes outside of a set of addresses. -/
structure AgreesOff (D : Set Nat) (m m' : Memory) : Prop where
  size : m'.size = m.size
  byteAt : ∀ a, a ∉ D → m'.byteAt a = m.byteAt a

/-- A store changes nothing outside of its place. -/
theorem agreesOff_store {D : Set Nat} (m : Memory) {a : Nat} {bytes : List UInt8}
    (h : ∀ c, a ≤ c → c < a + bytes.length → c ∈ D) : AgreesOff D m (m.store a bytes) where
  size := size_store m a bytes
  byteAt c hc := by
    refine byteAt_store_of_apart ?_
    by_contra hin
    push Not at hin
    exact hc (h c hin.1 hin.2)

theorem AgreesOff.refl (D : Set Nat) (m : Memory) : AgreesOff D m m := ⟨rfl, fun _ _ => rfl⟩

theorem AgreesOff.mono {D E : Set Nat} {m m' : Memory} (h : AgreesOff D m m')
    (hsub : ∀ a ∈ D, a ∈ E) : AgreesOff E m m' :=
  ⟨h.size, fun a ha => h.byteAt a (mt (hsub a) ha)⟩

theorem AgreesOff.trans {D : Set Nat} {m m' m'' : Memory} (h : AgreesOff D m m')
    (h' : AgreesOff D m' m'') : AgreesOff D m m'' :=
  ⟨h'.size.trans h.size, fun a ha => (h'.byteAt a ha).trans (h.byteAt a ha)⟩

/-- What is stored into both is the same in both, also inside the set. -/
theorem AgreesOff.store {D : Set Nat} {m m' : Memory} (h : AgreesOff D m m') (a : Nat)
    (bytes : List UInt8) : AgreesOff D (m.store a bytes) (m'.store a bytes) where
  size := by rw [size_store, size_store, h.size]
  byteAt c hc := by rw [byteAt_store, byteAt_store, h.size, h.byteAt c hc]

end Boot386.Memory
