import Boot386.Proofs.Word
import Boot386.Proofs.Memory

/-!
# The memory as a store

A memory is changed by edits. Each `Memory.Edit` gives bytes to addresses that follow one another.
An edit whose addresses are all inside is carried out; any other one is refused with a fault that
repeats what was asked for, and changes nothing (`edited_eq`).

After any history of edits a byte is what the last edit that has reached it has given it, and zero
if there has been none (`byteAt_applyAll`). Words are put together of bytes
(`toNat_operandAt_dword`), so that all accesses can be told from the history, whatever their widths
and alignments are (`store_of_history`).
-/

namespace Boot386

namespace Memory

/-- A change that is asked of a memory. -/
inductive Edit where
  /-- Write a byte. -/
  | byte (a : UInt32) (b : UInt8)
  /-- Write a word. -/
  | word (a : UInt32) (v : UInt32)
  /-- Copy an image to its origin. -/
  | image (origin : UInt32) (bytes : List UInt8)
  deriving DecidableEq, Repr, Inhabited

namespace Edit

/-- The first address. -/
def address : Edit → UInt32
  | byte a _ => a
  | word a _ => a
  | image origin _ => origin

/-- What the addresses are given, of a word the least significant byte first. -/
def bytes : Edit → List UInt8
  | byte _ b => [b]
  | word _ v => (List.range 4).map fun j => UInt8.ofNat (v.toNat / 256 ^ j)
  | image _ bytes => bytes

/-- The address is among those that are given a byte. -/
def Covers (e : Edit) (c : Nat) : Prop :=
  e.address.toNat ≤ c ∧ c < e.address.toNat + e.bytes.length

/-- The fault of an edit that leaves a memory of some size. -/
def refusal (size : Nat) : Edit → Fault
  | byte a _ => .outOfBounds a 1 size
  | word a _ => .outOfBounds a 4 size
  | image origin bytes => .imageTooLarge origin bytes.length size

/-- What an address is given in a memory of some size. An edit that leaves the memory gives
nothing. -/
def gives? (size c : Nat) (e : Edit) : Option UInt8 :=
  if e.address.toNat + e.bytes.length ≤ size ∧ e.address.toNat ≤ c then
    e.bytes[c - e.address.toNat]?
  else none

theorem gives?_of_not_covers {e : Edit} {c : Nat} (h : ¬ e.Covers c) (size : Nat) :
    e.gives? size c = none := by
  unfold gives?
  split
  · next hin =>
    have hbehind : e.bytes.length ≤ c - e.address.toNat := by
      rw [Covers] at h
      omega
    exact List.getElem?_eq_none hbehind
  · rfl

end Edit

/-- The memory behind an edit, if it can be carried out. -/
def edited (m : Memory) : Edit → Except Fault Memory
  | .byte a b => m.write .byte a b.toUInt32
  | .word a v => m.write .dword a v
  | .image origin bytes => m.place origin bytes

/-- Carries out an edit, and tells whether that could be done. -/
def apply (m : Memory) (e : Edit) : Except Fault Unit × Memory :=
  match m.edited e with
  | .ok m' => (.ok (), m')
  | .error f => (.error f, m)

/-- Carries out edits one after the other, as far as they can be. -/
def applyAll (m : Memory) (history : List Edit) : Memory :=
  history.foldl (fun m e => (m.apply e).2) m

/-- What the last edit to give a byte to an address has given it, and zero if none has. -/
def lastGiven (size : Nat) (history : List Edit) (c : Nat) : UInt8 :=
  (history.reverse.findSome? (Edit.gives? size c)).getD 0

variable {m : Memory} {e e' : Edit}

/-! ### One edit -/

/-- **Edits are checked stores.** -/
theorem edited_eq (m : Memory) (e : Edit) :
    m.edited e = if m.Fits e.address e.bytes.length then .ok (m.store e.address.toNat e.bytes)
      else .error (e.refusal m.size) := by
  cases e with
  | byte a b =>
    have hbytes : (Word.toBytes b.toUInt32).take Width.byte.size = (Edit.byte a b).bytes := by
      show [Word.byte b.toUInt32 0] = [b]
      rw [Word.byte_toUInt32]
    rw [edited, write, hbytes]
    rfl
  | word a v =>
    have hbytes : (Word.toBytes v).take Width.dword.size = (Edit.word a v).bytes := by
      show [_, _, _, _] = [_, _, _, _]
      rw [Word.byte_eq_div, Word.byte_eq_div, Word.byte_eq_div, Word.byte_eq_div]
    rw [edited, write, hbytes]
    rfl
  | image origin bytes => rfl

theorem apply_of_fits (h : m.Fits e.address e.bytes.length) :
    m.apply e = (.ok (), m.store e.address.toNat e.bytes) := by
  rw [apply, edited_eq, if_pos h]

/-- An edit that is refused changes nothing. -/
theorem apply_of_not_fits (h : ¬ m.Fits e.address e.bytes.length) :
    m.apply e = (.error (e.refusal m.size), m) := by
  rw [apply, edited_eq, if_neg h]

@[simp] theorem size_apply (m : Memory) (e : Edit) : (m.apply e).2.size = m.size := by
  by_cases h : m.Fits e.address e.bytes.length
  · rw [apply_of_fits h, size_store]
  · rw [apply_of_not_fits h]

/-- Whether an edit is carried out, and if not, why, depends on the size of the memory only. -/
theorem outcome_apply {m' : Memory} (h : m'.size = m.size) (e : Edit) :
    (m'.apply e).1 = (m.apply e).1 := by
  have hfits : m'.Fits e.address e.bytes.length ↔ m.Fits e.address e.bytes.length := by
    rw [Fits, Fits, h]
  by_cases hm : m.Fits e.address e.bytes.length
  · rw [apply_of_fits hm, apply_of_fits (hfits.2 hm)]
  · rw [apply_of_not_fits hm, apply_of_not_fits (mt hfits.1 hm), h]

/-- **What an edit leaves.** An address keeps its byte unless it is given one. -/
theorem byteAt_apply (m : Memory) (e : Edit) (c : Nat) :
    (m.apply e).2.byteAt c = (e.gives? m.size c).getD (m.byteAt c) := by
  by_cases h : m.Fits e.address e.bytes.length
  · have hin : e.address.toNat + e.bytes.length ≤ m.size := h
    rw [apply_of_fits h, byteAt_store, Edit.gives?]
    by_cases hc : e.address.toNat ≤ c
    · by_cases hlt : c < m.size
      · rw [if_pos ⟨hc, hlt⟩, if_pos ⟨hin, hc⟩]
      · -- behind the memory nothing is given
        have hbehind : e.bytes.length ≤ c - e.address.toNat := by omega
        rw [if_neg fun h => hlt h.2, if_pos ⟨hin, hc⟩, List.getElem?_eq_none hbehind,
          Option.getD_none]
    · -- in front of the edit
      rw [if_neg fun h => hc h.1, if_neg fun h => hc h.2, Option.getD_none]
  · -- an edit that is refused gives nothing
    rw [apply_of_not_fits h, Edit.gives?, if_neg fun hin => h hin.1, Option.getD_none]

/-- **Edits apart commute.** -/
theorem apply_comm (h : ∀ c, e.Covers c → ¬ e'.Covers c) :
    ((m.apply e).2.apply e').2 = ((m.apply e').2.apply e).2 := by
  refine ext_byteAt (by simp only [size_apply]) fun c _ => ?_
  simp only [byteAt_apply, size_apply]
  by_cases hc : e.Covers c
  · rw [Edit.gives?_of_not_covers (h c hc), Option.getD_none, Option.getD_none]
  · rw [Edit.gives?_of_not_covers hc, Option.getD_none, Option.getD_none]

/-! ### Histories -/

theorem applyAll_concat (m : Memory) (history : List Edit) (e : Edit) :
    m.applyAll (history ++ [e]) = ((m.applyAll history).apply e).2 :=
  List.foldl_concat ..

@[simp] theorem size_applyAll (m : Memory) (history : List Edit) :
    (m.applyAll history).size = m.size := by
  induction history using List.reverseRecOn with
  | nil => rfl
  | append_singleton history e ih => rw [applyAll_concat, size_apply, ih]

theorem lastGiven_concat (size : Nat) (history : List Edit) (e : Edit) (c : Nat) :
    lastGiven size (history ++ [e]) c = (e.gives? size c).getD (lastGiven size history c) := by
  rw [lastGiven, List.reverse_concat, List.findSome?_cons]
  cases e.gives? size c <;> rfl

/-- **The last edit counts.** -/
theorem byteAt_applyAll (size : Nat) (history : List Edit) (c : Nat) :
    ((ofSize size).applyAll history).byteAt c = lastGiven size history c := by
  -- from the back, because a later edit hides the earlier ones
  induction history using List.reverseRecOn with
  | nil => exact byteAt_ofSize size c
  | append_singleton history e ih =>
    rw [applyAll_concat, byteAt_apply, ih, size_applyAll, size_ofSize, lastGiven_concat]

/-! ### Reads -/

/-- A byte that is read is zero-extended. -/
theorem operandAt_byte (m : Memory) (a : Nat) :
    m.operandAt .byte a = (m.byteAt a).toUInt32 :=
  Word.unsigned_singleton _

/-- A byte of a word that is read is the one at its address. -/
theorem byte_operandAt (m : Memory) (a : Nat) {j : Nat} (hj : j < 4) :
    Word.byte (m.operandAt .dword a) j = m.byteAt (a + j) :=
  Word.byte_ofBytes (fun j => m.byteAt (a + j)) hj

/-- **Words are made of bytes.** -/
theorem toNat_operandAt_dword (m : Memory) (a : Nat) :
    (m.operandAt .dword a).toNat = ∑ j ∈ Finset.range 4, (m.byteAt (a + j)).toNat * 256 ^ j := by
  rw [Word.toNat_eq_sum_byte]
  refine Finset.sum_congr rfl fun j hj => ?_
  rw [byte_operandAt m a (Finset.mem_range.1 hj)]

/-- A byte that is inside a word is a digit of it. -/
theorem toNat_byteAt_of_operandAt (m : Memory) (a : Nat) {j : Nat} (hj : j < 4) :
    (m.byteAt (a + j)).toNat = (m.operandAt .dword a).toNat / 256 ^ j % 256 := by
  rw [← byte_operandAt m a hj, Word.byte_eq_div, UInt8.toNat_ofNat']

/-- A word and a byte in it agree. -/
theorem read_byte_of_read_dword {a b v : UInt32} (h : m.read .dword a = .ok v) {j : Nat}
    (hj : j < 4) (hb : b.toNat = a.toNat + j) :
    ∃ d, m.read .byte b = .ok d ∧ d.toNat = v.toNat / 256 ^ j % 256 := by
  obtain ⟨hin, rfl⟩ := read_eq_ok_iff.1 h
  have hin' : b.toNat + Width.byte.size ≤ m.size := by
    rw [Width.size_dword] at hin
    rw [Width.size_byte, hb]
    omega
  refine ⟨m.operandAt .byte b.toNat, read_of_le hin', ?_⟩
  rw [operandAt_byte, UInt8.toNat_toUInt32, hb, toNat_byteAt_of_operandAt m _ hj]

/-- An edit elsewhere does not change what is read. -/
theorem read_apply_of_apart {w : Width} {a : UInt32}
    (h : ∀ c, e.Covers c → ¬ (a.toNat ≤ c ∧ c < a.toNat + w.size)) :
    (m.apply e).2.read w a = m.read w a := by
  by_cases hin : a.toNat + w.size ≤ m.size
  · rw [read_of_le hin, read_of_le (by rwa [size_apply])]
    refine congrArg Except.ok (operandAt_congr fun c hle hlt => ?_)
    rw [byteAt_apply, Edit.gives?_of_not_covers fun hc => h c hc ⟨hle, hlt⟩, Option.getD_none]
  · have hout : m.size < a.toNat + w.size := Nat.not_le.1 hin
    rw [read_of_lt hout, read_of_lt (by rwa [size_apply]), size_apply]

/-! ### All accesses -/

/-- **Memory is a store.** Let a memory of zeros have gone through a history of edits.

* An edit is carried out if and only if the addresses that it names are inside, where sums do not
  wrap. Otherwise its fault repeats what was asked for, and nothing is changed.
* A byte is what the last edit to be carried out that covers it has given it, and zero if there is
  none.
* A byte or a word can be read if its addresses are inside, and a word is the number that its bytes
  stand for, the least significant one first. Otherwise the fault repeats what was asked for.
* A word and a byte in it agree, and accesses that have no address in common commute. -/
theorem store_of_history (size : Nat) (history : List Edit) :
    let m := (ofSize size).applyAll history
    m.size = size ∧
    (∀ e : Edit, let fits := e.address.toNat + e.bytes.length ≤ size
      ((m.apply e).1 = .ok () ↔ fits) ∧ (¬ fits → m.apply e = (.error (e.refusal size), m))) ∧
    (∀ c, m.byteAt c = lastGiven size history c) ∧
    (∀ a : UInt32, a.toNat + 1 ≤ size → m.read .byte a = .ok (m.byteAt a.toNat).toUInt32) ∧
    (∀ a : UInt32, a.toNat + 4 ≤ size → ∃ v, m.read .dword a = .ok v ∧
      v.toNat = ∑ j ∈ Finset.range 4, (m.byteAt (a.toNat + j)).toNat * 256 ^ j) ∧
    (∀ (w : Width) (a : UInt32), size < a.toNat + w.size →
      m.read w a = .error (.outOfBounds a w.size size)) ∧
    (∀ (a b v : UInt32) (j : Nat), m.read .dword a = .ok v → j < 4 → b.toNat = a.toNat + j →
      ∃ d, m.read .byte b = .ok d ∧ d.toNat = v.toNat / 256 ^ j % 256) ∧
    (∀ e e' : Edit, (∀ c, e.Covers c → ¬ e'.Covers c) →
      ((m.apply e).2.apply e').1 = (m.apply e').1 ∧ ((m.apply e').2.apply e).1 = (m.apply e).1 ∧
      ((m.apply e).2.apply e').2 = ((m.apply e').2.apply e).2) ∧
    (∀ (e : Edit) (w : Width) (a : UInt32),
      (∀ c, e.Covers c → ¬ (a.toNat ≤ c ∧ c < a.toNat + w.size)) →
      (m.apply e).2.read w a = m.read w a) := by
  intro m
  have hsize : m.size = size := by rw [size_applyAll, size_ofSize]
  refine ⟨hsize, fun e => ?_, byteAt_applyAll size history, fun a ha => ?_, fun a ha => ?_,
    fun w a ha => ?_, fun a b v j h => read_byte_of_read_dword h, fun e e' h => ?_,
    fun e w a => read_apply_of_apart⟩
  · -- the outcome of an edit
    by_cases h : m.Fits e.address e.bytes.length
    · have hin : e.address.toNat + e.bytes.length ≤ size := hsize ▸ h
      rw [apply_of_fits h]
      exact ⟨iff_of_true rfl hin, fun hout => absurd hin hout⟩
    · have hout : ¬ e.address.toNat + e.bytes.length ≤ size := hsize ▸ h
      rw [apply_of_not_fits h, hsize]
      exact ⟨iff_of_false nofun hout, fun _ => rfl⟩
  · -- what is read: a byte, a word, and nothing where the access leaves the memory
    rw [read_of_le (by rwa [hsize]), operandAt_byte]
  · refine ⟨m.operandAt .dword a.toNat, read_of_le ?_, toNat_operandAt_dword m a.toNat⟩
    rwa [hsize]
  · rw [read_of_lt (by rwa [hsize]), hsize]
  · -- edits without a common address
    exact ⟨outcome_apply (size_apply m e) e', outcome_apply (size_apply m e') e, apply_comm h⟩

/-- In eight bytes, an image, a word over its end, and a byte in the word. A word that would leave
the memory and an empty image that begins behind it are refused, and the word over all of it is as
the others have left it. -/
theorem store_of_history_overlapping :
    let history : List Edit := [.image 1 [1, 2, 3], .word 3 0x44332211, .word 5 0xffffffff,
      .image 9 [], .byte 4 0xaa]
    let m := (ofSize 8).applyAll history
    m.toList = [0, 1, 2, 0x11, 0xaa, 0x33, 0x44, 0] ∧
    m.apply (.image 9 []) = (.error (.imageTooLarge 9 0 8), m) ∧
    m.read .dword 3 = .ok 0x4433aa11 ∧ (∃ d, m.read .byte 4 = .ok d ∧ d.toNat = 0xaa) ∧
    ((m.apply (.byte 2 7)).2.apply (.word 3 0)).2 = ((m.apply (.word 3 0)).2.apply (.byte 2 7)).2
    := by
  intro history m
  obtain ⟨-, hedit, -, -, -, -, hagree, hcomm, -⟩ := store_of_history 8 history
  have hword : m.read .dword 3 = .ok 0x4433aa11 := by decide +kernel
  refine ⟨by decide +kernel, (hedit (.image 9 [])).2 (by decide), hword,
    hagree 3 4 _ 1 hword (by decide) (by decide), (hcomm (.byte 2 7) (.word 3 0) ?_).2.2⟩
  intro c hc hc'
  simp only [Edit.Covers, Edit.address, Edit.bytes] at hc hc'
  have hlow : c < 3 := hc.2
  have hhigh : 3 ≤ c := hc'.1
  omega

end Memory

end Boot386
