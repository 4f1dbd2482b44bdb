import Boot386.Proofs.Word
import Boot386.Register

/-!
# The register file as a store of bytes

A register file is changed by edits: a register is given four bytes at once, a byte register one of
them. After any history of edits a byte of a register is what the last edit that covers it has given
it, and what it was before if there has been none (`byte_applyAll`). The registers and the byte
registers are two ways to look at the same bytes, so that both can be told from the history
(`store_of_edits`). Edits that have no byte in common commute (`apply_comm`).
-/

namespace Boot386

namespace Registers

/-! ### Edits -/

/-- A change that is asked of a register file. -/
inductive Edit where
  /-- Write a register. -/
  | word (r : Reg) (w : UInt32)
  /-- Write a byte register. -/
  | byte (r : Reg8) (b : UInt8)
  deriving DecidableEq, Repr, Inhabited

namespace Edit

/-- Byte `k` of a register is among those that are given a value: all four of the register that is
written, or the one of its parent that a byte register stands for. -/
def Covers (r : Reg) (k : Nat) : Edit → Prop
  | word s _ => s = r
  | byte s _ => s.parent = r ∧ s.offset = k

instance (r : Reg) (k : Nat) (e : Edit) : Decidable (e.Covers r k) :=
  match e with
  | word _ _ => inferInstanceAs (Decidable (_ = _))
  | byte _ _ => inferInstanceAs (Decidable (_ ∧ _))

/-- The value for byte `k`, of a word the least significant byte first. -/
def given (k : Nat) : Edit → UInt8
  | word _ w => UInt8.ofNat (w.toNat / 256 ^ k)
  | byte _ b => b

/-- What byte `k` of a register is given, if it is covered. -/
def gives? (r : Reg) (k : Nat) (e : Edit) : Option UInt8 :=
  if e.Covers r k then some (e.given k) else none

theorem gives?_of_covers {r : Reg} {k : Nat} {e : Edit} (h : e.Covers r k) :
    e.gives? r k = some (e.given k) := if_pos h

theorem gives?_of_not_covers {r : Reg} {k : Nat} {e : Edit} (h : ¬ e.Covers r k) :
    e.gives? r k = none := if_neg h

end Edit

/-- Carries out an edit. -/
def apply (rs : Registers) : Edit → Registers
  | .word r w => rs.set r w
  | .byte r b => rs.set8 r b

/-- Carries out edits one after the other. -/
def applyAll (rs : Registers) (history : List Edit) : Registers :=
  history.foldl apply rs

/-- What the last edit to give something to byte `k` of a register has given it, and what it was at
first if none has. -/
def lastGiven (rs : Registers) (history : List Edit) (r : Reg) (k : Nat) : UInt8 :=
  (history.reverse.findSome? (Edit.gives? r k)).getD (UInt8.ofNat ((rs.get r).toNat / 256 ^ k))

variable {rs : Registers} {e e' : Edit}

/-! ### One edit -/

/-- Two files with the same bytes are equal. -/
theorem ext_byte {ss : Registers}
    (h : ∀ r k, k < 4 → Word.byte (rs.get r) k = Word.byte (ss.get r) k) : rs = ss :=
  ext_get fun r => Word.ext_byte (h r)

/-- **What an edit leaves.** A byte is kept unless it is covered. -/
theorem byte_apply (rs : Registers) (e : Edit) (r : Reg) {k : Nat} (hk : k < 4) :
    Word.byte ((rs.apply e).get r) k = (e.gives? r k).getD (Word.byte (rs.get r) k) := by
  cases e with
  | word s w =>
    rw [apply, get_set]
    by_cases h : (Edit.word s w).Covers r k
    · have hr : r = s := Eq.symm h
      rw [if_pos hr, Edit.gives?_of_covers h, Option.getD_some, Word.byte_eq_div]
      rfl
    · have hr : r ≠ s := Ne.symm h
      rw [if_neg hr, Edit.gives?_of_not_covers h, Option.getD_none]
  | byte s b =>
    rw [apply, get_set8]
    by_cases h : (Edit.byte s b).Covers r k
    · rw [Edit.gives?_of_covers h, Option.getD_some]
      -- this byte of the parent is the byte register
      obtain ⟨hparent, hoffset⟩ : s.parent = r ∧ s.offset = k := h
      rw [if_pos hparent.symm, Word.byte_setByte _ _ hk, if_pos hoffset]
      rfl
    · rw [Edit.gives?_of_not_covers h, Option.getD_none]
      split
      · next hparent =>
        -- it is another byte of the parent
        have hoffset : s.offset ≠ k := fun hoffset => h ⟨hparent.symm, hoffset⟩
        rw [Word.byte_setByte _ _ hk, if_neg hoffset, hparent]
      · rfl

/-- **Edits apart commute.** -/
theorem apply_comm (h : ∀ r k, e.Covers r k → ¬ e'.Covers r k) :
    (rs.apply e).apply e' = (rs.apply e').apply e := by
  refine ext_byte fun r k hk => ?_
  simp only [byte_apply _ _ _ hk]
  by_cases hc : e.Covers r k
  · rw [Edit.gives?_of_not_covers (h r k hc), Option.getD_none, Option.getD_none]
  · rw [Edit.gives?_of_not_covers hc, Option.getD_none, Option.getD_none]

/-- Byte registers that are not the same are apart, also if they have the same parent. -/
theorem set8_comm {r s : Reg8} (h : r ≠ s) (b c : UInt8) :
    (rs.set8 r b).set8 s c = (rs.set8 s c).set8 r b := by
  have hapart : ∀ q k, (Edit.byte r b).Covers q k → ¬ (Edit.byte s c).Covers q k := by
    rintro q k ⟨hr, hrk⟩ ⟨hs, hsk⟩
    exact h (Reg8.eq_of_parent_of_offset (hr.trans hs.symm) (hrk.trans hsk.symm))
  exact apply_comm hapart

/-- A byte write keeps the upper half of every register. -/
theorem testBit_set8_of_le (r : Reg8) (b : UInt8) (s : Reg) {n : Nat} (hle : 16 ≤ n)
    (hn : n < 32) :
    ((rs.set8 r b).get s).toNat.testBit n = (rs.get s).toNat.testBit n := by
  rw [get_set8]
  split
  · next hs =>
    have hoffset : r.offset ≠ n / 8 := by
      have := r.offset_lt
      omega
    rw [Word.testBit_setByte _ _ _ hn, if_neg hoffset, hs]
  · rfl

/-! ### Histories -/

theorem applyAll_concat (rs : Registers) (history : List Edit) (e : Edit) :
    rs.applyAll (history ++ [e]) = (rs.applyAll history).apply e :=
  List.foldl_concat ..

theorem lastGiven_concat (rs : Registers) (history : List Edit) (e : Edit) (r : Reg) (k : Nat) :
    rs.lastGiven (history ++ [e]) r k = (e.gives? r k).getD (rs.lastGiven history r k) := by
  rw [lastGiven, List.reverse_concat, List.findSome?_cons]
  cases e.gives? r k <;> rfl

/-- **The last edit counts.** -/
theorem byte_applyAll (rs : Registers) (history : List Edit) (r : Reg) {k : Nat} (hk : k < 4) :
    Word.byte ((rs.applyAll history).get r) k = rs.lastGiven history r k := by
  -- from the back, because a later edit hides the earlier ones
  induction history using List.reverseRecOn with
  | nil => exact Word.byte_eq_div _ k
  | append_singleton history e ih => rw [applyAll_concat, byte_apply _ _ _ hk, ih, lastGiven_concat]

/-- **The register file is a store of bytes.** Let a register file have gone through a history of
edits.

* A byte of a register is what the last edit that covers it has given it, and what it was at first
  if there is none. A register is the number that its bytes stand for, the least significant one
  first, and a byte register is its byte of the parent.
* A byte write is a mask and a shift of the parent, and a byte read is a shift of it.
* A byte register that is written reads back; writes of two different ones commute, also if they
  have the same parent; and none of them changes `esp`, `ebp`, `esi`, `edi` or the upper half of any
  register. -/
theorem store_of_edits (rs : Registers) (history : List Edit) :
    let ss := rs.applyAll history
    (∀ r k, k < 4 → UInt8.ofNat ((ss.get r).toNat / 256 ^ k) = rs.lastGiven history r k) ∧
    (∀ r, (ss.get r).toNat
      = ∑ k ∈ Finset.range 4, (rs.lastGiven history r k).toNat * 256 ^ k) ∧
    (∀ r : Reg8, ss.get8 r = rs.lastGiven history r.parent r.offset) ∧
    (∀ r : Reg8, ss.get8 r = (ss.get r.parent >>> UInt32.ofNat (8 * r.offset)).toUInt8) ∧
    (∀ (r : Reg8) (b : UInt8), let shift := UInt32.ofNat (8 * r.offset)
      ss.set8 r b
        = ss.set r.parent ((ss.get r.parent &&& ~~~(0xff <<< shift)) ||| b.toUInt32 <<< shift)) ∧
    (∀ (r : Reg8) (b : UInt8), (ss.set8 r b).get8 r = b) ∧
    (∀ (r s : Reg8) (b c : UInt8), r ≠ s →
      (ss.set8 r b).set8 s c = (ss.set8 s c).set8 r b) ∧
    (∀ (r : Reg8) (b : UInt8) (s : Reg), s ∈ [.esp, .ebp, .esi, .edi] →
      (ss.set8 r b).get s = ss.get s) ∧
    (∀ (r : Reg8) (b : UInt8) (s : Reg) (n : Nat), 16 ≤ n → n < 32 →
      ((ss.set8 r b).get s).toNat.testBit n = (ss.get s).toNat.testBit n) := by
  intro ss
  have hlt : ∀ r : Reg8, r.offset < 4 := fun r => r.offset_lt.trans (by decide)
  refine ⟨fun r k hk => ?_, fun r => ?_, fun r => byte_applyAll rs history r.parent (hlt r),
    fun r => Word.byte_eq_shiftRight _ (hlt r), fun r b => ?_, get8_set8_self ss,
    fun r s b c h => set8_comm h b c, fun r b s hs => ?_,
    fun r b s n hle hn => testBit_set8_of_le r b s hle hn⟩
  · rw [← Word.byte_eq_div, byte_applyAll rs history r hk]
  · rw [Word.toNat_eq_sum_byte]
    refine Finset.sum_congr rfl fun k hk => ?_
    rw [byte_applyAll rs history r (Finset.mem_range.1 hk)]
  · exact congrArg (ss.set r.parent) (Word.setByte_eq_mask _ (hlt r) b)
  · have hparent : s ≠ r.parent := by
      rintro rfl
      cases r <;> simp [Reg8.parent] at hs
    rw [get_set8, if_neg hparent]

/-- Of `ecx` the two lower bytes are written, one of them twice, and `ch` goes with the word that is
written later, while `dl` and `dh` are written in either order. -/
theorem store_of_edits_interleaved :
    let rs : Registers := { ecx := 0xffffffff, edx := 0x12345678 }
    let history : List Edit := [.byte .ch 0x11, .word .ecx 0xa1b2c3d4, .byte .cl 0x22,
      .byte .dh 0x33, .byte .cl 0x44]
    let ss := rs.applyAll history
    ss.get .ecx = 0xa1b2c344 ∧ UInt8.ofNat ((ss.get .ecx).toNat / 256 ^ 1) = 0xc3 ∧
    ss.get8 .cl = 0x44 ∧ (ss.set8 .dl 0).set8 .dh 1 = (ss.set8 .dh 1).set8 .dl 0 ∧
    (ss.set8 .bh 7).get .edi = ss.get .edi ∧
    ((ss.set8 .dh 0).get .edx).toNat.testBit 28 = (ss.get .edx).toNat.testBit 28 := by
  intro rs history ss
  obtain ⟨hbyte, -, hget, -, -, -, hcomm, hkeep, hbits⟩ := store_of_edits rs history
  refine ⟨by decide +kernel, ?_, ?_, hcomm .dl .dh 0 1 (by decide),
    hkeep .bh 7 .edi (by decide), hbits .dh 0 .edx 28 (by decide) (by decide)⟩
  · rw [hbyte .ecx 1 (by decide)]
    decide +kernel
  · rw [hget .cl]
    decide +kernel

end Registers

end Boot386
