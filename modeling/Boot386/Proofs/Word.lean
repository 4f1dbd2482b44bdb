import Mathlib.Algebra.BigOperators.Intervals
import Boot386.Word

/-!
# Words as numbers and as bits

A word is the number whose digits in base 256 are its bytes (`byte_eq_div`, `toNat_eq_sum_byte`),
and of its bits every eight are a byte (`testBit_byte`). A byte is replaced in a word by a mask and
a shift (`setByte_eq_mask`), and what that does to the bits is said once, by `testBit_setByte`.

A signed number is stood for by its remainder modulo `2 ^ 32` (`toNat_ofSigned`). If it has eight
bits, its low byte is enough to get it back (`signExtend_byte_ofSigned`).
-/

namespace Boot386.Word

/-! ### Digits -/

/-- The bytes of a word are its digits in base 256. -/
theorem byte_eq_div (w : UInt32) (i : Nat) : byte w i = UInt8.ofNat (w.toNat / 256 ^ i) := by
  rw [byte, Nat.shiftRight_eq_div_pow, Nat.pow_mul]

/-- Two words with the same bytes are equal. -/
theorem ext_byte {v w : UInt32} (h : ∀ k < 4, byte v k = byte w k) : v = w := by
  rw [← ofBytes_toBytes v, ← ofBytes_toBytes w, h 0 (by decide), h 1 (by decide),
    h 2 (by decide), h 3 (by decide)]

/-- A word is the number that its bytes stand for. -/
theorem toNat_eq_sum_byte (w : UInt32) :
    w.toNat = ∑ k ∈ Finset.range 4, (byte w k).toNat * 256 ^ k := by
  have hbytes := toNat_ofBytes (byte w 0) (byte w 1) (byte w 2) (byte w 3)
  rw [ofBytes_toBytes] at hbytes
  simp only [Finset.sum_range_succ, Finset.sum_range_zero]
  omega

/-! ### Bits -/

/-- A byte of a word is taken by a shift. -/
theorem byte_eq_shiftRight (w : UInt32) {k : Nat} (hk : k < 4) :
    byte w k = (w >>> UInt32.ofNat (8 * k)).toUInt8 := by
  have hshift : (UInt32.ofNat (8 * k)).toNat % 32 = 8 * k := by
    rw [UInt32.toNat_ofNat']
    omega
  apply UInt8.toNat_inj.1
  rw [toNat_byte, UInt32.toNat_toUInt8, UInt32.toNat_shiftRight, hshift]

/-- Two words with the same bits are equal. -/
theorem ext_testBit {v w : UInt32} (h : ∀ n < 32, v.toNat.testBit n = w.toNat.testBit n) :
    v = w :=
  UInt32.eq_of_toBitVec_eq (BitVec.eq_of_getLsbD_eq h)

theorem testBit_byte (w : UInt32) (k j : Nat) :
    (byte w k).toNat.testBit j = (decide (j < 8) && w.toNat.testBit (8 * k + j)) := by
  have hsize : (256 : Nat) = 2 ^ 8 := rfl
  rw [toNat_byte, hsize, Nat.testBit_mod_two_pow, Nat.testBit_shiftRight]

/-- A replaced byte has its own bits, and the other bits are kept. -/
theorem testBit_setByte (w : UInt32) (i : Nat) (b : UInt8) {n : Nat} (hn : n < 32) :
    (setByte w i b).toNat.testBit n
      = if i = n / 8 then b.toNat.testBit (n % 8) else w.toNat.testBit n := by
  -- every bit is one of a byte
  have hbit : ∀ v : UInt32, v.toNat.testBit n = (byte v (n / 8)).toNat.testBit (n % 8) := by
    intro v
    rw [testBit_byte, Nat.div_add_mod, decide_eq_true (Nat.mod_lt n (by decide)), Bool.true_and]
  rw [hbit, byte_setByte w b (by omega), hbit w]
  split <;> rfl

/-- The bits of a byte that is moved up in a word. -/
theorem testBit_shiftLeft_toUInt32 (b : UInt8) {i : Nat} (hi : i < 4) {n : Nat} (hn : n < 32) :
    (b.toUInt32 <<< UInt32.ofNat (8 * i)).toNat.testBit n
      = (decide (i = n / 8) && b.toNat.testBit (n % 8)) := by
  have hshift : (UInt32.ofNat (8 * i)).toNat % 32 = 8 * i := by
    rw [UInt32.toNat_ofNat']
    omega
  rw [UInt32.toNat_shiftLeft, hshift, UInt8.toNat_toUInt32, Nat.testBit_mod_two_pow,
    Nat.testBit_shiftLeft, decide_eq_true hn, Bool.true_and]
  by_cases h : i = n / 8
  · have hle : 8 * i ≤ n := by omega
    have hplace : n - 8 * i = n % 8 := by omega
    rw [decide_eq_true hle, decide_eq_true h, hplace]
  · rw [decide_eq_false h, Bool.false_and, Bool.and_eq_false_imp]
    intro hle
    have hle : 8 * i ≤ n := of_decide_eq_true hle
    -- the place is above the eight bits that the byte has
    have habove : 8 ≤ n - 8 * i := by omega
    have hlt : b.toNat < 2 ^ (n - 8 * i) :=
      b.toNat_lt.trans_le (Nat.pow_le_pow_right (by decide) habove)
    exact Nat.testBit_lt_two_pow hlt

/-- **Mask and shift.** A byte is replaced by clearing its place and moving the new one there. -/
theorem setByte_eq_mask (w : UInt32) {i : Nat} (hi : i < 4) (b : UInt8) :
    setByte w i b
      = (w &&& ~~~(0xff <<< UInt32.ofNat (8 * i))) ||| (b.toUInt32 <<< UInt32.ofNat (8 * i)) := by
  refine ext_testBit fun n hn => ?_
  -- the mask has the bits of the byte
  have hmask : ((0xff : UInt32) <<< UInt32.ofNat (8 * i)).toNat.testBit n
      = decide (i = n / 8) := by
    have hones : (0xff : UInt8).toNat.testBit (n % 8) = true := by
      show (2 ^ 8 - 1).testBit (n % 8) = true
      rw [Nat.testBit_two_pow_sub_one, decide_eq_true (Nat.mod_lt n (by decide))]
    have h := testBit_shiftLeft_toUInt32 0xff hi hn
    rwa [hones, Bool.and_true] at h
  -- its complement has all others
  have hnot : (~~~((0xff : UInt32) <<< UInt32.ofNat (8 * i))).toNat.testBit n
      = !decide (i = n / 8) := by
    have hsize : UInt32.size = 2 ^ 32 := rfl
    rw [UInt32.toNat_not, Nat.sub_sub, Nat.add_comm 1, hsize,
      Nat.testBit_two_pow_sub_succ (UInt32.toNat_lt _), hmask, decide_eq_true hn, Bool.true_and]
  rw [testBit_setByte w i b hn, UInt32.toNat_or, Nat.testBit_or, UInt32.toNat_and,
    Nat.testBit_and, hnot, testBit_shiftLeft_toUInt32 b hi hn]
  by_cases h : i = n / 8 <;> simp [h]

/-! ### Signed numbers -/

/-- A signed number is stood for by its remainder modulo `2 ^ 32`. -/
theorem toNat_ofSigned (d : Int32) : ((ofSigned d).toNat : Int) = d.toInt % 2 ^ 32 := by
  have hnat : (ofSigned d).toNat = d.toBitVec.toNat := rfl
  have hint : d.toInt = d.toBitVec.toInt := rfl
  have hlt : d.toBitVec.toNat < 2 ^ 32 := d.toBitVec.isLt
  rw [hnat, hint, BitVec.toInt_eq_toNat_cond]
  split <;> omega

theorem toInt_signExtend (b : UInt8) :
    (signExtend b).toInt = if b.toNat < 128 then (b.toNat : Int) else (b.toNat : Int) - 256 := by
  have hnat : b.toBitVec.toNat = b.toNat := rfl
  have hint : b.toInt8.toInt = b.toBitVec.toInt := rfl
  rw [signExtend, Int8.toInt_toInt32, hint, BitVec.toInt_eq_toNat_cond, hnat]
  split <;> split <;> omega

/-- A signed number of eight bits is its low byte, sign-extended. -/
theorem signExtend_byte_ofSigned {d : Int32} (hle : -128 ≤ d.toInt) (hlt : d.toInt < 128) :
    signExtend (byte (ofSigned d) 0) = d := by
  have hd := toNat_ofSigned d
  apply Int32.toInt_inj.1
  rw [toInt_signExtend, toNat_byte, Nat.mul_zero, Nat.shiftRight_zero]
  split <;> omega

end Boot386.Word
