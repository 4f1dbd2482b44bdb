import Mathlib.Algebra.Group.Nat.Defs
import Mathlib.Order.Nat
import Boot386.Numeral

/-!
# Reading numerals back

Digits are read back by their value (`Numeral.value_toDigits`), with or without zeros in front
(`Numeral.value_paddedHex`), so that a number is determined by its digits, in every form in which it
is written (`hex_inj`, `paddedHex_inj`, `decimal_inj`, `signed_inj`).
-/

namespace Boot386.Numeral

/-- The digits, in the order of their values. -/
def digits : List Char := "0123456789abcdef".toList

/-- The number that some digits stand for, the first one being the most significant. -/
def value (base : Nat) (cs : List Char) : Nat :=
  cs.foldl (fun n c => base * n + digits.idxOf c) 0

theorem idxOf_digitChar {d : Nat} (h : d < 16) : digits.idxOf d.digitChar = d := by
  revert d
  decide

theorem digitChar_mem {d : Nat} (h : d < 16) : d.digitChar ∈ digits := by
  revert d
  decide

section Digits

variable {base : Nat} (hone : 1 < base) (hbase : base ≤ 16)

include hone hbase

/-- **Digits are read back.** -/
theorem value_toDigits (n : Nat) : value base (Nat.toDigits base n) = n := by
  induction n using Nat.strong_induction_on with
  | _ n ih =>
    obtain hlt | hle := Nat.lt_or_ge n base
    · rw [Nat.toDigits_of_lt_base hlt]
      show base * 0 + digits.idxOf n.digitChar = n
      rw [idxOf_digitChar (hlt.trans_le hbase), Nat.mul_zero, Nat.zero_add]
    · have hmod : n % base < base := Nat.mod_lt n (Nat.zero_lt_of_lt hone)
      have hdiv : n / base < n := Nat.div_lt_self ((Nat.zero_lt_of_lt hone).trans_le hle) hone
      rw [Nat.toDigits_of_base_le hone hle, value, List.foldl_append]
      show base * value base (Nat.toDigits base (n / base)) + digits.idxOf (n % base).digitChar = n
      rw [ih _ hdiv, idxOf_digitChar (hmod.trans_le hbase), Nat.div_add_mod]

theorem toDigits_inj {m n : Nat} : Nat.toDigits base m = Nat.toDigits base n ↔ m = n := by
  refine ⟨fun h => ?_, fun h => by rw [h]⟩
  rw [← value_toDigits hone hbase m, h, value_toDigits hone hbase n]

/-- There is nothing but digits in a numeral. -/
theorem mem_digits_of_mem_toDigits {n : Nat} {c : Char} (h : c ∈ Nat.toDigits base n) :
    c ∈ digits := by
  induction n using Nat.strong_induction_on with
  | _ n ih =>
    obtain hlt | hle := Nat.lt_or_ge n base
    · rw [Nat.toDigits_of_lt_base hlt, List.mem_singleton] at h
      rw [h]
      exact digitChar_mem (hlt.trans_le hbase)
    · have hmod : n % base < base := Nat.mod_lt n (Nat.zero_lt_of_lt hone)
      have hdiv : n / base < n := Nat.div_lt_self ((Nat.zero_lt_of_lt hone).trans_le hle) hone
      rw [Nat.toDigits_of_base_le hone hle, List.mem_append, List.mem_singleton] at h
      obtain h | rfl := h
      · exact ih _ hdiv h
      · exact digitChar_mem (hmod.trans_le hbase)

end Digits

/-! ### Padding -/

theorem mem_digits_of_mem_paddedHex {width n : Nat} {c : Char}
    (h : c ∈ (paddedHex width n).toList) : c ∈ digits := by
  rw [paddedHex, String.toList_ofList, List.leftpad, List.mem_append, List.mem_replicate] at h
  obtain ⟨-, rfl⟩ | h := h
  · decide
  · exact mem_digits_of_mem_toDigits (by decide) (by decide) h

/-- Zeros in front do not count. -/
theorem value_replicate_append (base k : Nat) (cs : List Char) :
    value base (List.replicate k '0' ++ cs) = value base cs := by
  have hzeros : value base (List.replicate k '0') = 0 := by
    induction k with
    | zero => rfl
    | succ k ih =>
      rw [List.replicate_succ', value, List.foldl_append]
      show base * value base (List.replicate k '0') + digits.idxOf '0' = 0
      rw [ih]
      rfl
  rw [value, List.foldl_append]
  show cs.foldl _ (value base (List.replicate k '0')) = _
  rw [hzeros, value]

/-- **Padded digits are read back.** -/
theorem value_paddedHex (width n : Nat) : value 16 (paddedHex width n).toList = n := by
  rw [paddedHex, String.toList_ofList, List.leftpad, value_replicate_append,
    value_toDigits (by decide) (by decide)]

/-- A number that has no more digits than that fills the width exactly. -/
theorem length_paddedHex (width : Nat) {n : Nat} (hwidth : 0 < width) (hn : n < 16 ^ width) :
    (paddedHex width n).toList.length = width := by
  have hle : (Nat.toDigits 16 n).length ≤ width :=
    (Nat.length_toDigits_le_iff (by decide) hwidth).2 hn
  rw [paddedHex, String.toList_ofList, List.leftpad, List.length_append, List.length_replicate]
  omega

/-! ### The forms of a number -/

theorem paddedHex_inj {width m n : Nat} : paddedHex width m = paddedHex width n ↔ m = n := by
  refine ⟨fun h => ?_, fun h => by rw [h]⟩
  rw [← value_paddedHex width m, h, value_paddedHex]

theorem octet_inj {b c : UInt8} : octet b = octet c ↔ b = c := by
  rw [octet, octet, String.append_right_inj, paddedHex_inj, UInt8.toNat_inj]

theorem address_inj {a b : UInt32} : address a = address b ↔ a = b := by
  rw [address, address, String.append_right_inj, paddedHex_inj, UInt32.toNat_inj]

theorem decimal_inj {m n : Nat} : decimal m = decimal n ↔ m = n := by
  rw [decimal, decimal, String.ofList_inj, toDigits_inj (by decide) (by decide)]

theorem toList_hex (n : Nat) : (hex n).toList = '0' :: 'x' :: Nat.toDigits 16 n := by
  rw [hex, String.toList_append, String.toList_ofList, String.toList_ofList]
  rfl

theorem hex_inj {m n : Nat} : hex m = hex n ↔ m = n := by
  rw [← String.toList_inj, toList_hex, toList_hex, List.cons_inj_right, List.cons_inj_right,
    toDigits_inj (by decide) (by decide)]

/-- A sign and a magnitude determine a number. -/
theorem signed_inj {i j : Int} : signed i = signed j ↔ i = j := by
  refine ⟨fun h => ?_, fun h => by rw [h]⟩
  unfold signed at h
  rw [← String.toList_inj] at h
  split at h <;> split at h <;>
    simp only [String.toList_append, String.reduceToList, List.cons_append, List.nil_append,
      List.cons.injEq, true_and, String.toList_inj, decimal_inj, Char.reduceEq, false_and] at h
  · omega
  · omega

end Boot386.Numeral
