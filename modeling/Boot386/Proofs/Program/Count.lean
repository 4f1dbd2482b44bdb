import Boot386.Proofs.Comparison
import Boot386.Proofs.Program.Basic

/-!
# The counting loop

`count bound` counts in `eax` up to a bound, which is compared as a signed number:

```
      mov eax, 0
loop: inc eax
      cmp eax, bound
      jl loop
      push 0
      ret
```

The bound is looked at behind the increment, so that there is at least one turn of the loop. There
are `turns bound` of them. After each of them `eax` is the number of turns so far
(`count_loop`), as no number below the bound is too large for a signed word, and `execute_count` is
the whole run.
-/

namespace Boot386.Program

open Word (signedValue)

/-- The image of the program. -/
def count (bound : UInt32) : List UInt8 :=
  [0xb8, 0x00, 0x00, 0x00, 0x00, 0x40, 0x3d] ++ Word.toBytes bound ++ [0x7c, 0xf8, 0x6a, 0x00, 0xc3]

/-- How many turns of the loop there are. -/
def turns (bound : UInt32) : Nat :=
  (max 1 (signedValue bound)).toNat

variable {bound : UInt32} {n : Nat} {rs : Registers} {fl : Flags} {c : Console} {m : Machine}

theorem length_count (bound : UInt32) : (count bound).length = 16 := rfl

theorem turns_eq (bound : UInt32) : (turns bound : Int) = max 1 (signedValue bound) := by
  unfold turns
  omega

theorem turns_lt (bound : UInt32) : turns bound < 2147483648 := by
  have hbound := bound.toNat_lt
  have hturns := turns_eq bound
  rw [Word.signedValue_eq] at hturns
  split at hturns <;> omega

/-- A number of turns is positive as a signed word, too. -/
theorem signedValue_ofNat {j : Nat} (hj : j ≤ turns bound) : signedValue (UInt32.ofNat j) = j := by
  have hlt := turns_lt bound
  rw [Word.signedValue_eq, UInt32.toNat_ofNat', Nat.mod_eq_of_lt (by omega), if_pos (by omega)]

/-- One turn of the loop. -/
theorem count_turn (h : Executes (count bound) 5 rs fl c n m) :
    let i := rs.get .eax + 1
    Executes (count bound) (if signedValue i < signedValue bound then 5 else 13) (rs.set .eax i)
      (Flags.ofSub i bound) c (n + 3) (m.run 3) := by
  intro i
  have hinc : [0x40 + UInt8.ofNat Reg.eax.code.val] <+: (count bound).drop 5 := ⟨_, rfl⟩
  have hcmp : 0x3d :: Word.toBytes bound <+: (count bound).drop 6 := ⟨_, rfl⟩
  have hjl : [InstructionSet.conditionOpcode .less, 0xf8] <+: (count bound).drop 11 := ⟨_, rfl⟩
  have htarget : Machine.jumpTarget (address 13) (Word.signExtend 0xf8) = address 5 := by decide
  have hfive : 5 ≤ (count bound).length := length_count bound ▸ by decide
  have h₃ := ((h.inc hinc).cmpWord hcmp).jcc hjl hfive htarget
  simp only [Condition.holds_ofSub_iff, Condition.Compares] at h₃
  rw [Machine.run_succ, Machine.run_two]
  exact h₃

/-- **The loop.** After some turns of the loop `eax` is their number, and the next one follows if
there are more. -/
theorem count_loop (h : Executes (count bound) 5 rs fl c n m) (hzero : rs.get .eax = 0) {j : Nat}
    (hj : j ≤ turns bound) :
    ∃ rs' fl', rs'.get .eax = UInt32.ofNat j ∧ (∀ r, r ≠ .eax → rs'.get r = rs.get r) ∧
      Executes (count bound) (if j < turns bound then 5 else 13) rs' fl' c (n + 3 * j)
        (m.run (3 * j)) := by
  have hturns := turns_eq bound
  induction j with
  | zero =>
    rw [if_pos (by omega)]
    exact ⟨rs, fl, hzero, fun r hr => rfl, h⟩
  | succ j ih =>
    obtain ⟨rs', fl', heax, hother, h'⟩ := ih (Nat.le_of_succ_le hj)
    rw [if_pos (Nat.lt_of_succ_le hj)] at h'
    have hturn := count_turn h'
    have hnext : rs'.get .eax + 1 = UInt32.ofNat (j + 1) := by rw [heax, UInt32.ofNat_add]; rfl
    -- the comparison of the words is that of the numbers
    have hmore : signedValue (UInt32.ofNat (j + 1)) < signedValue bound ↔ j + 1 < turns bound := by
      rw [signedValue_ofNat hj]
      omega
    simp only [hnext, hmore] at hturn
    rw [← Machine.run_add, Nat.add_assoc, ← Nat.mul_succ] at hturn
    have heax' : (rs'.set .eax (UInt32.ofNat (j + 1))).get .eax = UInt32.ofNat (j + 1) := by
      rw [Registers.get_set, if_pos rfl]
    refine ⟨_, _, heax', fun r hr => ?_, hturn⟩
    rw [Registers.get_set, if_neg hr, hother r hr]

/-- **The counting loop counts.** For every bound the program ends, with the bound in `eax`, or with
one if the bound is less. -/
theorem execute_count (bound : UInt32) (host : Host) :
    ∃ m, (∀ limit, m.steps ≤ limit → Machine.execute {} host (count bound) limit = .ok m) ∧
      m.status = .ended ∧
      ((m.registers.get .eax).toNat : Int) = max 1 (signedValue bound) ∧
      m.registers.get .esp = 0x7c00 ∧ m.eip = 0 ∧
      (m.steps : Int) = 3 * max 1 (signedValue bound) + 3 := by
  have hfits : (count bound).length ≤ 1016832 := length_count bound ▸ by decide
  obtain ⟨m, hload, h⟩ := executes_load hfits host
  -- the program in front of the loop and behind it
  have hmov : (0xb8 + UInt8.ofNat Reg.eax.code.val) :: Word.toBytes 0 <+: (count bound).drop 0 :=
    ⟨_, rfl⟩
  have hpush : [0x6a, 0] <+: (count bound).drop 13 := ⟨_, rfl⟩
  have hret : [0xc3] <+: (count bound).drop 15 := ⟨_, rfl⟩
  obtain ⟨rs, fl, heax, hother, h'⟩ := count_loop (h.mov hmov) rfl (Nat.le_refl (turns bound))
  have hesp : rs.get .esp = origin := hother .esp (by decide)
  rw [if_neg (Nat.lt_irrefl _), ← Machine.run_succ, Nat.add_comm (3 * _)] at h'
  obtain ⟨m', hexecute, hended, heip, hregs, -, hsteps⟩ := h'.execute hload hpush hret hesp
  have hturns := turns_eq bound
  have hlt := turns_lt bound
  refine ⟨m', fun limit hlimit => hexecute limit (by omega), hended, ?_, ?_, heip, ?_⟩
  · rw [hregs, heax, UInt32.toNat_ofNat', Nat.mod_eq_of_lt (by omega), hturns]
  · rw [hregs, hesp]
  · omega

end Boot386.Program
