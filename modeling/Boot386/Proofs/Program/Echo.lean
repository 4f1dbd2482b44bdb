import Boot386.Proofs.Comparison
import Boot386.Proofs.Program.Basic

/-!
# The echo program

`echo` writes back what it reads, up to the first zero and with it:

```
      mov edx, 0x3f8
loop: in al, dx
      out dx, al
      cmp al, 0
      jnz loop
      push 0
      ret
```

One turn of the loop moves one byte (`echo_turn`). Behind the end of its input a host goes on with
zeros, so that the loop is left after any input that is finite (`echo_loop`), and `execute_echo` is
the whole run.
-/

namespace Boot386.Program

/-- The image of the program. -/
def echo : List UInt8 :=
  [0xba, 0xf8, 0x03, 0x00, 0x00, 0xec, 0xee, 0x3c, 0x00, 0x75, 0xfa, 0x6a, 0x00, 0xc3]

variable {n : Nat} {rs : Registers} {fl : Flags} {c : Console} {m : Machine} {s : List UInt8}

theorem get_set8_al (rs : Registers) (b : UInt8) {r : Reg} (hr : r ≠ .eax) :
    (rs.set8 .al b).get r = rs.get r := by
  rw [Registers.get_set8]
  exact if_neg hr

/-- One turn of the loop reads a byte and writes it. It goes on unless the byte is zero. -/
theorem echo_turn (h : Executes echo 5 rs fl c n m)
    (hdx : (rs.get .edx).toUInt16 = Console.address) (hs : c.host.Supplies s) :
    ∃ c' fl', c'.sent.toList = c.sent.toList ++ [s.headD 0] ∧ c'.host.Supplies s.tail ∧
      Executes echo (if s.headD 0 = 0 then 11 else 5) (rs.set8 .al (s.headD 0)) fl' c' (n + 4)
        (m.run 4) := by
  have hin : [0xec] <+: echo.drop 5 := by decide
  have hout : [0xee] <+: echo.drop 6 := by decide
  have hcmp : [0x3c, 0] <+: echo.drop 7 := by decide
  have hjnz : [InstructionSet.conditionOpcode .notZero, 0xfa] <+: echo.drop 9 := by decide
  have htarget : Machine.jumpTarget (address 11) (Word.signExtend 0xfa) = address 5 := by decide
  -- the byte is read, which keeps the port, and is written
  obtain ⟨c₁, hsent₁, hs₁, h₁⟩ := h.input hin hdx hs
  have hdx₁ : ((rs.set8 .al (s.headD 0)).get .edx).toUInt16 = Console.address := by
    rw [get_set8_al _ _ (by decide), hdx]
  obtain ⟨c₂, hsent₂, hs₂, h₂⟩ := h₁.output hout hdx₁ hs₁
  have h₄ := (h₂.cmpByte hcmp).jcc hjnz (by decide) htarget
  rw [Registers.get8_set8_self] at hsent₂ h₄
  -- the jump is taken if the byte differs from zero
  have hjump : (if Condition.notZero.holds (Flags.ofSub (s.headD 0).toUInt32 (0 : UInt8).toUInt32)
      then 5 else 9 + 2) = if s.headD 0 = 0 then 11 else 5 := by
    simp only [Condition.holds_ofSub_iff, Condition.Compares, ne_eq, UInt8.toUInt32_inj, ite_not]
  rw [hjump] at h₄
  rw [Machine.run_succ, Machine.run_succ, Machine.run_two]
  exact ⟨c₂, _, by rw [hsent₂, hsent₁], hs₂, h₄⟩

/-- The turn of the loop that moves a zero is the last one. -/
theorem echo_last (h : Executes echo 5 rs fl c n m)
    (hdx : (rs.get .edx).toUInt16 = Console.address) (hs : c.host.Supplies s)
    (hzero : s.headD 0 = 0) :
    ∃ rs' fl' c', rs'.get .esp = rs.get .esp ∧ rs'.get8 .al = 0 ∧
      c'.sent.toList = c.sent.toList ++ [0] ∧ Executes echo 11 rs' fl' c' (n + 4) (m.run 4) := by
  obtain ⟨c', fl', hsent, -, h'⟩ := echo_turn h hdx hs
  rw [hzero, if_pos rfl] at h'
  rw [hzero] at hsent
  exact ⟨_, fl', c', get_set8_al _ _ (by decide), Registers.get8_set8_self .., hsent, h'⟩

/-- **The loop.** It is left once a zero has been moved, which is at the latest that behind the end
of the input. -/
theorem echo_loop (h : Executes echo 5 rs fl c n m)
    (hdx : (rs.get .edx).toUInt16 = Console.address) (hs : c.host.Supplies s) :
    let echoed := s.takeWhile (· ≠ 0)
    ∃ rs' fl' c', rs'.get .esp = rs.get .esp ∧ rs'.get8 .al = 0 ∧
      c'.sent.toList = c.sent.toList ++ (echoed ++ [0]) ∧
      Executes echo 11 rs' fl' c' (n + 4 * (echoed.length + 1))
        (m.run (4 * (echoed.length + 1))) := by
  intro echoed
  induction s generalizing n rs fl c m with
  | nil => exact echo_last h hdx hs rfl
  | cons b s ih =>
    by_cases hb : b = 0
    · -- a zero in the input ends the loop like the one behind it
      have hnone : echoed = [] := by simp [echoed, hb]
      rw [hnone]
      exact echo_last h hdx hs hb
    · -- one turn moves the first byte, and the others follow from the state behind it
      have hfirst : echoed = b :: s.takeWhile (· ≠ 0) := by simp [echoed, hb]
      obtain ⟨c₁, fl₁, hsent₁, hs₁, h₁⟩ := echo_turn h hdx hs
      rw [List.headD_cons, if_neg hb] at h₁
      have hdx₁ : ((rs.set8 .al b).get .edx).toUInt16 = Console.address := by
        rw [get_set8_al _ _ (by decide), hdx]
      obtain ⟨rs', fl', c', hesp, hal, hsent, h'⟩ := ih h₁ hdx₁ hs₁
      refine ⟨rs', fl', c', ?_, hal, ?_, ?_⟩
      · rw [hesp, get_set8_al _ _ (by decide)]
      · rw [hsent, hsent₁, hfirst]
        simp
      · have hcount : 4 * (echoed.length + 1) = 4 + 4 * ((s.takeWhile (· ≠ 0)).length + 1) := by
          rw [hfirst, List.length_cons]
          omega
        rw [hcount, ← Nat.add_assoc, Machine.run_add]
        exact h'

/-- **The echo program echoes.** On a host that never fails the program writes the input up to the
first zero, which may be that behind its end, and the zero, and ends. -/
theorem execute_echo {host : Host} (hs : host.Supplies s) :
    let echoed := s.takeWhile (· ≠ 0)
    ∃ m, (∀ limit, 4 * (echoed.length + 1) + 3 ≤ limit →
        Machine.execute {} host echo limit = .ok m) ∧
      m.status = .ended ∧ m.console.sent.toList = echoed ++ [0] ∧
      m.steps = 4 * (echoed.length + 1) + 3 ∧ m.registers.get .esp = 0x7c00 ∧ m.eip = 0 ∧
      m.registers.get8 .al = 0 := by
  intro echoed
  have hfits : echo.length ≤ 1016832 := by decide
  obtain ⟨m, hload, h⟩ := executes_load hfits host
  -- the program in front of the loop and behind it
  have hmov : (0xb8 + UInt8.ofNat Reg.edx.code.val) :: Word.toBytes 0x3f8 <+: echo.drop 0 := by
    decide
  have hpush : [0x6a, 0] <+: echo.drop 11 := by decide
  have hret : [0xc3] <+: echo.drop 13 := by decide
  obtain ⟨rs, fl, c, hesp, hal, hsent, h'⟩ := echo_loop (h.mov hmov) (by rfl) hs
  rw [← Machine.run_succ, Nat.add_comm (4 * _) 1] at h'
  have hesp' : rs.get .esp = origin := hesp.trans rfl
  obtain ⟨m', hexecute, hended, heip, hregs, hconsole, hsteps⟩ := h'.execute hload hpush hret hesp'
  have hcount : 1 + 4 * (echoed.length + 1) + 2 = 4 * (echoed.length + 1) + 3 := by omega
  rw [Nat.zero_add] at hexecute hsteps
  refine ⟨m', hcount ▸ hexecute, hended, ?_, hcount ▸ hsteps, ?_, heip, ?_⟩
  · rw [hconsole, hsent]
    rfl
  · rw [hregs, hesp']
  · rw [hregs, hal]

/-- Behind the end of the input a zero is echoed. -/
theorem execute_echo_two_bytes :
    let host := Host.ofInput [0x6f, 0x6b]
    host.Supplies [0x6f, 0x6b] ∧ ∃ m, Machine.execute {} host echo 15 = .ok m ∧
      m.status = .ended ∧ m.console.sent.toList = [0x6f, 0x6b, 0] ∧ m.steps = 15 := by
  have hs : (Host.ofInput [0x6f, 0x6b]).Supplies [0x6f, 0x6b] := Host.supplies_ofInput _
  obtain ⟨m, hexecute, hended, hsent, hsteps, -⟩ := execute_echo hs
  exact ⟨hs, m, hexecute 15 (by decide), hended, hsent, hsteps⟩

end Boot386.Program
