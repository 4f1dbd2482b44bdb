import Boot386.Proofs.Machine.Branch
import Boot386.Proofs.Machine.Effect
import Boot386.Proofs.Machine.Fault

/-!
# The sets of flags that occur

Four flags have sixteen sets, and seven of them are those of a difference
(`Flags.exists_ofSub_eq_iff`). Two relations between the flags tell these seven from the others
(`Flags.Consistent`): a difference that is zero has no other flag, and one that does not fit has the
sign that its borrow says. Between two words that are zero-extended bytes there are only three
(`Flags.ofSub_toUInt32`).

A machine starts without flags, and a step keeps them or sets those of a difference
(`Machine.flags_step`). Hence the flags are one of the seven sets at all times, and there is a
program for each of them (`Machine.flags_of_reachable`).
-/

namespace Boot386

/-! ### The flags of a difference -/

attribute [ext] Flags

namespace Flags

/-- Nothing but zero is set where the difference is zero, and where it does not fit, there is a
borrow exactly if its sign is set. -/
structure Consistent (f : Flags) : Prop where
  zero : f.zero = true → f.carry = false ∧ f.sign = false ∧ f.overflow = false
  overflow : f.overflow = true → f.carry = f.sign

/-- The seven sets of flags that a difference can have. -/
def occurring : List Flags :=
  [{}, { zero := true }, { carry := true }, { sign := true }, { carry := true, sign := true },
    { overflow := true }, { carry := true, sign := true, overflow := true }]

theorem mem_occurring_iff (f : Flags) : f ∈ occurring ↔ f.Consistent := by
  obtain ⟨carry, zero, sign, overflow⟩ := f
  constructor
  · intro h
    simp only [occurring, List.mem_cons, mk.injEq, List.not_mem_nil, or_false] at h
    constructor <;> grind
  · rintro ⟨hzero, hoverflow⟩
    cases carry <;> cases zero <;> cases sign <;> cases overflow <;> simp_all [occurring]

/-- **Two relations between the flags.** A difference has no other sets. -/
theorem consistent_ofSub (a b : UInt32) : (ofSub a b).Consistent where
  zero h := by
    obtain rfl : a = b := (zero_ofSub_iff a b).1 h
    simp [ofSub, topBit]
  overflow h := by
    have ha := a.toNat_lt
    have hb := b.toNat_lt
    rw [Bool.eq_iff_iff, carry_ofSub_iff, sign_ofSub_iff, UInt32.lt_iff_toNat_lt]
    -- the operands differ in sign, so that the first one is the smaller one exactly if the top bit
    -- of the second one is set, which on overflow is the top bit of the result, too
    simp only [ofSub, toUInt32_wide, topBit, Bool.and_eq_true, bne_iff_ne, ne_eq,
      decide_eq_decide, UInt32.toNat_sub] at h ⊢
    omega

/-- **The sets of flags of differences.** -/
theorem exists_ofSub_eq_iff (f : Flags) : (∃ a b, ofSub a b = f) ↔ f ∈ occurring := by
  constructor
  · rintro ⟨a, b, rfl⟩
    exact (mem_occurring_iff _).2 (consistent_ofSub a b)
  · intro h
    simp only [occurring, List.mem_cons, List.not_mem_nil, or_false] at h
    obtain rfl | rfl | rfl | rfl | rfl | rfl | rfl := h
    · exact ⟨1, 0, by decide⟩
    · exact ⟨0, 0, by decide⟩
    · exact ⟨0, 0xffffffff, by decide⟩
    · exact ⟨0x80000000, 0, by decide⟩
    · exact ⟨0, 1, by decide⟩
    · exact ⟨0x80000000, 1, by decide⟩
    · exact ⟨0x7fffffff, 0xffffffff, by decide⟩

/-- The difference of two bytes that are zero-extended fits, and a borrow goes through to the
sign. -/
theorem ofSub_toUInt32 (x y : UInt8) :
    ofSub x.toUInt32 y.toUInt32
      = if x = y then { zero := true }
        else if x < y then { carry := true, sign := true } else {} := by
  have hx := x.toNat_lt
  have hy := y.toNat_lt
  have hcarry : (ofSub x.toUInt32 y.toUInt32).carry = decide (x < y) := by
    rw [Bool.eq_iff_iff, carry_ofSub_iff, decide_eq_true_iff, UInt32.lt_iff_toNat_lt,
      UInt8.toNat_toUInt32, UInt8.toNat_toUInt32, UInt8.lt_iff_toNat_lt]
  have hzero : (ofSub x.toUInt32 y.toUInt32).zero = decide (x = y) := by
    rw [Bool.eq_iff_iff, zero_ofSub_iff, decide_eq_true_iff, ← UInt32.toNat_inj,
      UInt8.toNat_toUInt32, UInt8.toNat_toUInt32, UInt8.toNat_inj]
  have hsign : (ofSub x.toUInt32 y.toUInt32).sign = decide (x < y) := by
    rw [Bool.eq_iff_iff, sign_ofSub_iff, decide_eq_true_iff, UInt32.toNat_sub,
      UInt8.toNat_toUInt32, UInt8.toNat_toUInt32, UInt8.lt_iff_toNat_lt]
    omega
  have hoverflow : (ofSub x.toUInt32 y.toUInt32).overflow = false := by
    have hfits := (Condition.compares_toUInt32 x y).1
    rwa [← Condition.holds_ofSub_iff, Bool.not_eq_true] at hfits
  -- each flag is a comparison of the bytes
  have hflags : ofSub x.toUInt32 y.toUInt32
      = ⟨decide (x < y), decide (x = y), decide (x < y), false⟩ :=
    Flags.ext hcarry hzero hsign hoverflow
  rw [hflags]
  by_cases heq : x = y
  · simp [heq]
  · by_cases hlt : x < y <;> simp [heq, hlt]

end Flags

/-! ### Machines -/

namespace Machine

variable {m : Machine}

/-- A step keeps the flags, or sets those of a difference. -/
theorem flags_step (m : Machine) :
    m.step.flags = m.flags ∨ ∃ a b, m.step.flags = Flags.ofSub a b := by
  by_cases hm : m.status = .running
  · by_cases hok : ∀ f, m.step.status ≠ .faulted f
    · obtain ⟨i, n, target, h⟩ := exists_completed hm hok
      rw [h.flags_eq, flagsAfter]
      split
      · exact .inr ⟨_, _, rfl⟩
      · exact .inl rfl
    · push Not at hok
      obtain ⟨f, hf⟩ := hok
      exact .inl ((stepped hm).sameGuest hm hf).flags
  · exact .inl (by rw [step_of_halted hm])

theorem mem_occurring_step (h : m.flags ∈ Flags.occurring) : m.step.flags ∈ Flags.occurring := by
  obtain hkeep | ⟨a, b, hsub⟩ := m.flags_step
  · rwa [hkeep]
  · rw [hsub]
    exact (Flags.exists_ofSub_eq_iff _).1 ⟨a, b, rfl⟩

theorem mem_occurring_run (h : m.flags ∈ Flags.occurring) (limit : Nat) :
    (m.run limit).flags ∈ Flags.occurring := by
  induction limit with
  | zero => exact h
  | succ limit ih =>
    rw [run_succ_eq_step]
    exact mem_occurring_step ih

theorem mem_occurring_apply (h : m.flags ∈ Flags.occurring) (c : Command) :
    (m.apply c).2.flags ∈ Flags.occurring := by
  cases c with
  | step => exact mem_occurring_step h
  | run limit => exact mem_occurring_run h limit
  | _ =>
    rw [(keepsCourse_apply id).flags]
    exact h

theorem mem_occurring_applyAll (h : m.flags ∈ Flags.occurring) (commands : List Command) :
    (m.applyAll commands).flags ∈ Flags.occurring := by
  induction commands generalizing m with
  | nil => exact h
  | cons c commands ih => exact ih (mem_occurring_apply h c)

/-- A program that compares two words, which are given to it in registers. -/
theorem flags_compare (a b : UInt32) :
    ((boot ⟨2, 0, false⟩ {}).applyAll
      [.load [0x39, 0xc8], .set .eax a, .set .ecx b, .step]).flags = Flags.ofSub a b := by
  let m : Machine := { boot ⟨2, 0, false⟩ {} with
    registers := { eax := a, ecx := b }
    memory := (Memory.ofSize 2).store 0 [0x39, 0xc8] }
  have hdecode : Decoder.instructionAt [0x39, 0xc8] 0
      = (.ok ⟨.cmp, .dword, .reg .eax, .reg .ecx⟩, 2) := by rfl
  have hcode : InstructionSet.Encodes [0x39, 0xc8] ⟨.cmp, .dword, .reg .eax, .reg .ecx⟩ :=
    (InstructionSet.encodes_of_instructionAt hdecode).2
  have hat : ((Memory.ofSize 2).store 0 [0x39, 0xc8]).Holds 0 [0x39, 0xc8] := by decide +kernel
  obtain ⟨-, -, hflags, -⟩ := step_compare (m := m) rfl hcode rfl hat trivial
  exact hflags

/-- The comparison of `al` with a constant byte. -/
theorem flags_compare_al (hm : m.status = .running) {k : UInt8}
    (hat : m.memory.Holds m.eip [0x3c, k]) :
    m.step.flags
      = if m.registers.get8 .al = k then { zero := true }
        else if m.registers.get8 .al < k then { carry := true, sign := true } else {} := by
  have hdecode : Decoder.instructionAt [0x3c, k] 0
      = (.ok ⟨.cmp, .byte, .reg8 .al, .imm k.toUInt32⟩, 2) := by rfl
  have hcode : InstructionSet.Encodes [0x3c, k] ⟨.cmp, .byte, .reg8 .al, .imm k.toUInt32⟩ :=
    (InstructionSet.encodes_of_instructionAt hdecode).2
  obtain ⟨-, -, hflags, -⟩ := step_compare hm hcode rfl hat trivial
  rw [hflags]
  exact Flags.ofSub_toUInt32 _ k

/-- **The flags that a machine can have.** Whatever a machine has been booted with and whatever
commands it has been given since, its flags are one of seven sets, and there are commands for each
of these. They are the sets of the differences of two words: zero is never set together with another
flag, and overflow only if carry and sign are equal. After the comparison of `al` with a constant
byte there are no flags, or zero alone, or carry and sign. -/
theorem flags_of_reachable :
    (∀ f, (∃ config host commands, ((boot config host).applyAll commands).flags = f) ↔
      f ∈ Flags.occurring) ∧
    (∀ f, (∃ a b, Flags.ofSub a b = f) ↔ f ∈ Flags.occurring) ∧
    (∀ a b, let f := Flags.ofSub a b
      (f.zero = true → f.carry = false ∧ f.sign = false ∧ f.overflow = false) ∧
      (f.overflow = true → f.carry = f.sign)) ∧
    (∀ (m : Machine) (k : UInt8), m.status = .running → m.memory.Holds m.eip [0x3c, k] →
      m.step.flags
        = if m.registers.get8 .al = k then { zero := true }
          else if m.registers.get8 .al < k then { carry := true, sign := true } else {}) := by
  refine ⟨fun f => ⟨?_, fun h => ?_⟩, Flags.exists_ofSub_eq_iff, fun a b => ?_,
    fun m k hm hat => flags_compare_al hm hat⟩
  · rintro ⟨config, host, commands, rfl⟩
    exact mem_occurring_applyAll List.mem_cons_self commands
  · obtain ⟨a, b, rfl⟩ := (Flags.exists_ofSub_eq_iff f).2 h
    exact ⟨_, _, _, flags_compare a b⟩
  · obtain ⟨hzero, hoverflow⟩ := Flags.consistent_ofSub a b
    exact ⟨hzero, hoverflow⟩

/-- `cmp al, 0xf0` where `al` is smaller, but not as a signed byte, and a machine that has compared
the least number there is with one. -/
theorem flags_of_reachable_borrow :
    let m : Machine := { boot ⟨2, 0, true⟩ {} with
      registers := { eax := 0x41 }
      memory := (Memory.ofSize 2).store 0 [0x3c, 0xf0] }
    m.status = .running ∧ m.memory.Holds m.eip [0x3c, 0xf0] ∧
    m.step.flags = { carry := true, sign := true } ∧
    ∃ config host commands,
      ((boot config host).applyAll commands).flags = { overflow := true } := by
  intro m
  obtain ⟨hreach, -, -, hbyte⟩ := flags_of_reachable
  have hat : m.memory.Holds m.eip [0x3c, 0xf0] := by decide +kernel
  exact ⟨rfl, hat, hbyte m 0xf0 rfl hat, (hreach _).2 (by decide)⟩

end Machine

end Boot386
