import Boot386.Proofs.Machine.Access

/-!
# What a step looks at

A step looks at the bytes that it fetches and at those of one data access, if the instruction reads
there; what it only writes it does not look at. `Machine.Inspects m a` says that the byte at an
address is among them. The two halves of a step depend on nothing else in memory:

* `decoded_congr`: where the fetched bytes are the same, the same is decoded;
* `intended_congr`: where the bytes of the access that is read (`Instruction.source?`) are the same,
  an instruction asks for the same.

Machines that are alike in everything but memory, console and log (`Machine.Alike`) then complete
their instructions, or fault, in the same way.
-/

namespace Boot386

/-! ### Places that are read -/

/-- The address is one of those of an access. -/
def Covers (access : Option (UInt32 × Nat)) (c : Nat) : Prop :=
  ∃ a n, access = some (a, n) ∧ a.toNat ≤ c ∧ c < a.toNat + n

theorem not_covers_none (c : Nat) : ¬ Covers none c := by
  rintro ⟨a, n, h, -⟩
  cases h

/-- The place that an instruction reads, if it reads one. A move reads its second operand only, and
a word that is pushed is not read before. -/
def Instruction.source? (i : Instruction) (rs : Registers) : Option (UInt32 × Nat) :=
  match i.op with
  | .mov => i.right.access? rs i.width
  | .add | .sub | .cmp => (i.left.access? rs i.width).or (i.right.access? rs i.width)
  | .inc => i.left.access? rs i.width
  | .pop | .ret => some (rs.get .esp, 4)
  | .leave => some (rs.get .ebp, 4)
  | .push | .call | .jmp | .jcc _ | .input | .output | .interrupt => none

/-- An instruction reads at its data access, if it reads at all. -/
theorem Instruction.source?_eq {i : Instruction} (hi : i.Encodable) (rs : Registers) :
    i.source? rs = none ∨ i.source? rs = i.access? rs := by
  obtain ⟨op, w, left, right⟩ := i
  cases op with
  | mov =>
    show right.access? rs w = none ∨
      right.access? rs w = (left.access? rs w).or (right.access? rs w)
    -- a copy reads its right operand, and only one of the two is in memory
    obtain hnone | hnone := Operand.access?_eq_none_or hi.2.2 rs w
    · rw [hnone, Option.none_or]
      exact .inr rfl
    · exact .inl hnone
  | push => exact .inl rfl
  | call => exact .inl rfl
  | _ => exact .inr rfl

namespace Machine

variable {m m' : Machine}

/-- How many bytes a step fetches: those of the instruction, or those up to what makes them none, or
all that are left in memory if more would be needed. -/
def fetchLength (m : Machine) : Nat :=
  match m.decoded with
  | (.error .truncated, _) => m.memory.size - m.eip.toNat
  | (_, n) => n

/-- The next step looks at the byte at an address: it fetches it, or the instruction reads it. A
place that is not inside the memory is not read. -/
inductive Inspects (m : Machine) (c : Nat) : Prop where
  | fetched : m.status = .running → m.eip.toNat ≤ c → c < m.eip.toNat + m.fetchLength → Inspects m c
  | read {i : Instruction} {n : Nat} : m.status = .running → m.decoded = (.ok i, n) →
    m.Inside (i.source? m.registers) → Covers (i.source? m.registers) c → Inspects m c

/-! ### Fetching -/

theorem fetchLength_of_decoded {r : Except DecodeError Instruction} {n : Nat}
    (h : m.decoded = (r, n)) (hne : r ≠ .error .truncated) : m.fetchLength = n := by
  unfold fetchLength
  rw [h]
  split
  · next heq => exact absurd (Prod.mk.inj heq).1 hne
  · next heq => exact (Prod.mk.inj heq).2.symm

theorem fetchLength_of_truncated {n : Nat} (h : m.decoded = (.error .truncated, n)) :
    m.fetchLength = m.memory.size - m.eip.toNat := by
  unfold fetchLength
  rw [h]

/-- What is consumed is fetched. -/
theorem consumed_le_fetchLength (m : Machine) : m.decoded.2 ≤ m.fetchLength := by
  rcases hd : m.decoded with ⟨r, n⟩
  by_cases hr : r = .error .truncated
  · subst hr
    have hle := Decoder.instructionAt_le m.memory.toList m.eip.toNat
    rw [← decoded, hd, Memory.length_toList] at hle
    rwa [fetchLength_of_truncated hd]
  · rw [fetchLength_of_decoded hd hr]

/-- Where there is a byte, one is fetched. -/
theorem one_le_fetchLength (h : m.eip.toNat < m.memory.size) : 1 ≤ m.fetchLength := by
  have hone : 1 ≤ m.decoded.2 := Decoder.one_le_instructionAt (by rwa [Memory.length_toList])
  exact hone.trans m.consumed_le_fetchLength

/-- A step that meets an instruction looks at the bytes of the instruction and at those that it
reads. -/
theorem Inspects.of_decoded {c : Nat} (h : m.Inspects c) {i : Instruction} {n : Nat}
    (hd : m.decoded = (.ok i, n)) :
    (m.eip.toNat ≤ c ∧ c < m.eip.toNat + n) ∨ Covers (i.source? m.registers) c := by
  cases h with
  | fetched _ hle hlt =>
    rw [fetchLength_of_decoded hd nofun] at hlt
    exact .inl ⟨hle, hlt⟩
  | read _ hd' _ hc =>
    rw [hd] at hd'
    obtain ⟨rfl⟩ := hd'
    exact .inr hc

/-- What is decoded depends on the fetched bytes. -/
theorem decoded_congr (heip : m'.eip = m.eip) (hsize : m'.memory.size = m.memory.size)
    (h : ∀ c, m.eip.toNat ≤ c → c < m.eip.toNat + m.fetchLength →
      m'.memory.byteAt c = m.memory.byteAt c) : m'.decoded = m.decoded := by
  have hslice := Memory.slice_congr hsize h
  rcases hd : m.decoded with ⟨r, n⟩
  rw [decoded] at hd
  by_cases hr : r = .error .truncated
  · -- all bytes that are left are the same
    subst hr
    rw [fetchLength_of_truncated hd] at hslice
    rw [decoded, heip, ← hd]
    refine Decoder.instructionAt_congr ?_
    rw [Memory.drop_toList, Memory.drop_toList, hsize, hslice]
  · -- the bytes that decide are the same
    rw [fetchLength_of_decoded hd hr, Memory.slice_eq_take_drop,
      Memory.slice_eq_take_drop] at hslice
    rw [decoded, heip, ← hd]
    refine Decoder.instructionAt_eq_of_take_eq (by rw [hd]; exact hr) ?_
    rw [hd]
    exact hslice

/-! ### Working out an instruction -/

/-- The value of an operand depends on the registers and on its own place. -/
theorem value_congr (hregs : m'.registers = m.registers) {w : Width} {o : Operand}
    (h : ∀ c, Covers (o.access? m.registers w) c → m'.memory.byteAt c = m.memory.byteAt c) :
    m'.value w o = m.value w o := by
  cases o with
  | mem base d =>
    simp only [value, hregs]
    exact Memory.operandAt_congr fun c hle hlt => h c ⟨_, _, rfl, hle, hlt⟩
  | _ => simp only [value, hregs]

/-- The word at an address, where the bytes there are the same. -/
theorem operandAt_congr {a : UInt32}
    (h : ∀ c, Covers (some (a, 4)) c → m'.memory.byteAt c = m.memory.byteAt c) :
    m'.memory.operandAt .dword a.toNat = m.memory.operandAt .dword a.toNat :=
  Memory.operandAt_congr fun c hle hlt => h c ⟨a, 4, rfl, hle, hlt⟩

theorem interrupt_congr (hregs : m'.registers = m.registers) (heip : m'.eip = m.eip)
    (vector : UInt8) : m'.interrupt vector = m.interrupt vector := by
  simp only [interrupt, video, hregs, heip]

/-- **What is asked for depends on what is read.** -/
theorem intended_congr {i : Instruction} (hi : i.Encodable) (hregs : m'.registers = m.registers)
    (hflags : m'.flags = m.flags) (heip : m'.eip = m.eip)
    (h : ∀ c, Covers (i.source? m.registers) c → m'.memory.byteAt c = m.memory.byteAt c)
    (next : UInt32) : m'.intended i next = m.intended i next := by
  obtain ⟨op, w, left, right⟩ := i
  -- where two operands are read, at most one of them is in memory
  have hboth : (left.InMemory → ¬ right.InMemory) →
      (∀ c, Covers ((left.access? m.registers w).or (right.access? m.registers w)) c →
        m'.memory.byteAt c = m.memory.byteAt c) →
      m'.value w left = m.value w left ∧ m'.value w right = m.value w right := by
    intro hone hsame
    obtain hnone | hnone := Operand.access?_eq_none_or hone m.registers w
    · rw [hnone, Option.none_or] at hsame
      refine ⟨value_congr hregs fun c hc => ?_, value_congr hregs hsame⟩
      exact absurd (hnone ▸ hc) (not_covers_none c)
    · rw [hnone, Option.or_none] at hsame
      refine ⟨value_congr hregs hsame, value_congr hregs fun c hc => ?_⟩
      exact absurd (hnone ▸ hc) (not_covers_none c)
  have hunchanged : m'.unchanged = m.unchanged := by rw [unchanged, unchanged, hregs, hflags]
  cases op with
  | mov => simp only [intended, value_congr hregs h, hunchanged]
  | add =>
    obtain ⟨hl, hr⟩ := hboth hi.2.2 h
    simp only [intended, hl, hr, hunchanged]
  | sub =>
    obtain ⟨hl, hr⟩ := hboth hi.2.2 h
    simp only [intended, hl, hr, hunchanged]
  | cmp =>
    obtain ⟨hl, hr⟩ := hboth hi.2.2 h
    simp only [intended, hl, hr, hunchanged]
  | inc => simp only [intended, value_congr hregs h, hunchanged]
  | push =>
    -- what is pushed is not in memory
    have hvalue : m'.value .dword left = m.value .dword left := by
      refine value_congr hregs fun c hc => ?_
      rw [left.access?_eq_none hi.2] at hc
      exact absurd hc (not_covers_none c)
    simp only [intended, hvalue, pushing, hunchanged, hregs]
  | pop => simp only [intended, top, popping, hregs, hunchanged, operandAt_congr h]
  | call => simp only [intended, pushing, hunchanged, hregs]
  | ret => simp only [intended, top, popping, hregs, hunchanged, operandAt_congr h]
  | leave => simp only [intended, hregs, hunchanged, operandAt_congr h]
  | jmp => simp only [intended, hunchanged]
  | jcc c => simp only [intended, hunchanged, hflags]
  | input =>
    obtain ⟨-, rfl⟩ := hi
    simp only [intended, value, hregs]
  | output =>
    obtain ⟨rfl, -⟩ := hi
    simp only [intended, value, hregs]
  | interrupt =>
    obtain ⟨vector, rfl⟩ := hi
    simp only [intended, value, interrupt_congr hregs heip]

/-- What an instruction reads is inside the memory if its data access is. -/
theorem inside_source {i : Instruction} (hi : i.Encodable)
    (hin : m.Inside (i.access? m.registers)) : m.Inside (i.source? m.registers) := by
  obtain hnone | hsame := i.source?_eq hi m.registers
  · rw [hnone]
    trivial
  · rwa [hsame]

/-! ### Machines that are alike -/

/-- The two machines are alike in everything but memory, console and log. -/
structure Alike (m m' : Machine) : Prop where
  config : m'.config = m.config
  registers : m'.registers = m.registers
  flags : m'.flags = m.flags
  eip : m'.eip = m.eip
  steps : m'.steps = m.steps
  status : m'.status = m.status

theorem Alike.fail (h : Alike m m') (f : Fault) : Alike (m.fail f) (m'.fail f) :=
  ⟨h.config, h.registers, h.flags, h.eip, h.steps, rfl⟩

theorem Alike.complete (h : Alike m m') (fetched : Fetched) (target : Option UInt32) :
    Alike (m.complete fetched target) (m'.complete fetched target) where
  config := by rw [config_complete, config_complete, h.config]
  registers := by rw [registers_complete, registers_complete, h.registers]
  flags := by rw [flags_complete, flags_complete, h.flags]
  eip := by rw [eip_complete, eip_complete]
  steps := by rw [steps_complete, steps_complete, h.steps]
  status := by rw [status_complete_eq, status_complete_eq, h.config, h.status]

theorem Alike.commit (h : Alike m m') (c : Change) : Alike (m.commit c) (m'.commit c) where
  config := by rw [config_commit, config_commit, h.config]
  registers := by rw [registers_commit, registers_commit]
  flags := by rw [flags_commit, flags_commit]
  eip := by rw [eip_commit, eip_commit, h.eip]
  steps := by rw [steps_commit, steps_commit, h.steps]
  status := by rw [status_commit, status_commit, h.status]

end Machine

end Boot386
