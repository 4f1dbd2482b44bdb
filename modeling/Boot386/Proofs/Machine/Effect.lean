import Boot386.Proofs.Machine.Lifecycle
import Boot386.Proofs.Machine.Reads

/-!
# What an instruction may change

What a completed instruction changes is confined to places that can be told before it is carried
out, from the instruction and the registers:

* `Instruction.MayStore`: the bytes of memory, which are those of a destination in memory or of the
  word that is pushed;
* `Instruction.MaySet`: the bytes of registers, which are those of the destination, of the stack
  pointer and the frame pointer where the stack is used, and `al` for `in`;
* `Machine.UsesConsole`: whether the console has anything to do with it;
* `Instruction.Jumps`: whether the guest goes on elsewhere.

A change that keeps to these places is `Machine.Confined`, and an instruction asks for no other one
(`confined_of_intended`). The flags are told exactly: they are those of a difference for `sub` and
`cmp`, and are kept by everything else. `effect_of_step` puts this together for a step.
-/

namespace Boot386

/-! ### Places -/

namespace Instruction

/-- The instruction may write the byte at an address. -/
inductive MayStore (i : Instruction) (rs : Registers) (a : Nat) : Prop where
  /-- It lies in a destination in memory. -/
  | destination {base : Reg} {d : Int32} : i.op ∈ [.mov, .add, .sub, .inc] → i.left = .mem base d →
    (rs.get base + Word.ofSigned d).toNat ≤ a →
    a < (rs.get base + Word.ofSigned d).toNat + i.width.size → MayStore i rs a
  /-- It lies in the word below the top of the stack. -/
  | stack : i.op ∈ [.push, .call] → (rs.get .esp - 4).toNat ≤ a → a < (rs.get .esp - 4).toNat + 4 →
    MayStore i rs a

/-- The instruction may write byte `k` of a register. -/
inductive MaySet (i : Instruction) (r : Reg) (k : Nat) : Prop where
  /-- The register is the destination. -/
  | destination : i.op ∈ [.mov, .add, .sub, .inc, .pop] → i.left = .reg r → MaySet i r k
  /-- The byte is the destination, which has no other one in its parent. -/
  | byte {b : Reg8} : i.op ∈ [.mov, .add, .sub, .inc, .pop] → i.left = .reg8 b → r = b.parent →
    k = b.offset → MaySet i r k
  | stack : i.op ∈ [.push, .pop, .call, .ret, .leave] → r = .esp → MaySet i r k
  | frame : i.op = .leave → r = .ebp → MaySet i r k
  /-- What is read from the console goes to `al`. -/
  | input : i.op = .input → r = Reg8.al.parent → k = Reg8.al.offset → MaySet i r k

/-- The guest does not go on behind the instruction. -/
def Jumps (i : Instruction) (f : Flags) : Prop :=
  match i.op with
  | .call | .jmp | .ret => True
  | .jcc c => c.holds f = true
  | _ => False

end Instruction

/-- The instruction reads from the console or writes to it, or has a character shown there. -/
def Machine.UsesConsole (m : Machine) (i : Instruction) : Prop :=
  i.op = .input ∨ i.op = .output ∨
    i.op = .interrupt ∧ i.left = .imm 0x10 ∧ m.registers.get8 .ah = 0x0e

namespace Registers

variable {rs : Registers} {s : Reg} {k : Nat}

/-- Writing a register changes bytes of this register only. -/
theorem eq_of_byte_set {r : Reg} {v : UInt32}
    (h : Word.byte ((rs.set r v).get s) k ≠ Word.byte (rs.get s) k) : s = r := by
  by_contra hne
  rw [get_set, if_neg hne] at h
  exact h rfl

/-- Writing a byte register changes one byte of its parent only. -/
theorem eq_of_byte_set8 {r : Reg8} {b : UInt8} (hk : k < 4)
    (h : Word.byte ((rs.set8 r b).get s) k ≠ Word.byte (rs.get s) k) :
    s = r.parent ∧ k = r.offset := by
  rw [get_set8] at h
  split at h
  · next hs =>
    subst hs
    refine ⟨rfl, ?_⟩
    by_contra hne
    rw [Word.byte_setByte _ _ hk, if_neg (Ne.symm hne)] at h
    exact h rfl
  · exact absurd rfl h

end Registers

theorem Store.length_bytes (s : Store) : s.bytes.length = s.width.size := by
  obtain ⟨w, a, v⟩ := s
  cases w <;> rfl

namespace Machine

variable {m : Machine} {i : Instruction}

/-! ### Changes -/

/-- The flags after the instruction. -/
def flagsAfter (m : Machine) (i : Instruction) : Flags :=
  if i.op = .sub ∨ i.op = .cmp then Flags.ofSub (m.value i.width i.left) (m.value i.width i.right)
  else m.flags

/-- The change keeps to what the instruction may change. -/
structure Confined (m : Machine) (i : Instruction) (c : Change) : Prop where
  store : ∀ s, c.store = some s → ∀ a, s.address.toNat ≤ a → a < s.address.toNat + s.width.size →
    i.MayStore m.registers a
  registers : ∀ r k, k < 4 → Word.byte (c.registers.get r) k ≠ Word.byte (m.registers.get r) k →
    i.MaySet r k
  flags : c.flags = m.flagsAfter i
  target : ¬ i.Jumps m.flags → c.target = none

/-- A value that is assigned to the destination goes there and nowhere else. -/
theorem confined_assign (hop : i.op ∈ [.mov, .add, .sub, .inc]) (hleft : i.left.Writable)
    (v : UInt32) :
    m.Confined i (assign i.width i.left v { m.unchanged with flags := m.flagsAfter i }) := by
  have hop' : i.op ∈ [.mov, .add, .sub, .inc, .pop] := List.mem_append_left [Op.pop] hop
  cases ho : i.left with
  | reg r =>
    refine ⟨nofun, fun s k _ hne => ?_, rfl, fun _ => rfl⟩
    obtain rfl : s = r := Registers.eq_of_byte_set hne
    exact .destination hop' ho
  | reg8 r =>
    refine ⟨nofun, fun s k hk hne => ?_, rfl, fun _ => rfl⟩
    obtain ⟨hs, hk⟩ := Registers.eq_of_byte_set8 hk hne
    exact .byte hop' ho hs hk
  | mem base d =>
    refine ⟨?_, fun s k _ hne => absurd rfl hne, rfl, fun _ => rfl⟩
    rintro s ⟨rfl⟩ a hle hlt
    exact .destination hop ho hle hlt
  | _ =>
    rw [ho] at hleft
    cases hleft

/-- A word that is pushed goes below the top of the stack. -/
theorem confined_pushing (hop : i.op ∈ [.push, .call]) (v : UInt32) {target : Option UInt32}
    (htarget : ¬ i.Jumps m.flags → target = none) :
    m.Confined i { m.pushing v with target := target } := by
  have hflags : m.flagsAfter i = m.flags := if_neg (by rintro (h | h) <;> simp [h] at hop)
  refine ⟨?_, fun s k _ hne => ?_, hflags.symm, htarget⟩
  · rintro s ⟨rfl⟩ a hle hlt
    exact .stack hop hle hlt
  · refine .stack ?_ (Registers.eq_of_byte_set hne)
    simp only [List.mem_cons, List.not_mem_nil, or_false] at hop ⊢
    obtain h | h := hop <;> simp [h]

/-- **An instruction asks for no other changes.** -/
theorem confined_of_intended (hi : i.Encodable) {next : UInt32} {c : Change}
    (h : m.intended i next = .commit c) : m.Confined i c := by
  -- what is not a difference keeps the flags
  have hkeep : i.op ≠ .sub → i.op ≠ .cmp → m.flagsAfter i = m.flags := fun hsub hcmp =>
    if_neg (not_or.2 ⟨hsub, hcmp⟩)
  obtain ⟨op, w, left, right⟩ := i
  cases op with
  | mov =>
    obtain rfl := Action.commit.inj h
    exact confined_assign (by simp) hi.1 _
  | add =>
    obtain rfl := Action.commit.inj h
    exact confined_assign (by simp) hi.1 _
  | sub =>
    obtain rfl := Action.commit.inj h
    exact confined_assign (by simp) hi.1 _
  | inc =>
    obtain rfl := Action.commit.inj h
    exact confined_assign (by simp) hi _
  | cmp =>
    obtain rfl := Action.commit.inj h
    exact ⟨nofun, fun s k _ hne => absurd rfl hne, rfl, fun _ => rfl⟩
  | push =>
    obtain rfl := Action.commit.inj h
    exact confined_pushing (by simp) _ fun _ => rfl
  | call =>
    -- pushes the address behind it, and goes on elsewhere
    obtain rfl := Action.commit.inj h
    exact confined_pushing (by simp) _ fun hno => absurd trivial hno
  | pop =>
    obtain ⟨r, rfl⟩ := hi
    obtain rfl := Action.commit.inj h
    refine ⟨nofun, fun s k _ hne => ?_, (hkeep nofun nofun).symm, fun _ => rfl⟩
    -- the stack pointer moves first, and may then be what is popped
    by_cases hs : s = r
    · exact .destination (by simp) (congrArg Operand.reg hs.symm)
    · have hget : (assign .dword (.reg r) m.top m.popping).registers.get s
          = (m.registers.set .esp (m.registers.get .esp + 4)).get s :=
        (Registers.get_set _ _ _ _).trans (if_neg hs)
      rw [hget] at hne
      exact .stack (by simp) (Registers.eq_of_byte_set hne)
  | ret =>
    obtain rfl := Action.commit.inj h
    refine ⟨nofun, fun s k _ hne => ?_, (hkeep nofun nofun).symm, fun hno => absurd trivial hno⟩
    exact .stack (by simp) (Registers.eq_of_byte_set hne)
  | leave =>
    obtain rfl := Action.commit.inj h
    refine ⟨nofun, fun s k _ hne => ?_, (hkeep nofun nofun).symm, fun _ => rfl⟩
    -- the stack pointer gets the old frame pointer, and that the saved one
    by_cases hs : s = .ebp
    · exact .frame rfl hs
    · dsimp only at hne
      rw [Registers.get_set, if_neg hs] at hne
      exact .stack (by simp) (Registers.eq_of_byte_set hne)
  | jmp =>
    obtain rfl := Action.commit.inj h
    exact ⟨nofun, fun s k _ hne => absurd rfl hne, (hkeep nofun nofun).symm,
      fun hno => absurd trivial hno⟩
  | jcc condition =>
    obtain rfl := Action.commit.inj h
    exact ⟨nofun, fun s k _ hne => absurd rfl hne, (hkeep nofun nofun).symm, fun hno => if_neg hno⟩
  -- what uses the console does not ask for a change
  | input => cases h
  | output => cases h
  | interrupt => exact absurd h (interrupt_ne_commit _ _ _)

/-- The bytes of memory that a change stores are among those that the instruction may write. -/
theorem Confined.memory {c : Change} (h : m.Confined i c) {a : Nat}
    (hne : (m.commit c).memory.byteAt a ≠ m.memory.byteAt a) : i.MayStore m.registers a := by
  cases hs : c.store with
  | none =>
    rw [memory_commit_of_no_store hs] at hne
    exact absurd rfl hne
  | some s =>
    rw [memory_commit_of_store hs] at hne
    -- a byte that the instruction may not write is apart from what is stored
    by_contra hno
    refine hne (Memory.byteAt_store_of_apart ?_)
    rw [s.length_bytes]
    by_contra hin
    push Not at hin
    exact hno (h.store s hs a hin.1 hin.2)

/-! ### Uses of the console -/

/-- What does not ask for a change keeps the flags. -/
theorem flagsAfter_of_ne_commit {next : UInt32} (h : ∀ c, m.intended i next ≠ .commit c) :
    m.flagsAfter i = m.flags := by
  refine if_neg ?_
  rintro (hop | hop) <;> exact h _ (by simp only [intended, hop]; rfl)

/-- What is read from the console goes to `al`. -/
theorem input_of_intended {next : UInt32} {a : IoAddress} {r : Reg8}
    (h : m.intended i next = .input a r) : i.op = .input ∧ r = .al := by
  obtain ⟨op, w, left, right⟩ := i
  cases op with
  | input =>
    cases h
    exact ⟨rfl, rfl⟩
  | interrupt =>
    simp only [intended, interrupt, video] at h
    split at h
    · split at h <;> cases h
    · cases h
  | _ => cases h

/-- An instruction that does not use the console asks for a change, or has nothing to do but to be
noted. -/
theorem intended_of_not_usesConsole (hi : i.Encodable) (h : ¬ m.UsesConsole i) (next : UInt32) :
    (∃ c, m.intended i next = .commit c) ∨ ∃ e, m.intended i next = .note e := by
  obtain ⟨op, w, left, right⟩ := i
  cases op with
  | input => exact absurd (.inl rfl) h
  | output => exact absurd (.inr (.inl rfl)) h
  | interrupt =>
    obtain ⟨vector, rfl⟩ := hi
    have hvector : Word.byte (m.value .byte (.imm vector.toUInt32)) 0 = vector :=
      Word.byte_toUInt32 vector
    refine .inr ?_
    simp only [intended, hvector, interrupt]
    split
    · next hv =>
      subst hv
      -- of the video service only teletype output uses the console
      have hf : m.registers.get8 .ah ≠ teletypeFunction := fun hf =>
        h (.inr (.inr ⟨rfl, rfl, hf⟩))
      exact ⟨_, if_neg hf⟩
    · exact ⟨_, rfl⟩
  | _ => exact .inl ⟨_, rfl⟩

/-- **The console is left alone.** An instruction that does not use the console does the same with
any other console in its place. -/
theorem step_of_not_usesConsole (hm : m.status = .running) {n : Nat} (hd : m.decoded = (.ok i, n))
    (hin : m.Inside (i.access? m.registers)) (h : ¬ m.UsesConsole i) (c : Console) :
    ({ m with console := c } : Machine).step = { m.step with console := c } := by
  have hi := encodable_of_instructionAt hd
  have hd' : ({ m with console := c } : Machine).decoded = (.ok i, n) := hd
  -- what is to be done is told by the guest alone
  have hsame : ({ m with console := c } : Machine).intended i (m.eip + UInt32.ofNat n)
      = m.intended i (m.eip + UInt32.ofNat n) :=
    intended_congr hi rfl rfl rfl (fun _ _ => rfl) _
  rw [step_of_inside hm hd hin, step_of_inside (m := { m with console := c }) hm hd' hin, hsame]
  obtain ⟨change, ha⟩ | ⟨e, ha⟩ := intended_of_not_usesConsole hi h (m.eip + UInt32.ofNat n)
  · rw [ha]
    simp only [perform, carryOut, complete, commit]
    cases change.store <;> simp only [] <;> split <;> rfl
  · rw [ha]
    simp only [perform, carryOut, complete, note]
    split <;> rfl

/-! ### Steps -/

namespace Completed

variable {n : Nat} {target : Option UInt32} {s : Machine} (h : m.Completed i n target s)

include h

/-- What a completed instruction has done to the guest: it has committed a change, or it has used
the console, from which at most `al` comes. -/
theorem cases_guest :
    (∃ c, m.intended i (m.eip + UInt32.ofNat n) = .commit c ∧ s.registers = c.registers ∧
      s.flags = c.flags ∧ s.memory = (m.commit c).memory ∧ target = c.target) ∨
    ((∀ c, m.intended i (m.eip + UInt32.ofNat n) ≠ .commit c) ∧ s.flags = m.flags ∧
      s.memory = m.memory ∧ target = none ∧
      (s.registers = m.registers ∨
        i.op = .input ∧ ∃ b, s.registers = m.registers.set8 .al b)) := by
  obtain ⟨-, -, -, hdone, rfl⟩ := h
  simp only [registers_complete, flags_complete, memory_complete]
  cases ha : m.intended i (m.eip + UInt32.ofNat n) with
  | commit c =>
    rw [ha] at hdone
    exact .inl ⟨c, rfl, registers_commit m c, flags_commit m c, rfl,
      (Except.ok.inj hdone).symm⟩
  | note e =>
    rw [ha] at hdone
    exact .inr ⟨nofun, rfl, rfl, (Except.ok.inj hdone).symm, .inl rfl⟩
  | input a r =>
    -- a byte, or a zero for the end of the input, goes to `al`
    obtain ⟨hop, rfl⟩ := input_of_intended ha
    rw [ha] at hdone
    refine .inr ⟨nofun, ?_⟩
    simp only [carryOut] at hdone ⊢
    generalize m.console.input a = answer at hdone ⊢
    obtain ⟨reason | b | _, console⟩ := answer
    · cases hdone
    · exact ⟨rfl, rfl, (Except.ok.inj hdone).symm, .inr ⟨hop, b, rfl⟩⟩
    · exact ⟨rfl, rfl, (Except.ok.inj hdone).symm, .inr ⟨hop, _, rfl⟩⟩
  | output a bytes =>
    rw [ha] at hdone
    refine .inr ⟨nofun, ?_⟩
    simp only [carryOut] at hdone ⊢
    generalize m.console.output a bytes = answer at hdone ⊢
    obtain ⟨reason | _, console⟩ := answer
    · cases hdone
    · exact ⟨rfl, rfl, (Except.ok.inj hdone).symm, .inl rfl⟩

theorem mayStore {a : Nat} (hne : s.memory.byteAt a ≠ m.memory.byteAt a) :
    i.MayStore m.registers a := by
  obtain ⟨c, hc, -, -, hmem, -⟩ | ⟨-, -, hmem, -⟩ := h.cases_guest
  · rw [hmem] at hne
    exact (confined_of_intended h.encodable hc).memory hne
  · rw [hmem] at hne
    exact absurd rfl hne

theorem maySet {r : Reg} {k : Nat} (hk : k < 4)
    (hne : Word.byte (s.registers.get r) k ≠ Word.byte (m.registers.get r) k) : i.MaySet r k := by
  obtain ⟨c, hc, hregs, -⟩ | ⟨-, -, -, -, hregs | ⟨hop, b, hregs⟩⟩ := h.cases_guest
  · rw [hregs] at hne
    exact (confined_of_intended h.encodable hc).registers r k hk hne
  · rw [hregs] at hne
    exact absurd rfl hne
  · rw [hregs] at hne
    obtain ⟨hr, hk⟩ := Registers.eq_of_byte_set8 hk hne
    exact .input hop hr hk

theorem flags_eq : s.flags = m.flagsAfter i := by
  obtain ⟨c, hc, -, hflags, -⟩ | ⟨hno, hflags, -⟩ := h.cases_guest
  · rw [hflags, (confined_of_intended h.encodable hc).flags]
  · rw [hflags, flagsAfter_of_ne_commit hno]

theorem eip_eq (hno : ¬ i.Jumps m.flags) : s.eip = m.eip + UInt32.ofNat n := by
  have htarget : target = none := by
    obtain ⟨c, hc, -, -, -, htarget⟩ | ⟨-, -, -, htarget, -⟩ := h.cases_guest
    · rw [htarget, (confined_of_intended h.encodable hc).target hno]
    · exact htarget
  rw [h.eq_complete, eip_complete, htarget, Option.getD_none]

end Completed

/-- **What an instruction may change.** A step of a running machine that does not fault has
completed the instruction at the instruction pointer. A byte of memory or of a register is as it was
before, unless the instruction may write it. The flags are those of the difference of the two
operands for `sub` and `cmp`, whatever they were before, and are as they were for everything else.
Unless the instruction uses the console, it does the same with any other console and keeps it as
it is. Unless the instruction jumps, the guest goes on behind it. -/
theorem effect_of_step (hm : m.status = .running) (hok : ∀ f, m.step.status ≠ .faulted f) :
    ∃ i n, m.decoded = (.ok i, n) ∧
      m.step.memory.size = m.memory.size ∧
      (∀ a, m.step.memory.byteAt a ≠ m.memory.byteAt a → i.MayStore m.registers a) ∧
      (∀ r k, k < 4 →
        Word.byte (m.step.registers.get r) k ≠ Word.byte (m.registers.get r) k → i.MaySet r k) ∧
      m.step.flags = (if i.op = .sub ∨ i.op = .cmp then
        Flags.ofSub (m.value i.width i.left) (m.value i.width i.right) else m.flags) ∧
      (¬ m.UsesConsole i → ∀ c,
        ({ m with console := c } : Machine).step = { m.step with console := c }) ∧
      (¬ i.Jumps m.flags → m.step.eip = m.eip + UInt32.ofNat n) := by
  obtain ⟨i, n, target, h⟩ := exists_completed hm hok
  exact ⟨i, n, h.decoded, size_memory_step m, fun a => h.mayStore, fun r k hk => h.maySet hk,
    h.flags_eq, step_of_not_usesConsole hm h.decoded h.inside, h.eip_eq⟩

/-- `push esp` at the end of a memory of eight bytes writes its upper half and nothing of the other
registers, and `mov ah, al` one byte of `eax`. Both leave the flags and the console alone. -/
theorem effect_of_step_push :
    let m : Machine := { boot ⟨8, 0, true⟩ {} with
      registers := { esp := 8, ebp := 7 }
      memory := (Memory.ofSize 8).store 0 [0x54] }
    let m' : Machine := { boot ⟨2, 0, true⟩ (.ofInput [0x41]) with
      registers := { eax := 0x11223344 }
      flags := { carry := true }
      memory := (Memory.ofSize 2).store 0 [0x88, 0xc4] }
    m.status = .running ∧ (∀ f, m.step.status ≠ .faulted f) ∧
    (∀ a < 4, m.step.memory.byteAt a = m.memory.byteAt a) ∧
    (∀ r k, k < 4 → r ≠ .esp →
      Word.byte (m.step.registers.get r) k = Word.byte (m.registers.get r) k) ∧
    m'.status = .running ∧ (∀ f, m'.step.status ≠ .faulted f) ∧
    Word.byte (m'.step.registers.get .eax) 0 = 0x44 ∧ m'.step.flags = { carry := true } ∧
    m'.step.console = m'.console ∧ m'.step.eip = 2 := by
  intro m m'
  -- both machines complete an instruction
  have hpush : m.decoded = (.ok ⟨.push, .dword, .reg .esp, .absent⟩, 1) := by decide +kernel
  have hmove : m'.decoded = (.ok ⟨.mov, .byte, .reg8 .ah, .reg8 .al⟩, 2) := by decide +kernel
  have hrun : m.step.status = .running := by decide +kernel
  have hrun' : m'.step.status = .running := by decide +kernel
  have hok : ∀ f, m.step.status ≠ .faulted f := fun f => by simp [hrun]
  have hok' : ∀ f, m'.step.status ≠ .faulted f := fun f => by simp [hrun']
  -- the instructions that the theorem is about are these two
  obtain ⟨i, n, hd, -, hstore, hset, -⟩ := effect_of_step rfl hok
  obtain ⟨i', n', hd', -, -, hset', hflags', hconsole', heip'⟩ := effect_of_step rfl hok'
  obtain ⟨rfl⟩ : (_, n) = _ := hd.symm.trans hpush
  obtain ⟨rfl⟩ : (_, n') = _ := hd'.symm.trans hmove
  refine ⟨rfl, hok, fun a ha => ?_, fun r k hk hr => ?_, rfl, hok', ?_,
    hflags'.trans (if_neg (by simp)), ?_, ?_⟩
  · by_contra hne
    -- a byte that has changed is one that `push` may write, and these begin at 4
    cases hstore a hne with
    | destination hop => simp at hop
    | stack hop hle => exact absurd (hle.trans_lt ha) (by decide)
  · by_contra hne
    -- `push` writes no register but the stack pointer
    cases hset r k hk hne with
    | stack hop hesp => exact hr hesp
    | destination hop => simp at hop
    | byte hop => simp at hop
    | frame hop => cases hop
    | input hop => cases hop
  · -- `mov ah, al` writes one byte of `eax`, and that is not the lowest one
    have hkeep : Word.byte (m'.step.registers.get .eax) 0
        = Word.byte (m'.registers.get .eax) 0 := by
      by_contra hne
      cases hset' .eax 0 (by decide) hne with
      | destination hop hreg => cases hreg
      | byte hop hreg hr hk =>
        cases hreg
        cases hk
      | stack hop => simp at hop
      | frame hop => cases hop
      | input hop => cases hop
    exact hkeep.trans (by decide)
  · -- it does not use the console
    have hsame : m'.step = { m'.step with console := m'.console } :=
      hconsole' (by simp [UsesConsole]) m'.console
    rw [hsame]
  · -- it does not jump
    rw [heip' id]
    rfl

end Machine

end Boot386
