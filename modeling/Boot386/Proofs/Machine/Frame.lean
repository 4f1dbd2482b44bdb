import Boot386.Proofs.Machine.Lifecycle

/-!
# Calls with a stack frame

A function that begins with `push ebp`, `mov ebp, esp` and `sub esp, k` and ends with `leave` and
`ret` goes back to its caller whatever it does to the stack pointer in between (`call_returns`). Of
the stack it needs the eight bytes below the place where the stack pointer was at the call: the
saved frame pointer and above it the return address. `Machine.Framed s m` says that these are in
place in `m`, for a call made in `s`.

* The call and the three instructions at the entry put the frame there (`framed_prologue`).
* It stays there while `ebp` and the eight bytes are as they were (`Framed.of_bytes`).
* `leave` and `ret` then undo what the call has done to both pointers (`Framed.returns`).
-/

namespace Boot386

open InstructionSet (Encodes)

/-! ### The code of a frame -/

/-- All of these codes stand at their addresses. -/
def Memory.HoldsAll (m : Memory) (codes : List (UInt32 × List UInt8)) : Prop :=
  ∀ p ∈ codes, m.Holds p.1 p.2

instance (m : Memory) (codes : List (UInt32 × List UInt8)) : Decidable (m.HoldsAll codes) :=
  inferInstanceAs (Decidable (∀ p ∈ codes, m.Holds p.1 p.2))

/-- Codes that stand elsewhere are kept by a store. -/
theorem Memory.HoldsAll.store {m : Memory} {codes : List (UInt32 × List UInt8)}
    (h : m.HoldsAll codes) {b : Nat} {bytes : List UInt8}
    (hapart : ∀ p ∈ codes, p.1.toNat + p.2.length ≤ b ∨ b + bytes.length ≤ p.1.toNat) :
    (m.store b bytes).HoldsAll codes :=
  fun p hp => (h p hp).store (hapart p hp)

namespace StackFrame

/-- `call entry`, as it is written at an address. -/
def call (a entry : UInt32) : List UInt8 :=
  0xe8 :: Word.toBytes (entry - (a + 5))

/-- `push ebp`, `mov ebp, esp` and `sub esp, k`, and where each of them stands. -/
def prologue (entry : UInt32) (k : UInt8) : List (UInt32 × List UInt8) :=
  [(entry, [0x55]), (entry + 1, [0x89, 0xe5]), (entry + 3, [0x83, 0xec, k])]

/-- `leave` and `ret`, and where each of them stands. -/
def epilogue (a : UInt32) : List (UInt32 × List UInt8) :=
  [(a, [0xc9]), (a + 1, [0xc3])]

theorem holdsAll_prologue {m : Memory} {entry : UInt32} {k : UInt8} :
    m.HoldsAll (prologue entry k) ↔ m.Holds entry [0x55] ∧ m.Holds (entry + 1) [0x89, 0xe5] ∧
      m.Holds (entry + 3) [0x83, 0xec, k] := by
  simp [Memory.HoldsAll, prologue]

theorem holdsAll_epilogue {m : Memory} {a : UInt32} :
    m.HoldsAll (epilogue a) ↔ m.Holds a [0xc9] ∧ m.Holds (a + 1) [0xc3] := by
  simp [Memory.HoldsAll, epilogue]

theorem encodes_call (a entry : UInt32) : Encodes (call a entry)
    ⟨.call, .byte, .rel (Word.toSigned (entry - (a + 5))), .absent⟩ := by
  refine ⟨⟨.one 0xe8, .call, .byte, .rel32, .absent⟩, by decide,
    ⟨0xe8, 0, [], Word.toBytes (entry - (a + 5))⟩, ⟨rfl, rfl, nofun, nofun, rfl⟩, rfl, ?_⟩
  show _ = Instruction.mk .call .byte (.rel (Word.toSigned (Word.ofBytes _ _ _ _))) .absent
  rw [Word.ofBytes_toBytes]

theorem encodes_push : Encodes [0x55] ⟨.push, .dword, .reg .ebp, .absent⟩ :=
  ⟨⟨.family 0x50, .push, .dword, .code, .absent⟩, by decide, ⟨0x55, 0, [], []⟩,
    ⟨rfl, rfl, nofun, nofun, rfl⟩, rfl, rfl⟩

theorem encodes_mov : Encodes [0x89, 0xe5] ⟨.mov, .dword, .reg .ebp, .reg .esp⟩ :=
  ⟨⟨.one 0x89, .mov, .dword, .rm, .reg⟩, by decide, ⟨0x89, 0xe5, [], []⟩,
    ⟨rfl, rfl, fun _ => by decide, fun _ => rfl, rfl⟩, rfl, rfl⟩

theorem encodes_sub (k : UInt8) : Encodes [0x83, 0xec, k]
    ⟨.sub, .dword, .reg .esp, .imm (Word.ofSigned (Word.signExtend k))⟩ := by
  have hmode : ModRM.modeOf 0xec = 3 := by decide
  have hreg : ModRM.regOf 0xec = 5 := by decide
  have hrm : ModRM.rmOf 0xec = 4 := by decide
  refine ⟨⟨.shared 0x83 5, .sub, .dword, .rm, .imm8Signed⟩, by decide, ⟨0x83, 0xec, [], [k]⟩,
    ⟨rfl, ?_, ?_, ?_, rfl⟩, rfl, ?_⟩
  · rw [hreg]
    rfl
  · rw [hmode, hrm]
    decide
  · rw [hmode]
    exact fun _ => rfl
  · simp only [InstructionSet.Row.instruction, InstructionSet.Slot.operand, hmode, hrm]
    rfl

theorem encodes_leave : Encodes [0xc9] ⟨.leave, .dword, .absent, .absent⟩ :=
  ⟨⟨.one 0xc9, .leave, .dword, .absent, .absent⟩, by decide, ⟨0xc9, 0, [], []⟩,
    ⟨rfl, rfl, nofun, nofun, rfl⟩, rfl, rfl⟩

theorem encodes_ret : Encodes [0xc3] ⟨.ret, .dword, .absent, .absent⟩ :=
  ⟨⟨.one 0xc3, .ret, .dword, .absent, .absent⟩, by decide, ⟨0xc3, 0, [], []⟩,
    ⟨rfl, rfl, nofun, nofun, rfl⟩, rfl, rfl⟩

end StackFrame

namespace Machine

open StackFrame

variable {s t m : Machine} {entry : UInt32} {k : UInt8}

/-! ### The single instructions -/

/-- A call pushes the address behind it, and the guest goes on at the entry. -/
theorem commits_call (hm : m.status = .running) (hat : m.memory.Holds m.eip (call m.eip entry))
    (hin : m.memory.Fits (m.registers.get .esp - 4) 4) :
    m.Commits { m.pushing (m.eip + 5) with target := some entry } (m.eip + 5) m.step := by
  have htarget : jumpTarget (m.eip + 5) (Word.toSigned (entry - (m.eip + 5))) = entry := by
    rw [jumpTarget, Word.ofSigned_toSigned]
    grind
  have hnext : m.eip + UInt32.ofNat (call m.eip entry).length = m.eip + 5 := rfl
  refine commits_of_holds hm (encodes_call m.eip entry) hat hin hnext ?_
  simp only [intended, Operand.displacement?, Option.getD_some, htarget]

theorem commits_push (hm : m.status = .running) (hat : m.memory.Holds m.eip [0x55])
    (hin : m.memory.Fits (m.registers.get .esp - 4) 4) :
    m.Commits (m.pushing (m.registers.get .ebp)) (m.eip + 1) m.step :=
  commits_of_holds hm encodes_push hat hin rfl rfl

theorem commits_mov (hm : m.status = .running) (hat : m.memory.Holds m.eip [0x89, 0xe5]) :
    m.Commits { m.unchanged with
      registers := m.registers.set .ebp (m.registers.get .esp) } (m.eip + 2) m.step :=
  commits_of_holds hm encodes_mov hat trivial rfl rfl

theorem commits_sub (hm : m.status = .running) (hat : m.memory.Holds m.eip [0x83, 0xec, k]) :
    let size := Word.ofSigned (Word.signExtend k)
    m.Commits { m.unchanged with
      registers := m.registers.set .esp (m.registers.get .esp - size)
      flags := Flags.ofSub (m.registers.get .esp) size } (m.eip + 3) m.step :=
  commits_of_holds hm (encodes_sub k) hat trivial rfl rfl

theorem commits_leave (hm : m.status = .running) (hat : m.memory.Holds m.eip [0xc9])
    (hin : m.memory.Fits (m.registers.get .ebp) 4) :
    m.Commits { m.unchanged with
      registers := (m.registers.set .esp (m.registers.get .ebp + 4)).set .ebp
        (m.memory.operandAt .dword (m.registers.get .ebp).toNat) } (m.eip + 1) m.step :=
  commits_of_holds hm encodes_leave hat hin rfl rfl

theorem commits_ret (hm : m.status = .running) (hat : m.memory.Holds m.eip [0xc3])
    (hin : m.memory.Fits (m.registers.get .esp) 4) :
    m.Commits { m.popping with target := some m.top } (m.eip + 1) m.step :=
  commits_of_holds hm encodes_ret hat hin rfl rfl

/-- What is pushed is stored below the top of the stack, also by a call. -/
theorem Commits.pushes {m' : Machine} {v next : UInt32} (target : Option UInt32)
    (h : m.Commits { m.pushing v with target := target } next m') :
    m'.registers = m.registers.set .esp (m.registers.get .esp - 4) ∧
      m'.memory = m.memory.store (m.registers.get .esp - 4).toNat (Word.toBytes v) := by
  refine ⟨h.registers, ?_⟩
  have hstore : { m.pushing v with target := target }.store
      = some ⟨.dword, m.registers.get .esp - 4, v⟩ := rfl
  rw [h.memory, memory_commit_of_store hstore]
  rfl

/-- A call that was made in `s` has its frame in the machine: the frame pointer that is saved at the
place to which `ebp` points, and above it the return address. -/
structure Framed (s m : Machine) : Prop where
  base : m.registers.get .ebp = s.registers.get .esp - 8
  saved : m.memory.operandAt .dword (s.registers.get .esp - 8).toNat = s.registers.get .ebp
  back : m.memory.operandAt .dword (s.registers.get .esp - 4).toNat = s.eip + 5

section Room

-- the stack pointer of the caller leaves room for a frame below it
variable (hlow : 8 ≤ (s.registers.get .esp).toNat)

include hlow

/-! ### Entering -/

/-- Below a stack pointer that is high enough addresses do not wrap. -/
theorem toNat_esp_sub :
    (s.registers.get .esp - 4).toNat = (s.registers.get .esp).toNat - 4 ∧
      (s.registers.get .esp - 8).toNat = (s.registers.get .esp).toNat - 8 := by
  have height : (8 : UInt32) ≤ s.registers.get .esp := UInt32.le_iff_toNat_le.2 hlow
  have hfour : (4 : UInt32) ≤ s.registers.get .esp :=
    UInt32.le_iff_toNat_le.2 (Nat.le_trans (by decide) hlow)
  exact ⟨UInt32.toNat_sub_of_le _ _ hfour, UInt32.toNat_sub_of_le _ _ height⟩

/-- The call and `push ebp` leave two words below the top of the stack, the return address and the
frame pointer. -/
theorem call_push (hhigh : (s.registers.get .esp).toNat ≤ s.memory.size)
    (hcall : s.memory.Holds s.eip (call s.eip entry)) (hpush : s.memory.Holds entry [0x55])
    (hapart : entry.toNat + 1 ≤ (s.registers.get .esp).toNat - 8 ∨
      (s.registers.get .esp).toNat ≤ entry.toNat)
    (hs : s.status = .running) (hrun : s.step.status = .running) :
    let top := (s.registers.get .esp).toNat
    (s.run 2).registers = s.registers.set .esp (s.registers.get .esp - 8) ∧
    (s.run 2).eip = entry + 1 ∧
    (s.run 2).memory = (s.memory.store (top - 4) (Word.toBytes (s.eip + 5))).store (top - 8)
      (Word.toBytes (s.registers.get .ebp)) := by
  intro top
  obtain ⟨hback, hbase⟩ := toNat_esp_sub hlow
  -- the first word goes below the top of the stack
  have hfits : s.memory.Fits (s.registers.get .esp - 4) 4 := by
    rw [Memory.Fits, hback]
    omega
  have h := commits_call hs hcall hfits
  have heip : s.step.eip = entry := h.eip
  obtain ⟨hregs, hmem⟩ := h.pushes
  rw [hback] at hmem
  -- the second word goes below the first one
  have hesp : s.step.registers.get .esp - 4 = s.registers.get .esp - 8 := by
    rw [hregs, Registers.get_set, if_pos rfl]
    grind
  have hfits' : s.step.memory.Fits (s.step.registers.get .esp - 4) 4 := by
    rw [Memory.Fits, hesp, hbase, size_memory_step]
    omega
  -- the call has not overwritten the next instruction
  have hpush' : s.step.memory.Holds s.step.eip [0x55] := by
    rw [heip, hmem]
    refine hpush.store ?_
    rw [Word.length_toBytes, List.length_singleton]
    omega
  have h' := commits_push hrun hpush' hfits'
  obtain ⟨hregs', hmem'⟩ := h'.pushes none
  rw [hesp] at hregs' hmem'
  rw [hbase] at hmem'
  rw [run_two]
  refine ⟨?_, ?_, ?_⟩
  · rw [hregs', hregs]
    rfl
  · rw [h'.eip, heip]
    rfl
  · rw [hmem', hmem, hregs]
    rfl

omit hlow in
/-- `mov ebp, esp` and `sub esp, k` keep the stack pointer in `ebp`. -/
theorem mov_sub (hm : m.status = .running) (hrun : m.step.status = .running)
    (hmov : m.memory.Holds m.eip [0x89, 0xe5])
    (hsub : m.memory.Holds (m.eip + 2) [0x83, 0xec, k]) :
    (m.run 2).registers.get .ebp = m.registers.get .esp ∧ (m.run 2).memory = m.memory := by
  have h := commits_mov hm hmov
  have hmem : m.step.memory = m.memory := h.memory.trans (memory_commit_of_no_store rfl)
  have hsub' : m.step.memory.Holds m.step.eip [0x83, 0xec, k] := by
    rw [hmem, h.eip]
    exact hsub
  have h' := commits_sub hrun hsub'
  rw [run_two]
  refine ⟨?_, ?_⟩
  · rw [h'.registers, h.registers]
    rfl
  · rw [h'.memory, memory_commit_of_no_store rfl, hmem]

/-- **The frame is built.** After the call and the three instructions at the entry its frame is in
place. -/
theorem framed_prologue (hhigh : (s.registers.get .esp).toNat ≤ s.memory.size)
    (hcall : s.memory.Holds s.eip (call s.eip entry)) (hcode : s.memory.HoldsAll (prologue entry k))
    (hapart : ∀ p ∈ prologue entry k, p.1.toNat + p.2.length ≤ (s.registers.get .esp).toNat - 8 ∨
      (s.registers.get .esp).toNat ≤ p.1.toNat)
    (hrun : (s.run 4).status = .running) : s.Framed (s.run 4) := by
  have hrunning : ∀ j ≤ 4, (s.run j).status = .running := fun j hj => running_of_le hj hrun
  have hrun1 := hrunning 1 (by omega)
  have hrun3 := hrunning 3 (by omega)
  rw [run_succ_eq_step] at hrun1 hrun3
  obtain ⟨hback, hbase⟩ := toNat_esp_sub hlow
  obtain ⟨hpush, -, -⟩ := holdsAll_prologue.1 hcode
  have hpushapart := hapart (entry, [0x55]) (by simp [prologue])
  obtain ⟨hregs, heip, hmem⟩ :=
    call_push hlow hhigh hcall hpush hpushapart (hrunning 0 (by omega)) hrun1
  -- the two words are not where the rest of the code is
  have hkept : (s.run 2).memory.HoldsAll (prologue entry k) := by
    rw [hmem]
    refine (hcode.store fun p hp => ?_).store fun p hp => ?_
    · have hp' := hapart p hp
      rw [Word.length_toBytes]
      omega
    · have hp' := hapart p hp
      rw [Word.length_toBytes]
      omega
  -- `mov` and `sub` store nothing, so that what was pushed is still there after them
  obtain ⟨-, hmov, hsub⟩ := holdsAll_prologue.1 hkept
  have hnext : entry + 1 + 2 = entry + 3 := by grind
  rw [← heip] at hmov hnext
  rw [← hnext] at hsub
  obtain ⟨hebp, hmem'⟩ := mov_sub (hrunning 2 (by omega)) hrun3 hmov hsub
  rw [← run_add] at hebp hmem'
  rw [hmem] at hmem'
  -- the frame pointer has been stored last, and the return address stands above it
  constructor
  · rw [hebp, hregs]
    rfl
  · rw [hmem', hbase]
    exact Memory.operandAt_store_self (by rw [Memory.size_store]; omega)
  · rw [hmem', hback, Memory.operandAt_store_of_apart]
    · exact Memory.operandAt_store_self (by omega)
    · rw [Word.length_toBytes, Width.size_dword]
      omega

/-! ### Leaving -/

namespace Framed

/-- The frame stays in place while `ebp` and the eight bytes of the frame are as they were. -/
theorem of_bytes (h : s.Framed m) (hbase : t.registers.get .ebp = s.registers.get .esp - 8)
    (hbytes : ∀ a, (s.registers.get .esp).toNat - 8 ≤ a → a < (s.registers.get .esp).toNat →
      t.memory.byteAt a = m.memory.byteAt a) : s.Framed t := by
  obtain ⟨hback, hsaved⟩ := toNat_esp_sub hlow
  -- both words are among the eight bytes
  refine ⟨hbase, ?_, ?_⟩
  · rw [← h.saved, hsaved]
    refine Memory.operandAt_congr fun a hle hlt => hbytes a hle ?_
    rw [Width.size_dword] at hlt
    omega
  · rw [← h.back, hback]
    refine Memory.operandAt_congr fun a hle hlt => hbytes a (by omega) ?_
    rw [Width.size_dword] at hlt
    omega

/-- **The frame is taken down.** `leave` and `ret` go back to the caller, with its stack pointer and
its frame pointer, and change nothing else. -/
theorem returns (h : s.Framed t) (hhigh : (s.registers.get .esp).toNat ≤ t.memory.size)
    (ht : t.status = .running)
    (hcode : t.memory.HoldsAll (epilogue t.eip)) (hrun : t.step.status = .running) :
    (t.run 2).eip = s.eip + 5 ∧
    (t.run 2).registers
      = (t.registers.set .esp (s.registers.get .esp)).set .ebp (s.registers.get .ebp) ∧
    (t.run 2).memory = t.memory ∧ (t.run 2).flags = t.flags ∧
    (t.run 2).steps = t.steps + 2 := by
  obtain ⟨hback, hbase⟩ := toNat_esp_sub hlow
  -- `leave` finds the saved frame pointer where the frame has it
  have hfits : t.memory.Fits (t.registers.get .ebp) 4 := by
    rw [Memory.Fits, h.base, hbase]
    omega
  obtain ⟨hatleave, hatret⟩ := holdsAll_epilogue.1 hcode
  have hleave := commits_leave ht hatleave hfits
  have hregs : t.step.registers = (t.registers.set .esp (t.registers.get .ebp + 4)).set .ebp
      (t.memory.operandAt .dword (t.registers.get .ebp).toNat) := hleave.registers
  rw [h.base, h.saved] at hregs
  have hmem : t.step.memory = t.memory := hleave.memory.trans (memory_commit_of_no_store rfl)
  -- `leave` has left the stack pointer at the return address
  have hesp : t.step.registers.get .esp = s.registers.get .esp - 4 := by
    calc t.step.registers.get .esp = s.registers.get .esp - 8 + 4 := by rw [hregs]; rfl
      _ = s.registers.get .esp - 4 := by grind
  have hfits' : t.step.memory.Fits (t.step.registers.get .esp) 4 := by
    rw [Memory.Fits, hesp, hback, hmem]
    omega
  have hatret' : t.step.memory.Holds t.step.eip [0xc3] := by
    rw [hmem, hleave.eip]
    exact hatret
  have hret := commits_ret hrun hatret' hfits'
  -- so that `ret` finds it on top of the stack
  have htop : t.step.top = s.eip + 5 := by rw [top, hesp, hmem, h.back]
  rw [run_two]
  refine ⟨?_, ?_, ?_, ?_, ?_⟩
  · rw [hret.eip]
    exact htop
  · have hfull : s.registers.get .esp - 4 + 4 = s.registers.get .esp := by grind
    rw [hret.registers]
    show t.step.registers.set .esp (t.step.registers.get .esp + 4) = _
    rw [hesp, hfull, hregs]
    rfl
  · rw [hret.memory, memory_commit_of_no_store rfl, hmem]
  · rw [hret.flags]
    exact hleave.flags
  · rw [hret.steps, hleave.steps]

end Framed

end Room

/-- **Calls return.** Let a machine stand before the call of a function that begins with `push ebp`,
`mov ebp, esp` and `sub esp, k`, and let the eight bytes below its stack pointer be inside the
memory and not be those of these instructions. If the guest is later before `leave` and `ret`,
whatever it has done in between, with `ebp` and the eight bytes as the entry of the function has
left them, then two steps take it behind the call. The stack pointer and the frame pointer are then
those of the call, and everything else is as before `leave`. -/
theorem call_returns {n : Nat} (hlow : 8 ≤ (s.registers.get .esp).toNat)
    (hhigh : (s.registers.get .esp).toNat ≤ s.memory.size)
    (hcall : s.memory.Holds s.eip (call s.eip entry)) (hcode : s.memory.HoldsAll (prologue entry k))
    (hapart : ∀ p ∈ prologue entry k, p.1.toNat + p.2.length ≤ (s.registers.get .esp).toNat - 8 ∨
      (s.registers.get .esp).toNat ≤ p.1.toNat)
    (hentered : (s.run 4).status = .running) (ht : (s.run (4 + n)).status = .running)
    (hleave : (s.run (4 + n)).memory.HoldsAll (epilogue (s.run (4 + n)).eip))
    (hebp : (s.run (4 + n)).registers.get .ebp = s.registers.get .esp - 8)
    (hbytes : ∀ a, (s.registers.get .esp).toNat - 8 ≤ a → a < (s.registers.get .esp).toNat →
      (s.run (4 + n)).memory.byteAt a = (s.run 4).memory.byteAt a)
    (hrun : (s.run (4 + n)).step.status = .running) :
    let t := s.run (4 + n)
    let t' := s.run (4 + n + 2)
    t'.eip = s.eip + 5 ∧
    t'.registers = (t.registers.set .esp (s.registers.get .esp)).set .ebp (s.registers.get .ebp) ∧
    t'.memory = t.memory ∧ t'.flags = t.flags ∧ t'.steps = t.steps + 2 := by
  intro t t'
  -- the entry makes the frame, and what has been done since has kept it
  have hframe : s.Framed (s.run 4) := framed_prologue hlow hhigh hcall hcode hapart hentered
  have hkept : s.Framed t := Framed.of_bytes hlow hframe hebp hbytes
  have hsize : (s.registers.get .esp).toNat ≤ t.memory.size := by rwa [size_memory_run]
  have hreturn := Framed.returns hlow hkept hsize ht hleave hrun
  rwa [← run_add] at hreturn

/-- A function with four bytes for its own use, which pushes a word and does not pop it. -/
theorem call_returns_unbalanced :
    let s : Machine := { boot ⟨32, 0, true⟩ {} with
      registers := { eax := 9, esp := 32, ebp := 7 }
      memory := (Memory.ofSize 32).store 0
        [0xe8, 0, 0, 0, 0, 0x55, 0x89, 0xe5, 0x83, 0xec, 0x04, 0x50, 0xc9, 0xc3] }
    s.memory.Holds 0 (call 0 5) ∧ s.memory.HoldsAll (prologue 5 4) ∧
    (s.run 5).status = .running ∧ (s.run 5).memory.HoldsAll (epilogue (s.run 5).eip) ∧
    (s.run 5).registers.get .esp = 16 ∧ (s.run 5).registers.get .ebp = 24 ∧
    (s.run 7).eip = 5 ∧ (s.run 7).registers.get .esp = 32 ∧ (s.run 7).registers.get .ebp = 7 ∧
    (s.run 7).memory = (s.run 5).memory := by
  intro s
  -- the code stands where the machine meets it
  have hcall : s.memory.Holds 0 (call 0 5) := by decide +kernel
  have hcode : s.memory.HoldsAll (prologue 5 4) := by decide +kernel
  have hentered : (s.run 4).status = .running := by decide +kernel
  have ht : (s.run 5).status = .running := by decide +kernel
  have hleave : (s.run 5).memory.HoldsAll (epilogue (s.run 5).eip) := by decide +kernel
  -- the function has pushed a word, and its frame pointer is as the entry has left it
  have hesp : (s.run 5).registers.get .esp = 16 := by decide +kernel
  have hebp : (s.run 5).registers.get .ebp = 24 := by decide +kernel
  have hbase : s.registers.get .esp - 8 = 24 := by decide
  have hframe : ∀ a < 32, 24 ≤ a → (s.run 5).memory.byteAt a = (s.run 4).memory.byteAt a := by
    decide +kernel
  -- two more steps are those of the return
  obtain ⟨heip, hregs, hmem, -⟩ := call_returns (s := s) (k := 4) (n := 1) (by decide)
    (by decide) hcall hcode (by decide) hentered ht hleave (hebp.trans hbase.symm)
    (fun a hle hlt => hframe a hlt hle) (by decide +kernel)
  refine ⟨hcall, hcode, ht, hleave, hesp, hebp, heip, ?_, ?_, hmem⟩
  · rw [hregs]
    rfl
  · rw [hregs]
    rfl

end Machine

end Boot386
