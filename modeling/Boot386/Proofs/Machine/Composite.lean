import Boot386.Proofs.Checked.Machine
import Boot386.Proofs.Encoding.Parts
import Boot386.Proofs.Machine.Access

/-!
# Instructions that do what others do

Some instructions are put together from others. `leave` is a move to the stack pointer and a pop of
the frame pointer, `call` a push and a jump, `ret` a pop that goes to where the guest goes on, and
`cmp` is a `sub` without a result. `Machine.composite_expansions` says this for every machine, and
for its faults as well: they are the same, but an instruction that cannot be carried out leaves
nothing behind, while of the two that it stands for the first one may have been carried out.

`Machine.process` carries out an instruction, and that is what a step does with the one that it has
fetched (`step_eq_process`). It works for the machine in order as well (`process_in_order`).
-/

namespace Boot386

open InstructionSet (Encodes table operand_rm_cases)

/-- The operand holds a word that can be replaced. -/
def Operand.HoldsWord : Operand → Prop
  | reg _ => True
  | mem .. => True
  | _ => False

namespace Machine

/-- Carries out an instruction, if it can be worked out, and tells where the guest goes on if that
is not `next`, the address behind the instruction. -/
def process (m : Machine) (i : Instruction) (next : UInt32) :
    Except Refusal (Option UInt32) × Machine :=
  match m.plan i next with
  | .error r => (.error r, m)
  | .ok action =>
    match m.carryOut action with
    | (.ok target, m') => (.ok target, m')
    | (.error f, m') => (.error (.fault f), m')

/-- Carries out two instructions, the second one only if the guest goes on behind the first one. -/
def processBoth (m : Machine) (i j : Instruction) (next next' : UInt32) :
    Except Refusal (Option UInt32) × Machine :=
  match m.process i next with
  | (.ok none, m') => m'.process j next'
  | ended => ended

/-- The machine with a word in a register or in memory. -/
def withWord (m : Machine) (o : Operand) (v : UInt32) : Machine :=
  match o with
  | .reg r => { m with registers := m.registers.set r v }
  | .mem base d =>
    { m with
      memory := m.memory.store (m.registers.get base + Word.ofSigned d).toNat (Word.toBytes v) }
  | _ => m

variable {m : Machine} {i : Instruction} {next : UInt32}

/-! ### Carrying out an instruction -/

/-- A step carries out the instruction that it has fetched. -/
theorem step_eq_process (hm : m.status = .running) {fetched : Fetched}
    (h : m.fetch = .ok fetched) :
    m.step
      = match m.process fetched.instruction fetched.next with
        | (.ok target, m') => m'.complete fetched target
        | (.error (.fault f), m') => m'.fail f
        | (.error .malformed, m') => { m' with status := .stuck } := by
  simp only [step, hm, prepare, h, process]
  rcases m.plan fetched.instruction fetched.next with (f | _) | action
  · rfl
  · rfl
  · simp only [perform]
    rcases m.carryOut action with ⟨f | target, m'⟩ <;> rfl

/-- The machine that changes one thing after the other ends in the same way. -/
theorem process_in_order (h : i.WellFormed) (next : UInt32) (m : Machine) :
    Checked.Routine.process i next m
      = match m.process i next with
        | (.ok target, m') => .ok target m'
        | (.error (.fault f), m') => .error (.error f) m'
        | (.error .malformed, m') => .error (.crash .malformed) m' := by
  rw [Checked.Routine.process_apply h, process]
  rcases m.plan i next with (f | _) | action
  · rfl
  · rfl
  · simp only [Checked.Routine.planned, Checked.Routine.carried]
    rcases m.carryOut action with ⟨f | target, m'⟩ <;> rfl

/-- An instruction that asks for a change commits it if its data access is inside. -/
theorem process_of_inside (hi : i.Encodable) (hin : m.Inside (i.access? m.registers)) {c : Change}
    (hc : m.intended i next = .commit c) : m.process i next = (.ok c.target, m.commit c) := by
  simp only [process, plan_eq m hi, guarded_of_inside hin, hc, carryOut]

/-- An instruction whose data access is outside leaves the machine as it is. -/
theorem process_of_outside (hi : i.Encodable) {a : UInt32} {n : Nat}
    (ha : i.access? m.registers = some (a, n)) (hout : ¬ m.memory.Fits a n) :
    m.process i next = (.error (.fault (.outOfBounds a n m.memory.size)), m) := by
  simp only [process, plan_eq m hi, ha, guarded_of_not_fits hout]

/-- A move between registers is always carried out. -/
theorem process_move (m : Machine) (w : Width) (dst src : Reg) (next : UInt32) :
    m.process ⟨.mov, w, .reg dst, .reg src⟩ next
      = (.ok none, { m with registers := m.registers.set dst (m.registers.get src) }) := by
  have hi : Instruction.Encodable ⟨.mov, w, .reg dst, .reg src⟩ := ⟨trivial, trivial, nofun⟩
  have hin : m.Inside (Instruction.access? ⟨.mov, w, .reg dst, .reg src⟩ m.registers) := trivial
  exact process_of_inside hi hin rfl

/-- A jump is always carried out, and changes nothing. -/
theorem process_jump (m : Machine) (w : Width) (d : Int32) (right : Operand) (next : UInt32) :
    m.process ⟨.jmp, w, .rel d, right⟩ next = (.ok (some (jumpTarget next d)), m) := by
  have hi : Instruction.Encodable ⟨.jmp, w, .rel d, right⟩ := ⟨d, rfl⟩
  have hin : m.Inside (Instruction.access? ⟨.jmp, w, .rel d, right⟩ m.registers) := trivial
  exact process_of_inside hi hin rfl

/-- A pop into a register where the stack pointer is inside the memory. -/
theorem process_pop_of_fits (w : Width) (r : Reg) (right : Operand) (next : UInt32)
    (hfits : m.memory.Fits (m.registers.get .esp) 4) :
    m.process ⟨.pop, w, .reg r, right⟩ next
      = (.ok none, { m with
          registers := (m.registers.set .esp (m.registers.get .esp + 4)).set r m.top }) := by
  have hi : Instruction.Encodable ⟨.pop, w, .reg r, right⟩ := ⟨r, rfl⟩
  have hin : m.Inside (Instruction.access? ⟨.pop, w, .reg r, right⟩ m.registers) := hfits
  exact process_of_inside hi hin rfl

/-- A pop into a register where the stack pointer is outside. -/
theorem process_pop_of_not_fits (w : Width) (r : Reg) (right : Operand) (next : UInt32)
    (hout : ¬ m.memory.Fits (m.registers.get .esp) 4) :
    m.process ⟨.pop, w, .reg r, right⟩ next
      = (.error (.fault (.outOfBounds (m.registers.get .esp) 4 m.memory.size)), m) := by
  have hi : Instruction.Encodable ⟨.pop, w, .reg r, right⟩ := ⟨r, rfl⟩
  exact process_of_outside hi rfl hout

/-! ### Leaving a frame -/

/-- The machine whose stack pointer has been moved to the frame. -/
def atFrame (m : Machine) : Machine :=
  { m with registers := m.registers.set .esp (m.registers.get .ebp) }

theorem esp_atFrame (m : Machine) : m.atFrame.registers.get .esp = m.registers.get .ebp := by
  rw [atFrame, Registers.get_set, if_pos rfl]

/-- The stack pointer is written twice, and the second value is the one that counts. -/
theorem set_esp_atFrame (m : Machine) (v : UInt32) :
    m.atFrame.registers.set .esp v = m.registers.set .esp v :=
  Registers.set_set m.registers .esp _ v

section Leave

variable (w₁ w₂ w₃ : Width) (left right right' : Operand) (n₁ n₂ : UInt32)

/-- After the move the stack pointer is at the frame when the frame pointer is popped. -/
theorem processBoth_move_pop (m : Machine) :
    m.processBoth ⟨.mov, w₂, .reg .esp, .reg .ebp⟩ ⟨.pop, w₃, .reg .ebp, right'⟩ n₁ n₂
      = m.atFrame.process ⟨.pop, w₃, .reg .ebp, right'⟩ n₂ := by
  rw [processBoth, process_move]
  rfl

/-- To leave a frame that is inside the memory is to move the frame pointer to the stack pointer
and to pop the frame pointer. -/
theorem process_leave_of_fits (hfits : m.memory.Fits (m.registers.get .ebp) 4) :
    ∃ s, m.process ⟨.leave, w₁, left, right⟩ next = (.ok none, s) ∧
      m.processBoth ⟨.mov, w₂, .reg .esp, .reg .ebp⟩ ⟨.pop, w₃, .reg .ebp, right'⟩ n₁ n₂
        = (.ok none, s) := by
  have hi : Instruction.Encodable ⟨.leave, w₁, left, right⟩ := trivial
  have hin : m.Inside (Instruction.access? ⟨.leave, w₁, left, right⟩ m.registers) := hfits
  have hpop : m.atFrame.memory.Fits (m.atFrame.registers.get .esp) 4 := by rwa [esp_atFrame]
  refine ⟨_, process_of_inside hi hin rfl, ?_⟩
  rw [processBoth_move_pop, process_pop_of_fits w₃ .ebp right' n₂ hpop, set_esp_atFrame, top,
    esp_atFrame]
  rfl

/-- A frame outside the memory is a fault for both, but the move has been carried out. -/
theorem process_leave_of_not_fits (hout : ¬ m.memory.Fits (m.registers.get .ebp) 4) :
    ∃ f, f = Fault.outOfBounds (m.registers.get .ebp) 4 m.memory.size ∧
      m.process ⟨.leave, w₁, left, right⟩ next = (.error (.fault f), m) ∧
      m.processBoth ⟨.mov, w₂, .reg .esp, .reg .ebp⟩ ⟨.pop, w₃, .reg .ebp, right'⟩ n₁ n₂
        = (.error (.fault f),
          { m with registers := m.registers.set .esp (m.registers.get .ebp) }) := by
  have hi : Instruction.Encodable ⟨.leave, w₁, left, right⟩ := trivial
  have hpop : ¬ m.atFrame.memory.Fits (m.atFrame.registers.get .esp) 4 := by rwa [esp_atFrame]
  refine ⟨_, rfl, process_of_outside hi rfl hout, ?_⟩
  rw [processBoth_move_pop, process_pop_of_not_fits w₃ .ebp right' n₂ hpop, esp_atFrame]
  rfl

end Leave

/-! ### Calls -/

/-- A call is a push of the address behind it and a jump: in the state and in the fault. -/
theorem process_call (m : Machine) (w₁ w₂ w₃ : Width) (d : Int32) (r₁ r₂ r₃ : Operand)
    (n₁ next : UInt32) :
    m.process ⟨.call, w₁, .rel d, r₁⟩ next
      = m.processBoth ⟨.push, w₂, .imm next, r₂⟩ ⟨.jmp, w₃, .rel d, r₃⟩ n₁ next := by
  have hcall : Instruction.Encodable ⟨.call, w₁, .rel d, r₁⟩ := ⟨d, rfl⟩
  have hpush : Instruction.Encodable ⟨.push, w₂, .imm next, r₂⟩ := ⟨trivial, id⟩
  by_cases hfits : m.memory.Fits (m.registers.get .esp - 4) 4
  · have hin : m.Inside (Instruction.access? ⟨.call, w₁, .rel d, r₁⟩ m.registers) := hfits
    have hin' : m.Inside (Instruction.access? ⟨.push, w₂, .imm next, r₂⟩ m.registers) := hfits
    rw [processBoth, process_of_inside hcall hin rfl, process_of_inside hpush hin' rfl]
    exact (process_jump _ w₃ d r₃ next).symm
  · rw [processBoth, process_of_outside hcall rfl hfits, process_of_outside hpush rfl hfits]

/-! ### Returns -/

/-- A return is a pop that does not keep the word, but goes there. -/
theorem process_ret (m : Machine) (w₁ w₂ : Width) {ρ : Reg} (hρ : ρ ≠ .esp)
    (left right right' : Operand) (n₁ n₂ : UInt32) :
    (∃ f, m.process ⟨.ret, w₁, left, right⟩ n₁ = (.error (.fault f), m) ∧
        m.process ⟨.pop, w₂, .reg ρ, right'⟩ n₂ = (.error (.fault f), m)) ∨
      ∃ v s s', m.process ⟨.ret, w₁, left, right⟩ n₁ = (.ok (some v), s) ∧
        m.process ⟨.pop, w₂, .reg ρ, right'⟩ n₂ = (.ok none, s') ∧
        s' = { s with registers := s.registers.set ρ v } ∧
        s'.registers.get ρ = v ∧ s'.registers.get .esp = s.registers.get .esp := by
  have hi : Instruction.Encodable ⟨.ret, w₁, left, right⟩ := trivial
  by_cases hfits : m.memory.Fits (m.registers.get .esp) 4
  · have hin : m.Inside (Instruction.access? ⟨.ret, w₁, left, right⟩ m.registers) := hfits
    refine .inr ⟨m.top, _, _, process_of_inside hi hin rfl,
      process_pop_of_fits w₂ ρ right' n₂ hfits, rfl, ?_, ?_⟩
    · rw [Registers.get_set, if_pos rfl]
    · rw [Registers.get_set, if_neg hρ.symm]
      rfl
  · exact .inl ⟨_, process_of_outside hi rfl hfits,
      process_pop_of_not_fits w₂ ρ right' n₂ hfits⟩

/-! ### Subtracting and comparing -/

/-- Differences are taken of words, and they go to a register or to memory. -/
theorem left_of_encodes_sub {code : List UInt8} {w : Width} {left right : Operand}
    (h : Encodes code ⟨.sub, w, left, right⟩) : w = .dword ∧ left.HoldsWord := by
  have hrows : ∀ row ∈ table, row.op = .sub → row.width = .dword ∧ row.left = .rm := by decide
  obtain ⟨row, hrow, p, -, -, hi⟩ := h
  injection hi with hop hw hleft
  obtain ⟨hwidth, hslot⟩ := hrows row hrow hop.symm
  rw [hwidth, hslot] at hleft
  refine ⟨hw.trans hwidth, ?_⟩
  obtain ⟨base, d, hrm⟩ | ⟨c, hrm⟩ := operand_rm_cases .dword p
  · rw [hleft, hrm]
    trivial
  · rw [hleft, hrm]
    trivial

/-- Of bytes only `al` is compared. -/
theorem left_of_encodes_cmp {code : List UInt8} {w : Width} {left right : Operand}
    (h : Encodes code ⟨.cmp, w, left, right⟩) : w = .dword ∨ left = .reg8 .al := by
  have hrows : ∀ row ∈ table, row.op = .cmp →
      row.width = .dword ∨ row.left = .fixed (.reg8 .al) := by
    decide
  obtain ⟨row, hrow, p, -, -, hi⟩ := h
  injection hi with hop hw hleft
  obtain hwidth | hslot := hrows row hrow hop.symm
  · exact .inl (hw.trans hwidth)
  · rw [hslot] at hleft
    exact .inr hleft

/-- What can be subtracted and compared is subtracted and compared as words. -/
theorem width_of_encodes {code code' : List UInt8} {w w' : Width} {left right : Operand}
    (hsub : Encodes code ⟨.sub, w, left, right⟩) (hcmp : Encodes code' ⟨.cmp, w', left, right⟩) :
    w = .dword ∧ w' = .dword := by
  obtain ⟨hw, hleft⟩ := left_of_encodes_sub hsub
  obtain hw' | rfl := left_of_encodes_cmp hcmp
  · exact ⟨hw, hw'⟩
  · cases hleft

/-- A word that is written inside reads back. -/
theorem read_withWord {o : Operand} (ho : o.HoldsWord)
    (hin : m.Inside (o.access? m.registers .dword)) (v : UInt32) :
    (m.withWord o v).read .dword o = .ok v := by
  cases o with
  | reg r =>
    show Except.ok ((m.registers.set r v).get r) = _
    rw [Registers.get_set, if_pos rfl]
  | mem base d =>
    have hfits : m.memory.Fits (m.registers.get base + Word.ofSigned d) 4 := hin
    simp only [read, withWord, Memory.read, Memory.Fits, Memory.size_store, Width.size_dword]
    rw [if_pos (by exact hfits), Memory.operandAt_store_self hfits]
    rfl
  | _ => cases ho

/-- The value of an operand does not depend on the flags. -/
theorem read_withFlags (m : Machine) (flags : Flags) (w : Width) (o : Operand) :
    { m with flags := flags }.read w o = m.read w o := by
  cases o <;> rfl

/-- To commit an assignment is to write the word and to set the flags. -/
theorem commit_assign {o : Operand} (ho : o.HoldsWord) (v : UInt32) (flags : Flags) :
    m.commit (assign .dword o v { m.unchanged with flags := flags })
      = { m.withWord o v with flags := flags } := by
  cases o with
  | reg r => rfl
  | mem base d =>
    have hbytes : ∀ a, Store.bytes ⟨.dword, a, v⟩ = Word.toBytes v := fun _ => rfl
    simp only [assign, commit, withWord, hbytes]
    rfl
  | _ => cases ho

/-- An assignment is no jump. -/
theorem target_assign (w : Width) (o : Operand) (v : UInt32) (c : Change) :
    (assign w o v c).target = c.target := by
  cases o <;> rfl

/-- Two accesses of which one is none are inside if the other one is. -/
theorem inside_of_or {l r : Option (UInt32 × Nat)} (h : l = none ∨ r = none)
    (hin : m.Inside (l.or r)) : m.Inside l ∧ m.Inside r := by
  obtain rfl | rfl := h
  · rw [Option.none_or] at hin
    exact ⟨trivial, hin⟩
  · rw [Option.or_none] at hin
    exact ⟨hin, trivial⟩

/-- Operands that can be both subtracted and compared: the two instructions fail alike, or they set
the same flags, and the difference that is written is all that tells them apart. -/
theorem process_sub_cmp {code code' : List UInt8} {w w' : Width} {left right : Operand}
    (hsub : Encodes code ⟨.sub, w, left, right⟩) (hcmp : Encodes code' ⟨.cmp, w', left, right⟩)
    (m : Machine) (n₁ n₂ : UInt32) :
    (∃ f, m.process ⟨.sub, w, left, right⟩ n₁ = (.error (.fault f), m) ∧
        m.process ⟨.cmp, w', left, right⟩ n₂ = (.error (.fault f), m)) ∨
      ∃ a b s, m.read w left = .ok a ∧ m.read w' right = .ok b ∧
        m.process ⟨.cmp, w', left, right⟩ n₂ = (.ok none, { m with flags := Flags.ofSub a b }) ∧
        m.process ⟨.sub, w, left, right⟩ n₁ = (.ok none, s) ∧
        s = { m.withWord left (a - b) with flags := Flags.ofSub a b } ∧
        s.read w left = .ok (a - b) := by
  obtain ⟨-, hleft⟩ := left_of_encodes_sub hsub
  obtain ⟨rfl, rfl⟩ := width_of_encodes hsub hcmp
  have hi := InstructionSet.encodable_of_encodes hsub
  have hi' := InstructionSet.encodable_of_encodes hcmp
  have ⟨hl, hr, hone⟩ := hi
  have hor := Operand.access?_eq_none_or hone m.registers .dword
  -- the access is the same for both: the operand that is in memory, if there is one
  by_cases hin : m.Inside ((left.access? m.registers .dword).or (right.access? m.registers .dword))
  · obtain ⟨hinl, hinr⟩ := inside_of_or hor hin
    -- both operands can be read
    have hreadl : m.read .dword left = .ok (m.value .dword left) :=
      (read_eq hl.readable .dword).trans (guarded_of_inside hinl _)
    have hreadr : m.read .dword right = .ok (m.value .dword right) :=
      (read_eq hr .dword).trans (guarded_of_inside hinr _)
    -- `sub` does what `cmp` does, and it assigns the difference
    have hdifference : m.process ⟨.sub, .dword, left, right⟩ n₁ = (.ok none,
        { m.withWord left (m.value .dword left - m.value .dword right) with
          flags := Flags.ofSub (m.value .dword left) (m.value .dword right) }) := by
      rw [process_of_inside hi hin rfl, target_assign, commit_assign hleft]
      rfl
    exact .inr ⟨_, _, _, hreadl, hreadr, process_of_inside hi' hin rfl, hdifference, rfl,
      (read_withFlags _ _ _ left).trans (read_withWord hleft hinl _)⟩
  · -- the operand in memory is outside for both
    obtain ⟨a, n, ha, hout⟩ := exists_of_not_inside hin
    exact .inl ⟨_, process_of_outside hi ha hout, process_of_outside hi' ha hout⟩

/-! ### Instructions and their expansions -/

/-- **Composite instructions.** In every machine, and wherever the guest goes on (`next`):

* `leave` does what `mov esp, ebp` and `pop ebp` do, if the word at `ebp` is inside the memory. If
  it is not, both meet the same fault, but `leave` keeps `esp`, which the move has overwritten;
* `call` does what a push of `next` and a jump do, in the state, the target and the fault;
* `ret` goes to the word that a pop into a register other than `esp` stores there, and `esp` is the
  same after both, or both meet the same fault;
* of operands that are decoded for both, `sub` and `cmp` meet the same fault, or they set the same
  flags. `cmp` changes nothing else, and `sub` only its left operand, to the difference. -/
theorem composite_expansions (m : Machine) (next : UInt32) :
    (∀ w₁ w₂ w₃ left right right' n₁ n₂,
      (m.memory.Fits (m.registers.get .ebp) 4 →
        ∃ s, m.process ⟨.leave, w₁, left, right⟩ next = (.ok none, s) ∧
          m.processBoth ⟨.mov, w₂, .reg .esp, .reg .ebp⟩ ⟨.pop, w₃, .reg .ebp, right'⟩ n₁ n₂
            = (.ok none, s)) ∧
      (¬ m.memory.Fits (m.registers.get .ebp) 4 →
        ∃ f, f = Fault.outOfBounds (m.registers.get .ebp) 4 m.memory.size ∧
          m.process ⟨.leave, w₁, left, right⟩ next = (.error (.fault f), m) ∧
          m.processBoth ⟨.mov, w₂, .reg .esp, .reg .ebp⟩ ⟨.pop, w₃, .reg .ebp, right'⟩ n₁ n₂
            = (.error (.fault f),
              { m with registers := m.registers.set .esp (m.registers.get .ebp) }))) ∧
    (∀ w₁ w₂ w₃ d r₁ r₂ r₃ n₁, m.process ⟨.call, w₁, .rel d, r₁⟩ next
      = m.processBoth ⟨.push, w₂, .imm next, r₂⟩ ⟨.jmp, w₃, .rel d, r₃⟩ n₁ next) ∧
    (∀ w₁ w₂ left right right' n₁, ∀ ρ ≠ Reg.esp,
      (∃ f, m.process ⟨.ret, w₁, left, right⟩ next = (.error (.fault f), m) ∧
        m.process ⟨.pop, w₂, .reg ρ, right'⟩ n₁ = (.error (.fault f), m)) ∨
      ∃ v s s', m.process ⟨.ret, w₁, left, right⟩ next = (.ok (some v), s) ∧
        m.process ⟨.pop, w₂, .reg ρ, right'⟩ n₁ = (.ok none, s') ∧
        s' = { s with registers := s.registers.set ρ v } ∧
        s'.registers.get ρ = v ∧ s'.registers.get .esp = s.registers.get .esp) ∧
    (∀ code code' start start' k k' w w' left right n₁,
      Decoder.instructionAt code start = (.ok ⟨.sub, w, left, right⟩, k) →
      Decoder.instructionAt code' start' = (.ok ⟨.cmp, w', left, right⟩, k') →
      (∃ f, m.process ⟨.sub, w, left, right⟩ next = (.error (.fault f), m) ∧
        m.process ⟨.cmp, w', left, right⟩ n₁ = (.error (.fault f), m)) ∨
      ∃ a b s, m.read w left = .ok a ∧ m.read w' right = .ok b ∧
        m.process ⟨.cmp, w', left, right⟩ n₁ = (.ok none, { m with flags := Flags.ofSub a b }) ∧
        m.process ⟨.sub, w, left, right⟩ next = (.ok none, s) ∧
        s = { m.withWord left (a - b) with flags := Flags.ofSub a b } ∧
        s.read w left = .ok (a - b)) := by
  refine ⟨fun w₁ w₂ w₃ left right right' n₁ n₂ => ⟨?_, ?_⟩, ?_, ?_, ?_⟩
  · -- `leave` with the saved frame pointer inside the memory, and outside of it
    exact process_leave_of_fits w₁ w₂ w₃ left right right' n₁ n₂
  · exact process_leave_of_not_fits w₁ w₂ w₃ left right right' n₁ n₂
  · -- `call`
    intro w₁ w₂ w₃ d r₁ r₂ r₃ n₁
    exact process_call m w₁ w₂ w₃ d r₁ r₂ r₃ n₁ next
  · -- `ret`
    intro w₁ w₂ left right right' n₁ ρ hρ
    exact process_ret m w₁ w₂ hρ left right right' next n₁
  · -- `sub` and `cmp`
    intro code code' start start' k k' w w' left right n₁ hsub hcmp
    exact process_sub_cmp (InstructionSet.encodes_of_instructionAt hsub).2
      (InstructionSet.encodes_of_instructionAt hcmp).2 m next n₁

/-- A machine of sixteen bytes whose frame pointer is in the middle of the word that the stack
pointer is at, and the same machine with the frame pointer too close to the end. -/
theorem composite_expansions_overlapping :
    let m : Machine := { boot ⟨16, 0, true⟩ {} with
      registers := { esp := 6, ebp := 8 }
      memory := (Memory.ofSize 16).store 6 [1, 0, 2, 0, 3, 0] }
    let m' : Machine := { m with registers := { esp := 6, ebp := 13 } }
    let leave : Instruction := ⟨.leave, .dword, .absent, .absent⟩
    let move : Instruction := ⟨.mov, .dword, .reg .esp, .reg .ebp⟩
    let ret : Instruction := ⟨.ret, .dword, .absent, .absent⟩
    let pop (r : Reg) : Instruction := ⟨.pop, .dword, .reg r, .absent⟩
    let sub : Instruction := ⟨.sub, .dword, .reg .esp, .reg .esp⟩
    let cmp : Instruction := ⟨.cmp, .dword, .reg .esp, .reg .esp⟩
    (m.memory.Fits (m.registers.get .ebp) 4 ∧
      ∃ s, m.process leave 0 = (.ok none, s) ∧
        m.processBoth move (pop .ebp) 0 0 = (.ok none, s) ∧
        s.registers.get .esp = 12 ∧ s.registers.get .ebp = 0x30002) ∧
    (¬ m'.memory.Fits (m'.registers.get .ebp) 4 ∧
      ∃ f, m'.process leave 0 = (.error (.fault f), m') ∧
        (m'.processBoth move (pop .ebp) 0 0).2.registers.get .esp = 13) ∧
    (Reg.ebx ≠ .esp ∧
      ∃ s s', m.process ret 0 = (.ok (some 0x20001), s) ∧
        m.process (pop .ebx) 0 = (.ok none, s') ∧ s'.registers.get .ebx = 0x20001) ∧
    Decoder.instructionAt [0x29, 0xe4] 0 = (.ok sub, 2) ∧
    Decoder.instructionAt [0x39, 0xe4] 0 = (.ok cmp, 2) ∧
    ∃ s, m.process sub 0 = (.ok none, s) ∧ s.read .dword (.reg .esp) = .ok 0 ∧
      m.process cmp 0 = (.ok none, { m with flags := { zero := true } }) := by
  intro m m' leave move ret pop sub cmp
  obtain ⟨hleave, -, hret, hsub⟩ := composite_expansions m 0
  obtain ⟨hleave', -⟩ := composite_expansions m' 0
  -- the frame pointer is inside the one memory and outside the other one
  have hfits : m.memory.Fits (m.registers.get .ebp) 4 := by decide +kernel
  have hout : ¬ m'.memory.Fits (m'.registers.get .ebp) 4 := by decide +kernel
  have hdsub : Decoder.instructionAt [0x29, 0xe4] 0 = (.ok sub, 2) := rfl
  have hdcmp : Decoder.instructionAt [0x39, 0xe4] 0 = (.ok cmp, 2) := rfl
  refine ⟨⟨hfits, ?_⟩, ⟨hout, ?_⟩, ⟨by decide, ?_⟩, hdsub, hdcmp, ?_⟩
  · -- `leave` takes the word at the frame pointer, two bytes behind the one at `esp`
    obtain ⟨s, hs, hboth⟩ := (hleave .dword .dword .dword .absent .absent .absent 0 0).1 hfits
    obtain rfl : (m.process leave 0).2 = s := by rw [hs]
    exact ⟨_, hs, hboth, by decide +kernel, by decide +kernel⟩
  · -- the fault leaves what the move has done to the stack pointer
    obtain ⟨f, -, hf, hboth⟩ := (hleave' .dword .dword .dword .absent .absent .absent 0 0).2 hout
    exact ⟨f, hf, by rw [hboth]; rfl⟩
  · -- `ret` goes where `pop` puts the word
    have hok : (m.process ret 0).1.isOk = true := by decide +kernel
    have hword : (m.process (pop .ebx) 0).2.registers.get .ebx = 0x20001 := by decide +kernel
    obtain ⟨f, hf, -⟩ | ⟨v, s, s', hs, hs', -, hv, -⟩ :=
      hret .dword .dword .absent .absent .absent 0 .ebx (by decide)
    · rw [hf] at hok
      cases hok
    · rw [hs', hv] at hword
      subst hword
      exact ⟨s, s', hs, hs', hv⟩
  · have hok : (m.process sub 0).1.isOk = true := by decide +kernel
    obtain ⟨f, hf, -⟩ | ⟨a, b, s, ha, hb, hcmp, hs, -, hread⟩ :=
      hsub [0x29, 0xe4] [0x39, 0xe4] 0 0 2 2 .dword .dword (.reg .esp) (.reg .esp) 0 hdsub hdcmp
    · rw [hf] at hok
      cases hok
    · obtain rfl : 6 = a := Except.ok.inj ha
      obtain rfl : 6 = b := Except.ok.inj hb
      exact ⟨s, hs, hread, hcmp⟩

end Machine

end Boot386
