import Boot386.Proofs.Machine.Fetch
import Boot386.Proofs.Machine.Step

/-!
# The data access of an instruction

An instruction touches the data memory in one place or in none. `Instruction.access?` names the
place, and `Machine.intended` says what the instruction asks for if the place is taken to be inside
the memory. Both are total and ask no questions; the one question that working out an instruction
does ask is whether its access is inside:

* `Machine.guarded` makes a result depend on an access;
* reading, writing, pushing and popping are guarded by their accesses (`read_eq`, `write_eq`,
  `pushed_eq`, `popped_eq`), and asking twice is asking once (`guarded_bind_guarded`);
* `plan_eq`: an instruction is worked out to what is intended, guarded by its access;
* `Machine.encounter`: a step meets a place without a byte, or bytes that are no instruction, or an
  access that is outside, or it does what is intended (`Machine.Commits`, if that is a change).

This holds of instructions whose operands are of the kinds that encodings have
(`Instruction.Encodable`): the table has no row that reads one place and writes another.
-/

namespace Boot386

/-! ### The kinds of operands that encodings have -/

/-- The operand stands in memory. -/
def Operand.InMemory : Operand → Prop
  | mem .. => True
  | _ => False

/-- The operands are of the kinds that encodings of the operation have. -/
def Instruction.Encodable (i : Instruction) : Prop :=
  match i.op with
  | .mov | .add | .sub | .cmp =>
    i.left.Writable ∧ i.right.Readable ∧ (i.left.InMemory → ¬ i.right.InMemory)
  | .inc => i.left.Writable
  | .push => i.left.Readable ∧ ¬ i.left.InMemory
  | .pop => ∃ r, i.left = .reg r
  | .call | .jmp | .jcc _ => ∃ d, i.left = .rel d
  | .ret | .leave => True
  | .input => i.left = .reg8 .al ∧ i.right = .dx
  | .output => i.left = .dx ∧ i.right = .reg8 .al
  | .interrupt => ∃ vector : UInt8, i.left = .imm vector.toUInt32

namespace InstructionSet

theorem not_inMemory_ofCode (w : Width) (code : Fin 8) : ¬ (Operand.ofCode w code).InMemory := by
  cases w <;> exact id

/-- Every row of the table has operands of the kinds that its operation allows. -/
theorem encodable_instruction {row : Row} (h : row ∈ table) {p : Parts} (hp : row.Admits p) :
    (row.instruction p).Encodable := by
  have hall : ∀ row ∈ table, p.constant.length = row.constantLength →
      (row.instruction p).Encodable := by
    have hreg := fun w => writable_reg w p
    have hrm := fun w => writable_rm w p
    have hreg' := fun w => (hreg w).readable
    have hrm' := fun w => (hrm w).readable
    -- of two operands in one operand byte the register is not in memory
    have hnot : ∀ w, ¬ (Slot.reg.operand w p).InMemory := fun w => not_inMemory_ofCode w _
    simp only [table, List.forall_mem_cons, Row.instruction, Instruction.Encodable, hreg, hrm,
      hreg', hrm', hnot]
    simp [Slot.operand, Operand.ofCode, Operand.Readable, Operand.Writable, Operand.InMemory,
      Row.constantLength, Slot.constantLength]
    -- what is left is the vector of an interrupt: a byte that is zero-extended
    intro hlen
    obtain ⟨b, hb⟩ := List.length_eq_one_iff.1 hlen
    exact ⟨b, by rw [hb, Word.unsigned_singleton]⟩
  exact hall row h hp.constant

theorem encodable_of_encodes {code : List UInt8} {i : Instruction} (h : Encodes code i) :
    i.Encodable := by
  obtain ⟨row, hrow, p, hp, -, rfl⟩ := h
  exact encodable_instruction hrow hp

end InstructionSet

theorem encodable_of_instructionAt {bytes : List UInt8} {start n : Nat} {i : Instruction}
    (h : Decoder.instructionAt bytes start = (.ok i, n)) : i.Encodable :=
  InstructionSet.encodable_of_encodes (InstructionSet.encodes_of_instructionAt h).2

/-! ### Accesses -/

/-- The place of an operand in memory, if it stands there: an address and a number of bytes. -/
def Operand.access? (o : Operand) (rs : Registers) (w : Width) : Option (UInt32 × Nat) :=
  (o.address? rs).map fun a => (a, w.size)

theorem Operand.access?_eq_none {o : Operand} (h : ¬ o.InMemory) (rs : Registers) (w : Width) :
    o.access? rs w = none := by
  cases o with
  | mem base d => exact absurd trivial h
  | _ => rfl

/-- If only one of two operands can stand in memory, one of them has no place there. -/
theorem Operand.access?_eq_none_or {left right : Operand} (h : left.InMemory → ¬ right.InMemory)
    (rs : Registers) (w : Width) : left.access? rs w = none ∨ right.access? rs w = none := by
  by_cases hl : left.InMemory
  · exact .inr (right.access?_eq_none (h hl) rs w)
  · exact .inl (left.access?_eq_none hl rs w)

/-- The place of the data access of an instruction, if it has one: a memory operand, or a word on
the stack. -/
def Instruction.access? (i : Instruction) (rs : Registers) : Option (UInt32 × Nat) :=
  match i.op with
  | .mov | .add | .sub | .cmp => (i.left.access? rs i.width).or (i.right.access? rs i.width)
  | .inc => i.left.access? rs i.width
  | .push | .call => some (rs.get .esp - 4, 4)
  | .pop | .ret => some (rs.get .esp, 4)
  | .leave => some (rs.get .ebp, 4)
  | .jmp | .jcc _ | .input | .output | .interrupt => none

namespace Machine

/-! ### Values and assignments -/

/-- The value of an operand. Behind the end of the memory there are zeros. -/
def value (m : Machine) (w : Width) : Operand → UInt32
  | .reg r => m.registers.get r
  | .reg8 r => (m.registers.get8 r).toUInt32
  | .dx => UInt32.ofNat ((m.registers.get .edx).toNat % 65536)
  | .imm v => v
  | .mem base d => m.memory.operandAt w (m.registers.get base + Word.ofSigned d).toNat
  | .rel _ => 0
  | .absent => 0

/-- Extends a change by the assignment of a value to an operand. -/
def assign (w : Width) (o : Operand) (v : UInt32) (c : Change) : Change :=
  match o with
  | .reg r => { c with registers := c.registers.set r v }
  | .reg8 r => { c with registers := c.registers.set8 r (Word.byte v 0) }
  | .mem base d => { c with store := some ⟨w, c.registers.get base + Word.ofSigned d, v⟩ }
  | _ => c

/-- The change that leaves a word below the top of the stack. -/
def pushing (m : Machine) (v : UInt32) : Change :=
  { m.unchanged with
    registers := m.registers.set .esp (m.registers.get .esp - 4)
    store := some ⟨.dword, m.registers.get .esp - 4, v⟩ }

/-- The change that takes a word off the stack. -/
def popping (m : Machine) : Change :=
  { m.unchanged with registers := m.registers.set .esp (m.registers.get .esp + 4) }

/-- The word on top of the stack. -/
def top (m : Machine) : UInt32 :=
  m.memory.operandAt .dword (m.registers.get .esp).toNat

/-- What an instruction asks for if its data access is inside the memory. -/
def intended (m : Machine) (i : Instruction) (next : UInt32) : Action :=
  let a := m.value i.width i.left
  let b := m.value i.width i.right
  let target := jumpTarget next (i.left.displacement?.getD 0)
  match i.op with
  | .mov => .commit (assign i.width i.left b m.unchanged)
  | .add => .commit (assign i.width i.left (a + b) m.unchanged)
  | .sub => .commit (assign i.width i.left (a - b) { m.unchanged with flags := Flags.ofSub a b })
  | .cmp => .commit { m.unchanged with flags := Flags.ofSub a b }
  | .inc => .commit (assign i.width i.left (a + 1) m.unchanged)
  | .push => .commit (m.pushing (m.value .dword i.left))
  | .pop => .commit (assign .dword i.left m.top m.popping)
  | .call => .commit { m.pushing next with target := some target }
  | .ret => .commit { m.popping with target := some m.top }
  | .leave =>
    let frame := m.registers.get .ebp
    .commit { m.unchanged with
      registers := (m.registers.set .esp (frame + 4)).set .ebp
        (m.memory.operandAt .dword frame.toNat) }
  | .jmp => .commit { m.unchanged with target := some target }
  | .jcc c => .commit { m.unchanged with
      target := if c.holds m.flags then some target else none }
  | .input => .input (m.value .dword i.right).toUInt16 .al
  | .output => .output (m.value .dword i.left).toUInt16 [m.registers.get8 .al]
  | .interrupt => m.interrupt (Word.byte (m.value .byte i.left) 0)

/-- An interrupt changes neither registers nor memory. -/
theorem interrupt_ne_commit (m : Machine) (vector : UInt8) (c : Change) :
    m.interrupt vector ≠ .commit c := by
  unfold interrupt video
  split
  · dsimp only
    split <;> simp
  · simp

/-! ### Guarded results -/

section Guarded

variable {α β : Type} (m : Machine)

/-- The access, if there is one, is inside the memory. -/
def Inside (m : Machine) : Option (UInt32 × Nat) → Prop
  | none => True
  | some (a, n) => m.memory.Fits a n

/-- A result that is there if an access is inside the memory. -/
def guarded (access : Option (UInt32 × Nat)) (x : α) : Except Refusal α :=
  match access with
  | none => .ok x
  | some (a, n) =>
    if m.memory.Fits a n then .ok x else .error (.fault (.outOfBounds a n m.memory.size))

@[simp] theorem guarded_none (x : α) : m.guarded none x = .ok x := rfl

/-- What is made of a guarded result is guarded in the same way. -/
theorem guarded_bind_pure (access : Option (UInt32 × Nat)) (x : α) (f : α → β) :
    (m.guarded access x >>= fun y => pure (f y)) = m.guarded access (f x) := by
  cases access with
  | none => rfl
  | some p =>
    simp only [guarded]
    split <;> rfl

/-- Asking twice is asking once. -/
theorem guarded_bind_guarded (access : Option (UInt32 × Nat)) (x : α) (f : α → β) :
    (m.guarded access x >>= fun y => m.guarded access (f y)) = m.guarded access (f x) := by
  cases access with
  | none => rfl
  | some p =>
    by_cases h : m.memory.Fits p.1 p.2 <;> simp only [guarded, h, if_true, if_false] <;> rfl

variable {m}

/-- An access that is not inside is at a place that is outside. -/
theorem exists_of_not_inside {access : Option (UInt32 × Nat)} (h : ¬ m.Inside access) :
    ∃ a n, access = some (a, n) ∧ ¬ m.memory.Fits a n := by
  rcases access with _ | ⟨a, n⟩
  · exact absurd trivial h
  · exact ⟨a, n, rfl, h⟩

theorem guarded_of_inside {access : Option (UInt32 × Nat)} (h : m.Inside access) (x : α) :
    m.guarded access x = .ok x := by
  rcases access with _ | ⟨a, n⟩
  · rfl
  · exact if_pos h

theorem guarded_of_not_fits {a : UInt32} {n : Nat} (h : ¬ m.memory.Fits a n) (x : α) :
    m.guarded (some (a, n)) x = .error (.fault (.outOfBounds a n m.memory.size)) :=
  if_neg h

/-! ### The accesses of operands and of the stack -/

theorem read_eq {o : Operand} (h : o.Readable) (w : Width) :
    m.read w o = m.guarded (o.access? m.registers w) (m.value w o) := by
  cases o with
  | mem base d =>
    simp only [read, Memory.read, Operand.access?, Operand.address?_mem, Option.map_some, guarded]
    split <;> rfl
  | rel d => cases h
  | absent => cases h
  | _ => rfl

theorem write_eq {o : Operand} (h : o.Writable) (w : Width) (v : UInt32) {c : Change}
    (hc : c.registers = m.registers) :
    m.write w o v c = m.guarded (o.access? m.registers w) (assign w o v c) := by
  cases o with
  | mem base d =>
    simp only [write, assign, Operand.access?, Operand.address?_mem, Option.map_some, guarded, hc]
    rfl
  | reg r => rfl
  | reg8 r => rfl
  | _ => cases h

theorem readWord_eq (a : UInt32) :
    (m.memory.read .dword a).mapError Refusal.fault
      = m.guarded (some (a, 4)) (m.memory.operandAt .dword a.toNat) := by
  by_cases h : m.memory.Fits a 4 <;>
    simp only [Memory.read, guarded, Width.size_dword, h, if_true, if_false] <;> rfl

theorem pushed_eq (v : UInt32) :
    (m.pushed v).mapError Refusal.fault
      = m.guarded (some (m.registers.get .esp - 4, 4)) (m.pushing v) := by
  by_cases h : m.memory.Fits (m.registers.get .esp - 4) 4 <;>
    simp only [pushed, guarded, h, if_true, if_false] <;> rfl

theorem popped_eq :
    m.popped.mapError Refusal.fault
      = m.guarded (some (m.registers.get .esp, 4)) (m.top, m.popping) := by
  by_cases h : m.memory.Fits (m.registers.get .esp) 4 <;>
    simp only [popped, Memory.read, guarded, Width.size_dword, h, if_true, if_false] <;> rfl

end Guarded

/-! ### Instructions -/

section Instructions

variable (m : Machine)

/-- Two guards, one of which asks nothing, are the other one. -/
theorem guarded_bind_guarded_or {α β : Type} {l r : Option (UInt32 × Nat)}
    (h : l = none ∨ r = none) (x : α) (f : α → β) :
    (m.guarded l x >>= fun y => m.guarded r (f y)) = m.guarded (l.or r) (f x) := by
  obtain rfl | rfl := h
  · rw [Option.none_or]
    rfl
  · rw [Option.or_none]
    exact guarded_bind_pure m l x f

/-- **One question.** An encodable instruction is worked out to what it intends, unless its data
access is outside the memory. -/
theorem plan_eq {i : Instruction} (h : i.Encodable) (next : UInt32) :
    m.plan i next = m.guarded (i.access? m.registers) (m.intended i next) := by
  obtain ⟨op, w, left, right⟩ := i
  -- a sum or a difference: both operands are read, and the first one is assigned to
  have harith : left.Writable → right.Readable → (left.InMemory → ¬ right.InMemory) →
      ∀ (f : UInt32 → UInt32 → UInt32) (c : UInt32 → UInt32 → Change),
        (∀ a b, (c a b).registers = m.registers) →
        (m.read w left >>= fun a => m.read w right >>= fun b =>
          m.write w left (f a b) (c a b) >>= fun c => pure (Action.commit c))
          = m.guarded ((left.access? m.registers w).or (right.access? m.registers w))
            (.commit (assign w left (f (m.value w left) (m.value w right))
              (c (m.value w left) (m.value w right)))) := by
    intro hl hr hone f c hc
    simp only [read_eq hl.readable, read_eq hr, write_eq hl w _ (hc _ _), guarded_bind_pure]
    obtain hnone | hnone := Operand.access?_eq_none_or hone m.registers w
    · simp only [hnone, Option.none_or, guarded_none]
      exact guarded_bind_pure m _ _ _
    · simp only [hnone, Option.or_none, guarded_none]
      exact guarded_bind_guarded m _ _ _
  have hwrite : left.Writable → ∀ v, m.write w left v m.unchanged
      = m.guarded (left.access? m.registers w) (assign w left v m.unchanged) :=
    fun hl v => write_eq hl w v rfl
  cases op with
  | mov =>
    obtain ⟨hl, hr, hone⟩ := h
    show (m.read w right >>= fun v => m.write w left v m.unchanged >>= fun c =>
      pure (Action.commit c)) = m.guarded ((left.access? m.registers w).or _) _
    simp only [read_eq hr, hwrite hl, guarded_bind_pure]
    -- a move reads its second operand and writes its first one, and only one of them is in memory
    obtain hnone | hnone := Operand.access?_eq_none_or hone m.registers w
    · rw [hnone, Option.none_or]
      exact guarded_bind_pure m _ _ _
    · rw [hnone, Option.or_none]
      rfl
  | add =>
    obtain ⟨hl, hr, hone⟩ := h
    exact harith hl hr hone (· + ·) (fun _ _ => m.unchanged) fun _ _ => rfl
  | sub =>
    obtain ⟨hl, hr, hone⟩ := h
    exact harith hl hr hone (· - ·) (fun a b => { m.unchanged with flags := Flags.ofSub a b })
      fun _ _ => rfl
  | cmp =>
    obtain ⟨hl, hr, hone⟩ := h
    show (m.read w left >>= fun a => m.read w right >>= fun b =>
      pure (Action.commit { m.unchanged with flags := Flags.ofSub a b })) = _
    simp only [read_eq hl.readable, read_eq hr, guarded_bind_pure]
    exact guarded_bind_guarded_or m (Operand.access?_eq_none_or hone m.registers w) _ _
  | inc =>
    show (m.read w left >>= fun a => m.write w left (a + 1) m.unchanged >>= fun c =>
      pure (Action.commit c)) = _
    simp only [read_eq (Operand.Writable.readable h), hwrite h, guarded_bind_pure]
    exact guarded_bind_guarded m _ _ _
  | push =>
    obtain ⟨hl, hmem⟩ := h
    show (m.read .dword left >>= fun v => (m.pushed v).mapError Refusal.fault >>= fun c =>
      pure (Action.commit c)) = _
    simp only [read_eq hl, left.access?_eq_none hmem, pushed_eq, guarded_bind_pure]
    rfl
  | pop =>
    -- the word goes to a register, so that the pop is the only access
    obtain ⟨r, rfl⟩ := h
    show (m.popped.mapError Refusal.fault >>= fun p =>
      pure (Action.commit (assign .dword (.reg r) p.1 p.2))) = _
    rw [popped_eq, guarded_bind_pure]
    rfl
  | call =>
    obtain ⟨d, rfl⟩ := h
    show ((m.pushed next).mapError Refusal.fault >>= fun c =>
      pure (Action.commit { c with target := some (jumpTarget next d) })) = _
    rw [pushed_eq, guarded_bind_pure]
    rfl
  | ret =>
    show (m.popped.mapError Refusal.fault >>= fun p =>
      pure (Action.commit { p.2 with target := some p.1 })) = _
    rw [popped_eq, guarded_bind_pure]
    rfl
  | leave =>
    show ((m.memory.read .dword (m.registers.get .ebp)).mapError Refusal.fault >>= fun saved =>
      pure (Action.commit { m.unchanged with
        registers := (m.registers.set .esp (m.registers.get .ebp + 4)).set .ebp saved })) = _
    rw [readWord_eq, guarded_bind_pure]
    rfl
  | jmp =>
    obtain ⟨d, rfl⟩ := h
    rfl
  | jcc c =>
    obtain ⟨d, rfl⟩ := h
    rfl
  | input =>
    obtain ⟨rfl, rfl⟩ := h
    rfl
  | output =>
    obtain ⟨rfl, rfl⟩ := h
    show Except.ok (Action.output _ [Word.byte (m.registers.get8 .al).toUInt32 0]) = _
    rw [Word.byte_toUInt32]
    rfl
  | interrupt =>
    obtain ⟨vector, rfl⟩ := h
    rfl

end Instructions

/-! ### Steps -/

section Steps

variable {m : Machine}

/-- A step where there is no byte to fetch. -/
theorem step_of_size_le (hm : m.status = .running) (h : m.memory.size ≤ m.eip.toNat) :
    m.step = m.fail (.outOfBounds m.eip 1 m.memory.size) := by
  simp only [step, hm, prepare, fetch_of_size_le h]

/-- A step where the bytes are no instruction. -/
theorem step_of_decoded_error (hm : m.status = .running) (hlt : m.eip.toNat < m.memory.size)
    {e : DecodeError} {k : Nat} (h : m.decoded = (.error e, k)) :
    m.step = m.fail (.decode m.eip (m.memory.slice m.eip.toNat k) e) := by
  simp only [step, hm, prepare, fetch_of_decoded_error hlt h]

/-- A step of an instruction whose data access is outside the memory. -/
theorem step_of_outside (hm : m.status = .running) {i : Instruction} {n : Nat}
    (h : m.decoded = (.ok i, n)) {a : UInt32} {k : Nat}
    (ha : i.access? m.registers = some (a, k)) (hout : ¬ m.memory.Fits a k) :
    m.step = m.fail (.outOfBounds a k m.memory.size) := by
  simp only [step, hm, prepare, fetch_of_decoded h, plan_eq m (encodable_of_instructionAt h), ha,
    guarded_of_not_fits hout]

/-- An instruction whose data access, if it has one, is inside the memory can be worked out. -/
theorem prepare_of_inside {i : Instruction} {n : Nat} (h : m.decoded = (.ok i, n))
    (hin : m.Inside (i.access? m.registers)) :
    m.prepare = .ok (⟨m.memory.byteAt m.eip.toNat, i, m.eip + UInt32.ofNat n⟩,
      m.intended i (m.eip + UInt32.ofNat n)) := by
  simp only [prepare, fetch_of_decoded h, plan_eq m (encodable_of_instructionAt h),
    guarded_of_inside hin]

/-- A step of an instruction whose data access, if it has one, is inside the memory. -/
theorem step_of_inside (hm : m.status = .running) {i : Instruction} {n : Nat}
    (h : m.decoded = (.ok i, n)) (hin : m.Inside (i.access? m.registers)) :
    m.step = m.perform ⟨m.memory.byteAt m.eip.toNat, i, m.eip + UInt32.ofNat n⟩
      (m.intended i (m.eip + UInt32.ofNat n)) := by
  simp only [step, hm, prepare_of_inside h hin]

/-- What a step of a running machine meets, in the order in which it looks for it, and what it makes
of it. -/
inductive Encounter (m : Machine) : Machine → Prop where
  /-- There is no byte to fetch. -/
  | nothing : m.memory.size ≤ m.eip.toNat →
    Encounter m (m.fail (.outOfBounds m.eip 1 m.memory.size))
  /-- The bytes are no instruction. -/
  | undecodable {e : DecodeError} {k : Nat} : m.eip.toNat < m.memory.size →
    m.decoded = (.error e, k) →
    Encounter m (m.fail (.decode m.eip (m.memory.slice m.eip.toNat k) e))
  /-- The data access of the instruction is outside the memory. -/
  | outside {i : Instruction} {n : Nat} {a : UInt32} {k : Nat} : m.decoded = (.ok i, n) →
    i.access? m.registers = some (a, k) → ¬ m.memory.Fits a k →
    Encounter m (m.fail (.outOfBounds a k m.memory.size))
  /-- There is an instruction, and nothing but the console can keep it from being completed. -/
  | instruction {i : Instruction} {n : Nat} : m.decoded = (.ok i, n) → i.Encodable →
    m.Inside (i.access? m.registers) →
    Encounter m (m.perform ⟨m.memory.byteAt m.eip.toNat, i, m.eip + UInt32.ofNat n⟩
      (m.intended i (m.eip + UInt32.ofNat n)))

/-- **A step meets nothing else.** -/
theorem encounter (hm : m.status = .running) : m.Encounter m.step := by
  by_cases hlt : m.eip.toNat < m.memory.size
  · -- the instruction pointer is inside the memory
    rcases hd : m.decoded with ⟨e | i, n⟩
    · rw [step_of_decoded_error hm hlt hd]
      exact .undecodable hlt hd
    · by_cases hin : m.Inside (i.access? m.registers)
      · rw [step_of_inside hm hd hin]
        exact .instruction hd (encodable_of_instructionAt hd) hin
      · obtain ⟨a, k, ha, hout⟩ := exists_of_not_inside hin
        rw [step_of_outside hm hd ha hout]
        exact .outside hd ha hout
  · rw [step_of_size_le hm (Nat.not_lt.1 hlt)]
    exact .nothing (Nat.not_lt.1 hlt)

/-- The instruction at the instruction pointer, which is `n` bytes long, is completed, which takes
the machine to `m'`. -/
structure Completed (m : Machine) (i : Instruction) (n : Nat) (target : Option UInt32)
    (m' : Machine) : Prop where
  decoded : m.decoded = (.ok i, n)
  encodable : i.Encodable
  inside : m.Inside (i.access? m.registers)
  done : (m.carryOut (m.intended i (m.eip + UInt32.ofNat n))).1 = .ok target
  eq_complete : m' = (m.carryOut (m.intended i (m.eip + UInt32.ofNat n))).2.complete
    ⟨m.memory.byteAt m.eip.toNat, i, m.eip + UInt32.ofNat n⟩ target

/-- A step that does not fault completes an instruction. -/
theorem exists_completed (hm : m.status = .running) (hok : ∀ f, m.step.status ≠ .faulted f) :
    ∃ i n target, m.Completed i n target m.step := by
  have hstep := encounter hm
  generalize m.step = s at hok hstep ⊢
  cases hstep with
  | nothing hle => exact absurd rfl (hok _)
  | undecodable hlt hd => exact absurd rfl (hok _)
  | outside hd ha hout => exact absurd rfl (hok _)
  | @instruction i n hd hi hin =>
    cases hr : (m.carryOut (m.intended i (m.eip + UInt32.ofNat n))).1 with
    | ok target => exact ⟨i, n, target, hd, hi, hin, hr, perform_of_ok hr _⟩
    | error f =>
      rw [perform_of_error hr] at hok
      exact absurd rfl (hok f)

theorem keeps_carryOut (m : Machine) (a : Action) :
    (m.carryOut a).2.config = m.config ∧ (m.carryOut a).2.eip = m.eip ∧
      (m.carryOut a).2.status = m.status ∧ (m.carryOut a).2.steps = m.steps :=
  keeps_of_carryOut (rfl : m.carryOut a = (_, _))

/-- A completed step ends the program if and only if it has taken the guest to zero. -/
theorem status_step_of_completed {i : Instruction} {n : Nat} {s : Machine} {target : Option UInt32}
    (hm : m.status = .running) (h : m.Completed i n target s) :
    s.status = .ended ↔ m.config.haltOnZero = true ∧ s.eip = 0 := by
  obtain ⟨-, -, -, -, rfl⟩ := h
  obtain ⟨hconfig, -, hstatus, -⟩ := m.keeps_carryOut (m.intended i (m.eip + UInt32.ofNat n))
  rw [status_complete_eq, eip_complete, hconfig, hstatus, hm]
  split
  · next hleave => exact iff_of_true rfl hleave
  · next hstay => exact iff_of_false nofun hstay

theorem memory_commit_of_no_store {c : Change} (h : c.store = none) :
    (m.commit c).memory = m.memory := by
  simp only [commit, h]

theorem memory_commit_of_store {c : Change} {s : Store} (h : c.store = some s) :
    (m.commit c).memory = m.memory.store s.address.toNat s.bytes := by
  simp only [commit, h]

/-- An instruction has committed a change, and the guest goes on at the target of the change, or at
`next` if it has none. -/
structure Commits (m : Machine) (c : Change) (next : UInt32) (m' : Machine) : Prop where
  registers : m'.registers = c.registers
  flags : m'.flags = c.flags
  memory : m'.memory = (m.commit c).memory
  eip : m'.eip = c.target.getD next
  steps : m'.steps = m.steps + 1

/-- A step of an instruction that asks for a change commits it. -/
theorem commits_of_holds (hm : m.status = .running) {code : List UInt8} {i : Instruction}
    (hcode : InstructionSet.Encodes code i) (hat : m.memory.Holds m.eip code)
    (hin : m.Inside (i.access? m.registers)) {next : UInt32}
    (hnext : m.eip + UInt32.ofNat code.length = next) {c : Change}
    (hc : m.intended i next = .commit c) : m.Commits c next m.step := by
  subst hnext
  rw [step_of_inside hm (decoded_of_holds hcode hat) hin, hc, perform_of_ok rfl]
  show m.Commits c _ ((m.commit c).complete _ c.target)
  constructor
  · rw [registers_complete, registers_commit]
  · rw [flags_complete, flags_commit]
  · rw [memory_complete]
  · rw [eip_complete]
  · rw [steps_complete, steps_commit]

end Steps

end Machine

end Boot386
