import Boot386.Proofs.Console.Stream
import Boot386.Proofs.Machine.Cause
import Boot386.Proofs.Machine.Lifecycle

/-!
# The output of a run

What the host has received after a run is put together of what the single steps have delivered, in
the order of the steps (`output_of_run`). `Machine.emission` is what a step has to write, as it is
read off the instruction and the registers, and `Machine.delivery` what the host gets of it:

* a step that completes its instruction delivers all of its emission;
* a step that faults delivers a first part of it, and it is the last one to deliver anything.

Both come from one statement about a single step (`delivers_step`), and that one from what the
console does with bytes that are sent one after the other (`Console.delivers_sendAll`).
-/

namespace Boot386

/-! ### Characters with a style -/

namespace Teletype

/-- The terminal's color codes, in the order of the text mode. -/
def palette : List UInt8 := [30, 34, 32, 36, 31, 35, 33, 37]

/-- The code of a decimal digit. -/
def digit (n : UInt8) : UInt8 := 0x30 + n

/-- The codes of `ESC [ b ; c c m`, where `b` is bit 3 of the style and `c c` the color code of its
lowest three bits. -/
def styleOn (style : UInt8) : List UInt8 :=
  let color := palette.getD (style &&& 7).toNat 0
  [0x1b, 0x5b, digit (style >>> 3 &&& 1), 0x3b, digit (color / 10), digit (color % 10), 0x6d]

/-- The codes of `ESC [ 0 m`. -/
def styleOff : List UInt8 := [0x1b, 0x5b, 0x30, 0x6d]

/-- Brightness and color are read off the bits of the style. -/
theorem bright_color_eq (style : UInt8) :
    bright style = (style >>> 3 &&& 1).toNat ∧
      color style = (palette.getD (style &&& 7).toNat 0).toNat ∧
      (style >>> 3 &&& 1) ∈ ([0, 1] : List UInt8) ∧
      palette.getD (style &&& 7).toNat 0 ∈ palette := by
  revert style
  exact Word.forall_byte (by decide +kernel)

/-- A character is written between two escape sequences. -/
theorem sequence_eq (character style : UInt8) :
    sequence character style = styleOn style ++ [character] ++ styleOff := by
  obtain ⟨hbright, hcolor, hbit, hmem⟩ := bright_color_eq style
  -- the numbers are written in one digit and in two
  have hone : ∀ b ∈ ([0, 1] : List UInt8),
      Ascii.bytes (Numeral.decimal b.toNat) = [digit b] := by decide +kernel
  have htwo : ∀ c ∈ palette,
      Ascii.bytes (Numeral.decimal c.toNat) = [digit (c / 10), digit (c % 10)] := by decide +kernel
  have hends : Ascii.bytes ";" = [0x3b] ∧ Ascii.bytes "m" = [0x6d] ∧
      Ascii.bytes "0m" = [0x30, 0x6d] := by decide +kernel
  obtain ⟨hseparator, hend, hreset⟩ := hends
  rw [sequence, hbright, hcolor, Ascii.bytes_append, Ascii.bytes_append, hone _ hbit, htwo _ hmem,
    hseparator, hend, hreset]
  rfl

end Teletype

/-- What an action writes to the console, if nothing fails. -/
def Action.emission : Action → List UInt8
  | .output a bytes => if a = Console.address then bytes else []
  | _ => []

namespace Machine

variable {m : Machine} {i : Instruction}

/-! ### Emissions -/

/-- What an instruction has to write to the console: `out` the byte in `al`, and the video
interrupt, if it is asked for teletype output, the character in `al` with the style in `bl`. -/
def emits (m : Machine) (i : Instruction) : List UInt8 :=
  match i.op with
  | .output => if m.port = Console.address then [m.registers.get8 .al] else []
  | .interrupt =>
    if i.left = .imm 0x10 ∧ m.registers.get8 .ah = 0x0e then
      Teletype.styleOn (m.registers.get8 .bl) ++ [m.registers.get8 .al] ++ Teletype.styleOff
    else []
  | _ => []

/-- What the next step has to write to the console. A machine that has halted, and one that is not
at an instruction, have nothing to write. -/
def emission (m : Machine) : List UInt8 :=
  match m.status, m.decoded.1 with
  | .running, .ok i => m.emits i
  | _, _ => []

/-- What the host gets of it. -/
def delivery (m : Machine) : List UInt8 :=
  m.step.console.sent.toList.drop m.console.sent.size

theorem emission_of_decoded (hm : m.status = .running) {n : Nat} (h : m.decoded = (.ok i, n)) :
    m.emission = m.emits i := by
  simp only [emission, hm, h]

theorem emission_of_decoded_error {e : DecodeError} {n : Nat} (h : m.decoded = (.error e, n)) :
    m.emission = [] := by
  unfold emission
  rw [h]
  cases m.status <;> rfl

theorem emission_of_halted (hm : m.status ≠ .running) : m.emission = [] := by
  unfold emission
  split
  · contradiction
  · rfl

/-- An instruction asks for what it has to write. -/
theorem emission_intended (h : i.Encodable) (next : UInt32) :
    (m.intended i next).emission = m.emits i := by
  obtain ⟨op, w, left, right⟩ := i
  cases op with
  | output =>
    obtain ⟨rfl, rfl⟩ := h
    simp only [intended, toUInt16_value_dx, Action.emission, emits]
  | interrupt =>
    obtain ⟨vector, rfl⟩ := h
    have hvector : Word.byte (m.value .byte (.imm vector.toUInt32)) 0 = vector :=
      Word.byte_toUInt32 vector
    -- the vector and the function as the emission names them
    have hleft : Operand.imm vector.toUInt32 = .imm 0x10 ↔ vector = videoVector :=
      ⟨fun h => UInt8.toUInt32_inj.1 (Operand.imm.inj h), fun h => h ▸ rfl⟩
    have hfunction : (0x0e : UInt8) = teletypeFunction := rfl
    simp only [intended, hvector, interrupt, emits, hleft, hfunction]
    by_cases hv : vector = videoVector
    · by_cases hf : m.registers.get8 .ah = teletypeFunction
      · simp only [hv, video, hf, if_true, and_self, Action.emission, Teletype.sequence_eq]
      · simp only [hv, video, hf, if_true, if_false, and_false, Action.emission]
    · simp only [hv, if_false, false_and, Action.emission]
  | _ => rfl

/-- An instruction with a data access has nothing to write. -/
theorem emits_of_access {access : UInt32 × Nat} (h : i.access? m.registers = some access) :
    m.emits i = [] := by
  obtain ⟨op, w, left, right⟩ := i
  cases op with
  | output => cases h
  | interrupt => cases h
  | _ => rfl

/-! ### One step -/

theorem console_carryOut_input (m : Machine) (a : IoAddress) (r : Reg8) :
    (m.carryOut (.input a r)).2.console = (m.console.input a).2 := by
  simp only [carryOut]
  rcases m.console.input a with ⟨_ | _ | _, _⟩ <;> rfl

theorem console_carryOut_output (m : Machine) (a : IoAddress) (bytes : List UInt8) :
    (m.carryOut (.output a bytes)).2.console = (m.console.output a bytes).2 := by
  simp only [carryOut]
  rcases m.console.output a bytes with ⟨_ | _, _⟩ <;> rfl

/-- A write is carried out if the host takes all of it. -/
theorem isOk_carryOut_output (m : Machine) (a : IoAddress) (bytes : List UInt8) :
    (m.carryOut (.output a bytes)).1.isOk = true ↔ (m.console.output a bytes).1 = .ok () := by
  simp only [carryOut]
  rcases m.console.output a bytes with ⟨_ | _, _⟩ <;> simp [Except.isOk, Except.toBool]

/-- What the host gets of an action: all of it if it is carried out, and otherwise a first part. -/
theorem delivers_carryOut (m : Machine) (a : Action) :
    m.console.Delivers a.emission ((m.carryOut a).1.isOk = true) (m.carryOut a).2.console := by
  cases a with
  | commit c => exact Console.delivers_nil (congrArg Console.sent (console_commit m c)) _
  | note e => exact Console.delivers_nil rfl _
  | input a r =>
    refine Console.delivers_nil ?_ _
    rw [console_carryOut_input, Console.sent_input]
  | output a bytes =>
    rw [console_carryOut_output, isOk_carryOut_output]
    by_cases ha : a = Console.address
    · -- at the console all bytes are sent
      have hemission : (Action.output a bytes).emission = bytes := if_pos ha
      have houtput : m.console.output a bytes = m.console.sendAll bytes := if_pos ha
      rw [hemission, houtput]
      exact m.console.delivers_sendAll bytes
    · -- elsewhere nothing is connected
      have hemission : (Action.output a bytes).emission = [] := if_neg ha
      rw [hemission, Console.output_of_ne ha]
      exact Console.delivers_nil rfl _

/-- **The output of a step.** The host gets a first part of what the step has to write, and all of
it if the instruction is completed. -/
theorem delivers_step (m : Machine) :
    m.console.Delivers m.emission (m.completes = true) m.step.console := by
  by_cases hm : m.status = .running
  · have hstep := encounter hm
    generalize m.step = s at hstep ⊢
    -- without an instruction that can be carried out there is nothing to write
    cases hstep with
    | nothing hle =>
      have hno : m.emission = [] := by
        rcases hd : m.decoded with ⟨e | i, n⟩
        · exact emission_of_decoded_error hd
        · exact absurd (eip_lt_of_decoded hd) (Nat.not_lt.2 hle)
      rw [hno]
      exact Console.delivers_nil rfl _
    | undecodable hlt hd =>
      rw [emission_of_decoded_error hd]
      exact Console.delivers_nil rfl _
    | outside hd ha hout =>
      rw [emission_of_decoded hm hd, emits_of_access ha]
      exact Console.delivers_nil rfl _
    | instruction hd hi hin =>
      rw [console_perform, completes_of_inside hm hd hin, emission_of_decoded hm hd,
        ← emission_intended hi]
      exact m.delivers_carryOut _
  · rw [step_of_halted hm, emission_of_halted hm]
    exact Console.delivers_nil rfl _

/-- The delivery of a step is a first part of its emission. -/
theorem delivery_spec (m : Machine) :
    m.delivery <+: m.emission ∧
      m.step.console.sent.toList = m.console.sent.toList ++ m.delivery ∧
      (m.delivery = m.emission ↔ m.emission = [] ∨ m.completes = true ∨
        m.console.OnlyLastFlushFails m.emission) := by
  obtain ⟨taken, hpart, hsent, hall⟩ := m.delivers_step
  have htaken : m.delivery = taken := by
    rw [delivery, hsent, ← Array.length_toList, List.drop_left]
  rw [htaken]
  exact ⟨hpart, hsent, hall⟩

theorem delivery_of_halted (hm : m.status ≠ .running) : m.delivery = [] := by
  have hpart := m.delivery_spec.1
  rw [emission_of_halted hm] at hpart
  exact List.prefix_nil.1 hpart

/-! ### Runs -/

/-- A run delivers what its steps deliver, in their order. -/
theorem sent_run (m : Machine) (n : Nat) :
    (m.run n).console.sent.toList
      = m.console.sent.toList ++ (List.range n).flatMap fun j => (m.run j).delivery := by
  induction n with
  | zero => exact (List.append_nil _).symm
  | succ n ih =>
    rw [run_succ_eq_step, (m.run n).delivery_spec.2.1, ih, List.range_succ, List.flatMap_append,
      List.flatMap_singleton, List.append_assoc]

/-- **The output of a run.** Let an image be loaded and run. After any number of steps the host has
received what the steps have delivered, put together in their order. A step that completes its
instruction delivers what the instruction has to write, and exactly that; a machine that has halted
delivers nothing. A step that faults delivers a first part of what it has to write, which is all of
it if there is nothing to write or if only the last flush has failed, and no later step delivers
anything. -/
theorem output_of_run {config : Config} {host : Host} {image : List UInt8} {m : Machine}
    (hload : (boot config host).load image = .ok m) (n : Nat) :
    (m.run n).console.sent.toList = (List.range n).flatMap (fun j => (m.run j).delivery) ∧
    ∀ j, let s := m.run j
      (s.completes = true → s.delivery = s.emission) ∧
      (s.status ≠ .running → s.delivery = []) ∧
      ∀ f, s.status = .running → s.step.status = .faulted f →
        s.delivery <+: s.emission ∧
        (s.delivery = s.emission ↔ s.emission = [] ∨ s.console.OnlyLastFlushFails s.emission) ∧
        ∀ k, j < k → (m.run k).delivery = [] := by
  refine ⟨?_, fun j => ?_⟩
  · -- a machine that has been loaded has sent nothing yet
    obtain ⟨-, rfl⟩ := eq_of_load hload
    rw [sent_run]
    rfl
  · intro s
    obtain ⟨hpart, -, hall⟩ := s.delivery_spec
    refine ⟨fun hdone => hall.2 (.inr (.inl hdone)), delivery_of_halted, fun f hrun hf => ?_⟩
    -- a fault ends the run, so that no later step has anything to deliver
    refine ⟨hpart, by rw [hall]; simp [completes_of_faulted hf], fun k hk => delivery_of_halted ?_⟩
    refine status_run_of_le (Nat.succ_le_of_lt hk) ?_
    rw [run_succ_eq_step, hf]
    simp

/-- A guest that writes `A` and has it shown by the firmware. A host that is closed after two bytes
has received the one of `out` and the first of twelve of the firmware, and gets no more of a longer
run. A host whose last flush fails has received all of them. -/
theorem output_of_run_closed :
    let image : List UInt8 := [0xba, 0xf8, 0x03, 0, 0, 0xb8, 0x41, 0x0e, 0, 0, 0xee, 0xcd, 0x10]
    let shown : List UInt8 :=
      [0x1b, 0x5b, 0x30, 0x3b, 0x33, 0x30, 0x6d, 0x41, 0x1b, 0x5b, 0x30, 0x6d]
    let closed : Host :=
      { writes := [.accepted, .accepted], flushes := [.done, .done], defect := some "closed" }
    let full : Host := { flushes := List.replicate 12 .done ++ [.failure ⟨.other, "full"⟩] }
    let m : Machine := { boot ⟨16, 0, true⟩ closed with memory := (Memory.ofSize 16).store 0 image }
    let m' : Machine := { boot ⟨16, 0, true⟩ full with memory := (Memory.ofSize 16).store 0 image }
    (boot ⟨16, 0, true⟩ closed).load image = .ok m ∧
    (m.run 3).step.status = .faulted (.console "closed") ∧ (m.run 3).emission = shown ∧
    (m.run 3).delivery = [0x1b] ∧ (m.run 9).console.sent.toList = [0x41, 0x1b] ∧
    (boot ⟨16, 0, true⟩ full).load image = .ok m' ∧
    (m'.run 3).step.status = .faulted (.console "full") ∧ (m'.run 3).delivery = shown ∧
    (m'.run 3).console.OnlyLastFlushFails shown := by
  intro image shown closed full m m'
  have hload : (boot ⟨16, 0, true⟩ closed).load image = .ok m := rfl
  have hload' : (boot ⟨16, 0, true⟩ full).load image = .ok m' := rfl
  -- the fourth instruction is the interrupt, at which both hosts fail
  have hrun : (m.run 3).status = .running := by decide +kernel
  have hrun' : (m'.run 3).status = .running := by decide +kernel
  have hfail : (m.run 3).step.status = .faulted (.console "closed") := by decide +kernel
  have hfail' : (m'.run 3).step.status = .faulted (.console "full") := by decide +kernel
  have hemission : (m.run 3).emission = shown := by decide +kernel
  have hemission' : (m'.run 3).emission = shown := by decide +kernel
  have hfirst : (m.run 3).delivery = [0x1b] := by decide +kernel
  have hall : (m'.run 3).delivery = shown := by decide +kernel
  -- all bytes have arrived although the step has faulted
  have hwhole := ((output_of_run hload' 4).2 3).2.2 _ hrun' hfail'
  rw [hall, hemission'] at hwhole
  refine ⟨hload, hfail, hemission, hfirst, ?_, hload', hfail', hall,
    (hwhole.2.1.1 rfl).resolve_left (by decide)⟩
  -- of nine steps the first three are silent or completed, and the last five deliver nothing
  obtain ⟨hsent, hsteps⟩ := output_of_run hload 9
  have hlater := ((hsteps 3).2.2 _ hrun hfail).2.2
  rw [hsent]
  simp only [List.range_succ, List.range_zero, List.nil_append, List.flatMap_append,
    List.flatMap_singleton, hfirst, hlater 4 (by decide), hlater 5 (by decide),
    hlater 6 (by decide), hlater 7 (by decide), hlater 8 (by decide)]
  decide +kernel

end Machine

end Boot386
