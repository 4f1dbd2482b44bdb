import Boot386.Proofs.Machine.Lifecycle
import Boot386.Proofs.Machine.Reads

/-!
# More memory

A program that fits into a memory does the same in a larger one. `Machine.ExtendedBy m m'` says that
`m'` is `m` with zeros behind the memory. A step keeps this (`ExtendedBy.step`), so that two such
machines run in lock-step, until the smaller one meets the end of its memory (`Fault.MeetsEnd`).

Nothing that an instruction does depends on how large the memory is: what is decoded is not changed
by bytes that follow (`ExtendedBy.decoded_eq`), what is intended depends on the bytes only
(`ExtendedBy.intended_eq`), and the one data access is inside the larger memory if it is inside
the smaller one. Since stores are inside, too, what a guest makes of its own code is the same in
both.
-/

namespace Boot386

/-- The fault is that the memory ends: an access is outside, or an instruction is cut off. -/
def Fault.MeetsEnd : Fault → Prop
  | outOfBounds .. => True
  | decode _ _ .truncated => True
  | _ => False

namespace Machine

variable {m m' : Machine}

/-! ### What is stored is accessed -/

theorem access?_of_assign {w : Width} {o : Operand} {v : UInt32} {c : Change} {s : Store}
    (hc : c.store = none) (h : (assign w o v c).store = some s) :
    o.access? c.registers w = some (s.address, s.width.size) := by
  cases o with
  | mem base d =>
    cases h
    rfl
  | _ => cases hc.symm.trans h

/-- **An instruction stores at its data access only.** -/
theorem access?_of_store {i : Instruction} (hi : i.Encodable) {next : UInt32} {c : Change}
    {s : Store} (h : m.intended i next = .commit c) (hs : c.store = some s) :
    i.access? m.registers = some (s.address, s.width.size) := by
  obtain ⟨op, w, left, right⟩ := i
  -- what is assigned to the left operand is stored where that is
  have hleft : ∀ {v : UInt32} {c' : Change}, c'.store = none → c'.registers = m.registers →
      Action.commit (assign w left v c') = .commit c →
      (left.access? m.registers w).or (right.access? m.registers w)
          = some (s.address, s.width.size) ∧
        left.access? m.registers w = some (s.address, s.width.size) := by
    intro v c' hnone hregs hc
    obtain rfl := Action.commit.inj hc
    have hplace := access?_of_assign hnone hs
    rw [hregs] at hplace
    exact ⟨by rw [hplace, Option.some_or], hplace⟩
  cases op with
  | mov => exact (hleft rfl rfl h).1
  | add => exact (hleft rfl rfl h).1
  | sub => exact (hleft rfl rfl h).1
  | inc => exact (hleft rfl rfl h).2
  | push =>
    obtain rfl := Action.commit.inj h
    cases hs
    rfl
  | call =>
    obtain rfl := Action.commit.inj h
    cases hs
    rfl
  | pop =>
    -- a word is popped to a register
    obtain ⟨r, rfl⟩ := hi
    obtain rfl := Action.commit.inj h
    cases hs
  | interrupt => exact absurd h (interrupt_ne_commit _ _ _)
  | input => cases h
  | output => cases h
  | _ =>
    obtain rfl := Action.commit.inj h
    cases hs

/-! ### Machines with more memory -/

/-- The other machine is the same with more memory. -/
structure ExtendedBy (m m' : Machine) : Prop where
  origin : m'.config.origin = m.config.origin
  haltOnZero : m'.config.haltOnZero = m.config.haltOnZero
  registers : m'.registers = m.registers
  flags : m'.flags = m.flags
  eip : m'.eip = m.eip
  memory : m.memory.ExtendedBy m'.memory
  console : m'.console = m.console
  status : m'.status = m.status
  steps : m'.steps = m.steps
  log : m'.log = m.log

namespace ExtendedBy

variable (h : m.ExtendedBy m')

include h

/-- What is decoded inside the smaller memory is decoded in the larger one. -/
theorem decoded_eq (hlt : m.eip.toNat < m.memory.size)
    (hne : m.decoded.1 ≠ .error .truncated) : m'.decoded = m.decoded := by
  obtain ⟨tail, htail⟩ := h.memory.drop_toList hlt.le
  rw [decoded, h.eip]
  exact Decoder.instructionAt_append htail hne

theorem inside {access : Option (UInt32 × Nat)} (hin : m.Inside access) : m'.Inside access := by
  rcases access with _ | ⟨a, n⟩
  · trivial
  · exact h.memory.fits hin

/-- What an instruction asks for does not depend on how large the memory is. -/
theorem intended_eq {i : Instruction} (hi : i.Encodable) (next : UInt32) :
    m'.intended i next = m.intended i next :=
  intended_congr hi h.registers h.flags h.eip (fun c _ => h.memory.byteAt c) next

theorem fail (f : Fault) : (m.fail f).ExtendedBy (m'.fail f) :=
  ⟨h.origin, h.haltOnZero, h.registers, h.flags, h.eip, h.memory, h.console, rfl, h.steps,
    congrArg₂ (fun log eip => log.push (.faulted eip f)) h.log h.eip⟩

/-- A commit whose store is inside the smaller memory. -/
theorem commit {c : Change} (hin : ∀ s, c.store = some s → m.memory.Fits s.address s.width.size) :
    (m.commit c).ExtendedBy (m'.commit c) := by
  refine ⟨?_, ?_, by simp, by simp, by simpa using h.eip, ?_, by simpa using h.console,
    by simpa using h.status, by simpa using h.steps, by simpa using h.log⟩
  · rw [config_commit, config_commit, h.origin]
  · rw [config_commit, config_commit, h.haltOnZero]
  · cases hs : c.store with
    | none =>
      rw [memory_commit_of_no_store hs, memory_commit_of_no_store hs]
      exact h.memory
    | some s =>
      simp only [Machine.commit, hs]
      have hlen : s.bytes.length ≤ s.width.size := List.length_take_le ..
      exact h.memory.store ((Nat.add_le_add_left hlen _).trans (hin s hs))

/-- An action has the same outcome in both, as far as what it stores is inside. -/
theorem carryOut {a : Action}
    (hin : ∀ c s, a = .commit c → c.store = some s → m.memory.Fits s.address s.width.size) :
    (m'.carryOut a).1 = (m.carryOut a).1 ∧ (m.carryOut a).2.ExtendedBy (m'.carryOut a).2 := by
  cases a with
  | commit c => exact ⟨rfl, h.commit (hin c · rfl)⟩
  | input address r =>
    simp only [Machine.carryOut, h.console, h.registers, h.log]
    rcases m.console.input address with ⟨_ | _ | _, console⟩ <;>
      exact ⟨rfl, { h with registers := rfl, console := rfl, log := rfl }⟩
  | output address bytes =>
    simp only [Machine.carryOut, h.console]
    rcases m.console.output address bytes with ⟨_ | _, console⟩ <;>
      exact ⟨rfl, { h with console := rfl }⟩
  | note e => exact ⟨rfl, { h with log := congrArg (·.push e) h.log }⟩

theorem complete (fetched : Fetched) (target : Option UInt32) :
    (m.complete fetched target).ExtendedBy (m'.complete fetched target) := by
  simp only [Machine.complete, h.haltOnZero, h.steps, h.eip, h.flags, h.log]
  split
  · exact { h with eip := rfl, flags := rfl, status := rfl, steps := rfl, log := rfl }
  · exact { h with eip := rfl, flags := rfl, steps := rfl, log := rfl }

theorem perform (fetched : Fetched) {a : Action}
    (hin : ∀ c s, a = .commit c → c.store = some s → m.memory.Fits s.address s.width.size) :
    (m.perform fetched a).ExtendedBy (m'.perform fetched a) := by
  obtain ⟨hresult, hdone⟩ := h.carryOut hin
  exact perform_rel hresult (hdone.complete fetched) hdone.fail

/-- **Lock-step.** Unless the smaller machine meets the end of its memory, a step of both keeps
them the same. -/
theorem step (hno : ∀ f, m.step.status = .faulted f → ¬ f.MeetsEnd) :
    m.step.ExtendedBy m'.step := by
  by_cases hm : m.status = .running
  · have hm' : m'.status = .running := h.status.trans hm
    have hstep := encounter hm
    generalize m.step = s at hno hstep ⊢
    cases hstep with
    | nothing hle => exact absurd trivial (hno _ rfl)
    | @undecodable e k hlt hd =>
      have hlt' : m'.eip.toNat < m'.memory.size := h.eip ▸ hlt.trans_le h.memory.size_le
      have hne : m.decoded.1 ≠ .error .truncated := by
        rw [hd]
        rintro ⟨⟩
        exact hno _ rfl trivial
      have hd' : m'.decoded = (.error e, k) := (h.decoded_eq hlt hne).trans hd
      -- the bytes that the fault shows are inside the smaller memory
      have hk : m.eip.toNat + k ≤ m.memory.size := by
        have hle := Decoder.instructionAt_le m.memory.toList m.eip.toNat
        rw [← decoded, hd, Memory.length_toList] at hle
        omega
      rw [step_of_decoded_error hm' hlt' hd', h.eip, h.memory.slice hk]
      exact h.fail _
    | outside hd ha hout => exact absurd trivial (hno _ rfl)
    | @instruction i k hd hi hin =>
      have hd' : m'.decoded = (.ok i, k) :=
        (h.decoded_eq (eip_lt_of_decoded hd) (by simp [hd])).trans hd
      have hin' : m'.Inside (i.access? m'.registers) := by
        rw [h.registers]
        exact h.inside hin
      rw [step_of_inside hm' hd' hin', h.intended_eq hi, h.eip, h.memory.byteAt]
      refine h.perform _ fun c s hc hs => ?_
      -- what is stored is where the access is
      rwa [access?_of_store hi hc hs] at hin
  · rw [step_of_halted hm, step_of_halted (h.status ▸ hm)]
    exact h

theorem run {n : Nat} (hno : ∀ f, (m.run n).status = .faulted f → ¬ f.MeetsEnd) :
    (m.run n).ExtendedBy (m'.run n) := by
  induction n with
  | zero => exact h
  | succ n ih =>
    rw [run_succ_eq_step] at hno
    rw [run_succ_eq_step, run_succ_eq_step]
    -- a fault before the last step is still there after it
    have hbefore : ∀ f, (m.run n).status = .faulted f → ¬ f.MeetsEnd := by
      intro f hf
      refine hno f ?_
      rw [step_of_halted (by simp [hf]), hf]
    exact (ih hbefore).step hno

end ExtendedBy

/-! ### Programs in more memory -/

theorem extendedBy_boot {config : Config} {size : Nat} (hsize : config.memorySize ≤ size)
    (host : Host) :
    (boot config host).ExtendedBy (boot { config with memorySize := size } host) :=
  ⟨rfl, rfl, rfl, rfl, rfl, Memory.extendedBy_ofSize hsize, rfl, rfl, rfl, rfl⟩

/-- An image that can be loaded can be loaded into more memory. -/
theorem ExtendedBy.load (h : m.ExtendedBy m') {image : List UInt8} {s : Machine}
    (hload : m.load image = .ok s) : ∃ s', m'.load image = .ok s' ∧ s.ExtendedBy s' := by
  obtain ⟨hfits, rfl⟩ := eq_of_load hload
  refine ⟨{ m' with memory := m'.memory.store m'.config.origin.toNat image }, ?_,
    { h with memory := by rw [h.origin]; exact h.memory.store hfits }⟩
  have hfits' : m'.memory.Fits m'.config.origin image.length := h.origin ▸ h.memory.fits hfits
  simp only [Machine.load, Memory.place, hfits', if_true]

/-- **More memory changes nothing for a program that fits into less.** Let an image be loaded into
a memory, and into a larger one. As long as the machine with the smaller memory has not faulted, the
other one has the same registers and flags, is at the same place, and has done the same; its memory
begins with the smaller one, and the rest is zero. Where the smaller one faults, and not since its
memory ends, the other one faults at the same step and with the same fault. -/
theorem run_of_more_memory {config : Config} {size : Nat} (hsize : config.memorySize ≤ size)
    {host : Host} {image : List UInt8} {m : Machine}
    (hload : (boot config host).load image = .ok m) :
    ∃ m', (boot { config with memorySize := size } host).load image = .ok m' ∧
      (∀ n, (∀ f, (m.run n).status ≠ .faulted f) →
        let s := m.run n
        let s' := m'.run n
        s'.registers = s.registers ∧ s'.flags = s.flags ∧ s'.eip = s.eip ∧ s'.status = s.status ∧
        s'.steps = s.steps ∧ s'.console = s.console ∧
        s.memory.size = config.memorySize ∧ s'.memory.size = size ∧
        (∀ a < config.memorySize, s'.memory.byteAt a = s.memory.byteAt a) ∧
        ∀ a, config.memorySize ≤ a → s'.memory.byteAt a = 0) ∧
      ∀ n f, (m.run n).status = .running → (m.run (n + 1)).status = .faulted f → ¬ f.MeetsEnd →
        (m'.run n).status = .running ∧ (m'.run (n + 1)).status = .faulted f := by
  obtain ⟨m', hload', h⟩ := (extendedBy_boot hsize host).load hload
  have hinv : Invariant config m :=
    (invariant_boot config host).of_keepsCourse (keepsCourse_load hload)
  have hinv' : Invariant { config with memorySize := size } m' :=
    (invariant_boot _ host).of_keepsCourse (keepsCourse_load hload')
  refine ⟨m', hload', fun n hno => ?_, fun n f hrun hf hends => ?_⟩
  · -- up to here there was no fault at all
    have hn := h.run fun f hf => absurd hf (hno f)
    have hend : (m.run n).memory.size = config.memorySize := (hinv.run n).size
    refine ⟨hn.registers, hn.flags, hn.eip, hn.status, hn.steps, hn.console, hend,
      (hinv'.run n).size, fun a _ => hn.memory.byteAt a, fun a ha => ?_⟩
    rw [hn.memory.byteAt, Memory.byteAt_of_le (hend ▸ ha)]
  · -- before the fault both run, and the fault is none that the end of the memory causes
    have hn := h.run (n := n) fun f hf => by rw [hrun] at hf; cases hf
    have hn' := h.run (n := n + 1) fun f' hf' => by
      rw [hf] at hf'
      cases hf'
      exact hends
    exact ⟨hn.status.trans hrun, hn'.status.trans hf⟩

/-- A guest that increments a register and then meets a byte that is no instruction does so in two
bytes of memory as in four. -/
theorem run_of_more_memory_inc :
    let m : Machine := { boot ⟨2, 0, true⟩ {} with
      memory := (Memory.ofSize 2).store 0 [0x40, 0x06] }
    let fault : Fault := .decode 1 [0x06] (.unknownOpcode 0x06)
    (boot ⟨2, 0, true⟩ {}).load [0x40, 0x06] = .ok m ∧
    (m.run 1).status = .running ∧ (m.run 1).registers.eax = 1 ∧
    (m.run 2).status = .faulted fault ∧ ¬ fault.MeetsEnd ∧
    ∃ m', (boot ⟨4, 0, true⟩ {}).load [0x40, 0x06] = .ok m' ∧
      (m'.run 1).registers.eax = 1 ∧ (m'.run 1).memory.byteAt 3 = 0 ∧
      (m'.run 2).status = .faulted fault := by
  intro m fault
  have hload : (boot ⟨2, 0, true⟩ {}).load [0x40, 0x06] = .ok m := rfl
  have hrun : (m.run 1).status = .running := by decide +kernel
  have hinc : (m.run 1).registers.eax = 1 := by decide +kernel
  have hfault : (m.run 2).status = .faulted fault := by decide +kernel
  obtain ⟨m', hload', hsame, hfails⟩ := run_of_more_memory (by decide : 2 ≤ 4) hload
  obtain ⟨hregs, -, -, -, -, -, -, -, -, hzero⟩ := hsame 1 (by simp [hrun])
  exact ⟨hload, hrun, hinc, hfault, id, m', hload', hregs ▸ hinc, hzero 3 (by decide),
    (hfails 1 fault hrun hfault id).2⟩

end Machine

end Boot386
