import Boot386.Proofs.Machine.Reads

/-!
# Memory that is not looked at

Memory that a run does not look at does not matter to it. `Machine.AgreesOff D m m'` says that two
machines are the same but for the bytes at the addresses in `D`. As long as no step of the one looks
at a byte there (`Machine.Inspects`), the other one does the same (`untouched_memory`). The guest
may write into `D`, and what it writes is the same in both.

A step needs no more than that the bytes are the same that it fetches and that it reads
(`decoded_congr` and `intended_congr`), and everything else that it does is done to both machines
alike.
-/

namespace Boot386.Machine

/-- The two machines are the same, apart from what they have noted, and but for the bytes of their
memories at some addresses. -/
structure AgreesOff (D : Set Nat) (m m' : Machine) : Prop where
  alike : Alike m m'
  memory : m.memory.AgreesOff D m'.memory
  console : m'.console = m.console

namespace AgreesOff

variable {D : Set Nat} {m m' : Machine} (h : AgreesOff D m m')

include h

/-! ### The parts of a step -/

theorem fail (f : Fault) : AgreesOff D (m.fail f) (m'.fail f) :=
  ⟨h.alike.fail f, h.memory, h.console⟩

theorem complete (fetched : Fetched) (target : Option UInt32) :
    AgreesOff D (m.complete fetched target) (m'.complete fetched target) where
  alike := h.alike.complete fetched target
  memory := by
    rw [memory_complete, memory_complete]
    exact h.memory
  console := by rw [console_complete, console_complete, h.console]

/-- What is stored into `D` is the same in both. -/
theorem commit (c : Change) : AgreesOff D (m.commit c) (m'.commit c) where
  alike := h.alike.commit c
  memory := by
    cases hs : c.store with
    | none =>
      rw [memory_commit_of_no_store hs, memory_commit_of_no_store hs]
      exact h.memory
    | some s =>
      rw [memory_commit_of_store hs, memory_commit_of_store hs]
      exact h.memory.store _ _
  console := by rw [console_commit, console_commit, h.console]

/-- An action does not look at the memory. -/
theorem carryOut (a : Action) :
    (m'.carryOut a).1 = (m.carryOut a).1 ∧ AgreesOff D (m.carryOut a).2 (m'.carryOut a).2 := by
  cases a with
  | commit c => exact ⟨rfl, h.commit c⟩
  | note e => exact ⟨rfl, { h.alike with }, h.memory, h.console⟩
  | input address r =>
    simp only [Machine.carryOut, h.console, h.alike.registers]
    rcases m.console.input address with ⟨_ | _ | _, console⟩ <;>
      exact ⟨rfl, { h.alike with registers := rfl }, h.memory, rfl⟩
  | output address bytes =>
    simp only [Machine.carryOut, h.console]
    rcases m.console.output address bytes with ⟨_ | _, console⟩ <;>
      exact ⟨rfl, { h.alike with }, h.memory, rfl⟩

theorem perform (fetched : Fetched) (a : Action) :
    AgreesOff D (m.perform fetched a) (m'.perform fetched a) := by
  obtain ⟨hresult, hdone⟩ := h.carryOut a
  exact perform_rel hresult (hdone.complete fetched) hdone.fail

theorem inside {access : Option (UInt32 × Nat)} (hin : m.Inside access) : m'.Inside access := by
  unfold Inside Memory.Fits
  rw [h.memory.size]
  exact hin

/-! ### Steps -/

/-- **Lock-step.** A step that does not look at `D` keeps the machines the same outside of it. -/
theorem step (hno : ∀ c ∈ D, ¬ m.Inspects c) : AgreesOff D m.step m'.step := by
  by_cases hm : m.status = .running
  · have hm' : m'.status = .running := h.alike.status.trans hm
    have hfetched : ∀ c, m.eip.toNat ≤ c → c < m.eip.toNat + m.fetchLength →
        m'.memory.byteAt c = m.memory.byteAt c :=
      fun c hle hlt => h.memory.byteAt c fun hc => hno c hc (.fetched hm hle hlt)
    have hdecoded : m'.decoded = m.decoded := decoded_congr h.alike.eip h.memory.size hfetched
    have hstep := encounter hm
    generalize m.step = s at hstep ⊢
    cases hstep with
    | nothing hle =>
      have hle' : m'.memory.size ≤ m'.eip.toNat := by rwa [h.memory.size, h.alike.eip]
      rw [step_of_size_le hm' hle', h.memory.size, h.alike.eip]
      exact h.fail _
    | @undecodable e k hlt hd =>
      have hlt' : m'.eip.toNat < m'.memory.size := by rwa [h.memory.size, h.alike.eip]
      -- the bytes that the fault shows have been fetched
      have hk : k ≤ m.fetchLength := by
        have hle := m.consumed_le_fetchLength
        rwa [hd] at hle
      have hshown : m'.memory.slice m.eip.toNat k = m.memory.slice m.eip.toNat k :=
        Memory.slice_congr h.memory.size fun c hle hc =>
          hfetched c hle (hc.trans_le (Nat.add_le_add_left hk _))
      rw [step_of_decoded_error hm' hlt' (hdecoded.trans hd), h.alike.eip, hshown]
      exact h.fail _
    | @outside i n a k hd ha hout =>
      -- where an access is does not depend on the memory, and nothing has been read
      have hout' : ¬ m'.memory.Fits a k := by
        unfold Memory.Fits
        rwa [h.memory.size]
      rw [← h.alike.registers] at ha
      rw [step_of_outside hm' (hdecoded.trans hd) ha hout', h.memory.size]
      exact h.fail _
    | @instruction i n hd hi hin =>
      have hin' : m'.Inside (i.access? m'.registers) := by
        rw [h.alike.registers]
        exact h.inside hin
      have hread : ∀ c, Covers (i.source? m.registers) c →
          m'.memory.byteAt c = m.memory.byteAt c :=
        fun c hc => h.memory.byteAt c fun hD => hno c hD (.read hm hd (inside_source hi hin) hc)
      have hopcode : m'.memory.byteAt m.eip.toNat = m.memory.byteAt m.eip.toNat :=
        hfetched _ (Nat.le_refl _)
          (Nat.lt_add_of_pos_right (one_le_fetchLength (eip_lt_of_decoded hd)))
      rw [step_of_inside hm' (hdecoded.trans hd) hin', h.alike.eip, hopcode,
        intended_congr hi h.alike.registers h.alike.flags h.alike.eip hread]
      exact h.perform _ _
  · rw [step_of_halted hm, step_of_halted (h.alike.status ▸ hm)]
    exact h

end AgreesOff

/-- **Untouched memory does not matter.** Let two machines be the same but for the bytes of their
memories at the addresses in `D`. If in a run of the one no step looks at a byte there, then after
the run they are again the same but for the bytes at these addresses; if the one has faulted, the
other one has done so with the same fault. -/
theorem untouched_memory {D : Set Nat} {m m' : Machine} (h : AgreesOff D m m') {n : Nat}
    (hno : ∀ j < n, ∀ c ∈ D, ¬ (m.run j).Inspects c) : AgreesOff D (m.run n) (m'.run n) := by
  -- the machines agree before the last step, and that step does not look at `D` either
  induction n with
  | zero => exact h
  | succ n ih =>
    have hbefore := ih fun j hj => hno j (hj.trans (Nat.lt_succ_self n))
    rw [run_succ_eq_step, run_succ_eq_step]
    exact hbefore.step (hno n (Nat.lt_succ_self n))

/-- A guest that pops a word and stores it at the address 8, and then meets a byte that is no
instruction. What has been at the address 8 before does not matter to it. -/
theorem untouched_memory_store :
    let m : Machine := { boot ⟨12, 0, true⟩ {} with
      memory := (Memory.ofSize 12).store 0 [0x58, 0x89, 0x45, 0x08, 0x06] }
    let m' : Machine := { m with memory := m.memory.store 8 [0xff, 0xff, 0xff, 0xff] }
    let D : Set Nat := fun c => 8 ≤ c
    AgreesOff D m m' ∧ (∀ j < 3, ∀ c ∈ D, ¬ (m.run j).Inspects c) ∧
    m'.memory.byteAt 8 ≠ m.memory.byteAt 8 ∧
    (m'.run 3).registers.eax = 0x08458958 ∧
    (m'.run 3).status = .faulted (.decode 4 [0x06] (.unknownOpcode 0x06)) := by
  intro m m' D
  have hsame : AgreesOff D m m' := by
    refine ⟨⟨rfl, rfl, rfl, rfl, rfl, rfl⟩, ⟨Memory.size_store .., fun c hc => ?_⟩, rfl⟩
    rw [Memory.byteAt_store, if_neg fun h => hc h.1]
  -- the two instructions, and the byte that is none
  have hpop : m.decoded = (.ok ⟨.pop, .dword, .reg .eax, .absent⟩, 1) := by decide +kernel
  have hmov : (m.run 1).decoded = (.ok ⟨.mov, .dword, .mem .ebp 8, .reg .eax⟩, 3) := by
    decide +kernel
  have hnone : (m.run 2).decoded = (.error (.unknownOpcode 0x06), 1) := by decide +kernel
  have hno : ∀ j < 3, ∀ c ∈ D, ¬ (m.run j).Inspects c := by
    intro j hj c hc hlooks
    have hbelow : c < 8 := by
      -- in each of the three steps only bytes below 8 are fetched or read
      obtain rfl | rfl | rfl : j = 0 ∨ j = 1 ∨ j = 2 := by omega
      · obtain ⟨-, hlt⟩ | ⟨a, n, ⟨⟩, -, hlt⟩ := hlooks.of_decoded hpop
        · exact hlt.trans (by decide)
        · exact hlt.trans (by decide)
      · -- the move writes to memory and reads nothing there
        obtain ⟨-, hlt⟩ | hcovers := hlooks.of_decoded hmov
        · exact hlt.trans_le (by decide +kernel)
        · exact absurd hcovers (not_covers_none c)
      · cases hlooks with
        | fetched _ _ hlt =>
          rw [fetchLength_of_decoded hnone nofun] at hlt
          exact hlt.trans (by decide +kernel)
        | read _ hd => cases hnone.symm.trans hd
    exact absurd hbelow (Nat.not_lt.2 hc)
  have hrun := untouched_memory hsame hno
  refine ⟨hsame, hno, by decide, ?_, ?_⟩
  · rw [hrun.alike.registers]
    decide +kernel
  · rw [hrun.alike.status]
    decide +kernel

end Boot386.Machine
