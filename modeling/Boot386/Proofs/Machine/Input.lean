import Boot386.Proofs.Console.Stream
import Boot386.Proofs.Machine.Cause
import Boot386.Proofs.Machine.Lifecycle
import Boot386.Proofs.Machine.Reads

/-!
# The guest sees its input as a stream

Let a guest run on two hosts that never fail. As far as the bytes that it has read are the same,
where behind the end of an input there are zeros, the guest does the same on both
(`input_as_stream`): input that has not been read does not matter, and an end of input cannot be
told from zeros.

The two runs are coupled by `ReadsAlike s t`: the machines are the same but for their consoles, and
what is left of the input is `s` in one and `t` in the other. A step keeps this (`ReadsAlike.step`).
If it reads from the console the two inputs have to begin with the same byte and lose it, and
otherwise they stay as they are.
-/

namespace Boot386

/-- Whether the action reads from the console. -/
def Action.reads : Action → Bool
  | .input a _ => a == Console.address
  | _ => false

namespace Machine

variable {m m' : Machine} {s t : List UInt8}

/-! ### Reads of the console -/

/-- Whether the next step completes an `in` from the address of the console. -/
def readsConsole (m : Machine) : Bool :=
  m.completes && match m.decoded.1 with
    | .ok i => i.op == .input && m.port == Console.address
    | .error _ => false

/-- How many bytes a run reads from the console. -/
def consoleReads (m : Machine) (n : Nat) : Nat :=
  (List.range n).countP fun j => (m.run j).readsConsole

/-- What happened, apart from ends of input. -/
def history (m : Machine) : List Event :=
  m.log.toList.filter (· ≠ .inputExhausted)

theorem consoleReads_succ (m : Machine) (n : Nat) :
    m.consoleReads (n + 1) = m.consoleReads n + (m.run n).readsConsole.toNat := by
  simp only [consoleReads, List.range_succ, List.countP_append, List.countP_singleton]
  cases (m.run n).readsConsole <;> rfl

/-- Only `in` reads from the console. -/
theorem reads_intended {i : Instruction} (h : i.Encodable) (next : UInt32) :
    (m.intended i next).reads = (i.op == .input && m.port == Console.address) := by
  obtain ⟨op, w, left, right⟩ := i
  cases op with
  | input =>
    obtain ⟨rfl, rfl⟩ := h
    simp only [intended, toUInt16_value_dx, Action.reads, beq_self_eq_true, Bool.true_and]
  | interrupt =>
    simp only [intended, interrupt, video]
    split
    · split <;> rfl
    · rfl
  | _ => rfl

theorem readsConsole_of_not_completes (h : m.completes = false) : m.readsConsole = false := by
  rw [readsConsole, h, Bool.false_and]

/-! ### Two hosts -/

/-- The two machines are alike and have the same memory, and their hosts have received the same.
Neither host fails, and what is left of the input is `s` and `t`. -/
structure ReadsAlike (s t : List UInt8) (m m' : Machine) : Prop where
  alike : Alike m m'
  memory : m'.memory = m.memory
  sent : m'.console.sent = m.console.sent
  history : m'.history = m.history
  input : m.console.host.Supplies s
  input' : m'.console.host.Supplies t

/-- The same event is noted by both. -/
theorem history_push {log log' : Array Event}
    (h : log'.toList.filter (· ≠ .inputExhausted) = log.toList.filter (· ≠ .inputExhausted))
    (e : Event) :
    (log'.push e).toList.filter (· ≠ .inputExhausted)
      = (log.push e).toList.filter (· ≠ .inputExhausted) := by
  rw [Array.toList_push, Array.toList_push, List.filter_append, List.filter_append, h]

/-- A byte that is read goes to its register; an end of input is noted, which is not history. -/
theorem carryOut_input_eq {a : IoAddress} {received : Received} {c : Console}
    (h : m.console.input a = (.ok received, c)) (r : Reg8) :
    ∃ log, m.carryOut (.input a r) = (.ok none, { m with
        console := c
        registers := m.registers.set8 r received.value
        log := log }) ∧
      log.toList.filter (· ≠ .inputExhausted) = m.history := by
  cases received with
  | byte b => exact ⟨m.log, by simp only [carryOut, h]; rfl, rfl⟩
  | exhausted =>
    refine ⟨m.log.push .inputExhausted, by simp only [carryOut, h], ?_⟩
    rw [Array.toList_push, List.filter_append]
    exact List.append_nil _

theorem carryOut_output_eq {a : IoAddress} {bytes : List UInt8}
    (h : (m.console.output a bytes).1 = .ok ()) :
    m.carryOut (.output a bytes)
      = (.ok none, { m with console := (m.console.output a bytes).2 }) := by
  rcases hc : m.console.output a bytes with ⟨r, c⟩
  rw [hc] at h
  obtain rfl := h
  simp only [carryOut, hc]

/-- A host that never fails lets every action be carried out. -/
theorem isOk_carryOut_of_supplies (h : m.console.host.Supplies s) (a : Action) :
    (m.carryOut a).1.isOk = true := by
  cases a with
  | commit c => rfl
  | note e => rfl
  | input a r =>
    obtain ⟨received, c, hinput, -⟩ := h.input a
    obtain ⟨log, hdone, -⟩ := carryOut_input_eq hinput r
    rw [hdone]
    rfl
  | output a bytes =>
    rw [carryOut_output_eq (h.output a bytes).1]
    rfl

/-- Where the host never fails, an instruction reads from the console if its action does. -/
theorem readsConsole_of_inside (h : m.console.host.Supplies s) (hm : m.status = .running)
    {i : Instruction} {n : Nat} (hd : m.decoded = (.ok i, n))
    (hin : m.Inside (i.access? m.registers)) :
    m.readsConsole = (m.intended i (m.eip + UInt32.ofNat n)).reads := by
  rw [readsConsole, completes_of_inside hm hd hin, isOk_carryOut_of_supplies h, Bool.true_and, hd,
    reads_intended (encodable_of_instructionAt hd)]

namespace ReadsAlike

variable (h : ReadsAlike s t m m')

include h

theorem fail (f : Fault) : ReadsAlike s t (m.fail f) (m'.fail f) where
  alike := h.alike.fail f
  memory := h.memory
  sent := h.sent
  history := by
    show ((m'.log.push (.faulted m'.eip f)).toList.filter _) = _
    rw [h.alike.eip]
    exact history_push h.history _
  input := h.input
  input' := h.input'

theorem complete (fetched : Fetched) (target : Option UInt32) :
    ReadsAlike s t (m.complete fetched target) (m'.complete fetched target) where
  alike := h.alike.complete fetched target
  memory := by rw [memory_complete, memory_complete, h.memory]
  sent := by rw [console_complete, console_complete, h.sent]
  history := by
    simp only [Machine.complete, h.alike.config, h.alike.steps, h.alike.eip, h.alike.flags]
    split
    · exact history_push (history_push h.history _) _
    · exact history_push h.history _
  input := by rw [console_complete]; exact h.input
  input' := by rw [console_complete]; exact h.input'

theorem commit (c : Change) : ReadsAlike s t (m.commit c) (m'.commit c) where
  alike := h.alike.commit c
  memory := by
    cases hs : c.store with
    | none => rw [memory_commit_of_no_store hs, memory_commit_of_no_store hs, h.memory]
    | some store => rw [memory_commit_of_store hs, memory_commit_of_store hs, h.memory]
  sent := by rw [console_commit, console_commit, h.sent]
  history := by
    show (m'.commit c).log.toList.filter _ = (m.commit c).log.toList.filter _
    rw [log_commit, log_commit]
    exact h.history
  input := by rw [console_commit]; exact h.input
  input' := by rw [console_commit]; exact h.input'

/-- **Reading alike.** An action has the same outcome in both machines, if the bytes are the same
that it reads. -/
theorem carryOut (a : Action) (hread : a.reads = true → s.headD 0 = t.headD 0) :
    ∃ target, (m.carryOut a).1 = .ok target ∧ (m'.carryOut a).1 = .ok target ∧
      ReadsAlike (s.drop a.reads.toNat) (t.drop a.reads.toNat)
        (m.carryOut a).2 (m'.carryOut a).2 := by
  cases a with
  | commit c => exact ⟨c.target, rfl, rfl, h.commit c⟩
  | note e =>
    exact ⟨none, rfl, rfl, { h with
      alike := { h.alike with }
      history := history_push h.history e }⟩
  | output a bytes =>
    -- neither host fails, and both have got the same bytes before
    obtain ⟨hok, hsent, hhost⟩ := h.input.output a bytes
    obtain ⟨hok', hsent', hhost'⟩ := h.input'.output a bytes
    rw [carryOut_output_eq hok, carryOut_output_eq hok']
    refine ⟨none, rfl, rfl, { h with
      alike := { h.alike with }, sent := ?_, input := hhost, input' := hhost' }⟩
    apply Array.toList_inj.1
    rw [hsent, hsent', h.sent]
  | input a r =>
    -- both hosts answer, each one from its own input
    obtain ⟨received, c, hinput, hvalue, hsent, hhost⟩ := h.input.input a
    obtain ⟨received', c', hinput', hvalue', hsent', hhost'⟩ := h.input'.input a
    obtain ⟨log, hdone, hlog⟩ := carryOut_input_eq hinput r
    obtain ⟨log', hdone', hlog'⟩ := carryOut_input_eq hinput' r
    -- what is read is the same, whether it comes from a host or not
    have hsame : received'.value = received.value := by
      rw [hvalue, hvalue']
      split
      · next ha => exact (hread (beq_iff_eq.2 ha)).symm
      · rfl
    rw [hdone, hdone', hsame]
    refine ⟨none, rfl, rfl, ?_⟩
    exact {
      alike := { h.alike with registers := by rw [h.alike.registers] }
      memory := h.memory
      sent := hsent'.trans (h.sent.trans hsent.symm)
      history := hlog'.trans (h.history.trans hlog.symm)
      input := hhost
      input' := hhost' }

theorem decoded_eq : m'.decoded = m.decoded := by
  rw [decoded, h.memory, h.alike.eip, decoded]

theorem inside {access : Option (UInt32 × Nat)} (hin : m.Inside access) : m'.Inside access := by
  unfold Inside
  rw [h.memory]
  exact hin

/-- The step of an instruction that can be carried out. -/
theorem perform (fetched : Fetched) (a : Action) (hread : a.reads = true → s.headD 0 = t.headD 0) :
    ReadsAlike (s.drop a.reads.toNat) (t.drop a.reads.toNat)
      (m.perform fetched a) (m'.perform fetched a) := by
  obtain ⟨target, hok, hok', hdone⟩ := h.carryOut a hread
  rw [perform_of_ok hok, perform_of_ok hok']
  exact hdone.complete fetched target

/-- **Lock-step.** A step keeps the two machines reading alike. If it reads from the console, the
two inputs have to begin with the same byte. -/
theorem step (hread : m.readsConsole = true → s.headD 0 = t.headD 0) :
    ReadsAlike (s.drop m.readsConsole.toNat) (t.drop m.readsConsole.toNat) m.step m'.step := by
  by_cases hm : m.status = .running
  · have hm' : m'.status = .running := h.alike.status.trans hm
    -- a step that faults reads nothing
    have hfail : ∀ f, m.step = m.fail f → m'.step = m'.fail f →
        ReadsAlike (s.drop m.readsConsole.toNat) (t.drop m.readsConsole.toNat) m.step m'.step := by
      intro f hs hs'
      have hno : m.completes = false := completes_of_faulted (congrArg Machine.status hs)
      rw [readsConsole_of_not_completes hno, hs, hs']
      exact h.fail f
    have hstep := encounter hm
    generalize hs : m.step = m₁ at hstep
    cases hstep with
    | nothing hle =>
      have hle' : m'.memory.size ≤ m'.eip.toNat := by rwa [h.memory, h.alike.eip]
      refine hs ▸ hfail _ hs ?_
      rw [step_of_size_le hm' hle', h.memory, h.alike.eip]
    | undecodable hlt hd =>
      have hlt' : m'.eip.toNat < m'.memory.size := by rwa [h.memory, h.alike.eip]
      refine hs ▸ hfail _ hs ?_
      rw [step_of_decoded_error hm' hlt' (h.decoded_eq.trans hd), h.memory, h.alike.eip]
    | outside hd ha hout =>
      rw [← h.alike.registers] at ha
      rw [← h.memory] at hout
      refine hs ▸ hfail _ hs ?_
      rw [step_of_outside hm' (h.decoded_eq.trans hd) ha hout, h.memory]
    | @instruction i n hd hi hin =>
      have hin' : m'.Inside (i.access? m'.registers) := by
        rw [h.alike.registers]
        exact h.inside hin
      -- the same instruction asks for the same action, and it reads where the other one reads
      have hintended := intended_congr hi h.alike.registers h.alike.flags h.alike.eip
        (fun c _ => by rw [h.memory]) (m.eip + UInt32.ofNat n)
      have hreads := readsConsole_of_inside h.input hm hd hin
      rw [hreads] at hread ⊢
      rw [step_of_inside hm' (h.decoded_eq.trans hd) hin', h.memory, h.alike.eip, hintended]
      exact h.perform _ _ hread
  · rw [step_of_halted hm, step_of_halted (h.alike.status ▸ hm),
      readsConsole_of_not_completes (completes_of_halted hm)]
    exact h

/-- **Runs.** If the two inputs are the same as far as they are read, a run keeps the two machines
reading alike. -/
theorem run {n : Nat} (hsame : ∀ k < m.consoleReads n, s.getD k 0 = t.getD k 0) :
    ReadsAlike (s.drop (m.consoleReads n)) (t.drop (m.consoleReads n)) (m.run n) (m'.run n) := by
  induction n with
  | zero => exact h
  | succ n ih =>
    have hcount := m.consoleReads_succ n
    have hbefore := ih fun k hk => hsame k (hcount ▸ Nat.lt_add_right _ hk)
    have hread : (m.run n).readsConsole = true →
        (s.drop (m.consoleReads n)).headD 0 = (t.drop (m.consoleReads n)).headD 0 := by
      -- the next byte is the first one that has not been read before
      intro hr
      have hlt : m.consoleReads n < m.consoleReads (n + 1) := by
        rw [hcount, hr]
        exact Nat.lt_succ_self _
      simpa only [List.headD_eq_head?_getD, List.head?_drop, List.getD_eq_getElem?_getD]
        using hsame _ hlt
    have hstep := hbefore.step hread
    rwa [List.drop_drop, List.drop_drop, ← hcount, ← run_succ_eq_step, ← run_succ_eq_step] at hstep

end ReadsAlike

/-! ### Programs on two hosts -/

/-- An image can be loaded on the one host if it can be on the other, and then the two machines read
alike. -/
theorem readsAlike_of_load {config : Config} {host host' : Host} (hs : host.Supplies s)
    (ht : host'.Supplies t) {image : List UInt8} (hload : (boot config host).load image = .ok m) :
    ∃ m', (boot config host').load image = .ok m' ∧ ReadsAlike s t m m' := by
  obtain ⟨hfits, rfl⟩ := eq_of_load hload
  refine ⟨{ boot config host' with
    memory := (boot config host).memory.store config.origin.toNat image }, ?_,
    ⟨⟨rfl, rfl, rfl, rfl, rfl, rfl⟩, rfl, rfl, rfl, hs, ht⟩⟩
  have hfits' : (boot config host').memory.Fits (boot config host').config.origin image.length :=
    hfits
  simp only [load, Memory.place, hfits', if_true]
  rfl

/-- **The guest sees its input as a stream.** Let an image be loaded and run on two hosts that never
fail, and let their inputs, each followed by zeros, be the same as far as the one machine has read.
Then the two machines have the same registers, memory and flags, are at the same place, have done
the same, and have sent the same; only ends of input are noted in one and not in the other. Of their
inputs just what has been read is gone. -/
theorem input_as_stream {config : Config} {host host' : Host} (hs : host.Supplies s)
    (ht : host'.Supplies t) {image : List UInt8} (hload : (boot config host).load image = .ok m) :
    ∃ m', (boot config host').load image = .ok m' ∧
      ∀ n, (∀ k < m.consoleReads n, s.getD k 0 = t.getD k 0) →
        let r := m.run n
        let r' := m'.run n
        r'.registers = r.registers ∧ r'.memory = r.memory ∧ r'.flags = r.flags ∧ r'.eip = r.eip ∧
        r'.status = r.status ∧ r'.steps = r.steps ∧ r'.console.sent = r.console.sent ∧
        r'.history = r.history ∧ r.console.host.Supplies (s.drop (m.consoleReads n)) ∧
        r'.console.host.Supplies (t.drop (m.consoleReads n)) := by
  obtain ⟨m', hload', h⟩ := readsAlike_of_load hs ht hload
  refine ⟨m', hload', fun n hsame => ?_⟩
  have hn := h.run hsame
  exact ⟨hn.alike.registers, hn.memory, hn.alike.flags, hn.alike.eip, hn.alike.status,
    hn.alike.steps, hn.sent, hn.history, hn.input, hn.input'⟩

/-- A guest that writes what it reads. One byte of input and its end are written like two bytes of
which the second is zero and which come one by one, with interruptions; a third one is not read in
six steps. -/
theorem input_as_stream_echo :
    let image : List UInt8 := [0xba, 0xf8, 0x03, 0, 0, 0xec, 0xee, 0xeb, 0xfc]
    let short : Host := .ofInput [0x41]
    let long : Host := {
      reads := [.failure ⟨.interrupted, "again"⟩, .data [0x41], .data [0, 0x42]]
      writes := [.failure ⟨.interrupted, "again"⟩, .accepted] }
    let m : Machine := { boot ⟨16, 0, true⟩ short with memory := (Memory.ofSize 16).store 0 image }
    short.Supplies [0x41] ∧ long.Supplies [0x41, 0, 0x42] ∧
    (boot ⟨16, 0, true⟩ short).load image = .ok m ∧ m.consoleReads 6 = 2 ∧
    ∃ m', (boot ⟨16, 0, true⟩ long).load image = .ok m' ∧
      (m'.run 6).console.sent.toList = [0x41, 0] ∧ (m'.run 6).registers = (m.run 6).registers ∧
      (m'.run 6).console.host.Supplies [0x42] := by
  intro image short long m
  have hs : short.Supplies [0x41] := Host.supplies_ofInput _
  have ht : long.Supplies [0x41, 0, 0x42] := ⟨rfl, by simp [long, WriteEvent.Accepts], nofun, rfl⟩
  have hload : (boot ⟨16, 0, true⟩ short).load image = .ok m := rfl
  have hreads : m.consoleReads 6 = 2 := by decide +kernel
  have hsent : (m.run 6).console.sent.toList = [0x41, 0] := by decide +kernel
  obtain ⟨m', hload', hrun⟩ := input_as_stream hs ht hload
  obtain ⟨hregs, -, -, -, -, -, hout, -, -, hleft⟩ := hrun 6 (by rw [hreads]; decide)
  rw [hreads] at hleft
  exact ⟨hs, ht, hload, hreads, m', hload', by rw [hout, hsent], hregs, hleft⟩

end Machine

end Boot386
