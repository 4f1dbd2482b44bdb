import Boot386.CommandLine
import Boot386.Proofs.Machine.Dump
import Boot386.Proofs.Machine.Output
import Boot386.Proofs.Program.Basic

/-!
# Reports of the command line

Standard output is a host that takes every byte or none (`Host.Prints`), and it stays so while a
guest runs (`prints_run`). So it is known before what comes of the bytes that a guest writes:

* a sound output takes all that the steps have to write (`sent_run_of_prints_none`), and the program
  adds the closing line and the register dump (`CommandLine.report_of_run`);
* a defective one takes nothing, and the first step that has anything to write faults
  (`run_of_prints_some`). Then the program complains about the dump, but if the guest ends without
  having written anything, the closing line comes before the dump, and the program panics
  (`CommandLine.report_of_defect`).
-/

namespace Boot386

/-! ### Standard output as a host -/

/-- The writes of the host are those of standard output: all of them fail for the reason that
is given, and none fails if there is none. -/
structure Host.Prints (h : Host) (defect : Option String) : Prop where
  writes : h.writes = []
  flushes : h.flushes = []
  defect : h.defect = defect

namespace Console

variable {c : Console} {defect : Option String} {reason : String}

theorem prints_send (h : c.host.Prints defect) (b : UInt8) : (c.send b).2.host.Prints defect := by
  obtain ⟨-, hwrites, hflushes, hdefect⟩ := c.host_send b
  rw [h.writes] at hwrites
  rw [h.flushes] at hflushes
  exact ⟨List.suffix_nil.1 hwrites, List.suffix_nil.1 hflushes, hdefect.trans h.defect⟩

theorem prints_sendAll (h : c.host.Prints defect) (bytes : List UInt8) :
    (c.sendAll bytes).2.host.Prints defect := by
  induction bytes generalizing c with
  | nil => exact h
  | cons b bs ih =>
    have hfirst := prints_send h b
    by_cases hb : (c.send b).1 = .ok ()
    · rw [sendAll_cons_of_ok hb]
      exact ih hfirst
    · rw [sendAll_cons_of_error hb]
      exact hfirst

theorem prints_input (h : c.host.Prints defect) (a : IoAddress) :
    (c.input a).2.host.Prints defect := by
  unfold input
  split
  · exact ⟨h.writes, h.flushes, h.defect⟩
  · exact h

theorem prints_output (h : c.host.Prints defect) (a : IoAddress) (bytes : List UInt8) :
    (c.output a bytes).2.host.Prints defect := by
  unfold output
  split
  · exact prints_sendAll h bytes
  · exact h

/-- Standard output takes all bytes if nothing is wrong with it. -/
theorem sendAll_of_prints_none (h : c.host.Prints none) (bytes : List UInt8) :
    (c.sendAll bytes).1 = .ok () := by
  induction bytes generalizing c with
  | nil => rfl
  | cons b bs ih =>
    have hb : (c.send b).1 = .ok () := by
      rw [send, h.writes, h.flushes, h.defect]
      rfl
    rw [sendAll_cons_of_ok hb]
    exact ih (prints_send h b)

/-- A defective standard output does not take a single byte. -/
theorem sendAll_of_prints_some (h : c.host.Prints (some reason)) (bytes : List UInt8) :
    (c.sendAll bytes).2.sent = c.sent ∧
      (bytes ≠ [] → (c.sendAll bytes).1 = .error reason) := by
  cases bytes with
  | nil => exact ⟨rfl, fun hne => absurd rfl hne⟩
  | cons b bs =>
    have hsend : c.send b = (.error reason, { c with host.writes := [] }) := by
      rw [send, h.writes, h.defect]
      rfl
    have hb : (c.send b).1 ≠ .ok () := by
      rw [hsend]
      nofun
    rw [sendAll_cons_of_error hb, hsend]
    exact ⟨rfl, fun _ => rfl⟩

end Console

/-- An action that has something to write writes it to the console. -/
theorem Action.eq_output_of_emission {a : Action} (h : a.emission ≠ []) :
    a = .output Console.address a.emission := by
  cases a with
  | output a bytes =>
    by_cases ha : a = Console.address
    · rw [emission, if_pos ha, ha]
    · exact absurd (if_neg ha) h
  | _ => exact absurd rfl h

namespace Machine

variable {m : Machine} {defect : Option String} {reason : String}

/-! ### Steps that print -/

/-- A step that has something to write writes it to the console. -/
theorem step_of_emission (h : m.emission ≠ []) :
    m.status = .running ∧ ∃ fetched,
      m.prepare = .ok (fetched, .output Console.address m.emission) ∧
      m.step = m.perform fetched (.output Console.address m.emission) := by
  have hm : m.status = .running := by
    by_contra hno
    exact h (emission_of_halted hno)
  rcases hd : m.decoded with ⟨e | i, n⟩
  · exact absurd (emission_of_decoded_error hd) h
  · -- an instruction with something to write has no data access, so that it can be carried out
    have hi := encodable_of_instructionAt hd
    have hin : m.Inside (i.access? m.registers) := by
      by_contra hno
      obtain ⟨a, k, ha, -⟩ := exists_of_not_inside hno
      exact h ((emission_of_decoded hm hd).trans (emits_of_access ha))
    have hemission := (emission_of_decoded hm hd).trans
      (emission_intended hi (m.eip + UInt32.ofNat n)).symm
    rw [hemission] at h ⊢
    rw [← Action.eq_output_of_emission h]
    exact ⟨hm, _, prepare_of_inside hd hin, step_of_inside hm hd hin⟩

/-- A write that the host does not take is a console fault. -/
theorem carryOut_output_error {a : IoAddress} {bytes : List UInt8}
    (h : (m.console.output a bytes).1 = .error reason) :
    (m.carryOut (.output a bytes)).1 = .error (.console reason) := by
  rcases hc : m.console.output a bytes with ⟨r, c⟩
  rw [hc] at h
  obtain rfl := h
  simp only [carryOut, hc]

theorem prints_carryOut (h : m.console.host.Prints defect) (a : Action) :
    (m.carryOut a).2.console.host.Prints defect := by
  cases a with
  | commit c =>
    rw [carryOut, console_commit]
    exact h
  | note e => exact h
  | input a r =>
    rw [console_carryOut_input]
    exact Console.prints_input h a
  | output a bytes =>
    rw [console_carryOut_output]
    exact Console.prints_output h a bytes

theorem prints_step (h : m.console.host.Prints defect) :
    m.step.console.host.Prints defect := by
  by_cases hm : m.status = .running
  · have hstep := encounter hm
    generalize m.step = s at hstep ⊢
    -- a fault that is found before the action leaves the console alone
    cases hstep with
    | nothing hle => exact h
    | undecodable hlt hd => exact h
    | outside hd ha hout => exact h
    | instruction hd hi hin =>
      rw [console_perform]
      exact prints_carryOut h _
  · rwa [step_of_halted hm]

theorem prints_run (h : m.console.host.Prints defect) (n : Nat) :
    (m.run n).console.host.Prints defect := by
  induction n with
  | zero => exact h
  | succ n ih =>
    rw [run_succ_eq_step]
    exact prints_step ih

/-- A step has all that it has to write delivered if nothing is wrong with standard output. -/
theorem delivery_of_prints_none (h : m.console.host.Prints none) : m.delivery = m.emission := by
  refine m.delivery_spec.2.2.2 ?_
  by_cases hempty : m.emission = []
  · exact .inl hempty
  · obtain ⟨hm, fetched, hprepare, -⟩ := step_of_emission hempty
    refine .inr (.inl ?_)
    rw [completes_of_prepare hm hprepare, isOk_carryOut_output, Console.output_address]
    exact Console.sendAll_of_prints_none h _

/-- A defective standard output gets nothing of a step, which faults if it has anything to write. -/
theorem step_of_prints_some (h : m.console.host.Prints (some reason)) :
    m.step.console.sent = m.console.sent ∧
      (m.emission ≠ [] → m.step.status = .faulted (.console reason)) := by
  by_cases hempty : m.emission = []
  · -- reads may change the host, but they send nothing
    refine ⟨?_, absurd hempty⟩
    have hspec := m.delivery_spec
    rw [hempty, List.prefix_nil] at hspec
    obtain ⟨hnone, hsent, -⟩ := hspec
    rw [hnone, List.append_nil] at hsent
    exact Array.toList_inj.1 hsent
  · -- the host takes none of the bytes
    obtain ⟨-, fetched, -, hstep⟩ := step_of_emission hempty
    obtain ⟨hsent, hfail⟩ := Console.sendAll_of_prints_some h m.emission
    rw [← Console.output_address] at hsent hfail
    refine ⟨?_, fun _ => ?_⟩
    · rw [hstep, console_perform, console_carryOut_output, hsent]
    · rw [hstep, perform_of_error (carryOut_output_error (hfail hempty)), status_fail]

/-- What a sound standard output has received after a run is what the steps have had to write, in
their order. -/
theorem sent_run_of_prints_none (h : m.console.host.Prints none) (n : Nat) :
    (m.run n).console.sent.toList
      = m.console.sent.toList ++ (List.range n).flatMap fun j => (m.run j).emission := by
  rw [sent_run]
  exact congrArg (m.console.sent.toList ++ ·)
    (List.flatMap_congr fun j _ => delivery_of_prints_none (prints_run h j))

/-- A defective standard output receives nothing in a run, and a guest that has anything to write
has faulted when it halts. -/
theorem run_of_prints_some (h : m.console.host.Prints (some reason)) (n : Nat) :
    (m.run n).console.sent = m.console.sent ∧
      ((m.run n).status ≠ .running → ∀ j, (m.run j).emission ≠ [] →
        (m.run n).status = .faulted (.console reason)) := by
  refine ⟨?_, fun hhalted j hj => ?_⟩
  · induction n with
    | zero => rfl
    | succ n ih =>
      rw [run_succ_eq_step, (step_of_prints_some (prints_run h n)).1, ih]
  · have hfault := (step_of_prints_some (prints_run h j)).2 hj
    rw [← run_succ_eq_step] at hfault
    obtain hlt | hle := Nat.lt_or_ge j n
    · rwa [run_eq_of_le hlt (by simp [hfault])]
    · -- the machine still runs where it has something to write
      have hrun := (step_of_emission hj).1
      rw [run_eq_of_le hle hhalted] at hrun
      exact absurd hrun hhalted

/-- An image that is longer than the memory behind the origin is not loaded. -/
theorem load_of_lt {host : Host} {image : List UInt8} (h : 1048576 - 31744 < image.length) :
    (boot {} host).load image = .error (.imageTooLarge 0x7c00 image.length 1048576) := by
  have horigin : (boot {} host).config.origin.toNat = 31744 := rfl
  have hsize : (boot {} host).memory.size = 1048576 := Memory.size_ofSize _
  have hfits : ¬ (boot {} host).memory.Fits (boot {} host).config.origin image.length := by
    rw [Memory.Fits, horigin, hsize]
    omega
  simp only [load, Memory.place, if_neg hfits, hsize]
  rfl

end Machine

namespace CommandLine

variable {i : Invocation} {m : Machine} {path reason : String} {rest : List String}
  {image : List UInt8}

/-! ### Reports -/

/-- Arguments behind the first make no difference. -/
theorem start_cons (path : String) (rest rest' : List String)
    (file : Except String (List UInt8)) (host : Host) :
    start (path :: rest) file host = start (path :: rest') file host := by
  cases file <;> rfl

theorem run_of_load (hargs : i.arguments = path :: rest) (hfile : i.file = .ok image)
    (hload : (Machine.boot {} i.host).load image = .ok m) (limit : Nat) :
    run i limit
      = if (m.run limit).status = .running then none
        else some (finish (m.run limit) i.stdoutDefect i.runtime) := by
  simp only [run, start, hargs, hfile, hload]

/-- The console of a guest that is about to begin. -/
theorem console_of_load (hload : (Machine.boot {} i.host).load image = .ok m) :
    m.console.host.Prints i.stdoutDefect ∧ m.console.sent = #[] := by
  obtain ⟨-, rfl⟩ := Machine.eq_of_load hload
  exact ⟨⟨rfl, rfl, rfl⟩, rfl⟩

/-- A guest that is started has ended or faulted when it halts. -/
theorem status_of_halted (hload : (Machine.boot {} i.host).load image = .ok m) {limit : Nat}
    (hhalted : (m.run limit).status ≠ .running) :
    (m.run limit).status = .ended ∨ ∃ f, (m.run limit).status = .faulted f := by
  have hm : m.status ≠ .stuck := by
    obtain ⟨-, rfl⟩ := Machine.eq_of_load hload
    nofun
  have hstuck := Machine.status_run_ne_stuck hm limit
  cases hs : (m.run limit).status with
  | running => exact absurd hs hhalted
  | ended => exact .inl rfl
  | faulted f => exact .inr ⟨f, rfl⟩
  | stuck => exact absurd hs hstuck

/-- The exit code tells how the guest has halted. -/
theorem exitCode_eq_iff (h : m.status = .ended ∨ ∃ f, m.status = .faulted f) :
    (exitCode m = 0 ↔ m.status = .ended) ∧ (exitCode m = 1 ↔ ∃ f, m.status = .faulted f) := by
  obtain hended | ⟨f, hfault⟩ := h
  · simp [exitCode, hended]
  · simp [exitCode, hfault]

/-- Without an image that can be loaded nothing is run. -/
theorem run_of_refused
    (h : i.arguments = [] ∨ (∃ reason, i.file = .error reason) ∨
      ∃ image, i.file = .ok image ∧ 1048576 - 31744 < image.length) :
    ∃ e : LogEntry, e.level = .error ∧ e.target = "sim386" ∧
      ∀ limit, run i limit = some ⟨.code 2, [], [e]⟩ := by
  -- whether there is an argument is looked at before the file is
  cases hargs : i.arguments with
  | nil => exact ⟨usage, rfl, rfl, fun limit => by simp only [run, start, hargs]; rfl⟩
  | cons path rest =>
    obtain hnone | ⟨reason, hfile⟩ | ⟨image, hfile, hlong⟩ := h
    · rw [hargs] at hnone
      cases hnone
    · exact ⟨unreadable path reason, rfl, rfl, fun limit => by
        simp only [run, start, hargs, hfile]
        rfl⟩
    · exact ⟨complaint (Fault.imageTooLarge 0x7c00 image.length 1048576).message [], rfl, rfl,
        fun limit => by
          simp only [run, start, hargs, hfile, Machine.load_of_lt hlong]
          rfl⟩

/-- A guest that prints nothing: `push 0` and `ret`. -/
def quiet : List UInt8 := [0x6a, 0, 0xc3]

theorem run_quiet (host : Host) :
    ∃ m, (Machine.boot {} host).load quiet = .ok m ∧ (m.run 2).status = .ended ∧
      (m.run 2).eip = 0 ∧ (m.run 2).registers = { esp := 0x7c00 } ∧
      (m.run 2).console = { host := host } := by
  obtain ⟨m, hload, h⟩ := Program.executes_load (by decide : quiet.length ≤ 1016832) host
  obtain ⟨hended, heip, hregs, hconsole, -⟩ := h.exit ⟨_, rfl⟩ ⟨[], rfl⟩ rfl
  exact ⟨m, hload, hended, heip, hregs, hconsole⟩

/-- **The report of a run.** Let standard output take everything. Without an argument, or with an
image that cannot be read or is longer than the memory behind the origin, the program exits with
code 2, whatever the number of instructions that it might have run, and it prints nothing.

Otherwise the guest is started. When it halts, the program has printed what the steps of the guest
have had to write, in their order, then the closing line if the guest has ended by itself, and then
the nine lines of the register dump. It exits with code 0 if and only if the guest has ended by
itself, and with code 1 if and only if it has faulted.

Arguments behind the first make no difference. -/
theorem report_of_run (i : Invocation) (hout : i.stdoutDefect = none) :
    ((i.arguments = [] ∨ (∃ reason, i.file = .error reason) ∨
        ∃ image, i.file = .ok image ∧ 1048576 - 31744 < image.length) →
      ∃ e : LogEntry, e.level = .error ∧ e.target = "sim386" ∧
        ∀ limit, run i limit = some ⟨.code 2, [], [e]⟩) ∧
    (∀ image, i.arguments ≠ [] → i.file = .ok image → image.length ≤ 1048576 - 31744 →
      ∃ m, (Machine.boot {} i.host).load image = .ok m ∧ ∀ limit,
        let final := m.run limit
        let guest := (List.range limit).flatMap fun j => (m.run j).emission
        (final.status = .running → run i limit = none) ∧
        (final.status ≠ .running → ∃ exit,
          run i limit = some ⟨.code exit, guest ++
            (if final.status = .ended then Ascii.bytes "End of program.\n" else []) ++
            Ascii.bytes final.dump, logOf final⟩ ∧
          (exit = 0 ↔ final.status = .ended) ∧
          (exit = 1 ↔ ∃ f, final.status = .faulted f)) ∧
        final.console.sent.toList = guest ∧
        final.dump = String.join (final.dumpLines.map (· ++ "\n")) ∧
        final.dumpLines.length = 9 ∧ ∀ line ∈ final.dumpLines, '\n' ∉ line.toList) ∧
    ∀ path rest rest' limit, i.arguments = path :: rest →
      run { i with arguments := path :: rest' } limit = run i limit := by
  refine ⟨run_of_refused, fun image hargs hfile hlen => ?_, fun path rest rest' limit hargs => ?_⟩
  · -- the guest is started, and standard output has taken what its steps have had to write
    obtain ⟨path, rest, hargs⟩ := List.exists_cons_of_ne_nil hargs
    obtain ⟨m, hload, -⟩ := Program.executes_load hlen i.host
    refine ⟨m, hload, fun limit => ?_⟩
    intro final guest
    obtain ⟨hprints, hempty⟩ := console_of_load hload
    rw [hout] at hprints
    have hsent : final.console.sent.toList = guest := by
      rw [Machine.sent_run_of_prints_none hprints, hempty]
      rfl
    have hrun := run_of_load hargs hfile hload limit
    refine ⟨fun hrunning => hrun.trans (if_pos hrunning), fun hhalted => ?_, hsent,
      final.dump_eq_join⟩
    refine ⟨exitCode final, ?_, ?_⟩
    · -- the guest is no longer running, so that the rest is printed behind its output
      rw [hrun, if_neg hhalted, hout, finish, epilogue, Ascii.bytes_append, ← List.append_assoc,
        hsent, apply_ite Ascii.bytes]
      rfl
    · exact exitCode_eq_iff (status_of_halted hload hhalted)
  · -- the arguments behind the first one are not looked at
    simp only [run, hargs]
    rw [start_cons path rest rest']
    rfl

/-- A guest that prints nothing and leaves, and an image that is a byte too long. -/
theorem report_of_run_quiet :
    let i : Invocation := { arguments := ["quiet.bin", "--trace"], file := .ok quiet, stdin := [] }
    let long : Invocation :=
      { arguments := ["long.bin"], file := .ok (List.replicate 1016833 0), stdin := [] }
    let dump :=
      "EAX = 00000000\nECX = 00000000\nEDX = 00000000\nEBX = 00000000\nESP = 00007c00\n" ++
      "EBP = 00000000\nESI = 00000000\nEDI = 00000000\nEIP = 00000000\n"
    i.stdoutDefect = none ∧ long.stdoutDefect = none ∧
    (∃ log, run i 2
      = some ⟨.code 0, Ascii.bytes "End of program.\n" ++ Ascii.bytes dump, log⟩) ∧
    ∃ e, run long 0 = some ⟨.code 2, [], [e]⟩ := by
  intro i long dump
  refine ⟨rfl, rfl, ?_, ?_⟩
  · obtain ⟨m, hload, hended, heip, hregs, hconsole⟩ := run_quiet i.host
    obtain ⟨m', hload', hreport⟩ := (report_of_run i rfl).2.1 quiet nofun rfl (by decide)
    -- the image has been loaded twice, into one machine
    obtain rfl : m' = m := Except.ok.inj (hload'.symm.trans hload)
    obtain ⟨-, hhalted, hsent, -⟩ := hreport 2
    obtain ⟨exit, hrun, hexit, -⟩ := hhalted (by simp [hended])
    obtain rfl := hexit.2 hended
    -- at the end there is nothing in the registers but the stack pointer
    have hdump : (m'.run 2).dump = dump := by
      rw [Machine.dump, hregs, heip]
      decide +kernel
    rw [← hsent, hconsole, if_pos hended, hdump] at hrun
    exact ⟨_, hrun⟩
  · -- an image of 1016833 bytes is refused
    obtain ⟨e, -, -, hrun⟩ := (report_of_run long rfl).1
      (.inr (.inr ⟨_, rfl, by rw [List.length_replicate]; decide⟩))
    exact ⟨e, hrun 0⟩

/-! ### Reports without output -/

/-- A complaint about the dump is shown if nothing else is asked for. -/
theorem mem_stderr_of_undumped {r : Report} (h : undumped reason ∈ r.log) :
    "ERROR sim386: failed to write the register dump: " ++ reason
      ∈ r.stderr defaultVerbosity := by
  refine List.mem_append_left _
    (List.mem_map.2 ⟨undumped reason, List.mem_filter.2 ⟨h, rfl⟩, ?_⟩)
  rw [← String.toList_inj]
  simp [LogEntry.line, undumped, complaint, Level.name]

/-- What a program that has faulted leaves behind if nothing can be printed. -/
theorem finish_of_faulted {runtime : Runtime} {f : Fault} (hf : m.status = .faulted f) :
    finish m (some reason) runtime
      = ⟨.code 1, m.console.sent.toList, logOf m ++ [undumped reason]⟩ := by
  have hended : m.status ≠ .ended := by simp [hf]
  rw [finish, if_neg hended]

/-- What a program leaves behind whose closing line cannot be printed. -/
theorem finish_of_ended {runtime : Runtime} (hended : m.status = .ended) :
    finish m (some reason) runtime
      = ⟨.panicked (runtime.report (unprinted reason)), m.console.sent.toList, logOf m⟩ := by
  rw [finish, if_pos hended]

/-- **The report of a run whose output fails.** Let an image be loaded, and let every write to
standard output fail for the same reason. When the guest halts, nothing has been printed, and a
guest that has had anything to print has faulted for this reason.

If the guest has faulted, for whatever reason, then the program complains that the dump cannot be
printed and exits with code 1. If it has ended by itself, then the closing line comes first, and the
program panics: it exits with code 101 and adds nothing to its log, and behind the log there is the
report of the panic, with the place and the reason. -/
theorem report_of_defect (hout : i.stdoutDefect = some reason) (hargs : i.arguments = path :: rest)
    (hfile : i.file = .ok image) (hload : (Machine.boot {} i.host).load image = .ok m) {limit : Nat}
    (hhalted : (m.run limit).status ≠ .running) :
    ∃ r, run i limit = some r ∧ r.stdout = [] ∧
      ((∃ j, (m.run j).emission ≠ []) → (m.run limit).status = .faulted (.console reason)) ∧
      ((∃ f, (m.run limit).status = .faulted f) ∧ r.exit = .code 1 ∧
          r.log = logOf (m.run limit) ++ [undumped reason] ∧
          "ERROR sim386: failed to write the register dump: " ++ reason
            ∈ r.stderr defaultVerbosity ∨
        (m.run limit).status = .ended ∧ r.exit.status = 101 ∧ r.log = logOf (m.run limit) ∧
          ∀ v, r.stderr v = r.lines v ++
            ["", "thread 'main' (" ++ Numeral.decimal i.runtime.thread ++ ") panicked at "
              ++ i.runtime.place ++ ":", "failed printing to stdout: " ++ reason] ++
            i.runtime.backtrace) := by
  obtain ⟨hprints, hempty⟩ := console_of_load hload
  rw [hout] at hprints
  obtain ⟨hsent, hfault⟩ := Machine.run_of_prints_some hprints limit
  have hstdout : (m.run limit).console.sent.toList = [] := by rw [hsent, hempty]
  have hrun : run i limit = some (finish (m.run limit) (some reason) i.runtime) := by
    rw [run_of_load hargs hfile hload, if_neg hhalted, hout]
  refine ⟨_, hrun, ?_, fun ⟨j, hj⟩ => hfault hhalted j hj, ?_⟩
  -- the standard output
  · rw [finish]
    split <;> exact hstdout
  -- how the program ends
  · obtain hended | ⟨f, hf⟩ := status_of_halted hload hhalted
    · rw [finish_of_ended hended]
      exact .inr ⟨hended, rfl, rfl, fun v => (List.append_assoc ..).symm⟩
    · have hlog : undumped reason ∈ logOf (m.run limit) ++ [undumped reason] :=
        List.mem_append_right _ (List.mem_singleton_self _)
      rw [finish_of_faulted hf]
      exact .inl ⟨⟨f, hf⟩, rfl, rfl, mem_stderr_of_undumped hlog⟩

/-- A guest that prints a character: `mov edx, 0x3f8` and `out dx, al`. With a full device for its
output it faults, and the program is left with code 1. -/
theorem report_of_defect_printing :
    let image : List UInt8 := [0xba, 0xf8, 0x03, 0, 0, 0xee]
    let i : Invocation :=
      { arguments := ["printing.bin"], file := .ok image, stdin := [],
        stdoutDefect := some deviceFull }
    ∃ m, i.stdoutDefect = some deviceFull ∧ i.arguments = ["printing.bin"] ∧ i.file = .ok image ∧
      (Machine.boot {} i.host).load image = .ok m ∧ (m.run 2).status ≠ .running ∧
      (m.run 2).status = .faulted (.console deviceFull) ∧
      ∃ r, run i 2 = some r ∧ r.stdout = [] ∧ r.exit = .code 1 ∧
        "ERROR sim386: failed to write the register dump: No space left on device (os error 28)"
          ∈ r.stderr defaultVerbosity := by
  intro image i
  obtain ⟨m, hload, h⟩ := Program.executes_load (by decide : image.length ≤ 1016832) i.host
  -- the first instruction makes the console the port, and the second one has a byte to write
  have hmov : (0xb8 + UInt8.ofNat Reg.edx.code.val) :: Word.toBytes 0x3f8 <+: image.drop 0 :=
    ⟨_, rfl⟩
  have hat : [0xee] <+: image.drop 5 := ⟨[], rfl⟩
  have hnext := h.mov hmov
  have hemission : m.step.emission = [0] := by
    rw [Machine.emission_of_decoded hnext.status (hnext.decoded Program.encodes_output hat),
      Machine.emits, Machine.port, hnext.registers]
    rfl
  -- which a full device does not take
  have hprints := Machine.prints_step (console_of_load hload).1
  have hfault : (m.run 2).status = .faulted (.console deviceFull) := by
    rw [Machine.run_two]
    exact (Machine.step_of_prints_some hprints).2 (by simp [hemission])
  have hhalted : (m.run 2).status ≠ .running := by simp [hfault]
  -- so the guest has not ended by itself, and the first case of the report applies
  obtain ⟨r, hrun, hstdout, -, ⟨-, hexit, -, hshown⟩ | ⟨hended, -⟩⟩ :=
    report_of_defect rfl rfl rfl hload hhalted
  · exact ⟨m, rfl, rfl, rfl, hload, hhalted, hfault, r, hrun, hstdout, hexit, hshown⟩
  · rw [hfault] at hended
    cases hended

/-- A guest that ends by itself, with a full device for its output. The program is not left with
code 1: it panics, and its log says nothing of the reason. -/
theorem closingLine_panics :
    let i : Invocation :=
      { arguments := ["quiet.bin"], file := .ok quiet, stdin := [],
        stdoutDefect := some deviceFull, runtime := { thread := 4, place := "print" } }
    ∃ m, (Machine.boot {} i.host).load quiet = .ok m ∧ (m.run 2).status = .ended ∧
      ∃ r, run i 2 = some r ∧ r.exit ≠ .code 1 ∧ r.exit.status = 101 ∧
        r.log = logOf (m.run 2) ∧
        r.exit.report = ["", "thread 'main' (4) panicked at print:",
          "failed printing to stdout: No space left on device (os error 28)"] := by
  intro i
  obtain ⟨m, hload, hended, -⟩ := run_quiet i.host
  have hhalted : (m.run 2).status ≠ .running := by simp [hended]
  -- what the runtime shows of it
  have hreport : i.runtime.report (unprinted deviceFull) =
      ["", "thread 'main' (4) panicked at print:",
        "failed printing to stdout: No space left on device (os error 28)"] := by decide +kernel
  refine ⟨m, hload, hended, finish (m.run 2) (some deviceFull) i.runtime, ?_, ?_⟩
  · rw [run_of_load rfl rfl hload, if_neg hhalted]
  · rw [finish_of_ended hended]
    exact ⟨nofun, rfl, rfl, hreport⟩

end CommandLine

end Boot386
