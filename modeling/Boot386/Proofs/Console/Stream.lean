import Boot386.Proofs.Console

/-!
# Bytes through the console

From the side of the guest the script of a host is two rows of bytes, those that are read and those
that are written.

* `Host.answers` lists what the reads of a script answer, one answer for each byte that is asked
  for. A read takes the first answer and leaves the others (`takeRead_eq_headD`,
  `answers_takeRead`), and behind the last one there are only ends of input.
* `Host.Supplies h input` says that the host has this input and never fails. What the guest reads is
  then the input, followed by zeros (`Supplies.receive`), and all that it writes is sent
  (`Supplies.sendAll`).
* Of bytes that are written one after the other, a host that fails has taken a first part
  (`delivers_sendAll`). It has taken all of them only if the failure is that of the last flush
  (`OnlyLastFlushFails`).
-/

namespace Boot386

/-! ### Reading -/

/-- What the reads of an event answer, one answer for each byte that is asked for. An interruption
is not seen by the guest. -/
def ReadEvent.answers : ReadEvent → List (Except String Received)
  | .data [] => [.ok .exhausted]
  | .data bytes => bytes.map fun b => .ok (.byte b)
  | .failure f =>
    match f.kind with
    | .interrupted => []
    | .endOfInput => [.ok .exhausted]
    | .other => [.error f.reason]

/-- The write is carried out, possibly after having been asked for again. -/
def WriteEvent.Accepts : WriteEvent → Prop
  | .accepted => True
  | .refused => False
  | .failure f => f.kind = .interrupted

namespace Host

/-- What the reads of a host answer, one answer for each byte that is asked for, up to the end of
the script. -/
def answers (h : Host) : List (Except String Received) :=
  h.reads.flatMap ReadEvent.answers

/-- A read takes the first answer; behind the script every read is an end of input. -/
theorem takeRead_eq_headD (events : List ReadEvent) :
    (takeRead events).1 = (events.flatMap ReadEvent.answers).headD (.ok .exhausted) := by
  fun_induction takeRead events with
  | case5 f events hkind ih =>
    -- an interruption has no answer of its own
    rw [ih, List.flatMap_cons, ReadEvent.answers, hkind]
    rfl
  | case6 f events hkind => simp [ReadEvent.answers, hkind]
  | case7 f events hkind => simp [ReadEvent.answers, hkind]
  | _ => rfl

/-- A read leaves the other answers. -/
theorem answers_takeRead (events : List ReadEvent) :
    (takeRead events).2.flatMap ReadEvent.answers
      = (events.flatMap ReadEvent.answers).tail := by
  fun_induction takeRead events with
  | case4 b bs events hne =>
    -- of a chunk with more bytes the others stay
    obtain ⟨b', bs', rfl⟩ := List.exists_cons_of_ne_nil hne
    rfl
  | case5 f events hkind ih =>
    rw [ih, List.flatMap_cons, ReadEvent.answers, hkind]
    rfl
  | case6 f events hkind => simp [ReadEvent.answers, hkind]
  | case7 f events hkind => simp [ReadEvent.answers, hkind]
  | _ => rfl

/-! ### Hosts that never fail -/

/-- The host has this input, and neither a read nor a write of it ever fails. -/
structure Supplies (h : Host) (input : List UInt8) : Prop where
  reads : h.answers.map (Except.map Received.value) = input.map .ok
  writes : ∀ e ∈ h.writes, e.Accepts
  flushes : ∀ e ∈ h.flushes, e = .done
  defect : h.defect = none

/-- The host that has some input in one piece. -/
theorem supplies_ofInput (input : List UInt8) : (ofInput input).Supplies input where
  reads := by
    cases input with
    | nil => rfl
    | cons b bs => simp [ofInput, answers, ReadEvent.answers, Except.map, Received.value]
  writes := nofun
  flushes := nofun
  defect := rfl

/-- A write that is accepted succeeds. -/
theorem takeWrite_of_accepts {events : List WriteEvent} (h : ∀ e ∈ events, e.Accepts) :
    (takeWrite none events).1 = .ok () := by
  fun_induction takeWrite none events with
  | case1 => rfl
  | case2 => rfl
  | case3 events => exact (h _ List.mem_cons_self).elim
  | case4 f events hkind ih => exact ih fun e he => h e (List.mem_cons_of_mem _ he)
  | case5 f events hkind => exact absurd (h _ List.mem_cons_self) hkind

theorem takeFlush_of_done {events : List FlushEvent} (h : ∀ e ∈ events, e = .done) :
    (takeFlush none events).1 = .ok () := by
  cases events with
  | nil => rfl
  | cons e events =>
    obtain rfl := h e List.mem_cons_self
    rfl

end Host

namespace Console

variable {c : Console}

/-! ### Sending -/

/-- What comes of sending a byte: the host does not take it, or it takes it and is asked to flush.
-/
theorem send_cases (c : Console) (b : UInt8) :
    ((Host.takeWrite c.host.defect c.host.writes).1 ≠ .ok () ∧
      (c.send b).1 = (Host.takeWrite c.host.defect c.host.writes).1 ∧
      (c.send b).2.sent = c.sent) ∨
    ((Host.takeWrite c.host.defect c.host.writes).1 = .ok () ∧
      (c.send b).1 = (Host.takeFlush c.host.defect c.host.flushes).1 ∧
      (c.send b).2.sent = c.sent.push b) := by
  unfold send
  rcases Host.takeWrite c.host.defect c.host.writes with ⟨reason | _, writes⟩
  · exact .inl ⟨by simp, rfl, rfl⟩
  · exact .inr ⟨rfl, rfl, rfl⟩

theorem sendAll_cons_of_ok {b : UInt8} (h : (c.send b).1 = .ok ()) (bs : List UInt8) :
    c.sendAll (b :: bs) = (c.send b).2.sendAll bs := by
  rw [sendAll]
  rcases hsend : c.send b with ⟨reason | _, c'⟩
  · rw [hsend] at h
    cases h
  · rfl

/-- Behind a byte that is not sent no other one is tried. -/
theorem sendAll_cons_of_error {b : UInt8} (h : (c.send b).1 ≠ .ok ()) (bs : List UInt8) :
    c.sendAll (b :: bs) = c.send b := by
  rw [sendAll]
  rcases hsend : c.send b with ⟨reason | _, c'⟩
  · rfl
  · rw [hsend] at h
    exact absurd rfl h

end Console

/-! ### Consoles whose hosts never fail -/

namespace Host.Supplies

open Console (address input_of_ne output_of_ne sendAll_cons_of_ok)

variable {c : Console} {s : List UInt8} (h : c.host.Supplies s)

include h

/-- **Input is a stream.** Where the host never fails, a read takes the next byte of the input, and
behind its end a zero. -/
theorem receive :
    ∃ received c', c.receive = (.ok received, c') ∧ received.value = s.headD 0 ∧
      c'.sent = c.sent ∧ c'.host.Supplies s.tail := by
  have hhead := Host.takeRead_eq_headD c.host.reads
  have htail := Host.answers_takeRead c.host.reads
  have hreads := h.reads
  unfold Host.answers at hreads
  generalize c.host.reads.flatMap ReadEvent.answers = answers at hhead htail hreads
  -- the answers are as many as there are bytes of input, and the first ones belong together
  have hfirst : ∃ received, answers.headD (.ok .exhausted) = .ok received ∧
      received.value = s.headD 0 := by
    match answers, s, hreads with
    | [], [], _ => exact ⟨.exhausted, rfl, rfl⟩
    | .ok received :: _, b :: _, hreads =>
      exact ⟨received, rfl, Except.ok.inj (List.cons.inj hreads).1⟩
    | .error _ :: _, b :: _, hreads => exact nomatch (List.cons.inj hreads).1
  obtain ⟨received, hanswer, hvalue⟩ := hfirst
  refine ⟨received, { c with host.reads := (Host.takeRead c.host.reads).2 }, ?_, hvalue, rfl,
    { h with reads := ?_ }⟩
  · rw [Console.receive, ← hanswer, ← hhead]
  · show ((Host.takeRead c.host.reads).2.flatMap ReadEvent.answers).map _ = _
    rw [htail, List.map_tail, hreads, List.map_tail]

theorem send (b : UInt8) :
    (c.send b).1 = .ok () ∧ (c.send b).2.sent = c.sent.push b ∧
      (c.send b).2.host.Supplies s := by
  obtain ⟨hreads, hwrites, hflushes, hdefect⟩ := c.host_send b
  have hwrite := Host.takeWrite_of_accepts h.writes
  have hflush := Host.takeFlush_of_done h.flushes
  have hcases := c.send_cases b
  rw [h.defect, hwrite, hflush] at hcases
  obtain ⟨hresult, hsent⟩ := (hcases.resolve_left fun hno => hno.1 rfl).2
  refine ⟨hresult, hsent, ?_, ?_, ?_, hdefect.trans h.defect⟩
  · rw [Host.answers, hreads]
    exact h.reads
  · exact fun e he => h.writes e (hwrites.subset he)
  · exact fun e he => h.flushes e (hflushes.subset he)

/-- **Output is a stream.** Where the host never fails, all bytes are sent, and none of the input is
taken. -/
theorem sendAll (bytes : List UInt8) :
    (c.sendAll bytes).1 = .ok () ∧ (c.sendAll bytes).2.sent.toList = c.sent.toList ++ bytes ∧
      (c.sendAll bytes).2.host.Supplies s := by
  induction bytes generalizing c with
  | nil => exact ⟨rfl, (List.append_nil _).symm, h⟩
  | cons b bs ih =>
    obtain ⟨hresult, hsent, hhost⟩ := h.send b
    obtain ⟨hresult', hsent', hhost'⟩ := ih hhost
    rw [sendAll_cons_of_ok hresult]
    refine ⟨hresult', ?_, hhost'⟩
    rw [hsent', hsent, Array.toList_push, List.append_assoc, List.singleton_append]

/-- Another address than that of the console takes none of the input. -/
theorem input (a : IoAddress) :
    ∃ received c', c.input a = (.ok received, c') ∧
      (received.value = if a = address then s.headD 0 else 0) ∧ c'.sent = c.sent ∧
      c'.host.Supplies (s.drop (a == address).toNat) := by
  by_cases ha : a = address
  · obtain ⟨received, c', hreceive, hvalue, hsent, hhost⟩ := h.receive
    refine ⟨received, c', ?_, ?_, hsent, ?_⟩
    · rw [Console.input, if_pos ha, hreceive]
    · rw [if_pos ha, hvalue]
    · rw [beq_iff_eq.2 ha]
      simpa using hhost
  · refine ⟨.byte 0, c, input_of_ne ha c, (if_neg ha).symm, rfl, ?_⟩
    rw [beq_eq_false_iff_ne.2 ha]
    exact h

theorem output (a : IoAddress) (bytes : List UInt8) :
    (c.output a bytes).1 = .ok () ∧
      (c.output a bytes).2.sent.toList
        = c.sent.toList ++ (if a = address then bytes else []) ∧
      (c.output a bytes).2.host.Supplies s := by
  by_cases ha : a = address
  · have houtput : c.output a bytes = c.sendAll bytes := if_pos ha
    rw [houtput, if_pos ha]
    exact h.sendAll bytes
  · rw [output_of_ne ha, if_neg ha, List.append_nil]
    exact ⟨rfl, rfl, h⟩

end Host.Supplies

namespace Console

variable {c : Console}

/-! ### Hosts that fail -/

/-- The host takes all of these bytes, and of the flushes only the one behind the last byte fails.
-/
def OnlyLastFlushFails (c : Console) : List UInt8 → Prop
  | [] => False
  | [_] => (Host.takeWrite c.host.defect c.host.writes).1 = .ok () ∧
      (Host.takeFlush c.host.defect c.host.flushes).1 ≠ .ok ()
  | b :: bs => (c.send b).1 = .ok () ∧ (c.send b).2.OnlyLastFlushFails bs

/-- Of bytes that are written the host has got a first part. It has got all of them if that is
`done`, and otherwise only if nothing but the last flush has failed. -/
def Delivers (c : Console) (bytes : List UInt8) (done : Prop) (c' : Console) : Prop :=
  ∃ taken, taken <+: bytes ∧ c'.sent.toList = c.sent.toList ++ taken ∧
    (taken = bytes ↔ bytes = [] ∨ done ∨ c.OnlyLastFlushFails bytes)

/-- Where there is nothing to write, nothing is. -/
theorem delivers_nil {c' : Console} (h : c'.sent = c.sent) (done : Prop) :
    c.Delivers [] done c' :=
  ⟨[], List.nil_prefix, by rw [h, List.append_nil], iff_of_true rfl (.inl rfl)⟩

/-- **What arrives.** Sending bytes delivers all of them if it does not fail, and otherwise a first
part of them. -/
theorem delivers_sendAll (c : Console) (bytes : List UInt8) :
    c.Delivers bytes ((c.sendAll bytes).1 = .ok ()) (c.sendAll bytes).2 := by
  induction bytes generalizing c with
  | nil => exact delivers_nil rfl _
  | cons b bs ih =>
    by_cases hb : (c.send b).1 = .ok ()
    · -- the byte has been taken, and what comes of the others decides
      obtain ⟨taken, hpart, hsent, hall⟩ := ih (c.send b).2
      have hfirst : (c.send b).2.sent = c.sent.push b := by
        obtain ⟨hno, hfail, -⟩ | ⟨-, -, hpush⟩ := c.send_cases b
        · exact absurd (hfail.symm.trans hb) hno
        · exact hpush
      rw [sendAll_cons_of_ok hb]
      refine ⟨b :: taken, List.cons_prefix_cons.2 ⟨rfl, hpart⟩, ?_, ?_⟩
      · rw [hsent, hfirst, Array.toList_push, List.append_assoc, List.singleton_append]
      · rw [List.cons.injEq, hall]
        cases bs with
        | nil => simp [sendAll]
        | cons b' bs => simp [OnlyLastFlushFails, hb]
    · rw [sendAll_cons_of_error hb]
      obtain ⟨hno, -, hsent⟩ | ⟨hyes, hflush, hsent⟩ := c.send_cases b
      · -- the byte has not been taken, nor has any behind it
        refine ⟨[], List.nil_prefix, by rw [hsent, List.append_nil], ?_⟩
        cases bs <;> simp [OnlyLastFlushFails, hno, hb]
      · -- the byte has been taken, but no other one is tried
        refine ⟨[b], List.cons_prefix_cons.2 ⟨rfl, List.nil_prefix⟩,
          by rw [hsent, Array.toList_push], ?_⟩
        rw [hflush] at hb
        cases bs <;> simp [OnlyLastFlushFails, hyes, hflush, hb]

end Console

end Boot386
