import Mathlib.Data.List.Infix
import Boot386.Machine.Command
import Boot386.Proofs.Console.Stream

/-!
# Exchanges with the console

Whatever the host does, the console loses no byte and repeats none. Calls of the console, one byte
each and at any I/O address, make an exchange (`Console.exchange`), and all of it can be told from
three rows of the script alone, what the host answers to reads, to writes and to flushes
(`Host.reading`, `Host.writing`, `Host.flushing`).

A call moves along these rows (`Host.Rest`): a read takes one answer, a write takes one, and a write
that the host carries out takes a flush besides. A call at another address takes nothing
(`call_of_ne`), and might as well be left out (`exchange_filter`).
-/

namespace Boot386

/-! ### Rows of answers -/

/-- What a write of one byte is answered by an event. An interruption is not seen by the guest. -/
def WriteEvent.answers : WriteEvent → List (Except String Unit)
  | .accepted => [.ok ()]
  | .refused => [.error "failed to write whole buffer"]
  | .failure f =>
    match f.kind with
    | .interrupted => []
    | _ => [.error f.reason]

/-- What a flush is answered by an event. An interruption is a failure like any other. -/
def FlushEvent.answer : FlushEvent → Except String Unit
  | .done => .ok ()
  | .failure f => .error f.reason

/-- The bytes of an event, with a zero for an end of input. -/
def ReadEvent.bytes : ReadEvent → List UInt8
  | .data [] => [0]
  | .data bytes => bytes
  | .failure f => if f.kind = .endOfInput then [0] else []

/-- The reason of an event that makes a read fail. -/
def ReadEvent.reason? : ReadEvent → Option String
  | .data _ => none
  | .failure f => if f.kind = .other then some f.reason else none

namespace Host

theorem takeWrite_eq_headD (defect : Option String) (events : List WriteEvent) :
    (takeWrite defect events).1
      = (events.flatMap WriteEvent.answers).headD (unscripted defect) := by
  fun_induction takeWrite defect events with
  | case4 f events hkind ih =>
    -- an interruption has no answer of its own
    rw [ih, List.flatMap_cons, WriteEvent.answers, hkind]
    rfl
  | case5 f events hkind =>
    cases hf : f.kind with
    | interrupted => exact absurd hf hkind
    | _ => simp [WriteEvent.answers, hf]
  | _ => rfl

theorem answers_takeWrite (defect : Option String) (events : List WriteEvent) :
    (takeWrite defect events).2.flatMap WriteEvent.answers
      = (events.flatMap WriteEvent.answers).tail := by
  fun_induction takeWrite defect events with
  | case4 f events hkind ih =>
    rw [ih, List.flatMap_cons, WriteEvent.answers, hkind]
    rfl
  | case5 f events hkind =>
    cases hf : f.kind with
    | interrupted => exact absurd hf hkind
    | _ => simp [WriteEvent.answers, hf]
  | _ => rfl

theorem takeFlush_eq_headD (defect : Option String) (events : List FlushEvent) :
    (takeFlush defect events).1 = (events.map FlushEvent.answer).headD (unscripted defect) := by
  unfold takeFlush
  split <;> rfl

theorem takeFlush_eq_tail (defect : Option String) (events : List FlushEvent) :
    (takeFlush defect events).2 = events.tail := by
  unfold takeFlush
  split <;> rfl

/-- The answer to a read behind `k` others. -/
def reading (h : Host) (k : Nat) : Except String Received :=
  h.answers.getD k (.ok .exhausted)

/-- The answer to a write behind `k` others. -/
def writing (h : Host) (k : Nat) : Except String Unit :=
  (h.writes.flatMap WriteEvent.answers).getD k (unscripted h.defect)

/-- The answer to a flush behind `k` others. -/
def flushing (h : Host) (k : Nat) : Except String Unit :=
  (h.flushes.map FlushEvent.answer).getD k (unscripted h.defect)

/-- How many of the first `k` writes the host carries out. Each of them is flushed. -/
def carried (h : Host) (k : Nat) : Nat :=
  (List.range k).countP fun j => h.writing j = .ok ()

/-- What comes of the write behind `k` others, with its flush. -/
def sending (h : Host) (k : Nat) : Except String Unit :=
  match h.writing k with
  | .error reason => .error reason
  | .ok () => h.flushing (h.carried k)

theorem carried_succ (h : Host) (k : Nat) :
    h.carried (k + 1) = h.carried k + if h.writing k = .ok () then 1 else 0 := by
  simp [carried, List.range_succ, List.countP_append, List.countP_singleton]

/-- The second host has what is left of the script of the first one behind `i` reads and `j`
writes. -/
structure Rest (h : Host) (i j : Nat) (h' : Host) : Prop where
  answers : h'.answers = h.answers.drop i
  writes : ∀ k, h'.writing k = h.writing (j + k)
  flushes : ∀ k, h'.flushing k = h.flushing (h.carried j + k)

namespace Rest

variable {h h' : Host} {i j : Nat}

theorem refl (h : Host) : h.Rest 0 0 h where
  answers := rfl
  writes k := by rw [Nat.zero_add]
  flushes k := by rw [carried, List.range_zero, List.countP_nil, Nat.zero_add]

theorem reading (r : h.Rest i j h') : h'.reading 0 = h.reading i := by
  simp only [Host.reading, r.answers, List.getD_eq_getElem?_getD, List.getElem?_drop,
    Nat.add_zero]

theorem writing (r : h.Rest i j h') : h'.writing 0 = h.writing j :=
  r.writes 0

end Rest

end Host

namespace Console

variable {c : Console}

/-! ### Single operations -/

theorem fst_receive (c : Console) : c.receive.1 = c.host.reading 0 := by
  have hhead : c.receive.1 = c.host.answers.headD (.ok .exhausted) :=
    Host.takeRead_eq_headD c.host.reads
  rw [hhead, Host.reading, List.headD_eq_getD]

theorem answers_receive (c : Console) : c.receive.2.host.answers = c.host.answers.tail :=
  Host.answers_takeRead c.host.reads

theorem fst_takeWrite (c : Console) :
    (Host.takeWrite c.host.defect c.host.writes).1 = c.host.writing 0 := by
  rw [Host.takeWrite_eq_headD, Host.writing, List.headD_eq_getD]

theorem fst_takeFlush (c : Console) :
    (Host.takeFlush c.host.defect c.host.flushes).1 = c.host.flushing 0 := by
  rw [Host.takeFlush_eq_headD, Host.flushing, List.headD_eq_getD]

theorem fst_send (c : Console) (b : UInt8) : (c.send b).1 = c.host.sending 0 := by
  obtain ⟨hno, hresult, -⟩ | ⟨hyes, hresult, -⟩ := c.send_cases b
  · rw [hresult, fst_takeWrite, Host.sending]
    rw [fst_takeWrite] at hno
    cases hw : c.host.writing 0 with
    | error reason => rfl
    | ok => exact absurd hw hno
  · rw [fst_takeWrite] at hyes
    rw [hresult, fst_takeFlush, Host.sending, hyes]
    rfl

/-- A byte is sent if the host carries out the write. -/
theorem sent_send_eq (c : Console) (b : UInt8) :
    (c.send b).2.sent = if c.host.writing 0 = .ok () then c.sent.push b else c.sent := by
  rw [← fst_takeWrite]
  obtain ⟨hno, -, hsent⟩ | ⟨hyes, -, hsent⟩ := c.send_cases b
  · rw [hsent, if_neg hno]
  · rw [hsent, if_pos hyes]

theorem writing_send (c : Console) (b : UInt8) (k : Nat) :
    (c.send b).2.host.writing k = c.host.writing (k + 1) := by
  have hleft : (c.send b).2.host.writes.flatMap WriteEvent.answers
      = (c.host.writes.flatMap WriteEvent.answers).tail := by
    rw [← Host.answers_takeWrite c.host.defect]
    unfold send
    rcases Host.takeWrite c.host.defect c.host.writes with ⟨reason | _, writes⟩ <;> rfl
  obtain ⟨-, -, -, hdefect⟩ := c.host_send b
  simp only [Host.writing, hleft, hdefect, List.getD_eq_getElem?_getD, List.getElem?_tail]

/-- Only a write that the host carries out takes a flush. -/
theorem flushing_send (c : Console) (b : UInt8) (k : Nat) :
    (c.send b).2.host.flushing k
      = if c.host.writing 0 = .ok () then c.host.flushing (k + 1) else c.host.flushing k := by
  obtain ⟨-, -, -, hdefect⟩ := c.host_send b
  rw [← fst_takeWrite]
  simp only [Host.flushing, hdefect]
  unfold send
  rcases Host.takeWrite c.host.defect c.host.writes with ⟨reason | _, writes⟩
  · rfl
  · simp [Host.takeFlush_eq_tail, List.getD_eq_getElem?_getD]

end Console

/-! ### Moving along the script -/

namespace Host.Rest

variable {h : Host} {i j : Nat} {c : Console} (r : h.Rest i j c.host)

include r

theorem sending : c.host.sending 0 = h.sending j := by
  simp only [Host.sending, r.writes, r.flushes, Host.carried, List.range_zero, List.countP_nil,
    Nat.add_zero]

/-- A read takes one answer. -/
theorem receive : h.Rest (i + 1) j c.receive.2.host where
  answers := by rw [Console.answers_receive, r.answers, List.tail_drop]
  writes := r.writes
  flushes := r.flushes

/-- A write takes one answer, and one of a flush if it is carried out. -/
theorem send (b : UInt8) : h.Rest i (j + 1) (c.send b).2.host where
  answers := by
    obtain ⟨hreads, -⟩ := c.host_send b
    rw [Host.answers, hreads]
    exact r.answers
  writes k := by rw [Console.writing_send, r.writes, Nat.add_assoc, Nat.add_comm 1]
  flushes k := by
    rw [Console.flushing_send, r.writing, Host.carried_succ]
    split
    · rw [r.flushes, Nat.add_assoc, Nat.add_comm 1]
    · rw [r.flushes, Nat.add_zero]

end Host.Rest

/-! ### Calls -/

/-- A call of the console, with one byte. -/
inductive Console.Call where
  | input (a : IoAddress)
  | output (a : IoAddress) (b : UInt8)
  deriving DecidableEq, Repr, Inhabited

namespace Outcome

/-- What a read tells. -/
def ofRead : Except String Received → Outcome
  | .ok received => .byte received.value
  | .error reason => .refused (.console reason)

/-- What a write tells. -/
def ofWrite : Except String Unit → Outcome
  | .ok () => .done
  | .error reason => .refused (.console reason)

/-- The byte that is told. -/
def byte? : Outcome → Option UInt8
  | .byte b => some b
  | _ => none

/-- The reason of the console for a refusal. -/
def reason? : Outcome → Option String
  | .refused (.console reason) => some reason
  | _ => none

end Outcome

namespace Console

namespace Call

def address : Call → IoAddress
  | input a => a
  | output a _ => a

/-- The call goes to the console. -/
def Connected (call : Call) : Prop := call.address = Console.address

instance (call : Call) : Decidable call.Connected :=
  inferInstanceAs (Decidable (_ = _))

/-- What a call tells at an address that is not connected. -/
def inert : Call → Outcome
  | input _ => .byte 0
  | output _ _ => .done

/-- The byte that the call sends to the console. -/
def sent? : Call → Option UInt8
  | input _ => none
  | output a b => if a = Console.address then some b else none

/-- The call reads from the console. -/
def Reads : Call → Prop
  | input a => a = Console.address
  | output _ _ => False

instance : DecidablePred Reads
  | input _ => inferInstanceAs (Decidable (_ = _))
  | output _ _ => instDecidableFalse

@[simp] theorem reads_input (a : IoAddress) : (input a).Reads ↔ a = Console.address := Iff.rfl

@[simp] theorem not_reads_output (a : IoAddress) (b : UInt8) : ¬ (output a b).Reads := id

@[simp] theorem sent?_input (a : IoAddress) : (input a).sent? = none := rfl

@[simp] theorem sent?_output (b : UInt8) : (output Console.address b).sent? = some b := rfl

end Call

/-- Carries out a call. -/
def call (c : Console) : Call → Outcome × Console
  | .input a => (.ofRead (c.input a).1, (c.input a).2)
  | .output a b => (.ofWrite (c.output a [b]).1, (c.output a [b]).2)

/-- The console after calls. -/
def after (c : Console) (calls : List Call) : Console :=
  calls.foldl (fun c call => (c.call call).2) c

/-- Calls with what each of them tells. -/
def exchange (c : Console) : List Call → List (Call × Outcome)
  | [] => []
  | call :: calls => (call, (c.call call).1) :: (c.call call).2.exchange calls

/-- What is told to the reads of an exchange. -/
def readOutcomes (exchange : List (Call × Outcome)) : List Outcome :=
  exchange.filterMap fun (call, outcome) => if call.Reads then some outcome else none

/-- What is told to the writes of an exchange. -/
def writeOutcomes (exchange : List (Call × Outcome)) : List Outcome :=
  exchange.filterMap fun (call, outcome) => call.sent?.map fun _ => outcome

variable {c : Console} {call : Call} {calls : List Call}

theorem call_of_not_connected (h : ¬ call.Connected) (c : Console) :
    c.call call = (call.inert, c) := by
  cases call with
  | input a =>
    have hinput : c.input a = (.ok (.byte 0), c) := input_of_ne h c
    rw [Console.call, hinput]
    rfl
  | output a b =>
    have houtput : c.output a [b] = (.ok (), c) := output_of_ne h c [b]
    rw [Console.call, houtput]
    rfl

/-- The call as a command to a machine. -/
def Call.command : Call → Command
  | .input a => .input a
  | .output a b => .output a b

/-- A machine passes such a command on to its console. -/
theorem apply_command (m : Machine) (call : Call) :
    ((m.apply call.command).1, (m.apply call.command).2.console) = m.console.call call := by
  cases call with
  | input a =>
    simp only [Call.command, Machine.apply, Machine.receive, Console.call]
    rcases m.console.input a with ⟨_ | _ | _, _⟩ <;> rfl
  | output a b =>
    simp only [Call.command, Machine.apply, Machine.transmit, Console.call]
    rcases m.console.output a [b] with ⟨_ | _, _⟩ <;> rfl

/-- A call goes elsewhere, or it reads, or it writes. -/
theorem call_cases (c : Console) (call : Call) :
    (¬ call.Connected ∧ c.call call = (call.inert, c)) ∨
    (call = .input address ∧ c.call call = (.ofRead c.receive.1, c.receive.2)) ∨
    ∃ b, call = .output address b ∧ c.call call = (.ofWrite (c.send b).1, (c.send b).2) := by
  by_cases h : call.Connected
  · cases call with
    | input a =>
      obtain rfl : a = address := h
      exact .inr (.inl ⟨rfl, rfl⟩)
    | output a b =>
      obtain rfl : a = address := h
      refine .inr (.inr ⟨b, rfl, ?_⟩)
      rw [Console.call, output, if_pos rfl, sendAll_singleton]
  · exact .inl ⟨h, call_of_not_connected h c⟩

theorem Call.not_reads_of_not_connected (h : ¬ call.Connected) : ¬ call.Reads := by
  cases call with
  | input a => exact h
  | output a b => exact id

theorem Call.sent?_of_not_connected (h : ¬ call.Connected) : call.sent? = none := by
  cases call with
  | input a => rfl
  | output a b => exact if_neg h

theorem after_concat (c : Console) (calls : List Call) (call : Call) :
    c.after (calls ++ [call]) = ((c.after calls).call call).2 := by
  simp [after]

theorem exchange_concat (c : Console) (calls : List Call) (call : Call) :
    c.exchange (calls ++ [call])
      = c.exchange calls ++ [(call, ((c.after calls).call call).1)] := by
  induction calls generalizing c with
  | nil => rfl
  | cons call' calls ih =>
    rw [List.cons_append, exchange, ih]
    rfl

/-- Calls that go elsewhere tell nothing of the host. -/
theorem inert_of_mem_exchange {p : Call × Outcome} (hp : p ∈ c.exchange calls)
    (h : ¬ p.1.Connected) : p.2 = p.1.inert := by
  induction calls generalizing c with
  | nil => cases hp
  | cons call calls ih =>
    obtain rfl | hp := List.mem_cons.1 hp
    · exact congrArg Prod.fst (call_of_not_connected h c)
    · exact ih hp

/-- Calls that go elsewhere might as well be left out. -/
theorem exchange_filter (c : Console) (calls : List Call) :
    c.exchange (calls.filter (·.Connected))
        = (c.exchange calls).filter (fun p => p.1.Connected) ∧
      c.after (calls.filter (·.Connected)) = c.after calls := by
  induction calls generalizing c with
  | nil => exact ⟨rfl, rfl⟩
  | cons call calls ih =>
    -- a call that goes elsewhere leaves the console to the rest as it is
    by_cases h : call.Connected
    · obtain ⟨hexchange, hafter⟩ := ih (c.call call).2
      simp only [List.filter_cons, exchange, h, decide_true, if_true, hexchange, true_and]
      exact hafter
    · obtain ⟨hexchange, hafter⟩ := ih c
      have hcall := call_of_not_connected h c
      simp only [List.filter_cons, exchange, h, decide_false, hcall, hexchange, true_and,
        Bool.false_eq_true, if_false]
      rw [hafter, after, after, List.foldl_cons, hcall]

/-- What is left of the script after calls. -/
theorem rest_after (c : Console) (calls : List Call) :
    c.host.Rest (calls.countP (·.Reads)) (calls.filterMap Call.sent?).length
      (c.after calls).host := by
  -- from the back, because the last call meets what the others have left
  induction calls using List.reverseRecOn with
  | nil => exact .refl _
  | append_singleton calls call ih =>
    rw [after_concat, List.countP_append, List.filterMap_append, List.length_append]
    obtain ⟨hno, hcall⟩ | ⟨rfl, hcall⟩ | ⟨b, rfl, hcall⟩ := (c.after calls).call_cases call
    · have hreads : [call].countP (·.Reads) = 0 :=
        List.countP_eq_zero.2 (by simpa using Call.not_reads_of_not_connected hno)
      rw [hcall, hreads, List.filterMap_cons_none (Call.sent?_of_not_connected hno)]
      exact ih
    · rw [hcall]
      exact ih.receive
    · rw [hcall]
      exact ih.send b

/-! ### What is told -/

/-- The reads are told the answers to the reads of the host, in their order. -/
theorem readOutcomes_exchange (c : Console) (calls : List Call) :
    readOutcomes (c.exchange calls)
      = (List.range (calls.countP (·.Reads))).map fun k => .ofRead (c.host.reading k) := by
  induction calls using List.reverseRecOn with
  | nil => rfl
  | append_singleton calls call ih =>
    -- only a call that reads adds an outcome, which is the first answer that is left
    have hrest := c.rest_after calls
    rw [exchange_concat, readOutcomes, List.filterMap_append, ← readOutcomes, ih,
      List.countP_append]
    obtain ⟨hno, hcall⟩ | ⟨rfl, hcall⟩ | ⟨b, rfl, hcall⟩ := (c.after calls).call_cases call
    · simp [Call.not_reads_of_not_connected hno]
    · rw [hcall, fst_receive, hrest.reading]
      simp [List.range_succ]
    · simp

/-- The writes are told what comes of the writes and flushes of the host, in their order. -/
theorem writeOutcomes_exchange (c : Console) (calls : List Call) :
    writeOutcomes (c.exchange calls)
      = (List.range (calls.filterMap Call.sent?).length).map
          fun k => .ofWrite (c.host.sending k) := by
  induction calls using List.reverseRecOn with
  | nil => rfl
  | append_singleton calls call ih =>
    have hrest := c.rest_after calls
    rw [exchange_concat, writeOutcomes, List.filterMap_append, ← writeOutcomes, ih,
      List.filterMap_append, List.length_append]
    obtain ⟨hno, hcall⟩ | ⟨rfl, hcall⟩ | ⟨b, rfl, hcall⟩ := (c.after calls).call_cases call
    · simp [Call.sent?_of_not_connected hno]
    · simp [List.filterMap_cons]
    · rw [hcall, fst_send, hrest.sending]
      simp [List.range_succ]

/-- The host gets the bytes of the writes that it carries out, in their order. -/
theorem sent_after (c : Console) (calls : List Call) :
    (c.after calls).sent.toList = c.sent.toList ++
      ((calls.filterMap Call.sent?).zipIdx.filter fun (_, k) => c.host.writing k = .ok ()).map
        Prod.fst := by
  induction calls using List.reverseRecOn with
  -- one call more adds at most one byte, at the end
  | nil => exact (List.append_nil _).symm
  | append_singleton calls call ih =>
    have hrest := c.rest_after calls
    rw [after_concat, List.filterMap_append, List.zipIdx_append, List.filter_append,
      List.map_append, ← List.append_assoc, ← ih, Nat.zero_add]
    obtain ⟨hno, hcall⟩ | ⟨rfl, hcall⟩ | ⟨b, rfl, hcall⟩ := (c.after calls).call_cases call
    · simp [hcall, Call.sent?_of_not_connected hno]
    · simp [hcall, List.filterMap_cons, receive]
    · rw [hcall, sent_send_eq, hrest.writing]
      split
      · next hok => simp [hok]
      · next hno => simp [hno]

/-- What is read is a first part of what the events give, followed by zeros. -/
theorem readOutcomes_prefix (c : Console) (calls : List Call) :
    readOutcomes (c.exchange calls) <+:
      c.host.answers.map .ofRead ++ List.replicate (calls.countP (·.Reads)) (.byte 0) := by
  generalize hn : calls.countP (·.Reads) = n
  -- the script may be shorter than the exchange, and reads exhausted from its end on
  let padding : List (Except String Received) := List.replicate n (.ok .exhausted)
  have hfirst : readOutcomes (c.exchange calls)
      = ((c.host.answers ++ padding).take n).map .ofRead := by
    rw [readOutcomes_exchange, hn]
    refine List.ext_getElem (by simp [padding]) fun k hk _ => ?_
    have hkn : k < n := by simpa using hk
    simp only [List.getElem_map, List.getElem_range, Host.reading, List.getElem_take,
      List.getElem_append]
    split
    · next hlt => rw [List.getD_eq_getElem?_getD, List.getElem?_eq_getElem hlt, Option.getD_some]
    · next hge =>
      rw [List.getD_eq_getElem?_getD, List.getElem?_eq_none (Nat.le_of_not_lt hge),
        Option.getD_none, List.getElem_replicate]
  have hpadding : List.replicate n (Outcome.byte 0) = padding.map .ofRead := by
    rw [List.map_replicate]
    rfl
  rw [hfirst, hpadding, ← List.map_append]
  exact (List.take_prefix n _).map _

/-- The bytes that the answers tell are those of the events. -/
theorem filterMap_byte?_answers (h : Host) :
    (h.answers.map .ofRead).filterMap Outcome.byte? = h.reads.flatMap ReadEvent.bytes := by
  rw [Host.answers, List.map_flatMap, List.filterMap_flatMap]
  -- it is enough to look at a single event
  congr 1
  funext event
  cases event with
  | data bytes =>
    cases bytes with
    | nil => rfl
    | cons b bs =>
      rw [ReadEvent.answers, List.map_map, List.filterMap_map]
      · exact List.filterMap_some
      · exact List.cons_ne_nil b bs
  | failure f =>
    cases hkind : f.kind <;>
      simp [ReadEvent.answers, ReadEvent.bytes, hkind, Outcome.ofRead, Outcome.byte?,
        Received.value]

/-- The reasons that the answers tell are those of the events. -/
theorem filterMap_reason?_answers (h : Host) :
    (h.answers.map .ofRead).filterMap Outcome.reason? = h.reads.filterMap ReadEvent.reason? := by
  rw [Host.answers, List.map_flatMap, List.filterMap_flatMap, List.filterMap_eq_flatMap_toList]
  congr 1
  funext event
  cases event with
  | data bytes =>
    cases bytes <;>
      simp [ReadEvent.answers, ReadEvent.reason?, Outcome.ofRead, Outcome.reason?]
  | failure f =>
    cases hkind : f.kind <;>
      simp [ReadEvent.answers, ReadEvent.reason?, hkind, Outcome.ofRead, Outcome.reason?]

/-- **The console loses nothing and repeats nothing.** Calls at other addresses tell zeros and
successes; without them the others would tell the same, and leave the same console. The reads are
told the answers of the host one after the other, and what has not been told is left. The bytes
among them are the first ones of the host's input, with a zero at each end of input and behind the
script, and the refusals are for the failures of the reads, in their order. The writes are told what
comes of the writes of the host one after the other, and of a flush behind each of them that is
carried out. The host gets the bytes of those that are carried out, and no others. -/
theorem exchange_of_script (c : Console) (calls : List Call) :
    let reads := readOutcomes (c.exchange calls)
    let n := calls.countP (·.Reads)
    let bytes := calls.filterMap Call.sent?
    (∀ p ∈ c.exchange calls, ¬ p.1.Connected → p.2 = p.1.inert) ∧
    c.exchange (calls.filter (·.Connected))
      = (c.exchange calls).filter (fun p => p.1.Connected) ∧
    c.after (calls.filter (·.Connected)) = c.after calls ∧
    reads = ((List.range n).map fun k => .ofRead (c.host.reading k)) ∧
    reads.filterMap Outcome.byte? <+: c.host.reads.flatMap ReadEvent.bytes ++ List.replicate n 0 ∧
    reads.filterMap Outcome.reason? <+: c.host.reads.filterMap ReadEvent.reason? ∧
    (c.after calls).host.answers = c.host.answers.drop n ∧
    writeOutcomes (c.exchange calls)
      = ((List.range bytes.length).map fun k => .ofWrite (c.host.sending k)) ∧
    (c.after calls).sent.toList = c.sent.toList ++
      (bytes.zipIdx.filter fun (_, k) => c.host.writing k = .ok ()).map Prod.fst := by
  intro reads n bytes
  have hprefix : reads <+: _ := c.readOutcomes_prefix calls
  refine ⟨fun p => inert_of_mem_exchange, (c.exchange_filter calls).1, (c.exchange_filter calls).2,
    c.readOutcomes_exchange calls, ?_, ?_, (c.rest_after calls).answers,
    c.writeOutcomes_exchange calls, c.sent_after calls⟩
  · -- the zeros behind the script are bytes
    have hzero : Outcome.byte? (.byte 0) = some 0 := rfl
    have hbytes := hprefix.filterMap Outcome.byte?
    rwa [List.filterMap_append, filterMap_byte?_answers, List.filterMap_replicate_of_some hzero]
      at hbytes
  · -- and they are no refusals
    have hzero : Outcome.reason? (.byte 0) = none := rfl
    have hreasons := hprefix.filterMap Outcome.reason?
    rwa [List.filterMap_append, filterMap_reason?_answers,
      List.filterMap_replicate_of_none hzero, List.append_nil] at hreasons

/-- An interrupted read is asked for again, a failed one costs no byte, and an end of input in the
middle of the script is one zero. A byte whose flush is interrupted has arrived, and one that the
host does not take has not. -/
theorem exchange_of_script_interrupted :
    let c : Console := { host :=
      { reads := [.failure ⟨.interrupted, "again"⟩, .data [0x41, 0x42], .data [],
          .failure ⟨.other, "broken"⟩, .data [0x43]]
        writes := [.failure ⟨.interrupted, "again"⟩, .accepted, .refused, .accepted]
        flushes := [.failure ⟨.interrupted, "again"⟩] } }
    let calls := [.input address, .output address 0x61, .input 0x60, .input address,
      .output address 0x62, .input address, .input address, .output 0x80 0x64,
      .output address 0x63, .input address, .input address]
    (∀ o, (Call.input 0x60, o) ∈ c.exchange calls → o = .byte 0) ∧
    readOutcomes (c.exchange calls) = [.byte 0x41, .byte 0x42, .byte 0,
      .refused (.console "broken"), .byte 0x43, .byte 0] ∧
    writeOutcomes (c.exchange calls) = [.refused (.console "again"),
      .refused (.console "failed to write whole buffer"), .done] ∧
    (c.after calls).sent.toList = [0x61, 0x63] := by
  intro c calls
  -- with the theorem it is enough to look up the rows of the script
  obtain ⟨hinert, -, -, hreads, -, -, -, hwrites, hsent⟩ := exchange_of_script c calls
  refine ⟨fun o ho => ?_, hreads.trans ?_, hwrites.trans ?_, hsent.trans ?_⟩
  · have helsewhere : ¬ (Call.input 0x60).Connected := by decide
    exact hinert _ ho helsewhere
  · decide +kernel
  · decide +kernel
  · decide +kernel

end Console

end Boot386
