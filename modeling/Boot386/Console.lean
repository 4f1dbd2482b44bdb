/-!
# The console

The guest reaches one device, a serial console at the I/O address `0x03f8`. The bytes it reads
and writes there pass through a host, which may fail. What the host will do is a script
(`Host`): the outcomes of its reads, writes and flushes, in the order in which they are
asked for.

* An interrupted read or write is asked for again; an interrupted flush is an error.
* An end of input reads as the byte zero (`Received.exhausted`).
* A written byte is flushed at once. If only the flush fails, the byte has been sent.
* All other I/O addresses read as zero and ignore what is written to them.

After the script every read is an end of input, and every write and flush succeeds, unless
the host has a `Host.defect`.
-/

namespace Boot386

/-! ### What a host does -/

/-- How a host operation fails. -/
inductive FailureKind where
  /-- Nothing happened yet; the operation can be asked for again. -/
  | interrupted
  /-- A read found no more input. -/
  | endOfInput
  /-- Anything else. -/
  | other
  deriving DecidableEq, Repr, Inhabited

/-- A failed host operation, with the reason in the words of the host. -/
structure Failure where
  kind : FailureKind
  reason : String
  deriving DecidableEq, Repr, Inhabited

/-- The outcome of a host read. Bytes that are not asked for yet stay for the next read;
no bytes at all are an end of input. -/
inductive ReadEvent where
  | data (bytes : List UInt8)
  | failure (f : Failure)
  deriving DecidableEq, Repr, Inhabited

/-- The outcome of a host write of one byte. -/
inductive WriteEvent where
  | accepted
  /-- The host takes no byte, but does not report a failure. -/
  | refused
  | failure (f : Failure)
  deriving DecidableEq, Repr, Inhabited

/-- The outcome of a host flush. -/
inductive FlushEvent where
  | done
  | failure (f : Failure)
  deriving DecidableEq, Repr, Inhabited

/-- What a host will do. -/
structure Host where
  reads : List ReadEvent := []
  writes : List WriteEvent := []
  flushes : List FlushEvent := []
  /-- The reason for which every write and flush after the script fails, if they do. -/
  defect : Option String := none
  deriving DecidableEq, Repr, Inhabited

/-- A host with this input and no failures. -/
def Host.ofInput (bytes : List UInt8) : Host where
  reads := if bytes.isEmpty then [] else [.data bytes]

/-- What a read of the console gives. -/
inductive Received where
  | byte (b : UInt8)
  | exhausted
  deriving DecidableEq, Repr, Inhabited

/-- The byte that the guest sees; an end of input reads as zero. -/
def Received.value : Received → UInt8
  | byte b => b
  | exhausted => 0

namespace Host

/-- The outcome for an operation behind the end of its script. -/
def unscripted (defect : Option String) : Except String Unit :=
  match defect with
  | none => .ok ()
  | some reason => .error reason

/-- Reads one byte. Of a chunk with more bytes the others stay. -/
def takeRead : List ReadEvent → Except String Received × List ReadEvent
  | [] => (.ok .exhausted, [])
  | .data [] :: events => (.ok .exhausted, events)
  | .data [b] :: events => (.ok (.byte b), events)
  | .data (b :: bs) :: events => (.ok (.byte b), .data bs :: events)
  | .failure f :: events =>
    match f.kind with
    | .interrupted => takeRead events
    | .endOfInput => (.ok .exhausted, events)
    | .other => (.error f.reason, events)

/-- Writes one byte. -/
def takeWrite (defect : Option String) : List WriteEvent → Except String Unit × List WriteEvent
  | [] => (unscripted defect, [])
  | .accepted :: events => (.ok (), events)
  | .refused :: events => (.error "failed to write whole buffer", events)
  | .failure f :: events =>
    match f.kind with
    | .interrupted => takeWrite defect events
    | _ => (.error f.reason, events)

/-- Flushes what has been written. -/
def takeFlush (defect : Option String) : List FlushEvent → Except String Unit × List FlushEvent
  | [] => (unscripted defect, [])
  | .done :: events => (.ok (), events)
  | .failure f :: events => (.error f.reason, events)

end Host

/-! ### The device -/

/-- An address in the I/O space, which is apart from memory. -/
abbrev IoAddress := UInt16

/-- The console: its host, and the bytes that the host has received. -/
structure Console where
  host : Host := {}
  sent : Array UInt8 := #[]
  deriving DecidableEq, Repr, Inhabited

namespace Console

/-- The only I/O address that is connected. -/
def address : IoAddress := 0x03f8

/-- Reads one byte from the host. -/
def receive (c : Console) : Except String Received × Console :=
  let (result, events) := Host.takeRead c.host.reads
  (result, { c with host.reads := events })

/-- Writes one byte to the host and flushes it. -/
def send (c : Console) (b : UInt8) : Except String Unit × Console :=
  match Host.takeWrite c.host.defect c.host.writes with
  | (.error reason, events) => (.error reason, { c with host.writes := events })
  | (.ok (), writes) =>
    -- the host has the byte, whatever comes of the flush
    let (result, flushes) := Host.takeFlush c.host.defect c.host.flushes
    (result, { c with
      host.writes := writes
      host.flushes := flushes
      sent := c.sent.push b })

/-- Sends bytes up to the first failure. -/
def sendAll (c : Console) : List UInt8 → Except String Unit × Console
  | [] => (.ok (), c)
  | b :: bs =>
    match c.send b with
    | (.error reason, c) => (.error reason, c)
    | (.ok (), c) => c.sendAll bs

/-- Reads one byte from an I/O address. -/
def input (c : Console) (a : IoAddress) : Except String Received × Console :=
  if a = address then c.receive else (.ok (.byte 0), c)

/-- Writes bytes to an I/O address. -/
def output (c : Console) (a : IoAddress) (bytes : List UInt8) : Except String Unit × Console :=
  if a = address then c.sendAll bytes else (.ok (), c)

/-! ### What the operations leave alone -/

theorem input_of_ne {a : IoAddress} (h : a ≠ address) (c : Console) :
    c.input a = (.ok (.byte 0), c) := if_neg h

theorem output_of_ne {a : IoAddress} (h : a ≠ address) (c : Console) (bytes : List UInt8) :
    c.output a bytes = (.ok (), c) := if_neg h

theorem output_address (c : Console) (bytes : List UInt8) :
    c.output address bytes = c.sendAll bytes := if_pos rfl

/-- Reading sends nothing. -/
@[simp] theorem sent_input (c : Console) (a : IoAddress) : (c.input a).2.sent = c.sent := by
  unfold input receive
  split <;> rfl

/-- A byte is sent unless its write fails. -/
theorem sent_send (c : Console) (b : UInt8) :
    (c.send b).2.sent
      = match (Host.takeWrite c.host.defect c.host.writes).1 with
        | .ok () => c.sent.push b
        | .error _ => c.sent := by
  unfold send
  rcases Host.takeWrite c.host.defect c.host.writes with ⟨_ | _, _⟩ <;> rfl

end Console

end Boot386
