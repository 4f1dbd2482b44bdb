import Boot386.Ascii
import Boot386.Machine.Dump
import Boot386.Machine.Step

/-!
# The command line

The program takes the path of an image as its first argument and ignores the others. It boots
a machine whose console is connected to the standard streams and runs it until it halts.

* Without an argument, or with an image that cannot be read or does not fit, it exits with
  code 2, and nothing is run or printed.
* Otherwise it prints what the guest prints, then a closing line if the guest ended by itself,
  and then the register dump. It exits with code 0 if the guest ended by itself and with code
  1 if it faulted.
* A dump that cannot be printed is logged, and the exit code is 1. If the closing line cannot be
  printed, then the program panics: the runtime reports it on standard error and exits with code
  101.
-/

namespace Boot386.CommandLine

/-! ### What goes in and what comes out -/

/-- What the runtime knows of the process when it reports a panic. -/
structure Runtime where
  /-- The number of the main thread. -/
  thread : Nat := 1
  /-- The place in the runtime from which printing panics. -/
  place : String := "print"
  /-- What is shown behind the message: the calls that led there, if they are asked for. -/
  backtrace : List String := []
  deriving DecidableEq, Repr, Inhabited

/-- The report of a panic of the main thread, line by line. -/
def Runtime.report (runtime : Runtime) (message : String) : List String :=
  ["", "thread 'main' (" ++ Numeral.decimal runtime.thread ++ ") panicked at "
    ++ runtime.place ++ ":", message] ++ runtime.backtrace

/-- What the program is given. -/
structure Invocation where
  /-- The arguments behind the name of the program. They are valid Unicode: while it fetches the
  name and the first argument the runtime panics on any other text, so that the program never gets
  it, and the arguments behind the first are not fetched. -/
  arguments : List String
  /-- What comes of reading the file that the first argument names: its bytes, or the reason
  why they cannot be read. -/
  file : Except String (List UInt8)
  /-- The bytes of standard input. -/
  stdin : List UInt8
  /-- What comes of reading standard input behind these bytes, before its end. -/
  stdinRest : List ReadEvent := []
  /-- The reason for which every write to standard output fails, if they do. -/
  stdoutDefect : Option String := none
  runtime : Runtime := {}

/-- The standard streams as the host of a console. -/
def Invocation.host (i : Invocation) : Host where
  reads := (Host.ofInput i.stdin).reads ++ i.stdinRest
  defect := i.stdoutDefect

/-- How the program ends. -/
inductive Exit where
  | code (n : Nat)
  /-- The program panics, and the runtime reports it. -/
  | panicked (report : List String)
  deriving DecidableEq, Repr, Inhabited

namespace Exit

/-- The exit code of the process. -/
def status : Exit → Nat
  | code n => n
  | panicked _ => 101

/-- What is shown of a panic. -/
def report : Exit → List String
  | code _ => []
  | panicked lines => lines

end Exit

/-- What the program leaves behind. -/
structure Report where
  exit : Exit
  stdout : List UInt8
  log : List LogEntry
  deriving DecidableEq, Repr, Inhabited

/-- The verbosity that is used if none is asked for. -/
def defaultVerbosity : Verbosity := some .warn

/-- The lines of the log that are shown. -/
def Report.lines (r : Report) (v : Verbosity) : List String :=
  (r.log.filter fun e => v.shows e.level).map LogEntry.line

/-- The lines on standard error: those of the log, and behind them the report of a panic. -/
def Report.stderr (r : Report) (v : Verbosity) : List String :=
  r.lines v ++ r.exit.report

/-! ### Messages of the program itself -/

/-- An error entry of the program itself. -/
def complaint (message : String) (fields : List (String × String)) : LogEntry :=
  ⟨.error, "sim386", message, fields⟩

/-- How the program is used. -/
def usage : LogEntry :=
  complaint "usage: sim386 <image>" []

/-- The image could not be read. -/
def unreadable (path reason : String) : LogEntry :=
  complaint ("failed to read image: " ++ reason) [("path", path)]

/-- The dump could not be printed. -/
def undumped (reason : String) : LogEntry :=
  complaint ("failed to write the register dump: " ++ reason) []

/-- The message of the panic if the closing line could not be printed. -/
def unprinted (reason : String) : String :=
  "failed printing to stdout: " ++ reason

/-- Why a file that is not there cannot be read. -/
def noSuchFile : String := "No such file or directory (os error 2)"

/-- Why a directory cannot be read. -/
def isDirectory : String := "Is a directory (os error 21)"

/-- Why a full device cannot be written. -/
def deviceFull : String := "No space left on device (os error 28)"

/-- The line that tells that the guest ended by itself. -/
def closingLine : String := "End of program.\n"

/-! ### The course of the program -/

/-- The report of a program that has not run anything. -/
def refusal (e : LogEntry) : Report :=
  ⟨.code 2, [], [e]⟩

/-- Boots a machine over a host and places the image in it. -/
def start (arguments : List String) (file : Except String (List UInt8)) (host : Host) :
    Except Report Machine :=
  match arguments, file with
  | [], _ => .error (refusal usage)
  | path :: _, .error reason => .error (refusal (unreadable path reason))
  | _ :: _, .ok image =>
    match (Machine.boot {} host).load image with
    | .ok m => .ok m
    | .error f => .error (refusal (complaint f.message []))

/-- The exit code for a halted machine. -/
def exitCode (m : Machine) : Nat :=
  if m.status = .ended then 0 else 1

/-- What is printed after the machine has halted. -/
def epilogue (m : Machine) : String :=
  (if m.status = .ended then closingLine else "") ++ m.dump

/-- The log of a machine. -/
def logOf (m : Machine) : List LogEntry :=
  m.log.toList.map Event.entry

/-- The report for a halted machine. -/
def finish (m : Machine) (stdoutDefect : Option String) (runtime : Runtime) : Report :=
  match stdoutDefect with
  | none => ⟨.code (exitCode m), m.console.sent.toList ++ Ascii.bytes (epilogue m), logOf m⟩
  | some reason =>
    -- the closing line comes first, and nothing handles its failure
    if m.status = .ended then
      ⟨.panicked (runtime.report (unprinted reason)), m.console.sent.toList, logOf m⟩
    else ⟨.code 1, m.console.sent.toList, logOf m ++ [undumped reason]⟩

/-- The whole program, for a guest that halts within `limit` instructions; the guest's input is
the standard input. -/
def run (i : Invocation) (limit : Nat) : Option Report :=
  match start i.arguments i.file i.host with
  | .error report => some report
  | .ok m =>
    let m := m.run limit
    if m.status = .running then none else some (finish m i.stdoutDefect i.runtime)

end Boot386.CommandLine
