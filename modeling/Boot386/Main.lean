import Boot386.CommandLine

/-!
# The program

The outer layer of the command line: it reads the image, performs the console operations that
the machine is about to ask for, and scripts their outcomes for the step that uses them. What
the machine does, what is printed and how the program exits is decided in `CommandLine` and
`Machine`.

The log goes to standard error, down to the level that the environment variable `RUST_LOG`
names. Only the names of levels are understood there.
-/

namespace Boot386.CommandLine

/-- The reason for an error of the host, in its words. -/
def reasonOf : IO.Error → String
  | .noFileOrDirectory .. => noSuchFile
  | .inappropriateType .. => isDirectory
  | .resourceExhausted .. => deviceFull
  | e => toString e

/-- Performs an operation again as long as it is interrupted. -/
partial def untilDone {α : Type} (act : IO α) : IO α := do
  try act
  catch
    | .interrupted .. => untilDone act
    | e => throw e

/-- Shows entries of the log. -/
def showEntries (v : Verbosity) (entries : List LogEntry) : IO Unit := do
  let stderr ← IO.getStderr
  for e in entries do
    if v.shows e.level then stderr.putStrLn e.line

/-- Reads the file that the first argument names. -/
def readImage (arguments : List String) : IO (Except String (List UInt8)) := do
  match arguments with
  | [] => return .ok []
  | path :: _ =>
    try return .ok (← IO.FS.readBinFile path).toList
    catch e => return .error (reasonOf e)

/-- Reads a byte of standard input. -/
def readByte : IO ReadEvent := do
  try
    let stdin ← IO.getStdin
    let bytes ← untilDone (stdin.read 1)
    return .data bytes.toList
  catch e => return .failure ⟨.other, reasonOf e⟩

/-- Writes bytes to standard output, up to the first that cannot be written. -/
def writeBytes (bytes : List UInt8) : IO (List WriteEvent) := do
  let stdout ← IO.getStdout
  let mut events := []
  for b in bytes do
    try
      untilDone (stdout.write ⟨⟨[b]⟩⟩)
      stdout.flush
      events := .accepted :: events
    catch e =>
      events := .failure ⟨.other, reasonOf e⟩ :: events
      break
  return events.reverse

/-- Performs the console operation that the next step asks for and scripts its outcome. -/
def provide (m : Machine) : IO Host := do
  match m.prepare with
  -- elsewhere in the I/O space nothing is connected, and the host is not asked
  | .ok (_, .input a _) =>
    if a = Console.address then return { reads := [← readByte] } else return {}
  | .ok (_, .output a bytes) =>
    if a = Console.address then return { writes := ← writeBytes bytes } else return {}
  | _ => return {}

/-- Steps until the machine halts, showing events as they happen. -/
partial def stepAll (v : Verbosity) (m : Machine) : IO Machine := do
  if m.status = .running then
    let host ← provide m
    let m := { m with console := { host := host }, log := #[] }.step
    showEntries v (logOf m)
    stepAll v m
  else return m

/-- Prints what follows the guest's own output. -/
def printEpilogue (m : Machine) : IO (Option String) := do
  let stdout ← IO.getStdout
  try
    stdout.putStr (epilogue m)
    stdout.flush
    return none
  catch e => return some (reasonOf e)

/-- The process as the runtime knows it. -/
def runtime : IO Runtime := do
  return { thread := (← IO.getTID).toNat, place := "printEpilogue" }

/-- Shows what is left to be shown, and gives the exit code. -/
def leave (v : Verbosity) (r : Report) : IO UInt32 := do
  let stderr ← IO.getStderr
  for line in r.stderr v do stderr.putStrLn line
  return UInt32.ofNat r.exit.status

end Boot386.CommandLine

open Boot386.CommandLine in
/-- Runs the image that the first argument names. -/
def main (arguments : List String) : IO UInt32 := do
  let v := ((← IO.getEnv "RUST_LOG").bind Boot386.Verbosity.ofName?).getD defaultVerbosity
  match start arguments (← readImage arguments) {} with
  | .error r => leave v r
  | .ok m =>
    let m ← stepAll v m
    leave v (finish { m with log := #[] } (← printEpilogue m) (← runtime))
