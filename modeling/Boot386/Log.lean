/-!
# Log entries

What is worth telling the operator is a list of entries. An entry has a severity, the part
of the program that it comes from, a message and named details. A `Verbosity` selects the
entries that are shown: those of a level and of every more severe one, or none.
-/

namespace Boot386

/-- The severity of an entry. -/
inductive Level where
  | error
  | warn
  | info
  | debug
  | trace
  deriving DecidableEq, Repr, Inhabited

namespace Level

/-- The place among the levels, the most severe one first. -/
def rank : Level → Nat
  | error => 0
  | warn => 1
  | info => 2
  | debug => 3
  | trace => 4

/-- The name of a level in the log. -/
def name : Level → String
  | error => "ERROR"
  | warn => "WARN"
  | info => "INFO"
  | debug => "DEBUG"
  | trace => "TRACE"

end Level

/-- The least severe level that is shown, if any is. -/
abbrev Verbosity := Option Level

namespace Verbosity

/-- Whether entries of a level are shown. -/
def shows (v : Verbosity) (l : Level) : Bool :=
  match v with
  | none => false
  | some least => decide (l.rank ≤ least.rank)

/-- The verbosity that goes by a name. -/
def ofName? : String → Option Verbosity
  | "off" => some none
  | "error" => some (some .error)
  | "warn" => some (some .warn)
  | "info" => some (some .info)
  | "debug" => some (some .debug)
  | "trace" => some (some .trace)
  | _ => none

end Verbosity

/-- An entry of the log. -/
structure LogEntry where
  level : Level
  /-- The part of the program that reports. -/
  target : String
  message : String
  /-- Details, each under a name. -/
  fields : List (String × String) := []
  deriving DecidableEq, Repr, Inhabited

namespace LogEntry

/-- An entry on one line. -/
def line (e : LogEntry) : String :=
  e.level.name ++ " " ++ e.target ++ ": " ++ e.message
    ++ String.join (e.fields.map fun (name, value) => " " ++ name ++ "=" ++ value)

end LogEntry

end Boot386
