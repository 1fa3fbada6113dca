/-!
# Logs

What the program tells while it works.  A log file keeps every record; how much
of it reaches the console depends on the verbosity.
-/

namespace OpManifest

/-- The kinds of records.  A failure ends an activity that was announced. -/
inductive LogLevel where
  | info
  | debug
  | warning
  | error
  | success
  | failure
  | step
  deriving DecidableEq, Repr

/-- A record of a log.  If it tells how long something took, the time stands
between its two parts. -/
structure LogRecord where
  level : LogLevel
  text : String
  afterTime : Option String := none
  deriving DecidableEq, Repr

/-- How much reaches the console. -/
structure Verbosity where
  level : Nat
  quiet : Bool
  deriving DecidableEq, Repr

/-- What is asked for on the command line: to be quiet counts for more than to
be verbose. -/
def Verbosity.ofFlags (verbose : Nat) (quiet : Bool) : Verbosity :=
  ⟨if quiet then 0 else verbose, quiet⟩

/-- What the lines of a level begin with in a log file. -/
def LogLevel.label : LogLevel → String
  | .info => "INFO "
  | .debug => "DEBUG "
  | .warning => "WARN "
  | .error | .failure => "ERROR "
  | .success => "SUCCESS "
  | .step => "STEP: "

namespace LogRecord

/-- The message of a record, given the time that was taken. -/
def message (record : LogRecord) (time : String) : String :=
  match record.afterTime with
  | none => record.text
  | some rest => record.text ++ time ++ rest

/-- The line of a record in the log file, without the date. -/
def fileLine (record : LogRecord) (time : String) : String :=
  record.level.label ++ record.message time

/-- The line of a record on the console, if it is shown. -/
def consoleLine? (record : LogRecord) (verbosity : Verbosity) (time : String) : Option String :=
  let message := record.message time
  match record.level with
  | .info => if 1 ≤ verbosity.level then some message else none
  | .debug => if 1 ≤ verbosity.level then some ("DEBUG: " ++ message) else none
  | .warning => some ("warning: " ++ message)
  | .error => some ("error: " ++ message)
  | .success => if verbosity.quiet then none else some ("✔ " ++ message)
  | .failure => some ("  ✗ " ++ message)
  | .step => if 2 ≤ verbosity.level then some ("TRACE: " ++ message) else none

end LogRecord

end OpManifest
