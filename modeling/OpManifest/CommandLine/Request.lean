import OpManifest.CommandLine.Arguments
import OpManifest.Manifest.Context
import OpManifest.Text.Digit

/-!
# Requests

What the program is asked to do: to build once, to keep the manifest current
while files change, or to show a manifest.
-/

namespace OpManifest.CommandLine

/-- What the program is asked to do. -/
inductive Activity where
  | build (mode : String) (outDir root : Option Path)
  | serve (mode : String) (address : ServerAddress) (root : Option Path)
  | list (path : Option Path)
  deriving Repr

/-- An activity, and how much is told about it. -/
structure Request where
  quiet : Bool
  verbose : Nat
  activity : Activity
  deriving Repr

/-- The number that a text spells, at most 65535.  A sign may stand before it. -/
def portNumber? (text : String) : Option Nat :=
  let (negative, digits) := match text.toList with
    | '-' :: rest => (true, rest)
    | '+' :: rest => (false, rest)
    | rest => (false, rest)
  let number := Text.digitsValue digits
  let spelled := !digits.isEmpty && digits.all Char.isDigit
  if spelled && number ≤ 65535 && (!negative || number = 0) then some number else none

/-- Every value will do. -/
def anyValue (_ : String) : Bool := true

/-- A path has to have a name. -/
def isPath (text : String) : Bool := text ≠ ""

def programGrammar : Grammar := { versioned := true }

def buildGrammar : Grammar where
  options := [⟨"mode", anyValue⟩, ⟨"out-dir", isPath⟩, ⟨"root", isPath⟩]

def serveGrammar : Grammar where
  options := [⟨"mode", anyValue⟩, ⟨"host", anyValue⟩,
    ⟨"port", fun text => (portNumber? text).isSome⟩, ⟨"root", isPath⟩]
  switches := ["https"]

def listGrammar : Grammar where
  words := 1
  acceptsWord := isPath

namespace Arguments

/-- The value of an option. -/
def value? (a : Arguments) (name : String) : Option String := a.values.lookup name

/-- The value of an option that is a path. -/
def path? (a : Arguments) (name : String) : Option Path := (a.value? name).map Path.mk

/-- What the arguments ask to build. -/
def build (a : Arguments) : Activity :=
  .build ((a.value? "mode").getD BuildContext.productionMode) (a.path? "out-dir") (a.path? "root")

/-- What the arguments ask to serve. -/
def serve (a : Arguments) : Activity :=
  let protocol := if a.switches.contains "https" then "https" else "http"
  let number := ((a.value? "port").bind portNumber?).getD 5173
  .serve ((a.value? "mode").getD "development")
    ⟨protocol, (a.value? "host").getD "localhost", number⟩ (a.path? "root")

/-- What the arguments ask to list. -/
def list (a : Arguments) : Activity := .list (a.words.head?.map Path.mk)

end Arguments

/-- The commands by their names. -/
def commands : List (String × Grammar × (Arguments → Activity)) :=
  [("build", buildGrammar, Arguments.build), ("dev", serveGrammar, Arguments.serve),
    ("list", listGrammar, Arguments.list)]

/-- Reads a command line.  What is told can be asked for before and after the
name of the command; verbosity after it counts for more. -/
def Request.ofArguments (args : List String) : Except Halt Request := do
  let (program, name, rest) ← programGrammar.scanCommand {} args
  match commands.lookup name with
  | some (grammar, activity) =>
    let a ← grammar.scan {} rest
    return {
      quiet := program.switches.contains "quiet" || a.switches.contains "quiet"
      verbose := if a.verbose = 0 then program.verbose else a.verbose
      activity := activity a }
  | none =>
    let known := rest.all fun command => (commands.lookup command).isSome
    throw (if name = "help" && known then .help else .misuse)

end OpManifest.CommandLine
