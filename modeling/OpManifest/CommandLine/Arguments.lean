/-!
# Arguments

Options, switches and words on a command line.  An option takes a value, which
stands after an equals sign or is the next argument; what begins with a dash is
no value.  After two dashes alone there are only words.
-/

namespace OpManifest.CommandLine

/-- Why the arguments are not read to their end: they are misused, or they ask
for help or for the version. -/
inductive Halt where
  | misuse
  | help
  | version
  deriving DecidableEq, Repr

/-- An option: its name, and the values that it takes. -/
structure ValueOption where
  name : String
  accepts : String → Bool

/-- What a command takes: options, switches of its own, and so many words. -/
structure Grammar where
  options : List ValueOption := []
  switches : List String := []
  words : Nat := 0
  acceptsWord : String → Bool := fun _ => true
  versioned : Bool := false

/-- The arguments of a command. -/
structure Arguments where
  values : List (String × String) := []
  switches : List String := []
  verbose : Nat := 0
  words : List String := []
  deriving Repr

/-- The name of an argument with two dashes, and the value after its equals
sign. -/
def longOption? (arg : String) : Option (String × Option String) :=
  match arg.toList with
  | '-' :: '-' :: rest =>
    let name := String.ofList (rest.takeWhile (· ≠ '='))
    match rest.dropWhile (· ≠ '=') with
    | _ :: value => some (name, some (.ofList value))
    | [] => some (name, none)
  | _ => none

/-- The letters of an argument with one dash. -/
def shortSwitches? (arg : String) : Option (List Char) :=
  match arg.toList with
  | '-' :: first :: rest => if first = '-' then none else some (first :: rest)
  | _ => none

/-- The argument is no value. -/
def isDashed (arg : String) : Bool :=
  match arg.toList with
  | '-' :: _ :: _ => true
  | _ => false

namespace Grammar

variable (g : Grammar)

/-- Adds the value of an option.  An option is given once. -/
def addValue (a : Arguments) (option : ValueOption) (value : String) : Except Halt Arguments :=
  if (a.values.lookup option.name).isSome || !option.accepts value then .error .misuse
  else .ok { a with values := (option.name, value) :: a.values }

/-- Adds a switch.  A switch is given once, but verbosity adds up. -/
def addSwitch (a : Arguments) (name : String) : Except Halt Arguments :=
  if name = "verbose" then .ok { a with verbose := min 255 (a.verbose + 1) }
  else if name = "help" then .error .help
  else if name = "version" && g.versioned then .error .version
  else if ("quiet" :: g.switches).contains name && !a.switches.contains name then
    .ok { a with switches := name :: a.switches }
  else .error .misuse

/-- Adds the switch with a letter. -/
def addShort (a : Arguments) (letter : Char) : Except Halt Arguments :=
  match letter with
  | 'q' => g.addSwitch a "quiet"
  | 'v' => g.addSwitch a "verbose"
  | 'h' => g.addSwitch a "help"
  | 'V' => g.addSwitch a "version"
  | _ => .error .misuse

/-- Adds a word. -/
def addWord (a : Arguments) (word : String) : Except Halt Arguments :=
  if a.words.length < g.words && g.acceptsWord word then .ok { a with words := a.words ++ [word] }
  else .error .misuse

/-- Reads the arguments of a command. -/
def scan (a : Arguments) : List String → Except Halt Arguments
  | [] => .ok a
  | arg :: rest =>
    if arg = "--" then rest.foldlM g.addWord a
    else
      match longOption? arg, shortSwitches? arg with
      | some (name, given), _ =>
        match g.options.find? (·.name = name), given, rest with
        | some option, some value, rest => do scan (← addValue a option value) rest
        | some option, none, value :: rest =>
          if isDashed value then .error .misuse else do scan (← addValue a option value) rest
        | some _, none, [] | none, some _, _ => .error .misuse
        | none, none, rest => do scan (← g.addSwitch a name) rest
      | none, some letters => do scan (← letters.foldlM g.addShort a) rest
      | none, none => do scan (← g.addWord a arg) rest

/-- Reads the switches before the name of a command.  Answers the name and what
follows it. -/
def scanCommand (a : Arguments) : List String → Except Halt (Arguments × String × List String)
  | [] => .error .misuse
  | arg :: rest =>
    match longOption? arg, shortSwitches? arg with
    | some (name, none), _ =>
      if name = "" then .error .misuse else do scanCommand (← g.addSwitch a name) rest
    | some (_, some _), _ => .error .misuse
    | none, some letters => do scanCommand (← letters.foldlM g.addShort a) rest
    | none, none => .ok (a, arg, rest)

end Grammar

end OpManifest.CommandLine
