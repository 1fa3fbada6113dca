import OpManifest.Calendar
import OpManifest.CommandLine.Run

/-!
# The program

Reads the files that a request may need, runs it on them, and writes what it
has changed.  A server then looks for changed files again and again.
-/

namespace OpManifest.Program

open CommandLine

/-! ## Reading -/

/-- Puts what the disk holds at a place into the tree.  Answers whether it is a
directory. -/
def readPlace (tree : FileTree) (place : Place) : IO (FileTree × Bool) := do
  let path := (← IO.currentDir) / (Path.ofPlace place).text
  if !(← path.pathExists) then return (tree, false)
  if ← path.isDir then return (tree.put place .directory, true)
  return (tree.put place (.file (← IO.FS.readBinFile path)), false)

/-- Puts what lies on the way of a path into the tree. -/
def readPath (tree : FileTree) (path : Path) : IO FileTree := do
  let mut tree := tree
  let mut place := tree.start path
  for name in path.steps do
    match tree.follow place name with
    | .error _ => return tree
    | .ok next =>
      let (read, isDirectory) ← readPlace tree next
      tree := read
      place := next
      if !isDirectory then return tree
  return tree

/-- Puts everything below a place into the tree, except what lies in directories
that hold no sources. -/
partial def readBelow (tree : FileTree) (place : Place) : IO FileTree := do
  let directory := (← IO.currentDir) / (Path.ofPlace place).text
  let mut tree := tree
  for entry in ← directory.readDir do
    let next := place ++ [entry.fileName]
    match (← entry.path.symlinkMetadata).type with
    | .dir =>
      tree := tree.put next .directory
      if !ignoredDirectories.contains entry.fileName then tree ← readBelow tree next
    | .file => tree := tree.put next (.file (← IO.FS.readBinFile entry.path))
    | _ => pure ()
  return tree

/-- The files of a project: its root, its configuration, and the directories
that its manifest is published in. -/
def readProject (tree : FileTree) (root : Path) (configFile : Option String)
    (outDir : Option Path) : IO FileTree := do
  let tree ← readPath tree root
  match tree.canonical? root, tree.resolve root with
  | some canonical, .ok place =>
    let tree ← if tree.isDirectory root then readBelow tree place else pure tree
    let configPath := ProjectConfig.pathIn canonical configFile
    let tree ← readPath tree configPath
    let configured := match ProjectConfig.load tree configPath with
      | .ok config => some config.outDir
      | .error _ => none
    let mut tree := tree
    for directory in outDir.toList ++ configured.toList do
      let target := (canonical.join directory).join ⟨manifestFileName⟩
      tree ← readPath tree target
      tree ← readPath tree target.temporary
    return tree
  | _, _ => return tree

/-- The files that an activity may need. -/
def readFor (activity : Activity) (configFile : Option String) : IO FileTree := do
  let here : Path := ⟨(← IO.currentDir).toString⟩
  let tree := { (← readPath {} here) with here := here.steps }
  match activity with
  | .build _ outDir root => readProject tree (root.getD here) configFile outDir
  | .serve _ _ root => readProject tree (root.getD here) configFile none
  | .list path =>
    let tree ← readPath tree (path.getD here)
    readPath tree (manifestPath tree path)

/-! ## Writing -/

/-- Brings the disk from one tree to another.  Files are moved to their
places. -/
def writeChanges (before after : FileTree) : IO Unit := do
  let disk ← IO.currentDir
  for (place, node) in after.nodes.toList do
    if before.nodes[place]? = some node then continue
    let path := Path.ofPlace place
    match node with
    | .directory => IO.FS.createDirAll (disk / path.text)
    | .file content =>
      IO.FS.writeBinFile (disk / path.temporary.text) content
      IO.FS.rename (disk / path.temporary.text) (disk / path.text)
  for (place, _) in before.nodes.toList do
    if after.nodes[place]?.isNone then IO.FS.removeFile (disk / (Path.ofPlace place).text)

/-! ## Telling -/

/-- The log of a run: its file, if there is a directory for it, and how far the
time of day is ahead of the clock of the machine, in nanoseconds. -/
structure Log where
  file : Option String
  ahead : Nat

/-- Opens the log, empty.  The new file knows the time of day. -/
def openLog : IO Log := do
  match ← IO.getEnv "HOME" with
  | none => return ⟨none, 0⟩
  | some home =>
    let directory := home ++ "/.config/toolgraph"
    try
      IO.FS.createDirAll directory
      let file := directory ++ "/toolgraph.log"
      IO.FS.writeFile file ""
      let opened := (← ((← IO.currentDir) / file).metadata).modified
      let time := opened.sec.toNat * 1000000000 + opened.nsec.toNat
      return ⟨some file, time - (← IO.monoNanosNow)⟩
    catch _ => return ⟨none, 0⟩

/-- The time of day in nanoseconds since the start of 1970. -/
def Log.now (log : Log) : IO Nat := return log.ahead + (← IO.monoNanosNow)

/-- Milliseconds with two decimals. -/
def millisText (nanos : Nat) : String :=
  toString (nanos / 1000000) ++ "." ++ .ofList (Calendar.padded 2 (nanos / 10000 % 100)) ++ "ms"

/-- Writes records to the log file and to the console. -/
def Log.tell (log : Log) (verbosity : Verbosity) (nanos : Nat) (records : List LogRecord) :
    IO Unit := do
  let date := Calendar.dateText ((← log.now) / 1000000000)
  for record in records do
    match log.file with
    | some file => IO.FS.withFile file .append fun handle =>
        handle.putStrLn ("[" ++ date ++ "] " ++ record.fileLine (millisText nanos))
    | none => pure ()
    match record.consoleLine? verbosity (millisText nanos) with
    | some line => IO.eprintln line
    | none => pure ()

/-! ## Running -/

/-- The places below the root of a session at which two trees differ. -/
def changedPlaces (before after : FileTree) : List Place :=
  let changed := after.nodes.toList.filterMap fun (place, node) =>
    if before.nodes[place]? = some node then none else some place
  let removed := before.nodes.toList.filterMap fun (place, _) =>
    if after.nodes[place]?.isNone then some place else none
  changed ++ removed

/-- Looks for changed files again and again, and tells the session of each. -/
partial def watch (request : Request) (configFile : Option String) (log : Log)
    (verbosity : Verbosity) (session : Session) (known : FileTree) : IO Unit := do
  IO.sleep 500
  let found ← readFor request.activity configFile
  let mut session := session
  let mut tree := found
  for place in changedPlaces known found do
    let started ← IO.monoNanosNow
    let (next, changed, _, records) :=
      session.applyChange tree (Path.ofPlace place) (← log.now)
    writeChanges tree changed
    log.tell verbosity ((← IO.monoNanosNow) - started) records
    session := next
    tree := changed
  watch request configFile log verbosity session tree

/-- Runs a request. -/
def runRequest (request : Request) (configFile : Option String) : IO UInt32 := do
  let log ← openLog
  let verbosity := Verbosity.ofFlags request.verbose request.quiet
  let started ← IO.monoNanosNow
  let tree ← readFor request.activity configFile
  let run := request.run configFile tree (← log.now)
  writeChanges tree run.tree
  IO.print run.output
  log.tell verbosity ((← IO.monoNanosNow) - started) run.log
  match run.session with
  | some session => watch request configFile log verbosity session run.tree
  | none => pure ()
  return run.exit.toUInt32

end OpManifest.Program

open OpManifest.CommandLine in
/-- Runs the program. -/
def main (args : List String) : IO UInt32 := do
  match Request.ofArguments args with
  | .error halt =>
    if halt = .misuse then IO.eprint halt.text else IO.print halt.text
    return halt.exit.toUInt32
  | .ok request =>
    let configFile ← IO.getEnv OpManifest.ProjectConfig.fileVariable
    OpManifest.Program.runRequest request configFile
