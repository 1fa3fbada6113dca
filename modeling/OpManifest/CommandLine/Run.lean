import OpManifest.CommandLine.Listing
import OpManifest.CommandLine.Request
import OpManifest.Session.Basic

/-!
# Running requests

What comes of a request: the exit code, what is printed and told, and the files
that are left behind.
-/

namespace OpManifest.CommandLine

/-- What the program calls itself. -/
def versionText : String := "toolgraph 0.1.0\n"

/-- How the program is used. -/
def helpText : String :=
  "Usage: toolgraph [-q] [-v] <build|dev|list>\n\n"
    ++ "  build [--mode MODE] [--out-dir DIR] [--root PATH]\n"
    ++ "  dev [--mode MODE] [--host HOST] [--port PORT] [--https] [--root PATH]\n"
    ++ "  list [PATH]\n"

/-- The exit code when the arguments were not read to their end. -/
def Halt.exit : Halt → Nat
  | .misuse => 2
  | .help | .version => 0

/-- What is printed when the arguments were not read to their end. -/
def Halt.text : Halt → String
  | .misuse | .help => helpText
  | .version => versionText

/-- What came of a request.  A server that has started goes on with its
session. -/
structure CommandRun where
  exit : Nat
  output : String
  log : List LogRecord
  tree : FileTree
  session : Option Session := none

/-- The record that an activity has succeeded. -/
def successRecord (text : String) : LogRecord := ⟨.success, text, none⟩

/-- Builds once: scans everything and publishes the manifest. -/
def build (options : SessionOptions) (tree : FileTree) (time : Nat) : TriggerRun (Path × Path) :=
  let failed : LogRecord := ⟨.failure, "Manifest build failed", none⟩
  let started := Session.start options tree time
  match started.result with
  | .error e => { started with result := .error e, log := started.log ++ [failed] }
  | .ok session =>
    let (session, run) := session.bundleFinalized started.tree time
    match run.result with
    | .error e => { run with result := .error e, log := started.log ++ run.log ++ [failed] }
    | .ok written =>
      let count := (session.manifest.map (·.operations.length)).getD 0
      let success := successRecord ("Wrote manifest with " ++ toString count ++ " operation"
        ++ (if count = 1 then "" else "s") ++ " to " ++ written.2.text)
      let also : LogRecord := ⟨.debug, "Also wrote " ++ written.1.text, none⟩
      { run with result := .ok written, log := started.log ++ run.log ++ [success, also] }

/-- Starts a server: publishes the manifest, to be kept current. -/
def serve (options : SessionOptions) (tree : FileTree) (time : Nat) : TriggerRun Session :=
  let started := Session.start options tree time
  match started.result with
  | .error _ => started
  | .ok session =>
    let count := (session.manifest.map (·.operations.length)).getD 0
    let ready := successRecord ("Manifest ready with " ++ toString count
      ++ " operations; watching " ++ session.root.text)
    { started with log := started.log ++ [ready] }

/-- A request that has failed. -/
def failedRun (tree : FileTree) (log : List LogRecord) (message : String) : CommandRun :=
  ⟨1, "", log ++ [⟨.error, message, none⟩], tree, none⟩

/-- Runs a request in the working directory of the tree. -/
def Request.run (request : Request) (configFile : Option String) (tree : FileTree) (time : Nat) :
    CommandRun :=
  let options (root : Option Path) (context : BuildContext) (outDir : Option Path) :
      SessionOptions :=
    { root := root.getD (Path.ofPlace tree.here), context, outDir, configFile }
  match request.activity with
  | .build mode outDir root =>
    let run := build (options root ⟨.build, mode, none⟩ outDir) tree time
    match run.result with
    | .error e => failedRun run.tree run.log e.message
    | .ok _ => ⟨0, "", run.log, run.tree, none⟩
  | .serve mode address root =>
    let run := serve (options root ⟨.serve, mode, some address⟩ none) tree time
    match run.result with
    | .error e => failedRun run.tree run.log e.message
    | .ok session => ⟨0, "", run.log, run.tree, some session⟩
  | .list path =>
    match listing tree path (0 < request.verbose) with
    | .error e => failedRun tree [] e.message
    | .ok text => ⟨0, text, [], tree, none⟩

end OpManifest.CommandLine
