import OpManifest.Log
import OpManifest.Manifest.Assembly
import OpManifest.Manifest.Store
import OpManifest.Session.Error
import OpManifest.Source.Scan

/-!
# Sessions

A session compiles one project.  It begins with a scan of all sources.  A server
publishes the manifest at once and again after every change that matters; a
build publishes it once, at its end.  A trigger that fails leaves the manifest
of the session as it was.
-/

namespace OpManifest

open Script (Extractor)

/-- How a session is started: the root of its project, how it is run, the place
of the output and of the configuration if others are asked for, and how
documents are found. -/
structure SessionOptions where
  root : Path
  context : BuildContext
  outDir : Option Path := none
  configFile : Option String := none
  extractor : Extractor := Script.extract

/-- A session.  The root is canonical, and the glob is that of the
configuration. -/
structure Session where
  root : Path
  configPath : Path
  config : ProjectConfig
  glob : Glob
  outDirOverride : Option Path
  context : BuildContext
  extractor : Extractor
  cache : SourceCache
  finalized : Bool
  manifest : Option Manifest

/-- What came of a trigger: its result, the files that it leaves behind, what it
told, and how many times it extracted documents. -/
structure TriggerRun (α : Type) where
  result : Except SessionError α
  tree : FileTree
  log : List LogRecord := []
  extractions : Nat := 0

/-- What came of the change of a file. -/
inductive ChangeOutcome where
  | ignored
  | configReloaded (written : Path × Path)
  | sourceUpdated (file : Path) (outcome : FileOutcome) (written : Path × Path)
  deriving DecidableEq, Repr

/-- Reads the configuration at a path. -/
def ProjectConfig.load (tree : FileTree) (path : Path) : Except ConfigError ProjectConfig :=
  if !tree.isFile path then .error (.notFound path)
  else
    match tree.readText path with
    | .error _ => .error (.unreadable path)
    | .ok text =>
      match ofText text with
      | .error cause => .error (.malformed path cause)
      | .ok config => .ok config

/-- The configuration at a path and the glob for its sources. -/
def loadProject (tree : FileTree) (path : Path) : Except SessionError (ProjectConfig × Glob) :=
  match ProjectConfig.load tree path with
  | .error cause => .error (.config cause)
  | .ok config =>
    match Glob.ofPattern config.sources with
    | .error cause => .error (.compile (.invalidGlob cause))
    | .ok glob => .ok (config, glob)

/-- The record of a scan. -/
def ScanSummary.record (summary : ScanSummary) (root : Path) : LogRecord where
  level := .debug
  text := "Scanned " ++ toString summary.seen ++ " files under " ++ root.text ++ " in "
  afterTime := some (" (" ++ toString summary.updated ++ " updated, "
    ++ toString summary.unchanged ++ " unchanged, " ++ toString summary.pruned ++ " pruned)")

namespace Session

/-- Where the output of the project goes. -/
def outDir (session : Session) : Path :=
  match session.outDirOverride with
  | some dir => session.root.join dir
  | none => session.config.outDirIn session.root

/-- Assembles the manifest and publishes it. -/
def publish (session : Session) (tree : FileTree) (time : Nat) :
    Session × FileTree × Except SessionError (Path × Path) :=
  match assemble session.cache.operations session.config session.context time with
  | .error cause => (session, tree, .error (.manifest cause))
  | .ok manifest =>
    match manifest.publish tree session.root session.outDir with
    | (tree, .error cause) => (session, tree, .error (.manifest cause))
    | (tree, .ok written) => ({ session with manifest := some manifest }, tree, .ok written)

/-- Scans the sources of a new session.  A server then publishes its manifest. -/
def begin (session : Session) (tree : FileTree) (time : Nat) : TriggerRun Session :=
  let run := session.cache.scan session.extractor tree session.root session.glob
  match run.result with
  | .error cause => ⟨.error (.compile cause), tree, [], run.extractions⟩
  | .ok summary =>
    let session := { session with cache := run.cache }
    let log := [summary.record session.root]
    match session.context.command with
    | .build => ⟨.ok session, tree, log, run.extractions⟩
    | .serve =>
      match session.publish tree time with
      | (_, tree, .error e) => ⟨.error e, tree, log, run.extractions⟩
      | (session, tree, .ok _) => ⟨.ok session, tree, log, run.extractions⟩

/-- Starts a session: reads the configuration and scans the sources. -/
def start (options : SessionOptions) (tree : FileTree) (time : Nat) : TriggerRun Session :=
  match tree.canonical? options.root with
  | none => { result := .error .rootMissing, tree }
  | some root =>
    let path := ProjectConfig.pathIn root options.configFile
    match loadProject tree path with
    | .error e => { result := .error e, tree }
    | .ok (config, glob) =>
      let configPath := (tree.canonical? path).getD path
      let session : Session := {
        root, configPath, config, glob
        outDirOverride := options.outDir
        context := options.context
        extractor := options.extractor
        cache := {}
        finalized := false
        manifest := none }
      let loaded : LogRecord :=
        ⟨.debug, "Loaded " ++ config.name ++ " from " ++ configPath.text, none⟩
      let run := session.begin tree time
      { run with log := loaded :: run.log }

/-- The absolute path of a file whose change is told.  A path that does not lie
below the root may be another spelling of one that does; of the file itself
nothing may be left. -/
def locate (session : Session) (tree : FileTree) (path : Path) : Path :=
  let absolute := session.root.join path
  if absolute.startsWith session.root then absolute
  else
    match absolute.parent?, absolute.fileName? with
    | some parent, some name =>
      match tree.canonical? parent with
      | some parent => parent.join ⟨name⟩
      | none => absolute
    | _, _ => absolute

/-- Reads the configuration again and publishes the manifest.  Entries of files
that the new configuration does not select stay. -/
def reload (session : Session) (tree : FileTree) (time : Nat) :
    Session × TriggerRun ChangeOutcome :=
  match loadProject tree session.configPath with
  | .error e => (session, { result := .error e, tree })
  | .ok (config, glob) =>
    let session := { session with config, glob }
    let log : List LogRecord := [⟨.debug, "Reloaded " ++ session.configPath.text, none⟩]
    match session.publish tree time with
    | (session, tree, .error e) => (session, { result := .error e, tree, log })
    | (session, tree, .ok written) =>
      (session, { result := .ok (.configReloaded written), tree, log })

/-- Brings one source up to date and publishes the manifest. -/
def update (session : Session) (tree : FileTree) (file : Path) (time : Nat) :
    Session × TriggerRun ChangeOutcome :=
  let run := session.cache.process session.extractor tree session.root file
  let session := { session with cache := run.cache }
  let extractions := run.extractions
  match run.result with
  | .error cause => (session, { result := .error (.compile cause), tree, extractions })
  | .ok outcome =>
    let log : List LogRecord := [⟨.step, file.text ++ ": " ++ outcome.text, none⟩]
    match session.publish tree time with
    | (session, tree, .error e) => (session, { result := .error e, tree, log, extractions })
    | (session, tree, .ok written) =>
      (session, { result := .ok (.sourceUpdated file outcome written), tree, log, extractions })

/-- A file has changed. -/
def fileChanged (session : Session) (tree : FileTree) (path : Path) (time : Nat) :
    Session × TriggerRun ChangeOutcome :=
  let ignored : Session × TriggerRun ChangeOutcome := (session, { result := .ok .ignored, tree })
  if session.context.command ≠ .serve then
    (session, { result := .error (.wrongCommand .fileChanged session.context.command), tree })
  else
    let absolute := session.locate tree path
    if absolute.components = session.configPath.components then session.reload tree time
    else
      match absolute.stripPrefix? session.root with
      | none => ignored
      | some file =>
        if session.glob.selects file.text then session.update tree file time else ignored

/-- The bundle of a build is final: the manifest is published, once. -/
def bundleFinalized (session : Session) (tree : FileTree) (time : Nat) :
    Session × TriggerRun (Path × Path) :=
  if session.context.command ≠ .build then
    (session, { result := .error (.wrongCommand .bundleFinalized session.context.command), tree })
  else if session.finalized then (session, { result := .error .alreadyFinalized, tree })
  else
    match session.publish tree time with
    | (session, tree, .error e) => (session, { result := .error e, tree })
    | (session, tree, .ok written) =>
      ({ session with finalized := true }, { result := .ok written, tree })

/-- The path names a manifest or the temporary file of one. -/
def isOwnOutput (path : Path) : Bool :=
  match path.fileName? with
  | some name => manifestFileName.toList.isPrefixOf name.toList
  | none => false

/-- Tells the session of a change and reports what came of it: whether the
manifest was published again.  Its own output is no change. -/
def applyChange (session : Session) (tree : FileTree) (path : Path) (time : Nat) :
    Session × FileTree × Bool × List LogRecord :=
  if isOwnOutput path then (session, tree, false, [])
  else
    let (session, run) := session.fileChanged tree path time
    let (rewritten, report) : Bool × List LogRecord := match run.result with
      | .ok .ignored => (false, [])
      | .ok (.configReloaded _) =>
        (true, [⟨.success, "Configuration reloaded, manifest rewritten", none⟩])
      | .ok (.sourceUpdated file outcome _) =>
        (true, [⟨.info, file.text ++ ": " ++ outcome.text, none⟩])
      | .error e => (false, [⟨.error, e.message, none⟩])
    (session, run.tree, rewritten, run.log ++ report)

end Session

end OpManifest
