import OpManifest.Manifest.Context
import OpManifest.Operation.Error
import OpManifest.Project.Config

/-!
# Session errors

Why a trigger of a session fails.
-/

namespace OpManifest

/-- The triggers that are open to one command only. -/
inductive Trigger where
  | fileChanged
  | bundleFinalized
  deriving DecidableEq, Repr

/-- The trigger as messages name it. -/
def Trigger.name : Trigger → String
  | .fileChanged => "file_changed"
  | .bundleFinalized => "bundle_finalized"

/-- Why a trigger of a session fails. -/
inductive SessionError where
  | rootMissing
  | config (cause : ConfigError)
  | compile (cause : CompileError)
  | manifest (cause : ManifestError)
  | wrongCommand (trigger : Trigger) (command : Command)
  | alreadyFinalized
  deriving Repr

/-- The text of the error, without what the file system or a reader adds. -/
def SessionError.message : SessionError → String
  | .rootMissing => "IO error: "
  | .config cause => cause.message
  | .compile cause => cause.message
  | .manifest cause => cause.message
  | .wrongCommand trigger command =>
    "`" ++ trigger.name ++ "` is not available when running as " ++ command.noun
  | .alreadyFinalized =>
    "The bundle was already finalized; the manifest is written once per build"

end OpManifest
