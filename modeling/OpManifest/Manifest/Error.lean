import OpManifest.Data.Record
import OpManifest.Path

/-!
# Manifest errors

Why a manifest cannot be assembled, written or read.
-/

namespace OpManifest

/-- Why there is no manifest.  An error of a file names its path. -/
inductive ManifestError where
  | manyPrefetched (names : List String)
  | missingEntryPoint (mode : String)
  | serverUnavailable
  | file (path : Path)
  | malformed (path : Path) (cause : Data.Fault)
  deriving Repr

/-- The text of the error, without what the file system or the reader adds. -/
def ManifestError.message : ManifestError → String
  | .manyPrefetched names =>
    "Found multiple operations marked as `@prefetch`: " ++ String.intercalate ", " names
      ++ ". Only one operation may be marked as `@prefetch`."
  | .missingEntryPoint mode =>
    "No entry point found for mode \"" ++ mode ++ "\". Add `entry." ++ mode
      ++ "` to the project configuration."
  | .serverUnavailable =>
    "The dev server address is not known yet; the manifest cannot be written before the server "
      ++ "is listening"
  | .file path => "IO error at " ++ path.text
  | .malformed path _ => "Failed to parse manifest " ++ path.text

end OpManifest
