import OpManifest.Glob
import OpManifest.Source.Cache

/-!
# Scanning for sources

A scan brings the entries of all source files below a root up to date, in the
order of their paths, and then drops the entries of all others.  It stops at the
first file that cannot be compiled.
-/

namespace OpManifest

open Script (Extractor)

/-- Directories with these names hold no sources. -/
def ignoredDirectories : List String :=
  [".git", ".hg", ".svn", "node_modules", "target", "dist", "build", "coverage", ".next",
    ".turbo", ".cache"]

/-- The names lead through a directory that holds no sources. -/
def isIgnored (names : List String) : Bool := names.dropLast.any ignoredDirectories.contains

/-- The relative path that spells the names. -/
def Path.ofNames (names : List String) : Path := ⟨String.intercalate "/" names⟩

/-- The keys of the source files below a root: those that the glob selects. -/
def sourceKeys (tree : FileTree) (root : Path) (glob : Glob) : List Path :=
  match tree.resolve root with
  | .error _ => []
  | .ok base =>
    ((tree.filesBelow base).filter (!isIgnored ·)).filterMap fun names =>
      let key := Path.ofNames names
      if glob.selects key.text then some key else none

/-- What a scan has found. -/
structure ScanSummary where
  seen : Nat := 0
  updated : Nat := 0
  unchanged : Nat := 0
  pruned : Nat := 0
  deriving DecidableEq, Repr

/-- Counts one file with its outcome. -/
def ScanSummary.count (summary : ScanSummary) (outcome : FileOutcome) : ScanSummary :=
  let summary := { summary with seen := summary.seen + 1 }
  match outcome with
  | .updated _ => { summary with updated := summary.updated + 1 }
  | .unchanged => { summary with unchanged := summary.unchanged + 1 }
  | .skipped | .removed => summary

namespace SourceCache

/-- Brings the entries of the given files up to date, one after the other. -/
def processAll (extractor : Extractor) (tree : FileTree) (root : Path) :
    SourceCache → ScanSummary → Nat → List Path → CacheRun ScanSummary
  | cache, summary, extractions, [] => ⟨cache, .ok summary, extractions⟩
  | cache, summary, extractions, key :: keys =>
    let run := cache.process extractor tree root key
    let extractions := extractions + run.extractions
    match run.result with
    | .error e => ⟨run.cache, .error e, extractions⟩
    | .ok outcome =>
      processAll extractor tree root run.cache (summary.count outcome) extractions keys

/-- Drops the entries of all but the given files. -/
def prune (cache : SourceCache) (keys : List Path) : SourceCache :=
  let kept := keys.map Path.components
  ⟨cache.entries.filter fun key _ => kept.contains key⟩

/-- Scans the files below a root. -/
def scan (cache : SourceCache) (extractor : Extractor) (tree : FileTree) (root : Path)
    (glob : Glob) : CacheRun ScanSummary :=
  let keys := sourceKeys tree root glob
  let run := cache.processAll extractor tree root {} 0 keys
  match run.result with
  | .error _ => run
  | .ok summary =>
    let pruned := run.cache.prune keys
    ⟨pruned, .ok { summary with pruned := run.cache.size - pruned.size }, run.extractions⟩

end SourceCache

end OpManifest
