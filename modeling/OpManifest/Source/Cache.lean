import OpManifest.Digest.Blake3
import OpManifest.FileTree.Basic
import OpManifest.Operation.Compile
import OpManifest.Script.Extractor

/-!
# Source caches

The compiled operations of source files, with the hash of the text that they
were compiled from.  A file whose text has not changed is not compiled again.
-/

namespace OpManifest

open Script (Extractor)

/-- What is known of a source file. -/
structure CacheEntry where
  file : Path
  hash : String
  operations : List OperationDescriptor
  deriving DecidableEq, Repr

/-- The entries of source files by the components of their paths. -/
structure SourceCache where
  entries : Std.ExtTreeMap (List Path.Component) CacheEntry := ∅
  deriving DecidableEq, Inhabited

/-- What became of a file: it has no documents, its text has not changed, it was
compiled, or its entry was dropped. -/
inductive FileOutcome where
  | skipped
  | unchanged
  | updated (operations : Nat)
  | removed
  deriving DecidableEq, Repr

/-- The outcome as a message shows it. -/
def FileOutcome.text : FileOutcome → String
  | .skipped => "Skipped"
  | .unchanged => "Unchanged"
  | .updated operations => "Updated \x7b operations: " ++ toString operations ++ " \x7d"
  | .removed => "Removed"

/-- What came of working on a cache: the cache that is left, whether the work
succeeded or not, and how many times documents were extracted. -/
structure CacheRun (α : Type) where
  cache : SourceCache
  result : Except CompileError α
  extractions : Nat

/-- The operations of a source text: those of its documents that have one, in
their order. -/
def compileText (extractor : Extractor) (path : Path) (text : String) :
    Except CompileError (List OperationDescriptor) := do
  let documents ← extractor path text
  let operations ← documents.mapM fun document => compile document.source
  return operations.filterMap id

/-- The key of a file in the cache of a root: its path as seen from the root. -/
def sourceKey (root path : Path) : Path := (path.stripPrefix? root).getD path

namespace SourceCache

/-- The entry of a file. -/
def entry? (cache : SourceCache) (key : Path) : Option CacheEntry := cache.entries[key.components]?

/-- The cache with another entry for a file. -/
def insert (cache : SourceCache) (key : Path) (entry : CacheEntry) : SourceCache :=
  ⟨cache.entries.insert key.components entry⟩

/-- The operations of all files, in the order of their paths. -/
def operations (cache : SourceCache) : List OperationDescriptor :=
  cache.entries.toList.flatMap (·.2.operations)

/-- How many files have an entry. -/
def size (cache : SourceCache) : Nat := cache.entries.size

/-- Drops the entry of a file that has no documents. -/
def drop (cache : SourceCache) (key : Path) : CacheRun FileOutcome :=
  if (cache.entry? key).isSome then ⟨⟨cache.entries.erase key.components⟩, .ok .removed, 0⟩
  else ⟨cache, .ok .skipped, 0⟩

/-- Brings the entry of a file up to date.  If that fails the cache is as
before, and what is wrong with the text is told with the key of the file. -/
@[irreducible]
def process (cache : SourceCache) (extractor : Extractor) (tree : FileTree) (root path : Path) :
    CacheRun FileOutcome :=
  let key := sourceKey root path
  let absolute := root.join key
  match tree.readText absolute with
  | .error .notFound => cache.drop key
  | .error _ => ⟨cache, .error (.unreadable absolute), 0⟩
  | .ok text =>
    if !Script.hasMarker text then cache.drop key
    else
      let hash := Digest.blake3 text
      if (cache.entry? key).any (·.hash = hash) then ⟨cache, .ok .unchanged, 0⟩
      else
        match compileText extractor absolute text with
        | .error cause => ⟨cache, .error (.inFile key cause), 1⟩
        | .ok operations =>
          ⟨cache.insert key ⟨key, hash, operations⟩, .ok (.updated operations.length), 1⟩

end SourceCache

end OpManifest
