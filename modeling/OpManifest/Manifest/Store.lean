import OpManifest.FileTree.Edit
import OpManifest.Manifest.Error
import OpManifest.Manifest.Basic

/-!
# Manifest files

A manifest is published in the root of its project and in the output directory.
Each file is written beside its place and then moved there, so that no reader
finds a part of it.
-/

namespace OpManifest

/-- The name of a published manifest. -/
def manifestFileName : String := ".application-manifest.json"

/-- Where the content of a file is written before it is moved to its place. -/
def Path.temporary (path : Path) : Path := path.withExtension "json.tmp"

namespace FileTree

/-- Makes the directory that a path lies in. -/
def createParent (tree : FileTree) (path : Path) : FileTree × Except ManifestError Unit :=
  match path.parent? with
  | none => (tree, .ok ())
  | some parent =>
    match tree.createDirectories parent with
    | (tree, .ok ()) => (tree, .ok ())
    | (tree, .error _) => (tree, .error (.file parent))

/-- Writes a file beside its place and moves it there. -/
def replace (tree : FileTree) (path : Path) (content : ByteArray) :
    FileTree × Except ManifestError Unit :=
  match tree.createParent path with
  | (tree, .error e) => (tree, .error e)
  | (tree, .ok ()) =>
    match tree.write path.temporary content with
    | .error _ => (tree, .error (.file path.temporary))
    | .ok written =>
      match written.rename path.temporary path with
      | .error _ => (written, .error (.file path))
      | .ok moved => (moved, .ok ())

end FileTree

namespace Manifest

/-- Writes a manifest to a path. -/
def save (manifest : Manifest) (tree : FileTree) (path : Path) :
    FileTree × Except ManifestError Unit :=
  tree.replace path manifest.text.toUTF8

/-- The paths that a manifest is published at. -/
def targets (root outDir : Path) : Path × Path :=
  (root.join ⟨manifestFileName⟩, outDir.join ⟨manifestFileName⟩)

/-- Publishes a manifest: in the root first, then in the output directory. -/
def publish (manifest : Manifest) (tree : FileTree) (root outDir : Path) :
    FileTree × Except ManifestError (Path × Path) :=
  let (first, second) := targets root outDir
  match manifest.save tree first with
  | (tree, .error e) => (tree, .error e)
  | (tree, .ok ()) =>
    match manifest.save tree second with
    | (tree, .error e) => (tree, .error e)
    | (tree, .ok ()) => (tree, .ok (first, second))

/-- Reads the manifest at a path. -/
def load (tree : FileTree) (path : Path) : Except ManifestError Manifest :=
  match tree.readText path with
  | .error _ => .error (.file path)
  | .ok text =>
    match ofText text with
    | .error cause => .error (.malformed path cause)
    | .ok manifest => .ok manifest

end Manifest

end OpManifest
