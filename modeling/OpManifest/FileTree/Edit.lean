import OpManifest.FileTree.Basic

/-!
# Changing file trees

Every change that can fail half way answers the tree that it leaves behind.
-/

namespace OpManifest

namespace FileTree

/-- Puts a file or directory at a place. -/
def put (tree : FileTree) (place : Place) (node : FileNode) : FileTree :=
  { tree with nodes := tree.nodes.insert place node }

/-- Makes the directories that the names lead through from a place, one after
the other, until a file is in the way. -/
def makeDirectories (tree : FileTree) (place : Place) :
    List String → FileTree × Except FileFault Unit
  | [] => (tree, .ok ())
  | name :: names =>
    match tree.follow place name with
    | .error e => (tree, .error e)
    | .ok next =>
      match tree.node? next with
      | none => makeDirectories (tree.put next .directory) next names
      | some .directory => makeDirectories tree next names
      | some (.file _) => (tree, .error .notDirectory)

/-- Makes the directory that a path leads to, and those on the way. -/
def createDirectories (tree : FileTree) (p : Path) : FileTree × Except FileFault Unit :=
  if p.text.toList.contains '\x00' then (tree, .error .invalidName)
  else makeDirectories tree (tree.start p) p.steps

/-- Writes a file. -/
def write (tree : FileTree) (p : Path) (content : ByteArray) : Except FileFault FileTree :=
  match tree.resolve p with
  | .error e => .error e
  | .ok place =>
    match tree.node? place with
    | some .directory => .error .isDirectory
    | _ => .ok (tree.put place (.file content))

/-- Moves a file to another path, in the place of a file that stands there. -/
def rename (tree : FileTree) (source target : Path) : Except FileFault FileTree :=
  match tree.resolve source, tree.readBytes source, tree.resolve target with
  | .ok old, .ok content, .ok new =>
    match tree.node? new with
    | some .directory => .error .isDirectory
    | _ =>
      let without : FileTree := { tree with nodes := tree.nodes.erase old }
      .ok (without.put new (.file content))
  | .error e, _, _ | _, .error e, _ | _, _, .error e => .error e

end FileTree

end OpManifest
