import OpManifest.Path

/-!
# File trees

Files and directories by the names that lead to them.  A path is followed name
by name, as it is spelled: a dot stays, two dots go up, and everything but the
last name has to be a directory.
-/

namespace OpManifest

/-- What stands at a place. -/
inductive FileNode where
  | directory
  | file (content : ByteArray)
  deriving Inhabited

instance : DecidableEq FileNode
  | .directory, .directory => .isTrue rfl
  | .directory, .file _ | .file _, .directory => .isFalse nofun
  | .file a, .file b =>
    match ByteArray.instDecidableEq a b with
    | .isTrue h => .isTrue (h ▸ rfl)
    | .isFalse h => .isFalse fun heq => h (FileNode.file.inj heq)

/-- The names that lead to a place from the root. -/
abbrev Place := List String

/-- A tree of files.  The root directory is always there; relative paths begin
at the place `here`. -/
structure FileTree where
  nodes : Std.ExtTreeMap Place FileNode := ∅
  here : Place := []
  deriving Inhabited

/-- Why a file or directory cannot be used. -/
inductive FileFault where
  | notFound
  | notDirectory
  | isDirectory
  | invalidName
  | notText
  deriving DecidableEq, Repr

/-- The absolute path of a place. -/
def Path.ofPlace (place : Place) : Path := ⟨"/" ++ String.intercalate "/" place⟩

namespace Path

/-- The names of a path in the order in which they are followed.  A slash at
the end is like a dot: it asks for a directory. -/
def steps (p : Path) : List String :=
  let names := (Text.split '/' p.text.toList).filterMap fun piece =>
    if piece.isEmpty then none else some (.ofList piece)
  if p.text.toList.getLast? = some '/' then names ++ ["."] else names

end Path

namespace FileTree

/-- What stands at a place. -/
def node? (tree : FileTree) (place : Place) : Option FileNode :=
  if place = [] then some .directory else tree.nodes[place]?

/-- How long a name may be, in bytes. -/
def maxNameLength : Nat := 255

/-- Follows one name from a place. -/
def follow (tree : FileTree) (place : Place) (name : String) : Except FileFault Place :=
  match tree.node? place with
  | none => .error .notFound
  | some (.file _) => .error .notDirectory
  | some .directory =>
    if name = "." then .ok place
    else if name = ".." then .ok place.dropLast
    else if maxNameLength < name.utf8ByteSize then .error .invalidName
    else .ok (place ++ [name])

/-- Where a path begins. -/
def start (tree : FileTree) (p : Path) : Place := if p.isAbsolute then [] else tree.here

/-- The place that a path leads to.  At that place there may be nothing yet, but
the directory around it is there. -/
def resolve (tree : FileTree) (p : Path) : Except FileFault Place :=
  if p.text = "" then .error .notFound
  else if p.text.toList.contains '\x00' then .error .invalidName
  else p.steps.foldlM tree.follow (tree.start p)

/-- What a path leads to. -/
def lookup (tree : FileTree) (p : Path) : Except FileFault FileNode :=
  match tree.resolve p with
  | .error e => .error e
  | .ok place =>
    match tree.node? place with
    | some node => .ok node
    | none => .error .notFound

/-- The content of a file. -/
def readBytes (tree : FileTree) (p : Path) : Except FileFault ByteArray :=
  match tree.lookup p with
  | .ok (.file content) => .ok content
  | .ok .directory => .error .isDirectory
  | .error e => .error e

/-- The content of a file that is text. -/
def readText (tree : FileTree) (p : Path) : Except FileFault String :=
  match tree.readBytes p with
  | .error e => .error e
  | .ok content =>
    match String.fromUTF8? content with
    | some text => .ok text
    | none => .error .notText

/-- The path leads to a file. -/
def isFile (tree : FileTree) (p : Path) : Bool :=
  match tree.lookup p with
  | .ok (.file _) => true
  | _ => false

/-- The path leads to a directory. -/
def isDirectory (tree : FileTree) (p : Path) : Bool :=
  match tree.lookup p with
  | .ok .directory => true
  | _ => false

/-- The absolute path of what a path leads to, without dots. -/
def canonical? (tree : FileTree) (p : Path) : Option Path :=
  match tree.resolve p with
  | .error _ => none
  | .ok place => (tree.node? place).map fun _ => Path.ofPlace place

/-- The names that lead from one place to another below it. -/
def below? (base place : Place) : Option (List String) :=
  if base.isPrefixOf place then some (place.drop base.length) else none

/-- The files at and below a place, by the names that lead to them, in the order
of those names. -/
def filesBelow (tree : FileTree) (base : Place) : List (List String) :=
  tree.nodes.toList.filterMap fun (place, node) =>
    match node with
    | .file _ => below? base place
    | .directory => none

end FileTree

end OpManifest
