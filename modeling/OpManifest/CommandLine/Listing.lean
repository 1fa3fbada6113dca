import OpManifest.Manifest.Store

/-!
# Listings

The operations and tools of a published manifest as lines of text.
-/

namespace OpManifest.CommandLine

/-- The path of a manifest: in a directory the published one is meant. -/
def manifestPath (tree : FileTree) (path : Option Path) : Path :=
  match path with
  | none => ⟨manifestFileName⟩
  | some path => if tree.isDirectory path then path.join ⟨manifestFileName⟩ else path

/-- The lines of a tool; the details are its extra inputs. -/
def toolLines (details : Bool) (tool : ToolSpec) : List String :=
  ("   - " ++ tool.name ++ ": " ++ tool.description) ::
    (if details then
      tool.extraInputs.map fun input =>
        "       " ++ input.name ++ " (" ++ input.type ++ ") " ++ input.description
    else [])

/-- The lines of an operation; its id is a detail. -/
def operationLines (details : Bool) (operation : OperationDescriptor) : List String :=
  (" " ++ operation.type.name ++ " " ++ operation.name
    ++ (if operation.prefetch then " [prefetch]" else "")
    ++ (if details then " " ++ operation.id else "")) ::
    operation.tools.flatMap (toolLines details)

/-- The lines that show a manifest. -/
def manifestLines (details : Bool) (path : Path) (manifest : Manifest) : List String :=
  if manifest.operations.isEmpty then [path.text ++ " has no operations."]
  else
    (manifest.name ++ " (" ++ manifest.resource ++ ")") ::
      manifest.operations.flatMap (operationLines details)

/-- The text that shows the manifest at a path. -/
def listing (tree : FileTree) (path : Option Path) (details : Bool) :
    Except ManifestError String :=
  let path := manifestPath tree path
  match Manifest.load tree path with
  | .error e => .error e
  | .ok manifest =>
    .ok (String.join ((manifestLines details path manifest).map (· ++ "\n")))

end OpManifest.CommandLine
