import OpManifest.Manifest.Basic

/-!
# Lookups in a manifest

What a host asks of a manifest: the operation with a name, the tool with a
name, and which arguments of a call are variables of the operation.
-/

namespace OpManifest

/-- The tool of an operation with the given name. -/
def OperationDescriptor.tool? (operation : OperationDescriptor) (name : String) : Option ToolSpec :=
  operation.tools.find? (·.name = name)

/-- The arguments that the operation declares as variables. -/
def OperationDescriptor.selectVariables {α : Type} (operation : OperationDescriptor)
    (arguments : List (String × α)) : List (String × α) :=
  arguments.filter fun argument => operation.variableTypes.contains argument.1

namespace Manifest

/-- The operation that the index has under the given name. -/
def operation? (manifest : Manifest) (name : String) : Option OperationDescriptor :=
  manifest.index[name]?.bind fun position => manifest.operations[position]?

/-- The operation that is run before the application asks for it. -/
def prefetched? (manifest : Manifest) : Option OperationDescriptor :=
  manifest.operations.find? (·.prefetch)

/-- Every tool together with its operation. -/
def tools (manifest : Manifest) : List (OperationDescriptor × ToolSpec) :=
  manifest.operations.flatMap fun operation => operation.tools.map fun tool => (operation, tool)

/-- The tool with the given name, and its operation. -/
def tool? (manifest : Manifest) (name : String) : Option (OperationDescriptor × ToolSpec) :=
  manifest.operations.findSome? fun operation =>
    (operation.tool? name).map fun tool => (operation, tool)

end Manifest

end OpManifest
