import OpManifest.Digest.Sha256
import OpManifest.GraphQL.Parser
import OpManifest.GraphQL.Printer
import OpManifest.Operation.Argument
import OpManifest.Operation.Canonical
import OpManifest.Operation.Descriptor
import OpManifest.Text.Blank

/-!
# Compiling operations

A document with one named query or mutation becomes an operation descriptor.
The checks run in a fixed order and the first that fails decides: the number of
operations, their kind, their name, then each tool in turn.
-/

namespace OpManifest

open GraphQL (Directive Document Definition Operation OperationKind VariableDefinition)

/-- The slot that the prefetched operation fills. -/
def prefetchSlot : String := "__anonymous"

/-- The name of a document's content. -/
def contentId (body : String) : String := Digest.sha256 body

/-- The operation of a definition.  The shorthand is a query without a name. -/
def operationOf? : Definition → Option Operation
  | .shorthand selections => some ⟨.query, none, [], [], selections⟩
  | .operation operation => some operation
  | .fragment _ => none

/-- The kinds that can be published. -/
def publishedType : OperationKind → Except CompileError OperationType
  | .query => .ok .query
  | .mutation => .ok .mutation
  | .subscription => .error (.unsupportedOperation OperationKind.subscription.keyword)

/-- The named type of each variable; of two definitions of one variable the
last counts. -/
def typesOf (definitions : List VariableDefinition) : Dictionary :=
  .ofList (definitions.map fun v => (v.name, v.type.innermost))

/-- The tool that a directive declares. -/
def compileTool (directive : Directive) : Except CompileError ToolSpec := do
  let name ← requiredString directive toolDirective "name"
  if name.toList.any Text.isBlank then throw (.invalidToolName name)
  let description ← requiredString directive toolDirective "description"
  let extraInputs ← match ← findArgument directive "extraInputs" .list with
    | some value =>
      value.readAs (Data.Reader.list (ExtraInput.read .memory)) "extraInputs"
    | none => pure []
  let labels ← match ← findArgument directive "labels" .object with
    | some value => some <$> value.readAs (ToolLabels.read .memory) "labels"
    | none => pure none
  return { name, description, extraInputs, labels }

/-- The descriptor of a document with one operation. -/
def describeOperation (document : Document) : Except CompileError OperationDescriptor := do
  let operations := document.definitions.filterMap operationOf?
  let [operation] := operations | throw (.operationCount operations.length)
  let type ← publishedType operation.kind
  let some name := operation.name | throw .anonymousOperation
  let prefetch := operation.directives.any (·.name = prefetchDirective)
  let tools ← (operation.directives.filter (·.name = toolDirective)).mapM compileTool
  let body := (canonical document).print
  return {
    id := contentId body
    name
    type
    body
    variableTypes := typesOf operation.variableDefinitions
    prefetch
    prefetchId := if prefetch then some prefetchSlot else none
    tools }

/-- Compiles the text of a document; a document without operations has no
descriptor. -/
def compile (source : String) : Except CompileError (Option OperationDescriptor) :=
  match Document.parse source with
  | .error position => .error (.malformedDocument position)
  | .ok document =>
    if document.definitions.any (·.isOperation) then some <$> describeOperation document
    else .ok none

end OpManifest
