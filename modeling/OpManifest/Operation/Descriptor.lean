import OpManifest.Data.Record
import OpManifest.Json.Basic
import Std.Data.ExtTreeMap

/-!
# Operation descriptors

What is published of an operation: its canonical document, its variables and
the tools it serves as.  Every record is read from data and written as JSON;
parts that are empty or absent are not written.
-/

namespace OpManifest

open Data

/-- Texts by text, in the order of the keys. -/
abbrev Dictionary := Std.ExtTreeMap String String

/-- A dictionary as a JSON object. -/
def Dictionary.toJson (d : Dictionary) : Json :=
  .object (d.toList.map fun (key, value) => (key, .string value))

/-- A dictionary; of two members with one key the last counts. -/
def Dictionary.read : Reader Dictionary := fun d =>
  (fun members => .ofList members) <$> Reader.mapping Reader.text d

/-- What a host shows while a tool runs and when it has run. -/
structure InvocationLabels where
  invoking : Option String := none
  invoked : Option String := none
  deriving DecidableEq, Repr, Inhabited

/-- The labels of a tool. -/
structure ToolLabels where
  toolInvocation : Option InvocationLabels := none
  deriving DecidableEq, Repr, Inhabited

/-- An input of a tool that is no variable of its operation. -/
structure ExtraInput where
  name : String
  type : String
  description : String
  deriving DecidableEq, Repr, Inhabited

/-- A tool that an operation serves as. -/
structure ToolSpec where
  name : String
  description : String
  extraInputs : List ExtraInput := []
  labels : Option ToolLabels := none
  deriving DecidableEq, Repr, Inhabited

/-- The kinds of operations that can be published. -/
inductive OperationType where
  | query
  | mutation
  deriving DecidableEq, Repr, Inhabited

/-- The name of the kind. -/
def OperationType.name : OperationType → String
  | .query => "query"
  | .mutation => "mutation"

/-- What is published of an operation. -/
structure OperationDescriptor where
  id : String
  name : String
  type : OperationType
  body : String
  variableTypes : Dictionary := ∅
  prefetch : Bool := false
  prefetchId : Option String := none
  tools : List ToolSpec := []
  deriving DecidableEq, Repr, Inhabited

/-! ## Reading -/

namespace InvocationLabels

def invokingField : RecordField (Option String) :=
  .withDefault "invoking" (Reader.optional Reader.text) none

def invokedField : RecordField (Option String) :=
  .withDefault "invoked" (Reader.optional Reader.text) none

def form : RecordForm :=
  ⟨"InvocationLabels", [invokingField.toCheck, invokedField.toCheck], true⟩

/-- Invocation labels; a field with another name is refused. -/
def read (origin : Origin) : Reader InvocationLabels := fun d => do
  let members ← form.members origin d
  return { invoking := ← invokingField.get members, invoked := ← invokedField.get members }

end InvocationLabels

namespace ToolLabels

def toolInvocationField (origin : Origin) : RecordField (Option InvocationLabels) :=
  .withDefault "toolInvocation" (Reader.optional (InvocationLabels.read origin)) none

def form (origin : Origin) : RecordForm :=
  ⟨"ToolLabels", [(toolInvocationField origin).toCheck], true⟩

/-- Tool labels; a field with another name is refused. -/
def read (origin : Origin) : Reader ToolLabels := fun d => do
  let members ← (form origin).members origin d
  return { toolInvocation := ← (toolInvocationField origin).get members }

end ToolLabels

namespace ExtraInput

def nameField : RecordField String := .required "name" Reader.text

def typeField : RecordField String := .required "type" Reader.text

def descriptionField : RecordField String := .required "description" Reader.text

def form : RecordForm :=
  ⟨"ExtraInput", [nameField.toCheck, typeField.toCheck, descriptionField.toCheck], true⟩

/-- An extra input; a field with another name is refused. -/
def read (origin : Origin) : Reader ExtraInput := fun d => do
  let members ← form.members origin d
  return {
    name := ← nameField.get members
    type := ← typeField.get members
    description := ← descriptionField.get members }

end ExtraInput

namespace ToolSpec

def nameField : RecordField String := .required "name" Reader.text

def descriptionField : RecordField String := .required "description" Reader.text

def extraInputsField (origin : Origin) : RecordField (List ExtraInput) :=
  .withDefault "extraInputs" (Reader.list (ExtraInput.read origin)) []

def labelsField (origin : Origin) : RecordField (Option ToolLabels) :=
  .withDefault "labels" (Reader.optional (ToolLabels.read origin)) none

def form (origin : Origin) : RecordForm :=
  ⟨"ToolSpec", [nameField.toCheck, descriptionField.toCheck, (extraInputsField origin).toCheck,
    (labelsField origin).toCheck], false⟩

/-- A tool. -/
def read (origin : Origin) : Reader ToolSpec := fun d => do
  let members ← (form origin).members origin d
  return {
    name := ← nameField.get members
    description := ← descriptionField.get members
    extraInputs := ← (extraInputsField origin).get members
    labels := ← (labelsField origin).get members }

end ToolSpec

/-- The kind of an operation. -/
def OperationType.read (origin : Origin) : Reader OperationType :=
  Reader.variant origin [("query", .query), ("mutation", .mutation)]

namespace OperationDescriptor

def idField : RecordField String := .required "id" Reader.text

def nameField : RecordField String := .required "name" Reader.text

def typeField (origin : Origin) : RecordField OperationType :=
  .required "type" (OperationType.read origin)

def bodyField : RecordField String := .required "body" Reader.text

def variableTypesField : RecordField Dictionary := .withDefault "variables" Dictionary.read ∅

def prefetchField : RecordField Bool := .withDefault "prefetch" Reader.boolean false

def prefetchIdField : RecordField (Option String) :=
  .withDefault "prefetchID" (Reader.optional Reader.text) none

def toolsField (origin : Origin) : RecordField (List ToolSpec) :=
  .withDefault "tools" (Reader.list (ToolSpec.read origin)) []

def form (origin : Origin) : RecordForm :=
  ⟨"OperationDescriptor", [idField.toCheck, nameField.toCheck, (typeField origin).toCheck,
    bodyField.toCheck, variableTypesField.toCheck, prefetchField.toCheck,
    prefetchIdField.toCheck, (toolsField origin).toCheck], false⟩

/-- A descriptor. -/
def read (origin : Origin) : Reader OperationDescriptor := fun d => do
  let members ← (form origin).members origin d
  return {
    id := ← idField.get members
    name := ← nameField.get members
    type := ← (typeField origin).get members
    body := ← bodyField.get members
    variableTypes := ← variableTypesField.get members
    prefetch := ← prefetchField.get members
    prefetchId := ← prefetchIdField.get members
    tools := ← (toolsField origin).get members }

end OperationDescriptor

/-! ## Writing -/

/-- A member that is written only if there is a value. -/
def Json.memberIfSome {α : Type} (key : String) (write : α → Json) :
    Option α → List (String × Json)
  | some value => [(key, write value)]
  | none => []

def InvocationLabels.toJson (labels : InvocationLabels) : Json :=
  .object (Json.memberIfSome "invoking" .string labels.invoking
    ++ Json.memberIfSome "invoked" .string labels.invoked)

def ToolLabels.toJson (labels : ToolLabels) : Json :=
  .object (Json.memberIfSome "toolInvocation" InvocationLabels.toJson labels.toolInvocation)

def ExtraInput.toJson (input : ExtraInput) : Json :=
  .object [("name", .string input.name), ("type", .string input.type),
    ("description", .string input.description)]

def ToolSpec.toJson (tool : ToolSpec) : Json :=
  .object ([("name", .string tool.name), ("description", .string tool.description)]
    ++ (if tool.extraInputs.isEmpty then []
      else [("extraInputs", .array (tool.extraInputs.map ExtraInput.toJson))])
    ++ Json.memberIfSome "labels" ToolLabels.toJson tool.labels)

def OperationDescriptor.toJson (operation : OperationDescriptor) : Json :=
  .object ([("id", .string operation.id), ("name", .string operation.name),
      ("type", .string operation.type.name), ("body", .string operation.body),
      ("variables", operation.variableTypes.toJson), ("prefetch", .boolean operation.prefetch)]
    ++ Json.memberIfSome "prefetchID" .string operation.prefetchId
    ++ [("tools", .array (operation.tools.map ToolSpec.toJson))])

end OpManifest
