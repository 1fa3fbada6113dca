import OpManifest.HostSettings
import OpManifest.Json.Reader

/-!
# Manifests

The published description of an application: its operations and what a host
needs to know.  A manifest is written with all its fields; read back, fields
with other names do not count.  The index of its operations is not written: it
is built anew (`reindex`) whenever a manifest is read or assembled.
-/

namespace OpManifest

open Data

/-- The published description of an application.  The hash is a token that
differs from one manifest to the next.  The index is kept in memory only: it has
the position of operations under their names. -/
structure Manifest where
  format : String
  version : String
  name : String
  description : String := ""
  hash : String
  resource : String
  operations : List OperationDescriptor := []
  policy : ContentPolicy := {}
  widgetSettings : WidgetSettings := {}
  labels : ToolLabels := {}
  index : Std.ExtTreeMap String Nat := ∅
  deriving DecidableEq, Repr, Inhabited

namespace Manifest

/-- The format that manifests declare. -/
def currentFormat : String := "toolgraph-manifest"

/-- The version of the format that manifests declare. -/
def currentVersion : String := "1"

/-- The manifest with its index built anew: the position of each operation under
its name; of operations with one name the last counts. -/
def reindex (manifest : Manifest) : Manifest :=
  let positions := manifest.operations.zipIdx.map fun (operation, position) =>
    (operation.name, position)
  { manifest with index := .ofList positions }

/-! ## Reading -/

def formatField : RecordField String := .required "format" Reader.text

def versionField : RecordField String := .required "version" Reader.text

def nameField : RecordField String := .required "name" Reader.text

def descriptionField : RecordField String := .withDefault "description" Reader.text ""

def hashField : RecordField String := .required "hash" Reader.text

def resourceField : RecordField String := .required "resource" Reader.text

def operationsField (origin : Origin) : RecordField (List OperationDescriptor) :=
  .withDefault "operations" (Reader.list (OperationDescriptor.read origin)) []

def policyField (origin : Origin) : RecordField ContentPolicy :=
  .withDefault "csp" (ContentPolicy.read origin) {}

def widgetSettingsField (origin : Origin) : RecordField WidgetSettings :=
  .withDefault "widgetSettings" (WidgetSettings.read origin) {}

def labelsField (origin : Origin) : RecordField ToolLabels :=
  .withDefault "labels" (ToolLabels.read origin) {}

def form (origin : Origin) : RecordForm :=
  ⟨"Manifest", [formatField.toCheck, versionField.toCheck, nameField.toCheck,
    descriptionField.toCheck, hashField.toCheck, resourceField.toCheck,
    (operationsField origin).toCheck, (policyField origin).toCheck,
    (widgetSettingsField origin).toCheck, (labelsField origin).toCheck], false⟩

/-- A manifest.  Its index is not part of the data and is left empty. -/
def read (origin : Origin) : Reader Manifest := fun d => do
  let members ← (form origin).members origin d
  return {
    format := ← formatField.get members
    version := ← versionField.get members
    name := ← nameField.get members
    description := ← descriptionField.get members
    hash := ← hashField.get members
    resource := ← resourceField.get members
    operations := ← (operationsField origin).get members
    policy := ← (policyField origin).get members
    widgetSettings := ← (widgetSettingsField origin).get members
    labels := ← (labelsField origin).get members }

/-- The manifest in a text, with its index. -/
def ofText (text : String) : Except Fault Manifest := reindex <$> Json.readText (read .json) text

/-! ## Writing -/

def toJson (manifest : Manifest) : Json :=
  .object [("format", .string manifest.format), ("version", .string manifest.version),
    ("name", .string manifest.name), ("description", .string manifest.description),
    ("hash", .string manifest.hash), ("resource", .string manifest.resource),
    ("operations", .array (manifest.operations.map OperationDescriptor.toJson)),
    ("csp", manifest.policy.toJson), ("widgetSettings", manifest.widgetSettings.toJson),
    ("labels", manifest.labels.toJson)]

/-- The text that a manifest is published as. -/
def text (manifest : Manifest) : String := manifest.toJson.pretty ++ "\n"

end Manifest

end OpManifest
